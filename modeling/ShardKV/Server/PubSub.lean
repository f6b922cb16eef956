import ShardKV.Access.Machine

/-! Delivery to a subscriber. A publisher hands its message to the subscriber's bounded
queue under the registry lock, or finds the queue full and drops the subscriber after
releasing the lock; the subscriber's pump takes messages out of the queue and writes
them to the connection. The subscriber stays registered until its connection is closed,
so messages can find room in its queue after one has found none. -/

namespace ShardKV.Server

open Access

def pubsubQueue : ℕ := 256

/-- A connection with a subscription to one channel. What was published there since it
subscribed and what was written to it are kept in order; `slow` counts the publishers
that found its queue full and have not dropped it yet, and `closing` says that the one
that dropped it first has yet to close the connection. -/
structure Subscription (M : Type) where
  published : List M
  queue : List M
  inFlight : Option M
  written : List M
  slow : ℕ
  dropped : Bool
  closing : Bool
  registered : Bool
  pumping : Bool
  finished : Bool
  connected : Bool
  deriving DecidableEq

namespace Subscription

variable {M : Type}

def new : Subscription M := ⟨[], [], none, [], 0, false, false, true, false, false, true⟩

/-- What publishers, the pump and the connection do, each under its lock. -/
inductive Event (M : Type)
  | publish (m : M)
  | drop
  | closeDropped
  | startPump
  | take
  | write
  | noticeDropped
  | noticeDone
  | unsubscribe
  | finish
  | hangUp

/-- One step; none where the event cannot happen. -/
def step (cap : ℕ) (s : Subscription M) : Event M → Option (Subscription M)
  | .publish m =>
    let s := { s with published := s.published ++ [m] }
    if !s.registered then some s
    else if s.queue.length < cap then some { s with queue := s.queue ++ [m] }
    else some { s with slow := s.slow + 1 }
  | .drop =>
    -- only the first one to drop it closes the connection
    if s.slow = 0 then none
    else some { s with slow := s.slow - 1, dropped := true, closing := s.closing || !s.dropped }
  | .closeDropped => if s.closing then some { s with closing := false, connected := false } else none
  | .startPump => if s.pumping then none else some { s with pumping := true }
  | .take =>
    match s.queue with
    | m :: rest =>
      if s.pumping && s.inFlight.isNone then some { s with queue := rest, inFlight := some m } else none
    | [] => none
  | .write =>
    match s.inFlight with
    | some m =>
      if s.connected then some { s with inFlight := none, written := s.written ++ [m] }
      else some { s with inFlight := none, pumping := false }
    | none => none
  | .noticeDropped =>
    if s.pumping && s.inFlight.isNone && s.dropped then
      some { s with connected := false, pumping := false }
    else none
  | .noticeDone =>
    if s.pumping && s.inFlight.isNone && s.finished then some { s with pumping := false } else none
  | .unsubscribe => some { s with registered := false }
  | .finish => some { s with finished := true }
  | .hangUp => some { s with connected := false }

/-- What left the registry for the connection and is not lost. -/
def handed (s : Subscription M) : List M := s.written ++ s.inFlight.toList ++ s.queue

/-- Some publisher has found the queue full. -/
def Refused (s : Subscription M) : Prop := 0 < s.slow ∨ s.dropped = true
  deriving Decidable

/-- Nothing is published into a queue with room between the moment one publisher found
it full and the closing of the connection. -/
def Calm (cap : ℕ) (s : Subscription M) : Event M → Prop
  | .publish _ => s.registered = true → s.connected = true → s.Refused → cap ≤ s.queue.length
  | _ => True

/-- What is written is what was published, without a gap; while the connection is up so
is what is on its way, and nothing is missing from it unless a publisher was refused. -/
structure Inv (s : Subscription M) : Prop where
  written : s.written <+: s.published
  handed : s.connected = true → s.handed <+: s.published
  complete : s.connected = true → s.registered = true → ¬ s.Refused → s.handed = s.published

theorem Inv.new : (new : Subscription M).Inv where
  written := List.prefix_rfl
  handed _ := List.prefix_rfl
  complete _ _ _ := rfl

/-- A step that publishes nothing, loses nothing while the connection is up, and brings
back neither the connection nor the registration. -/
theorem Inv.quiet {s t : Subscription M} (h : s.Inv) (hpub : t.published = s.published)
    (hwritten : t.written <+: s.published) (hconn : t.connected = true → s.connected = true)
    (hhanded : t.connected = true → t.handed = s.handed)
    (hreg : t.registered = true → s.registered = true) (href : s.Refused → t.Refused) : t.Inv where
  written := hpub ▸ hwritten
  handed hc := by
    rw [hhanded hc, hpub]
    exact h.handed (hconn hc)
  complete hc hr hnot := by
    rw [hhanded hc, hpub]
    exact h.complete (hconn hc) (hreg hr) fun hs => hnot (href hs)

theorem Inv.publish {cap : ℕ} {s t : Subscription M} {m : M} (h : s.Inv) (hcalm : s.Calm cap (.publish m))
    (hstep : s.step cap (.publish m) = some t) : t.Inv := by
  have hlonger : s.published <+: s.published ++ [m] := List.prefix_append _ _
  simp only [step] at hstep
  split_ifs at hstep with hreg hroom
  · obtain rfl := Option.some.inj hstep
    exact ⟨h.written.trans hlonger, fun hc => (h.handed hc).trans hlonger,
      fun _ hr => absurd hr (by simpa using hreg)⟩
  · obtain rfl := Option.some.inj hstep
    -- a message finds room only where none was refused before
    have hreg' : s.registered = true := by simpa using hreg
    have hsame (hc : s.connected = true) : s.handed = s.published :=
      h.complete hc hreg' fun href => absurd (hcalm hreg' hc href) (Nat.not_le.mpr hroom)
    have hadd : s.written ++ s.inFlight.toList ++ (s.queue ++ [m]) = s.handed ++ [m] := by
      rw [Subscription.handed, ← List.append_assoc]
    have hall (hc : s.connected = true) :
        s.written ++ s.inFlight.toList ++ (s.queue ++ [m]) = s.published ++ [m] := by
      rw [hadd, hsame hc]
    exact ⟨h.written.trans hlonger, fun hc => (hall hc) ▸ List.prefix_rfl, fun hc _ _ => hall hc⟩
  · obtain rfl := Option.some.inj hstep
    exact ⟨h.written.trans hlonger, fun hc => (h.handed hc).trans hlonger,
      fun _ _ hnot => absurd (.inl (Nat.succ_pos _)) hnot⟩

theorem Inv.take {cap : ℕ} {s t : Subscription M} (h : s.Inv) (hstep : s.step cap .take = some t) :
    t.Inv := by
  simp only [step] at hstep
  cases hq : s.queue with
  | nil => simp [hq] at hstep
  | cons m rest =>
    simp only [hq] at hstep
    split_ifs at hstep with hidle
    obtain rfl := Option.some.inj hstep
    have hnone : s.inFlight = none := Option.isNone_iff_eq_none.mp (Bool.and_eq_true_iff.mp hidle).2
    refine h.quiet rfl h.written id (fun _ => ?_) id id
    simp [Subscription.handed, hnone, hq]

theorem Inv.write {cap : ℕ} {s t : Subscription M} (h : s.Inv) (hstep : s.step cap .write = some t) :
    t.Inv := by
  simp only [step] at hstep
  cases hm : s.inFlight with
  | none => simp [hm] at hstep
  | some m =>
    simp only [hm] at hstep
    split_ifs at hstep with hconn
    · obtain rfl := Option.some.inj hstep
      have hsame : s.written ++ [m] ++ [] ++ s.queue = s.handed := by
        simp [Subscription.handed, hm]
      have hnext : s.written ++ [m] <+: s.handed := by
        rw [← hsame, List.append_nil]
        exact List.prefix_append _ _
      exact h.quiet rfl (hnext.trans (h.handed hconn)) id (fun _ => hsame) id id
    · obtain rfl := Option.some.inj hstep
      exact h.quiet rfl h.written id (fun hc => absurd hc hconn) id id

theorem Inv.step {cap : ℕ} {s t : Subscription M} {e : Event M} (h : s.Inv) (hcalm : s.Calm cap e)
    (hstep : s.step cap e = some t) : t.Inv := by
  cases e with
  | publish m => exact h.publish hcalm hstep
  | take => exact h.take hstep
  | write => exact h.write hstep
  | drop =>
    simp only [Subscription.step] at hstep
    split_ifs at hstep
    obtain rfl := Option.some.inj hstep
    exact h.quiet rfl h.written id (fun _ => rfl) id fun _ => .inr rfl
  | closeDropped | noticeDropped =>
    simp only [Subscription.step] at hstep
    split_ifs at hstep
    obtain rfl := Option.some.inj hstep
    exact h.quiet rfl h.written (fun hc => absurd hc (by simp)) (fun _ => rfl) id id
  | hangUp =>
    obtain rfl := Option.some.inj hstep
    exact h.quiet rfl h.written (fun hc => absurd hc (by simp)) (fun _ => rfl) id id
  | unsubscribe =>
    obtain rfl := Option.some.inj hstep
    exact h.quiet rfl h.written id (fun _ => rfl) (fun hr => absurd hr (by simp)) id
  | startPump | noticeDone =>
    simp only [Subscription.step] at hstep
    split_ifs at hstep
    obtain rfl := Option.some.inj hstep
    exact h.quiet rfl h.written id (fun _ => rfl) id id
  | finish =>
    obtain rfl := Option.some.inj hstep
    exact h.quiet rfl h.written id (fun _ => rfl) id id

section Overtaking

variable {cap : ℕ} {s : Subscription M}

/-- Messages that find room are queued. -/
theorem play_publish (hreg : s.registered = true) {ms : List M}
    (hroom : s.queue.length + ms.length ≤ cap) :
    play (step cap) s (ms.map .publish) =
      some { s with published := s.published ++ ms, queue := s.queue ++ ms } := by
  induction ms generalizing s with
  | nil => simp [play]
  | cons m ms ih =>
    rw [List.length_cons] at hroom
    have hstep : s.step cap (.publish m) =
        some { s with published := s.published ++ [m], queue := s.queue ++ [m] } := by
      simp [step, hreg, show s.queue.length < cap by omega]
    rw [List.map_cons, play, hstep, Option.bind_some, ih]
    · simp
    · exact hreg
    · rw [List.length_append, List.length_singleton]
      omega

/-- The pump writes all that is queued. -/
theorem play_pump (hpump : s.pumping = true) (hconn : s.connected = true) (hidle : s.inFlight = none) :
    play (step cap) s (List.replicate s.queue.length [.take, .write]).flatten =
      some { s with queue := [], written := s.written ++ s.queue } := by
  obtain ⟨_, queue, _, written, _, _, _, _, _, _, _⟩ := s
  dsimp only at hpump hconn hidle
  subst hpump hconn hidle
  induction queue generalizing written with
  | nil => simp [play]
  | cons m queue ih => simpa [play, step, List.replicate_succ] using ih (written ++ [m])

/-- The queue fills up and the next message finds it full; then the pump makes room for
one more and writes all that is queued. -/
theorem reaches_gap (n : ℕ) : Reachable (step (n + 1)) .new
    ⟨List.range (n + 1) ++ [n + 1, n + 2], [], none, List.range (n + 1) ++ [n + 2], 1, false, false,
      true, true, false, true⟩ := by
  have hqueue := List.range_succ_eq_map (n := n)
  have hfill : play (step (n + 1)) ⟨[], [], none, [], 0, false, false, true, true, false, true⟩
      ((List.range (n + 1)).map .publish) = _ := play_publish rfl (by simp)
  have hpass : play (step (n + 1))
      ⟨List.range (n + 1), List.range (n + 1), none, [], 0, false, false, true, true, false, true⟩
      [.publish (n + 1), .take, .write, .publish (n + 2)] =
        some ⟨List.range (n + 1) ++ [n + 1, n + 2], (List.range n).map Nat.succ ++ [n + 2], none, [0], 1,
          false, false, true, true, false, true⟩ := by
    simp [play, step, hqueue]
  have hpump := (reachable_of_play hpass).trans (reachable_of_play (play_pump rfl rfl rfl))
  rw [hqueue]
  exact .head .startPump trivial rfl ((reachable_of_play hfill).trans (by simpa [hqueue] using hpump))

end Overtaking

end Subscription

/-- In every run in which no message finds room in the queue after another has found
none, what is written to the subscriber is the beginning of what was published. -/
theorem pubsub_contiguous {M : Type} {cap : ℕ} {s : Subscription M}
    (h : Reaches (Subscription.step cap) (Subscription.Calm cap) .new s) : s.written <+: s.published := by
  have hinv : s.Inv :=
    h.invariant (fun _ _ _ hs hcalm hstep => Subscription.Inv.step hs hcalm hstep) Subscription.Inv.new
  exact hinv.written

/-- One message, published and written. -/
def delivered : Subscription ℕ := ⟨[7], [], none, [7], 0, false, false, true, true, false, true⟩

theorem delivered_contiguous : delivered.written <+: delivered.published :=
  @pubsub_contiguous ℕ pubsubQueue delivered
    (.tail .write (.tail .take (.tail (.publish 7) (.tail .startPump .refl trivial rfl)
      (fun _ _ hrefused => absurd hrefused (by decide)) rfl) trivial rfl) trivial rfl)

theorem overtaken_leaves_gap : ¬ ∀ s : Subscription ℕ,
    Reachable (Subscription.step pubsubQueue) .new s → s.written <+: s.published := by
  intro hall
  have hgap := hall _ (Subscription.reaches_gap 255)
  have hnext := (List.prefix_append_right_inj _).mp hgap
  simp at hnext

end ShardKV.Server
