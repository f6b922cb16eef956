import ShardKV.Commands.Growth
import ShardKV.Data.Lag

/-! The lag that the server reports, over whole runs. A group that knows how much it has
read is counted right until an entry that it has ahead of it is deleted or trimmed. From
then on its counter and that of the stream no longer belong together, and once the group has
read on past the gap nothing tells the two cases apart. -/

namespace ShardKV.Commands

open Access Data Server

variable {S : Type} [Numeric S]

/-- The calls that change a stream or the position of a group, without ENTRIESREAD. -/
inductive LagCall
  | xAdd (id : AddID) (noMkStream : Bool) (trim : TrimStrategy) (fields : List Bytes)
  | xDel (ids : List StreamID)
  | xTrim (trim : TrimStrategy)
  | xGroupCreate (group : Bytes) (start : StreamID) (mkstream : Bool)
  | xGroupSetID (group : Bytes) (id : StreamID)
  | xReadGroup (group consumer : Bytes) (after : Option StreamID) (count : ℕ) (noack : Bool)

/-- A call on a key: what it leaves. -/
def LagCall.apply (s : Dataset S) (k : Loc) (now : Instant) : LagCall → Dataset S
  | .xAdd id noMkStream trim fields =>
    ((Commands.xAdd k now id noMkStream trim fields).run (live now) s).2
  | .xDel ids => ((Commands.xDel k ids).run (live now) s).2
  | .xTrim trim => ((Commands.xTrim k trim).run (live now) s).2
  | .xGroupCreate group start mkstream =>
    ((Commands.xGroupCreate k group start mkstream (-1) false).run (live now) s).2
  | .xGroupSetID group id => ((Commands.xGroupSetID k group id false 0).run (live now) s).2
  | .xReadGroup group consumer after count noack =>
    ((Commands.xReadGroup k group consumer after count noack now).run (live now) s).2

/-- The entries of a stream are a slice, whose length is an `int`. -/
def fitsSlice : Option (Entry S) → Bool
  | some ⟨.stream st, _⟩ => decide (st.entries.length < 2 ^ 63)
  | _ => true

/-- A call with its key and its reading of the clock. -/
def lagStep (s : Dataset S) (c : Loc × Instant × LagCall) : Option (Dataset S) :=
  if fitsSlice (c.2.2.apply s c.1 c.2.1 c.1) then some (c.2.2.apply s c.1 c.2.1) else none

/-- What the server reports as the lag of a group, and how many entries the stream has with
ids above the one that was last delivered to it. -/
def lagAt (s : Dataset S) (k : Loc) (group : Bytes) : Option (Option ℤ × ℕ) :=
  match s k with
  | some ⟨.stream st, _⟩ => (st.groups.lookup group).map fun g =>
      (st.groupLag g, (st.entries.filter fun e => decide (g.lastDelivered < e.id)).length)
  | _ => none

/-- A call takes away no entry that a group has ahead of it. -/
def LagCall.SparesGroup (now : Instant) (st : Stream) (g : Group) : LagCall → Prop
  | .xAdd id _ trim fields =>
    ∀ i, st.addID now id = .ok i → trim.Spares (st.concat i fields) g.lastDelivered
  | .xDel ids => ∀ e ∈ st.ahead g.lastDelivered, e.id ∉ ids
  | .xTrim trim => trim.Spares st g.lastDelivered
  | _ => True

/-- A call takes away no entry that a group whose read counter is known has ahead of it. -/
def SparesCounted (s : Dataset S) (c : Loc × Instant × LagCall) : Prop :=
  ∀ st, streamAt c.2.1 s c.1 = some st → ∀ group g, st.groups.lookup group = some g →
    g.hasEntriesRead = true → c.2.2.SparesGroup c.2.1 st g

section Step

/-- What a call makes of the stream it finds, if it changes it. -/
def LagCall.change (now : Instant) (st : Stream) : LagCall → Option Stream
  | .xAdd id _ trim fields => (st.addID now id).toOption.map fun i => (st.append i fields trim).1
  | .xDel ids => some (st.deleteAll ids).1
  | .xTrim trim => some (st.trim trim).1
  | .xGroupCreate group start _ =>
    if (st.groups.lookup group).isSome then none
    else some { st with groups := st.groups.insert group (.new start (-1) false) }
  | .xGroupSetID group id => (st.groups.lookup group).map fun g =>
    { st with
      groups := st.groups.insert group
        { g with lastDelivered := id, entriesRead := 0, hasEntriesRead := false } }
  | .xReadGroup group consumer after count noack => (st.groups.lookup group).map fun g =>
    { st with groups := st.groups.insert group (g.read st consumer after count noack now.val).1 }

variable (vis : Entry S → Bool) (s : Dataset S) (k : Loc)

/-- The store after an edit of a key that may hold a stream. -/
def Edited (f : Stream → Option Stream) (after : Dataset S) : Prop :=
  after = s ∨ after = Function.update s k none ∨ ∃ st d st', AddsTo vis s k st d ∧ f st = some st' ∧
    after = Function.update s k (some ⟨.stream st', d⟩)

variable {vis s k} in
theorem Edited.congr {f f' : Stream → Option Stream} {after : Dataset S}
    (h : Edited vis s k f after) (hf : ∀ st, f st = f' st) : Edited vis s k f' after := by
  rwa [← funext hf]

theorem edited_streamEdit {α : Type} (missing : Except StreamErr α)
    (f : Stream → Option Stream × Except StreamErr α) :
    Edited vis s k (fun st => (f st).1) ((streamEdit k missing f).run vis s).2 := by
  unfold streamEdit
  rw [Prog.run_edit]
  cases hk : seen vis s k with
  | none => exact .inl rfl
  | some e =>
    obtain ⟨value, d⟩ := e
    cases value with
    | stream st =>
      rcases hf : f st with ⟨_ | st', r⟩
      · simp only [hf]
        exact .inl rfl
      · simp only [hf]
        exact .inr (.inr ⟨st, d, st', .inl hk, congrArg Prod.fst hf, rfl⟩)
    | _ => exact .inl rfl

theorem edited_groupEdit {α : Type} (group : Bytes) (missing noGroup : Except StreamErr α)
    (f : Stream → Group → Group × α) :
    Edited vis s k (fun st => (st.groups.lookup group).map fun g =>
      { st with groups := st.groups.insert group (f st g).1 })
      ((groupEdit k group missing noGroup f).run vis s).2 := by
  unfold groupEdit
  refine (edited_streamEdit vis s k missing _).congr fun st => ?_
  cases st.groups.lookup group <;> rfl

theorem edited_xGroupCreate (group : Bytes) (start : StreamID) (mkstream : Bool) (entriesRead : ℤ)
    (hasEntriesRead : Bool) :
    Edited vis s k (fun st => if (st.groups.lookup group).isSome then none
      else some { st with
        groups := st.groups.insert group (.new start entriesRead hasEntriesRead) })
      ((xGroupCreate k group start mkstream entriesRead hasEntriesRead).run vis s).2 := by
  unfold xGroupCreate
  rw [Prog.run_edit]
  cases hk : seen vis s k with
  | none =>
    cases mkstream with
    | false => exact .inl rfl
    | true => exact .inr (.inr ⟨.new, none, _, .inr ⟨hk, rfl, rfl⟩, rfl, rfl⟩)
  | some e =>
    obtain ⟨value, d⟩ := e
    cases value with
    | stream st =>
      cases hg : st.groups.lookup group with
      | some g =>
        simp only [hg]
        exact .inl rfl
      | none =>
        simp only [hg]
        exact .inr (.inr ⟨st, d, _, .inl hk, if_neg (by simp [hg]), rfl⟩)
    | _ => exact .inl rfl

theorem LagCall.edited (c : LagCall) (now : Instant) :
    Edited (live now) s k (c.change now) (c.apply s k now) := by
  cases c with
  | xAdd id noMkStream trim fields =>
    have hout := xAdd_outcome (live now) s k now id trim fields noMkStream
    simp only [LagCall.apply]
    generalize (Commands.xAdd k now id noMkStream trim fields).run (live now) s = r at hout ⊢
    cases hout with
    | absent h => exact .inl rfl
    | otherKind h hkind => exact .inl rfl
    | refused h hid hleft => exact hleft.elim .inl fun h => .inr (.inl h)
    | added h hid => exact .inr (.inr ⟨_, _, _, h, by simp [LagCall.change, hid, Except.toOption], rfl⟩)
  | xDel ids => exact edited_streamEdit ..
  | xTrim trim => exact edited_streamEdit ..
  | xGroupCreate group start mkstream => exact edited_xGroupCreate ..
  | xGroupSetID group id => exact edited_groupEdit ..
  | xReadGroup group consumer after count noack => exact edited_groupEdit ..

end Step

/-- A stream is in order and its groups are counted. -/
def InStep (st : Stream) : Prop :=
  st.Ordered ∧ ∀ group g, st.groups.lookup group = some g → st.Counted g

theorem InStep.regroup {st : Stream} (h : InStep st) (group : Bytes) {g : Group} (hg : st.Counted g) :
    InStep { st with groups := st.groups.insert group g } := by
  refine ⟨⟨h.1.ascending, h.1.nonzero, h.1.below⟩, fun name g' hlookup => ?_⟩
  by_cases hname : name = group
  · subst hname
    rw [Finmap.lookup_insert] at hlookup
    cases hlookup
    exact ⟨hg.reached, hg.counters⟩
  · rw [Finmap.lookup_insert_of_ne _ hname] at hlookup
    exact ⟨(h.2 name g' hlookup).reached, (h.2 name g' hlookup).counters⟩

theorem InStep.change {c : LagCall} {now : Instant} {st st' : Stream} (h : InStep st)
    (hspares : ∀ group g, st.groups.lookup group = some g → g.hasEntriesRead = true →
      c.SparesGroup now st g) (hchange : c.change now st = some st') : InStep st' := by
  obtain ⟨hord, hcount⟩ := h
  cases c with
  | xAdd id noMkStream trim fields =>
    cases hid : st.addID now id with
    | error e => simp [LagCall.change, hid, Except.toOption] at hchange
    | ok i =>
      simp only [LagCall.change, hid, Except.toOption, Option.map_some, Option.some.injEq] at hchange
      subst hchange
      have hlt := Stream.lt_of_addID hid
      refine ⟨hord.append hlt fields trim, fun group g hg => ?_⟩
      have hg' : st.groups.lookup group = some g := (Stream.trim_groups trim ▸ hg :)
      exact ((hcount group g hg').concat hlt fields).trim (hord.concat hlt fields).ascending
        fun hread => hspares group g hg' hread i hid
  | xDel ids =>
    cases hchange
    refine ⟨hord.deleteAll ids, fun group g hg => ?_⟩
    rw [Stream.deleteAll_groups] at hg
    exact (hcount group g hg).deleteAll (hspares group g hg)
  | xTrim trim =>
    cases hchange
    refine ⟨hord.trim trim, fun group g hg => ?_⟩
    rw [Stream.trim_groups] at hg
    exact (hcount group g hg).trim hord.ascending (hspares group g hg)
  | xGroupCreate group start mkstream =>
    simp only [LagCall.change] at hchange
    split_ifs at hchange
    cases hchange
    exact InStep.regroup ⟨hord, hcount⟩ group (.unknown rfl)
  | xGroupSetID group id =>
    obtain ⟨g, -, rfl⟩ := Option.map_eq_some_iff.1 hchange
    exact InStep.regroup ⟨hord, hcount⟩ group (.unknown rfl)
  | xReadGroup group consumer after count noack =>
    obtain ⟨g, hg, rfl⟩ := Option.map_eq_some_iff.1 hchange
    exact InStep.regroup ⟨hord, hcount⟩ group ((hcount group g hg).read hord ..)

/-- Every stored stream is in step and no longer than a slice. -/
def LagInvariant (e : Entry S) : Prop :=
  fitsSlice (some e) = true ∧ ∀ st, e.value = .stream st → InStep st

theorem inStep_addsTo {s : Dataset S} (h : Prog.All LagInvariant s) {vis : Entry S → Bool} {k : Loc}
    {st : Stream} {d : Option ℤ} (hst : AddsTo vis s k st d) : InStep st := by
  rcases hst with hst | ⟨-, rfl, -⟩
  · exact (Prog.all_seen h vis k hst).2 st rfl
  · exact ⟨ordered_new, fun group g hg => by simp [Stream.new] at hg⟩

theorem lagStep_invariant {s s' : Dataset S} {c : Loc × Instant × LagCall}
    (h : Prog.All LagInvariant s) (hspares : SparesCounted s c) (hstep : lagStep s c = some s') :
    Prog.All LagInvariant s' := by
  obtain ⟨k, now, call⟩ := c
  simp only [lagStep] at hstep
  split_ifs at hstep with hfits
  obtain rfl := Option.some.inj hstep
  rcases call.edited s k now with hleft | hleft | ⟨st, d, st', hst, hchange, hleft⟩
  · rw [hleft]
    exact h
  · exact hleft ▸ Prog.all_update h k fun _ hx => absurd hx (by simp)
  · rw [hleft] at hfits ⊢
    rw [Function.update_self] at hfits
    refine Prog.all_update h k fun x hx => ?_
    obtain rfl := Option.some.inj hx
    refine ⟨hfits, fun st'' heq => Value.stream.inj heq ▸ ?_⟩
    refine (inStep_addsTo h hst).change (fun group g hg hread => ?_) hchange
    rcases hst with hst | ⟨-, rfl, -⟩
    · exact hspares st (streamAt_eq_some.2 ⟨d, hst⟩) group g hg hread
    · simp [Stream.new] at hg

/-- In a run that never deletes or trims an entry which a group with a known read counter has
ahead of it, a lag that is reported is the number of entries after the last one delivered. -/
theorem known_lag_exact {s : Dataset S} (h : Reaches lagStep SparesCounted emptyDataset s) {k : Loc}
    {group : Bytes} {n : ℤ} {count : ℕ} (hlag : lagAt s k group = some (some n, count)) :
    n = count := by
  have hinv : Prog.All LagInvariant s := by
    refine Reaches.invariant (fun t c u ht hok hstep => ?_) h fun _ _ hk => ?_
    · exact lagStep_invariant ht hok hstep
    · cases hk
  unfold lagAt at hlag
  split at hlag
  · rename_i st d hk
    obtain ⟨g, hg, heq⟩ := Option.map_eq_some_iff.1 hlag
    obtain ⟨hn, rfl⟩ := Prod.mk.inj heq
    obtain ⟨hfits, hin⟩ := hinv k _ hk
    obtain ⟨hord, hcount⟩ := hin st rfl
    exact Stream.groupLag_exact hord (hcount group g hg) (of_decide_eq_true hfits) hn
  · cases hlag

/-- A call that takes nothing away. -/
def LagCall.growing : LagCall → Bool
  | .xAdd _ _ .none _ => true
  | .xAdd .. => false
  | .xDel _ => false
  | .xTrim _ => false
  | _ => true

theorem spares_of_growing {s : Dataset S} {c : Loc × Instant × LagCall}
    (h : c.2.2.growing = true) : SparesCounted s c := by
  obtain ⟨k, now, call⟩ := c
  intro st _ group g _ _
  cases call with
  | xAdd id noMkStream trim fields =>
    cases trim with
    | none => exact fun _ _ => trivial
    | _ => cases h
  | xDel ids => cases h
  | xTrim trim => cases h
  | _ => trivial

/-- Four entries, and a group that has read the first. -/
def readFirst : List (Loc × Instant × LagCall) :=
  let entry (ms : Fin (2 ^ 64)) : LagCall :=
    .xAdd (.explicit (streamID ms 1)) false .none [ascii "f", ascii "v"]
  let calls := [entry 1, entry 2, entry 3, entry 4, .xGroupCreate (ascii "g") zeroID false,
    .xReadGroup (ascii "g") (ascii "c") none 1 false]
  calls.map fun call => ((0, ascii "s"), 0, call)

/-- The lag of the group that a run of calls on one key ends with. -/
def lagAfter (calls : List (Loc × Instant × LagCall)) : Option (Option ℤ × ℕ) :=
  (play lagStep (emptyDataset : Dataset ℤ) calls).bind fun s => lagAt s (0, ascii "s") (ascii "g")

theorem readFirst_lag : ∃ s : Dataset ℤ, Reaches lagStep SparesCounted emptyDataset s ∧
    lagAt s (0, ascii "s") (ascii "g") = some (some 3, 3) ∧ (3 : ℤ) = (3 : ℕ) := by
  have heval : lagAfter readFirst = some (some 3, 3) := by decide +kernel
  obtain ⟨s, hplay, hlag⟩ := Option.bind_eq_some_iff.1 heval
  have hreach : Reaches lagStep SparesCounted emptyDataset s :=
    reaches_of_play (fun u c hc => spares_of_growing (by revert c; decide)) hplay
  exact ⟨s, hreach, hlag, known_lag_exact hreach hlag⟩

/-- The second entry is deleted and the group reads on: it is told of two entries where there
is one. -/
theorem deleted_ahead : ∃ s : Dataset ℤ, Reachable lagStep emptyDataset s ∧
    lagAt s (0, ascii "s") (ascii "g") = some (some 2, 1) := by
  have heval : lagAfter (readFirst ++ [((0, ascii "s"), 0, .xDel [streamID 2 1]),
      ((0, ascii "s"), 0, .xReadGroup (ascii "g") (ascii "c") none 1 false)]) = some (some 2, 1) := by
    decide +kernel
  obtain ⟨s, hplay, hlag⟩ := Option.bind_eq_some_iff.1 heval
  exact ⟨s, reachable_of_play hplay, hlag⟩

end ShardKV.Commands
