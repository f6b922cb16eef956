import ShardKV.Data.Groups
import ShardKV.Commands.Streams
import ShardKV.Server.Exec

/-! What a refused command leaves behind. XADD cleans up after itself by the look of
the stream and not by whether this call made it, and XREADGROUP delivers from one
stream before it has looked at the next. -/

namespace ShardKV.Commands

open Access Data Resp Server Prog

variable {S : Type} [LinearOrder S]

/-- The live stream of a key. -/
def streamAt (now : Instant) (s : Dataset S) (k : Loc) : Option Stream :=
  match liveAt now s k with
  | some ⟨.stream st, _⟩ => some st
  | _ => none

theorem streamAt_eq_some {now : Instant} {s : Dataset S} {k : Loc} {st : Stream} :
    streamAt now s k = some st ↔ ∃ d, liveAt now s k = some ⟨.stream st, d⟩ := by
  unfold streamAt
  constructor
  · intro h
    split at h
    · rename_i st' d hk
      cases h
      exact ⟨d, hk⟩
    · cases h
  · rintro ⟨d, hk⟩
    rw [hk]

/-- A stream that looks as if it had just been made. -/
def Blank (st : Stream) : Prop := st.entries = [] ∧ st.added = 0 ∧ st.groups = ∅

/-- No XADD to the key that answers with an error changes a live key. -/
def XAddRefusesCleanly (v : View) (env : Env) (s : Dataset S) (key : Bytes) : Prop :=
  ∀ name rest text, ((cmdXAdd v env (name :: key :: rest)).run (live env.now) s).1.1 = .error text →
    liveAt env.now ((cmdXAdd v env (name :: key :: rest)).run (live env.now) s).2 = liveAt env.now s

theorem blank_new : Blank .new := ⟨rfl, rfl, rfl⟩

/-- A refused `XAdd` leaves the live keys alone unless it meets a blank stream. -/
theorem xAdd_error {now : Instant} {s : Dataset S} {k : Loc}
    (h : ∀ st, streamAt now s k = some st → ¬ Blank st) {id : AddID} {noMkStream : Bool}
    {trim : TrimStrategy} {fields : List Bytes} {e : StreamErr}
    (he : ((xAdd k now id noMkStream trim fields).run (live now) s).1 = .error e) :
    liveAt now ((xAdd k now id noMkStream trim fields).run (live now) s).2 = liveAt now s := by
  unfold streamAt liveAt at h
  unfold liveAt
  unfold xAdd at he ⊢
  rw [run_edit] at he ⊢
  cases hk : seen (live now) s k with
  | none =>
    rw [hk] at he
    dsimp only at he ⊢
    cases noMkStream with
    | true => rfl
    | false =>
      cases hid : Stream.addID .new now id with rw [hid] at he
      | ok i => cases he
      | error e' =>
        -- the stream of this very call, where only a hidden entry can have been
        simp only [Bool.false_eq_true, if_false, if_pos (show _ ∧ _ ∧ _ from blank_new)]
        exact alike_drop hk
  | some en =>
    obtain ⟨value, d⟩ := en
    cases value with
    | stream st =>
      rw [hk] at he h
      dsimp only at he ⊢
      cases hid : st.addID now id with rw [hid] at he
      | ok i => cases he
      | error e' => simp only [if_neg (show ¬(_ ∧ _ ∧ _) from h st rfl)]
    | _ => rfl

/-- The zero id is refused, and a blank stream is then taken away. -/
theorem xAdd_zero {now : Instant} {s : Dataset S} {k : Loc} {st : Stream} {d : Option ℤ}
    (hk : liveAt now s k = some ⟨.stream st, d⟩) (hblank : Blank st) (fields : List Bytes) :
    (xAdd k now (.explicit zeroID) false .none fields).run (live now) s =
      (.error .idSmaller, Function.update s k none) := by
  unfold liveAt at hk
  unfold xAdd
  rw [run_edit, hk]
  have hid : st.addID now (.explicit zeroID) = .error .idSmaller := by
    simp only [Stream.addID, if_true]
  simp only [hid, if_pos (show _ ∧ _ ∧ _ from hblank)]

/-- Whatever the operands of XADD are, it either runs no program or `XAdd`. -/
theorem cmdXAdd_cases (v : View) (env : Env) (name key : Bytes) (rest : List Bytes) :
    (∃ r, cmdXAdd (S := S) v env (name :: key :: rest) = pure (r, [])) ∨
      ∃ id noMkStream trim fields, ∃ reply : Except StreamErr (Option (StreamID × ℕ)) → Reply × List Args,
        (∀ r text, (reply r).1 = .error text → ∃ e, r = .error e) ∧
          cmdXAdd (S := S) v env (name :: key :: rest) =
            reply <$> xAdd (v.loc key) env.now id noMkStream trim fields := by
  unfold cmdXAdd
  dsimp only
  split
  · exact .inl ⟨_, rfl⟩
  · rename_i o rest' _
    split_ifs
    · exact .inl ⟨_, rfl⟩
    · cases rest' with
      | nil => exact .inl ⟨_, rfl⟩
      | cons id fields =>
        dsimp only
        cases parseXAddID id with
        | none => exact .inl ⟨_, rfl⟩
        | some id =>
          dsimp only
          split_ifs
          · exact .inl ⟨_, rfl⟩
          · refine .inr ⟨_, _, _, _, _, ?_, rfl⟩
            intro r text hr
            match r with
            | .error e => exact ⟨e, rfl⟩
            | .ok none => cases hr
            | .ok (some _) => cases hr

/-- XADD with the zero id takes a blank stream away. -/
theorem not_cleanly_of_blank {v : View} {env : Env} {s : Dataset S} {key : Bytes} {st : Stream}
    (hst : streamAt env.now s (v.loc key) = some st) (hblank : Blank st) :
    ¬ XAddRefusesCleanly v env s key := by
  intro h
  obtain ⟨d, hk⟩ := streamAt_eq_some.mp hst
  have hrun := xAdd_zero hk hblank [ascii "f", ascii "v"]
  obtain ⟨reply, hreply, hcmd⟩ :
      ∃ reply : Except StreamErr (Option (StreamID × ℕ)) → Reply × List Args,
        reply (.error .idSmaller) = (xaddErr .idSmaller, []) ∧
          (cmdXAdd (S := S) v env [ascii "XADD", key, ascii "0-0", ascii "f", ascii "v"]) =
            reply <$> xAdd (v.loc key) env.now (.explicit zeroID) false .none [ascii "f", ascii "v"] := by
    refine ⟨_, ?_, rfl⟩
    rfl
  have hleft := h (ascii "XADD") [ascii "0-0", ascii "f", ascii "v"] _
    (by rw [hcmd, run_map, hrun, hreply]; rfl)
  rw [hcmd, run_map, hrun] at hleft
  have hkey := congrFun hleft (v.loc key)
  rw [hk] at hkey
  simp [liveAt, seen] at hkey

/-- What a refused XADD finds is left as it was, for every XADD to a key, exactly when
the key holds no blank stream. -/
theorem xadd_refuses_cleanly_iff (v : View) (env : Env) (s : Dataset S) (key : Bytes) :
    XAddRefusesCleanly v env s key ↔
      ∀ st, streamAt env.now s (v.loc key) = some st → ¬ Blank st := by
  constructor
  · intro h st hst hblank
    exact not_cleanly_of_blank hst hblank h
  · intro h name rest text herr
    obtain ⟨r, hr⟩ | ⟨id, noMkStream, trim, fields, reply, hreply, hr⟩ :=
      cmdXAdd_cases (S := S) v env name key rest
    · rw [hr]
      rfl
    · rw [hr, run_map] at herr ⊢
      obtain ⟨e, he⟩ := hreply _ _ herr
      exact xAdd_error h he

/-- A group is made together with its stream and destroyed again: the stream that is
left is removed by a refused XADD. -/
def emptiedStream : Dataset ℤ :=
  [[ascii "XGROUP", ascii "CREATE", ascii "s", ascii "g", ascii "$", ascii "MKSTREAM"],
    [ascii "XGROUP", ascii "DESTROY", ascii "s", ascii "g"]].foldl
      (fun s args => ((cmdXGroup (Config.default.view 0) (Env.at 1) args).run (live 1) s).2) emptyDataset

theorem emptiedStream_vanishes :
    ¬ XAddRefusesCleanly (Config.default.view 0) (Env.at 1) emptiedStream (ascii "s") := by
  have hst : streamAt 1 emptiedStream (0, ascii "s") = some .new := by decide
  exact not_cleanly_of_blank hst blank_new

/-- The standing of a group of a live stream, with the stream apart from its groups. -/
def standingAt (now : Instant) (s : Dataset S) (k : Loc) (group : Bytes) : Option (Stream × Standing) :=
  (streamAt now s k).bind fun st =>
    (st.groups.lookup group).map fun g => ({ st with groups := ∅ }, g.standing)

/-- The start that an id operand of XREADGROUP asks for: none for new entries. -/
def readAfter (id : Bytes) : Option (Option StreamID) :=
  if id = ascii ">" then some none else (parseStreamID id 0).map some

/-- A stream operand for which there is nothing to do: the consumer is known, and when
new entries are asked for there are none. -/
def Quiet (v : View) (now : Instant) (s : Dataset S) (o : XReadOpts) (p : Bytes × Bytes) : Prop :=
  ∀ a, standingAt now s (v.loc p.1) o.group = some a → o.consumer ∈ a.2.consumers ∧
    (p.2 = ascii ">" → ∀ e ∈ a.1.entries, e.id < idNext a.2.lastDelivered)

variable {v : View} {env : Env} {s : Dataset S} {o : XReadOpts}

/-- One stream of the loop. -/
def readStep (v : View) (env : Env) (o : XReadOpts) (s : Dataset S) (p : Bytes × Bytes) : Dataset S :=
  match readAfter p.2 with
  | none => s
  | some after =>
    ((xReadGroup (v.loc p.1) o.group o.consumer after o.count o.noack env.now).run (live env.now) s).2

/-- A standing that at most `n` reads have moved, and no read moves back. -/
def Moved (n : ℕ) (s t : Standing) : Prop :=
  (∃ c ∈ t.consumers, c ∉ s.consumers) ∨ (s.hasEntriesRead = false ∧ t.hasEntriesRead = true) ∨
    s.lastDelivered < t.lastDelivered ∨
      t.lastDelivered = maxStreamID ∧ t.hasEntriesRead = true ∧
        ∃ m : ℕ, 1 ≤ m ∧ m ≤ n ∧ t.entriesRead = Checked.wrap (s.entriesRead + m)

theorem Moved.ne {n : ℕ} {s t : Standing} (h : Moved n s t) (hn : n < 2 ^ 64) : s ≠ t := by
  rintro rfl
  obtain ⟨c, hc, hc'⟩ | ⟨h1, h2⟩ | hlt | ⟨-, -, m, hm1, hmn, hm⟩ := h
  · exact hc' hc
  · rw [h1] at h2
    exact Bool.false_ne_true h2
  · exact lt_irrefl _ hlt
  · unfold Checked.wrap at hm
    omega

/-- What a delivery does to the position and the counter. -/
theorem deliver_fields (t : Standing) (added fresh : ℕ) (noack : Bool) (nack : Nack) {ids : List StreamID}
    (h : ids ≠ []) :
    (t.deliver added fresh noack nack ids).lastDelivered = ids.getLast h ∧
      (t.deliver added fresh noack nack ids).hasEntriesRead = true ∧
      (t.deliver added fresh noack nack ids).consumers = t.consumers ∧
      (t.hasEntriesRead = true → (t.deliver added fresh noack nack ids).entriesRead =
        Checked.wrap (t.entriesRead + ids.length)) := by
  unfold Standing.deliver
  rw [List.getLast?_eq_some_getLast h]
  exact ⟨rfl, rfl, rfl, fun hhas => by simp only [hhas, if_true]⟩

/-- A read for new entries that finds some moves the position on, or is at the greatest
id and counts. -/
theorem read_new {st : Stream} (hasc : st.Ascending) (t : Standing) (consumer : Bytes) (count : ℕ)
    (noack : Bool) (nowMs : ℤ) (hne : st.delivery t.lastDelivered count ≠ []) :
    let t' := t.read st consumer none count noack nowMs
    t'.hasEntriesRead = true ∧ t'.consumers = insert consumer t.consumers ∧
      (t.lastDelivered < t'.lastDelivered ∨ t.lastDelivered = maxStreamID ∧
        t'.lastDelivered = maxStreamID ∧ (t.hasEntriesRead = true →
          t'.entriesRead = Checked.wrap (t.entriesRead + 1))) := by
  obtain ⟨hlast, hhas, hcons, hcount⟩ := deliver_fields { t with consumers := insert consumer t.consumers }
    st.added (st.fresh t.lastDelivered).length noack ⟨consumer, nowMs, 1⟩ hne
  refine ⟨hhas, hcons, ?_⟩
  by_cases hmax : t.lastDelivered = maxStreamID
  · have hone : st.delivery t.lastDelivered count = [maxStreamID] := by
      rw [hmax] at hne ⊢
      exact delivery_max hasc hne
    refine .inr ⟨hmax, hlast.trans ?_, fun hold => (hcount hold).trans ?_⟩
    · simp only [hone, List.getLast_singleton]
    · rw [hone]
      rfl
  · refine .inl (lt_of_lt_of_le (lt_idNext hmax) ?_)
    have hle := le_of_mem_delivery hasc (List.getLast_mem hne)
    exact hlast ▸ hle

theorem Moved.read {n : ℕ} {s t : Standing} (h : Moved n s t) {st : Stream} (hasc : st.Ascending)
    (consumer : Bytes) (after : Option StreamID) (count : ℕ) (noack : Bool) (nowMs : ℤ) :
    Moved (n + 1) s (t.read st consumer after count noack nowMs) := by
  -- a read that delivers nothing adds a consumer at most
  have hstill : ∀ t', t' = { t with consumers := insert consumer t.consumers } → Moved (n + 1) s t' := by
    rintro _ rfl
    obtain ⟨c, hc, hc'⟩ | h1 | hlt | ⟨hmax, hhas, m, hm1, hmn, hm⟩ := h
    · exact .inl ⟨c, Finset.mem_insert_of_mem hc, hc'⟩
    · exact .inr (.inl h1)
    · exact .inr (.inr (.inl hlt))
    · exact .inr (.inr (.inr ⟨hmax, hhas, m, hm1, by omega, hm⟩))
  cases after with
  | some after => exact hstill _ rfl
  | none =>
    by_cases hne : st.delivery t.lastDelivered count = []
    · refine hstill _ ?_
      unfold Standing.read
      dsimp only
      rw [hne, Standing.deliver_nil]
    · obtain ⟨hhas', hcons', hmove⟩ := read_new hasc t consumer count noack nowMs hne
      obtain ⟨c, hc, hc'⟩ | ⟨h1, -⟩ | hlt | ⟨hmax, hhas, m, hm1, hmn, hm⟩ := h
      · exact .inl ⟨c, hcons' ▸ Finset.mem_insert_of_mem hc, hc'⟩
      · exact .inr (.inl ⟨h1, hhas'⟩)
      · refine .inr (.inr (.inl (lt_of_lt_of_le hlt ?_)))
        rcases hmove with hmove | ⟨heq, heq', -⟩
        · exact le_of_lt hmove
        · rw [heq, heq']
      · rcases hmove with hmove | ⟨-, heq', hcount⟩
        · exact absurd (hmax ▸ hmove) (not_lt.mpr (le_maxStreamID _))
        · refine .inr (.inr (.inr ⟨heq', hhas', m + 1, by omega, by omega, ?_⟩))
          rw [hcount hhas, hm, Checked.wrap_wrap_add]
          push_cast
          ring_nf

end ShardKV.Commands
