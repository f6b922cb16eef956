import ShardKV.Commands.Refused
import ShardKV.Data.Ranges

/-! The ids of a stream. Whatever the clock says, an entry is added behind all ids that
were given out, and XSETID may rewind only to where the entries end. So a stream stays in
order, and every id that XADD returns is new. -/

namespace ShardKV.Commands

open Access Data Server Prog

variable {S : Type} [LinearOrder S]

/-- The milliseconds that an automatic id takes from a reading of the clock, which may lie
before the epoch. -/
def reading (nowMs : ℤ) : Instant := if 0 < nowMs then Fin.ofNat _ nowMs.toNat else 0

/-- The complement of `entry.expired`, for every reading of the clock. -/
def unexpired (nowMs : ℤ) (e : Entry S) : Bool :=
  match e.expireAt with
  | none => true
  | some d => decide (nowMs < d)

/-- The calls that change the entries of a stream. -/
inductive StreamCall
  | xAdd (id : AddID) (noMkStream : Bool) (trim : TrimStrategy) (fields : List Bytes)
  | xDel (ids : List StreamID)
  | xTrim (trim : TrimStrategy)
  | xSetID (id : StreamID) (entriesAdded : Option ℤ) (maxDeleted : Option StreamID)

/-- A call on a key at a reading of the clock: what it leaves. -/
def StreamCall.apply (s : Dataset S) (k : Loc) (nowMs : ℤ) : StreamCall → Dataset S
  | .xAdd id noMkStream trim fields =>
    ((Commands.xAdd k (reading nowMs) id noMkStream trim fields).run (unexpired nowMs) s).2
  | .xDel ids => ((Commands.xDel k ids).run (unexpired nowMs) s).2
  | .xTrim trim => ((Commands.xTrim k trim).run (unexpired nowMs) s).2
  | .xSetID id entriesAdded maxDeleted =>
    ((Commands.xSetID k id entriesAdded maxDeleted).run (unexpired nowMs) s).2

section XAdd

/-- The stream that `XAdd` adds to: the one of the key, or a new one. -/
def AddsTo (vis : Entry S → Bool) (s : Dataset S) (k : Loc) (st : Stream) (d : Option ℤ) : Prop :=
  seen vis s k = some ⟨.stream st, d⟩ ∨ seen vis s k = none ∧ st = .new ∧ d = none

variable (vis : Entry S → Bool) (s : Dataset S) (k : Loc) (now : Instant) (id : AddID)
  (trim : TrimStrategy) (fields : List Bytes)

inductive XAddOutcome : Except StreamErr (Option (StreamID × ℕ)) × Dataset S → Prop
  | absent (h : seen vis s k = none) : XAddOutcome (.ok none, s)
  | otherKind {e : Entry S} (h : seen vis s k = some e) (hkind : ∀ st, e.value ≠ .stream st) :
      XAddOutcome (.error .wrongType, s)
  | refused {st : Stream} {d : Option ℤ} {e : StreamErr} {left : Dataset S} (h : AddsTo vis s k st d)
      (hid : st.addID now id = .error e) (hleft : left = s ∨ left = Function.update s k none) :
      XAddOutcome (.error e, left)
  | added {st : Stream} {d : Option ℤ} {i : StreamID} (h : AddsTo vis s k st d)
      (hid : st.addID now id = .ok i) :
      XAddOutcome (.ok (some (i, (st.append i fields trim).2)),
        Function.update s k (some ⟨.stream (st.append i fields trim).1, d⟩))

theorem xAdd_outcome (noMkStream : Bool) : XAddOutcome vis s k now id trim fields
    ((xAdd k now id noMkStream trim fields).run vis s) := by
  unfold xAdd
  rw [run_edit]
  cases hk : seen vis s k with
  | none =>
    cases noMkStream with
    | true => exact .absent hk
    | false =>
      cases hid : Stream.new.addID now id with
      | error e =>
        simp only [Bool.false_eq_true, if_false, hid, if_pos (show _ ∧ _ ∧ _ from blank_new)]
        exact .refused (.inr ⟨hk, rfl, rfl⟩) hid (.inr rfl)
      | ok i =>
        simp only [Bool.false_eq_true, if_false, hid]
        exact .added (.inr ⟨hk, rfl, rfl⟩) hid
  | some en =>
    obtain ⟨value, d⟩ := en
    cases value with
    | stream st =>
      cases hid : st.addID now id with
      | error e =>
        simp only [hid]
        split_ifs
        · exact .refused (.inl hk) hid (.inr rfl)
        · exact .refused (.inl hk) hid (.inl rfl)
      | ok i =>
        simp only [hid]
        exact .added (.inl hk) hid
    | _ => exact .otherKind hk (by simp)

end XAdd

/-- A stored stream is in order. -/
def InOrder (e : Entry S) : Prop := ∀ st, e.value = .stream st → st.Ordered

theorem inOrder_stream {st : Stream} {d : Option ℤ} :
    InOrder (⟨.stream st, d⟩ : Entry S) ↔ st.Ordered :=
  ⟨fun h => h st rfl, fun h _ he => Value.stream.inj he ▸ h⟩

theorem ordered_new : Stream.new.Ordered :=
  ⟨List.Pairwise.nil, by simp [Stream.new], by simp [Stream.new]⟩

theorem keeps_streamEdit {α : Type} {k : Loc} {missing : Except StreamErr α}
    {f : Stream → Option Stream × Except StreamErr α}
    (hf : ∀ st, st.Ordered → ∀ st', (f st).1 = some st' → st'.Ordered) :
    (streamEdit k missing f : Op S _).Keeps InOrder := by
  refine keeps_read fun e he => ?_
  rcases e with _ | ⟨value, d⟩
  · exact keeps_ret _
  cases value with
  | stream st =>
    have hst : st.Ordered := inOrder_stream.1 (he _ rfl)
    rcases hres : f st with ⟨_ | st', r⟩
    · simp only [hres]
      exact keeps_ret _
    · simp only [hres]
      exact keeps_put (inOrder_stream.2 (hf st hst st' (by rw [hres]))) (keeps_ret _)
  | _ => exact keeps_ret _

theorem keeps_xAdd (k : Loc) (now : Instant) (id : AddID) (noMkStream : Bool) (trim : TrimStrategy)
    (fields : List Bytes) : (xAdd k now id noMkStream trim fields : Op S _).Keeps InOrder := by
  intro vis s hs
  have hout := xAdd_outcome vis s k now id trim fields noMkStream
  generalize (xAdd k now id noMkStream trim fields).run vis s = r at hout ⊢
  cases hout with
  | absent h => exact hs
  | otherKind h hkind => exact hs
  | refused h hid hleft =>
    rcases hleft with rfl | rfl
    · exact hs
    · exact all_update hs k fun _ hx => absurd hx (by simp)
  | @added st d i h hid =>
    have hst : st.Ordered := by
      rcases h with h | ⟨-, rfl, -⟩
      · exact inOrder_stream.1 (all_seen hs vis k h)
      · exact ordered_new
    refine all_update hs k fun x hx => ?_
    exact Option.some.inj hx ▸ inOrder_stream.2 (hst.append (Stream.lt_of_addID hid) fields trim)

theorem StreamCall.inOrder (c : StreamCall) {s : Dataset S} (h : All InOrder s) (k : Loc)
    (nowMs : ℤ) : All InOrder (c.apply s k nowMs) := by
  cases c with
  | xAdd id noMkStream trim fields => exact keeps_xAdd _ _ _ _ _ _ _ _ h
  | xDel ids =>
    refine keeps_streamEdit (fun st hst st' hres => ?_) _ _ h
    exact Option.some.inj hres ▸ hst.deleteAll ids
  | xTrim trim =>
    refine keeps_streamEdit (fun st hst st' hres => ?_) _ _ h
    exact Option.some.inj hres ▸ hst.trim trim
  | xSetID id entriesAdded maxDeleted =>
    refine keeps_streamEdit (fun st hst st' hres => ?_) _ _ h
    cases hset : st.setID id entriesAdded maxDeleted with
    | error e => simp [hset] at hres
    | ok st'' =>
      rw [hset] at hres
      exact Option.some.inj hres ▸ hst.setID hset

variable {S : Type} [Numeric S]

end ShardKV.Commands
