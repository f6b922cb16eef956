import Mathlib.Data.Multiset.AddSub
import ShardKV.Commands.Deque
import ShardKV.Server.Exec

/-!
Lists at their keys.

The operations that span a whole key, or two, over stored lists. Each is compared with the one over
sequences that the commands use: it returns the same, and leaves the same at every key.
-/

namespace ShardKV.Commands

open Access Data Server Checked Linked

section Keys

variable {S : Type} [Numeric S]

/-- What is stored at a key: a list, or a value of another type. -/
inductive StoredEntry (S : Type) [LinearOrder S]
  | list (d : Deque) (expireAt : Option ℤ)
  | other (e : Entry S) (notList : ∀ l, e.value ≠ .list l)

def StoredEntry.entry : StoredEntry S → Entry S
  | .list d expireAt => ⟨.list d.contents, expireAt⟩
  | .other e _ => e

abbrev Keyspace (S : Type) [LinearOrder S] := Loc → Option (StoredEntry S)

def Keyspace.entries (ks : Keyspace S) : Dataset S := fun k => (ks k).map StoredEntry.entry

def Keyspace.liveEntry (vis : Entry S → Bool) (ks : Keyspace S) (k : Loc) : Option (StoredEntry S) :=
  (ks k).filter fun e => vis e.entry

/-- A list once an operation has gone over it: an empty one is deleted. -/
def storedList (d : Deque) (expireAt : Option ℤ) : Option (StoredEntry S) :=
  if d.len = 0 then none else some (.list d expireAt)

/-- `LPopCount`. -/
def lPopCountStored (vis : Entry S → Bool) (ks : Keyspace S) (k : Loc) (n : ℤ) (left : Bool) :
    Except StoreErr (Option (List Bytes)) × Keyspace S :=
  match ks.liveEntry vis k with
  | none => (.ok none, ks)
  | some (.other _ _) => (.error .wrongType, ks)
  | some (.list d expireAt) =>
    let r := Deque.popFrom left n.toNat d []
    (.ok (some r.1), Function.update ks k (storedList r.2 expireAt))

/-- The list to push to and its deadline: a new one where there is no entry. -/
def destination : Option (StoredEntry S) → Except StoreErr (Deque × Option ℤ)
  | none => .ok (newDeque, none)
  | some (.list d expireAt) => .ok (d, expireAt)
  | some (.other _ _) => .error .wrongType

/-- `LMove`; the two lists are one and the same when the keys are. -/
def lMoveStored (vis : Entry S → Bool) (ks : Keyspace S) (src dst : Loc) (srcLeft dstLeft : Bool) :
    Except StoreErr (Option Bytes) × Keyspace S :=
  match ks.liveEntry vis src with
  | none => (.ok none, ks)
  | some (.other _ _) => (.error .wrongType, ks)
  | some (.list sd sExpireAt) =>
    if src = dst then
      match sd.pop srcLeft with
      | none => (.ok none, ks)
      | some (v, d) => (.ok (some v), Function.update ks src (storedList (d.push dstLeft v) sExpireAt))
    else
      match destination (ks.liveEntry vis dst) with
      | .error err => (.error err, ks)
      | .ok (dd, dExpireAt) =>
        match sd.pop srcLeft with
        | none => (.ok none, ks)
        | some (v, d) =>
          (.ok (some v), Function.update (Function.update ks dst (some (.list (dd.push dstLeft v) dExpireAt))) src
            (storedList d sExpireAt))

end Keys

section Simulation

variable {S : Type} [Numeric S] {vis : Entry S → Bool} {ks : Keyspace S} {k : Loc}

theorem seen_entries (vis : Entry S → Bool) (ks : Keyspace S) (k : Loc) :
    seen vis ks.entries k = (ks.liveEntry vis k).map StoredEntry.entry := by
  unfold seen Keyspace.entries Keyspace.liveEntry
  cases ks k with
  | none => rfl
  | some e =>
    rw [Option.map_some, Option.filter_some, Option.filter_some]
    split_ifs <;> rfl

theorem entries_update (ks : Keyspace S) (k : Loc) (e : Option (StoredEntry S)) :
    Keyspace.entries (Function.update ks k e) = Function.update ks.entries k (e.map StoredEntry.entry) := by
  funext k'
  unfold Keyspace.entries
  by_cases hk : k' = k
  · subst hk
    rw [Function.update_self, Function.update_self]
  · rw [Function.update_of_ne hk, Function.update_of_ne hk]

theorem storedList_entry (d : Deque) (expireAt : Option ℤ) :
    (storedList d expireAt : Option (StoredEntry S)).map StoredEntry.entry =
      if d.contents.isEmpty then none else some ⟨.list d.contents, expireAt⟩ := by
  unfold storedList
  by_cases hlen : d.len = 0
  · have hempty : d.contents.isEmpty = true := by
      rw [List.isEmpty_iff_length_eq_zero, Deque.length_contents, hlen]
    rw [if_pos hlen, if_pos hempty]
    rfl
  · have hfull : ¬ d.contents.isEmpty = true := by
      rw [List.isEmpty_iff_length_eq_zero, Deque.length_contents]
      exact hlen
    rw [if_neg hlen, if_neg hfull]
    rfl

/-- Every stored list has an exact byte count. -/
def Keyspace.Exact (ks : Keyspace S) : Prop := ∀ k d expireAt, ks k = some (.list d expireAt) → d.Exact

theorem Keyspace.Exact.live (h : ks.Exact) {d : Deque} {expireAt : Option ℤ}
    (hlive : ks.liveEntry vis k = some (.list d expireAt)) : d.Exact :=
  h k d expireAt (Option.filter_eq_some_iff.1 hlive).1

theorem Keyspace.Exact.update (h : ks.Exact) {e : Option (StoredEntry S)}
    (he : ∀ d expireAt, e = some (.list d expireAt) → d.Exact) : Keyspace.Exact (Function.update ks k e) := by
  intro k' d expireAt hk'
  by_cases hk : k' = k
  · subst hk
    rw [Function.update_self] at hk'
    exact he d expireAt hk'
  · rw [Function.update_of_ne hk] at hk'
    exact h k' d expireAt hk'

theorem exact_storedList {d : Deque} (hd : d.Exact) (expireAt : Option ℤ) :
    ∀ d' expireAt', (storedList d expireAt : Option (StoredEntry S)) = some (.list d' expireAt') → d'.Exact := by
  intro d' expireAt' h
  unfold storedList at h
  split_ifs at h
  cases h
  exact hd

theorem lPopCountStored_spec (h : ks.Exact) (k : Loc) (n : ℤ) (left : Bool) :
    (lPopCountStored vis ks k n left).2.Exact ∧
      (lPopCount k n left).run vis ks.entries =
        ((lPopCountStored vis ks k n left).1, (lPopCountStored vis ks k n left).2.entries) := by
  unfold lPopCountStored lPopCount
  rw [Prog.run_edit, seen_entries]
  cases hlive : ks.liveEntry vis k with
  | none => exact ⟨h, rfl⟩
  | some e =>
    cases e with
    | other e hlist =>
      obtain ⟨value, expireAt⟩ := e
      refine ⟨h, ?_⟩
      cases value with
      | list l => exact absurd rfl (hlist l)
      | _ => rfl
    | list d expireAt =>
      obtain ⟨hvals, hcontents, hexact⟩ := Deque.popFrom_spec (h.live hlive) left n.toNat []
      refine ⟨h.update (exact_storedList hexact expireAt), ?_⟩
      dsimp only
      rw [entries_update, storedList_entry, hcontents, hvals, List.nil_append]
      cases hempty : (popMany left n.toNat d.contents).2.isEmpty <;> simp [StoredEntry.entry, listEdit, hempty]

theorem pop_cases {d : Deque} (hd : d.Exact) (left : Bool) :
    (d.pop left = none ∧ popFrom left d.contents = none) ∨
      ∃ v d', d.pop left = some (v, d') ∧ popFrom left d.contents = some (v, d'.contents) ∧ d'.Exact := by
  obtain ⟨hpop, hexact⟩ := Deque.pop_spec hd left
  cases hcase : d.pop left with
  | none => exact .inl ⟨rfl, by rw [← hpop, hcase]; rfl⟩
  | some r => exact .inr ⟨r.1, r.2, rfl, by rw [← hpop, hcase]; rfl, hexact r.1 r.2 hcase⟩

variable (vis) in
theorem destination_cases (h : ks.Exact) (k : Loc) :
    (destination (ks.liveEntry vis k) = .error .wrongType ∧
      listOf ((ks.liveEntry vis k).map StoredEntry.entry) = .error .wrongType) ∨
    ∃ d expireAt, destination (ks.liveEntry vis k) = .ok (d, expireAt) ∧ d.Exact ∧
      listOf ((ks.liveEntry vis k).map StoredEntry.entry) = .ok (d.contents, expireAt) := by
  cases hlive : ks.liveEntry vis k with
  | none => exact .inr ⟨newDeque, none, rfl, exact_newDeque, rfl⟩
  | some e =>
    cases e with
    | list d expireAt => exact .inr ⟨d, expireAt, rfl, h.live hlive, rfl⟩
    | other e hlist =>
      obtain ⟨value, expireAt⟩ := e
      refine .inl ⟨rfl, ?_⟩
      cases value with
      | list l => exact absurd rfl (hlist l)
      | _ => rfl

/-- A move returns and leaves what the move between sequences does. -/
theorem lMoveStored_spec (h : ks.Exact) (src dst : Loc) (srcLeft dstLeft : Bool) :
    (lMoveStored vis ks src dst srcLeft dstLeft).2.Exact ∧
      (lMove src dst srcLeft dstLeft).run vis ks.entries =
        ((lMoveStored vis ks src dst srcLeft dstLeft).1, (lMoveStored vis ks src dst srcLeft dstLeft).2.entries) := by
  unfold lMoveStored lMove
  by_cases hsame : src = dst
  · rw [if_pos hsame, Prog.run_edit, seen_entries]
    cases hlive : ks.liveEntry vis src with
    | none => exact ⟨h, rfl⟩
    | some e =>
      cases e with
      | other e hlist =>
        obtain ⟨value, expireAt⟩ := e
        refine ⟨h, ?_⟩
        cases value with
        | list l => exact absurd rfl (hlist l)
        | _ => rfl
      | list d expireAt =>
        dsimp only
        rw [if_pos hsame]
        rcases pop_cases (h.live hlive) srcLeft with ⟨hpop, hseq⟩ | ⟨v, d', hpop, hseq, hexact⟩
        · rw [hpop]
          refine ⟨h, ?_⟩
          simp [StoredEntry.entry, hseq]
        · obtain ⟨hpush, hcontents⟩ := Deque.push_spec hexact dstLeft v
          rw [hpop]
          refine ⟨h.update (exact_storedList hpush expireAt), ?_⟩
          dsimp only
          rw [entries_update, storedList_entry, hcontents]
          simp [StoredEntry.entry, hseq, pushTo_ne_nil]
  · rw [if_neg hsame, Prog.run_read, seen_entries]
    cases hlive : ks.liveEntry vis src with
    | none => exact ⟨h, rfl⟩
    | some e =>
      cases e with
      | other e hlist =>
        obtain ⟨value, expireAt⟩ := e
        refine ⟨h, ?_⟩
        cases value with
        | list l => exact absurd rfl (hlist l)
        | _ => rfl
      | list d expireAt =>
        dsimp only
        rw [if_neg hsame, Option.map_some, StoredEntry.entry]
        dsimp only
        rw [Prog.run_read, seen_entries]
        rcases destination_cases vis h dst with ⟨hdest, hlist⟩ | ⟨dd, dExpireAt, hdest, hdd, hlist⟩
        · rw [hdest, hlist]
          exact ⟨h, rfl⟩
        · rw [hdest, hlist]
          dsimp only
          rcases pop_cases (h.live hlive) srcLeft with ⟨hpop, hseq⟩ | ⟨v, d', hpop, hseq, hexact⟩
          · rw [hpop, hseq]
            exact ⟨h, rfl⟩
          · obtain ⟨hpush, hcontents⟩ := Deque.push_spec hdd dstLeft v
            have hdst : Keyspace.Exact (Function.update ks dst (some (.list (dd.push dstLeft v) dExpireAt))) :=
              h.update fun d expireAt heq => by
                cases heq
                exact hpush
            rw [hpop, hseq]
            refine ⟨hdst.update (exact_storedList hexact expireAt), ?_⟩
            dsimp only
            rw [entries_update, entries_update, storedList_entry, Option.map_some, StoredEntry.entry, hcontents]
            rfl

end Simulation

section Conservation

variable {S : Type} [Numeric S] {ks : Keyspace S} {now : Instant} {k : Loc}

/-- The elements of the list a key shows. -/
def Keyspace.elementsAt (now : Instant) (ks : Keyspace S) (k : Loc) : Multiset Bytes :=
  match ks.liveEntry (live now) k with
  | some (.list d _) => d.contents
  | _ => 0

theorem elementsAt_of_live {d : Deque} {expireAt : Option ℤ} (h : ks.liveEntry (live now) k = some (.list d expireAt)) :
    ks.elementsAt now k = d.contents := by
  rw [Keyspace.elementsAt, h]

theorem elementsAt_update_ne {k' : Loc} (hk : k' ≠ k) (e : Option (StoredEntry S)) :
    Keyspace.elementsAt now (Function.update ks k e) k' = ks.elementsAt now k' := by
  unfold Keyspace.elementsAt Keyspace.liveEntry
  rw [Function.update_of_ne hk]

/-- Whether an entry is live is a matter of its deadline. -/
theorem elementsAt_update {d : Deque} {expireAt : Option ℤ}
    (h : live now (⟨.list d.contents, expireAt⟩ : Entry S) = true) :
    Keyspace.elementsAt now (Function.update ks k (some (.list d expireAt))) k = d.contents := by
  have hlive : Keyspace.liveEntry (live now) (Function.update ks k (some (.list d expireAt))) k =
      some (.list d expireAt) := by
    unfold Keyspace.liveEntry
    rw [Function.update_self]
    exact Option.filter_some_pos h
  exact elementsAt_of_live hlive

theorem elementsAt_storedList {d : Deque} {expireAt : Option ℤ}
    (h : live now (⟨.list d.contents, expireAt⟩ : Entry S) = true) :
    Keyspace.elementsAt now (Function.update ks k (storedList d expireAt)) k = d.contents := by
  unfold storedList
  by_cases hlen : d.len = 0
  · have hnil : d.contents = [] := List.length_eq_zero_iff.1 (d.length_contents.trans hlen)
    rw [if_pos hlen, hnil]
    unfold Keyspace.elementsAt Keyspace.liveEntry
    rw [Function.update_self]
    rfl
  · rw [if_neg hlen]
    exact elementsAt_update h

theorem coe_pushTo (left : Bool) (l : List Bytes) (v : Bytes) : (pushTo left l v : Multiset Bytes) = v ::ₘ ↑l := by
  cases left
  · exact Multiset.coe_eq_coe.2 (List.perm_append_singleton v l)
  · rfl

theorem coe_popFrom {left : Bool} {l l' : List Bytes} {v : Bytes} (h : popFrom left l = some (v, l')) :
    (l : Multiset Bytes) = v ::ₘ ↑l' := by
  rw [Deque.popFrom_eq rfl] at h
  obtain ⟨x, hx, heq⟩ := Option.map_eq_some_iff.1 h
  obtain ⟨rfl, rfl⟩ := Prod.mk.inj heq
  obtain ⟨xs, hxs⟩ := List.head?_eq_some_iff.1 hx
  rw [hxs, List.tail_cons]
  cases left
  · rw [if_neg Bool.false_ne_true] at hxs ⊢
    refine Multiset.coe_eq_coe.2 ((List.reverse_perm l).symm.trans ?_)
    rw [hxs]
    exact (List.reverse_perm xs).symm.cons x
  · rw [if_pos rfl] at hxs ⊢
    rw [hxs]
    rfl

theorem live_of_liveEntry {e : StoredEntry S} (h : ks.liveEntry (live now) k = some e) : live now e.entry = true :=
  (Option.filter_eq_some_iff.1 h).2

/-- The destination's elements, and that its deadline has not passed. -/
theorem destination_elements {d : Deque} {expireAt : Option ℤ}
    (h : destination (ks.liveEntry (live now) k) = .ok (d, expireAt)) :
    ks.elementsAt now k = d.contents ∧ ∀ l, live now (⟨.list l, expireAt⟩ : Entry S) = true := by
  cases hlive : ks.liveEntry (live now) k with
  | none =>
    rw [hlive] at h
    cases h
    exact ⟨by rw [Keyspace.elementsAt, hlive]; rfl, fun l => rfl⟩
  | some e =>
    rw [hlive] at h
    cases e with
    | other e hlist => cases h
    | list d' expireAt' =>
      cases h
      have hdeadline := live_of_liveEntry hlive
      exact ⟨elementsAt_of_live hlive, fun l => hdeadline⟩

/-- A move takes nothing away and adds nothing. -/
theorem lMoveStored_conserves (h : ks.Exact) (src dst : Loc) (srcLeft dstLeft : Bool) :
    (src = dst → Keyspace.elementsAt now (lMoveStored (live now) ks src dst srcLeft dstLeft).2 src =
      ks.elementsAt now src) ∧
    (src ≠ dst → Keyspace.elementsAt now (lMoveStored (live now) ks src dst srcLeft dstLeft).2 src +
        Keyspace.elementsAt now (lMoveStored (live now) ks src dst srcLeft dstLeft).2 dst =
      ks.elementsAt now src + ks.elementsAt now dst) := by
  unfold lMoveStored
  cases hlive : ks.liveEntry (live now) src with
  | none => exact ⟨fun _ => rfl, fun _ => rfl⟩
  | some e =>
    cases e with
    | other e hlist => exact ⟨fun _ => rfl, fun _ => rfl⟩
    | list d expireAt =>
      have hdeadline (l : List Bytes) : live now (⟨.list l, expireAt⟩ : Entry S) = true := live_of_liveEntry hlive
      have hsrc : ks.elementsAt now src = d.contents := elementsAt_of_live hlive
      dsimp only
      constructor
      · intro hsame
        rw [if_pos hsame]
        rcases pop_cases (h.live hlive) srcLeft with ⟨hpop, -⟩ | ⟨v, d', hpop, hseq, hexact⟩
        · rw [hpop]
        · rw [hpop]
          dsimp only
          rw [elementsAt_storedList (hdeadline _), (Deque.push_spec hexact dstLeft v).2, coe_pushTo, hsrc,
            coe_popFrom hseq]
      · intro hne
        rw [if_neg hne]
        rcases destination_cases (live now) h dst with ⟨hdest, -⟩ | ⟨dd, dExpireAt, hdest, hdd, -⟩
        · rw [hdest]
        · rw [hdest]
          dsimp only
          obtain ⟨hdst, hlater⟩ := destination_elements hdest
          rcases pop_cases (h.live hlive) srcLeft with ⟨hpop, -⟩ | ⟨v, d', hpop, hseq, hexact⟩
          · rw [hpop]
          · rw [hpop]
            dsimp only
            rw [elementsAt_storedList (hdeadline _), elementsAt_update_ne hne.symm, elementsAt_update (hlater _),
              (Deque.push_spec hdd dstLeft v).2, coe_pushTo, hsrc, hdst, coe_popFrom hseq, Multiset.add_cons,
              Multiset.cons_add]

end Conservation

/-- Lists behave as sequences. An `int` holds the length of a list, as it does in the source. -/
theorem lists_are_sequences {S : Type} [Numeric S] :
    (∀ ops : List ListOp, (∀ op ∈ ops, op.Operands) →
      (∀ k, ((runSequence [] (ops.take k)).length : ℤ) ≤ maxInt64) →
      (newDeque.run ops).Exact ∧ (newDeque.run ops).contents = runSequence [] ops) ∧
    (∀ (d : Deque) (op : ListOp), d.Exact → (d.contents.length : ℤ) ≤ maxInt64 → op.Operands →
      (d.exec op).1.Exact ∧ ((d.exec op).1.contents, (d.exec op).2) = op.onSequence d.contents) ∧
    (∀ (vis : Entry S → Bool) (ks : Keyspace S) (k : Loc) (n : ℤ) (left : Bool), ks.Exact →
      (lPopCountStored vis ks k n left).2.Exact ∧ (lPopCount k n left).run vis ks.entries =
        ((lPopCountStored vis ks k n left).1, (lPopCountStored vis ks k n left).2.entries)) ∧
    (∀ (vis : Entry S → Bool) (ks : Keyspace S) (src dst : Loc) (srcLeft dstLeft : Bool), ks.Exact →
      (lMoveStored vis ks src dst srcLeft dstLeft).2.Exact ∧ (lMove src dst srcLeft dstLeft).run vis ks.entries =
        ((lMoveStored vis ks src dst srcLeft dstLeft).1, (lMoveStored vis ks src dst srcLeft dstLeft).2.entries)) ∧
    ∀ (now : Instant) (ks : Keyspace S) (src dst : Loc) (srcLeft dstLeft : Bool), ks.Exact →
      (src = dst → Keyspace.elementsAt now (lMoveStored (live now) ks src dst srcLeft dstLeft).2 src =
        ks.elementsAt now src) ∧
      (src ≠ dst → Keyspace.elementsAt now (lMoveStored (live now) ks src dst srcLeft dstLeft).2 src +
          Keyspace.elementsAt now (lMoveStored (live now) ks src dst srcLeft dstLeft).2 dst =
        ks.elementsAt now src + ks.elementsAt now dst) :=
  ⟨fun _ hops hlen => run_spec exact_newDeque hops hlen, fun _ _ hd hlen hop => exec_spec hd hlen hop,
    fun _ _ k n left h => lPopCountStored_spec h k n left,
    fun _ _ src dst srcLeft dstLeft h => lMoveStored_spec h src dst srcLeft dstLeft,
    fun _ _ src dst srcLeft dstLeft h => lMoveStored_conserves h src dst srcLeft dstLeft⟩

/-- The least count, whose negation overflows, removes every match. -/
theorem least_count_removed :
    ((((newDeque.rpush [1]).rpush [2]).rpush [1]).exec (.remove (-2 ^ 63) [1])).1.contents = [[2]] := by
  have hexec := lists_are_sequences (S := ℤ).2.1 (((newDeque.rpush [1]).rpush [2]).rpush [1]) (.remove (-2 ^ 63) [1])
    rfl (by decide) ⟨by decide, by decide⟩
  exact (congrArg Prod.fst hexec.2).trans (by decide)

end ShardKV.Commands
