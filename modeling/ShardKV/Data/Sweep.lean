import ShardKV.Data.Ranges

/-! A sweep of XAUTOCLAIM over the pending entries of a group. Every call looks at a run of
pending ids and gives back the first one behind it, so the calls make progress as long as
each looks at one id at least. How many it may look at is ten times the count in a machine
word, which for some counts is no positive number. -/

namespace ShardKV.Data

open Checked

namespace Group

variable (st : Stream) (consumer : Bytes) (minIdleMs count : ℤ) (justID : Bool) (nowMs : ℤ)

/-- The calls of XAUTOCLAIM from a cursor on, each from the one that the last returned, up to
the one that returns the zero id. Nothing when that takes more calls than allowed. -/
def sweep : ℕ → StreamID → Group → Option Group
  | 0, _, _ => none
  | calls + 1, cursor, g =>
    let r := g.autoClaim st consumer cursor minIdleMs count justID nowMs
    if r.2.2 = zeroID then some r.1 else sweep calls r.2.2 r.1

/-- A pending entry is idle for long enough, in the arithmetic of the server. -/
def IdleFor (nack : Nack) : Prop := minIdleMs ≤ wrap (nowMs - nack.deliveryMs)

/-- A pending entry is the consumer's, or is gone if the stream has it no longer. -/
def Settled (g : Group) (id : StreamID) : Prop :=
  if (st.find id).isSome then ∃ nack, g.pel.lookup id = some nack ∧ nack.consumer = consumer
  else g.pel.lookup id = none

/-- A call that has looked at some ids: those of them that were idle are settled, and all
others are as before. -/
structure Pass (g g' : Group) (looked : List StreamID) : Prop where
  frame : ∀ id, id ∉ looked → g'.pel.lookup id = g.pel.lookup id
  settled : ∀ id ∈ looked, ∀ nack, g.pel.lookup id = some nack → IdleFor minIdleMs nowMs nack →
    Settled st consumer g' id

/-- The sweep from the zero id ends, and every pending entry that was idle for long enough is
settled then. -/
def SweepCovers (g : Group) : Prop :=
  ∃ calls g', sweep st consumer minIdleMs count justID nowMs calls zeroID g = some g' ∧
    ∀ id nack, g.pel.lookup id = some nack → IdleFor minIdleMs nowMs nack → Settled st consumer g' id

/-- Ten times the count is a positive machine word. -/
def CountFits (count : ℤ) : Prop := 0 < count * 10 % 2 ^ 64 ∧ count * 10 % 2 ^ 64 < 2 ^ 63
  deriving Decidable

theorem countFits_iff {count : ℤ} : CountFits count ↔ 0 < wrap (count * 10) := by
  unfold CountFits wrap
  generalize count * 10 = z
  omega

section Loop

variable {st consumer minIdleMs count justID nowMs}

theorem Settled.congr {g g' : Group} {id : StreamID} (h : Settled st consumer g id)
    (hlookup : g'.pel.lookup id = g.pel.lookup id) : Settled st consumer g' id := by
  unfold Settled at h ⊢
  rwa [hlookup]

/-- A claim changes the record of its own id only. -/
theorem takeOver_lookup {g : Group} {id other : StreamID} {nack : Nack} {ms n : ℤ} (hne : other ≠ id) :
    (g.takeOver st consumer nowMs id nack ms n).1.pel.lookup other = g.pel.lookup other := by
  unfold takeOver
  split
  · have hpel := congrArg Standing.pel (g.standing_forget id nack.consumer)
    exact (congrArg (Finmap.lookup other) hpel).trans (Finmap.lookup_erase_ne hne)
  · rename_i ent _
    have hpel := congrArg Standing.pel
      (g.standing_assign id nack.consumer ⟨consumer, ms, n⟩ nowMs)
    exact (congrArg (Finmap.lookup other) hpel).trans (Finmap.lookup_insert_of_ne _ hne)

theorem takeOver_settled (g : Group) (id : StreamID) (nack : Nack) (ms n : ℤ) :
    Settled st consumer (g.takeOver st consumer nowMs id nack ms n).1 id := by
  unfold takeOver Settled
  cases hfind : st.find id with
  | none =>
    have hpel := congrArg Standing.pel (g.standing_forget id nack.consumer)
    exact (congrArg (Finmap.lookup id) hpel).trans (Finmap.lookup_erase ..)
  | some ent =>
    have hpel := congrArg Standing.pel
      (g.standing_assign id nack.consumer ⟨consumer, ms, n⟩ nowMs)
    exact ⟨_, (congrArg (Finmap.lookup id) hpel).trans (Finmap.lookup_insert ..), rfl⟩

theorem Pass.refl (g : Group) : Pass st consumer minIdleMs nowMs g g [] :=
  ⟨fun _ _ => rfl, fun _ h => absurd h List.not_mem_nil⟩

/-- An id that is not idle is passed over. -/
theorem Pass.skip {g g' : Group} {id : StreamID} {looked : List StreamID}
    (h : Pass st consumer minIdleMs nowMs g g' looked)
    (hidle : ∀ nack, g.pel.lookup id = some nack → ¬ IdleFor minIdleMs nowMs nack) :
    Pass st consumer minIdleMs nowMs g g' (id :: looked) where
  frame other hother := h.frame other fun hmem => hother (List.mem_cons_of_mem _ hmem)
  settled other hother nack hnack hidle' := by
    rcases List.mem_cons.1 hother with rfl | hmem
    · exact absurd hidle' (hidle nack hnack)
    · exact h.settled other hmem nack hnack hidle'

/-- An id that is idle is settled, once and for all as the call does not come back to it. -/
theorem Pass.take {g g' : Group} {id : StreamID} {looked : List StreamID} {nack : Nack} {ms n : ℤ}
    (h : Pass st consumer minIdleMs nowMs (g.takeOver st consumer nowMs id nack ms n).1 g' looked)
    (hid : id ∉ looked) : Pass st consumer minIdleMs nowMs g g' (id :: looked) where
  frame other hother := by
    rw [List.mem_cons, not_or] at hother
    rw [h.frame other hother.2, takeOver_lookup hother.1]
  settled other hother nack' hnack hidle := by
    rcases List.mem_cons.1 hother with rfl | hmem
    · exact (takeOver_settled g other nack ms n).congr (h.frame other hid)
    · have hne : other ≠ id := fun heq => hid (heq ▸ hmem)
      exact h.settled other hmem nack' (by rw [takeOver_lookup hne, hnack]) hidle

/-- The loop looks at the first ids, one at least if it may, and returns the next one. -/
theorem autoClaimAll_pass (g : Group) (tried done : ℤ) {ids : List StreamID} (hids : ids.Nodup) :
    ∃ looked rest, ids = looked ++ rest ∧
      (autoClaimAll st consumer nowMs minIdleMs count justID g tried done ids).2.2 =
        rest.headD zeroID ∧
      (done < count → tried < wrap (count * 10) → looked = [] → ids = []) ∧
      Pass st consumer minIdleMs nowMs g
        (autoClaimAll st consumer nowMs minIdleMs count justID g tried done ids).1 looked := by
  induction ids generalizing g tried done with
  | nil => exact ⟨[], [], rfl, rfl, fun _ _ _ => rfl, .refl g⟩
  | cons id ids ih =>
    obtain ⟨hid, hids⟩ := List.nodup_cons.1 hids
    rw [autoClaimAll]
    by_cases hstop : count ≤ done ∨ wrap (count * 10) ≤ tried
    · rw [if_pos hstop]
      exact ⟨[], id :: ids, rfl, rfl, fun hd ht => by omega, .refl g⟩
    rw [if_neg hstop]
    cases hlookup : g.pel.lookup id with
    | none =>
      obtain ⟨looked, rest, rfl, hcursor, -, hpass⟩ := ih g (tried + 1) done hids
      exact ⟨id :: looked, rest, rfl, hcursor, fun _ _ h => absurd h (List.cons_ne_nil _ _),
        hpass.skip fun nack hnack => absurd (hlookup.symm.trans hnack) (by simp)⟩
    | some nack =>
      dsimp only
      by_cases hrecent : wrap (nowMs - nack.deliveryMs) < minIdleMs
      · rw [if_pos hrecent]
        obtain ⟨looked, rest, rfl, hcursor, -, hpass⟩ := ih g (tried + 1) done hids
        refine ⟨id :: looked, rest, rfl, hcursor, fun _ _ h => absurd h (List.cons_ne_nil _ _),
          hpass.skip fun nack' hnack => ?_⟩
        obtain rfl := Option.some.inj (hlookup.symm.trans hnack)
        exact not_le.2 hrecent
      · rw [if_neg hrecent]
        obtain ⟨looked, rest, rfl, hcursor, -, hpass⟩ := ih
          (g.takeOver st consumer nowMs id nack nowMs
            (if justID then nack.deliveryCount else wrap (nack.deliveryCount + 1))).1
          (tried + 1) (done + 1) hids
        exact ⟨id :: looked, rest, rfl, hcursor, fun _ _ h => absurd h (List.cons_ne_nil _ _),
          hpass.take fun hmem => hid (List.mem_append_left _ hmem)⟩

end Loop

section Calls

variable {st consumer minIdleMs count justID nowMs}

theorem mem_pendingIDs {pel : Finmap fun _ : StreamID => Nack} {p : StreamID → Bool} {id : StreamID} :
    id ∈ pendingIDs pel p ↔ (pel.lookup id).isSome ∧ p id = true := by
  rw [pendingIDs, Finset.mem_sort, Finset.mem_filter, Finmap.mem_keys, Finmap.lookup_isSome]

theorem pendingIDs_ascending (pel : Finmap fun _ : StreamID => Nack) (p : StreamID → Bool) :
    (pendingIDs pel p).Pairwise (· < ·) := (Finset.sortedLT_sort _).pairwise

theorem consumerFor_pel (g : Group) : (g.consumerFor consumer nowMs).1.pel = g.pel :=
  congrArg Standing.pel (g.standing_consumerFor consumer nowMs)

variable (st consumer minIdleMs count justID nowMs) in
theorem autoClaim_pass (g : Group) (cursor : StreamID) : ∃ looked rest,
    pendingIDs g.pel (fun id => decide (cursor ≤ id)) = looked ++ rest ∧
      (g.autoClaim st consumer cursor minIdleMs count justID nowMs).2.2 = rest.headD zeroID ∧
      (0 < count → CountFits count → looked = [] → rest = []) ∧
      Pass st consumer minIdleMs nowMs g
        (g.autoClaim st consumer cursor minIdleMs count justID nowMs).1 looked := by
  have hids := pendingIDs_ascending g.pel fun id => decide (cursor ≤ id)
  unfold autoClaim
  dsimp only
  rw [consumerFor_pel]
  obtain ⟨looked, rest, heq, hcursor, hsome, hframe, hsettled⟩ :=
    @autoClaimAll_pass st consumer minIdleMs count justID nowMs (g.consumerFor consumer nowMs).1 0 0 _
      (hids.imp ne_of_lt)
  rw [consumerFor_pel] at hframe hsettled
  refine ⟨looked, rest, heq, hcursor, fun hcount hfits hnil => ?_, hframe, hsettled⟩
  have := hsome hcount (countFits_iff.1 hfits) hnil
  rw [heq, hnil, List.nil_append] at this
  exact this

/-- The sweep from any cursor on. Each call leaves fewer pending ids to look at. -/
theorem sweep_settles (hcount : 0 < count) (hfits : CountFits count) {left : ℕ} (cursor : StreamID)
    (g : Group) (hleft : (pendingIDs g.pel fun id => decide (cursor ≤ id)).length < left) :
    ∃ calls g', sweep st consumer minIdleMs count justID nowMs calls cursor g = some g' ∧
      (∀ id, id < cursor → g'.pel.lookup id = g.pel.lookup id) ∧
      ∀ id nack, cursor ≤ id → g.pel.lookup id = some nack → IdleFor minIdleMs nowMs nack →
        Settled st consumer g' id := by
  induction left generalizing cursor g with
  | zero => omega
  | succ left ih =>
    obtain ⟨looked, rest, hids, hnext, hsome, hpass⟩ :=
      autoClaim_pass st consumer minIdleMs count justID nowMs g cursor
    have hasc := pendingIDs_ascending g.pel fun id => decide (cursor ≤ id)
    have hmem : ∀ id, id ∈ looked ++ rest ↔ (g.pel.lookup id).isSome ∧ cursor ≤ id := fun id => by
      rw [← hids, mem_pendingIDs, decide_eq_true_iff]
    rw [hids] at hasc hleft
    have hbefore : ∀ id, id < cursor → id ∉ looked := fun id hlt hin =>
      absurd ((hmem id).1 (List.mem_append_left _ hin)).2 (not_le.2 hlt)
    cases rest with
    | nil =>
      refine ⟨1, _, by rw [sweep]; exact if_pos hnext, fun id hlt => hpass.frame id (hbefore id hlt), ?_⟩
      intro id nack hle hnack
      have hin : id ∈ looked := by simpa using (hmem id).2 ⟨by rw [hnack]; rfl, hle⟩
      exact hpass.settled id hin nack hnack
    | cons next rest =>
      rw [List.headD_cons] at hnext
      obtain ⟨first, looked, rfl⟩ := List.exists_cons_of_ne_nil
        fun hnil => absurd (hsome hcount hfits hnil) (List.cons_ne_nil _ _)
      have hlt : ∀ id ∈ first :: looked, id < next := fun id hin =>
        (List.pairwise_append.1 hasc).2.2 id hin next List.mem_cons_self
      have hlater : ∀ id, next ≤ id → id ∉ first :: looked := fun id hle hin =>
        absurd (hlt id hin) (not_lt.2 hle)
      have hfrom : cursor ≤ next := ((hmem next).1 (by simp)).2
      have hzero : next ≠ zeroID :=
        ne_of_gt (lt_of_le_of_lt (zeroID_le first) (hlt first List.mem_cons_self))
      have hfewer : (pendingIDs (g.autoClaim st consumer cursor minIdleMs count justID nowMs).1.pel
          fun id => decide (next ≤ id)).length < left := by
        have hsub : ∀ id ∈ pendingIDs (g.autoClaim st consumer cursor minIdleMs count justID nowMs).1.pel
            (fun id => decide (next ≤ id)), id ∈ next :: rest := fun id hin => by
          obtain ⟨hsome, hle⟩ := mem_pendingIDs.1 hin
          have hle := of_decide_eq_true hle
          have hnot := hlater id hle
          rw [hpass.frame id hnot] at hsome
          exact (List.mem_append.1 ((hmem id).2 ⟨hsome, hfrom.trans hle⟩)).resolve_left hnot
        have hlen := (List.subperm_of_subset
          ((pendingIDs_ascending _ _).imp ne_of_lt) hsub).length_le
        simp only [List.length_append, List.length_cons] at hleft hlen
        omega
      obtain ⟨calls, g', hsweep, hframe, hsettled⟩ := ih next _ hfewer
      refine ⟨calls + 1, g', by rw [sweep, hnext, if_neg hzero, hsweep], fun id hid => ?_, ?_⟩
      · rw [hframe id (lt_of_lt_of_le hid hfrom), hpass.frame id (hbefore id hid)]
      · intro id nack hle hnack hidle
        by_cases hin : id ∈ first :: looked
        · exact (hpass.settled id hin nack hnack hidle).congr (hframe id (hlt id hin))
        · have hrest : id ∈ next :: rest :=
            (List.mem_append.1 ((hmem id).2 ⟨by rw [hnack]; rfl, hle⟩)).resolve_left hin
          have hnext : next ≤ id := by
            rcases List.mem_cons.1 hrest with rfl | hrest
            · exact le_rfl
            · exact ((List.pairwise_cons.1 (List.pairwise_append.1 hasc).2.1).1 id hrest).le
          exact hsettled id nack hnext (by rw [hpass.frame id hin, hnack]) hidle

end Calls

/-- A group with one pending entry. -/
def onePending : Group :=
  { Group.new zeroID 0 false with pel := Finmap.singleton (streamID 1 1) ⟨ascii "a", 0, 1⟩ }

theorem onePending_ids {cursor : StreamID} (h : cursor ≤ streamID 1 1) :
    pendingIDs onePending.pel (fun id => decide (cursor ≤ id)) = [streamID 1 1] := by
  rw [pendingIDs, onePending, Finmap.keys_singleton, Finset.filter_singleton,
    if_pos (decide_eq_true h), Finset.sort_singleton]

/-- Where no call may look at an id, the sweep stays at the first one. -/
theorem sweep_stuck (hfits : ¬ CountFits count) (calls : ℕ) {cursor : StreamID} {g : Group}
    (hg : g.pel = onePending.pel) (hcursor : cursor ≤ streamID 1 1) :
    sweep st consumer minIdleMs count justID nowMs calls cursor g = none := by
  induction calls generalizing cursor g with
  | zero => rfl
  | succ calls ih =>
    have hstop : count ≤ 0 ∨ wrap (count * 10) ≤ 0 := .inr (not_lt.1 (countFits_iff.not.1 hfits))
    have hcall : g.autoClaim st consumer cursor minIdleMs count justID nowMs =
        ((g.consumerFor consumer nowMs).1, ⟨[], []⟩, streamID 1 1) := by
      unfold autoClaim
      dsimp only
      rw [consumerFor_pel, hg, onePending_ids hcursor, autoClaimAll, if_pos hstop]
    rw [sweep, hcall, if_neg (show streamID 1 1 ≠ zeroID by decide)]
    exact ih ((consumerFor_pel g).trans hg) le_rfl

/-- For a count that the handler accepts, a sweep ends with every pending entry settled that
was idle for long enough, whatever the group, just when ten times the count is a positive
machine word. -/
theorem sweep_covers_iff {count : ℤ} (hpos : 1 ≤ count) :
    (∀ st consumer minIdleMs justID nowMs g,
      SweepCovers st consumer minIdleMs count justID nowMs g) ↔ CountFits count := by
  constructor
  · intro hall
    by_contra hfits
    obtain ⟨calls, g', hsweep, -⟩ := hall .new [] 0 false 0 onePending
    rw [sweep_stuck .new [] 0 count false 0 hfits calls rfl (by decide)] at hsweep
    cases hsweep
  · intro hfits st consumer minIdleMs justID nowMs g
    obtain ⟨calls, g', hsweep, -, hsettled⟩ :=
      sweep_settles (lt_of_lt_of_le one_pos hpos) hfits zeroID g (Nat.lt_succ_self _)
    exact ⟨calls, g', hsweep, fun id nack => hsettled id nack (zeroID_le id)⟩

theorem sweep_covers_hundred :
    (∀ st consumer minIdleMs justID nowMs g, SweepCovers st consumer minIdleMs 100 justID nowMs g) ∧
      CountFits 100 :=
  ⟨(sweep_covers_iff (by norm_num)).2 (by decide), by decide⟩

/-- The greatest count: the call is asked to look at minus ten ids. -/
theorem sweep_stuck_max :
    ¬ SweepCovers .new (ascii "c") 0 (2 ^ 63 - 1) false 0 onePending := by
  rintro ⟨calls, g', hsweep, -⟩
  rw [sweep_stuck .new _ 0 _ false 0 (by decide) calls rfl (by decide)] at hsweep
  cases hsweep

end Group

end ShardKV.Data
