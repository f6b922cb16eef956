import Mathlib.Data.Finset.Lattice.Union
import ShardKV.Data.HyperLogLog
import ShardKV.Data.Value

/-!
PFADD and PFMERGE.

An element names a register and a value by its hash, and a register keeps the greatest value it
was given. So the registers are a function of the set of elements, and the registers of a union
are the greater of the two at each place. Both are carried through the strings the commands
store: each of them decodes what is there and encodes what it leaves.
-/

namespace ShardKV.Commands

open Access Data HyperLogLog Prog

section Levels

variable {α ι : Type} [DecidableEq ι] {place : α → ι} {value : α → ℕ}

/-- The greatest value that elements of a set have at a place. -/
def level (place : α → ι) (value : α → ℕ) (A : Finset α) (i : ι) : ℕ := (A.filter fun a => place a = i).sup value

theorem level_empty (i : ι) : level place value ∅ i = 0 := rfl

theorem level_insert [DecidableEq α] (a : α) (A : Finset α) (i : ι) :
    level place value (insert a A) i =
      if place a = i then max (value a) (level place value A i) else level place value A i := by
  unfold level
  rw [Finset.filter_insert]
  split_ifs
  · exact Finset.sup_insert
  · rfl

theorem level_union [DecidableEq α] (A B : Finset α) (i : ι) :
    level place value (A ∪ B) i = max (level place value A i) (level place value B i) := by
  unfold level
  rw [Finset.filter_union]
  exact Finset.sup_union

theorem level_le {n : ℕ} (h : ∀ a, value a ≤ n) (A : Finset α) (i : ι) : level place value A i ≤ n :=
  Finset.sup_le fun a _ => h a

end Levels

section Source

inductive SketchErr
  | wrongType
  | notHLL
  deriving DecidableEq

/-- The loop that counts zeros from the low end; `turns` bounds it. -/
def countZeros (hash : BitVec 64) : ℕ → BitVec 64 → UInt8 → UInt8
  | 0, _, count => count
  | turns + 1, bit, count =>
    if hash &&& bit = 0 then countZeros hash turns (bit <<< 1) (count + 1) else count

variable (hash : Bytes → BitVec 64)

/-- The register of an element and the value it should record. -/
def hllPatLen (element : Bytes) : ℕ × UInt8 :=
  let h := hash element
  let index := (h &&& BitVec.ofNat 64 (hllRegisters - 1)).toNat
  let h := h >>> 14 ||| 1#64 <<< 50
  (index, countZeros h 64 1#64 1)

/-- One element more; the flag says that a register has grown. -/
def addElement (st : List UInt8 × Bool) (element : Bytes) : List UInt8 × Bool :=
  let (idx, count) := hllPatLen hash element
  if count > st.1.getD idx 0 then (st.1.set idx count, true) else st

variable {S : Type} [LinearOrder S] (maxBytes : ℤ)

/-- What PFADD does once it has the registers. -/
def addTo (elements : List Bytes) (regs : List UInt8) (expireAt : Option ℤ) (created : Bool) :
    Edit (Entry S) (Except SketchErr Bool) :=
  let (regs, updated) := elements.foldl (addElement hash) (regs, false)
  if !updated && !created then .keep (.ok false)
  else .put ⟨.str (encodeHLL regs maxBytes), expireAt⟩ (.ok true)

def pfAdd (k : Loc) (elements : List Bytes) : Op S (Except SketchErr Bool) :=
  edit k fun
    | some ⟨.str b, expireAt⟩ =>
      match hllRegistersOf b with
      | none => .keep (.error .notHLL)
      | some regs => addTo hash maxBytes elements regs expireAt false
    | some _ => .keep (.error .wrongType)
    | none => addTo hash maxBytes elements (List.replicate hllRegisters 0) none true

/-- The registers an entry holds, if there is one. -/
def registersOf : Option (Entry S) → Except SketchErr (Option (List UInt8))
  | none => .ok none
  | some ⟨.str b, _⟩ =>
    match hllRegistersOf b with
    | none => .error .notHLL
    | some regs => .ok (some regs)
  | some _ => .error .wrongType

/-- The greater value at each place. -/
def mergeRegs (merged regs : List UInt8) : List UInt8 := List.zipWith (fun m v => if v > m then v else m) merged regs

def mergeSources : List Loc → List UInt8 → Op S (Except SketchErr (List UInt8))
  | [], merged => pure (.ok merged)
  | k :: ks, merged => .read k fun e =>
    match registersOf e with
    | .error err => pure (.error err)
    | .ok none => mergeSources ks merged
    | .ok (some regs) => mergeSources ks (mergeRegs merged regs)

def pfMerge (dst : Loc) (srcs : List Loc) : Op S (Except SketchErr Bool) :=
  .read dst fun e =>
    match registersOf e with
    | .error err => pure (.error err)
    | .ok held => do
      match ← mergeSources srcs (held.getD (List.replicate hllRegisters 0)) with
      | .error err => pure (.error err)
      | .ok merged =>
        let out := encodeHLL merged maxBytes
        if e.any fun e => decide (e.value = .str out) then pure (.ok false)
        else do
          put dst ⟨.str out, e.bind Entry.expireAt⟩
          pure (.ok true)

end Source

section Hashing

theorem and_bit_eq_zero (h : BitVec 64) (i : ℕ) (hi : i < 64) : h &&& 1#64 <<< i = 0 ↔ h.getLsbD i = false := by
  have htwo : h &&& 1#64 <<< i = if h.getLsbD i then BitVec.twoPow 64 i else 0#64 := BitVec.and_twoPow h i
  rw [htwo]
  cases hbit : h.getLsbD i with
  | false => simp
  | true =>
    have hne : BitVec.twoPow 64 i ≠ 0#64 := fun hzero => by
      have := congrArg (fun x => BitVec.getLsbD x i) hzero
      simp [hi] at this
    simpa using hne

/-- The count is one more than the place of the lowest bit that is set. -/
theorem countZeros_eq {h : BitVec 64} {k : ℕ} (hk : h.getLsbD k = true) (hlow : ∀ t < k, h.getLsbD t = false)
    (hlt : k < 64) {turns i : ℕ} (hi : i ≤ k) (hturns : k < turns + i) :
    countZeros h turns (1#64 <<< i) (UInt8.ofNat (i + 1)) = UInt8.ofNat (k + 1) := by
  induction turns generalizing i with
  | zero => omega
  | succ turns ih =>
    rw [countZeros]
    by_cases heq : i = k
    · subst heq
      rw [if_neg (by rw [and_bit_eq_zero h i hlt, hk]; decide)]
    · have hnext : UInt8.ofNat (i + 1) + 1 = UInt8.ofNat (i + 1 + 1) := (UInt8.ofNat_add _ _).symm
      rw [if_pos ((and_bit_eq_zero h i (by omega)).2 (hlow i (by omega))), ← BitVec.shiftLeft_add, hnext]
      exact ih (by omega) (by omega)

variable (hash : Bytes → BitVec 64) (a : Bytes)

theorem hllPatLen_index : (hllPatLen hash a).1 < hllRegisters := by
  have hle : (hash a &&& BitVec.ofNat 64 (hllRegisters - 1)).toNat ≤ 16383 := by
    rw [BitVec.toNat_and]
    exact Nat.and_le_right
  exact Nat.lt_succ_of_le hle

/-- The bit set above the hash bounds the count, so that it fits a register. -/
theorem hllPatLen_count : 0 < (hllPatLen hash a).2.toNat ∧ (hllPatLen hash a).2.toNat ≤ 51 := by
  have htop : (hash a >>> 14 ||| 1#64 <<< 50).getLsbD 50 = true := by
    rw [BitVec.getLsbD_or, BitVec.getLsbD_shiftLeft]
    simp
  have hex : ∃ t, (hash a >>> 14 ||| 1#64 <<< 50).getLsbD t = true := ⟨50, htop⟩
  have hfind : Nat.find hex ≤ 50 := Nat.find_min' hex htop
  have hcount : (hllPatLen hash a).2 = UInt8.ofNat (Nat.find hex + 1) :=
    countZeros_eq (i := 0) (Nat.find_spec hex) (fun t ht => Bool.eq_false_iff.2 (Nat.find_min hex ht))
      (by omega) (Nat.zero_le _) (by omega)
  rw [hcount, UInt8.toNat_ofNat']
  omega

end Hashing

section Registers

variable (hash : Bytes → BitVec 64)

def sketch (A : Finset Bytes) : List UInt8 :=
  (List.range hllRegisters).map fun i =>
    UInt8.ofNat (level (fun a => (hllPatLen hash a).1) (fun a => (hllPatLen hash a).2.toNat) A i)

variable {A B : Finset Bytes} {i : ℕ}

theorem length_sketch (A : Finset Bytes) : (sketch hash A).length = hllRegisters := by simp [sketch]

variable {hash}

theorem sketch_level_le :
    level (fun a => (hllPatLen hash a).1) (fun a => (hllPatLen hash a).2.toNat) A i ≤ 51 :=
  level_le (fun a => (hllPatLen_count hash a).2) A i

variable (hash) in
theorem toNat_sketch (A : Finset Bytes) (hi : i < hllRegisters) : ((sketch hash A).getD i 0).toNat =
    level (fun a => (hllPatLen hash a).1) (fun a => (hllPatLen hash a).2.toNat) A i := by
  rw [sketch, List.getD_eq_getElem _ _ (by simpa using hi), List.getElem_map, List.getElem_range,
    UInt8.toNat_ofNat', Nat.mod_eq_of_lt (sketch_level_le.trans_lt (by decide))]

attribute [irreducible] sketch

theorem registers_ext {xs ys : List UInt8} (hx : xs.length = hllRegisters) (hy : ys.length = hllRegisters)
    (h : ∀ i < hllRegisters, (xs.getD i 0).toNat = (ys.getD i 0).toNat) : xs = ys := by
  refine List.ext_getElem (hx.trans hy.symm) fun i hi hi' => UInt8.toNat_inj.1 ?_
  have := h i (hx ▸ hi)
  rwa [List.getD_eq_getElem _ _ hi, List.getD_eq_getElem _ _ hi'] at this

theorem sketch_empty : sketch hash ∅ = List.replicate hllRegisters 0 := by
  refine registers_ext (length_sketch hash ∅) List.length_replicate fun i hi => ?_
  rw [toNat_sketch _ _ hi, level_empty, List.getD_eq_getElem _ _ (by simpa using hi), List.getElem_replicate]
  rfl

theorem getD_set {xs : List UInt8} {j : ℕ} (h : j < xs.length) (v : UInt8) (i : ℕ) :
    (xs.set j v).getD i 0 = if j = i then v else xs.getD i 0 := by
  rw [List.getD_eq_getElem?_getD, List.getElem?_set, List.getD_eq_getElem?_getD]
  split_ifs <;> rfl

section Adding

variable {regs : List UInt8} (flag : Bool)

variable (hash) in
/-- An element raises its register to its value. -/
theorem addElement_spec (hlen : regs.length = hllRegisters) (a : Bytes) :
    (addElement hash (regs, flag) a).1.length = hllRegisters ∧
    (∀ i, ((addElement hash (regs, flag) a).1.getD i 0).toNat = if (hllPatLen hash a).1 = i then
      max (hllPatLen hash a).2.toNat (regs.getD i 0).toNat else (regs.getD i 0).toNat) ∧
    ((addElement hash (regs, flag) a).2 = true ↔
      flag = true ∨ (regs.getD (hllPatLen hash a).1 0).toNat < (hllPatLen hash a).2.toNat) := by
  have hidx : (hllPatLen hash a).1 < regs.length := hlen.symm ▸ hllPatLen_index hash a
  unfold addElement
  dsimp only
  by_cases hgt : (hllPatLen hash a).2 > regs.getD (hllPatLen hash a).1 0
  · have hlt : (regs.getD (hllPatLen hash a).1 0).toNat < (hllPatLen hash a).2.toNat := hgt
    rw [if_pos hgt]
    refine ⟨by rw [List.length_set, hlen], fun i => ?_, iff_of_true rfl (.inr hlt)⟩
    rw [getD_set hidx]
    split_ifs with hi
    · rw [max_eq_left (hi ▸ hlt.le)]
    · rfl
  · have hge : ¬ (regs.getD (hllPatLen hash a).1 0).toNat < (hllPatLen hash a).2.toNat := hgt
    rw [if_neg hgt]
    refine ⟨hlen, fun i => ?_, by rw [or_iff_left hge]⟩
    split_ifs with hi
    · rw [max_eq_right (hi ▸ not_lt.1 hge)]
    · rfl

theorem addElement_sketch {st : List UInt8 × Bool} (h : st.1 = sketch hash A) (a : Bytes) :
    (addElement hash st a).1 = sketch hash (insert a A) := by
  obtain ⟨hlen, hget, -⟩ := addElement_spec hash st.2 (h ▸ length_sketch hash A) a
  refine registers_ext hlen (length_sketch hash _) fun i hi => ?_
  rw [hget, h, toNat_sketch _ _ hi, toNat_sketch _ _ hi, level_insert]

theorem addElements_sketch {st : List UInt8 × Bool} (h : st.1 = sketch hash A) (elements : List Bytes) :
    (elements.foldl (addElement hash) st).1 = sketch hash (elements.toFinset ∪ A) := by
  induction elements generalizing A st with
  | nil => simpa using h
  | cons a elements ih =>
    rw [List.foldl_cons, ih (addElement_sketch h a), List.toFinset_cons, Finset.insert_union, Finset.union_insert]

/-- Registers that have grown from `regs`, with a flag that says whether any has. -/
structure Grown (regs : List UInt8) (st : List UInt8 × Bool) : Prop where
  length : st.1.length = hllRegisters
  le : ∀ i, (regs.getD i 0).toNat ≤ (st.1.getD i 0).toNat
  flag_iff : st.2 = true ↔ ∃ i, (regs.getD i 0).toNat < (st.1.getD i 0).toNat
  bounded : ∀ i, (st.1.getD i 0).toNat < 64

theorem Grown.step {st : List UInt8 × Bool} (h : Grown regs st) (a : Bytes) : Grown regs (addElement hash st a) := by
  obtain ⟨hlen, hget, hflag⟩ := addElement_spec hash st.2 h.length a
  refine ⟨hlen, fun i => ?_, ?_, fun i => ?_⟩
  · rw [hget]
    split_ifs
    · exact (h.le i).trans (le_max_right _ _)
    · exact h.le i
  · rw [hflag, h.flag_iff]
    constructor
    · rintro (⟨i, hi⟩ | hlt)
      · refine ⟨i, ?_⟩
        rw [hget]
        split_ifs
        · exact hi.trans_le (le_max_right _ _)
        · exact hi
      · refine ⟨(hllPatLen hash a).1, ?_⟩
        rw [hget, if_pos rfl]
        exact ((h.le _).trans_lt hlt).trans_le (le_max_left _ _)
    · rintro ⟨i, hi⟩
      rw [hget] at hi
      by_cases hidx : (hllPatLen hash a).1 = i
      · rw [if_pos hidx] at hi
        subst hidx
        rcases lt_or_ge (st.1.getD (hllPatLen hash a).1 0).toNat (hllPatLen hash a).2.toNat with hlt | hge
        · exact .inr hlt
        · exact .inl ⟨_, by rwa [max_eq_right hge] at hi⟩
      · rw [if_neg hidx] at hi
        exact .inl ⟨i, hi⟩
  · have hcount := (hllPatLen_count hash a).2
    rw [hget]
    split_ifs
    · exact max_lt (by omega) (h.bounded i)
    · exact h.bounded i

variable (hash) in
theorem Grown.run {st : List UInt8 × Bool} (h : Grown regs st) (elements : List Bytes) :
    Grown regs (elements.foldl (addElement hash) st) := by
  induction elements generalizing st with
  | nil => exact h
  | cons a elements ih => exact ih (h.step a)

theorem grown_start (r : Registers) : Grown r.regs (r.regs, false) := by
  refine ⟨r.length_eq, fun _ => le_rfl, by simp, fun i => ?_⟩
  rcases lt_or_ge i r.regs.length with hi | hi
  · rw [List.getD_eq_getElem _ _ hi]
    exact r.bounded _ (List.getElem_mem hi)
  · rw [List.getD_eq_default _ _ hi]
    decide

theorem Grown.registers {st : List UInt8 × Bool} (h : Grown regs st) : ∃ r : Registers, r.regs = st.1 := by
  refine ⟨⟨st.1, h.length, fun v hv => ?_⟩, rfl⟩
  obtain ⟨i, hi, rfl⟩ := List.getElem_of_mem hv
  have := h.bounded i
  rwa [List.getD_eq_getElem _ _ hi] at this

/-- PFADD's flag says whether the registers changed. -/
theorem Grown.flag_iff_ne {st : List UInt8 × Bool} (h : Grown regs st) (hlen : regs.length = hllRegisters) :
    st.2 = true ↔ st.1 ≠ regs := by
  rw [h.flag_iff]
  constructor
  · rintro ⟨i, hi⟩ heq
    rw [heq] at hi
    exact lt_irrefl _ hi
  · intro hne
    by_contra hnone
    push Not at hnone
    exact hne (registers_ext h.length hlen fun i _ => le_antisymm (hnone i) (h.le i))

end Adding

/-- The registers of a set make a sketch. -/
def sketchRegisters (hash : Bytes → BitVec 64) (A : Finset Bytes) : Registers where
  regs := sketch hash A
  length_eq := length_sketch hash A
  bounded := by
    intro v hv
    obtain ⟨i, hi, rfl⟩ := List.getElem_of_mem hv
    have hget := toNat_sketch hash A (length_sketch hash A ▸ hi)
    rw [List.getD_eq_getElem _ _ hi] at hget
    rw [UInt8.lt_iff_toNat_lt, hget]
    exact sketch_level_le.trans_lt (by decide)

variable (hash) in
theorem hllRegistersOf_sketch (maxBytes : ℤ) (A : Finset Bytes) :
    hllRegistersOf (encodeHLL (sketch hash A) maxBytes) = some (sketch hash A) := by
  have hregs : (sketchRegisters hash A).regs = sketch hash A := rfl
  rw [← hregs, hllRegistersOf_encodeHLL]

theorem mergeRegs_sketch : mergeRegs (sketch hash A) (sketch hash B) = sketch hash (A ∪ B) := by
  have hlen : (mergeRegs (sketch hash A) (sketch hash B)).length = hllRegisters := by
    rw [mergeRegs, List.length_zipWith, length_sketch, length_sketch, min_self]
  refine registers_ext hlen (length_sketch hash _) fun i hi => ?_
  have hiA : i < (sketch hash A).length := hi.trans_eq (length_sketch hash A).symm
  have hiB : i < (sketch hash B).length := hi.trans_eq (length_sketch hash B).symm
  have hA := toNat_sketch hash A hi
  have hB := toNat_sketch hash B hi
  rw [List.getD_eq_getElem _ _ hiA] at hA
  rw [List.getD_eq_getElem _ _ hiB] at hB
  rw [toNat_sketch _ _ hi, level_union, ← hA, ← hB, List.getD_eq_getElem _ _ (hi.trans_eq hlen.symm)]
  simp only [mergeRegs, List.getElem_zipWith, gt_iff_lt, UInt8.lt_iff_toNat_lt]
  split_ifs with hlt
  · rw [max_eq_right hlt.le]
  · rw [max_eq_left (not_lt.1 hlt)]

end Registers

section Commands

variable {S : Type} [LinearOrder S] {hash : Bytes → BitVec 64} {maxBytes : ℤ} {now : Instant} {s : Dataset S}
  {k : Loc}

/-- A key that shows a sketch with these registers. -/
def Holds (now : Instant) (s : Dataset S) (k : Loc) (regs : List UInt8) : Prop :=
  ∃ b expireAt, seen (live now) s k = some ⟨.str b, expireAt⟩ ∧ hllRegistersOf b = some regs

theorem seen_update_live {e : Entry S} (h : live now e = true) : seen (live now) (Function.update s k (some e)) k = some e := by
  simp [seen, h]

theorem live_of_seen {e : Entry S} (h : seen (live now) s k = some e) : live now e = true := by
  unfold seen at h
  exact (Option.filter_eq_some_iff.1 h).2

/-- PFADD on a missing key creates it, whatever it is given. -/
theorem pfAdd_missing (elements : List Bytes) (h : seen (live now) s k = none) :
    ((pfAdd hash maxBytes k elements).run (live now) s).1 = .ok true ∧
    ((pfAdd hash maxBytes k elements).run (live now) s).2 =
      Function.update s k (some ⟨.str (encodeHLL (sketch hash elements.toFinset) maxBytes), none⟩) := by
  have hfold : (elements.foldl (addElement hash) (List.replicate hllRegisters 0, false)).1 =
      sketch hash (elements.toFinset ∪ ∅) := addElements_sketch sketch_empty.symm elements
  rw [Finset.union_empty] at hfold
  rw [pfAdd, run_edit, h, ← hfold]
  unfold addTo
  simp

variable (hash maxBytes) in
theorem pfAdd_held {b : Bytes} {expireAt : Option ℤ} {regs : List UInt8}
    (h : seen (live now) s k = some ⟨.str b, expireAt⟩) (hregs : hllRegistersOf b = some regs)
    (elements : List Bytes) : ∃ b', seen (live now) ((pfAdd hash maxBytes k elements).run (live now) s).2 k =
        some ⟨.str b', expireAt⟩ ∧
      hllRegistersOf b' = some (elements.foldl (addElement hash) (regs, false)).1 ∧
      ((pfAdd hash maxBytes k elements).run (live now) s).1 =
        .ok (decide ((elements.foldl (addElement hash) (regs, false)).1 ≠ regs)) := by
  obtain ⟨r, rfl⟩ := hllRegistersOf_valid hregs
  have hgrown := (grown_start r).run hash elements
  have hflag := hgrown.flag_iff_ne r.length_eq
  obtain ⟨r', hr'⟩ := hgrown.registers
  rw [pfAdd, run_edit, h]
  dsimp only
  rw [hregs]
  unfold addTo
  dsimp only
  cases hupdated : (elements.foldl (addElement hash) (r.regs, false)).2 with
  | false =>
    have hsame : (elements.foldl (addElement hash) (r.regs, false)).1 = r.regs := by
      by_contra hne
      rw [hflag.2 hne] at hupdated
      cases hupdated
    refine ⟨b, h, by rw [hsame, hregs], ?_⟩
    rw [hsame]
    simp
  | true =>
    refine ⟨encodeHLL r'.regs maxBytes, ?_, ?_, ?_⟩
    · have hlive : live now (⟨.str b, expireAt⟩ : Entry S) = true := live_of_seen h
      rw [hr']
      exact seen_update_live hlive
    · rw [hllRegistersOf_encodeHLL, hr']
    · rw [decide_eq_true (hflag.1 hupdated)]
      rfl

/-- A number of PFADD calls on one key, each at its own time. -/
def addAll (hash : Bytes → BitVec 64) (maxBytes : ℤ) (k : Loc) (calls : List (Instant × List Bytes))
    (s : Dataset S) : Dataset S :=
  calls.foldl (fun s call => ((pfAdd hash maxBytes k call.2).run (live call.1) s).2) s

/-- After each call the stored registers are those of all elements so far. -/
theorem addAll_sketch (calls : List (Instant × List Bytes)) {b : Bytes} {A : Finset Bytes}
    (h : s k = some ⟨.str b, none⟩) (hregs : hllRegistersOf b = some (sketch hash A)) :
    ∃ b', addAll hash maxBytes k calls s k = some ⟨.str b', none⟩ ∧
      hllRegistersOf b' = some (sketch hash (A ∪ (calls.flatMap Prod.snd).toFinset)) := by
  induction calls generalizing s b A with
  | nil => exact ⟨b, h, by simpa using hregs⟩
  | cons call calls ih =>
    -- an entry without a deadline is seen at any time
    have hseen : seen (live call.1) s k = some ⟨.str b, none⟩ := by
      rw [seen, h]
      rfl
    obtain ⟨b', hb', hregs', -⟩ := pfAdd_held hash maxBytes hseen hregs call.2
    have hfold : (call.2.foldl (addElement hash) (sketch hash A, false)).1 = sketch hash (call.2.toFinset ∪ A) :=
      addElements_sketch rfl call.2
    rw [hfold] at hregs'
    have hstored : ((pfAdd hash maxBytes k call.2).run (live call.1) s).2 k = some ⟨.str b', none⟩ := by
      unfold seen at hb'
      exact (Option.filter_eq_some_iff.1 hb').1
    obtain ⟨b'', hb'', hregs''⟩ := ih hstored hregs'
    refine ⟨b'', hb'', ?_⟩
    rw [hregs'', List.flatMap_cons, List.toFinset_append, Finset.union_comm _ A, Finset.union_assoc]

/-- A key shows the sketch of a set, or nothing where the set is empty. -/
def Sketches (hash : Bytes → BitVec 64) (now : Instant) (s : Dataset S) (k : Loc) (A : Finset Bytes) : Prop :=
  seen (live now) s k = none ∧ A = ∅ ∨ Holds now s k (sketch hash A)

theorem registersOf_sketches {A : Finset Bytes} (h : Sketches hash now s k A) :
    (registersOf (seen (live now) s k) = .ok none ∧ A = ∅) ∨
      registersOf (seen (live now) s k) = .ok (some (sketch hash A)) := by
  rcases h with ⟨hnone, hA⟩ | ⟨b, expireAt, hseen, hregs⟩
  · rw [hnone]
    exact .inl ⟨rfl, hA⟩
  · rw [hseen, registersOf, hregs]
    exact .inr rfl

theorem mergeSources_run {srcs : List Loc} {sets : List (Finset Bytes)}
    (h : List.Forall₂ (Sketches hash now s) srcs sets) (A : Finset Bytes) :
    (mergeSources srcs (sketch hash A)).run (live now) s = (.ok (sketch hash (sets.foldl (· ∪ ·) A)), s) := by
  induction h generalizing A with
  | nil => rfl
  | cons hsrc _ ih =>
    rw [mergeSources, run_read, List.foldl_cons]
    rcases registersOf_sketches hsrc with ⟨hread, rfl⟩ | hread
    · rw [hread, Finset.union_empty]
      exact ih A
    · rw [hread]
      dsimp only
      rw [mergeRegs_sketch]
      exact ih _

/-- PFMERGE leaves the sketch of the union at its destination. -/
theorem pfMerge_run {dst : Loc} {srcs : List Loc} {B : Finset Bytes} {sets : List (Finset Bytes)}
    (hdst : Sketches hash now s dst B) (hsrcs : List.Forall₂ (Sketches hash now s) srcs sets) :
    (∃ changed, ((pfMerge maxBytes dst srcs).run (live now) s).1 = .ok changed) ∧
      Holds now ((pfMerge maxBytes dst srcs).run (live now) s).2 dst (sketch hash (sets.foldl (· ∪ ·) B)) := by
  have hback := hllRegistersOf_sketch hash maxBytes (sets.foldl (· ∪ ·) B)
  have hmerged : (pfMerge maxBytes dst srcs).run (live now) s =
      (if (seen (live now) s dst).any fun e =>
          decide (e.value = .str (encodeHLL (sketch hash (sets.foldl (· ∪ ·) B)) maxBytes)) then
        (.ok false, s)
      else (.ok true, Function.update s dst (some ⟨.str (encodeHLL (sketch hash (sets.foldl (· ∪ ·) B)) maxBytes),
        (seen (live now) s dst).bind Entry.expireAt⟩))) := by
    rw [pfMerge, run_read]
    rcases registersOf_sketches hdst with ⟨hread, rfl⟩ | hread
    · rw [hread]
      dsimp only
      rw [Option.getD_none, ← sketch_empty, run_bind, mergeSources_run hsrcs]
      dsimp only
      split_ifs <;> rfl
    · rw [hread]
      dsimp only
      rw [Option.getD_some, run_bind, mergeSources_run hsrcs]
      dsimp only
      split_ifs <;> rfl
  rw [hmerged]
  split_ifs with hsame
  · cases hseen : seen (live now) s dst with
    | none =>
      rw [hseen] at hsame
      cases hsame
    | some e =>
      rw [hseen, Option.any_some, decide_eq_true_eq] at hsame
      exact ⟨⟨false, rfl⟩, _, e.expireAt, by rw [hseen, ← hsame], hback⟩
  · refine ⟨⟨true, rfl⟩, _, _, seen_update_live ?_, hback⟩
    cases hseen : seen (live now) s dst with
    | none => rfl
    | some e =>
      have hlive := live_of_seen hseen
      exact hlive

end Commands

/-- The stored registers are those of the set of elements, whichever calls brought them; PFADD reports what
it changed; PFMERGE leaves the registers of the union. -/
theorem sketch_of_set {S : Type} [LinearOrder S] (hash : Bytes → BitVec 64) (maxBytes : ℤ) :
    (∀ (k : Loc) (s : Dataset S) (first : Instant × List Bytes) (rest : List (Instant × List Bytes)),
      seen (live first.1) s k = none → ∃ b, addAll hash maxBytes k (first :: rest) s k = some ⟨.str b, none⟩ ∧
        hllRegistersOf b = some (sketch hash ((first :: rest).flatMap Prod.snd).toFinset)) ∧
    (∀ (now : Instant) (s : Dataset S) (k : Loc) (elements : List Bytes),
      (seen (live now) s k = none → ((pfAdd hash maxBytes k elements).run (live now) s).1 = .ok true) ∧
      ∀ regs, Holds now s k regs → ∃ regs',
        Holds now ((pfAdd hash maxBytes k elements).run (live now) s).2 k regs' ∧
        ((pfAdd hash maxBytes k elements).run (live now) s).1 = .ok (decide (regs' ≠ regs))) ∧
    ∀ (now : Instant) (s : Dataset S) (dst : Loc) (srcs : List Loc) (B : Finset Bytes) (sets : List (Finset Bytes)),
      Sketches hash now s dst B → List.Forall₂ (Sketches hash now s) srcs sets →
      (∃ changed, ((pfMerge maxBytes dst srcs).run (live now) s).1 = .ok changed) ∧
        Holds now ((pfMerge maxBytes dst srcs).run (live now) s).2 dst (sketch hash (sets.foldl (· ∪ ·) B)) := by
  refine ⟨fun k s first rest h => ?_, fun now s k elements => ⟨fun h => (pfAdd_missing elements h).1, ?_⟩,
    fun now s dst srcs B sets hdst hsrcs => pfMerge_run hdst hsrcs⟩
  · have hcreated : ((pfAdd hash maxBytes k first.2).run (live first.1) s).2 k =
        some ⟨.str (encodeHLL (sketch hash first.2.toFinset) maxBytes), none⟩ := by
      rw [(pfAdd_missing first.2 h).2, Function.update_self]
    obtain ⟨b, hb, hregs⟩ := addAll_sketch rest hcreated (hllRegistersOf_sketch hash maxBytes _)
    exact ⟨b, hb, by rw [hregs, List.flatMap_cons, List.toFinset_append]⟩
  · rintro regs ⟨b, expireAt, hseen, hregs⟩
    obtain ⟨b', hseen', hregs', hreply⟩ := pfAdd_held hash maxBytes hseen hregs elements
    exact ⟨_, ⟨b', expireAt, hseen', hregs'⟩, hreply⟩

/-- Two calls with one element in common store the sketch of three. -/
theorem three_elements_sketched :
    ∃ b, addAll (fun _ => 0) 3000 (0, [1]) [(0, [[1], [2]]), (7, [[2], [3]])] (fun _ => none : Dataset ℤ) (0, [1]) =
      some ⟨.str b, none⟩ ∧ hllRegistersOf b = some (sketch (fun _ => 0) {[1], [2], [3]}) := by
  obtain ⟨b, hb, hregs⟩ := (sketch_of_set (fun _ => 0) 3000).1 (0, [1]) (fun _ => none : Dataset ℤ) (0, [[1], [2]])
    [(7, [[2], [3]])] rfl
  exact ⟨b, hb, hregs⟩

end ShardKV.Commands
