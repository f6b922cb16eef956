import Mathlib.Data.List.Basic
import Mathlib.Tactic.Linarith
import ShardKV.Bytes.Decimal

/-!
The string form of a HyperLogLog sketch.

A sketch is 16384 registers. Its string has a header of 16 bytes and then the registers in one of
two encodings: packed six bits each, low bit first, or as a run-length code with three opcodes.
`encodeHLL` keeps the second while it fits, and `hllRegistersOf` reads either of them.
-/

namespace ShardKV.Data.HyperLogLog

def hllRegisters : ℕ := 16384

abbrev hllBits : ℕ := 6

def hllHdrSize : ℕ := 16

/-- The bytes of the packed registers, `(hllRegisters * hllBits + 7) / 8`. -/
def denseBytes : ℕ := 12288

def hllDenseSize : ℕ := hllHdrSize + denseBytes

def hllDense : UInt8 := 0

def hllSparse : UInt8 := 1

def hllSparseXZeroMaxLen : ℕ := 16384

def hllSparseZeroMaxLen : ℕ := 64

def hllSparseValMaxValue : UInt8 := 32

def hllSparseValMaxLen : ℕ := 4

/-- "HYLL". -/
def hllMagic : Bytes := [72, 89, 76, 76]

/-- The cached cardinality is marked stale. -/
def hllInvalidateCache (b : Bytes) : Bytes := b.modify 15 (· ||| 0x80)

/-- The header every encoder writes. -/
def header (encoding : UInt8) : Bytes :=
  hllInvalidateCache ((hllMagic ++ List.replicate 12 0).set 4 encoding)

def denseGet (regs : Bytes) (i : ℕ) : UInt8 :=
  let bit := i * hllBits
  let b := bit / 8
  let fb := bit % 8
  let low := (regs.getD b 0).toBitVec.setWidth 16 >>> fb
  let v := if fb > 8 - hllBits then low ||| (regs.getD (b + 1) 0).toBitVec.setWidth 16 <<< (8 - fb) else low
  ⟨(v &&& 63#16).setWidth 8⟩

def denseSet (regs : Bytes) (i : ℕ) (val : UInt8) : Bytes :=
  let bit := i * hllBits
  let b := bit / 8
  let fb := bit % 8
  let low := regs.set b ⟨(regs.getD b 0).toBitVec &&& ~~~(63#8 <<< fb) ||| val.toBitVec <<< fb⟩
  if fb > 8 - hllBits then
    low.set (b + 1) ⟨(low.getD (b + 1) 0).toBitVec &&& ~~~(63#8 >>> (8 - fb)) ||| val.toBitVec >>> (8 - fb)⟩
  else low

def denseRegisters (regs : Bytes) : List UInt8 := (List.range hllRegisters).map (denseGet regs)

/-- The registers from the `i`-th on, written into the body. -/
def writeDense : ℕ → List UInt8 → Bytes → Bytes
  | _, [], body => body
  | i, v :: regs, body => writeDense (i + 1) regs (if v ≠ 0 then denseSet body i v else body)

def encodeDense (regs : List UInt8) : Bytes :=
  header hllDense ++ writeDense 0 regs (List.replicate denseBytes 0)

/-- A run of up to 16384 zero registers. -/
def xzeroOpcode (runLen : ℕ) : Bytes :=
  let n := runLen - 1
  [UInt8.ofNat (0x40 ||| (n >>> 8)), UInt8.ofNat (n &&& 0xff)]

/-- The opcodes of a run of zero registers. -/
def zeroOps (run : ℕ) : Bytes :=
  if run = 0 then []
  else if run > hllSparseZeroMaxLen then
    xzeroOpcode (min run hllSparseXZeroMaxLen) ++ zeroOps (run - min run hllSparseXZeroMaxLen)
  else [UInt8.ofNat (run - 1)]
termination_by run
decreasing_by unfold hllSparseXZeroMaxLen; omega

/-- The opcodes of a run of registers that hold `v`. -/
def valOps (v : UInt8) (run : ℕ) : Bytes :=
  if run = 0 then []
  else ((0x80 : UInt8) ||| ((v - 1) <<< 2) ||| UInt8.ofNat (min run hllSparseValMaxLen - 1)) ::
    valOps v (run - min run hllSparseValMaxLen)
termination_by run
decreasing_by unfold hllSparseValMaxLen; omega

/-- The registers in runs of equal values. A value with no opcode ends it. -/
def sparseBody (regs : List UInt8) (body : Bytes) : Option Bytes :=
  match regs with
  | [] => some body
  | v :: rest =>
    let run := 1 + (rest.takeWhile (· == v)).length
    if v = 0 then sparseBody (rest.dropWhile (· == v)) (body ++ zeroOps run)
    else if v > hllSparseValMaxValue then none
    else sparseBody (rest.dropWhile (· == v)) (body ++ valOps v run)
termination_by regs.length
decreasing_by all_goals exact Nat.lt_succ_of_le (List.dropWhile_suffix _).length_le

def encodeSparse (regs : List UInt8) (maxBytes : ℤ) : Option Bytes :=
  match sparseBody regs [] with
  | none => none
  | some body => if (hllHdrSize + body.length : ℕ) > maxBytes then none else some (header hllSparse ++ body)

/-- The registers that the opcodes describe, after those already decoded. -/
def sparseFrom : Bytes → List UInt8 → Option (List UInt8)
  | [], out => if out.length ≠ hllRegisters then none else some out
  | op :: rest, out =>
    if op &&& 0xc0 = 0 then
      let runLen := (op &&& 0x3f).toNat + 1
      if out.length + runLen > hllRegisters then none else sparseFrom rest (out ++ List.replicate runLen 0)
    else if op &&& 0xc0 = 0x40 then
      match rest with
      | [] => none
      | low :: rest =>
        let runLen := ((op &&& 0x3f).toNat <<< 8 ||| low.toNat) + 1
        if out.length + runLen > hllRegisters then none else sparseFrom rest (out ++ List.replicate runLen 0)
    else
      let val := ((op >>> 2) &&& 0x1f) + 1
      let runLen := (op &&& 0x03).toNat + 1
      if out.length + runLen > hllRegisters then none else sparseFrom rest (out ++ List.replicate runLen val)

def sparseRegisters (body : Bytes) : Option (List UInt8) := sparseFrom body []

def encodeHLL (regs : List UInt8) (sparseMaxBytes : ℤ) : Bytes :=
  match encodeSparse regs sparseMaxBytes with
  | some b => b
  | none => encodeDense regs

def hllRegistersOf (b : Bytes) : Option (List UInt8) :=
  if b.length < hllHdrSize ∨ b.take 4 ≠ hllMagic then none
  else if b.getD 4 0 = hllDense then
    if b.length ≠ hllDenseSize then none else some (denseRegisters (b.drop hllHdrSize))
  else if b.getD 4 0 = hllSparse then sparseRegisters (b.drop hllHdrSize)
  else none

section Bits

variable {body : Bytes} {i j k : ℕ} {val : UInt8}

/-- The bits of the packed registers, low bit first in each byte. -/
def bitOf (body : Bytes) (k : ℕ) : Bool := (body.getD (k / 8) 0).toBitVec.getLsbD (k % 8)

theorem bitOf_set (h : i < body.length) (v : UInt8) :
    bitOf (body.set i v) k = if k / 8 = i then v.toBitVec.getLsbD (k % 8) else bitOf body k := by
  unfold bitOf
  by_cases hi : k / 8 = i
  · rw [if_pos hi, hi, List.getD_eq_getElem?_getD, List.getElem?_set_self h]
    rfl
  · rw [if_neg hi, List.getD_eq_getElem?_getD, List.getElem?_set_ne (Ne.symm hi), List.getD_eq_getElem?_getD]

theorem getLsbD_63 (t : ℕ) (h : t < 8) : (63#8).getLsbD t = decide (t < 6) := by
  interval_cases t <;> rfl

theorem getLsbD_63' (t : ℕ) (h : t < 16) : (63#16).getLsbD t = decide (t < 6) := by
  interval_cases t <;> rfl

theorem getLsbD_denseGet (body : Bytes) (i : ℕ) {t : ℕ} (ht : t < 8) :
    (denseGet body i).toBitVec.getLsbD t = (decide (t < 6) && bitOf body (i * 6 + t)) := by
  unfold denseGet bitOf
  simp only [hllBits]
  by_cases h6 : t < 6
  · have hlow : ((body.getD (i * 6 / 8) 0).toBitVec.setWidth 16 >>> (i * 6 % 8)).getLsbD t =
        (body.getD (i * 6 / 8) 0).toBitVec.getLsbD (i * 6 % 8 + t) := by
      rw [BitVec.getLsbD_ushiftRight, BitVec.getLsbD_setWidth, decide_eq_true (by omega), Bool.true_and]
    rw [BitVec.getLsbD_setWidth, BitVec.getLsbD_and, getLsbD_63' t (by omega), decide_eq_true ht,
      decide_eq_true h6, Bool.true_and, Bool.true_and, Bool.and_true]
    by_cases hsame : i * 6 % 8 + t < 8
    -- the bit is in the first of the two bytes
    · have hdiv : (i * 6 + t) / 8 = i * 6 / 8 := by omega
      have hmod : (i * 6 + t) % 8 = i * 6 % 8 + t := by omega
      rw [hdiv, hmod, ← hlow]
      split_ifs with hspan
      · rw [BitVec.getLsbD_or, BitVec.getLsbD_shiftLeft, decide_eq_true (show t < 8 - i * 6 % 8 by omega)]
        simp
      · rfl
    · have hdiv : (i * 6 + t) / 8 = i * 6 / 8 + 1 := by omega
      have hmod : (i * 6 + t) % 8 = t - (8 - i * 6 % 8) := by omega
      rw [if_pos (by omega), hdiv, hmod, BitVec.getLsbD_or, hlow, BitVec.getLsbD_of_ge _ _ (by omega),
        BitVec.getLsbD_shiftLeft, BitVec.getLsbD_setWidth, decide_eq_true (show t < 16 by omega),
        decide_eq_false (show ¬ t < 8 - i * 6 % 8 by omega), decide_eq_true (show t - (8 - i * 6 % 8) < 16 by omega)]
      simp
  · rw [BitVec.getLsbD_setWidth, BitVec.getLsbD_and, getLsbD_63' t (by omega), decide_eq_false h6]
    simp

theorem getLsbD_eq_false (hval : val < 64) {t : ℕ} (ht : 6 ≤ t) : val.toBitVec.getLsbD t = false := by
  have hlt : val.toNat < 2 ^ 6 := hval
  exact Nat.testBit_lt_two_pow (hlt.trans_le (Nat.pow_le_pow_right (by omega) ht))

theorem getLsbD_low (old : UInt8) (hval : val < 64) {fb r : ℕ} (hr : r < 8) :
    (old.toBitVec &&& ~~~(63#8 <<< fb) ||| val.toBitVec <<< fb).getLsbD r =
      if fb ≤ r ∧ r < fb + 6 then val.toBitVec.getLsbD (r - fb) else old.toBitVec.getLsbD r := by
  rw [BitVec.getLsbD_or, BitVec.getLsbD_and, BitVec.getLsbD_not, BitVec.getLsbD_shiftLeft,
    BitVec.getLsbD_shiftLeft, decide_eq_true hr, getLsbD_63 (r - fb) (by omega)]
  by_cases hge : fb ≤ r
  · by_cases hlt : r < fb + 6
    · rw [if_pos ⟨hge, hlt⟩, decide_eq_false (not_lt.2 hge), decide_eq_true (show r - fb < 6 by omega)]
      simp
    · rw [if_neg (by omega), decide_eq_false (show ¬ r - fb < 6 by omega),
        getLsbD_eq_false hval (show 6 ≤ r - fb by omega)]
      simp
  · rw [if_neg (by omega), decide_eq_true (not_le.1 hge)]
    simp

/-- The byte a register ends in, when it spans two. -/
theorem getLsbD_high (old : UInt8) (hval : val < 64) {back r : ℕ} (hr : r < 8) :
    (old.toBitVec &&& ~~~(63#8 >>> back) ||| val.toBitVec >>> back).getLsbD r =
      if back + r < 6 then val.toBitVec.getLsbD (back + r) else old.toBitVec.getLsbD r := by
  rw [BitVec.getLsbD_or, BitVec.getLsbD_and, BitVec.getLsbD_not, BitVec.getLsbD_ushiftRight,
    BitVec.getLsbD_ushiftRight, decide_eq_true hr]
  by_cases hlt : back + r < 6
  · rw [if_pos hlt, getLsbD_63 _ (by omega), decide_eq_true hlt]
    simp
  · have hzero : (63#8).getLsbD (back + r) = false := by
      by_cases h8 : back + r < 8
      · rw [getLsbD_63 _ h8, decide_eq_false hlt]
      · exact BitVec.getLsbD_of_ge _ _ (not_lt.1 h8)
    rw [if_neg hlt, hzero, getLsbD_eq_false hval (not_lt.1 hlt)]
    simp

/-- Writing a register changes its six bits. -/
theorem bitOf_denseSet (h : (i * 6 + 5) / 8 < body.length) (hval : val < 64) :
    bitOf (denseSet body i val) k =
      if i * 6 ≤ k ∧ k < i * 6 + 6 then val.toBitVec.getLsbD (k - i * 6) else bitOf body k := by
  have hr : k % 8 < 8 := Nat.mod_lt _ (by decide)
  have hfirst : bitOf (body.set (i * 6 / 8) ⟨(body.getD (i * 6 / 8) 0).toBitVec &&&
        ~~~(63#8 <<< (i * 6 % 8)) ||| val.toBitVec <<< (i * 6 % 8)⟩) k =
      if i * 6 ≤ k ∧ k < i * 6 + 6 ∧ k / 8 = i * 6 / 8 then val.toBitVec.getLsbD (k - i * 6) else bitOf body k := by
    rw [bitOf_set (by omega), getLsbD_low _ hval hr]
    by_cases hbyte : k / 8 = i * 6 / 8
    · rw [if_pos hbyte]
      by_cases hin : i * 6 ≤ k ∧ k < i * 6 + 6
      · rw [if_pos (by omega), if_pos ⟨hin.1, hin.2, hbyte⟩, show k % 8 - i * 6 % 8 = k - i * 6 by omega]
      · rw [if_neg (by omega), if_neg (by omega), bitOf, hbyte]
    · rw [if_neg hbyte, if_neg (by omega)]
  unfold denseSet
  simp only [hllBits]
  by_cases hspan : i * 6 % 8 > 8 - 6
  · rw [if_pos hspan, bitOf_set (by rw [List.length_set]; omega), getLsbD_high _ hval hr]
    by_cases hbyte : k / 8 = i * 6 / 8 + 1
    · rw [if_pos hbyte]
      by_cases hin : k < i * 6 + 6
      · rw [if_pos (by omega), if_pos ⟨by omega, hin⟩, show 8 - i * 6 % 8 + k % 8 = k - i * 6 by omega]
      · rw [if_neg (by omega), if_neg (by omega), ← hbyte, ← bitOf, hfirst, if_neg (by omega)]
    · rw [if_neg hbyte, hfirst]
      exact if_congr (by omega) rfl rfl
  · rw [if_neg hspan, hfirst]
    exact if_congr (by omega) rfl rfl

/-- Writing a register leaves every other one as it was. -/
theorem denseGet_denseSet (h : (i * 6 + 5) / 8 < body.length) (hval : val < 64) :
    denseGet (denseSet body i val) j = if j = i then val else denseGet body j := by
  have hbits : ∀ t < 8, (denseGet (denseSet body i val) j).toBitVec.getLsbD t =
      (if j = i then val else denseGet body j).toBitVec.getLsbD t := by
    intro t ht
    rw [getLsbD_denseGet _ _ ht, bitOf_denseSet h hval]
    by_cases hji : j = i
    · subst hji
      rw [if_pos rfl]
      by_cases h6 : t < 6
      · rw [if_pos (by omega), decide_eq_true h6, Bool.true_and, Nat.add_sub_cancel_left]
      · rw [decide_eq_false h6, Bool.false_and, getLsbD_eq_false hval (not_lt.1 h6)]
    · rw [if_neg hji, getLsbD_denseGet _ _ ht]
      by_cases h6 : t < 6
      · rw [if_neg (by omega)]
      · rw [decide_eq_false h6, Bool.false_and, Bool.false_and]
  exact UInt8.eq_of_toBitVec_eq (BitVec.eq_of_getLsbD_eq hbits)

end Bits

/-- What a sketch holds: 16384 registers of six bits. -/
structure Registers where
  regs : List UInt8
  length_eq : regs.length = hllRegisters
  bounded : ∀ v ∈ regs, v < 64

section DenseRoundtrip

variable {body : Bytes}

@[simp] theorem length_denseSet (i : ℕ) (val : UInt8) : (denseSet body i val).length = body.length := by
  unfold denseSet
  dsimp only
  split_ifs <;> simp

@[simp] theorem length_writeDense (i : ℕ) (regs : List UInt8) : (writeDense i regs body).length = body.length := by
  induction regs generalizing i body with
  | nil => rfl
  | cons v regs ih =>
    rw [writeDense, ih]
    split_ifs <;> simp

theorem denseGet_replicate (n j : ℕ) : denseGet (List.replicate n 0) j = 0 := by
  refine UInt8.eq_of_toBitVec_eq (BitVec.eq_of_getLsbD_eq fun t ht => ?_)
  have hbyte (k : ℕ) : (List.replicate n (0 : UInt8)).getD k 0 = 0 := by
    rw [List.getD_eq_getElem?_getD, List.getElem?_replicate]
    split_ifs <;> rfl
  rw [getLsbD_denseGet _ _ ht, bitOf, hbyte]
  simp

/-- Writing the registers one after the other over zeros. -/
theorem denseGet_writeDense {i : ℕ} {regs : List UInt8} (hbounded : ∀ v ∈ regs, v < 64)
    (hfit : (i + regs.length) * 6 ≤ 8 * body.length) (hzero : ∀ j, i ≤ j → denseGet body j = 0) (j : ℕ) :
    denseGet (writeDense i regs body) j = if i ≤ j then regs.getD (j - i) 0 else denseGet body j := by
  induction regs generalizing i body with
  | nil =>
    rw [writeDense]
    split_ifs with hj
    · rw [hzero j hj]
      rfl
    · rfl
  | cons v regs ih =>
    rw [List.length_cons] at hfit
    have hget (j : ℕ) : denseGet (if v ≠ 0 then denseSet body i v else body) j =
        if j = i then v else denseGet body j := by
      by_cases hv : v = 0
      · rw [if_neg (not_not.2 hv)]
        split_ifs with hj
        · rw [hj, hzero i le_rfl, hv]
        · rfl
      · rw [if_pos hv]
        exact denseGet_denseSet (by omega) (hbounded v List.mem_cons_self)
    have hlen : (if v ≠ 0 then denseSet body i v else body).length = body.length := by split_ifs <;> simp
    rw [writeDense, ih (fun w hw => hbounded w (List.mem_cons_of_mem v hw)) (by rw [hlen]; omega)
      (fun j hj => by rw [hget, if_neg (by omega), hzero j (by omega)]), hget]
    by_cases hj : i + 1 ≤ j
    · rw [if_pos hj, if_pos (by omega), show j - i = j - (i + 1) + 1 by omega, List.getD_cons_succ]
    · rw [if_neg hj]
      by_cases heq : j = i
      · rw [if_pos heq, if_pos (by omega), heq, Nat.sub_self, List.getD_cons_zero]
      · rw [if_neg heq, if_neg (by omega)]

theorem denseRegisters_writeDense (r : Registers) :
    denseRegisters (writeDense 0 r.regs (List.replicate denseBytes 0)) = r.regs := by
  have hlen := r.length_eq
  have hfit : (0 + r.regs.length) * 6 ≤ 8 * (List.replicate denseBytes (0 : UInt8)).length := by
    rw [hlen, List.length_replicate]
    decide
  refine List.ext_getElem (by simp [denseRegisters, hlen]) fun j hj hj' => ?_
  simp only [denseRegisters, List.getElem_map, List.getElem_range]
  rw [denseGet_writeDense r.bounded hfit
    (fun j _ => denseGet_replicate _ j), if_pos (Nat.zero_le j), Nat.sub_zero, List.getD_eq_getElem _ _ hj']

theorem hllRegistersOf_encodeDense (r : Registers) : hllRegistersOf (encodeDense r.regs) = some r.regs := by
  have hlength : (encodeDense r.regs).length = hllDenseSize := by
    rw [encodeDense, List.length_append, length_writeDense, List.length_replicate]
    rfl
  have hdrop : (encodeDense r.regs).drop hllHdrSize = writeDense 0 r.regs (List.replicate denseBytes 0) := rfl
  have htake : (encodeDense r.regs).take 4 = hllMagic := rfl
  have hcode : (encodeDense r.regs).getD 4 0 = hllDense := rfl
  have hlong : ¬ (encodeDense r.regs).length < hllHdrSize := by
    rw [hlength]
    decide
  rw [hllRegistersOf, if_neg (not_or.2 ⟨hlong, not_not.2 htake⟩), if_pos hcode, if_neg (not_not.2 hlength), hdrop,
    denseRegisters_writeDense]

end DenseRoundtrip

section SparseRoundtrip

variable {rest : Bytes} {out : List UInt8}

theorem sparseFrom_zero {n : ℕ} (hn : n < 64) (hfit : out.length + (n + 1) ≤ hllRegisters) :
    sparseFrom (UInt8.ofNat n :: rest) out = sparseFrom rest (out ++ List.replicate (n + 1) 0) := by
  have hop : ∀ n < 64, UInt8.ofNat n &&& 0xc0 = 0 ∧ (UInt8.ofNat n &&& 0x3f).toNat = n := by decide
  obtain ⟨hkind, hrun⟩ := hop n hn
  rw [sparseFrom.eq_def]
  dsimp only
  rw [if_pos hkind, hrun, if_neg (not_lt.2 hfit)]

theorem sparseFrom_xzero {n : ℕ} (hn : 0 < n) (hn' : n ≤ hllSparseXZeroMaxLen) (hfit : out.length + n ≤ hllRegisters) :
    sparseFrom (xzeroOpcode n ++ rest) out = sparseFrom rest (out ++ List.replicate n 0) := by
  have hop : ∀ q < 64, UInt8.ofNat (0x40 ||| q) &&& 0xc0 = 0x40 ∧
      (UInt8.ofNat (0x40 ||| q) &&& 0x3f).toNat = q := by decide
  have hq : (n - 1) >>> 8 < 64 := by
    rw [Nat.shiftRight_eq_div_pow]
    unfold hllSparseXZeroMaxLen at hn'
    omega
  have hlow : (UInt8.ofNat ((n - 1) &&& 0xff)).toNat = (n - 1) % 256 := by
    rw [show 0xff = 2 ^ 8 - 1 from rfl, Nat.and_two_pow_sub_one_eq_mod, UInt8.toNat_ofNat']
    omega
  have hrun : ((n - 1) >>> 8 <<< 8 ||| (n - 1) % 256) + 1 = n := by
    rw [← Nat.shiftLeft_add_eq_or_of_lt (Nat.mod_lt _ (by decide)), Nat.shiftLeft_eq, Nat.shiftRight_eq_div_pow]
    omega
  obtain ⟨hkind, hhigh⟩ := hop _ hq
  have hcons : xzeroOpcode n ++ rest =
    UInt8.ofNat (0x40 ||| ((n - 1) >>> 8)) :: UInt8.ofNat ((n - 1) &&& 0xff) :: rest := rfl
  rw [hcons, sparseFrom.eq_def]
  dsimp only
  rw [if_neg (by rw [hkind]; decide), if_pos hkind, hhigh, hlow, hrun, if_neg (not_lt.2 hfit)]

theorem sparseFrom_val {v : UInt8} (hv : v ≠ 0) (hv' : v ≤ hllSparseValMaxValue) {n : ℕ} (hn : n < 4)
    (hfit : out.length + (n + 1) ≤ hllRegisters) :
    sparseFrom (((0x80 : UInt8) ||| ((v - 1) <<< 2) ||| UInt8.ofNat n) :: rest) out =
      sparseFrom rest (out ++ List.replicate (n + 1) v) := by
  have hop : ∀ m < 32, ∀ n < 4, ((0x80 : UInt8) ||| (UInt8.ofNat m <<< 2) ||| UInt8.ofNat n) &&& 0xc0 ≠ 0 ∧
      ((0x80 : UInt8) ||| (UInt8.ofNat m <<< 2) ||| UInt8.ofNat n) &&& 0xc0 ≠ 0x40 ∧
      ((((0x80 : UInt8) ||| (UInt8.ofNat m <<< 2) ||| UInt8.ofNat n) >>> 2) &&& 0x1f) = UInt8.ofNat m ∧
      (((0x80 : UInt8) ||| (UInt8.ofNat m <<< 2) ||| UInt8.ofNat n) &&& 0x03).toNat = n := by decide
  have hm : (v - 1).toNat < 32 := by
    have hle : v.toNat ≤ 32 := UInt8.le_iff_toNat_le.1 hv'
    have hpos : v.toNat ≠ 0 := fun h => hv (UInt8.toNat_inj.1 h)
    rw [UInt8.toNat_sub]
    change (2 ^ 8 - 1 + v.toNat) % 2 ^ 8 < 32
    omega
  obtain ⟨hzero, hxzero, hval, hrun⟩ := hop _ hm n hn
  rw [UInt8.ofNat_toNat] at hzero hxzero hval hrun
  rw [sparseFrom.eq_def]
  dsimp only
  rw [if_neg hzero, if_neg hxzero, hval, hrun, if_neg (not_lt.2 hfit), sub_add_cancel]

/-- The opcodes of a run of zeros give the run back. -/
theorem sparseFrom_zeroOps (run : ℕ) (hfit : out.length + run ≤ hllRegisters) :
    sparseFrom (zeroOps run ++ rest) out = sparseFrom rest (out ++ List.replicate run 0) := by
  induction run using Nat.strong_induction_on generalizing out with
  | _ run ih =>
    rw [zeroOps]
    by_cases hzero : run = 0
    · rw [if_pos hzero, hzero]
      simp
    · rw [if_neg hzero]
      by_cases hlong : run > hllSparseZeroMaxLen
      · have htake : 0 < min run hllSparseXZeroMaxLen := by
          unfold hllSparseXZeroMaxLen
          omega
        have hle := Nat.min_le_left run hllSparseXZeroMaxLen
        rw [if_pos hlong, List.append_assoc,
          sparseFrom_xzero htake (Nat.min_le_right _ _) (by omega), ih _ (by omega)
          (by rw [List.length_append, List.length_replicate]; omega), List.append_assoc,
          List.replicate_append_replicate, Nat.add_sub_cancel' hle]
      · have hshort : run ≤ 64 := not_lt.1 hlong
        rw [if_neg hlong, List.singleton_append, sparseFrom_zero (by omega) (by omega),
          Nat.sub_add_cancel (by omega)]

theorem sparseFrom_valOps {v : UInt8} (hv : v ≠ 0) (hv' : v ≤ hllSparseValMaxValue) (run : ℕ)
    (hfit : out.length + run ≤ hllRegisters) :
    sparseFrom (valOps v run ++ rest) out = sparseFrom rest (out ++ List.replicate run v) := by
  induction run using Nat.strong_induction_on generalizing out with
  | _ run ih =>
    rw [valOps]
    by_cases hzero : run = 0
    · rw [if_pos hzero, hzero]
      simp
    · have htake : 0 < min run hllSparseValMaxLen := by
        unfold hllSparseValMaxLen
        omega
      have hle := Nat.min_le_left run hllSparseValMaxLen
      have hle' : min run hllSparseValMaxLen ≤ 4 := Nat.min_le_right _ _
      rw [if_neg hzero, List.cons_append, sparseFrom_val hv hv' (by omega) (by omega),
        ih _ (by omega) (by rw [List.length_append, List.length_replicate]; omega), List.append_assoc,
        List.replicate_append_replicate, Nat.sub_add_cancel htake, Nat.add_sub_cancel' hle]

theorem takeWhile_eq_replicate (v : UInt8) (regs : List UInt8) :
    regs.takeWhile (· == v) = List.replicate (regs.takeWhile (· == v)).length v :=
  List.eq_replicate_iff.2 ⟨rfl, fun w hw => by simpa using List.mem_takeWhile_imp hw⟩

/-- A list is its first run and what follows. -/
theorem cons_eq_run (v : UInt8) (regs : List UInt8) :
    v :: regs = List.replicate (1 + (regs.takeWhile (· == v)).length) v ++ regs.dropWhile (· == v) := by
  rw [Nat.add_comm, List.replicate_succ, List.cons_append, ← takeWhile_eq_replicate, List.takeWhile_append_dropWhile]

/-- The first run has an opcode, and the rest is encoded behind it. -/
theorem sparseBody_cons {v : UInt8} {regs : List UInt8} {acc body : Bytes}
    (h : sparseBody (v :: regs) acc = some body) : v ≤ hllSparseValMaxValue ∧ ∃ ops,
      sparseBody (regs.dropWhile (· == v)) (acc ++ ops) = some body ∧ ∀ rest out,
        out.length + (1 + (regs.takeWhile (· == v)).length) ≤ hllRegisters → sparseFrom (ops ++ rest) out =
          sparseFrom rest (out ++ List.replicate (1 + (regs.takeWhile (· == v)).length) v) := by
  rw [sparseBody] at h
  by_cases hzero : v = 0
  · subst hzero
    rw [if_pos rfl] at h
    exact ⟨by decide, _, h, fun rest out hfit => sparseFrom_zeroOps _ hfit⟩
  · rw [if_neg hzero] at h
    by_cases hbig : v > hllSparseValMaxValue
    · rw [if_pos hbig] at h
      cases h
    · rw [if_neg hbig] at h
      have hle : v ≤ hllSparseValMaxValue := UInt8.not_lt.1 hbig
      exact ⟨hle, _, h, fun rest out hfit => sparseFrom_valOps hzero hle _ hfit⟩

/-- What is encoded has opcodes and decodes to itself, whatever was decoded before. -/
theorem sparseFrom_sparseBody {regs : List UInt8} {acc body : Bytes} (h : sparseBody regs acc = some body) :
    (∀ v ∈ regs, v ≤ hllSparseValMaxValue) ∧ ∃ ops, body = acc ++ ops ∧ ∀ rest out,
      out.length + regs.length ≤ hllRegisters → sparseFrom (ops ++ rest) out = sparseFrom rest (out ++ regs) := by
  -- on the number of registers left, a whole run at a time
  induction hn : regs.length using Nat.strong_induction_on generalizing regs acc with
  | _ n ih =>
    cases regs with
    | nil =>
      rw [sparseBody] at h
      exact ⟨by simp, [], by simpa using (Option.some.inj h).symm, fun rest out _ => by simp⟩
    | cons v regs =>
      have hsplit := cons_eq_run v regs
      have hlen : (v :: regs).length =
          1 + (regs.takeWhile (· == v)).length + (regs.dropWhile (· == v)).length := by
        rw [hsplit, List.length_append, List.length_replicate]
      obtain ⟨hv, first, hrest, hfirst⟩ := sparseBody_cons h
      obtain ⟨hall, ops, hops, hdecode⟩ := ih _ (by omega) hrest rfl
      refine ⟨fun w hw => ?_, first ++ ops, by rw [hops, List.append_assoc], fun rest out hfit => ?_⟩
      · rw [hsplit] at hw
        rcases List.mem_append.1 hw with hrun | hlater
        · rwa [List.eq_of_mem_replicate hrun]
        · exact hall w hlater
      · rw [List.append_assoc, hfirst _ _ (by omega), hdecode _ _
          (by rw [List.length_append, List.length_replicate]; omega), List.append_assoc, ← hsplit]

theorem hllRegistersOf_sparse {regs : List UInt8} (hlen : regs.length = hllRegisters) {body : Bytes}
    (h : sparseBody regs [] = some body) : hllRegistersOf (header hllSparse ++ body) = some regs := by
  obtain ⟨-, ops, rfl, hdecode⟩ := sparseFrom_sparseBody h
  have hall : sparseFrom body [] = some regs := by
    have hnil := hdecode [] [] (by rw [List.length_nil, hlen, Nat.zero_add])
    rw [List.append_nil] at hnil
    rw [hnil, sparseFrom, List.nil_append, if_neg (not_not.2 hlen)]
  have hlong : ¬ (header hllSparse ++ body).length < hllHdrSize := by
    rw [List.length_append]
    exact not_lt.2 (Nat.le_add_right _ _)
  have htake : (header hllSparse ++ body).take 4 = hllMagic := rfl
  have hcode : (header hllSparse ++ body).getD 4 0 = hllSparse := rfl
  rw [hllRegistersOf, if_neg (not_or.2 ⟨hlong, not_not.2 htake⟩), if_neg (by rw [hcode]; decide), if_pos hcode]
  exact hall

end SparseRoundtrip

theorem masked_lt (v : BitVec 16) : (⟨(v &&& 63#16).setWidth 8⟩ : UInt8) < 64 := by
  have hle : (v &&& 63#16).toNat ≤ 63 := Nat.and_le_right
  change ((v &&& 63#16).setWidth 8).toNat < 64
  rw [BitVec.toNat_setWidth]
  omega

theorem denseGet_lt (body : Bytes) (i : ℕ) : denseGet body i < 64 := masked_lt _

theorem opcode_value_lt (op : UInt8) : ((op >>> 2) &&& 0x1f) + 1 < 64 := by
  have hle : ((op >>> 2) &&& 0x1f).toNat ≤ 31 := by
    rw [UInt8.toNat_and]
    exact Nat.and_le_right
  change (((op >>> 2) &&& 0x1f) + 1).toNat < 64
  rw [UInt8.toNat_add]
  change (_ + 1) % 2 ^ 8 < 64
  omega

theorem forall_lt_append {out : List UInt8} (h : ∀ v ∈ out, v < 64) (n : ℕ) {w : UInt8} (hw : w < 64) :
    ∀ v ∈ out ++ List.replicate n w, v < 64 := by
  intro v hv
  rcases List.mem_append.1 hv with hold | hnew
  · exact h v hold
  · rwa [List.eq_of_mem_replicate hnew]

theorem sparseFrom_valid {body : Bytes} {out regs : List UInt8} (h : sparseFrom body out = some regs)
    (hout : ∀ v ∈ out, v < 64) : regs.length = hllRegisters ∧ ∀ v ∈ regs, v < 64 := by
  fun_induction sparseFrom body out with
  | case1 => cases h
  | case2 out hlen =>
    obtain rfl := Option.some.inj h
    exact ⟨not_not.1 hlen, hout⟩
  | case3 => cases h
  | case4 _ _ _ _ _ _ ih => exact ih h (forall_lt_append hout _ (by decide))
  | case5 => cases h
  | case6 => cases h
  | case7 _ _ _ _ _ _ _ _ ih => exact ih h (forall_lt_append hout _ (by decide))
  | case8 => cases h
  | case9 _ _ _ _ _ _ _ _ ih => exact ih h (forall_lt_append hout _ (opcode_value_lt _))

theorem hllRegistersOf_valid {b : Bytes} {regs : List UInt8} (h : hllRegistersOf b = some regs) :
    ∃ r : Registers, r.regs = regs := by
  suffices regs.length = hllRegisters ∧ ∀ v ∈ regs, v < 64 from ⟨⟨regs, this.1, this.2⟩, rfl⟩
  unfold hllRegistersOf at h
  split_ifs at h
  · obtain rfl := Option.some.inj h
    refine ⟨by simp [denseRegisters], fun v hv => ?_⟩
    obtain ⟨i, -, rfl⟩ := List.mem_map.1 hv
    exact denseGet_lt _ i
  · exact sparseFrom_valid h (by simp)

/-- The string is in the run-length encoding. -/
def IsSparse (b : Bytes) : Prop := b.getD 4 0 = hllSparse

/-- Every sketch is read back from its string. -/
theorem hllRegistersOf_encodeHLL (r : Registers) (maxBytes : ℤ) :
    hllRegistersOf (encodeHLL r.regs maxBytes) = some r.regs := by
  unfold encodeHLL encodeSparse
  cases hbody : sparseBody r.regs [] with
  | none => exact hllRegistersOf_encodeDense r
  | some body =>
    dsimp only
    by_cases hbig : (hllHdrSize + body.length : ℕ) > maxBytes
    · rw [if_pos hbig]
      exact hllRegistersOf_encodeDense r
    · rw [if_neg hbig]
      exact hllRegistersOf_sparse r.length_eq hbody

theorem fits_of_isSparse {regs : List UInt8} {maxBytes : ℤ} (h : IsSparse (encodeHLL regs maxBytes)) :
    (∀ v ∈ regs, v ≤ hllSparseValMaxValue) ∧ (encodeHLL regs maxBytes).length ≤ maxBytes := by
  have hdense : ¬ IsSparse (encodeDense regs) := by
    change ¬ hllDense = hllSparse
    decide
  unfold encodeHLL encodeSparse at h ⊢
  cases hbody : sparseBody regs [] with
  | none =>
    rw [hbody] at h
    exact absurd h hdense
  | some body =>
    rw [hbody] at h
    dsimp only at h ⊢
    by_cases hbig : (hllHdrSize + body.length : ℕ) > maxBytes
    · rw [if_pos hbig] at h
      exact absurd h hdense
    · rw [if_neg hbig]
      refine ⟨(sparseFrom_sparseBody hbody).1, ?_⟩
      change ((header hllSparse ++ body).length : ℤ) ≤ maxBytes
      rw [List.length_append]
      exact not_lt.1 hbig

/-- The encoding loses nothing, is a run-length code only where that fits, and holds each register apart
from the others. -/
theorem sketch_lossless :
    (∀ (r : Registers) (maxBytes : ℤ), hllRegistersOf (encodeHLL r.regs maxBytes) = some r.regs ∧
      (IsSparse (encodeHLL r.regs maxBytes) →
        (∀ v ∈ r.regs, v ≤ hllSparseValMaxValue) ∧ (encodeHLL r.regs maxBytes).length ≤ maxBytes)) ∧
    ∀ (body : Bytes) (i j : ℕ) (val : UInt8), body.length = denseBytes → i < hllRegisters → val < 64 →
      denseGet (denseSet body i val) j = if j = i then val else denseGet body j := by
  refine ⟨fun r maxBytes => ⟨hllRegistersOf_encodeHLL r maxBytes, fits_of_isSparse⟩,
    fun body i j val hlen hi hval => denseGet_denseSet ?_ hval⟩
  have hlast : (i * 6 + 5) / 8 < 12288 := by
    unfold hllRegisters at hi
    omega
  exact hlen.symm ▸ hlast

/-- A register that spans two bytes, and its neighbour. -/
theorem dense_neighbours :
    denseGet (denseSet (List.replicate denseBytes 0) 1 63) 1 = 63 ∧
    denseGet (denseSet (List.replicate denseBytes 0) 1 63) 2 = denseGet (List.replicate denseBytes 0) 2 := by
  have hlen : (List.replicate denseBytes (0 : UInt8)).length = denseBytes := List.length_replicate
  exact ⟨sketch_lossless.2 _ 1 1 63 hlen (by decide) (by decide), sketch_lossless.2 _ 1 2 63 hlen (by decide) (by decide)⟩

end ShardKV.Data.HyperLogLog
