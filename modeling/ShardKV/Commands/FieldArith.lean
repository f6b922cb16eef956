import ShardKV.Commands.Bits

/-! The integers of a bit field. A field of `w` bits holds the integers of its type modulo `2 ^ w`:
what is read from it is the word of its bits, sign extended, and what is written are the low bits
of a 64-bit word, so a value of the type comes back. SET and INCRBY compute with 64-bit words and
compare afterwards; the sum that has wrapped around still has the right residue, and whether it has
wrapped shows in its order against the summand. -/

namespace ShardKV.Commands

open Data Resp Server Checked

section Types

/-- The types `i1` to `i64` and `u1` to `u63`. -/
def BitFieldOp.Typed (op : BitFieldOp) : Prop := 1 ≤ op.bits ∧ op.bits ≤ if op.signed then 64 else 63

def BitFieldOp.lowest (op : BitFieldOp) : ℤ := if op.signed then -2 ^ (op.bits - 1) else 0

def BitFieldOp.highest (op : BitFieldOp) : ℤ := if op.signed then 2 ^ (op.bits - 1) - 1 else 2 ^ op.bits - 1

/-- An integer of the type. -/
def BitFieldOp.Within (op : BitFieldOp) (v : ℤ) : Prop := op.lowest ≤ v ∧ v ≤ op.highest

instance BitFieldOp.decidableWithin (op : BitFieldOp) (v : ℤ) : Decidable (op.Within v) := inferInstanceAs (Decidable (_ ∧ _))

/-- The integer of the type with the same residue modulo `2 ^ bits`. -/
def BitFieldOp.reduce (op : BitFieldOp) (z : ℤ) : ℤ :=
  if op.signed then z.bmod (2 ^ op.bits) else z % 2 ^ op.bits

variable {op : BitFieldOp}

theorem BitFieldOp.Typed.le (h : op.Typed) : op.bits ≤ 64 := by
  have := h.2
  split_ifs at this <;> omega

theorem two_pow_pred {w : ℕ} (h : 1 ≤ w) : (2 : ℤ) ^ w = 2 * 2 ^ (w - 1) := by
  rw [← pow_succ', Nat.sub_add_cancel h]

theorem bitFieldBounds_eq (h : op.Typed) : bitFieldBounds op = (op.lowest, op.highest) := by
  obtain ⟨-, hle⟩ := h
  unfold bitFieldBounds BitFieldOp.lowest BitFieldOp.highest
  split_ifs at hle ⊢ with hsigned hwide hwide
  · rw [hwide]
    rfl
  · rfl
  · rw [Nat.le_antisymm hle hwide]
    rfl
  · rfl

theorem highest_eq (h : op.Typed) : op.highest = op.lowest + 2 ^ op.bits - 1 := by
  have hpow := two_pow_pred h.1
  unfold BitFieldOp.highest BitFieldOp.lowest
  split_ifs <;> omega

theorem lowest_le_zero (op : BitFieldOp) : op.lowest ≤ 0 := by
  have : (0 : ℤ) < 2 ^ (op.bits - 1) := by positivity
  unfold BitFieldOp.lowest
  split_ifs <;> omega

/-- The integers of a type are 64-bit integers. -/
theorem Within.range (h : op.Typed) {v : ℤ} (hv : op.Within v) : -2 ^ 63 ≤ v ∧ v < 2 ^ 63 := by
  obtain ⟨hlow, hhigh⟩ := hv
  obtain ⟨hpos, hle⟩ := h
  unfold BitFieldOp.lowest at hlow
  unfold BitFieldOp.highest at hhigh
  split_ifs at hlow hhigh hle
  · have : (2 : ℤ) ^ (op.bits - 1) ≤ 2 ^ 63 := pow_le_pow_right₀ (by decide) (by omega)
    omega
  · have : (2 : ℤ) ^ op.bits ≤ 2 ^ 63 := pow_le_pow_right₀ (by decide) hle
    omega

theorem reduce_within (h : op.Typed) (z : ℤ) : op.Within (op.reduce z) := by
  have hpow := two_pow_pred h.1
  have hpos : (0 : ℤ) < 2 ^ (op.bits - 1) := by positivity
  unfold BitFieldOp.Within BitFieldOp.lowest BitFieldOp.highest BitFieldOp.reduce
  split_ifs
  · have hge := Int.le_bmod (x := z) (Nat.two_pow_pos op.bits)
    have hlt := Int.bmod_lt (x := z) (Nat.two_pow_pos op.bits)
    push_cast at hge hlt
    omega
  · have hge := Int.emod_nonneg z (show (2 : ℤ) ^ op.bits ≠ 0 by positivity)
    have hlt := Int.emod_lt_of_pos z (show (0 : ℤ) < 2 ^ op.bits by positivity)
    omega

theorem reduce_modEq (op : BitFieldOp) (z : ℤ) : op.reduce z ≡ z [ZMOD 2 ^ op.bits] := by
  unfold BitFieldOp.reduce
  split_ifs
  · have := Int.bmod_emod (x := z) (m := 2 ^ op.bits)
    push_cast at this
    exact this
  · exact Int.mod_modEq z _

/-- The residue decides which integer of the type it is. -/
theorem eq_reduce (h : op.Typed) {v z : ℤ} (hv : op.Within v) (hmod : v ≡ z [ZMOD 2 ^ op.bits]) :
    v = op.reduce z := by
  have hdvd : (2 : ℤ) ^ op.bits ∣ v - op.reduce z := ((reduce_modEq op z).trans hmod.symm).dvd
  obtain ⟨hlow, hhigh⟩ := reduce_within h z
  have hspan := highest_eq h
  have habs : |v - op.reduce z| < 2 ^ op.bits := by
    rw [abs_lt]
    constructor <;> linarith [hv.1, hv.2]
  have := Int.eq_zero_of_abs_lt_dvd hdvd habs
  omega

theorem reduce_of_within (h : op.Typed) {v : ℤ} (hv : op.Within v) : op.reduce v = v :=
  (eq_reduce h hv rfl).symm

end Types

section Words

variable {op : BitFieldOp}

/-- The top bit of a field's word is set when the word is in its upper half. -/
theorem top_bit_iff (h : op.Typed) {v : BitVec 64} (hv : v.toNat < 2 ^ op.bits) :
    v &&& (1 : BitVec 64) <<< (op.bits - 1) ≠ 0 ↔ 2 ^ (op.bits - 1) ≤ v.toNat := by
  have hle := h.le
  have hpos := h.1
  rw [and_bit_ne_zero v (by omega), ← BitVec.testBit_toNat]
  constructor
  · intro hbit
    by_contra hlt
    rw [Nat.testBit_lt_two_pow (Nat.not_le.1 hlt)] at hbit
    exact Bool.false_ne_true hbit
  · intro hge
    exact Nat.testBit_of_two_pow_le_and_two_pow_add_one_gt hge (by rwa [Nat.sub_add_cancel hpos])

theorem toNat_or_above {v : BitVec 64} {w : ℕ} (hw : w < 64) (hv : v.toNat < 2 ^ w) :
    (v ||| BitVec.allOnes 64 <<< w).toNat = v.toNat + (2 ^ 64 - 2 ^ w) := by
  have hones : ∀ w < 64, (BitVec.allOnes 64 <<< w).toNat = 2 ^ w * (2 ^ (64 - w) - 1) ∧
      2 ^ w * (2 ^ (64 - w) - 1) = 2 ^ 64 - 2 ^ w := by decide
  rw [BitVec.toNat_or, (hones w hw).1, Nat.or_comm, ← Nat.two_pow_add_eq_or_of_lt hv, (hones w hw).2,
    Nat.add_comm]

/-- The word of a field's bits, sign extended, as an integer. -/
theorem toInt_signExtend (h : op.Typed) {v : BitVec 64} (hv : v.toNat < 2 ^ op.bits) :
    (signExtend op v).toInt = op.reduce v.toNat := by
  have hle := h.le
  have hpow := two_pow_pred h.1
  have hvZ : (v.toNat : ℤ) < 2 ^ op.bits := by exact_mod_cast hv
  have htop := top_bit_iff h hv
  have htopZ : 2 ^ (op.bits - 1) ≤ v.toNat ↔ (2 : ℤ) ^ (op.bits - 1) ≤ v.toNat := by norm_cast
  unfold signExtend
  split_ifs with hc
  · -- the value is negative
    obtain ⟨hsigned, hlt, hset⟩ := hc
    have hhalf := htopZ.1 (htop.1 hset)
    have hsmall : (2 : ℕ) ^ op.bits ≤ 2 ^ 63 := Nat.pow_le_pow_right (by decide) (by omega)
    have hword := toNat_or_above hlt hv
    have hint : (v ||| BitVec.allOnes 64 <<< op.bits).toInt = v.toNat - 2 ^ op.bits := by
      rw [BitVec.toInt_eq_toNat_cond, hword, if_neg (by omega), Nat.cast_add,
        Nat.cast_sub (hsmall.trans (by decide))]
      push_cast
      ring
    rw [hint]
    refine eq_reduce h ?_ (by simp [Int.ModEq])
    unfold BitFieldOp.Within BitFieldOp.lowest BitFieldOp.highest
    rw [if_pos hsigned, if_pos hsigned]
    omega
  · -- no bit above the field is set
    rcases Nat.lt_or_ge v.toNat (2 ^ 63) with hlow | hhigh
    · rw [BitVec.toInt_eq_toNat_cond, if_pos (by omega)]
      refine eq_reduce h ⟨(lowest_le_zero op).trans (by omega), ?_⟩ rfl
      unfold BitFieldOp.highest
      split_ifs with hsigned
      · rcases Nat.lt_or_ge op.bits 64 with hlt | hge
        · have hclear : ¬ 2 ^ (op.bits - 1) ≤ v.toNat := fun hset => hc ⟨hsigned, hlt, htop.2 hset⟩
          have := mt htopZ.2 hclear
          omega
        · rw [Nat.le_antisymm hle hge]
          omega
      · omega
    · have hwide : op.bits = 64 := by
        by_contra hne
        have : 2 ^ op.bits ≤ 2 ^ 63 := Nat.pow_le_pow_right (by decide) (by omega)
        omega
      have hsigned : op.signed = true := by
        by_contra hne
        have := h.2
        rw [if_neg hne] at this
        omega
      rw [BitVec.toInt_eq_toNat_cond, if_neg (by omega)]
      refine eq_reduce h ?_ (by simp [Int.ModEq, hwide])
      have := v.isLt
      unfold BitFieldOp.Within BitFieldOp.lowest BitFieldOp.highest
      rw [if_pos hsigned, if_pos hsigned, hwide]
      push_cast
      omega

theorem toNat_and_ones (v : BitVec 64) {w : ℕ} (hw : w < 64) :
    (v &&& (1 <<< w - 1)).toNat = v.toNat % 2 ^ w := by
  have hones : ∀ w < 64, (1 <<< w - 1 : BitVec 64).toNat = 2 ^ w - 1 := by decide
  rw [BitVec.toNat_and, hones w hw, Nat.and_two_pow_sub_one_eq_mod]

/-- A 64-bit word has the residue of the integer it was made from. -/
theorem toNat_ofInt_modEq (v : ℤ) {w : ℕ} (hw : w ≤ 64) :
    (((BitVec.ofInt 64 v).toNat % 2 ^ w : ℕ) : ℤ) ≡ v [ZMOD 2 ^ w] := by
  have hdvd : (2 : ℤ) ^ w ∣ 2 ^ 64 := pow_dvd_pow 2 hw
  have hnonneg : 0 ≤ v % ((2 ^ 64 : ℕ) : ℤ) := Int.emod_nonneg v (by decide)
  rw [BitVec.toNat_ofInt, Int.natCast_mod, Int.toNat_of_nonneg hnonneg]
  push_cast
  exact ((Int.mod_modEq _ _).trans ((Int.mod_modEq v _).of_dvd hdvd))

theorem wrapBitField_eq (h : op.Typed) {v : ℤ} (hv : -2 ^ 63 ≤ v) (hv' : v < 2 ^ 63) :
    wrapBitField op v = op.reduce v := by
  unfold wrapBitField
  split_ifs with hwide
  · have hsigned : op.signed = true := by
      by_contra hne
      have := h.2
      rw [if_neg hne] at this
      omega
    refine eq_reduce h ?_ rfl
    unfold BitFieldOp.Within BitFieldOp.lowest BitFieldOp.highest
    rw [if_pos hsigned, if_pos hsigned, hwide]
    omega
  · have hlt : op.bits < 64 := lt_of_le_of_ne h.le hwide
    have hword := toNat_and_ones (BitVec.ofInt 64 v) hlt
    rw [toInt_signExtend h (by rw [hword]; exact Nat.mod_lt _ (Nat.two_pow_pos _)), hword]
    exact eq_reduce h (reduce_within h _) ((reduce_modEq op _).trans (toNat_ofInt_modEq v h.le))

end Words

section Overflow

variable {op : BitFieldOp}

/-- What an operation is to make of an exact result. -/
def BitFieldOp.settle (op : BitFieldOp) (z : ℤ) : Option ℤ :=
  match op.overflow with
  | .wrap => some (op.reduce z)
  | .sat => some (max op.lowest (min op.highest z))
  | .fail => if op.Within z then some z else none

theorem settle_of_within (h : op.Typed) {z : ℤ} (hz : op.Within z) : op.settle z = some z := by
  unfold BitFieldOp.settle
  cases op.overflow with
  | wrap => rw [reduce_of_within h hz]
  | sat => rw [min_eq_right hz.2, max_eq_right hz.1]
  | fail => rw [if_pos hz]

/-- The nearest bound to a result outside the type. -/
theorem nearest_of_not_within (h : op.Typed) {z : ℤ} (hz : ¬ op.Within z) :
    max op.lowest (min op.highest z) = if z < op.lowest then op.lowest else op.highest := by
  have hspan := highest_eq h
  have hpos : (0 : ℤ) < 2 ^ op.bits := by positivity
  unfold BitFieldOp.Within at hz
  split_ifs with hlow
  · rw [max_eq_left ((min_le_right _ _).trans hlow.le)]
  · rw [min_eq_left (by omega), max_eq_right (by omega)]

theorem clampBitField_eq (h : op.Typed) {v : ℤ} (hv : -2 ^ 63 ≤ v) (hv' : v < 2 ^ 63) :
    clampBitField op v = op.settle v := by
  unfold clampBitField
  rw [bitFieldBounds_eq h]
  dsimp only
  by_cases hin : op.Within v
  · rw [if_pos (show op.lowest ≤ v ∧ v ≤ op.highest from hin), settle_of_within h hin]
  · rw [if_neg (show ¬ (op.lowest ≤ v ∧ v ≤ op.highest) from hin), BitFieldOp.settle]
    cases op.overflow with
    | wrap => rw [wrapBitField_eq h hv hv']
    | fail => exact (if_neg hin).symm
    | sat =>
      rw [nearest_of_not_within h hin]
      exact (apply_ite some _ _ _).symm

/-- INCRBY on mathematical integers: the sum that was taken modulo `2 ^ 64` tells by its order
against the field's value whether it has wrapped around. -/
theorem incrBitField_eq (h : op.Typed) {cur : ℤ} (hcur : op.Within cur) (hv : -2 ^ 63 ≤ op.value)
    (hv' : op.value < 2 ^ 63) : incrBitField op cur = op.settle (cur + op.value) := by
  obtain ⟨hlow, hhigh⟩ := Within.range h hcur
  obtain ⟨hwlow, hwhigh⟩ := wrap_range (cur + op.value)
  have hwithin : op.Within (cur + op.value) → wrap (cur + op.value) = cur + op.value := fun hz =>
    wrap_of_range (Within.range h hz).1 (Within.range h hz).2
  unfold incrBitField
  rw [bitFieldBounds_eq h]
  dsimp only
  obtain ⟨hcl, hch⟩ := hcur
  by_cases hz : op.Within (cur + op.value)
  · have hsum := hwithin hz
    obtain ⟨hzl, hzh⟩ := hz
    rw [if_neg (by omega), hsum, settle_of_within h ⟨hzl, hzh⟩]
  · have hsign : op.value ≠ 0 := by
      intro hzero
      rw [hzero, add_zero] at hz
      exact hz ⟨hcl, hch⟩
    have hover : (0 < op.value ∧ wrap (cur + op.value) < cur) ∨ (op.value < 0 ∧ cur < wrap (cur + op.value)) ∨
        wrap (cur + op.value) < op.lowest ∨ op.highest < wrap (cur + op.value) := by
      unfold BitFieldOp.Within at hz
      unfold wrap
      omega
    rw [if_pos hover, BitFieldOp.settle]
    cases op.overflow with
    | wrap =>
      -- the wrapped sum has the same residue
      have hmod : wrap (cur + op.value) ≡ cur + op.value [ZMOD 2 ^ op.bits] := by
        refine Int.ModEq.of_dvd (pow_dvd_pow 2 h.le) ?_
        unfold Int.ModEq wrap
        omega
      rw [wrapBitField_eq h hwlow hwhigh]
      exact congrArg some (eq_reduce h (reduce_within h _) ((reduce_modEq op _).trans hmod))
    | fail => exact (if_neg hz).symm
    | sat =>
      dsimp only
      rw [nearest_of_not_within h hz]
      unfold BitFieldOp.Within at hz
      by_cases hpos : 0 < op.value
      · rw [if_pos hpos, if_neg (by omega)]
      · rw [if_neg hpos, if_pos (by omega)]

end Overflow

section Written

variable {op : BitFieldOp} {str : Bytes}

/-- The loop of `setBitField` writes the low bits of the word, the highest of them first, and no
other bit. -/
theorem setBits_result {offset i : ℤ} {left : ℕ} (v : BitVec 64) (h : 0 ≤ offset + i)
    (hin : offset + i + left ≤ 8 * str.length) (h' : offset + i + left ≤ 2 ^ 63) (hleft : left ≤ 64) :
    ∃ str', (setBits offset v left i str).result = .ok str' ∧ str'.length = str.length ∧ ∀ pos, 0 ≤ pos →
      bitAt str' pos = if offset + i ≤ pos ∧ pos < offset + i + left then
        v.getLsbD (left - 1 - (pos - (offset + i)).toNat) else bitAt str pos := by
  induction left generalizing i str with
  | zero => exact ⟨str, rfl, rfl, fun pos _ => (if_neg (by omega)).symm⟩
  | succ left ih =>
    set next := str.set ((offset + i) / 8).toNat
      (withBits (byteAt str ((offset + i) / 8).toNat) (maskOf (offset + i)) (v.getLsbD left)) with hnext
    have hlength : next.length = str.length := List.length_set
    have hinside : offset + (i + 1) + left ≤ 8 * next.length := by omega
    obtain ⟨str', hrun, hlen, hbits⟩ := ih (by omega) hinside (by omega) (by omega)
    refine ⟨str', ?_, hlen.trans hlength, fun pos hpos => ?_⟩
    · rw [setBits_step v h (by omega) (by omega) (by omega), hrun]
    · have hfirst := bitAt_set (v.getLsbD left) h (by omega : offset + i < 8 * str.length) hpos
      rw [hbits pos hpos, hnext, hfirst]
      rcases lt_trichotomy pos (offset + i) with hlt | rfl | hgt
      · rw [if_neg (by omega), if_neg (by omega), if_neg (by omega)]
      · rw [if_neg (by omega), if_pos rfl, if_pos (by omega)]
        congr 1
        omega
      · rw [if_neg (by omega : ¬ pos = offset + i)]
        by_cases hfield : pos < offset + i + (left + 1 : ℕ)
        · rw [if_pos (by omega), if_pos (by omega)]
          congr 1
          omega
        · rw [if_neg (by omega), if_neg (by omega)]

theorem getBitField_result (str : Bytes) (h : 0 ≤ op.offset) (h' : op.stop ≤ 2 ^ 63) :
    (getBitField str op).result = .ok (fieldAt str op) := by
  have hsafe : Safe 0 (fun r => r = fieldAt str op) (getBitField str op) := getBitField_safe str h h'
  obtain ⟨-, v, hv, rfl⟩ := hsafe
  exact hv

theorem testBit_word (f : ℤ → Bool) {w : ℕ} (hw : w ≤ 64) (p : ℕ) :
    (appendBits f w 0 0).toNat.testBit p = (decide (p < w) && f (w - 1 - p : ℕ)) := by
  rw [BitVec.testBit_toNat]
  by_cases hp : p < 64
  · rw [getLsbD_appendBits f _ hp]
    split_ifs with hin <;> simp [hin]
  · rw [BitVec.getLsbD_of_ge _ _ (by omega), decide_eq_false (by omega), Bool.false_and]

theorem word_lt (f : ℤ → Bool) {w : ℕ} (hw : w ≤ 64) : (appendBits f w 0 0).toNat < 2 ^ w := by
  refine Nat.lt_pow_two_of_testBit _ fun p hp => ?_
  rw [testBit_word f hw, decide_eq_false (by omega), Bool.false_and]

/-- What a field holds is an integer of its type. -/
theorem fieldAt_within (h : op.Typed) (str : Bytes) : op.Within (fieldAt str op) := by
  rw [fieldAt, toInt_signExtend h (word_lt _ h.le)]
  exact reduce_within h _

theorem fieldAt_congr {str' : Bytes} (h : ∀ pos, op.offset ≤ pos → pos < op.stop → bitAt str' pos = bitAt str pos) :
    fieldAt str' op = fieldAt str op := by
  have hword : appendBits (fun i => bitAt str' (op.offset + i)) op.bits 0 0 =
      appendBits (fun i => bitAt str (op.offset + i)) op.bits 0 0 := by
    refine BitVec.eq_of_getLsbD_eq fun p hp => ?_
    rw [getLsbD_appendBits _ _ hp, getLsbD_appendBits _ _ hp]
    split_ifs with hin
    · exact h _ (by omega) (by unfold BitFieldOp.stop; omega)
    · rfl
  rw [fieldAt, hword, fieldAt]

/-- A field whose bits are the low bits of a word. -/
theorem fieldAt_of_bits (h : op.Typed) {v : ℤ} (hv : op.Within v)
    (hbits : ∀ p < op.bits, bitAt str (op.offset + (op.bits - 1 - p : ℕ)) = (BitVec.ofInt 64 v).getLsbD p) :
    fieldAt str op = v := by
  have hword : (appendBits (fun i => bitAt str (op.offset + i)) op.bits 0 0).toNat =
      (BitVec.ofInt 64 v).toNat % 2 ^ op.bits := by
    refine Nat.eq_of_testBit_eq fun p => ?_
    rw [testBit_word _ h.le, Nat.testBit_mod_two_pow, BitVec.testBit_toNat]
    by_cases hp : p < op.bits
    · rw [hbits p hp]
    · simp [hp]
  rw [fieldAt, toInt_signExtend h (word_lt _ h.le), hword]
  refine (eq_reduce h hv ?_).symm
  exact (toNat_ofInt_modEq v h.le).symm

/-- A field that a string is long enough for, at an offset within 64 bits. -/
structure BitFieldOp.FitsIn (op : BitFieldOp) (str : Bytes) : Prop where
  nonneg : 0 ≤ op.offset
  within : op.stop ≤ 8 * str.length
  stop_le : op.stop ≤ 2 ^ 63

theorem setBitField_spec (h : op.Typed) (hfit : op.FitsIn str) {v : ℤ} (hv : op.Within v) :
    ∃ str', (setBitField str op v).result = .ok str' ∧ str'.length = str.length ∧
      (getBitField str' op).result = .ok v ∧
      ∀ pos, 0 ≤ pos → ¬ (op.offset ≤ pos ∧ pos < op.stop) → bitAt str' pos = bitAt str pos := by
  obtain ⟨hnonneg, hwithin, hstop⟩ := hfit
  have hle := h.le
  have hoffset : op.stop = op.offset + op.bits := rfl
  have hinside : op.offset + 0 + op.bits ≤ 8 * str.length := by omega
  obtain ⟨str', hrun, hlength, hbits⟩ :=
    setBits_result (BitVec.ofInt 64 v) (by omega) hinside (by omega) hle
  refine ⟨str', hrun, hlength, ?_, fun pos hpos hout => ?_⟩
  · rw [getBitField_result str' hnonneg hstop]
    refine congrArg _ (fieldAt_of_bits h hv fun p hp => ?_)
    rw [hbits _ (by omega), if_pos (by omega)]
    congr 1
    omega
  · rw [hbits pos hpos, if_neg (by omega)]

end Written

/-- Bit fields are exact: a value of the type that is written is read back, with every bit outside
the field and every disjoint field as they were; and SET and INCRBY make of the exact result what
the overflow policy says. -/
theorem bitField_exact {op : BitFieldOp} (h : op.Typed) :
    (∀ (str : Bytes) (v : ℤ), op.FitsIn str → op.Within v → ∃ str', (setBitField str op v).result = .ok str' ∧
      str'.length = str.length ∧ (getBitField str' op).result = .ok v ∧
      (∀ pos, 0 ≤ pos → ¬ (op.offset ≤ pos ∧ pos < op.stop) → bitAt str' pos = bitAt str pos) ∧
      ∀ other : BitFieldOp, 0 ≤ other.offset → other.stop ≤ 2 ^ 63 →
        other.stop ≤ op.offset ∨ op.stop ≤ other.offset →
        (getBitField str' other).result = (getBitField str other).result) ∧
    (∀ str : Bytes, op.Within (fieldAt str op)) ∧
    (∀ v, minInt64 ≤ v → v ≤ maxInt64 → clampBitField op v = op.settle v) ∧
    (∀ cur, op.Within cur → minInt64 ≤ op.value → op.value ≤ maxInt64 →
      incrBitField op cur = op.settle (cur + op.value)) ∧
    ∀ z, op.Within (op.reduce z) ∧ op.reduce z ≡ z [ZMOD 2 ^ op.bits] := by
  refine ⟨fun str v hfit hv => ?_, fieldAt_within h, fun v hmin hmax => ?_, fun cur hcur hmin hmax => ?_,
    fun z => ⟨reduce_within h z, reduce_modEq op z⟩⟩
  · obtain ⟨str', hrun, hlength, hread, hout⟩ := setBitField_spec h hfit hv
    refine ⟨str', hrun, hlength, hread, hout, fun other hnonneg hstop hdisjoint => ?_⟩
    rw [getBitField_result str' hnonneg hstop, getBitField_result str hnonneg hstop]
    exact congrArg _ (fieldAt_congr fun pos hlow hhigh => hout pos (by omega) (by omega))
  · exact clampBitField_eq h hmin (by unfold maxInt64 at hmax; omega)
  · exact incrBitField_eq h hcur hmin (by unfold maxInt64 at hmax; omega)

/-- An `i5` that starts in one byte and ends in the next, incremented past its top. -/
theorem i5_incremented :
    incrBitField ⟨.incrBy, true, 5, 6, 3, .wrap⟩ 14 = some (-15) ∧
    ∃ str', (setBitField [0xff, 0x0f] ⟨.incrBy, true, 5, 6, 3, .wrap⟩ (-15)).result = .ok str' ∧
      (getBitField str' ⟨.incrBy, true, 5, 6, 3, .wrap⟩).result = .ok (-15) ∧ bitAt str' 5 = true := by
  have htyped : BitFieldOp.Typed ⟨.incrBy, true, 5, 6, 3, .wrap⟩ := ⟨by decide, by decide⟩
  obtain ⟨hwrite, -, -, hincr, -⟩ := bitField_exact htyped
  refine ⟨hincr 14 (by decide) (by decide) (by decide), ?_⟩
  obtain ⟨str', hrun, -, hread, hout, -⟩ := hwrite [0xff, 0x0f] (-15) ⟨by decide, by decide, by decide⟩ (by decide)
  exact ⟨str', hrun, hread, hout 5 (by decide) (by decide)⟩

end ShardKV.Commands
