import ShardKV.Bytes.Crc
import ShardKV.Cluster.Redirect

/-! Hash slots, bit for bit. The byte table of the checksum is the bit-serial register
taken eight steps at a time, so a checksum is the remainder of the key's bits; and the
two scans of `KeySlot` stop at the first opening brace and at the first closing one
behind it. -/

namespace ShardKV.Cluster

open Crc

/-- The bits of a byte, the most significant one first. -/
def bitsOf (b : UInt8) : List Bool := (List.range 8).map b.toBitVec.getMsbD

/-- The bit-serial CRC-16 with polynomial `0x1021` and an initial value of zero, of the
bits of a byte string in transmission order. -/
def serialCRC16 (b : Bytes) : BitVec 16 := serial 0x1021#16 (b.flatMap bitsOf)

theorem crcShift_toBitVec (c : UInt16) : (crcShift c).toBitVec = shift 0x1021#16 c.toBitVec := by
  have hbit : c &&& 0x8000 ≠ 0 ↔ c.toBitVec.msb = true := by
    have hand : (c &&& 0x8000).toBitVec = c.toBitVec &&& BitVec.twoPow 16 15 := rfl
    rw [ne_eq, ← UInt16.toBitVec_inj, hand, BitVec.and_twoPow, BitVec.msb_eq_getLsbD_last]
    cases c.toBitVec.getLsbD 15 <;> simp
  unfold crcShift shift
  by_cases h : c.toBitVec.msb = true
  · rw [if_pos (hbit.mpr h), if_pos h]
    rfl
  · rw [if_neg (mt hbit.mp h), if_neg h]
    rfl

theorem iterate_crcShift (n : ℕ) (c : UInt16) :
    (Nat.iterate crcShift n c).toBitVec = (shift 0x1021#16)^[n] c.toBitVec := by
  induction n generalizing c with
  | zero => rfl
  | succ n ih =>
    rw [Function.iterate_succ_apply, Function.iterate_succ_apply, ih, crcShift_toBitVec]

/-- The bits of a byte stand in the upper half of the register. -/
theorem top_bitsOf (b : UInt8) : (top (bitsOf b) : BitVec 16) = b.toBitVec.setWidth 16 <<< 8 := by
  revert b
  decide +kernel

theorem crc16Table_toBitVec (i : UInt8) :
    (crc16Table i).toBitVec = (shift 0x1021#16)^[8] (i.toBitVec.setWidth 16 <<< 8) := by
  rw [crc16Table, iterate_crcShift]
  rfl

/-- A register with a byte added to its upper half, taken apart into its halves. -/
theorem xor_halves (c : BitVec 16) (b : BitVec 8) :
    c ^^^ (b.setWidth 16 <<< 8) =
      (c &&& 0xff#16) ^^^ (((c >>> 8).setWidth 8 ^^^ b).setWidth 16 <<< 8) := by
  apply BitVec.eq_of_getLsbD_eq
  intro i hi
  have hmask : (0xff#16).getLsbD i = decide (i < 8) := by
    revert hi
    revert i
    decide
  simp only [BitVec.getLsbD_xor, BitVec.getLsbD_and, hmask, BitVec.getLsbD_shiftLeft,
    BitVec.getLsbD_setWidth, BitVec.getLsbD_ushiftRight]
  by_cases h8 : i < 8
  · simp [h8]
  · have hadd : 8 + (i - 8) = i := by omega
    have hlt : i - 8 < 8 := by omega
    have hlt' : i - 8 < 16 := by omega
    simp [h8, hi, hadd, hlt, hlt']

/-- The lower half of a register moves up past everything. -/
theorem low_half_shift (c : BitVec 16) : (shift 0x1021#16)^[8] (c &&& 0xff#16) = c <<< 8 := by
  have hmask (i : ℕ) : (0xff#16).getLsbD i = decide (i < 8) := by
    by_cases hi : i < 16
    · revert hi
      revert i
      decide
    · rw [BitVec.getLsbD_of_ge _ _ (by omega), eq_comm, decide_eq_false_iff_not]
      omega
  rw [iterate_shift_of_clear]
  · apply BitVec.eq_of_getLsbD_eq
    intro i hi
    rw [BitVec.getLsbD_shiftLeft, BitVec.getLsbD_shiftLeft, BitVec.getLsbD_and, hmask]
    have hlt : i - 8 < 8 := by omega
    simp [hlt]
  · intro i hi
    rw [BitVec.getLsbD_and, hmask]
    have hge : ¬ i < 8 := by omega
    simp [hge]

/-- One byte of `crc16` is eight bits of the serial register. -/
theorem crcByte_toBitVec (c : UInt16) (b : UInt8) :
    ((c <<< 8) ^^^ crc16Table ((c >>> 8).toUInt8 ^^^ b)).toBitVec =
      (bitsOf b).foldl (feed 0x1021#16) c.toBitVec := by
  have hlen : (bitsOf b).length = 8 := by simp [bitsOf]
  have hindex : ((c >>> 8).toUInt8 ^^^ b).toBitVec = (c.toBitVec >>> 8).setWidth 8 ^^^ b.toBitVec := rfl
  rw [foldl_feed _ (by omega), hlen, top_bitsOf, xor_halves, iterate_shift_xor, low_half_shift,
    UInt16.toBitVec_xor, crc16Table_toBitVec, hindex]
  rfl

theorem crc16_toBitVec (b : Bytes) : (crc16 b).toBitVec = serialCRC16 b := by
  have hfold (c : UInt16) :
      (b.foldl (fun (crc : UInt16) c => (crc <<< 8) ^^^ crc16Table ((crc >>> 8).toUInt8 ^^^ c)) c).toBitVec =
        (b.flatMap bitsOf).foldl (feed 0x1021#16) c.toBitVec := by
    induction b generalizing c with
    | nil => rfl
    | cons x xs ih => rw [List.foldl_cons, ih, crcByte_toBitVec, List.flatMap_cons, List.foldl_append]
  exact hfold 0

/-- The loop `for ; i < len(key); i++`: the index of the first `c` at or after `i`. -/
def scanFor (c : UInt8) : ℕ → Bytes → Option ℕ
  | _, [] => none
  | i, b :: bs => if b = c then some i else scanFor c (i + 1) bs

/-- `KeySlot`. -/
def scanSlot (key : Bytes) : ℕ :=
  let slot (b : Bytes) : ℕ := ((crc16 b) &&& 16383).toNat
  match scanFor 0x7b 0 key with
  | none => slot key
  | some start =>
    match scanFor 0x7d (start + 1) (key.drop (start + 1)) with
    | none => slot key
    | some stop =>
      if stop = start + 1 then slot key
      else slot ((key.drop (start + 1)).take (stop - (start + 1)))

variable {c : UInt8}

theorem scanFor_eq_none {i : ℕ} {b : Bytes} : scanFor c i b = none ↔ c ∉ b := by
  induction b generalizing i with
  | nil => simp [scanFor]
  | cons x xs ih =>
    rw [scanFor]
    split_ifs with hx
    · simp [hx]
    · rw [ih, List.mem_cons, not_or]
      exact ⟨fun h => ⟨fun he => hx he.symm, h⟩, And.right⟩

theorem scanFor_append {pre : Bytes} (h : c ∉ pre) (i : ℕ) (post : Bytes) :
    scanFor c i (pre ++ c :: post) = some (i + pre.length) := by
  induction pre generalizing i with
  | nil => simp [scanFor]
  | cons x xs ih =>
    rw [List.mem_cons, not_or] at h
    obtain ⟨hx, hxs⟩ := h
    rw [List.cons_append, scanFor, if_neg (Ne.symm hx), ih hxs, List.length_cons, Nat.add_assoc,
      Nat.add_comm 1]

/-- The text of `key` strictly between its first opening brace and the first closing
brace behind it. -/
def Braced (key tag : Bytes) : Prop :=
  ∃ pre post, key = pre ++ 0x7b :: (tag ++ 0x7d :: post) ∧ 0x7b ∉ pre ∧ 0x7d ∉ tag

theorem and_slots (c : UInt16) : (c &&& 16383).toNat = c.toBitVec.toNat % 16384 := by
  rw [UInt16.toNat_and]
  exact Nat.and_two_pow_sub_one_eq_mod c.toNat 14

theorem scanSlot_braced {key tag : Bytes} (h : Braced key tag) (hne : tag ≠ []) :
    scanSlot key = (serialCRC16 tag).toNat % 16384 := by
  obtain ⟨pre, post, rfl, hpre, htag⟩ := h
  have hdrop : (pre ++ 0x7b :: (tag ++ 0x7d :: post)).drop (pre.length + 1) = tag ++ 0x7d :: post := by
    simp [List.drop_append]
  have hpos := List.length_pos_of_ne_nil hne
  simp only [scanSlot, scanFor_append hpre, Nat.zero_add, hdrop, scanFor_append htag]
  rw [if_neg (by omega), Nat.add_sub_cancel_left, List.take_left, and_slots, crc16_toBitVec]

theorem scanSlot_unbraced {key : Bytes} (h : ∀ tag, Braced key tag → tag = []) :
    scanSlot key = (serialCRC16 key).toNat % 16384 := by
  rw [← crc16_toBitVec, ← and_slots]
  by_cases hopen : (0x7b : UInt8) ∈ key
  · obtain ⟨pre, rest, rfl, hpre⟩ := List.eq_append_cons_of_mem hopen
    have hdrop : (pre ++ 0x7b :: rest).drop (pre.length + 1) = rest := by simp [List.drop_append]
    by_cases hclose : (0x7d : UInt8) ∈ rest
    · obtain ⟨tag, post, rfl, htag⟩ := List.eq_append_cons_of_mem hclose
      obtain rfl := h tag ⟨pre, post, rfl, hpre, htag⟩
      simp [scanSlot, scanFor_append hpre, scanFor]
    · simp only [scanSlot, scanFor_append hpre, Nat.zero_add, hdrop, scanFor_eq_none.mpr hclose]
  · simp only [scanSlot, scanFor_eq_none.mpr hopen]

/-- The slot of a key is the bit-serial checksum, modulo the number of slots, of the text
between its braces when there is one, and else of the whole key. -/
theorem keySlot_bit_exact (key : Bytes) :
    (∀ tag, Braced key tag → tag ≠ [] → scanSlot key = (serialCRC16 tag).toNat % 16384) ∧
      ((∀ tag, Braced key tag → tag = []) → scanSlot key = (serialCRC16 key).toNat % 16384) :=
  ⟨fun _ h hne => scanSlot_braced h hne, scanSlot_unbraced⟩

theorem forall_ne {b : Bytes} (h : c ∉ b) : ∀ x ∈ b, decide (x ≠ c) = true := by
  intro x hx
  exact decide_eq_true fun he => h (he ▸ hx)

theorem hashTag_braced {key tag : Bytes} (h : Braced key tag) (hne : tag ≠ []) : hashTag key = tag := by
  obtain ⟨pre, post, rfl, hpre, htag⟩ := h
  have hclose : (tag ++ 0x7d :: post).takeWhile (· ≠ 0x7d) = _ :=
    List.takeWhile_append_of_pos (forall_ne htag)
  rw [hashTag, List.dropWhile_append_of_pos (forall_ne hpre)]
  cases tag <;> simp_all

theorem hashTag_unbraced {key : Bytes} (h : ∀ tag, Braced key tag → tag = []) : hashTag key = key := by
  by_cases hopen : (0x7b : UInt8) ∈ key
  · obtain ⟨pre, rest, rfl, hpre⟩ := List.eq_append_cons_of_mem hopen
    rw [hashTag, List.dropWhile_append_of_pos (forall_ne hpre)]
    by_cases hclose : (0x7d : UInt8) ∈ rest
    · obtain ⟨tag, post, rfl, htag⟩ := List.eq_append_cons_of_mem hclose
      obtain rfl := h tag ⟨pre, post, rfl, hpre, htag⟩
      simp
    · simp [hclose]
  · rw [hashTag, List.dropWhile_eq_nil_iff.mpr (forall_ne hopen)]

/-- The scans find what `hashTag` cuts out. -/
theorem scanSlot_eq_keySlot (key : Bytes) : scanSlot key = keySlot key := by
  unfold keySlot
  rw [← UInt16.toNat_toBitVec, crc16_toBitVec]
  by_cases h : ∀ tag, Braced key tag → tag = []
  · rw [scanSlot_unbraced h, hashTag_unbraced h]
  · push Not at h
    obtain ⟨tag, htag, hne⟩ := h
    rw [scanSlot_braced htag hne, hashTag_braced htag hne]

end ShardKV.Cluster
