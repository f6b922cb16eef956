import Mathlib.Data.BitVec
import Mathlib.Logic.Function.Iterate
import Mathlib.Tactic.Common

/-! Cyclic redundancy checks. The register holds the remainder of the message read so
far, divided by a polynomial over the field with two elements; one bit of the message
moves it up by one place and subtracts the polynomial when a bit falls out at the top.
Moving the register up is linear in exclusive or. So the bits of a message can be put
into the register all at once, and the places below the top only move. -/

namespace ShardKV.Crc

variable {w : ℕ} (poly : BitVec w)

/-- One place up, without new input. -/
def shift (c : BitVec w) : BitVec w := if c.msb then (c <<< 1) ^^^ poly else c <<< 1

/-- The bit-serial register: one bit of the message. -/
def feed (c : BitVec w) (b : Bool) : BitVec w :=
  if c.msb ^^ b then (c <<< 1) ^^^ poly else c <<< 1

/-- The remainder of a message, bit by bit, from an empty register. -/
def serial (bits : List Bool) : BitVec w := bits.foldl (feed poly) 0

/-- Bits of a message laid out from the top of a register. -/
def top : List Bool → BitVec w
  | [] => 0
  | b :: bs => (if b then BitVec.twoPow w (w - 1) else 0) ^^^ (top bs >>> 1)

theorem shift_xor (a b : BitVec w) : shift poly (a ^^^ b) = shift poly a ^^^ shift poly b := by
  unfold shift
  rw [BitVec.msb_xor, BitVec.shiftLeft_xor_distrib]
  cases a.msb <;> cases b.msb
  · rfl
  · simp [BitVec.xor_assoc]
  · simp only [Bool.xor_false, if_true, Bool.false_eq_true, if_false]
    rw [BitVec.xor_assoc, BitVec.xor_assoc, BitVec.xor_comm (b <<< 1)]
  · simp only [Bool.xor_self, Bool.false_eq_true, if_false, if_true]
    rw [BitVec.xor_comm (b <<< 1), ← BitVec.xor_assoc, BitVec.xor_assoc (a <<< 1), BitVec.xor_self,
      BitVec.xor_zero]

theorem iterate_shift_xor (n : ℕ) (a b : BitVec w) :
    (shift poly)^[n] (a ^^^ b) = (shift poly)^[n] a ^^^ (shift poly)^[n] b := by
  induction n generalizing a b with
  | zero => rfl
  | succ n ih => rw [Function.iterate_succ_apply, Function.iterate_succ_apply,
      Function.iterate_succ_apply, shift_xor, ih]

/-- Nothing is subtracted while the places that move out are clear. -/
theorem iterate_shift_of_clear {k : ℕ} {c : BitVec w} (h : ∀ i, w - k ≤ i → c.getLsbD i = false) :
    (shift poly)^[k] c = c <<< k := by
  induction k with
  | zero => simp
  | succ k ih =>
    have hmsb : (c <<< k).msb = false := by
      rw [BitVec.msb_eq_getLsbD_last, BitVec.getLsbD_shiftLeft, h (w - 1 - k) (by omega)]
      simp
    rw [Function.iterate_succ_apply', ih fun i hi => h i (by omega), shift, hmsb, BitVec.shiftLeft_add]
    rfl

/-- The places that a message does not reach are clear. -/
theorem top_getLsbD {bits : List Bool} {i : ℕ} (h : i + bits.length < w) :
    (top bits : BitVec w).getLsbD i = false := by
  induction bits generalizing i with
  | nil => simp [top]
  | cons b bs ih =>
    rw [List.length_cons] at h
    have htop : ((if b then BitVec.twoPow w (w - 1) else 0 : BitVec w)).getLsbD i = false := by
      cases b
      · simp
      · rw [if_pos rfl, BitVec.getLsbD_twoPow]
        have hne : ¬ w - 1 = i := by omega
        simp [hne]
    rw [top, BitVec.getLsbD_xor, htop, BitVec.getLsbD_ushiftRight, ih (by omega)]
    rfl

/-- Feeding one bit is moving the register up with the bit added at the top. -/
theorem feed_eq (hw : 0 < w) (c : BitVec w) (b : Bool) :
    feed poly c b = shift poly (c ^^^ if b then BitVec.twoPow w (w - 1) else 0) := by
  cases b with
  | false => simp [feed, shift]
  | true =>
    have hmsb : (BitVec.twoPow w (w - 1)).msb = true := by
      rw [BitVec.msb_eq_getLsbD_last, BitVec.getLsbD_twoPow]
      simp only [decide_true, Bool.and_true, decide_eq_true_eq]
      omega
    have hout : BitVec.twoPow w (w - 1) <<< 1 = 0#w := by
      apply BitVec.eq_of_getLsbD_eq
      intro i hi
      rw [BitVec.getLsbD_shiftLeft, BitVec.getLsbD_twoPow]
      have hne : ¬ w - 1 = i - 1 ∨ i < 1 := by omega
      rcases hne with hne | hne <;> simp [hne]
    rw [feed, shift, if_pos rfl, BitVec.msb_xor, hmsb, BitVec.shiftLeft_xor_distrib, hout,
      BitVec.xor_zero]

/-- Moving down and up again loses nothing when the lowest place is clear. -/
theorem shift_ushiftRight {c : BitVec w} (h : c.getLsbD 0 = false) : shift poly (c >>> 1) = c := by
  have hmsb : (c >>> 1).msb = false := by
    rw [BitVec.msb_eq_getLsbD_last, BitVec.getLsbD_ushiftRight, BitVec.getLsbD_of_ge c _ (by omega)]
  rw [shift, hmsb]
  apply BitVec.eq_of_getLsbD_eq
  intro i hi
  rw [if_neg (by simp), BitVec.getLsbD_shiftLeft, BitVec.getLsbD_ushiftRight]
  cases i with
  | zero => simp [h]
  | succ i =>
    rw [Nat.add_sub_cancel, Nat.add_comm 1 i]
    simp [hi]

/-- A message that fits the register can be added to it at once. -/
theorem foldl_feed {bits : List Bool} (h : bits.length ≤ w) (c : BitVec w) :
    bits.foldl (feed poly) c = (shift poly)^[bits.length] (c ^^^ top bits) := by
  induction bits generalizing c with
  | nil => simp [top]
  | cons b bs ih =>
    rw [List.length_cons] at h
    have hlow : (top bs : BitVec w).getLsbD 0 = false := top_getLsbD (by omega)
    rw [List.foldl_cons, ih (by omega), List.length_cons, Function.iterate_succ_apply, top,
      ← BitVec.xor_assoc, shift_xor poly (_ ^^^ _), shift_ushiftRight poly hlow,
      feed_eq poly (by omega)]

end ShardKV.Crc
