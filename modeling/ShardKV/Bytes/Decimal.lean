import Mathlib

/-! Byte strings and their decimal numerals. `itoa` prints a natural number as
the language's integer formatter does, most significant digit first; `readDigits`
is the accumulating reader with an overflow bound. The two are inverse below the
bound, and a numeral holds nothing but digits. -/

namespace ShardKV

abbrev Bytes := List UInt8

instance instLawfulBEqBytes : LawfulBEq Bytes := List.instLawfulBEq

/-- The bytes of an ASCII literal. -/
def ascii (s : String) : Bytes := s.toList.map fun c => UInt8.ofNat c.toNat

namespace Decimal

/-- The digit byte of a residue below ten. -/
def digitByte (d : ℕ) : UInt8 := UInt8.ofNat (48 + d)

/-- Base-ten numeral of a natural number. -/
def itoa (n : ℕ) : Bytes := (Nat.toDigits 10 n).map fun c => UInt8.ofNat c.toNat

/-- Base-ten numeral of an integer, with a leading minus sign when negative. -/
def formatInt (z : ℤ) : Bytes :=
  if z < 0 then 45 :: itoa z.natAbs else itoa z.natAbs

def isDigit (b : UInt8) : Bool := (b - 48).toNat ≤ 9

/-- Read digits onto an accumulator, refusing any value above `bound`. -/
def readDigits (bound : ℕ) : ℕ → Bytes → Option ℕ
  | v, [] => some v
  | v, b :: bs =>
    let d := (b - 48).toNat
    if 9 < d then none
    else if (bound - d) / 10 < v then none
    else readDigits bound (v * 10 + d) bs

theorem readDigits_nil (bound v : ℕ) : readDigits bound v [] = some v := rfl

theorem readDigits_cons (bound v : ℕ) (b : UInt8) (bs : Bytes) : readDigits bound v (b :: bs) =
    if 9 < (b - 48).toNat then none
    else if (bound - (b - 48).toNat) / 10 < v then none
    else readDigits bound (v * 10 + (b - 48).toNat) bs := rfl

theorem itoa_of_lt {d : ℕ} (h : d < 10) : itoa d = [digitByte d] := by
  rw [itoa, Nat.toDigits_of_lt_base h]
  interval_cases d <;> rfl

theorem itoa_step {n d : ℕ} (hn : 0 < n) (hd : d < 10) :
    itoa (10 * n + d) = itoa n ++ [digitByte d] := by
  rw [← itoa_of_lt hd, itoa, ← Nat.toDigits_append_toDigits (by norm_num) hn hd]
  simp [itoa]

/-- Induction along the digits of a numeral. -/
theorem digit_induction {P : ℕ → Prop} (base : ∀ d < 10, P d)
    (step : ∀ n d, 0 < n → d < 10 → P n → P (10 * n + d)) (n : ℕ) : P n := by
  induction n using Nat.strong_induction_on with
  | _ n ih =>
    by_cases h : n < 10
    · exact base n h
    · have hn : 0 < n / 10 := Nat.div_pos (by omega) (by norm_num)
      have := step (n / 10) (n % 10) hn (Nat.mod_lt _ (by norm_num)) (ih _ (by omega))
      rwa [Nat.div_add_mod] at this

theorem digitByte_sub {d : ℕ} (h : d < 10) : (digitByte d - 48).toNat = d := by
  interval_cases d <;> rfl

theorem itoa_ne_nil (n : ℕ) : itoa n ≠ [] := by
  induction n using digit_induction with
  | base d hd => simp [itoa_of_lt hd]
  | step n d hn hd _ => simp [itoa_step hn hd]

theorem isDigit_of_mem_itoa {n : ℕ} {b : UInt8} (h : b ∈ itoa n) : isDigit b = true := by
  induction n using digit_induction with
  | base d hd =>
    rw [itoa_of_lt hd, List.mem_singleton] at h
    subst h
    simp [isDigit, digitByte_sub hd]; omega
  | step n d hn hd ih =>
    rw [itoa_step hn hd, List.mem_append, List.mem_singleton] at h
    rcases h with h | rfl
    · exact ih h
    · simp [isDigit, digitByte_sub hd]; omega

theorem readDigits_append (bound v w : ℕ) (xs ys : Bytes) (h : readDigits bound v xs = some w) :
    readDigits bound v (xs ++ ys) = readDigits bound w ys := by
  induction xs generalizing v with
  | nil => simp only [readDigits_nil, Option.some.injEq] at h; subst h; rfl
  | cons b bs ih =>
    simp only [List.cons_append, readDigits_cons] at h ⊢
    split at h
    · cases h
    · rename_i hd
      split at h
      · cases h
      · rename_i hv
        rw [if_neg hd, if_neg hv]
        exact ih _ h

theorem readDigits_itoa {bound n : ℕ} (h : n ≤ bound) : readDigits bound 0 (itoa n) = some n := by
  induction n using digit_induction with
  | base d hd =>
    simp only [itoa_of_lt hd, readDigits_nil, readDigits_cons, digitByte_sub hd]
    rw [if_neg (by omega), if_neg (by omega)]
    simp
  | step n d hn hd ih =>
    rw [itoa_step hn hd, readDigits_append _ _ n _ _ (ih (by omega))]
    simp only [readDigits_nil, readDigits_cons, digitByte_sub hd]
    rw [if_neg (by omega), if_neg (by omega)]
    simp [Nat.mul_comm]

theorem readDigits_le {bound v w : ℕ} {xs : Bytes} (hb : 9 ≤ bound) (hv : v ≤ bound)
    (h : readDigits bound v xs = some w) : w ≤ bound := by
  induction xs generalizing v with
  | nil =>
    simp only [readDigits_nil, Option.some.injEq] at h
    omega
  | cons b bs ih =>
    simp only [readDigits_cons, Option.ite_none_left_eq_some] at h
    obtain ⟨hd, hlim, h⟩ := h
    exact ih (by omega) h

theorem readDigits_none_of_mem (bound v : ℕ) (xs : Bytes) (b : UInt8) (hb : isDigit b = false)
    (h : b ∈ xs) : readDigits bound v xs = none := by
  induction xs generalizing v with
  | nil => simp at h
  | cons c cs ih =>
    simp only [readDigits_cons]
    split
    · rfl
    · rename_i hd
      rcases List.mem_cons.mp h with rfl | h
      · simp only [isDigit, decide_eq_false_iff_not, not_le] at hb
        omega
      · split
        · rfl
        · exact ih _ h

end Decimal

end ShardKV
