import ShardKV.Bytes.Decimal

/-! Operands of a command: case-insensitive words, signed 64-bit integers and
absolute deadlines. `toUpper` and `fold` agree with the language's Unicode
mappings on everything that can equal an ASCII word: besides the ASCII letters
only the dotless i, the long s and the Kelvin sign map onto one. -/

namespace ShardKV.Server

open Decimal

def maxInt64 : ℤ := 2 ^ 63 - 1

def minInt64 : ℤ := -2 ^ 63

def upperByte (b : UInt8) : UInt8 := if 97 ≤ b ∧ b ≤ 122 then b - 32 else b

def lowerByte (b : UInt8) : UInt8 := if 65 ≤ b ∧ b ≤ 90 then b + 32 else b

/-- `strings.ToUpper`, up to bytes that no ASCII word holds. -/
def toUpper : Bytes → Bytes
  | 0xC4 :: 0xB1 :: bs => 73 :: toUpper bs
  | 0xC5 :: 0xBF :: bs => 83 :: toUpper bs
  | b :: bs => upperByte b :: toUpper bs
  | [] => []

/-- The folding behind `strings.EqualFold`, up to bytes that no ASCII word holds. -/
def fold : Bytes → Bytes
  | 0xE2 :: 0x84 :: 0xAA :: bs => 75 :: fold bs
  | 0xC5 :: 0xBF :: bs => 83 :: fold bs
  | b :: bs => upperByte b :: fold bs
  | [] => []

/-- `strings.EqualFold(string(b), word)` for an upper-case ASCII word. -/
def equalFold (b : Bytes) (word : String) : Bool := fold b == ascii word

/-- `strings.ToUpper(string(b)) == word`. -/
def isWord (b : Bytes) (word : String) : Bool := toUpper b == ascii word

def toLower (b : Bytes) : Bytes := b.map lowerByte

/-- An unsigned numeral, refused when empty, not decimal, or above `bound`. -/
def parseUint (bound : ℕ) (b : Bytes) : Option ℕ :=
  if b = [] then none else readDigits bound 0 b

/-- `parseInt64`, and `parseInt` where `int` is 64 bits wide. -/
def parseInt64 : Bytes → Option ℤ
  | 45 :: ds => (parseUint (2 ^ 63) ds).map fun n : ℕ => -(n : ℤ)
  | 43 :: ds => (parseUint (2 ^ 63 - 1) ds).map fun n : ℕ => (n : ℤ)
  | ds => (parseUint (2 ^ 63 - 1) ds).map fun n : ℕ => (n : ℤ)

/-- The absolute deadline in milliseconds that `n` units mean, from `nowMs` when
relative, refused when it does not fit 64 bits. -/
def deadlineMs (nowMs n unitMs : ℤ) (rel : Bool) : Option ℤ :=
  let scaled : Option ℤ :=
    if unitMs ≠ 1 then
      if maxInt64.tdiv unitMs < n ∨ n < minInt64.tdiv unitMs then none else some (n * unitMs)
    else some n
  scaled.bind fun n =>
    if !rel then some n
    else if (0 < n ∧ maxInt64 - n < nowMs) ∨ (n < 0 ∧ nowMs < minInt64 - n) then none
    else some (nowMs + n)

theorem parseUint_itoa {bound n : ℕ} (h : n ≤ bound) : parseUint bound (itoa n) = some n := by
  rw [parseUint, if_neg (itoa_ne_nil n), readDigits_itoa h]

theorem parseInt64_itoa {n : ℕ} (h : n ≤ 2 ^ 63 - 1) : parseInt64 (itoa n) = some (n : ℤ) := by
  have hp := parseUint_itoa h
  cases hi : itoa n with
  | nil => exact absurd hi (itoa_ne_nil n)
  | cons b bs =>
    have hb : isDigit b = true := isDigit_of_mem_itoa (n := n) (by simp [hi])
    have h45 : b ≠ 45 := by rintro rfl; exact absurd hb (by decide)
    have h43 : b ≠ 43 := by rintro rfl; exact absurd hb (by decide)
    rw [hi] at hp
    unfold parseInt64
    split
    · rename_i heq; exact absurd (List.cons.inj heq).1 h45
    · rename_i heq; exact absurd (List.cons.inj heq).1 h43
    · rw [hp]; rfl

/-- The formatter of 64-bit integers is inverted by the parser. -/
theorem parseInt64_formatInt {z : ℤ} (hmin : minInt64 ≤ z) (hmax : z ≤ maxInt64) :
    parseInt64 (formatInt z) = some z := by
  unfold minInt64 at hmin
  unfold maxInt64 at hmax
  unfold formatInt
  by_cases hz : z < 0
  · rw [if_pos hz]
    show (parseUint (2 ^ 63) (itoa z.natAbs)).map _ = _
    rw [parseUint_itoa (by omega)]
    simp only [Option.map_some, Option.some.injEq]
    omega
  · rw [if_neg hz, parseInt64_itoa (by omega)]
    simp only [Option.some.injEq]
    omega

theorem parseUint_le {bound n : ℕ} {b : Bytes} (hb : 9 ≤ bound) (h : parseUint bound b = some n) :
    n ≤ bound := by
  simp only [parseUint, Option.ite_none_left_eq_some] at h
  exact readDigits_le hb (Nat.zero_le _) h.2

theorem parseInt64_range {b : Bytes} {z : ℤ} (h : parseInt64 b = some z) :
    minInt64 ≤ z ∧ z ≤ maxInt64 := by
  unfold minInt64 maxInt64
  unfold parseInt64 at h
  split at h
  all_goals
    obtain ⟨n, hn, rfl⟩ := Option.map_eq_some_iff.mp h
    have hle := parseUint_le (by norm_num) hn
    constructor <;> omega

/-- A positive operand means a positive deadline. -/
theorem deadlineMs_pos {nowMs n unitMs d : ℤ} {rel : Bool} (hu : 0 < unitMs) (hn : 0 < n)
    (hnow : 0 ≤ nowMs) (h : deadlineMs nowMs n unitMs rel = some d) : 0 < d := by
  unfold deadlineMs at h
  obtain ⟨m, hm, h⟩ := Option.bind_eq_some_iff.mp h
  have hpos : 0 < m := by
    split_ifs at hm
    · rw [← Option.some.inj hm]
      exact Int.mul_pos hn hu
    · rw [← Option.some.inj hm]
      exact hn
  cases rel with
  | false =>
    simp only [Bool.not_false, if_true, Option.some.injEq] at h
    omega
  | true =>
    simp only [Bool.not_true, Bool.false_eq_true, if_false, Option.ite_none_left_eq_some,
      Option.some.injEq] at h
    omega

theorem deadlineMs_absolute (nowMs n : ℤ) : deadlineMs nowMs n 1 false = some n := rfl

/-- A deadline that is not refused fits 64 bits. -/
theorem deadlineMs_bounds {nowMs n unitMs d : ℤ} {rel : Bool} (hu : 0 < unitMs)
    (hn : minInt64 ≤ n ∧ n ≤ maxInt64) (hnow : 0 ≤ nowMs) (hnow' : nowMs ≤ maxInt64)
    (h : deadlineMs nowMs n unitMs rel = some d) : minInt64 ≤ d ∧ d ≤ maxInt64 := by
  unfold deadlineMs at h
  obtain ⟨m, hm, h⟩ := Option.bind_eq_some_iff.mp h
  have hmb : minInt64 ≤ m ∧ m ≤ maxInt64 := by
    by_cases h1 : unitMs = 1
    · simp only [h1, ne_eq, not_true_eq_false, if_false, Option.some.injEq] at hm
      omega
    · simp only [ne_eq, h1, not_false_eq_true, if_true, Option.ite_none_left_eq_some,
        Option.some.injEq, not_or, not_lt] at hm
      obtain ⟨⟨hle, hge⟩, rfl⟩ := hm
      constructor
      · have hmin : minInt64.tdiv unitMs * unitMs ≥ minInt64 := by
          have := Int.mul_tdiv_add_tmod minInt64 unitMs
          have hpos : 0 ≤ (2 ^ 63 : ℤ).tmod unitMs := Int.tmod_nonneg unitMs (by decide)
          have hneg : minInt64.tmod unitMs ≤ 0 := by
            rw [minInt64, Int.neg_tmod]
            omega
          nlinarith [mul_comm unitMs (minInt64.tdiv unitMs)]
        nlinarith
      · have hmax : maxInt64.tdiv unitMs * unitMs ≤ maxInt64 := by
          have := Int.mul_tdiv_add_tmod maxInt64 unitMs
          have hpos : 0 ≤ maxInt64.tmod unitMs := Int.tmod_nonneg unitMs (by decide)
          nlinarith [mul_comm unitMs (maxInt64.tdiv unitMs)]
        nlinarith
  cases rel with
  | false =>
    simp only [Bool.not_false, if_true, Option.some.injEq] at h
    omega
  | true =>
    simp only [Bool.not_true, Bool.false_eq_true, if_false, Option.ite_none_left_eq_some,
      Option.some.injEq] at h
    obtain ⟨hno, rfl⟩ := h
    unfold minInt64 maxInt64 at *
    omega

end ShardKV.Server
