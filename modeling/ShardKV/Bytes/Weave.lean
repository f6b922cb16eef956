import Mathlib

/-! Two numbers woven into one, the bits of one in the even places and those of the other in the
odd places. A word of `k` such pairs is a number in base 4, so bitwise operations and the step of
one of the two numbers are proved digit by digit: with ones in all the places of the other number
a carry runs through them, and with zeros there a borrow does. -/

namespace ShardKV.Weave

/-- `k` bits of `a` in the even places and `k` bits of `b` in the odd ones. -/
def weave : ℕ → ℕ → ℕ → ℕ
  | 0, _, _ => 0
  | k + 1, a, b => 2 ^ 2 * weave k (a / 2) (b / 2) + (a % 2 + 2 * (b % 2))

theorem testBit_weave (k a b p : ℕ) :
    (weave k a b).testBit p = (decide (p / 2 < k) && (if p % 2 = 0 then a else b).testBit (p / 2)) := by
  induction k generalizing a b p with
  | zero => simp [weave]
  | succ k ih =>
    have hdigit : a % 2 + 2 * (b % 2) < 2 ^ 2 := by omega
    rw [weave, Nat.testBit_two_pow_mul_add _ hdigit]
    rcases Nat.lt_or_ge p 2 with hp | hp
    · rw [if_pos hp]
      interval_cases p
      · simp [Nat.testBit_zero]
      · rcases Nat.mod_two_eq_zero_or_one a with ha | ha <;>
          rcases Nat.mod_two_eq_zero_or_one b with hb | hb <;> simp [ha, hb, Nat.testBit]
    · obtain ⟨q, rfl⟩ := Nat.exists_eq_add_of_le' hp
      have hdiv : (q + 2) / 2 = q / 2 + 1 := by omega
      have hmod : (q + 2) % 2 = q % 2 := by omega
      rw [if_neg (by omega), Nat.add_sub_cancel, ih, hdiv, hmod]
      split_ifs <;> simp [Nat.testBit_succ]

theorem weave_and (k a b c d : ℕ) : weave k a b &&& weave k c d = weave k (a &&& c) (b &&& d) := by
  refine Nat.eq_of_testBit_eq fun p => ?_
  rw [Nat.testBit_and, testBit_weave, testBit_weave, testBit_weave]
  split_ifs <;> cases decide (p / 2 < k) <;> simp

theorem weave_or (k a b c d : ℕ) : weave k a b ||| weave k c d = weave k (a ||| c) (b ||| d) := by
  refine Nat.eq_of_testBit_eq fun p => ?_
  rw [Nat.testBit_or, testBit_weave, testBit_weave, testBit_weave]
  split_ifs <;> cases decide (p / 2 < k) <;> simp

theorem weave_lt (k a b : ℕ) : weave k a b < 4 ^ k := by
  induction k generalizing a b with
  | zero => simp [weave]
  | succ k ih =>
    have := ih (a / 2) (b / 2)
    rw [weave, pow_succ]
    omega

theorem weave_add (k a b : ℕ) : weave k a 0 + weave k 0 b = weave k a b := by
  induction k generalizing a b with
  | zero => rfl
  | succ k ih =>
    have := ih (a / 2) (b / 2)
    simp only [weave, Nat.zero_div, Nat.zero_mod]
    omega

/-- A place more holds nothing when the numbers are short. -/
theorem weave_of_lt {k l a b : ℕ} (hkl : k ≤ l) (ha : a < 2 ^ k) (hb : b < 2 ^ k) :
    weave l a b = weave k a b := by
  refine Nat.eq_of_testBit_eq fun p => ?_
  rw [testBit_weave, testBit_weave]
  by_cases hp : p / 2 < k
  · simp [hp, hp.trans_le hkl]
  · have hhigh {n : ℕ} (hn : n < 2 ^ k) : n.testBit (p / 2) = false :=
      Nat.testBit_eq_false_of_lt (hn.trans_le (Nat.pow_le_pow_right (by decide) (Nat.not_lt.1 hp)))
    split_ifs
    · simp [hhigh ha]
    · simp [hhigh hb]

/-- One of the two numbers in its places, and the other in its own. -/
def lane (odd : Bool) (k mine other : ℕ) : ℕ := if odd then weave k other mine else weave k mine other

theorem lane_succ (odd : Bool) (k mine other : ℕ) : lane odd (k + 1) mine other =
    2 ^ 2 * lane odd k (mine / 2) (other / 2) +
      if odd then other % 2 + 2 * (mine % 2) else mine % 2 + 2 * (other % 2) := by
  cases odd <;> rfl

theorem lane_not (odd : Bool) (k mine other : ℕ) : lane (!odd) k mine other = lane odd k other mine := by
  cases odd <;> rfl

theorem lane_or (odd : Bool) (k a b c d : ℕ) :
    lane odd k a b ||| lane odd k c d = lane odd k (a ||| c) (b ||| d) := by
  cases odd <;> exact weave_or ..

theorem lane_add (odd : Bool) (k mine other : ℕ) :
    lane odd k mine 0 + lane odd k 0 other = lane odd k mine other := by
  cases odd
  · exact weave_add ..
  · exact (Nat.add_comm ..).trans (weave_add ..)

theorem lane_of_lt (odd : Bool) {k l mine other : ℕ} (hkl : k ≤ l) (h : mine < 2 ^ k) (h' : other < 2 ^ k) :
    lane odd l mine other = lane odd k mine other := by
  cases odd
  · exact weave_of_lt hkl h h'
  · exact weave_of_lt hkl h' h

theorem ones_succ (k : ℕ) : (2 ^ (k + 1) - 1) / 2 = 2 ^ k - 1 ∧ (2 ^ (k + 1) - 1) % 2 = 1 := by
  have := Nat.two_pow_pos k
  rw [pow_succ]
  omega

/-- The bits of a digit and the digits above it. -/
theorem and_digit {r s : ℕ} (hr : r < 4) (hs : s < 4) (q t : ℕ) :
    (2 ^ 2 * q + r) &&& (2 ^ 2 * t + s) = 2 ^ 2 * (q &&& t) + (r &&& s) := by
  have hrs : r &&& s < 2 ^ 2 := Nat.and_le_left.trans_lt hr
  refine Nat.eq_of_testBit_eq fun p => ?_
  rw [Nat.testBit_and, Nat.testBit_two_pow_mul_add _ hr, Nat.testBit_two_pow_mul_add _ hs,
    Nat.testBit_two_pow_mul_add _ hrs]
  split_ifs <;> rw [Nat.testBit_and]

theorem lane_masked (odd : Bool) (k mine other : ℕ) (h : mine < 2 ^ k) :
    lane odd k mine other &&& lane odd k (2 ^ k - 1) 0 = lane odd k mine 0 := by
  cases odd <;> simp [lane, weave_and, Nat.and_two_pow_sub_one_of_lt_two_pow h]

/-- One more: the carry runs through the ones of the other number. -/
theorem lane_inc (odd : Bool) {k n : ℕ} (h : n < 2 ^ k) :
    (lane odd k n (2 ^ k - 1) + 1) &&& lane odd k (2 ^ k - 1) 0 = lane odd k ((n + 1) % 2 ^ k) 0 := by
  induction k generalizing n with
  | zero => cases odd <;> simp [lane, weave]
  | succ k ih =>
    have hhalf : n / 2 < 2 ^ k := by rw [pow_succ] at h; omega
    obtain ⟨hdiv, hmod⟩ := ones_succ k
    rw [lane_succ, lane_succ, lane_succ, hdiv, hmod]
    rcases Nat.mod_two_eq_zero_or_one n with hn | hn
    · -- the step stays in this digit
      have hlt : n + 1 < 2 ^ (k + 1) := by rw [pow_succ] at h ⊢; omega
      have hself := lane_masked odd k (n / 2) (2 ^ k - 1) hhalf
      have hdiv' : (n + 1) / 2 = n / 2 := by omega
      have hmod' : (n + 1) % 2 = 1 := by omega
      rw [Nat.mod_eq_of_lt hlt, hdiv', hmod', hn, ← hself]
      cases odd
      · exact and_digit (r := 3) (s := 1) (by decide) (by decide) _ _
      · exact and_digit (r := 2) (s := 2) (by decide) (by decide) _ _
    · -- the digit is full, and the step goes on to the next one
      have hcarry : (n + 1) % 2 ^ (k + 1) = 2 * ((n / 2 + 1) % 2 ^ k) := by
        rw [pow_succ', ← Nat.mul_mod_mul_left]
        congr 1
        omega
      have hnext := ih hhalf
      rw [hcarry, Nat.mul_div_cancel_left _ (by decide), Nat.mul_mod_right, hn, ← hnext]
      have hfull (q : ℕ) : 2 ^ 2 * q + 3 + 1 = 2 ^ 2 * (q + 1) + 0 := by ring
      cases odd
      · exact (congrArg (· &&& _) (hfull _)).trans (and_digit (s := 1) (by decide) (by decide) _ _)
      · exact (congrArg (· &&& _) (hfull _)).trans (and_digit (s := 2) (by decide) (by decide) _ _)

/-- What stands above a word does not meet its bits. -/
theorem and_above {k y : ℕ} (hy : y < 4 ^ k) (x s : ℕ) : (x + 4 ^ k * s) &&& y = x &&& y := by
  have hpow : 4 ^ k = 2 ^ (2 * k) := by rw [pow_mul]; norm_num
  have hlow (z : ℕ) : z &&& y = z % 4 ^ k &&& y := by
    rw [← Nat.mod_eq_of_lt (Nat.and_le_right.trans_lt hy : z &&& y < 4 ^ k), hpow, Nat.and_mod_two_pow,
      ← hpow, Nat.mod_eq_of_lt hy]
  rw [hlow, Nat.add_mul_mod_self_left, ← hlow]

theorem lane_lt (odd : Bool) (k mine other : ℕ) : lane odd k mine other < 4 ^ k := by
  cases odd <;> exact weave_lt ..

/-- The number before, in `k` bits. -/
def before (k n : ℕ) : ℕ := if n = 0 then 2 ^ k - 1 else n - 1

theorem before_eq {k n : ℕ} (h : n < 2 ^ k) : before k n = (n + (2 ^ k - 1)) % 2 ^ k := by
  unfold before
  split_ifs with hn
  · rw [hn, Nat.zero_add, Nat.mod_eq_of_lt (by omega)]
  · rw [show n + (2 ^ k - 1) = n - 1 + 2 ^ k by omega, Nat.add_mod_right, Nat.mod_eq_of_lt (by omega)]

/-- One less: the borrow runs through the zeros of the other number, and past the end of the word
into whatever stands above it. -/
theorem lane_dec (odd : Bool) {k n : ℕ} (t : ℕ) (h : n < 2 ^ k) :
    (lane odd k n 0 + 4 ^ k * (t + 1) - 1) &&& lane odd k (2 ^ k - 1) 0 = lane odd k (before k n) 0 := by
  induction k generalizing n with
  | zero => cases odd <;> simp [lane, weave]
  | succ k ih =>
    have hhalf : n / 2 < 2 ^ k := by rw [pow_succ] at h; omega
    have habove : 1 ≤ 4 ^ k * (t + 1) := Nat.mul_pos (by positivity) (by omega)
    have hnext := ih hhalf
    have hpow : 4 ^ (k + 1) * (t + 1) = 2 ^ 2 * (4 ^ k * (t + 1)) := by ring
    obtain ⟨hdiv, hmod⟩ := ones_succ k
    rw [lane_succ, lane_succ, lane_succ, hdiv, hmod, hpow]
    rcases Nat.mod_two_eq_zero_or_one n with hn | hn
    · -- nothing to take here: the borrow goes on to the next digit
      have hbefore : before (k + 1) n / 2 = before k (n / 2) ∧ before (k + 1) n % 2 = 1 := by
        have := Nat.two_pow_pos k
        unfold before
        split_ifs <;> rw [pow_succ] at * <;> omega
      have hborrow (q : ℕ) : 2 ^ 2 * q + 0 + 2 ^ 2 * (4 ^ k * (t + 1)) - 1 =
          2 ^ 2 * (q + 4 ^ k * (t + 1) - 1) + 3 := by omega
      rw [hbefore.1, hbefore.2, hn, ← hnext]
      cases odd
      · exact (congrArg (· &&& _) (hborrow _)).trans (and_digit (s := 1) (by decide) (by decide) _ _)
      · exact (congrArg (· &&& _) (hborrow _)).trans (and_digit (s := 2) (by decide) (by decide) _ _)
    · have hbefore : before (k + 1) n / 2 = n / 2 ∧ before (k + 1) n % 2 = 0 := by
        unfold before
        split_ifs <;> omega
      have hself := (and_above (lane_lt odd k (2 ^ k - 1) 0) (lane odd k (n / 2) 0) (t + 1)).trans
        (lane_masked odd k (n / 2) 0 hhalf)
      have htake (q r : ℕ) : 2 ^ 2 * q + (r + 1) + 2 ^ 2 * (4 ^ k * (t + 1)) - 1 =
          2 ^ 2 * (q + 4 ^ k * (t + 1)) + r := by omega
      rw [hbefore.1, hbefore.2, hn]
      cases odd
      · exact (congrArg (· &&& _) (htake _ 0)).trans
          ((and_digit (r := 0) (s := 1) (by decide) (by decide) _ _).trans (congrArg (2 ^ 2 * ·) hself))
      · exact (congrArg (· &&& _) (htake _ 1)).trans
          ((and_digit (r := 1) (s := 2) (by decide) (by decide) _ _).trans (congrArg (2 ^ 2 * ·) hself))

end ShardKV.Weave
