import ShardKV.Bytes.Decimal

/-! Fixed-width numbers and exact reads: the framing of a binary file. A number is its
digits in base 256, and what is read back is the number modulo what the width holds. -/

namespace ShardKV.Framing

/-- The low `k` digits of `n` in base 256, most significant first. -/
def bigEndian : ℕ → ℕ → Bytes
  | 0, _ => []
  | k + 1, n => bigEndian k (n / 256) ++ [UInt8.ofNat n]

/-- The number whose digits in base 256 are `b`, most significant first. -/
def ofBigEndian (b : Bytes) : ℕ := b.foldl (fun acc c => acc * 256 + c.toNat) 0

@[simp] theorem bigEndian_length (k n : ℕ) : (bigEndian k n).length = k := by
  induction k generalizing n with
  | zero => rfl
  | succ k ih => rw [bigEndian, List.length_append, ih, List.length_singleton]

theorem ofBigEndian_concat (b : Bytes) (c : UInt8) :
    ofBigEndian (b ++ [c]) = ofBigEndian b * 256 + c.toNat := by
  simp [ofBigEndian]

theorem ofBigEndian_bigEndian (k n : ℕ) : ofBigEndian (bigEndian k n) = n % 256 ^ k := by
  induction k generalizing n with
  | zero => simp [bigEndian, ofBigEndian, Nat.mod_one]
  | succ k ih =>
    have hdigit : (UInt8.ofNat n).toNat = n % 256 := UInt8.toNat_ofNat'
    rw [bigEndian, ofBigEndian_concat, ih, hdigit, pow_succ', Nat.mod_mul]
    omega

/-- The next `k` bytes and what follows them, if there are so many. -/
def takeExact (k : ℕ) (b : Bytes) : Option (Bytes × Bytes) :=
  if k ≤ b.length then some (b.take k, b.drop k) else none

theorem takeExact_append (a b : Bytes) : takeExact a.length (a ++ b) = some (a, b) := by
  simp [takeExact]

theorem takeExact_eq_some {k : ℕ} {b x y : Bytes} (h : takeExact k b = some (x, y)) :
    b = x ++ y ∧ x.length = k := by
  unfold takeExact at h
  split at h
  · rename_i hk
    obtain ⟨rfl, rfl⟩ := Prod.mk.inj (Option.some.inj h)
    exact ⟨(List.take_append_drop k b).symm, by rw [List.length_take]; omega⟩
  · cases h

end ShardKV.Framing
