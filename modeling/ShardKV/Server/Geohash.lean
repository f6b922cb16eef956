import ShardKV.Bytes.Weave

/-! Geohash cells. A cell is a pair of coordinates woven into one word, by a ladder of shifts and
masks that halves the groups of bits from step to step, and the other ladder gathers them again.
A neighbour is found by arithmetic on the woven word: the step of one coordinate carries or
borrows through the places of the other, which are masked out of the result. The score ranges of
a cell and its neighbours are sorted and merged in place. -/

namespace ShardKV.Server.Geohash

open Weave

section Ladders

/-- The shifts and the masks of `interleave64`, in the order in which it uses them. -/
def spreadLadder : List (ℕ × BitVec 64) :=
  [(16, 0x0000ffff0000ffff), (8, 0x00ff00ff00ff00ff), (4, 0x0f0f0f0f0f0f0f0f), (2, 0x3333333333333333),
    (1, 0x5555555555555555)]

/-- The shifts and the masks of `deinterleave64`. -/
def gatherLadder : List (ℕ × BitVec 64) :=
  [(1, 0x3333333333333333), (2, 0x0f0f0f0f0f0f0f0f), (4, 0x00ff00ff00ff00ff), (8, 0x0000ffff0000ffff),
    (16, 0x00000000ffffffff)]

def spread (v : BitVec 64) : BitVec 64 :=
  spreadLadder.foldl (fun v rung => (v ||| v <<< rung.1) &&& rung.2) v

def gather (v : BitVec 64) : BitVec 64 :=
  gatherLadder.foldl (fun v rung => (v ||| v >>> rung.1) &&& rung.2) v

def interleave64 (x y : BitVec 32) : BitVec 64 :=
  spread (x.setWidth 64) ||| spread (y.setWidth 64) <<< 1

def deinterleave64 (bits : BitVec 64) : BitVec 32 × BitVec 32 :=
  ((gather (bits &&& 0x5555555555555555)).setWidth 32,
    (gather ((bits >>> 1) &&& 0x5555555555555555)).setWidth 32)

/-- The bits of `f` in groups of `g`, with a gap of the same size after each group. -/
def Spaced (g : ℕ) (v : BitVec 64) (f : ℕ → Bool) : Prop :=
  ∀ p < 64, v.getLsbD p = (decide (p % (2 * g) < g) && f (p / (2 * g) * g + p % g))

/-- The mask that keeps groups of `g` bits. -/
def Keeps (g : ℕ) (mask : BitVec 64) : Prop := ∀ p < 64, mask.getLsbD p = decide (p % (2 * g) < g)

variable {g : ℕ} {v mask : BitVec 64} {f : ℕ → Bool}

/-- The upper half of each group moves into the gap. -/
theorem Spaced.halve (hg : g = 1 ∨ g = 2 ∨ g = 4 ∨ g = 8 ∨ g = 16) (hmask : Keeps g mask) (h : Spaced (2 * g) v f) :
    Spaced g ((v ||| v <<< g) &&& mask) f := by
  intro p hp
  have hlow := h p hp
  have hhigh := h (p - g) (by omega)
  rw [BitVec.getLsbD_and, BitVec.getLsbD_or, BitVec.getLsbD_shiftLeft, hmask p hp, hlow, hhigh]
  by_cases hkept : p % (2 * g) < g
  · by_cases hhalf : p % (2 * (2 * g)) < 2 * g
    · have hplace : p / (2 * (2 * g)) * (2 * g) + p % (2 * g) = p / (2 * g) * g + p % g := by
        rcases hg with rfl | rfl | rfl | rfl | rfl <;> omega
      have hgap : p < g ∨ ¬ (p - g) % (2 * (2 * g)) < 2 * g := by
        rcases hg with rfl | rfl | rfl | rfl | rfl <;> omega
      rcases hgap with hgap | hgap <;> simp [hkept, hhalf, hplace, hgap]
    · have hplace : (p - g) / (2 * (2 * g)) * (2 * g) + (p - g) % (2 * g) = p / (2 * g) * g + p % g ∧
          ¬ p < g ∧ (p - g) % (2 * (2 * g)) < 2 * g := by
        rcases hg with rfl | rfl | rfl | rfl | rfl <;> omega
      simp [hkept, hhalf, hplace, hp]
  · simp [hkept]

/-- The group behind a gap moves up to the group before it. -/
theorem Spaced.double (hg : g = 1 ∨ g = 2 ∨ g = 4 ∨ g = 8 ∨ g = 16) (hmask : Keeps (2 * g) mask) (h : Spaced g v f) :
    Spaced (2 * g) ((v ||| v >>> g) &&& mask) f := by
  intro p hp
  rw [BitVec.getLsbD_and, BitVec.getLsbD_or, BitVec.getLsbD_ushiftRight, hmask p hp, h p hp]
  by_cases hkept : p % (2 * (2 * g)) < 2 * g
  · have hin : g + p < 64 := by
      rcases hg with rfl | rfl | rfl | rfl | rfl <;> omega
    rw [h (g + p) hin]
    by_cases hfirst : p % (2 * g) < g
    · have hplace : p / (2 * g) * g + p % g = p / (2 * (2 * g)) * (2 * g) + p % (2 * g) ∧
          ¬ (g + p) % (2 * g) < g := by
        rcases hg with rfl | rfl | rfl | rfl | rfl <;> omega
      simp [hkept, hfirst, hplace]
    · have hplace : (g + p) / (2 * g) * g + (g + p) % g = p / (2 * (2 * g)) * (2 * g) + p % (2 * g) ∧
          (g + p) % (2 * g) < g := by
        rcases hg with rfl | rfl | rfl | rfl | rfl <;> omega
      rw [hplace.1]
      simp [hkept, hfirst, hplace.2]
  · simp [hkept]

theorem keeps_masks : Keeps 1 0x5555555555555555 ∧ Keeps 2 0x3333333333333333 ∧
    Keeps 4 0x0f0f0f0f0f0f0f0f ∧ Keeps 8 0x00ff00ff00ff00ff ∧ Keeps 16 0x0000ffff0000ffff ∧
    Keeps 32 0x00000000ffffffff := by
  unfold Keeps
  decide

theorem spread_spaced (h : Spaced 32 v f) : Spaced 1 (spread v) f := by
  obtain ⟨h1, h2, h4, h8, h16, -⟩ := keeps_masks
  exact ((((h.halve (by decide) h16).halve (by decide) h8).halve (by decide) h4).halve (by decide)
    h2).halve (by decide) h1

theorem gather_spaced (h : Spaced 1 v f) : Spaced 32 (gather v) f := by
  obtain ⟨-, h2, h4, h8, h16, h32⟩ := keeps_masks
  exact ((((h.double (by decide) h2).double (by decide) h4).double (by decide) h8).double (by decide)
    h16).double (by decide) h32

theorem getLsbD_interleave64 (x y : BitVec 32) {p : ℕ} (hp : p < 64) :
    (interleave64 x y).getLsbD p = if p % 2 = 0 then x.getLsbD (p / 2) else y.getLsbD (p / 2) := by
  have hspread (w : BitVec 32) : Spaced 1 (spread (w.setWidth 64)) w.getLsbD := by
    refine spread_spaced fun p hp => ?_
    rw [BitVec.getLsbD_setWidth]
    by_cases hlow : p < 32
    · have hplace : p % 64 = p ∧ p / 64 * 32 + p % 32 = p := by omega
      simp [hp, hlow, hplace]
    · have hplace : ¬ p % 64 < 32 := by omega
      simp [hplace, BitVec.getLsbD_of_ge w p (by omega)]
  rw [interleave64, BitVec.getLsbD_or, BitVec.getLsbD_shiftLeft, hspread x p hp, hspread y (p - 1) (by omega)]
  by_cases heven : p % 2 = 0
  · have hodd : p < 1 ∨ ¬ (p - 1) % 2 < 1 := by omega
    rcases hodd with hodd | hodd <;> simp [heven, hodd, Nat.mod_one]
  · have hodd : (p - 1) % 2 < 1 ∧ (p - 1) / 2 = p / 2 ∧ ¬ p < 1 := by omega
    simp [heven, hodd, hp, Nat.mod_one]

theorem getLsbD_deinterleave64 (bits : BitVec 64) {i : ℕ} (hi : i < 32) :
    (deinterleave64 bits).1.getLsbD i = bits.getLsbD (2 * i) ∧
      (deinterleave64 bits).2.getLsbD i = bits.getLsbD (2 * i + 1) := by
  have hgather (w : BitVec 64) : (gather (w &&& 0x5555555555555555)).getLsbD i = w.getLsbD (2 * i) := by
    have hspaced : Spaced 1 (w &&& 0x5555555555555555) fun j => w.getLsbD (2 * j) := by
      intro p hp
      rw [BitVec.getLsbD_and, keeps_masks.1 p hp, Bool.and_comm]
      by_cases heven : p % (2 * 1) < 1
      · have hplace : 2 * (p / (2 * 1) * 1 + p % 1) = p := by omega
        dsimp only
        rw [hplace]
      · simp [heven]
    have hplace : i % 64 < 32 ∧ i / 64 * 32 + i % 32 = i := by omega
    rw [gather_spaced hspaced i (by omega)]
    simp [hplace]
  constructor
  · rw [deinterleave64, BitVec.getLsbD_setWidth, hgather, decide_eq_true hi, Bool.true_and]
  · rw [deinterleave64, BitVec.getLsbD_setWidth, hgather, decide_eq_true hi, Bool.true_and,
      BitVec.getLsbD_ushiftRight, Nat.add_comm]

theorem deinterleave64_interleave64 (x y : BitVec 32) : deinterleave64 (interleave64 x y) = (x, y) := by
  have hbits {i : ℕ} (hi : i < 32) := getLsbD_deinterleave64 (interleave64 x y) hi
  refine Prod.ext (BitVec.eq_of_getLsbD_eq fun i hi => ?_) (BitVec.eq_of_getLsbD_eq fun i hi => ?_)
  · rw [(hbits hi).1, getLsbD_interleave64 x y (by omega), if_pos (by omega)]
    congr 1
    omega
  · rw [(hbits hi).2, getLsbD_interleave64 x y (by omega), if_neg (by omega)]
    congr 1
    omega

theorem interleave64_deinterleave64 (bits : BitVec 64) :
    interleave64 (deinterleave64 bits).1 (deinterleave64 bits).2 = bits := by
  refine BitVec.eq_of_getLsbD_eq fun p hp => ?_
  obtain ⟨heven, hodd⟩ := getLsbD_deinterleave64 bits (i := p / 2) (by omega)
  rw [getLsbD_interleave64 _ _ hp, heven, hodd]
  split_ifs <;> congr 1 <;> omega

theorem toNat_interleave64 (x y : BitVec 32) : (interleave64 x y).toNat = weave 32 x.toNat y.toNat := by
  refine Nat.eq_of_testBit_eq fun p => ?_
  rw [BitVec.testBit_toNat, testBit_weave]
  by_cases hp : p < 64
  · have hhalf : p / 2 < 32 := by omega
    rw [getLsbD_interleave64 x y hp, decide_eq_true hhalf, Bool.true_and]
    split_ifs <;> rw [BitVec.testBit_toNat]
  · have hhalf : ¬ p / 2 < 32 := by omega
    rw [BitVec.getLsbD_of_ge _ _ (by omega), decide_eq_false hhalf, Bool.false_and]

end Ladders

section Neighbours

structure GeoHashBits where
  bits : BitVec 64
  step : UInt8

/-- The places of the even and of the odd bits. -/
def evenPlaces : BitVec 64 := 0x5555555555555555

def oddPlaces : BitVec 64 := 0xaaaaaaaaaaaaaaaa

/-- `moveX` and `moveY`: `mine` are the places of the coordinate that changes. -/
def move (mine other : BitVec 64) (h : GeoHashBits) (d : ℤ) : GeoHashBits :=
  if d = 0 then h
  else
    let own := h.bits &&& mine
    let rest := h.bits &&& other
    let zz := other >>> (64 - h.step * 2).toNat
    let moved := if 0 < d then own + (zz + 1) else (own ||| zz) - (zz + 1)
    ⟨(moved &&& (mine >>> (64 - h.step * 2).toNat)) ||| rest, h.step⟩

def moveX : GeoHashBits → ℤ → GeoHashBits := move oddPlaces evenPlaces

def moveY : GeoHashBits → ℤ → GeoHashBits := move evenPlaces oddPlaces

def places (odd : Bool) : BitVec 64 := if odd then oddPlaces else evenPlaces

theorem toNat_places (odd : Bool) : (places odd).toNat = lane odd 32 (2 ^ 32 - 1) 0 := by
  cases odd <;> decide

theorem toNat_places_shifted (odd : Bool) {step : UInt8} (h : 1 ≤ step.toNat) (h' : step.toNat ≤ 26) :
    (places odd >>> (64 - step * 2).toNat).toNat = lane odd step.toNat (2 ^ step.toNat - 1) 0 := by
  have hall : ∀ odd : Bool, ∀ s : Fin 27, 1 ≤ s.val → (places odd >>> (64 - UInt8.ofNat s.val * 2).toNat).toNat =
      lane odd s.val (2 ^ s.val - 1) 0 := by decide
  have hstep := hall odd ⟨step.toNat, by omega⟩ h
  rwa [UInt8.ofNat_toNat] at hstep

section Moved

variable {odd : Bool} {n m : ℕ} {h : GeoHashBits}

theorem toNat_and_places {bits : BitVec 64} (hbits : bits.toNat = lane odd 32 n m) (hn : n < 2 ^ 32)
    (hm : m < 2 ^ 32) : (bits &&& places odd).toNat = lane odd 32 n 0 ∧
      (bits &&& places !odd).toNat = lane odd 32 0 m := by
  rw [BitVec.toNat_and, BitVec.toNat_and, hbits, toNat_places, toNat_places]
  refine ⟨lane_masked odd 32 n m hn, ?_⟩
  have hother := lane_masked (!odd) 32 m n hm
  rwa [lane_not odd 32 m n, lane_not odd 32 m 0] at hother

/-- The coordinate that moved, among the other's places. -/
theorem toNat_moved {own zz mask : BitVec 64} {s : ℕ} {d : ℤ} (hd : d = 1 ∨ d = -1) (hs : s ≤ 26)
    (hn : n < 2 ^ s) (hown : own.toNat = lane odd s n 0) (hzz : zz.toNat = lane odd s 0 (2 ^ s - 1))
    (hmask : mask.toNat = lane odd s (2 ^ s - 1) 0) :
    ((if 0 < d then own + (zz + 1) else (own ||| zz) - (zz + 1)) &&& mask).toNat =
      lane odd s (if 0 < d then (n + 1) % 2 ^ s else before s n) 0 := by
  have hpow : 4 ^ s ≤ 4 ^ 26 := Nat.pow_le_pow_right (by decide) hs
  have hownlt := lane_lt odd s n 0
  have hzzlt := lane_lt odd s 0 (2 ^ s - 1)
  have hone : (1 : BitVec 64).toNat = 1 := rfl
  rw [BitVec.toNat_and, hmask]
  rcases hd with rfl | rfl
  · have hsum : (own + (zz + 1)).toNat = lane odd s n (2 ^ s - 1) + 1 := by
      have := lane_add odd s n (2 ^ s - 1)
      simp only [BitVec.toNat_add, hown, hzz, hone]
      omega
    rw [if_pos (by decide), if_pos (by decide), hsum]
    exact lane_inc odd hn
  · have hsum : ((own ||| zz) - (zz + 1)).toNat = (lane odd s n 0 + 4 ^ 32 - 1) % 4 ^ 32 := by
      have hor : (own ||| zz).toNat = own.toNat + zz.toNat := by
        rw [BitVec.toNat_or, hown, hzz, lane_or, lane_add, Nat.or_zero, Nat.zero_or]
      simp only [BitVec.toNat_sub, BitVec.toNat_add, hor, hown, hzz, hone]
      omega
    have hmod := and_above (k := 32) (y := lane odd s (2 ^ s - 1) 0)
      ((lane_lt odd s _ _).trans_le (Nat.pow_le_pow_right (by decide) (by omega)))
      ((lane odd s n 0 + 4 ^ 32 - 1) % 4 ^ 32) ((lane odd s n 0 + 4 ^ 32 - 1) / 4 ^ 32)
    have habove : 4 ^ 32 = 4 ^ s * (4 ^ (32 - s) - 1 + 1) := by
      rw [Nat.sub_add_cancel (Nat.one_le_pow _ _ (by decide)), ← pow_add]
      congr 1
      omega
    rw [if_neg (by decide), if_neg (by decide), hsum, ← hmod, Nat.mod_add_div, habove]
    exact lane_dec odd _ hn

/-- A neighbour: one coordinate is the next or the previous one, and the other one stays. -/
theorem toNat_move (odd : Bool) {d : ℤ} (hd : d = 1 ∨ d = -1) (hs : 1 ≤ h.step.toNat) (hs' : h.step.toNat ≤ 26)
    (hbits : h.bits.toNat = lane odd 32 n m) (hn : n < 2 ^ h.step.toNat) (hm : m < 2 ^ h.step.toNat) :
    (move (places odd) (places !odd) h d).bits.toNat =
      lane odd 32 (if 0 < d then (n + 1) % 2 ^ h.step.toNat else before h.step.toNat n) m := by
  set s := h.step.toNat
  have hwide : 2 ^ s ≤ 2 ^ 32 := Nat.pow_le_pow_right (by decide) (by omega)
  obtain ⟨hown, hrest⟩ := toNat_and_places hbits (hn.trans_le hwide) (hm.trans_le hwide)
  rw [lane_of_lt odd (by omega : s ≤ 32) hn (Nat.two_pow_pos s)] at hown
  have hzz := toNat_places_shifted (!odd) hs hs'
  rw [lane_not] at hzz
  have hmoved := toNat_moved hd hs' hn hown hzz (toNat_places_shifted odd hs hs')
  have hlt : (if 0 < d then (n + 1) % 2 ^ s else before s n) < 2 ^ s := by
    split_ifs
    · exact Nat.mod_lt _ (Nat.two_pow_pos s)
    · rw [before_eq hn]
      exact Nat.mod_lt _ (Nat.two_pow_pos s)
  have hd0 : d ≠ 0 := by omega
  rw [move, if_neg hd0, BitVec.toNat_or, hmoved, hrest,
    ← lane_of_lt odd (by omega : s ≤ 32) hlt (Nat.two_pow_pos s), lane_or, Nat.or_zero, Nat.zero_or]

end Moved

/-- The cell whose word is woven from two coordinates. -/
theorem deinterleave64_of_toNat {bits : BitVec 64} {x y : ℕ} (h : bits.toNat = weave 32 x y) (hx : x < 2 ^ 32)
    (hy : y < 2 ^ 32) : (deinterleave64 bits).1.toNat = x ∧ (deinterleave64 bits).2.toNat = y := by
  have hbits : bits = interleave64 (BitVec.ofNat 32 x) (BitVec.ofNat 32 y) := by
    refine BitVec.eq_of_toNat_eq ?_
    rw [h, toNat_interleave64, BitVec.toNat_ofNat, BitVec.toNat_ofNat, Nat.mod_eq_of_lt hx, Nat.mod_eq_of_lt hy]
  rw [hbits, deinterleave64_interleave64, BitVec.toNat_ofNat, BitVec.toNat_ofNat, Nat.mod_eq_of_lt hx,
    Nat.mod_eq_of_lt hy]
  exact ⟨rfl, rfl⟩

theorem toNat_deinterleave64 (bits : BitVec 64) :
    bits.toNat = weave 32 (deinterleave64 bits).1.toNat (deinterleave64 bits).2.toNat := by
  rw [← toNat_interleave64, interleave64_deinterleave64]

theorem stepped {s n : ℕ} {d : ℤ} (hd : d = 1 ∨ d = -1) (hn : n < 2 ^ s) (hs : s ≤ 26) :
    (if 0 < d then (n + 1) % 2 ^ s else before s n) < 2 ^ 32 ∧
      ((if 0 < d then (n + 1) % 2 ^ s else before s n : ℕ) : ℤ) = (n + d) % 2 ^ s := by
  have hpos := Nat.two_pow_pos s
  have hwide : 2 ^ s ≤ 2 ^ 32 := Nat.pow_le_pow_right (by decide) (by omega)
  rcases hd with rfl | rfl
  · rw [if_pos (by decide)]
    exact ⟨(Nat.mod_lt _ hpos).trans_le hwide, by push_cast; rfl⟩
  · rw [if_neg (by decide), before_eq hn]
    refine ⟨(Nat.mod_lt _ hpos).trans_le hwide, ?_⟩
    rw [Int.natCast_mod, Nat.cast_add, Nat.cast_sub hpos]
    push_cast
    rw [show (n : ℤ) + (2 ^ s - 1) = n + -1 + 2 ^ s by ring, Int.add_emod_right]

variable {h : GeoHashBits} {d : ℤ}

theorem moveX_coordinates (hd : d = 1 ∨ d = -1) (hs : 1 ≤ h.step.toNat) (hs' : h.step.toNat ≤ 26)
    (hx : (deinterleave64 h.bits).1.toNat < 2 ^ h.step.toNat)
    (hy : (deinterleave64 h.bits).2.toNat < 2 ^ h.step.toNat) :
    (deinterleave64 (moveX h d).bits).1 = (deinterleave64 h.bits).1 ∧
      ((deinterleave64 (moveX h d).bits).2.toNat : ℤ) =
        ((deinterleave64 h.bits).2.toNat + d) % 2 ^ h.step.toNat := by
  have hmove := toNat_move true hd hs hs' (toNat_deinterleave64 h.bits) hy hx
  obtain ⟨hlt, heq⟩ := stepped hd hy hs'
  obtain ⟨hfst, hsnd⟩ := deinterleave64_of_toNat hmove (BitVec.isLt _) hlt
  refine ⟨BitVec.eq_of_toNat_eq hfst, ?_⟩
  rw [← heq, ← hsnd]
  rfl

theorem moveY_coordinates (hd : d = 1 ∨ d = -1) (hs : 1 ≤ h.step.toNat) (hs' : h.step.toNat ≤ 26)
    (hx : (deinterleave64 h.bits).1.toNat < 2 ^ h.step.toNat)
    (hy : (deinterleave64 h.bits).2.toNat < 2 ^ h.step.toNat) :
    ((deinterleave64 (moveY h d).bits).1.toNat : ℤ) =
        ((deinterleave64 h.bits).1.toNat + d) % 2 ^ h.step.toNat ∧
      (deinterleave64 (moveY h d).bits).2 = (deinterleave64 h.bits).2 := by
  have hmove := toNat_move false hd hs hs' (toNat_deinterleave64 h.bits) hx hy
  obtain ⟨hlt, heq⟩ := stepped hd hx hs'
  obtain ⟨hfst, hsnd⟩ := deinterleave64_of_toNat hmove hlt (BitVec.isLt _)
  refine ⟨?_, BitVec.eq_of_toNat_eq hsnd⟩
  rw [← heq, ← hfst]
  rfl

end Neighbours

variable {α : Type} [LinearOrder α]

/-- A half-open interval of scores. -/
structure ScoreRange (α : Type) where
  min : α
  max : α

def ScoreRange.Holds (r : ScoreRange α) (score : α) : Prop := r.min ≤ score ∧ score < r.max

/-- The loop of `mergeScoreRanges` over what is left to read from `read` on. The first `kept` ranges
of the array are the result so far, in the place of ranges that were read before. -/
def mergeFrom (read kept : ℕ) : ℕ → List (ScoreRange α) → List (ScoreRange α)
  | 0, array => array.take kept
  | left + 1, array =>
    match array[read]?, array[kept - 1]? with
    | some r, some last =>
      if r.min ≤ last.max then
        if last.max < r.max then mergeFrom (read + 1) kept left (array.set (kept - 1) ⟨last.min, r.max⟩)
        else mergeFrom (read + 1) kept left array
      else mergeFrom (read + 1) (kept + 1) left (array.set kept r)
    | _, _ => array.take kept

/-- `mergeScoreRanges`, for what `sort.Slice` does with the ranges. -/
def mergeScoreRanges (sort : List (ScoreRange α) → List (ScoreRange α)) (ranges : List (ScoreRange α)) :
    List (ScoreRange α) :=
  if ranges.length < 2 then ranges else mergeFrom 1 1 (ranges.length - 1) (sort ranges)

/-- A sort by the lower ends, which leaves ranges with the same lower end in any order. -/
def SortsByMin (sort : List (ScoreRange α) → List (ScoreRange α)) : Prop :=
  ∀ ranges, (sort ranges).Perm ranges ∧ (sort ranges).Pairwise fun r s => r.min ≤ s.min

/-- The ranges that follow a range, merged into it as long as they touch it. -/
def coalesce (last : ScoreRange α) : List (ScoreRange α) → List (ScoreRange α)
  | [] => [last]
  | r :: rest =>
    if r.min ≤ last.max then coalesce ⟨last.min, Max.max last.max r.max⟩ rest
    else last :: coalesce r rest

/-- The array holds the result so far, ranges that were read, and the ranges to come. -/
theorem mergeFrom_eq (done junk rest : List (ScoreRange α)) (last : ScoreRange α) :
    mergeFrom (done.length + 1 + junk.length) (done.length + 1) rest.length
      (done ++ last :: (junk ++ rest)) = done ++ coalesce last rest := by
  induction rest generalizing done junk last with
  | nil =>
    rw [List.length_nil, mergeFrom, coalesce, List.take_length_add_append]
    rfl
  | cons r rest ih =>
    have hread : (done ++ last :: (junk ++ r :: rest))[done.length + 1 + junk.length]? = some r := by
      rw [Nat.add_assoc, Nat.add_comm 1, List.getElem?_append_right (by omega), Nat.add_sub_cancel_left,
        List.getElem?_cons_succ, List.getElem?_append_right (le_refl _), Nat.sub_self]
      rfl
    have hlast : (done ++ last :: (junk ++ r :: rest))[done.length + 1 - 1]? = some last := by
      rw [Nat.add_sub_cancel, List.getElem?_append_right (le_refl _), Nat.sub_self]
      rfl
    rw [List.length_cons, mergeFrom, hread, hlast, coalesce]
    dsimp only
    -- a range that is merged away is one more that was read
    have hnext (last' : ScoreRange α) := ih done (junk ++ [r]) last'
    simp only [List.length_append, List.length_singleton, List.append_assoc, List.singleton_append,
      ← Nat.add_assoc] at hnext
    split_ifs with htouch hlonger
    · rw [Nat.add_sub_cancel, List.set_append_right _ _ (le_refl _), Nat.sub_self, List.set_cons_zero, hnext,
        max_eq_right hlonger.le]
    · rw [hnext, max_eq_left (not_lt.1 hlonger)]
    · -- a range that is kept takes the place behind the last one
      have hset : (done ++ last :: (junk ++ r :: rest)).set (done.length + 1) r =
          (done ++ [last]) ++ r :: ((junk ++ [r]).tail ++ rest) := by
        rw [List.set_append_right _ _ (by omega), Nat.add_sub_cancel_left]
        cases junk <;> simp
      have hkept := ih (done ++ [last]) (junk ++ [r]).tail r
      have htail : (junk ++ [r]).tail.length = junk.length := by simp
      rw [List.length_append, List.length_singleton, htail, List.append_assoc] at hkept
      rw [hset, List.append_assoc, Nat.add_right_comm _ junk.length 1, hkept, List.append_assoc]
      rfl

/-- The ranges keep their order and stay apart. -/
def Apart (ranges : List (ScoreRange α)) : Prop :=
  (∀ r ∈ ranges, r.min < r.max) ∧ ranges.Pairwise fun r s => r.max < s.min

theorem coalesce_min_le {last : ScoreRange α} {rest : List (ScoreRange α)} {a : α} (ha : a ≤ last.min)
    (hrest : ∀ r ∈ rest, a ≤ r.min) : ∀ r ∈ coalesce last rest, a ≤ r.min := by
  induction rest generalizing last with
  | nil => simpa [coalesce] using ha
  | cons r rest ih =>
    have hr := hrest r List.mem_cons_self
    have htail : ∀ s ∈ rest, a ≤ s.min := fun s hs => hrest s (List.mem_cons_of_mem r hs)
    rw [coalesce]
    split_ifs
    · exact ih ha htail
    · intro s hs
      rcases List.mem_cons.1 hs with rfl | hs
      · exact ha
      · exact ih hr htail s hs

theorem coalesce_apart {last : ScoreRange α} {rest : List (ScoreRange α)} (hproper : last.min < last.max)
    (hrest : ∀ r ∈ rest, r.min < r.max) (hsorted : rest.Pairwise fun r s => r.min ≤ s.min) :
    Apart (coalesce last rest) := by
  induction rest generalizing last with
  | nil => exact ⟨by simpa [coalesce] using hproper, List.pairwise_singleton _ _⟩
  | cons r rest ih =>
    obtain ⟨hle, hsorted⟩ := List.pairwise_cons.1 hsorted
    have hr := hrest r List.mem_cons_self
    have htail : ∀ s ∈ rest, s.min < s.max := fun s hs => hrest s (List.mem_cons_of_mem r hs)
    rw [coalesce]
    split_ifs with htouch
    · exact ih (lt_max_of_lt_left hproper) htail hsorted
    · obtain ⟨hall, hpairs⟩ := ih hr htail hsorted
      refine ⟨List.forall_mem_cons.2 ⟨hproper, hall⟩, List.pairwise_cons.2 ⟨fun s hs => ?_, hpairs⟩⟩
      exact (not_le.1 htouch).trans_le (coalesce_min_le le_rfl hle s hs)

theorem holds_merged {last r : ScoreRange α} (hle : last.min ≤ r.min) (htouch : r.min ≤ last.max) (score : α) :
    (ScoreRange.mk last.min (Max.max last.max r.max)).Holds score ↔ last.Holds score ∨ r.Holds score := by
  unfold ScoreRange.Holds
  constructor
  · rintro ⟨hmin, hmax⟩
    rcases lt_or_ge score last.max with hin | hout
    · exact .inl ⟨hmin, hin⟩
    · exact .inr ⟨htouch.trans hout, (lt_max_iff.1 hmax).resolve_left hout.not_gt⟩
  · rintro (⟨hmin, hmax⟩ | ⟨hmin, hmax⟩)
    · exact ⟨hmin, lt_max_of_lt_left hmax⟩
    · exact ⟨hle.trans hmin, lt_max_of_lt_right hmax⟩

theorem coalesce_holds {last : ScoreRange α} {rest : List (ScoreRange α)}
    (hsorted : (last :: rest).Pairwise fun r s => r.min ≤ s.min) (score : α) :
    (∃ r ∈ coalesce last rest, r.Holds score) ↔ ∃ r ∈ last :: rest, r.Holds score := by
  induction rest generalizing last with
  | nil => rfl
  | cons r rest ih =>
    obtain ⟨hle, hsorted⟩ := List.pairwise_cons.1 hsorted
    rw [coalesce]
    split_ifs with htouch
    · have hmerged : (⟨last.min, Max.max last.max r.max⟩ :: rest).Pairwise fun r s : ScoreRange α => r.min ≤ s.min :=
        List.pairwise_cons.2 ⟨fun s hs => hle s (List.mem_cons_of_mem r hs), hsorted.tail⟩
      rw [ih hmerged, List.exists_mem_cons_iff, List.exists_mem_cons_iff, List.exists_mem_cons_iff,
        holds_merged (hle r List.mem_cons_self) htouch, or_assoc]
    · rw [List.exists_mem_cons_iff, List.exists_mem_cons_iff, ih hsorted]

/-- The merged ranges are in order and apart, and they hold what the ranges held. -/
theorem mergeScoreRanges_spec {sort : List (ScoreRange α) → List (ScoreRange α)} (hsort : SortsByMin sort)
    {ranges : List (ScoreRange α)} (hproper : ∀ r ∈ ranges, r.min < r.max) :
    Apart (mergeScoreRanges sort ranges) ∧ ∀ score,
      (∃ r ∈ mergeScoreRanges sort ranges, r.Holds score) ↔ ∃ r ∈ ranges, r.Holds score := by
  unfold mergeScoreRanges
  split_ifs with hshort
  · refine ⟨⟨hproper, ?_⟩, fun _ => Iff.rfl⟩
    rcases ranges with _ | ⟨r, _ | ⟨s, rest⟩⟩
    · exact List.Pairwise.nil
    · exact List.pairwise_singleton _ _
    · simp at hshort
  · obtain ⟨hperm, hsorted⟩ := hsort ranges
    have hmem {r : ScoreRange α} : r ∈ sort ranges ↔ r ∈ ranges := hperm.mem_iff
    have hlength := hperm.length_eq
    cases hfirst : sort ranges with
    | nil => simp [hfirst] at hlength; omega
    | cons last rest =>
      rw [hfirst] at hsorted hlength
      have hall : ∀ r ∈ last :: rest, r.min < r.max := fun r hr => hproper r (hmem.1 (hfirst ▸ hr))
      have hmerge : mergeFrom 1 1 (ranges.length - 1) (last :: rest) = coalesce last rest := by
        rw [← hlength, List.length_cons, Nat.add_sub_cancel]
        exact mergeFrom_eq [] [] rest last
      rw [hmerge]
      refine ⟨coalesce_apart (hall last List.mem_cons_self)
        (fun r hr => hall r (List.mem_cons_of_mem last hr)) hsorted.tail, fun score => ?_⟩
      rw [coalesce_holds hsorted]
      constructor
      · rintro ⟨r, hr, hin⟩
        exact ⟨r, hmem.1 (hfirst ▸ hr), hin⟩
      · rintro ⟨r, hr, hin⟩
        exact ⟨r, hfirst ▸ hmem.2 hr, hin⟩

/-- The cell arithmetic is exact. -/
theorem geohash_exact :
    (∀ x y : BitVec 32, deinterleave64 (interleave64 x y) = (x, y)) ∧
    (∀ (h : GeoHashBits) (d : ℤ), 1 ≤ h.step.toNat → h.step.toNat ≤ 26 → d = 1 ∨ d = -1 →
      (deinterleave64 h.bits).1.toNat < 2 ^ h.step.toNat → (deinterleave64 h.bits).2.toNat < 2 ^ h.step.toNat →
      ((deinterleave64 (moveX h d).bits).1 = (deinterleave64 h.bits).1 ∧
        ((deinterleave64 (moveX h d).bits).2.toNat : ℤ) =
          ((deinterleave64 h.bits).2.toNat + d) % 2 ^ h.step.toNat) ∧
      ((deinterleave64 (moveY h d).bits).1.toNat : ℤ) =
          ((deinterleave64 h.bits).1.toNat + d) % 2 ^ h.step.toNat ∧
        (deinterleave64 (moveY h d).bits).2 = (deinterleave64 h.bits).2) ∧
    ∀ (sort : List (ScoreRange α) → List (ScoreRange α)), SortsByMin sort →
      ∀ ranges : List (ScoreRange α), (∀ r ∈ ranges, r.min < r.max) →
        Apart (mergeScoreRanges sort ranges) ∧ ∀ score,
          (∃ r ∈ mergeScoreRanges sort ranges, r.Holds score) ↔ ∃ r ∈ ranges, r.Holds score := by
  refine ⟨deinterleave64_interleave64, fun h d hs hs' hd hx hy => ?_, fun sort hsort ranges hproper => ?_⟩
  · exact ⟨moveX_coordinates hd hs hs' hx hy, moveY_coordinates hd hs hs' hx hy⟩
  · exact mergeScoreRanges_spec hsort hproper

theorem sortsByMin_mergeSort : SortsByMin fun ranges : List (ScoreRange α) =>
    ranges.mergeSort fun r s => decide (r.min ≤ s.min) := by
  refine fun ranges => ⟨List.mergeSort_perm _ _, ?_⟩
  have hpairs : (ranges.mergeSort fun r s => decide (r.min ≤ s.min)).Pairwise
      fun r s => decide (r.min ≤ s.min) = true := List.pairwise_mergeSort
    (fun r s t hrs hst => decide_eq_true ((of_decide_eq_true hrs).trans (of_decide_eq_true hst)))
    (fun r s => by simpa using le_total r.min s.min) ranges
  exact hpairs.imp of_decide_eq_true

/-- The cell with the coordinates 3 and 1 of four by four, and two ranges of three that touch. -/
theorem cell_and_ranges :
    (deinterleave64 (moveY ⟨interleave64 3 1, 2⟩ 1).bits).1.toNat = (3 + 1) % 4 ∧
    Apart (mergeScoreRanges (fun ranges => ranges.mergeSort fun r s => decide (r.min ≤ s.min))
      [(⟨3, 5⟩ : ScoreRange ℕ), ⟨1, 3⟩, ⟨7, 8⟩]) := by
  obtain ⟨hinverse, hmove, hmerge⟩ := geohash_exact (α := ℕ)
  have hcell := hmove ⟨interleave64 3 1, 2⟩ 1 (by decide) (by decide) (.inl rfl)
    (by rw [hinverse]; decide) (by rw [hinverse]; decide)
  rw [hinverse] at hcell
  exact ⟨by exact_mod_cast hcell.2.1, (hmerge _ sortsByMin_mergeSort _ (by decide)).1⟩

end ShardKV.Server.Geohash
