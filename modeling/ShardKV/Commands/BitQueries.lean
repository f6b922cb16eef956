import ShardKV.Commands.Bits

/-! BITCOUNT, BITPOS and BITOP against single bits. BITCOUNT over a range of bits counts its ends
bit by bit and the bytes between them byte by byte; BITPOS walks the range bit by bit; BITOP
combines bytes. Each of them says the same as a look at every bit of the range by itself. -/

namespace ShardKV.Commands

open Access Data Resp Server Checked

/-- `BitRange`: the operands of a range, counted in bytes or in bits. -/
structure BitRange where
  start : ℤ
  stop : ℤ
  bits : Bool
  present : Bool

def resolveByteRange (start stop n : ℤ) : Option (ℤ × ℤ) :=
  let start := if start < 0 then wrap (start + n) else start
  let stop := if stop < 0 then wrap (stop + n) else stop
  let start := max start 0
  let stop := if n ≤ stop then n - 1 else stop
  if n = 0 ∨ stop < start then none else some (start, stop)

def onesCount8 (c : UInt8) : ℕ := (List.range 8).countP fun r => c &&& UInt8.ofNat (0x80 >>> r) != 0

def countBits (b : Bytes) : ℕ := b.foldl (fun n c => n + onesCount8 c) 0

/-- `b[i/8]&byte(0x80>>(i%8)) != 0`. -/
def testBit (b : Bytes) (i : ℤ) : Comp Bool := do
  let byte ← index b (i.tdiv 8)
  let mask ← bitMask (i.tmod 8)
  pure (byte &&& mask != 0)

/-- The loops that count bit by bit, with `left` bits to look at from `i` on. -/
def countFrom (b : Bytes) : ℕ → ℤ → ℕ → Comp ℕ
  | 0, _, n => pure n
  | left + 1, i, n => do
    let on ← testBit b i
    countFrom b left (i + 1) (if on then n + 1 else n)

def countBitsInBitRange (b : Bytes) (startBit endBit : ℤ) : Comp ℕ :=
  let firstWhole := (wrap (startBit + 7)).tdiv 8
  let lastWhole := (wrap (endBit + 1)).tdiv 8 - 1
  if lastWhole < firstWhole then countFrom b (endBit - startBit + 1).toNat startBit 0
  else do
    let n ← countFrom b (firstWhole * 8 - startBit).toNat startBit 0
    let whole ← slice b firstWhole (lastWhole + 1)
    countFrom b (endBit - (lastWhole + 1) * 8 + 1).toNat ((lastWhole + 1) * 8) (n + countBits whole)

/-- `BitCount` on the string stored at the key, if any. -/
def bitCount (stored : Option Bytes) (r : BitRange) : Comp ℕ :=
  match stored with
  | none => pure 0
  | some str =>
    if !r.present then pure (countBits str)
    else if r.bits then
      match resolveByteRange r.start r.stop (wrap (str.length * 8)) with
      | none => pure 0
      | some (start, stop) => countBitsInBitRange str start stop
    else
      match resolveByteRange r.start r.stop str.length with
      | none => pure 0
      | some (start, stop) => do
        let range ← slice str start (stop + 1)
        pure (countBits range)

/-- The loop of `BitPos`. -/
def findFrom (b : Bytes) (want : Bool) : ℕ → ℤ → Comp (Option ℤ)
  | 0, _ => pure none
  | left + 1, i => do
    let on ← testBit b i
    if on = want then pure (some i) else findFrom b want left (i + 1)

/-- The bits that `BitPos` looks at; `none` when the range selects nothing. -/
def searched (str : Bytes) (r : BitRange) : Option (ℤ × ℤ) :=
  let totalBits := wrap (str.length * 8)
  if r.present then
    (resolveByteRange r.start r.stop (if r.bits then totalBits else str.length)).map fun p =>
      if r.bits then p else (p.1 * 8, p.2 * 8 + 7)
  else some (0, totalBits - 1)

/-- `BitPos` on the string stored at the key, if any. -/
def bitPos (stored : Option Bytes) (bit : Bool) (r : BitRange) (hasEnd : Bool) : Comp ℤ :=
  match stored with
  | none => pure (if bit then -1 else 0)
  | some str =>
    let totalBits := wrap (str.length * 8)
    match searched str r with
    | none => pure (-1)
    | some (startBit, endBit) => do
      match ← findFrom str bit (min (endBit + 1) totalBits - startBit).toNat startBit with
      | some i => pure i
      | none => pure (if !bit && !hasEnd then totalBits else -1)

section Counting

variable {str : Bytes}

/-- The ones among `k` bits from a position on. -/
def ones (str : Bytes) (a : ℤ) (k : ℕ) : ℕ := (List.range k).countP fun i : ℕ => bitAt str (a + i)

theorem ones_add (str : Bytes) (a : ℤ) (m n : ℕ) : ones str a (m + n) = ones str a m + ones str (a + m) n := by
  unfold ones
  rw [List.range_add, List.countP_append, List.countP_map]
  congr 1
  refine List.countP_congr fun i _ => ?_
  simp [add_assoc]

theorem ones_one (str : Bytes) (a : ℤ) : ones str a 1 = if bitAt str a then 1 else 0 := by
  simp [ones, List.countP_cons]

theorem testBit_result {i : ℤ} (h : 0 ≤ i) (h' : i < 8 * str.length) :
    (testBit str i).result = .ok (bitAt str i) := by
  have hdiv : i.tdiv 8 = i / 8 := Int.tdiv_eq_ediv_of_nonneg h
  have hmod : i.tmod 8 = i % 8 := Int.tmod_eq_emod_of_nonneg h
  have hlt : (i / 8).toNat < str.length := by omega
  have hget := List.getElem?_eq_getElem hlt
  have hbyte : (index str (i / 8)).result = .ok str[(i / 8).toNat] := by
    have := index_result hget
    rwa [Int.toNat_of_nonneg (by omega)] at this
  have hmask : (bitMask (i % 8)).result = .ok (UInt8.ofNat (0x80 >>> (i % 8).toNat)) := by
    unfold bitMask
    rw [if_pos (by omega)]
    rfl
  rw [testBit, hdiv, hmod, bind_result hbyte, bind_result hmask, bitAt, hget]
  rfl

/-- The loops count the ones among the bits that they look at. -/
theorem countFrom_result {left : ℕ} {i : ℤ} (h : 0 ≤ i) (h' : i + left ≤ 8 * str.length) (n : ℕ) :
    (countFrom str left i n).result = .ok (n + ones str i left) := by
  induction left generalizing i n with
  | zero => rfl
  | succ left ih =>
    rw [countFrom, bind_result (testBit_result h (by omega)), ih (by omega) (by omega), Nat.add_comm left,
      ones_add, ones_one, Nat.cast_one]
    split_ifs <;> congr 1 <;> omega

theorem countBits_eq_sum (b : Bytes) : countBits b = (b.map onesCount8).sum := by
  have hloop : ∀ n, b.foldl (fun n c => n + onesCount8 c) n = n + (b.map onesCount8).sum := by
    induction b with
    | nil => exact fun n => rfl
    | cons c b ih =>
      intro n
      rw [List.foldl_cons, ih, List.map_cons, List.sum_cons, Nat.add_assoc]
  rw [countBits, hloop, Nat.zero_add]

theorem ones_byte {j : ℕ} (h : j < str.length) : ones str (8 * j) 8 = onesCount8 str[j] := by
  unfold ones onesCount8
  refine List.countP_congr fun r hr => ?_
  have hr8 := List.mem_range.1 hr
  have hdiv : ((8 * j + r : ℤ) / 8).toNat = j := by omega
  have hmod : ((8 * j + r : ℤ) % 8).toNat = r := by omega
  rw [bitAt, hdiv, hmod, List.getElem?_eq_getElem h]

theorem countBits_slice {lo k : ℕ} (h : lo + k ≤ str.length) :
    countBits ((str.drop lo).take k) = ones str (8 * lo) (8 * k) := by
  induction k with
  | zero => rfl
  | succ k ih =>
    have hlt : lo + k < str.length := by omega
    have hget : (str.drop lo)[k]? = some str[lo + k] := by
      rw [List.getElem?_drop, List.getElem?_eq_getElem hlt]
    have hbyte := ones_byte hlt
    have hplace : (8 * lo : ℤ) + ((8 * k : ℕ) : ℤ) = 8 * ((lo + k : ℕ) : ℤ) := by push_cast; ring
    rw [countBits_eq_sum] at ih ⊢
    rw [List.take_add_one, hget, List.map_append, List.sum_append, ih (by omega), Nat.mul_add, ones_add, hplace,
      hbyte]
    simp

theorem slice_ones {lo hi : ℤ} (h : 0 ≤ lo) (h' : lo ≤ hi) (h'' : hi ≤ str.length) :
    ∃ b, (slice str lo hi).result = .ok b ∧ countBits b = ones str (8 * lo) (8 * (hi - lo)).toNat := by
  refine ⟨_, slice_result h h' h'', ?_⟩
  have hinside : lo.toNat + (hi.toNat - lo.toNat) ≤ str.length := by omega
  have hcount := countBits_slice hinside
  rw [List.drop_take, hcount]
  congr 1 <;> omega

/-- The count over a range of bits: both ends bit by bit, the middle byte by byte. -/
theorem countBitsInBitRange_result {a b : ℤ} (h : 0 ≤ a) (hab : a ≤ b) (hb : b < 8 * str.length)
    (hlen : 8 * (str.length : ℤ) < 2 ^ 63) :
    (countBitsInBitRange str a b).result = .ok (ones str a (b - a + 1).toNat) := by
  have hfirst : (wrap (a + 7)).tdiv 8 = (a + 7) / 8 := by
    rw [wrap_of_range (by omega) (by omega), Int.tdiv_eq_ediv_of_nonneg (by omega)]
  have hlast : (wrap (b + 1)).tdiv 8 = (b + 1) / 8 := by
    rw [wrap_of_range (by omega) (by omega), Int.tdiv_eq_ediv_of_nonneg (by omega)]
  unfold countBitsInBitRange
  rw [hfirst, hlast]
  dsimp only
  split_ifs with hshort
  · rw [countFrom_result h (by omega), Nat.zero_add]
  · have hsplit : (b - a + 1).toNat = ((a + 7) / 8 * 8 - a).toNat + ((8 * ((b + 1) / 8 - (a + 7) / 8)).toNat +
        (b - (b + 1) / 8 * 8 + 1).toNat) := by omega
    have hwhole : (a + 7) / 8 ≤ (b + 1) / 8 := by omega
    have hinside : (b + 1) / 8 ≤ str.length := by omega
    obtain ⟨whole, hslice, hones⟩ := slice_ones (by omega) hwhole hinside
    have hmid : (a + 7) / 8 * 8 = a + ((a + 7) / 8 * 8 - a).toNat := by omega
    have hend : (b + 1) / 8 * 8 = a + ((a + 7) / 8 * 8 - a).toNat +
        (8 * ((b + 1) / 8 - (a + 7) / 8)).toNat := by omega
    rw [bind_result (countFrom_result h (by omega) 0), sub_add_cancel, bind_result hslice,
      countFrom_result (by omega) (by omega), hsplit, ones_add, ones_add, hones, Nat.zero_add, Nat.add_assoc,
      ← hend, ← hmid, mul_comm 8]

end Counting

section Ranges

variable {str : Bytes} {r : BitRange}

/-- The first and the last index of a range over `n`, negative ones counted from the end. -/
def firstIndex (start n : ℤ) : ℤ := max 0 (if start < 0 then start + n else start)

def lastIndex (stop n : ℤ) : ℤ := min (n - 1) (if stop < 0 then stop + n else stop)

/-- The first and the last bit that a range selects. -/
def BitRange.firstBit (r : BitRange) (str : Bytes) : ℤ :=
  if r.present then if r.bits then firstIndex r.start (8 * str.length) else 8 * firstIndex r.start str.length
  else 0

def BitRange.lastBit (r : BitRange) (str : Bytes) : ℤ :=
  if r.present then if r.bits then lastIndex r.stop (8 * str.length) else 8 * lastIndex r.stop str.length + 7
  else 8 * str.length - 1

/-- The bit positions that a range selects. -/
noncomputable def BitRange.positions (r : BitRange) (str : Bytes) : Finset ℤ :=
  Finset.Icc (r.firstBit str) (r.lastBit str)

/-- Operands of 64 bits. -/
structure BitRange.Int64 (r : BitRange) : Prop where
  start_min : minInt64 ≤ r.start
  start_max : r.start ≤ maxInt64
  stop_min : minInt64 ≤ r.stop
  stop_max : r.stop ≤ maxInt64

theorem resolveByteRange_eq {start stop n : ℤ} (hstart : minInt64 ≤ start) (hstop : minInt64 ≤ stop) (hn : 0 ≤ n)
    (hn' : n < 2 ^ 63) : resolveByteRange start stop n =
      if firstIndex start n ≤ lastIndex stop n then some (firstIndex start n, lastIndex stop n) else none := by
  unfold minInt64 at hstart hstop
  have hs : (if start < 0 then wrap (start + n) else start) = if start < 0 then start + n else start := by
    split_ifs
    · exact wrap_of_range (by omega) (by omega)
    · rfl
  have ht : (if stop < 0 then wrap (stop + n) else stop) = if stop < 0 then stop + n else stop := by
    split_ifs
    · exact wrap_of_range (by omega) (by omega)
    · rfl
  unfold resolveByteRange
  rw [hs, ht]
  unfold firstIndex lastIndex
  dsimp only
  generalize (if start < 0 then start + n else start) = a
  generalize (if stop < 0 then stop + n else stop) = b
  have hlast : (if n ≤ b then n - 1 else b) = min (n - 1) b := by
    split_ifs <;> omega
  rw [hlast, max_comm a 0]
  by_cases hle : max 0 a ≤ min (n - 1) b
  · rw [if_neg (by omega), if_pos hle]
  · rw [if_pos (by omega), if_neg hle]

/-- The ones among consecutive positions. -/
theorem card_filter_bitAt (str : Bytes) (a b : ℤ) :
    ((Finset.Icc a b).filter fun i => bitAt str i = true).card = ones str a (b - a + 1).toNat := by
  have hinj : Function.Injective fun n : ℕ => a + n := fun m n h => by simpa using h
  have himage : Finset.Icc a b = (Finset.range (b - a + 1).toNat).image fun n : ℕ => a + n := by
    ext i
    simp only [Finset.mem_Icc, Finset.mem_image, Finset.mem_range]
    constructor
    · rintro ⟨hai, hib⟩
      exact ⟨(i - a).toNat, by omega, by omega⟩
    · rintro ⟨n, hn, rfl⟩
      omega
  rw [himage, Finset.filter_image, Finset.card_image_of_injective _ hinj, ones, List.countP_eq_length_filter]
  simp only [Finset.filter, Finset.card, Finset.range_val, Multiset.range, Multiset.filter_coe,
    Multiset.coe_card, Bool.decide_eq_true]

theorem wrap_bits (hlen : 8 * (str.length : ℤ) < 2 ^ 63) : wrap (str.length * 8) = 8 * str.length := by
  rw [wrap_of_range (by omega) (by omega), mul_comm]

theorem firstBit_nonneg (r : BitRange) (str : Bytes) : 0 ≤ r.firstBit str := by
  have (start n : ℤ) : 0 ≤ firstIndex start n := le_max_left _ _
  unfold BitRange.firstBit
  split_ifs
  · exact this _ _
  · exact mul_nonneg (by decide) (this _ _)
  · exact le_rfl

theorem lastBit_lt (r : BitRange) (str : Bytes) : r.lastBit str < 8 * str.length := by
  have (stop n : ℤ) : lastIndex stop n ≤ n - 1 := min_le_left _ _
  have hbits := this r.stop (8 * str.length)
  have hbytes := this r.stop str.length
  unfold BitRange.lastBit
  split_ifs <;> omega

theorem bitCount_result (hr : r.Int64) (hlen : 8 * (str.length : ℤ) < 2 ^ 63) :
    (bitCount (some str) r).result =
      .ok ((r.positions str).filter fun i => bitAt str i = true).card := by
  have hfirst := firstBit_nonneg r str
  have hlast := lastBit_lt r str
  rw [BitRange.positions, card_filter_bitAt]
  unfold bitCount BitRange.firstBit BitRange.lastBit at *
  dsimp only
  rw [wrap_bits hlen]
  by_cases hpresent : r.present = true
  · rw [if_neg (by simp [hpresent])]
    rw [if_pos hpresent] at hfirst hlast
    rw [if_pos hpresent, if_pos hpresent]
    by_cases hbits : r.bits = true
    · rw [if_pos hbits] at hfirst hlast
      rw [if_pos hbits, if_pos hbits, if_pos hbits, resolveByteRange_eq hr.start_min hr.stop_min (by omega) hlen]
      by_cases hle : firstIndex r.start (8 * str.length) ≤ lastIndex r.stop (8 * str.length)
      · rw [if_pos hle]
        exact countBitsInBitRange_result hfirst hle hlast hlen
      · rw [if_neg hle, Int.toNat_of_nonpos (by omega)]
        rfl
    · rw [if_neg hbits] at hfirst hlast
      rw [if_neg hbits, if_neg hbits, if_neg hbits,
        resolveByteRange_eq hr.start_min hr.stop_min (by omega) (by omega)]
      by_cases hle : firstIndex r.start str.length ≤ lastIndex r.stop str.length
      · have hupto : firstIndex r.start str.length ≤ lastIndex r.stop str.length + 1 := by omega
        have hinside : lastIndex r.stop str.length + 1 ≤ str.length := by omega
        obtain ⟨b, hslice, hones⟩ := slice_ones (by omega) hupto hinside
        rw [if_pos hle]
        dsimp only
        rw [bind_result hslice]
        show Except.ok _ = _
        rw [hones]
        congr 2
        omega
      · rw [if_neg hle, Int.toNat_of_nonpos (by omega)]
        rfl
  · rw [if_pos (by simp [hpresent]), if_neg hpresent, if_neg hpresent]
    have hwhole : countBits str = ones str 0 (8 * str.length) := by
      have := countBits_slice (Nat.zero_add str.length).le
      simpa using this
    show Except.ok _ = _
    rw [hwhole]
    congr 2
    omega

theorem searched_eq (hr : r.Int64) (hlen : 8 * (str.length : ℤ) < 2 ^ 63) (hle : r.firstBit str ≤ r.lastBit str) :
    searched str r = some (r.firstBit str, r.lastBit str) := by
  unfold searched BitRange.firstBit BitRange.lastBit at *
  dsimp only
  rw [wrap_bits hlen]
  by_cases hpresent : r.present = true
  · simp only [hpresent, if_true] at hle ⊢
    by_cases hbits : r.bits = true
    · simp only [hbits, if_true] at hle ⊢
      rw [resolveByteRange_eq hr.start_min hr.stop_min (by omega) hlen, if_pos hle]
      rfl
    · simp only [hbits, Bool.false_eq_true, if_false] at hle ⊢
      rw [resolveByteRange_eq hr.start_min hr.stop_min (by omega) (by omega), if_pos (by omega), Option.map_some,
        mul_comm, mul_comm (lastIndex _ _)]
  · simp [hpresent]

theorem findFrom_result (want : Bool) {left : ℕ} {i : ℤ} (h : 0 ≤ i) (h' : i + left ≤ 8 * str.length) :
    (∃ p, (findFrom str want left i).result = .ok (some p) ∧
      IsLeast {q | (i ≤ q ∧ q < i + left) ∧ bitAt str q = want} p) ∨
    ((findFrom str want left i).result = .ok none ∧ ∀ q, i ≤ q → q < i + left → bitAt str q ≠ want) := by
  induction left generalizing i with
  | zero => exact .inr ⟨rfl, fun q hlow hhigh => by omega⟩
  | succ left ih =>
    rw [findFrom, bind_result (testBit_result h (by omega))]
    by_cases hon : bitAt str i = want
    · rw [if_pos hon]
      exact .inl ⟨i, rfl, ⟨⟨le_rfl, by omega⟩, hon⟩, fun q hq => hq.1.1⟩
    · rw [if_neg hon]
      have hskip {q : ℤ} (hq : i ≤ q) (hbit : bitAt str q = want) : i + 1 ≤ q := by
        have hne : q ≠ i := by
          rintro rfl
          exact hon hbit
        omega
      have hinside : i + 1 + left ≤ 8 * str.length := by omega
      rcases ih (by omega) hinside with ⟨p, hrun, hleast⟩ | ⟨hrun, hnone⟩
      · obtain ⟨⟨⟨hlow, hhigh⟩, hbit⟩, hmin⟩ := hleast
        refine .inl ⟨p, hrun, ⟨⟨by omega, by omega⟩, hbit⟩, fun q hq => hmin ⟨⟨hskip hq.1.1 hq.2, ?_⟩, hq.2⟩⟩
        have := hq.1.2
        omega
      · refine .inr ⟨hrun, fun q hlow hhigh hbit => hnone q (hskip hlow hbit) (by omega) hbit⟩

theorem bitPos_result (hr : r.Int64) (hlen : 8 * (str.length : ℤ) < 2 ^ 63) (hle : r.firstBit str ≤ r.lastBit str)
    (want hasEnd : Bool) :
    (∃ p, (bitPos (some str) want r hasEnd).result = .ok p ∧
      IsLeast {q | q ∈ r.positions str ∧ bitAt str q = want} p) ∨
    ((∀ q ∈ r.positions str, bitAt str q ≠ want) ∧ (bitPos (some str) want r hasEnd).result =
      .ok (if want = false ∧ hasEnd = false then 8 * str.length else -1)) := by
  have hfirst := firstBit_nonneg r str
  have hlast := lastBit_lt r str
  have hend : min (r.lastBit str + 1) (8 * (str.length : ℤ)) = r.lastBit str + 1 := min_eq_left (by omega)
  have hmem (q : ℤ) : q ∈ r.positions str ↔
      r.firstBit str ≤ q ∧ q < r.firstBit str + (r.lastBit str + 1 - r.firstBit str).toNat := by
    rw [BitRange.positions, Finset.mem_Icc]
    omega
  have hinside : r.firstBit str + (r.lastBit str + 1 - r.firstBit str).toNat ≤ 8 * str.length := by omega
  unfold bitPos
  dsimp only
  rw [searched_eq hr hlen hle, wrap_bits hlen]
  dsimp only
  rw [hend]
  simp only [hmem]
  rcases findFrom_result want hfirst hinside with ⟨p, hrun, hleast⟩ | ⟨hrun, hnone⟩
  · rw [bind_result hrun]
    exact .inl ⟨p, rfl, hleast⟩
  · rw [bind_result hrun]
    refine .inr ⟨fun q hq => hnone q hq.1 hq.2, ?_⟩
    cases want <;> cases hasEnd <;> rfl

end Ranges

section Combining

variable {S : Type} [Numeric S]

/-- What BITOP makes of one bit of each source. -/
def BitOpKind.onBits : BitOpKind → List Bool → Bool
  | .and, bits => bits.all id
  | .or, bits => bits.any id
  | .xor, bits => bits.foldl Bool.xor false
  | .not, bits => !(bits.headD false)

/-- The string of a source, empty for a missing key; `none` for another type. -/
def sourceString : Option (Entry S) → Option Bytes
  | some ⟨.str b, _⟩ => some b
  | some _ => none
  | none => some []

theorem sourceString_cases {e : Option (Entry S)} {v : Bytes} (h : sourceString e = some v) :
    (∃ d, e = some ⟨.str v, d⟩) ∨ e = none ∧ v = [] := by
  unfold sourceString at h
  split at h
  · exact .inl ⟨_, by rw [Option.some.inj h]⟩
  · cases h
  · exact .inr ⟨rfl, (Option.some.inj h).symm⟩

theorem readStrings_run {vis : Entry S → Bool} {s : Dataset S} {srcs : List Loc} {values : List Bytes}
    (h : srcs.map (fun k => sourceString (seen vis s k)) = values.map some) :
    (readStrings srcs).run vis s = (.ok values, s) := by
  induction srcs generalizing values with
  | nil =>
    obtain rfl : values = [] := by simpa using h.symm
    rfl
  | cons k ks ih =>
    cases values with
    | nil => cases h
    | cons v values =>
      obtain ⟨hv, hvs⟩ := List.cons.inj h
      have hrest := ih hvs
      rw [readStrings, Prog.run_read]
      rcases sourceString_cases hv with ⟨d, hstr⟩ | ⟨hnone, rfl⟩
      · rw [hstr]
        simp [hrest]
      · rw [hnone]
        simp [hrest]

theorem getLsbD_combined {op : BitOpKind} (hop : op ≠ .not) (b : UInt8) (rest : List Bytes) (i j : ℕ) :
    (rest.foldl (fun acc v => op.combine acc (byteAt v i)) b).toBitVec.getLsbD j =
      op.onBits (b.toBitVec.getLsbD j :: rest.map fun v => (byteAt v i).toBitVec.getLsbD j) := by
  induction rest generalizing b with
  | nil => cases op <;> simp [BitOpKind.onBits] at hop ⊢
  | cons v rest ih =>
    rw [List.foldl_cons, ih]
    cases op with
    | and => simp [BitOpKind.onBits, BitOpKind.combine, Bool.and_assoc]
    | or => simp [BitOpKind.onBits, BitOpKind.combine, Bool.or_assoc]
    | xor => simp [BitOpKind.onBits, BitOpKind.combine]
    | not => exact absurd rfl hop

def longest (values : List Bytes) : ℕ := (values.map List.length).foldl max 0

theorem result_length {op : BitOpKind} {values : List Bytes} (hne : values ≠ []) :
    (op.result values).length = longest values := by
  cases values with
  | nil => exact absurd rfl hne
  | cons first rest => cases op <;> simp [BitOpKind.result, longest]

theorem bitAt_result {op : BitOpKind} {values : List Bytes} (hnot : op = .not → values.length = 1) {pos : ℤ}
    (h : 0 ≤ pos) (h' : pos < 8 * longest values) :
    bitAt (op.result values) pos = op.onBits (values.map fun v => bitAt v pos) := by
  cases values with
  | nil => exact absurd h' (by simp [longest]; omega)
  | cons first rest =>
    have hi : (pos / 8).toNat < longest (first :: rest) := by omega
    have hbyte (f : ℕ → UInt8) : byteAt ((List.range (longest (first :: rest))).map f) (pos / 8).toNat =
        f (pos / 8).toNat := by
      rw [byteAt, List.getD_eq_getElem?_getD, List.getElem?_map, List.getElem?_range hi]
      rfl
    simp only [bitAt_eq]
    by_cases hop : op = .not
    · obtain rfl : rest = [] := by simpa using hnot hop
      subst hop
      have hresult : BitOpKind.result .not [first] =
          (List.range (longest [first])).map fun i => ~~~byteAt first i := rfl
      have hplace : 7 - (pos % 8).toNat < 8 := by omega
      rw [hresult, hbyte, UInt8.toBitVec_not, BitVec.getLsbD_not, decide_eq_true hplace, Bool.true_and]
      rfl
    · have hresult : BitOpKind.result op (first :: rest) = (List.range (longest (first :: rest))).map fun i =>
          rest.foldl (fun acc v => op.combine acc (byteAt v i)) (byteAt first i) := by
        cases op <;> first | rfl | exact absurd rfl hop
      rw [hresult, hbyte, getLsbD_combined hop]
      rfl

/-- BITOP stores the combination of its sources, whichever keys they are. -/
theorem bitOp_run {vis : Entry S → Bool} {s : Dataset S} {op : BitOpKind} (dst : Loc) {srcs : List Loc}
    {values : List Bytes} (hsrcs : srcs ≠ []) (h : srcs.map (fun k => sourceString (seen vis s k)) = values.map some)
    (hmax : longest values ≤ maxStringLen) :
    ((bitOp op dst srcs).run vis s).1 = .ok (longest values : ℤ) ∧
      ((bitOp op dst srcs).run vis s).2 = Function.update s dst
        (if longest values = 0 then none else some ⟨.str (op.result values), none⟩) := by
  have hlength : values.length = srcs.length := by simpa using (congrArg List.length h).symm
  have hne : values ≠ [] := fun hnil => hsrcs (List.length_eq_zero_iff.1 (by rw [← hlength, hnil]; rfl))
  have hout : (op.result values).length = longest values := result_length hne
  unfold bitOp
  rw [Prog.run_bind, readStrings_run h]
  dsimp only
  rw [if_neg (show ¬ maxStringLen < ((values.map List.length).foldl max 0 : ℕ) from not_lt.2 hmax)]
  by_cases hzero : longest values = 0
  · rw [if_pos (List.isEmpty_iff_length_eq_zero.2 (hout.trans hzero)), if_pos hzero, hzero]
    simp
  · have hfull : (op.result values).isEmpty = false := by
      rw [Bool.eq_false_iff, Ne, List.isEmpty_iff_length_eq_zero, hout]
      exact hzero
    rw [if_neg (by simp [hfull]), if_neg hzero]
    simp [hout]

end Combining

/-- Counting, searching and combining bits agree with single bits. The bits of a value in memory are
numbered by `int64`, which is what the bound on its length says. -/
theorem bitmap_queries {S : Type} [Numeric S] :
    (∀ (str : Bytes) (r : BitRange), 8 * (str.length : ℤ) < 2 ^ 63 → r.Int64 →
      (bitCount (some str) r).result = .ok ((r.positions str).filter fun i => bitAt str i = true).card) ∧
    (∀ (str : Bytes) (r : BitRange) (want hasEnd : Bool), 8 * (str.length : ℤ) < 2 ^ 63 → r.Int64 → str ≠ [] →
      (r.positions str).Nonempty →
      (∃ p, (bitPos (some str) want r hasEnd).result = .ok p ∧
        IsLeast {q | q ∈ r.positions str ∧ bitAt str q = want} p) ∨
      ((∀ q ∈ r.positions str, bitAt str q ≠ want) ∧ (bitPos (some str) want r hasEnd).result =
        .ok (if want = false ∧ hasEnd = false then 8 * str.length else -1))) ∧
    ∀ (vis : Entry S → Bool) (s : Dataset S) (op : BitOpKind) (dst : Loc) (srcs : List Loc) (values : List Bytes),
      srcs ≠ [] → (op = .not → srcs.length = 1) →
      srcs.map (fun k => sourceString (seen vis s k)) = values.map some → longest values ≤ maxStringLen →
      ((bitOp op dst srcs).run vis s).1 = .ok (longest values : ℤ) ∧
        ∃ out, out.length = longest values ∧ ((bitOp op dst srcs).run vis s).2 = Function.update s dst
          (if out = [] then none else some ⟨.str out, none⟩) ∧
          ∀ pos : ℤ, 0 ≤ pos → pos < 8 * out.length → bitAt out pos = op.onBits (values.map fun v => bitAt v pos) := by
  refine ⟨fun str r hlen hr => bitCount_result hr hlen, fun str r want hasEnd hlen hr _ hne => ?_,
    fun vis s op dst srcs values hsrcs hnot h hmax => ?_⟩
  · exact bitPos_result hr hlen (Finset.nonempty_Icc.1 hne) want hasEnd
  · have hlength : values.length = srcs.length := by simpa using (congrArg List.length h).symm
    have hne : values ≠ [] := fun hnil => hsrcs (List.length_eq_zero_iff.1 (by rw [← hlength, hnil]; rfl))
    have hout : (op.result values).length = longest values := result_length hne
    obtain ⟨hreply, hstore⟩ := bitOp_run dst hsrcs h hmax
    refine ⟨hreply, op.result values, hout, ?_, fun pos hpos hlt => ?_⟩
    · rw [hstore, if_congr (by rw [← hout, List.length_eq_zero_iff]) rfl rfl]
    · exact bitAt_result (fun hop => hlength.trans (hnot hop)) hpos (by rwa [hout] at hlt)

/-- Two bytes of three are counted, and a byte of ones is searched for a zero. -/
theorem bitmap_queries_at :
    (∃ n, (bitCount (some [0xff, 0x01, 0xf0]) ⟨-2, -1, false, true⟩).result = .ok n ∧ n = 5) ∧
    (bitPos (some [0xff]) false ⟨0, -1, false, true⟩ false).result = .ok 8 := by
  obtain ⟨hcount, hpos, -⟩ := bitmap_queries (S := ℤ)
  have hints : BitRange.Int64 ⟨-2, -1, false, true⟩ := ⟨by decide, by decide, by decide, by decide⟩
  have hints' : BitRange.Int64 ⟨0, -1, false, true⟩ := ⟨by decide, by decide, by decide, by decide⟩
  refine ⟨⟨_, hcount _ _ (by decide) hints, by decide⟩, ?_⟩
  rcases hpos [0xff] ⟨0, -1, false, true⟩ false false (by decide) hints' (by decide) ⟨0, by decide⟩ with
    ⟨p, -, ⟨hmem, hbit⟩, -⟩ | ⟨-, hnone⟩
  · revert p
    decide
  · exact hnone

end ShardKV.Commands
