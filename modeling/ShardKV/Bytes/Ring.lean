import Mathlib.Data.List.Basic
import Mathlib.Tactic.Common
import Mathlib.Data.Int.Init

/-! A ring that retains the tail of a sequence. What goes in is counted by absolute
offsets, `start` and `stop` bound what is still there, and a read from an offset in
between returns everything that went in from there on. A ring without cells retains
nothing and still counts. -/

namespace ShardKV

/-- The cells, the offset of the oldest element retained, the offset behind the newest
one, and the cell that is written next. -/
structure Ring (α : Type) where
  cells : List α
  start : ℕ
  stop : ℕ
  cursor : ℕ

namespace Ring

variable {α : Type}

/-- Go's `copy` into a slice from an index on: as much as fits. -/
def copyAt (cells : List α) (at_ : ℕ) (p : List α) : List α :=
  cells.take at_ ++ p.take (cells.length - at_) ++ cells.drop (at_ + p.length)

/-- Two copies: up to the end of the cells, and the rest from their beginning on. -/
def copyAround (cells : List α) (cursor : ℕ) (p : List α) : List α :=
  let n := min p.length (cells.length - cursor)
  let once := copyAt cells cursor p
  if n < p.length then copyAt once 0 (p.drop n) else once

/-- Put a sequence in, its tail only when it is longer than the ring. -/
def feed (b : Ring α) (p : List α) : Ring α :=
  let stop := b.stop + p.length
  if b.cells.length = 0 then { b with stop := stop, start := stop }
  else
    let (p, cursor) := if b.cells.length ≤ p.length then (p.drop (p.length - b.cells.length), 0)
      else (p, b.cursor)
    { cells := copyAround b.cells cursor p
      stop := stop
      cursor := (cursor + p.length) % b.cells.length
      start := if b.cells.length < stop - b.start then stop - b.cells.length else b.start }

/-- Everything from an offset on, when all of it is retained. The index goes through
Go's remainder, which keeps the sign. -/
def read (b : Ring α) (offset : ℤ) : Option (List α) :=
  if (b.stop : ℤ) < offset ∨ offset < b.start then none
  else
    let n := (b.stop - offset).toNat
    if n = 0 then some []
    else
      let len : ℤ := b.cells.length
      let begin_ := ((((b.cursor : ℤ) - n).tmod len + len).tmod len).toNat
      let out := (b.cells.drop begin_).take n
      some (if out.length < n then out ++ b.cells.take (n - out.length) else out)

/-- The cell that is `d` behind the cursor. -/
def behind (cap cursor d : ℕ) : ℕ := if d ≤ cursor then cursor - d else cursor + cap - d

/-- The ring has seen the sequence and retains a tail of it. -/
structure Holds (b : Ring α) (fed : List α) : Prop where
  stop_eq : b.stop = fed.length
  start_le : b.start ≤ b.stop
  retained : b.stop - b.start ≤ b.cells.length
  cursor_lt : b.cells.length ≠ 0 → b.cursor < b.cells.length
  cell : ∀ i, b.start ≤ i → i < b.stop → b.cells[behind b.cells.length b.cursor (b.stop - i)]? = fed[i]?

theorem length_copyAt (cells : List α) {at_ : ℕ} (h : at_ ≤ cells.length) (p : List α) :
    (copyAt cells at_ p).length = cells.length := by
  simp only [copyAt, List.length_append, List.length_take, List.length_drop]
  omega

theorem getElem?_copyAt (cells : List α) {at_ : ℕ} (h : at_ ≤ cells.length) (p : List α) (j : ℕ) :
    (copyAt cells at_ p)[j]? =
      if at_ ≤ j ∧ j < at_ + p.length ∧ j < cells.length then p[j - at_]? else cells[j]? := by
  have htake : (cells.take at_).length = at_ := by rw [List.length_take]; omega
  unfold copyAt
  by_cases hbefore : j < at_
  · rw [List.append_assoc, List.getElem?_append_left (by omega), List.getElem?_take_of_lt hbefore,
      if_neg (by omega)]
  by_cases hin : j < at_ + p.length ∧ j < cells.length
  · rw [List.getElem?_append_left (by simp only [List.length_append, List.length_take]; omega),
      List.getElem?_append_right (by omega), htake, List.getElem?_take_of_lt (by omega),
      if_pos ⟨by omega, hin⟩]
  · rw [if_neg (by omega)]
    by_cases hlen : j < cells.length
    · have hmid : (cells.take at_ ++ p.take (cells.length - at_)).length = at_ + p.length := by
        simp only [List.length_append, List.length_take]
        omega
      rw [List.getElem?_append_right (by omega), hmid, List.getElem?_drop]
      congr 1
      omega
    · rw [List.getElem?_eq_none (show cells.length ≤ j by omega)]
      refine List.getElem?_eq_none ?_
      simp only [List.length_append, List.length_take, List.length_drop]
      omega

theorem length_copyAround (cells : List α) {cursor : ℕ} (h : cursor ≤ cells.length) (p : List α) :
    (copyAround cells cursor p).length = cells.length := by
  unfold copyAround
  dsimp only
  split_ifs
  · rw [length_copyAt _ (Nat.zero_le _), length_copyAt _ h]
  · exact length_copyAt _ h p

theorem getElem?_copyAround (cells : List α) {cursor : ℕ} (h : cursor < cells.length) {p : List α}
    (hp : p.length ≤ cells.length) {j : ℕ} (hj : j < cells.length) :
    (copyAround cells cursor p)[j]? =
      if cursor ≤ j ∧ j < cursor + p.length then p[j - cursor]?
      else if j + cells.length < cursor + p.length then p[j + cells.length - cursor]?
      else cells[j]? := by
  have honce := getElem?_copyAt cells (Nat.le_of_lt h) p j
  unfold copyAround
  dsimp only
  by_cases hwrap : min p.length (cells.length - cursor) < p.length
  · rw [if_pos hwrap, getElem?_copyAt _ (Nat.zero_le _), length_copyAt _ (Nat.le_of_lt h), honce,
      List.length_drop, List.getElem?_drop]
    by_cases hj2 : j + cells.length < cursor + p.length
    · rw [if_pos (by omega), if_neg (by omega), if_pos hj2]
      congr 1
      omega
    · rw [if_neg (by omega), if_neg hj2]
      by_cases hin : cursor ≤ j
      · rw [if_pos (by omega), if_pos (by omega)]
      · rw [if_neg (by omega), if_neg (by omega)]
  · rw [if_neg hwrap, honce]
    by_cases hin : cursor ≤ j ∧ j < cursor + p.length
    · rw [if_pos (by omega), if_pos hin]
    · rw [if_neg (by omega), if_neg hin, if_neg (by omega)]

/-- The cells after a sequence that fits went in, seen from the new cursor. -/
theorem getElem?_behind_copyAround (cells : List α) {cursor : ℕ} (h : cursor < cells.length) {p : List α}
    (hp : p.length ≤ cells.length) {d : ℕ} (hd : 1 ≤ d) (hdlen : d ≤ cells.length) :
    (copyAround cells cursor p)[behind cells.length ((cursor + p.length) % cells.length) d]? =
      if d ≤ p.length then p[p.length - d]? else cells[behind cells.length cursor (d - p.length)]? := by
  have hmod : (cursor + p.length) % cells.length =
      if cursor + p.length < cells.length then cursor + p.length else cursor + p.length - cells.length := by
    split_ifs with hlt
    · exact Nat.mod_eq_of_lt hlt
    · rw [Nat.mod_eq_sub_mod (by omega)]
      by_cases hfull : cursor + p.length - cells.length < cells.length
      · exact Nat.mod_eq_of_lt hfull
      · omega
  have hj : behind cells.length ((cursor + p.length) % cells.length) d < cells.length := by
    unfold behind
    rw [hmod]
    split_ifs <;> omega
  rw [getElem?_copyAround cells h hp hj]
  unfold behind
  rw [hmod]
  split_ifs <;> first | omega | (congr 1; omega)

/-- What is written of a sequence and where: all of it at the cursor, or a tail that
fills the cells. -/
theorem feed_written (b : Ring α) (p : List α) (hcur : b.cursor < b.cells.length) :
    ∃ q c, (if b.cells.length ≤ p.length then (p.drop (p.length - b.cells.length), 0)
        else (p, b.cursor)) = (q, c) ∧ q = p.drop (p.length - q.length) ∧ q.length ≤ p.length ∧
      q.length ≤ b.cells.length ∧ c < b.cells.length ∧
        (q.length = p.length ∧ c = b.cursor ∨ q.length = b.cells.length) := by
  split_ifs with hlong
  · have hq : (p.drop (p.length - b.cells.length)).length = b.cells.length := by
      rw [List.length_drop]
      omega
    exact ⟨_, 0, rfl, by rw [hq], by omega, by omega, by omega, .inr hq⟩
  · exact ⟨p, b.cursor, rfl, by simp, Nat.le_refl _, by omega, hcur, .inl ⟨rfl, rfl⟩⟩

theorem Holds.feed {b : Ring α} {fed : List α} (h : b.Holds fed) (p : List α) :
    (b.feed p).Holds (fed ++ p) := by
  obtain ⟨hstop, hle, hret, hcur, hcell⟩ := h
  unfold Ring.feed
  dsimp only
  by_cases hcap : b.cells.length = 0
  · rw [if_pos hcap]
    refine ⟨by rw [List.length_append, hstop], Nat.le_refl _, by simp, fun hne => absurd hcap hne, ?_⟩
    intro i hi hi'
    dsimp only at hi hi'
    omega
  obtain ⟨q, c, hqc, hdrop, hqp, hqcap, hc, hcase⟩ := feed_written b p (hcur hcap)
  rw [if_neg hcap, hqc]
  dsimp only
  have hlen := length_copyAround b.cells (Nat.le_of_lt hc) q
  refine ⟨by rw [List.length_append, hstop], ?_, ?_, ?_, ?_⟩
  · dsimp only
    split_ifs <;> omega
  · dsimp only
    rw [hlen]
    split_ifs <;> omega
  · intro _
    dsimp only
    rw [hlen]
    exact Nat.mod_lt _ (by omega)
  · intro i hi hi'
    dsimp only at hi hi' ⊢
    have hd : b.stop + p.length - i ≤ b.cells.length ∧ b.start ≤ i := by
      split_ifs at hi <;> omega
    rw [hlen, getElem?_behind_copyAround b.cells hc hqcap (by omega) hd.1]
    by_cases hnew : b.stop + p.length - i ≤ q.length
    · -- an element of the new sequence
      rw [if_pos hnew, hdrop, List.getElem?_drop, List.length_drop,
        List.getElem?_append_right (by omega)]
      congr 1
      omega
    · have hold := hcell i hd.2 (by omega)
      rw [if_neg hnew, List.getElem?_append_left (by omega), ← hold]
      obtain ⟨hq, rfl⟩ : q.length = p.length ∧ c = b.cursor := by omega
      congr 2
      omega

theorem length_cells_feed {b : Ring α} {fed : List α} (h : b.Holds fed) (p : List α) :
    (b.feed p).cells.length = b.cells.length := by
  unfold Ring.feed
  dsimp only
  by_cases hcap : b.cells.length = 0
  · rw [if_pos hcap]
  · obtain ⟨q, c, hqc, -, -, -, hc, -⟩ := feed_written b p (h.cursor_lt hcap)
    rw [if_neg hcap, hqc]
    exact length_copyAround b.cells (Nat.le_of_lt hc) q

/-- A ring that retains as much as it can keeps doing so. -/
theorem start_feed {b : Ring α} {fed : List α} (h : b.Holds fed)
    (hstart : b.start = b.stop - min b.cells.length b.stop) (p : List α) :
    (b.feed p).start = (b.feed p).stop - min b.cells.length (b.feed p).stop := by
  unfold Ring.feed
  dsimp only
  by_cases hcap : b.cells.length = 0
  · rw [if_pos hcap]
    dsimp only
    omega
  · obtain ⟨q, c, hqc, -⟩ := feed_written b p (h.cursor_lt hcap)
    rw [if_neg hcap, hqc]
    dsimp only
    split_ifs <;> omega

/-- The index at which a read of `n` elements begins. -/
theorem begin_eq {cap cursor n : ℕ} (hcur : cursor < cap) (hn : n ≤ cap) :
    ((((cursor : ℤ) - n).tmod cap + cap).tmod cap).toNat = behind cap cursor n := by
  unfold behind
  split_ifs with hle
  · have hsub : ((cursor : ℤ) - n).tmod cap = (cursor : ℤ) - n := Int.tmod_eq_of_lt (by omega) (by omega)
    rw [hsub, Int.tmod_eq_emod_of_nonneg (by omega), Int.add_emod_right,
      Int.emod_eq_of_lt (by omega) (by omega)]
    omega
  · have hneg : ((cursor : ℤ) - n) = -((n - cursor : ℕ) : ℤ) := by omega
    rw [hneg, Int.neg_tmod]
    by_cases hfull : n - cursor = cap
    · rw [hfull, Int.tmod_self, Int.neg_zero, Int.zero_add, Int.tmod_self]
      omega
    · have hsub : ((n - cursor : ℕ) : ℤ).tmod cap = (n - cursor : ℕ) :=
        Int.tmod_eq_of_lt (by omega) (by omega)
      rw [hsub, Int.tmod_eq_of_lt (by omega) (by omega)]
      omega

/-- The `n` elements behind the cursor, taken in two pieces where they wrap. -/
theorem getElem?_pieces (cells : List α) {cursor n t : ℕ} (hcur : cursor < cells.length)
    (hn : n ≤ cells.length) (ht : t < n) :
    (((cells.drop (behind cells.length cursor n)).take n) ++ cells.take
        (n - ((cells.drop (behind cells.length cursor n)).take n).length))[t]? =
      cells[behind cells.length cursor (n - t)]? := by
  have hb : behind cells.length cursor n < cells.length := by
    unfold behind
    split_ifs <;> omega
  by_cases hpiece : behind cells.length cursor n + t < cells.length
  · rw [List.getElem?_append_left (by rw [List.length_take, List.length_drop]; omega),
      List.getElem?_take_of_lt ht, List.getElem?_drop]
    congr 1
    unfold behind at hpiece ⊢
    split_ifs at hpiece ⊢ <;> omega
  · have hlen : ((cells.drop (behind cells.length cursor n)).take n).length =
        cells.length - behind cells.length cursor n := by
      rw [List.length_take, List.length_drop]
      omega
    rw [hlen, List.getElem?_append_right (by omega), hlen, List.getElem?_take_of_lt (by omega)]
    congr 1
    unfold behind at hpiece ⊢
    split_ifs at hpiece ⊢ <;> omega

/-- A read returns everything from the offset on, exactly for the offsets retained. -/
theorem Holds.read {b : Ring α} {fed : List α} (h : b.Holds fed) (offset : ℤ) :
    b.read offset = if (b.start : ℤ) ≤ offset ∧ offset ≤ b.stop then some (fed.drop offset.toNat)
      else none := by
  obtain ⟨hstop, hle, hret, hcur, hcell⟩ := h
  unfold Ring.read
  by_cases hin : (b.start : ℤ) ≤ offset ∧ offset ≤ b.stop
  · obtain ⟨k, rfl⟩ : ∃ k : ℕ, offset = k := ⟨offset.toNat, by omega⟩
    obtain ⟨n, hn⟩ : ∃ n, ((b.stop : ℤ) - (k : ℤ)).toNat = n := ⟨_, rfl⟩
    rw [if_neg (by omega), if_pos hin]
    dsimp only
    rw [hn, Int.toNat_natCast]
    by_cases hzero : n = 0
    · rw [if_pos hzero, List.drop_eq_nil_of_le (by omega)]
    · have hcur' := hcur (by omega)
      have hpieces := fun t (ht : t < n) => getElem?_pieces b.cells hcur' (n := n) (t := t) (by omega) ht
      rw [if_neg hzero, begin_eq hcur' (by omega), Option.some.injEq]
      have hone : (if ((b.cells.drop (behind b.cells.length b.cursor n)).take n).length < n then
          ((b.cells.drop (behind b.cells.length b.cursor n)).take n) ++ b.cells.take
            (n - ((b.cells.drop (behind b.cells.length b.cursor n)).take n).length)
          else (b.cells.drop (behind b.cells.length b.cursor n)).take n) =
          ((b.cells.drop (behind b.cells.length b.cursor n)).take n) ++ b.cells.take
            (n - ((b.cells.drop (behind b.cells.length b.cursor n)).take n).length) := by
        split_ifs with hshort
        · rfl
        · rw [Nat.sub_eq_zero_of_le (by omega), List.take_zero, List.append_nil]
      rw [hone]
      refine List.ext_getElem? fun t => ?_
      rw [List.getElem?_drop]
      by_cases ht : t < n
      · have hold := hcell (k + t) (by omega) (by omega)
        rw [hpieces t ht, ← hold]
        congr 2
        omega
      · rw [List.getElem?_eq_none (show fed.length ≤ k + t by omega)]
        refine List.getElem?_eq_none ?_
        simp only [List.length_append, List.length_take, List.length_drop]
        omega
  · rw [if_pos (by omega), if_neg hin]

/-- An empty ring of a size that starts to count at an offset. -/
def new (filler : α) (size offset : ℕ) : Ring α := ⟨List.replicate size filler, offset, offset, 0⟩

theorem holds_new (filler : α) (size : ℕ) (fed : List α) : (new filler size fed.length).Holds fed :=
  ⟨rfl, Nat.le_refl _, by simp [new], fun h => Nat.pos_of_ne_zero h,
    fun _ hi hi' => absurd (Nat.lt_of_le_of_lt hi hi') (Nat.lt_irrefl _)⟩

end Ring

end ShardKV
