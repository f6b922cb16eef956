import Mathlib.Tactic.Linarith
import ShardKV.Bytes.Checked
import ShardKV.Bytes.Decimal
import ShardKV.Bytes.Subsequence

/-!
The longest common subsequence of two strings.

`lcs` fills the table of the dynamic program row by row and walks it back from its far
corner. The walk leaves the subsequence and, where asked, the maximal runs of shared bytes,
from the end of both strings towards the start.
-/

namespace ShardKV.Commands

open scoped List
open Checked Subsequence

/-- A run of bytes shared by the two values, as ranges with inclusive ends. -/
structure LcsMatch where
  aStart : ℕ
  aEnd : ℕ
  bStart : ℕ
  bEnd : ℕ
  len : ℕ
  deriving DecidableEq

structure LcsResult where
  seq : Bytes
  len : ℕ
  runs : List LcsMatch
  deriving DecidableEq

/-- The table is one slice of `int32`, a row of `lb + 1` entries for each prefix of `a`. -/
def wrap32 (z : ℤ) : ℤ := (z + 2 ^ 31) % 2 ^ 32 - 2 ^ 31

def tableAt (stride : ℕ) (table : List ℤ) (i j : ℕ) : ℤ := table.getD (i * stride + j) 0

/-- The entry for the first `i` bytes of `a` and the first `j` of `b`. -/
def cell (a b : Bytes) (stride : ℕ) (table : List ℤ) (i j : ℕ) : ℤ :=
  if a.getD (i - 1) 0 = b.getD (j - 1) 0 then wrap32 (tableAt stride table (i - 1) (j - 1) + 1)
  else if tableAt stride table (i - 1) j ≥ tableAt stride table i (j - 1) then tableAt stride table (i - 1) j
  else tableAt stride table i (j - 1)

def fillRow (a b : Bytes) (stride i : ℕ) (js : List ℕ) (table : List ℤ) : List ℤ :=
  js.foldl (fun table j => table.set (i * stride + j) (cell a b stride table i j)) table

def fillTable (a b : Bytes) (stride : ℕ) (is : List ℕ) (table : List ℤ) : List ℤ :=
  is.foldl (fun table i => fillRow a b stride i (List.range' 1 b.length) table) table

/-- What the walk back has found: the bytes from `idx` on, the runs, and the index of the one
being extended, or -1 between runs. -/
structure Walk where
  seq : Bytes
  idx : ℕ
  runs : List LcsMatch
  run : ℤ

/-- The byte at `i` of `a` and `j` of `b` is shared. -/
def Walk.share (wantMatches : Bool) (a : Bytes) (i j : ℕ) (st : Walk) : Walk :=
  let idx := st.idx - 1
  let seq := st.seq.set idx (a.getD i 0)
  if wantMatches then
    let runs := if st.run < 0 then st.runs ++ [⟨0, i, 0, j, 0⟩] else st.runs
    let run := if st.run < 0 then (runs.length : ℤ) - 1 else st.run
    ⟨seq, idx, runs.modify run.toNat fun m => { m with aStart := i, bStart := j, len := m.len + 1 }, run⟩
  else { st with seq := seq, idx := idx }

/-- The walk from the corner `(i, j)`; each turn takes a byte off one string or off both. -/
def walk (wantMatches : Bool) (a b : Bytes) (at' : ℕ → ℕ → ℤ) : ℕ → ℕ → ℕ → Walk → Walk
  | 0, _, _, st => st
  | turns + 1, i, j, st =>
    if i > 0 ∧ j > 0 then
      if a.getD (i - 1) 0 = b.getD (j - 1) 0 then
        walk wantMatches a b at' turns (i - 1) (j - 1) (st.share wantMatches a (i - 1) (j - 1))
      else if at' (i - 1) j > at' i (j - 1) then
        walk wantMatches a b at' turns (i - 1) j { st with run := -1 }
      else walk wantMatches a b at' turns i (j - 1) { st with run := -1 }
    else st

def lcs (a b : Bytes) (wantMatches : Bool) : Comp LcsResult :=
  if a.length = 0 ∨ b.length = 0 then pure ⟨[], 0, []⟩
  else do
    let stride := b.length + 1
    makeCap 4 ((a.length + 1) * stride : ℕ)
    let table := fillTable a b stride (List.range' 1 a.length) (List.replicate ((a.length + 1) * stride) 0)
    let total := tableAt stride table a.length b.length
    if total = 0 then pure ⟨[], total.toNat, []⟩
    else do
      makeCap 1 total
      let st := walk wantMatches a b (tableAt stride table) (a.length + b.length) a.length b.length
        ⟨List.replicate total.toNat 0, total.toNat, [], -1⟩
      pure ⟨st.seq, total.toNat, st.runs⟩

section Table

variable {a b : Bytes} {stride : ℕ} {table : List ℤ} {i j : ℕ}

/-- An entry that says how long the longest common subsequence of two prefixes is. -/
def Right (a b : Bytes) (stride : ℕ) (table : List ℤ) (i j : ℕ) : Prop :=
  ∃ n : ℕ, tableAt stride table i j = n ∧ IsGreatest (commonLengths (a.take i) (b.take j)) n

theorem tableAt_set (hij : i * stride + j < table.length) (hj : j < stride) {i' j' : ℕ} (hj' : j' < stride)
    (v : ℤ) : tableAt stride (table.set (i * stride + j) v) i' j' =
      if i' = i ∧ j' = j then v else tableAt stride table i' j' := by
  unfold tableAt
  by_cases h : i' = i ∧ j' = j
  · obtain ⟨rfl, rfl⟩ := h
    simp [List.getD_eq_getElem?_getD, List.getElem?_set_self hij]
  · have hne : i * stride + j ≠ i' * stride + j' := by
      intro heq
      -- quotient and remainder by the stride
      have hi : i = i' := by
        have := congrArg (· / stride) heq
        simpa [Nat.add_div_of_dvd_right, Nat.div_eq_of_lt hj, Nat.div_eq_of_lt hj', Nat.add_comm,
          Nat.add_mul_div_right _ _ (Nat.zero_lt_of_lt hj)] using this
      subst hi
      exact h ⟨rfl, by omega⟩
    rw [if_neg h, List.getD_eq_getElem?_getD, List.getElem?_set_ne hne, List.getD_eq_getElem?_getD]


theorem take_succ_eq (h : i < a.length) : a.take (i + 1) = a.take i ++ [a.getD i 0] := by
  rw [List.take_add_one, List.getElem?_eq_getElem h, List.getD_eq_getElem?_getD, List.getElem?_eq_getElem h]
  rfl

theorem drop_eq_cons (h : i < a.length) : a.drop i = a.getD i 0 :: a.drop (i + 1) := by
  rw [List.drop_eq_getElem_cons h, List.getD_eq_getElem?_getD, List.getElem?_eq_getElem h]
  rfl

/-- The recurrence, where no length leaves an `int32`. -/
theorem cell_right (hmin : min a.length b.length < 2 ^ 31) (hi : i < a.length) (hj : j < b.length)
    (hdiag : Right a b stride table i j) (hup : Right a b stride table i (j + 1))
    (hleft : Right a b stride table (i + 1) j) :
    ∃ n : ℕ, cell a b stride table (i + 1) (j + 1) = n ∧
      IsGreatest (commonLengths (a.take (i + 1)) (b.take (j + 1))) n := by
  unfold cell
  simp only [Nat.add_sub_cancel]
  by_cases heq : a.getD i 0 = b.getD j 0
  · obtain ⟨n, hn, hgreat⟩ := hdiag
    have hle : n ≤ i := (le_length hgreat).trans (List.length_take_le i a)
    have hle' : n ≤ j := (le_length (isGreatest_comm hgreat)).trans (List.length_take_le j b)
    refine ⟨n + 1, ?_, ?_⟩
    · rw [if_pos heq, hn, wrap32]
      push_cast
      omega
    · rw [take_succ_eq hi, take_succ_eq hj, ← heq]
      exact isGreatest_concat _ hgreat
  · obtain ⟨m, hm, hgreat⟩ := hup
    obtain ⟨n, hn, hgreat'⟩ := hleft
    rw [take_succ_eq hj] at hgreat
    rw [take_succ_eq hi] at hgreat'
    refine ⟨max m n, ?_, ?_⟩
    · rw [if_neg heq, hm, hn]
      split_ifs <;> omega
    · rw [take_succ_eq hi, take_succ_eq hj]
      exact isGreatest_concat_of_ne heq hgreat hgreat'

/-- The table before the entry `(i, j)` is written: the border and every entry before it are right. -/
structure Filled (a b : Bytes) (i j : ℕ) (table : List ℤ) : Prop where
  size : table.length = (a.length + 1) * (b.length + 1)
  right : ∀ i' j', i' ≤ a.length → j' ≤ b.length → i' < i ∨ i' = i ∧ j' < j ∨ j' = 0 →
    Right a b (b.length + 1) table i' j'

theorem Filled.entry (h : Filled a b (i + 1) (j + 1) table) (hmin : min a.length b.length < 2 ^ 31) (hi : i < a.length)
    (hj : j < b.length) : Filled a b (i + 1) (j + 2)
      (table.set ((i + 1) * (b.length + 1) + (j + 1)) (cell a b (b.length + 1) table (i + 1) (j + 1))) := by
  have hin : (i + 1) * (b.length + 1) + (j + 1) < table.length := by
    rw [h.size]
    nlinarith
  refine ⟨by rw [List.length_set, h.size], fun i' j' hi' hj' hbefore => ?_⟩
  unfold Right
  rw [tableAt_set hin (by omega) (by omega)]
  by_cases hhere : i' = i + 1 ∧ j' = j + 1
  · obtain ⟨rfl, rfl⟩ := hhere
    simp only [and_self, if_true]
    exact cell_right hmin hi hj (h.right i j (by omega) (by omega) (by omega))
      (h.right i (j + 1) (by omega) (by omega) (by omega)) (h.right (i + 1) j (by omega) (by omega) (by omega))
  · rw [if_neg hhere]
    exact h.right i' j' hi' hj' (by omega)

theorem Filled.row (hmin : min a.length b.length < 2 ^ 31) (hi : i < a.length) {n : ℕ} {table : List ℤ}
    (hn : j + n = b.length) (h : Filled a b (i + 1) (j + 1) table) :
    Filled a b (i + 2) 1 (fillRow a b (b.length + 1) (i + 1) (List.range' (j + 1) n) table) := by
  induction n generalizing j table with
  | zero => exact ⟨h.size, fun i' j' hi' hj' hbefore => h.right i' j' hi' hj' (by omega)⟩
  | succ n ih => exact ih (by omega) (h.entry hmin hi (by omega))

end Table

section Walking

variable {a b : Bytes} {i j total : ℕ} {wantMatches : Bool}

def LcsMatch.content (m : LcsMatch) (a : Bytes) : Bytes := (a.drop m.aStart).take m.len

/-- A run is a pair of ranges of one length that hold the same bytes. -/
structure LcsMatch.Valid (a b : Bytes) (m : LcsMatch) : Prop where
  pos : 0 < m.len
  a_range : m.aStart + m.len = m.aEnd + 1
  b_range : m.bStart + m.len = m.bEnd + 1
  a_end : m.aEnd < a.length
  b_end : m.bEnd < b.length
  same : (a.drop m.aStart).take m.len = (b.drop m.bStart).take m.len

/-- Runs beyond `(i, j)` that lie one before the other in both strings and make up `s`. -/
structure Explains (a b : Bytes) (i j : ℕ) (runs : List LcsMatch) (s : Bytes) : Prop where
  valid : ∀ m ∈ runs, m.Valid a b
  beyond : ∀ m ∈ runs, i ≤ m.aStart ∧ j ≤ m.bStart
  descending : runs.Pairwise fun m m' => m'.aEnd < m.aStart ∧ m'.bEnd < m.bStart
  contents : runs.reverse.flatMap (fun m => m.content a) = s

theorem Explains.start (a b : Bytes) : Explains a b a.length b.length [] [] :=
  ⟨by simp, by simp, List.Pairwise.nil, rfl⟩

theorem Explains.weaken {runs : List LcsMatch} {s : Bytes} (h : Explains a b i j runs s) {i' j' : ℕ}
    (hi : i' ≤ i) (hj : j' ≤ j) : Explains a b i' j' runs s :=
  ⟨h.valid, fun m hm => ⟨hi.trans (h.beyond m hm).1, hj.trans (h.beyond m hm).2⟩, h.descending, h.contents⟩

/-- A run may be added in front of the others. -/
theorem Explains.concat {runs : List LcsMatch} {m : LcsMatch} {s : Bytes}
    (h : Explains a b (m.aEnd + 1) (m.bEnd + 1) runs s) (hm : m.Valid a b) :
    Explains a b m.aStart m.bStart (runs ++ [m]) (m.content a ++ s) := by
  have hpos := hm.pos
  have ha := hm.a_range
  have hb := hm.b_range
  refine ⟨?_, ?_, ?_, ?_⟩
  · intro m' hm'
    rcases List.mem_append.1 hm' with hold | hnew
    · exact h.valid m' hold
    · rwa [List.mem_singleton.1 hnew]
  · intro m' hm'
    rcases List.mem_append.1 hm' with hold | hnew
    · have := h.beyond m' hold
      omega
    · rw [List.mem_singleton.1 hnew]
      exact ⟨le_rfl, le_rfl⟩
  · refine List.pairwise_append.2 ⟨h.descending, List.pairwise_singleton _ _, fun m' hm' x hx => ?_⟩
    rw [List.mem_singleton.1 hx]
    have := h.beyond m' hm'
    omega
  · rw [List.reverse_append, List.flatMap_append, h.contents]
    simp

/-- The last run stays apart from the others without it. -/
theorem Explains.init {runs : List LcsMatch} {m : LcsMatch} {s : Bytes}
    (h : Explains a b i j (runs ++ [m]) s) : m.Valid a b ∧
      ∃ t, s = m.content a ++ t ∧ Explains a b (m.aEnd + 1) (m.bEnd + 1) runs t := by
  have hlast : ∀ m' ∈ runs, m.aEnd < m'.aStart ∧ m.bEnd < m'.bStart := fun m' hm' =>
    (List.pairwise_append.1 h.descending).2.2 m' hm' m (List.mem_singleton_self m)
  refine ⟨h.valid m (by simp), runs.reverse.flatMap fun m => m.content a, ?_, ?_⟩
  · rw [← h.contents]
    simp
  · exact ⟨fun m' hm' => h.valid m' (List.mem_append_left _ hm'), hlast,
      (List.pairwise_append.1 h.descending).1, rfl⟩

theorem single_valid (hi : i < a.length) (hj : j < b.length) (heq : a.getD i 0 = b.getD j 0) :
    LcsMatch.Valid a b ⟨i, i, j, j, 1⟩ :=
  ⟨Nat.one_pos, rfl, rfl, hi, hj, by rw [drop_eq_cons hi, drop_eq_cons hj, heq]; rfl⟩

/-- A run grows by the byte before it. -/
def LcsMatch.extend (m : LcsMatch) (i j : ℕ) : LcsMatch := { m with aStart := i, bStart := j, len := m.len + 1 }

theorem LcsMatch.Valid.extend {m : LcsMatch} (h : m.Valid a b) (hi : m.aStart = i + 1) (hj : m.bStart = j + 1)
    (heq : a.getD i 0 = b.getD j 0) : (m.extend i j).Valid a b ∧
      (m.extend i j).content a = a.getD i 0 :: m.content a := by
  have hpos := h.pos
  have ha := h.a_range
  have hb := h.b_range
  have ha' := h.a_end
  have hb' := h.b_end
  have hcons : a.drop i = a.getD i 0 :: a.drop m.aStart := by rw [hi, ← drop_eq_cons (by omega)]
  have hcons' : b.drop j = b.getD j 0 :: b.drop m.bStart := by rw [hj, ← drop_eq_cons (by omega)]
  refine ⟨⟨Nat.succ_pos _, ?_, ?_, ha', hb', ?_⟩, ?_⟩
  · change i + (m.len + 1) = m.aEnd + 1
    omega
  · change j + (m.len + 1) = m.bEnd + 1
    omega
  · change (a.drop i).take (m.len + 1) = (b.drop j).take (m.len + 1)
    rw [hcons, hcons', List.take_succ_cons, List.take_succ_cons, h.same, heq]
  · change (a.drop i).take (m.len + 1) = _
    rw [hcons, List.take_succ_cons]
    rfl

/-- The run that `run` names is the last one and starts where the walk stands. -/
def Extending (i j : ℕ) (st : Walk) : Prop :=
  st.run < 0 ∨ ∃ (done : List LcsMatch) (m : LcsMatch), st.runs = done ++ [m] ∧ st.run = done.length ∧
    m.aStart = i ∧ m.bStart = j

/-- What the walk has found when it stands at `(i, j)`. -/
structure Walked (wantMatches : Bool) (a b : Bytes) (total i j : ℕ) (st : Walk) : Prop where
  length : st.seq.length = total
  idx_le : st.idx ≤ total
  idx : IsGreatest (commonLengths (a.take i) (b.take j)) st.idx
  left : st.seq.drop st.idx <+ a.drop i
  right : st.seq.drop st.idx <+ b.drop j
  explained : wantMatches = true → Explains a b i j st.runs (st.seq.drop st.idx) ∧ Extending i j st

theorem modify_last (runs : List LcsMatch) (m : LcsMatch) (f : LcsMatch → LcsMatch) :
    (runs ++ [m]).modify runs.length f = runs ++ [f m] := by
  induction runs with
  | nil => rfl
  | cons m' runs ih => simp [ih]

/-- Sharing a byte extends the run that is open, or opens one. -/
theorem share_explained {st : Walk} {s : Bytes} (h : Explains a b (i + 1) (j + 1) st.runs s)
    (hopen : Extending (i + 1) (j + 1) st) (hi : i < a.length) (hj : j < b.length)
    (heq : a.getD i 0 = b.getD j 0) : Explains a b i j (st.share true a i j).runs (a.getD i 0 :: s) ∧
      Extending i j (st.share true a i j) := by
  rcases lt_or_ge st.run 0 with hrun | hrun
  · have hruns : (st.share true a i j).runs = st.runs ++ [⟨i, i, j, j, 1⟩] := by
      simp [Walk.share, hrun, modify_last]
    have hnew := Explains.concat h (single_valid hi hj heq)
    have hcontent : LcsMatch.content ⟨i, i, j, j, 1⟩ a = [a.getD i 0] := by
      rw [LcsMatch.content, drop_eq_cons hi]
      rfl
    rw [hcontent] at hnew
    refine ⟨by rw [hruns]; exact hnew, .inr ⟨st.runs, _, hruns, ?_, rfl, rfl⟩⟩
    simp [Walk.share, hrun]
  · obtain ⟨done, m, hst, hlast, hmi, hmj⟩ := hopen.resolve_left (not_lt.2 hrun)
    have hruns : (st.share true a i j).runs = done ++ [m.extend i j] := by
      simp only [Walk.share, if_neg (not_lt.2 hrun), if_true]
      rw [hst, hlast, Int.toNat_natCast]
      exact modify_last done m _
    rw [hst] at h
    obtain ⟨hvalid, t, rfl, hdone⟩ := h.init
    obtain ⟨hvalid', hcontent⟩ := hvalid.extend hmi hmj heq
    have hnew : Explains a b i j (done ++ [m.extend i j]) ((m.extend i j).content a ++ t) :=
      Explains.concat (m := m.extend i j) hdone hvalid'
    rw [hcontent] at hnew
    refine ⟨by rw [hruns]; exact hnew, .inr ⟨done, _, hruns, ?_, rfl, rfl⟩⟩
    simpa only [Walk.share, if_neg (not_lt.2 hrun), if_true] using hlast

theorem share_seq (wantMatches : Bool) (a : Bytes) (i j : ℕ) (st : Walk) :
    (st.share wantMatches a i j).seq = st.seq.set (st.idx - 1) (a.getD i 0) ∧
      (st.share wantMatches a i j).idx = st.idx - 1 := by
  cases wantMatches <;> exact ⟨rfl, rfl⟩

/-- A shared byte is the last of the longest common subsequence of the prefixes. -/
theorem Walked.share {st : Walk} (h : Walked wantMatches a b total (i + 1) (j + 1) st) (hi : i < a.length)
    (hj : j < b.length) (heq : a.getD i 0 = b.getD j 0) {n : ℕ}
    (hn : IsGreatest (commonLengths (a.take i) (b.take j)) n) :
    Walked wantMatches a b total i j (st.share wantMatches a i j) := by
  have hidx : st.idx = n + 1 := by
    have hlong := isGreatest_concat (a.getD i 0) hn
    have hst := h.idx
    rw [take_succ_eq hi, take_succ_eq hj, ← heq] at hst
    exact hst.unique hlong
  have hle := h.idx_le
  obtain ⟨hseq, hidx'⟩ := share_seq wantMatches a i j st
  rw [hidx, Nat.add_sub_cancel] at hseq hidx'
  have hdrop : (st.share wantMatches a i j).seq.drop n = a.getD i 0 :: st.seq.drop st.idx := by
    have hlt : n < (st.seq.set n (a.getD i 0)).length := by
      rw [List.length_set, h.length]
      omega
    rw [hseq, List.drop_eq_getElem_cons hlt, List.getElem_set_self, List.drop_set_of_lt (Nat.lt_succ_self n), hidx]
  refine ⟨by rw [hseq, List.length_set, h.length], by omega, by rwa [hidx'], ?_, ?_, ?_⟩
  · rw [hidx', hdrop, drop_eq_cons hi]
    exact h.left.cons_cons _
  · rw [hidx', hdrop, drop_eq_cons hj, heq]
    exact h.right.cons_cons _
  · rintro rfl
    obtain ⟨hruns, hopen⟩ := h.explained rfl
    rw [hidx', hdrop]
    exact share_explained hruns hopen hi hj heq

/-- Leaving a byte out keeps what was found, when the longest common subsequence does not need it. -/
theorem Walked.skip {st : Walk} (h : Walked wantMatches a b total i j st) {i' j' : ℕ} (hi : i' ≤ i) (hj : j' ≤ j)
    (hidx : IsGreatest (commonLengths (a.take i') (b.take j')) st.idx) :
    Walked wantMatches a b total i' j' { st with run := -1 } :=
  ⟨h.length, h.idx_le, hidx, h.left.trans (List.drop_sublist_drop_left a hi),
    h.right.trans (List.drop_sublist_drop_left b hj),
    fun hwant => ⟨(h.explained hwant).1.weaken hi hj, .inl neg_one_lt_zero⟩⟩

theorem length_contents {runs : List LcsMatch} {s : Bytes} (h : Explains a b i j runs s) :
    (runs.map LcsMatch.len).sum = s.length := by
  have hlen : ∀ m ∈ runs, (m.content a).length = m.len := by
    intro m hm
    have hv := h.valid m hm
    have hpos := hv.pos
    have ha := hv.a_range
    have ha' := hv.a_end
    rw [LcsMatch.content, List.length_take, List.length_drop]
    omega
  rw [← h.contents, List.length_flatMap, List.map_reverse, List.sum_reverse, List.map_congr_left hlen]

end Walking

/-- What a reported result says about two strings. -/
structure LcsResult.Correct (a b : Bytes) (r : LcsResult) : Prop where
  longest : IsGreatest (commonLengths a b) r.len
  in_a : r.seq <+ a
  in_b : r.seq <+ b
  length : r.seq.length = r.len

/-- The reported runs make up the reported sequence. -/
structure LcsResult.Explained (a b : Bytes) (r : LcsResult) : Prop where
  valid : ∀ m ∈ r.runs, m.Valid a b
  descending : r.runs.Pairwise fun m m' => m'.aEnd < m.aStart ∧ m'.bEnd < m.bStart
  total : (r.runs.map LcsMatch.len).sum = r.len
  contents : r.runs.reverse.flatMap (fun m => m.content a) = r.seq

section Result

variable {a b : Bytes} {wantMatches : Bool}

theorem explained_of_explains {i j : ℕ} {r : LcsResult} (h : Explains a b i j r.runs r.seq)
    (hlen : r.seq.length = r.len) : r.Explained a b :=
  ⟨h.valid, h.descending, (length_contents h).trans hlen, h.contents⟩

/-- At the border of the table nothing is left to find. -/
theorem Walked.result {total i j : ℕ} {st : Walk} (h : Walked wantMatches a b total i j st) (hend : i = 0 ∨ j = 0)
    (hgreat : IsGreatest (commonLengths a b) total) : LcsResult.Correct a b ⟨st.seq, total, st.runs⟩ ∧
      (wantMatches = true → LcsResult.Explained a b ⟨st.seq, total, st.runs⟩) := by
  have hidx : st.idx = 0 := by
    rcases hend with rfl | rfl
    · exact h.idx.unique (isGreatest_nil_left _)
    · exact h.idx.unique (isGreatest_nil_right _)
  obtain ⟨hlength, -, -, hleft, hright, hruns⟩ := h
  rw [hidx, List.drop_zero] at hleft hright hruns
  exact ⟨⟨hgreat, hleft.trans (List.drop_sublist i a), hright.trans (List.drop_sublist j b), hlength⟩,
    fun hwant => explained_of_explains (hruns hwant).1 hlength⟩

end Result

example : (lcs [1, 2, 3, 7, 4] [9, 2, 3, 4] true).result = .ok ⟨[2, 3, 4], 3, [⟨4, 4, 3, 3, 1⟩, ⟨1, 2, 1, 2, 2⟩]⟩ := rfl

end ShardKV.Commands
