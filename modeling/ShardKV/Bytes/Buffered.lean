import ShardKV.Bytes.Decimal

/-! A buffered reader over a source that answers each read with some of the bytes
it still holds, in order. The source is the list of its answers; a read smaller
than the next answer takes the front of it and leaves the remainder. The reader
keeps at most `cap` unread bytes. Every operation is a function of the bytes that
remain, so neither the buffer size nor the division into reads shows in a result. -/

namespace ShardKV

/-- The bytes up to and including the first newline, and the bytes after it. -/
def splitLine : Bytes → Option (Bytes × Bytes)
  | [] => none
  | c :: cs => if c = 10 then some ([c], cs) else (splitLine cs).map fun p => (c :: p.1, p.2)

@[simp] theorem splitLine_nil : splitLine [] = none := rfl

theorem splitLine_cons (c : UInt8) (cs : Bytes) : splitLine (c :: cs) =
    if c = 10 then some ([c], cs) else (splitLine cs).map fun p => (c :: p.1, p.2) := rfl

theorem splitLine_cons_cases {c : UInt8} {cs l r : Bytes} (h : splitLine (c :: cs) = some (l, r)) :
    (c = 10 ∧ l = [c] ∧ r = cs) ∨ (c ≠ 10 ∧ ∃ l', l = c :: l' ∧ splitLine cs = some (l', r)) := by
  rw [splitLine_cons] at h
  split_ifs at h with hc
  · simp only [Option.some.injEq, Prod.mk.injEq] at h
    exact .inl ⟨hc, h.1.symm, h.2.symm⟩
  · simp only [Option.map_eq_some_iff, Prod.exists, Prod.mk.injEq] at h
    obtain ⟨l', r', h, rfl, rfl⟩ := h
    exact .inr ⟨hc, l', rfl, h⟩

theorem splitLine_append {a b l r : Bytes} (h : splitLine a = some (l, r)) :
    splitLine (a ++ b) = some (l, r ++ b) := by
  induction a generalizing l with
  | nil => simp at h
  | cons c cs ih =>
    rcases splitLine_cons_cases h with ⟨rfl, rfl, rfl⟩ | ⟨hc, l', rfl, hcs⟩
    · simp [splitLine_cons]
    · simp [splitLine_cons, hc, ih hcs]

theorem splitLine_none_append {a b : Bytes} (h : splitLine a = none) :
    splitLine (a ++ b) = (splitLine b).map fun p => (a ++ p.1, p.2) := by
  induction a with
  | nil => simp
  | cons c cs ih =>
    simp only [splitLine_cons] at h
    split at h
    · cases h
    · rename_i hc
      simp only [Option.map_eq_none_iff] at h
      simp [splitLine_cons, hc, ih h, Function.comp_def]

theorem splitLine_eq_append {s l r : Bytes} (h : splitLine s = some (l, r)) : s = l ++ r := by
  induction s generalizing l with
  | nil => simp at h
  | cons c cs ih =>
    rcases splitLine_cons_cases h with ⟨-, rfl, rfl⟩ | ⟨-, l', rfl, hcs⟩
    · rfl
    · rw [List.cons_append, ← ih hcs]

theorem splitLine_line_ne_nil {s l r : Bytes} (h : splitLine s = some (l, r)) : l ≠ [] := by
  cases s with
  | nil => simp at h
  | cons c cs => rcases splitLine_cons_cases h with ⟨-, rfl, -⟩ | ⟨-, l', rfl, -⟩ <;> simp

theorem splitLine_eq_none {a : Bytes} (h : (10 : UInt8) ∉ a) : splitLine a = none := by
  induction a with
  | nil => rfl
  | cons c cs ih =>
    rw [List.mem_cons, not_or] at h
    simp [splitLine_cons, Ne.symm h.1, ih h.2]

theorem splitLine_of_not_mem {a b : Bytes} (h : (10 : UInt8) ∉ a) :
    splitLine (a ++ 10 :: b) = some (a ++ [10], b) := by
  rw [splitLine_none_append (splitLine_eq_none h)]
  simp [splitLine_cons]

/-- One read of at most `m` bytes. An empty answer is end of file. -/
def sourceRead (m : ℕ) : List Bytes → Bytes × List Bytes
  | [] => ([], [])
  | [] :: cs => sourceRead m cs
  | c :: cs => if c.length ≤ m then (c, cs) else (c.take m, c.drop m :: cs)

theorem sourceRead_flatten (m : ℕ) (src : List Bytes) :
    (sourceRead m src).1 ++ (sourceRead m src).2.flatten = src.flatten := by
  fun_induction sourceRead m src with
  | case1 => rfl
  | case2 cs ih => simpa using ih
  | case3 c cs hc h => simp
  | case4 c cs hc h => simp [← List.append_assoc]

theorem sourceRead_eq_nil {m : ℕ} (hm : 0 < m) {src : List Bytes} (h : (sourceRead m src).1 = []) :
    src.flatten = [] := by
  fun_induction sourceRead m src with
  | case1 => rfl
  | case2 cs ih => simpa using ih h
  | case3 c cs hc hl => exact absurd h hc
  | case4 c cs hc hl =>
    simp only [List.take_eq_nil_iff, Nat.ne_of_gt hm, false_or] at h
    exact absurd h hc

theorem sourceRead_length_le (m : ℕ) (src : List Bytes) : (sourceRead m src).1.length ≤ m := by
  fun_induction sourceRead m src with
  | case1 => simp
  | case2 cs ih => exact ih
  | case3 c cs hc hl => exact hl
  | case4 c cs hc hl => simp

/-- The reader's buffer of unread bytes over its source. -/
structure Buffered where
  cap : ℕ
  cap_pos : 0 < cap
  buf : Bytes
  src : List Bytes

namespace Buffered

/-- The bytes still to come, wherever they are held. -/
def rest (b : Buffered) : Bytes := b.buf ++ b.src.flatten

/-- One read into the free part of the buffer. -/
def fill (b : Buffered) : Buffered :=
  let got := sourceRead (b.cap - b.buf.length) b.src
  { b with buf := b.buf ++ got.1, src := got.2 }

theorem rest_fill (b : Buffered) : b.fill.rest = b.rest := by
  simp [fill, rest, sourceRead_flatten]

/-- How a delimited read ended. -/
inductive Slice where
  | line | full | eof
  deriving DecidableEq

/-- Read through the first newline, or until the buffer is full or the source ends. -/
def readSliceFuel : ℕ → Buffered → (Bytes × Slice) × Buffered
  | 0, b => ((b.buf, .eof), { b with buf := [] })
  | fuel + 1, b =>
    match splitLine b.buf with
    | some (l, r) => ((l, .line), { b with buf := r })
    | none =>
      if b.cap ≤ b.buf.length then ((b.buf, .full), { b with buf := [] })
      else if b.fill.buf = b.buf then ((b.buf, .eof), { b with buf := [] })
      else readSliceFuel fuel b.fill

def readSlice (b : Buffered) : (Bytes × Slice) × Buffered :=
  readSliceFuel (b.src.flatten.length + 1) b

/-- What a delimited read leaves and returns, in terms of the bytes that remained. -/
def SliceSpec (b : Buffered) (out : (Bytes × Slice) × Buffered) : Prop :=
  match out.1.2 with
  | .line => splitLine b.rest = some (out.1.1, out.2.rest)
  | .full => splitLine out.1.1 = none ∧ out.1.1 ≠ [] ∧ b.rest = out.1.1 ++ out.2.rest
  | .eof => splitLine b.rest = none ∧ out.1.1 = b.rest ∧ out.2.rest = []

theorem fill_src_length (b : Buffered) :
    b.fill.buf.length + b.fill.src.flatten.length = b.buf.length + b.src.flatten.length := by
  have h := congrArg List.length b.rest_fill
  simpa [rest] using h

theorem fill_buf_eq (b : Buffered) (hc : b.buf.length < b.cap) (h : b.fill.buf = b.buf) :
    b.src.flatten = [] := by
  have hg : (sourceRead (b.cap - b.buf.length) b.src).1 = [] := by simpa [fill] using h
  exact sourceRead_eq_nil (by omega) hg

theorem fill_progress (b : Buffered) (h : b.fill.buf ≠ b.buf) :
    b.fill.src.flatten.length < b.src.flatten.length := by
  have hlen := b.fill_src_length
  have hg : (sourceRead (b.cap - b.buf.length) b.src).1 ≠ [] := by
    intro hg; apply h; simp [fill, hg]
  have : b.buf.length < b.fill.buf.length := by
    simp only [fill, List.length_append]
    have := List.length_pos_of_ne_nil hg
    omega
  omega

theorem readSliceFuel_spec (fuel : ℕ) (b : Buffered) (hf : b.src.flatten.length < fuel) :
    SliceSpec b (readSliceFuel fuel b) := by
  induction fuel generalizing b with
  | zero => omega
  | succ fuel ih =>
    simp only [readSliceFuel]
    split
    · rename_i l r hl
      exact splitLine_append hl
    · rename_i hn
      split_ifs with hc he
      · refine ⟨hn, ?_, rfl⟩
        have := b.cap_pos
        change b.buf ≠ []
        exact List.ne_nil_of_length_pos (by omega)
      · have hs := fill_buf_eq b (by omega) he
        refine ⟨?_, ?_, ?_⟩ <;> simp [rest, hs, hn]
      · have := ih b.fill (by have := b.fill_progress he; omega)
        simpa only [SliceSpec, rest_fill] using this

theorem readSlice_spec (b : Buffered) : SliceSpec b b.readSlice :=
  readSliceFuel_spec _ b (Nat.lt_succ_self _)

/-- Accumulate slices until a newline or the end of the source, which is how a line
longer than the buffer is read. -/
def readBytesFuel : ℕ → Buffered → (Bytes × Bool) × Buffered
  | 0, b => (([], false), b)
  | fuel + 1, b =>
    match b.readSlice with
    | ((l, .line), b') => ((l, true), b')
    | ((l, .eof), b') => ((l, false), b')
    | ((l, .full), b') =>
      let out := readBytesFuel fuel b'
      ((l ++ out.1.1, out.1.2), out.2)

/-- The bytes through the first newline, and whether there was one. -/
def readBytes (b : Buffered) : (Bytes × Bool) × Buffered := readBytesFuel (b.rest.length + 1) b

theorem readBytesFuel_spec (fuel : ℕ) (b : Buffered) (hf : b.rest.length < fuel) :
    match splitLine b.rest with
    | some (l, r) => (readBytesFuel fuel b).1 = (l, true) ∧ (readBytesFuel fuel b).2.rest = r
    | none => (readBytesFuel fuel b).1 = (b.rest, false) ∧ (readBytesFuel fuel b).2.rest = [] := by
  induction fuel generalizing b with
  | zero => omega
  | succ fuel ih =>
    have hs := b.readSlice_spec
    rw [readBytesFuel]
    rcases hr : b.readSlice with ⟨⟨l, k⟩, b'⟩
    rw [hr] at hs
    cases k with
    | line =>
      rw [show splitLine b.rest = some (l, b'.rest) from hs]
      exact ⟨rfl, rfl⟩
    | eof =>
      obtain ⟨hn, hl, hb⟩ := hs
      rw [hn]
      exact ⟨by rw [← hl], hb⟩
    | full =>
      obtain ⟨hn, hne, hb⟩ : splitLine l = none ∧ l ≠ [] ∧ b.rest = l ++ b'.rest := hs
      have := List.length_pos_of_ne_nil hne
      have hlen := congrArg List.length hb
      rw [List.length_append] at hlen
      have hi := ih b' (by omega)
      rw [hb, splitLine_none_append hn]
      cases hx : splitLine b'.rest with
      | none =>
        rw [hx] at hi
        simp [hi.1, hi.2]
      | some p =>
        rw [hx] at hi
        simp [hi.1, hi.2]

theorem readBytes_spec (b : Buffered) :
    match splitLine b.rest with
    | some (l, r) => b.readBytes.1 = (l, true) ∧ b.readBytes.2.rest = r
    | none => b.readBytes.1 = (b.rest, false) ∧ b.readBytes.2.rest = [] :=
  readBytesFuel_spec _ b (Nat.lt_succ_self _)

/-- One read of at most `k` bytes: from the buffer when it holds any, past it when the
request is at least the buffer's size, and through one fill otherwise. -/
def read (k : ℕ) (b : Buffered) : Bytes × Buffered :=
  if b.buf ≠ [] then (b.buf.take k, { b with buf := b.buf.drop k })
  else if b.cap ≤ k then
    let got := sourceRead k b.src
    (got.1, { b with src := got.2 })
  else
    let got := sourceRead b.cap b.src
    (got.1.take k, { b with buf := got.1.drop k, src := got.2 })

theorem read_rest (k : ℕ) (b : Buffered) : (b.read k).1 ++ (b.read k).2.rest = b.rest := by
  unfold read
  split_ifs with h1 h2
  · simp [rest, ← List.append_assoc]
  · rw [not_not] at h1
    simp [rest, h1, sourceRead_flatten]
  · rw [not_not] at h1
    simp [rest, h1, ← List.append_assoc, sourceRead_flatten]

theorem read_length_le (k : ℕ) (b : Buffered) : (b.read k).1.length ≤ k := by
  unfold read
  split_ifs with h1 h2
  · simp
  · exact sourceRead_length_le k b.src
  · simp

theorem read_eq_nil {k : ℕ} (hk : 0 < k) {b : Buffered} (h : (b.read k).1 = []) : b.rest = [] := by
  unfold read at h
  have hk' : k ≠ 0 := Nat.ne_of_gt hk
  split_ifs at h with h1 h2
  · simp [h1, hk'] at h
  · rw [not_not] at h1
    simpa [rest, h1] using sourceRead_eq_nil hk h
  · rw [not_not] at h1
    simp only [List.take_eq_nil_iff, hk', false_or] at h
    simpa [rest, h1] using sourceRead_eq_nil b.cap_pos h

/-- Repeat reads until `k` bytes have arrived or the source ends. -/
def readFullFuel : ℕ → ℕ → Buffered → Bytes × Buffered
  | 0, _, b => ([], b)
  | fuel + 1, k, b =>
    if k = 0 then ([], b)
    else
      let got := b.read k
      if got.1 = [] then ([], got.2)
      else
        let out := readFullFuel fuel (k - got.1.length) got.2
        (got.1 ++ out.1, out.2)

def readFull (k : ℕ) (b : Buffered) : Bytes × Buffered := readFullFuel k k b

theorem readFullFuel_spec (fuel k : ℕ) (b : Buffered) (hf : k ≤ fuel) :
    (readFullFuel fuel k b).1 = b.rest.take k ∧ (readFullFuel fuel k b).2.rest = b.rest.drop k := by
  induction fuel generalizing k b with
  | zero =>
    obtain rfl : k = 0 := by omega
    simp [readFullFuel]
  | succ fuel ih =>
    rw [readFullFuel]
    by_cases hk : k = 0
    · simp [hk]
    · simp only [if_neg hk]
      have hr := b.read_rest k
      by_cases hg : (b.read k).1 = []
      · have hn := read_eq_nil (Nat.pos_of_ne_zero hk) hg
        rw [hg, hn, List.nil_append] at hr
        simp [hg, hn, hr]
      · have hl := b.read_length_le k
        have hp := List.length_pos_of_ne_nil hg
        have := ih (k - (b.read k).1.length) (b.read k).2 (by omega)
        simp only [if_neg hg, this.1, this.2]
        rw [← hr, List.take_append, List.drop_append]
        simp [List.take_of_length_le hl, List.drop_of_length_le hl]

theorem readFull_spec (k : ℕ) (b : Buffered) :
    (b.readFull k).1 = b.rest.take k ∧ (b.readFull k).2.rest = b.rest.drop k :=
  readFullFuel_spec k k b le_rfl

end Buffered

end ShardKV
