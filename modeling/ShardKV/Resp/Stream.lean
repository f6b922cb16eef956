import ShardKV.Resp.Reader

/-! Reading as a function of the bytes to come. `parse` runs the streamed parser
over a whole byte string. The buffered reader refines it: whatever the buffer
holds and however the bytes arrive, a command read from the connection is the one
`parse` finds, and the in-place parser never disagrees with the streamed one. -/

namespace ShardKV.Resp

/-- A byte string being parsed and the count of bytes consumed from it. -/
structure ByteStream where
  rest : Bytes
  n : ℕ

namespace ByteStream

def readLine (s : ByteStream) : Except ReadError Bytes × ByteStream :=
  match splitLine s.rest with
  | some (l, r) => (.ok (trimCRLF l), ⟨r, s.n + l.length⟩)
  | none => (.error .eof, ⟨[], s.n + s.rest.length⟩)

def readFull (k : ℕ) (s : ByteStream) : Except ReadError Bytes × ByteStream :=
  if k ≤ s.rest.length then (.ok (s.rest.take k), ⟨s.rest.drop k, s.n + k⟩)
  else (.error (if s.rest = [] then .eof else .unexpectedEOF), ⟨[], s.n⟩)

def input : Input ByteStream := ⟨readLine, readFull⟩

end ByteStream

def parseFuel : ℕ → ByteStream → Except ReadError Args × ByteStream
  | 0, s => (.error .eof, s)
  | fuel + 1, s =>
    match readStreamedCommand ByteStream.input s with
    | .done res s' => (res, s')
    | .again s' => parseFuel fuel s'

/-- The next command of a byte string. -/
def parse (s : ByteStream) : Except ReadError Args × ByteStream := parseFuel (s.rest.length + 1) s

/-! ### Inputs related by a view -/

def Step.map {σ τ : Type} (f : σ → τ) : Step σ → Step τ
  | .done res s => .done res (f s)
  | .again s => .again (f s)

/-- `view` carries the operations of one input to those of another. -/
structure Input.Hom {σ τ : Type} (I : Input σ) (J : Input τ) (view : σ → τ) : Prop where
  readLine : ∀ s, J.readLine (view s) = Prod.map id view (I.readLine s)
  readFull : ∀ k s, 0 < k → J.readFull k (view s) = Prod.map id view (I.readFull k s)

section Hom
variable {σ τ : Type} {I : Input σ} {J : Input τ} {view : σ → τ}

theorem readElems_hom (h : I.Hom J view) (n : ℕ) (s : σ) :
    readElems J n (view s) = Prod.map id view (readElems I n s) := by
  induction n generalizing s with
  | zero => rfl
  | succ n ih =>
    simp only [readElems, h.readLine]
    rcases I.readLine s with ⟨res, s₁⟩
    rcases res with e | line
    · rfl
    rcases line with _ | ⟨c, digits⟩
    · rfl
    simp only [Prod.map, id_eq]
    split
    · rfl
    rcases parseCount digits with _ | len
    · rfl
    dsimp only
    split
    · rfl
    rw [h.readFull _ _ (by omega)]
    rcases I.readFull (len.toNat + 2) s₁ with ⟨res, s₂⟩
    rcases res with e | buf
    · rfl
    simp only [Prod.map, id_eq, ih]
    rcases readElems I n s₂ with ⟨res, s₃⟩
    rcases res with e | args <;> rfl

theorem readStreamedCommand_hom (h : I.Hom J view) (s : σ) :
    readStreamedCommand J (view s) = (readStreamedCommand I s).map view := by
  simp only [readStreamedCommand, h.readLine]
  rcases I.readLine s with ⟨res, s₁⟩
  rcases res with e | line
  · rfl
  rcases line with _ | ⟨c, cs⟩
  · rfl
  simp only [Prod.map, id_eq]
  split
  · rcases splitInline (c :: cs) with e | args
    · rfl
    · rcases args with _ | ⟨a, as⟩ <;> rfl
  rcases parseCount cs with _ | n
  · rfl
  dsimp only
  split
  · rfl
  split
  · rfl
  rw [readElems_hom h]
  rfl

end Hom

/-- What the reader will deliver, as one byte string. -/
def Reader.view (r : Reader) : ByteStream := ⟨r.r.rest, r.n⟩

theorem Reader.input_hom : Reader.input.Hom ByteStream.input Reader.view where
  readLine r := by
    have h := r.r.readBytes_spec
    simp only [ByteStream.input, ByteStream.readLine, Reader.input, Reader.readLine, Reader.view]
    rcases hr : r.r.readBytes with ⟨⟨l, k⟩, b⟩
    rw [hr] at h
    cases hs : splitLine r.r.rest with
    | none | some =>
      rw [hs] at h
      obtain ⟨h1, h2⟩ := h
      simp only [Prod.mk.injEq] at h1
      obtain ⟨rfl, rfl⟩ := h1
      simp only [Prod.map, id_eq, Reader.view]
      rw [h2]
  readFull k r hk := by
    obtain ⟨h1, h2⟩ := r.r.readFull_spec k
    simp only [ByteStream.input, ByteStream.readFull, Reader.input, Reader.readFull, Reader.view]
    rcases hr : r.r.readFull k with ⟨got, b⟩
    rw [hr] at h1 h2
    dsimp only at h1 h2
    subst h1
    by_cases hl : k ≤ r.r.rest.length
    · simp [hl, Prod.map, Reader.view, h2]
    · have hn : ¬ (r.r.rest.take k).length = k := by rw [List.length_take]; omega
      have hd : r.r.rest.drop k = [] := List.drop_of_length_le (by omega)
      have hne : (r.r.rest.take k = []) ↔ r.r.rest = [] := by
        simp [Nat.ne_of_gt hk]
      simp only [hl, if_false, hn, hne, Prod.map, id_eq, Reader.view, h2, hd]

/-! ### The in-place parser agrees with the streamed one -/

theorem nextLine_append {a b l r : Bytes} (h : nextLine a = some (l, r)) :
    nextLine (a ++ b) = some (l, r ++ b) := by
  simp only [nextLine, Option.map_eq_some_iff, Prod.exists, Prod.mk.injEq] at h ⊢
  obtain ⟨l', r', h', rfl, rfl⟩ := h
  exact ⟨l', r' ++ b, splitLine_append h', rfl, rfl⟩

theorem bulkSpan_inv {frame arg rest : Bytes} (h : bulkSpan frame = some (arg, rest)) :
    ∃ digits after len, nextLine frame = some (36 :: digits, after) ∧ parseCount digits = some len ∧
      ¬ (len < 0 ∨ (maxBulkLen : ℤ) < len) ∧ len.toNat + 2 ≤ after.length ∧
      arg = after.take len.toNat ∧ rest = after.drop (len.toNat + 2) := by
  unfold bulkSpan at h
  split at h
  · rename_i digits after hn
    split at h
    · cases h
    · rename_i len hl
      split_ifs at h with h1 h2
      simp only [Option.some.injEq, Prod.mk.injEq] at h
      exact ⟨digits, after, len, hn, hl, h1, by omega, h.1.symm, h.2.symm⟩
  · cases h

theorem ByteStream.readLine_of_nextLine {s : ByteStream} {l r : Bytes} (h : nextLine s.rest = some (l, r)) :
    s.readLine = (.ok l, ⟨r, s.n + (s.rest.length - r.length)⟩) := by
  simp only [nextLine, Option.map_eq_some_iff, Prod.exists, Prod.mk.injEq] at h
  obtain ⟨l', r', h', rfl, rfl⟩ := h
  have := congrArg List.length (splitLine_eq_append h')
  rw [List.length_append] at this
  simp only [ByteStream.readLine, h', this]
  congr 3; omega

theorem nextLine_rest_le {frame digits line : Bytes} (h : nextLine frame = some (digits, line)) :
    line.length ≤ frame.length := by
  simp only [nextLine, Option.map_eq_some_iff, Prod.exists, Prod.mk.injEq] at h
  obtain ⟨l, r, h, -, rfl⟩ := h
  rw [splitLine_eq_append h, List.length_append]
  omega

theorem bulkSpans_rest_le {n : ℕ} {frame rest : Bytes} {args : Args}
    (h : bulkSpans n frame = some (args, rest)) : rest.length ≤ frame.length := by
  induction n generalizing frame args with
  | zero =>
    simp only [bulkSpans, Option.some.injEq, Prod.mk.injEq] at h
    rw [h.2]
  | succ n ih =>
    simp only [bulkSpans] at h
    split at h
    · cases h
    · rename_i arg after hb
      simp only [Option.map_eq_some_iff, Prod.exists, Prod.mk.injEq] at h
      obtain ⟨as, r, hs, -, rfl⟩ := h
      obtain ⟨digits, line, len, hn, -, -, -, -, rfl⟩ := bulkSpan_inv hb
      have h1 := ih hs
      have h2 := nextLine_rest_le hn
      rw [List.length_drop] at h1
      omega

/-- Elements found in place are the elements the streamed parser reads, with the same
bytes left over and the same count consumed, whatever has not arrived yet. -/
theorem readElems_of_bulkSpans {n : ℕ} {frame rest : Bytes} {args : Args}
    (h : bulkSpans n frame = some (args, rest)) (more : Bytes) (c : ℕ) :
    readElems ByteStream.input n ⟨frame ++ more, c⟩ =
      (.ok args, ⟨rest ++ more, c + (frame.length - rest.length)⟩) := by
  induction n generalizing frame args c with
  | zero =>
    simp only [bulkSpans, Option.some.injEq, Prod.mk.injEq] at h
    obtain ⟨rfl, rfl⟩ := h
    simp [readElems]
  | succ n ih =>
    simp only [bulkSpans] at h
    split at h
    · cases h
    · rename_i arg after hb
      simp only [Option.map_eq_some_iff, Prod.exists, Prod.mk.injEq] at h
      obtain ⟨as, r, hs, rfl, rfl⟩ := h
      have hle := bulkSpans_rest_le hs
      obtain ⟨digits, line, len, hn, hp, hr, hl, rfl, rfl⟩ := bulkSpan_inv hb
      have hline := ByteStream.readLine_of_nextLine (s := ⟨frame ++ more, c⟩) (nextLine_append hn)
      have hfl := nextLine_rest_le hn
      simp only [readElems, show ByteStream.input.readLine = ByteStream.readLine from rfl, hline, hp,
        ne_eq, not_true_eq_false, if_false, hr]
      have hfull : len.toNat + 2 ≤ (line ++ more).length := by rw [List.length_append]; omega
      simp only [show ByteStream.input.readFull = ByteStream.readFull from rfl, ByteStream.readFull, hfull,
        if_true]
      rw [List.drop_append_of_le_length hl, ih hs]
      dsimp only
      rw [List.take_append_of_le_length hl, List.take_take, min_eq_left (by omega)]
      simp only [List.length_append, List.length_drop] at hle ⊢
      have hcount : c + (frame.length + more.length - (line.length + more.length)) +
          (len.toNat + 2) + (line.length - (len.toNat + 2) - r.length) =
          c + (frame.length - r.length) := by omega
      rw [hcount]

theorem parseFrame_streamed {frame rest : Bytes} {args : Args}
    (h : parseFrame frame = some (args, rest)) (more : Bytes) (c : ℕ) :
    readStreamedCommand ByteStream.input ⟨frame ++ more, c⟩ =
      .done (.ok args) ⟨rest ++ more, c + (frame.length - rest.length)⟩ := by
  unfold parseFrame at h
  split at h
  · rename_i cs
    split at h
    · cases h
    · rename_i hdr after hn
      split at h
      · cases h
      · rename_i n hp
        split_ifs at h with hr
        rw [not_or, not_le, not_lt] at hr
        have hline := ByteStream.readLine_of_nextLine (s := ⟨42 :: cs ++ more, c⟩) (nextLine_append hn)
        have hle := bulkSpans_rest_le h
        simp only [nextLine, Option.map_eq_some_iff, Prod.exists, Prod.mk.injEq] at hn
        obtain ⟨l, r, hl, rfl, rfl⟩ := hn
        -- a header that survives the count test still carries its type byte
        obtain ⟨ds, hd⟩ : ∃ ds, trimCRLF l = 42 :: ds := by
          obtain ⟨d, hd⟩ : ∃ d, 42 :: cs = trimCRLF l ++ d := by
            have h1 := splitLine_eq_append hl
            obtain ⟨d, hd⟩ := List.rdropWhile_prefix isCRLF l
            exact ⟨d ++ r, by rw [h1, ← List.append_assoc, trimCRLF, hd]⟩
          cases ht : trimCRLF l with
          | nil => rw [ht] at hp; simp [parseCount] at hp
          | cons x xs =>
            rw [ht, List.cons_append] at hd
            exact ⟨xs, by rw [(List.cons.inj hd).1]⟩
        have hfl := congrArg List.length (splitLine_eq_append hl)
        rw [List.length_append] at hfl
        rw [hd] at hline hp
        simp only [readStreamedCommand, show ByteStream.input.readLine = ByteStream.readLine from rfl, hline,
          ne_eq, not_true_eq_false, if_false, List.tail_cons] at hp ⊢
        rw [hp]
        dsimp only
        rw [if_neg (by omega), if_neg (by omega), readElems_of_bulkSpans h]
        simp only [List.length_append] at hle ⊢
        congr 2
        omega
  · cases h

/-! ### The reader refines the parser -/

theorem Reader.readBufferedCommand_streamed {r r' : Reader} {args : Args}
    (h : r.readBufferedCommand = some (args, r')) :
    readStreamedCommand ByteStream.input r.view = .done (.ok args) r'.view := by
  simp only [Reader.readBufferedCommand, Option.map_eq_some_iff, Prod.exists, Prod.mk.injEq] at h
  obtain ⟨as, rest, hp, rfl, rfl⟩ := h
  exact parseFrame_streamed hp _ _

/-- Filling the buffer does not change what is to come. -/
theorem Reader.view_fill (r : Reader) : Reader.view ⟨r.r.fill, r.n⟩ = r.view := by
  simp [Reader.view, Buffered.rest_fill]

theorem Reader.rest_eq_nil_of_fill {r : Reader} (h : r.r.buf = []) (hf : r.r.fill.buf = []) :
    r.r.rest = [] := by
  have := r.r.fill_buf_eq (by simp [h, r.r.cap_pos]) (by rw [hf, h])
  simp [Buffered.rest, h, this]

theorem parseFuel_nil (fuel c : ℕ) : parseFuel (fuel + 1) ⟨[], c⟩ = (.error .eof, ⟨[], c⟩) := by
  simp [parseFuel, readStreamedCommand, ByteStream.input, ByteStream.readLine, splitLine]

/-- Reading a command from the connection, in place or streamed, is parsing the bytes
to come. -/
theorem Reader.readCommandFuel_view (fuel : ℕ) (r : Reader) :
    parseFuel fuel r.view = Prod.map id Reader.view (r.readCommandFuel fuel) := by
  induction fuel generalizing r with
  | zero => rfl
  | succ fuel ih =>
    rw [Reader.readCommandFuel]
    cases hb : r.readBufferedCommand with
    | some p =>
      rw [parseFuel, Reader.readBufferedCommand_streamed hb]
      rfl
    | none =>
      set r₁ : Reader := if r.r.buf = [] then ⟨r.r.fill, r.n⟩ else r with hr₁
      have hv : r₁.view = r.view := by
        rw [hr₁]; split_ifs
        · exact r.view_fill
        · rfl
      dsimp only
      split_ifs with he
      · have hnil : r.r.rest = [] := by
          by_cases h0 : r.r.buf = []
          · rw [hr₁, if_pos h0] at he
            exact Reader.rest_eq_nil_of_fill h0 he
          · rw [hr₁, if_neg h0] at he
            exact absurd he h0
        have hview : r.view = ⟨[], r.n⟩ := by rw [Reader.view, hnil]
        rw [hview, parseFuel_nil, ← hview, ← hv]
        rfl
      · cases hb₁ : r₁.readBufferedCommand with
        | some p =>
          rw [parseFuel, ← hv, Reader.readBufferedCommand_streamed hb₁]
          rfl
        | none =>
          rw [parseFuel, ← hv, readStreamedCommand_hom Reader.input_hom]
          rcases readStreamedCommand Reader.input r₁ with ⟨res, r'⟩ | r'
          · rfl
          · exact ih r'

theorem Reader.readCommand_view (r : Reader) :
    parse r.view = Prod.map id Reader.view r.readCommand :=
  r.readCommandFuel_view _

/-! ### Progress -/

theorem ByteStream.readLine_le (s : ByteStream) : s.readLine.2.rest.length ≤ s.rest.length := by
  unfold ByteStream.readLine
  split
  · rename_i l r h
    rw [splitLine_eq_append h, List.length_append]
    exact Nat.le_add_left _ _
  · simp

theorem ByteStream.readLine_lt {s : ByteStream} {l : Bytes} {s' : ByteStream} (h : s.readLine = (.ok l, s')) :
    s'.rest.length < s.rest.length := by
  unfold ByteStream.readLine at h
  split at h
  · rename_i l' r hl
    simp only [Prod.mk.injEq] at h
    have := List.length_pos_of_ne_nil (splitLine_line_ne_nil hl)
    rw [splitLine_eq_append hl, List.length_append, ← h.2]
    dsimp only
    omega
  · simp at h

theorem ByteStream.readFull_le (k : ℕ) (s : ByteStream) : (s.readFull k).2.rest.length ≤ s.rest.length := by
  unfold ByteStream.readFull
  split <;> simp

theorem readElems_le (n : ℕ) (s : ByteStream) :
    (readElems ByteStream.input n s).2.rest.length ≤ s.rest.length := by
  induction n generalizing s with
  | zero => exact le_rfl
  | succ n ih =>
    simp only [readElems]
    have h1 := s.readLine_le
    change _ ≤ _ at h1
    rcases hl : ByteStream.input.readLine s with ⟨res, s₁⟩
    replace h1 : s₁.rest.length ≤ s.rest.length := by
      have : s.readLine = (res, s₁) := hl
      rwa [this] at h1
    rcases res with e | line
    · exact h1
    rcases line with _ | ⟨c, digits⟩
    · exact h1
    dsimp only
    split
    · exact h1
    rcases parseCount digits with _ | len
    · exact h1
    dsimp only
    split
    · exact h1
    have h2 := s₁.readFull_le (len.toNat + 2)
    rcases hf : ByteStream.input.readFull (len.toNat + 2) s₁ with ⟨res, s₂⟩
    replace h2 : s₂.rest.length ≤ s₁.rest.length := by
      have : s₁.readFull (len.toNat + 2) = (res, s₂) := hf
      rwa [this] at h2
    rcases res with e | buf
    · exact h2.trans h1
    have h3 := ih s₂
    dsimp only
    rcases he : readElems ByteStream.input n s₂ with ⟨res, s₃⟩
    rw [he] at h3
    rcases res with e | args <;> exact h3.trans (h2.trans h1)

/-- An activation that reads on, or that answers, leaves fewer than `k` bytes. -/
def Step.Advances (k : ℕ) : Step ByteStream → Prop
  | .again s => s.rest.length < k
  | .done (.ok _) s => s.rest.length < k
  | .done (.error _) _ => True

theorem readStreamedCommand_advances (s : ByteStream) :
    (readStreamedCommand ByteStream.input s).Advances s.rest.length := by
  unfold readStreamedCommand
  rcases hl : ByteStream.input.readLine s with ⟨res, s₁⟩
  rcases res with e | line
  · trivial
  have h1 : s₁.rest.length < s.rest.length := ByteStream.readLine_lt hl
  rcases line with _ | ⟨c, cs⟩
  · exact h1
  dsimp only
  by_cases hc : c ≠ 42
  · rw [if_pos hc]
    rcases splitInline (c :: cs) with e | args
    · trivial
    · rcases args with _ | ⟨a, as⟩ <;> exact h1
  rw [if_neg hc]
  rcases parseCount cs with _ | n
  · trivial
  dsimp only
  by_cases h2 : (maxMultiBulk : ℤ) < n
  · rw [if_pos h2]; trivial
  rw [if_neg h2]
  by_cases h3 : n ≤ 0
  · rw [if_pos h3]; exact h1
  rw [if_neg h3]
  have h4 := readElems_le n.toNat s₁
  rcases he : readElems ByteStream.input n.toNat s₁ with ⟨res, s₂⟩
  rw [he] at h4
  rcases res with e | args
  · trivial
  · exact lt_of_le_of_lt h4 h1

theorem parseFuel_lt (fuel : ℕ) (s s' : ByteStream) (args : Args)
    (h : parseFuel fuel s = (.ok args, s')) : s'.rest.length < s.rest.length := by
  induction fuel generalizing s with
  | zero => simp [parseFuel] at h
  | succ fuel ih =>
    have hadv := readStreamedCommand_advances s
    rw [parseFuel] at h
    rcases hs : readStreamedCommand ByteStream.input s with ⟨res, s₁⟩ | s₁
    · rw [hs] at h hadv
      simp only [Prod.mk.injEq] at h
      obtain ⟨rfl, rfl⟩ := h
      exact hadv
    · rw [hs] at h hadv
      exact (ih s₁ h).trans hadv

/-- More budget than bytes changes nothing. -/
theorem parseFuel_eq_parse (fuel : ℕ) (s : ByteStream) (hf : s.rest.length < fuel) :
    parseFuel fuel s = parse s := by
  have key : ∀ m fuel (s : ByteStream), s.rest.length < fuel → s.rest.length < m →
      parseFuel fuel s = parseFuel m s := by
    intro m
    induction m with
    | zero => intro _ _ _ h; omega
    | succ m ih =>
      intro fuel s hf hm
      obtain ⟨fuel, rfl⟩ : ∃ f, fuel = f + 1 := ⟨fuel - 1, by omega⟩
      have hadv := readStreamedCommand_advances s
      rw [parseFuel, parseFuel]
      rcases hs : readStreamedCommand ByteStream.input s with ⟨res, s₁⟩ | s₁
      · rfl
      · rw [hs] at hadv
        have : s₁.rest.length < s.rest.length := hadv
        exact ih fuel s₁ (by omega) (by omega)
  exact key _ _ _ hf (Nat.lt_succ_self _)

theorem parse_eq (s : ByteStream) :
    parse s = match readStreamedCommand ByteStream.input s with
      | .done res s' => (res, s')
      | .again s' => parse s' := by
  have hadv := readStreamedCommand_advances s
  rw [parse, parseFuel]
  rcases hs : readStreamedCommand ByteStream.input s with ⟨res, s₁⟩ | s₁
  · rfl
  · rw [hs] at hadv
    exact parseFuel_eq_parse _ s₁ hadv

end ShardKV.Resp
