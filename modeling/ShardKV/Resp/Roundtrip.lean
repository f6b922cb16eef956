import ShardKV.Resp.Stream

/-! Commands written with `writeCommand` are the commands read back. A record cut
short reads as an error, and a record whose header is complete either fails or
yields exactly as many arguments as its header announces. -/

namespace ShardKV.Resp

open Decimal

/-- A command the writer's callers may append: at least one argument, and every count
within the protocol's limits. -/
structure WellFormed (args : Args) : Prop where
  ne_nil : args ≠ []
  count_le : args.length ≤ maxMultiBulk
  bulk_le : ∀ a ∈ args, a.length ≤ maxBulkLen

instance (args : Args) : Decidable (WellFormed args) :=
  decidable_of_iff (args ≠ [] ∧ args.length ≤ maxMultiBulk ∧ ∀ a ∈ args, a.length ≤ maxBulkLen)
    ⟨fun h => ⟨h.1, h.2.1, h.2.2⟩, fun h => ⟨h.1, h.2, h.3⟩⟩

theorem splitLine_writeLen {k : UInt8} (hk : k ≠ 10) (n : ℕ) (rest : Bytes) :
    splitLine (writeLen k n ++ rest) = some (writeLen k n, rest) := by
  have h : (10 : UInt8) ∉ k :: itoa n ++ [13] := by
    simp only [List.cons_append, List.mem_cons, List.mem_append, List.not_mem_nil, or_false, not_or]
    exact ⟨hk.symm, lf_not_mem_itoa n, by decide⟩
  have := splitLine_of_not_mem (b := rest) h
  simpa [writeLen, crlf] using this

theorem nextLine_writeLen {k : UInt8} (hk : k ≠ 10) (n : ℕ) (rest : Bytes) :
    nextLine (writeLen k n ++ rest) = some (k :: itoa n, rest) := by
  simpa [nextLine, splitLine_writeLen hk] using trimCRLF_writeLen [] k n

theorem bulkSpan_writeBulk {b : Bytes} (hb : b.length ≤ maxBulkLen) (rest : Bytes) :
    bulkSpan (writeBulk b ++ rest) = some (b, rest) := by
  have hm : b.length ≤ maxInt := hb.trans (by decide)
  rw [writeBulk, List.append_assoc, List.append_assoc, bulkSpan, nextLine_writeLen (by decide)]
  simp only [parseCount_itoa hm]
  rw [if_neg (by omega), if_neg (by simp [crlf])]
  simp [crlf, List.drop_append]

theorem bulkSpans_writeBulk {args : Args} (h : ∀ a ∈ args, a.length ≤ maxBulkLen) (rest : Bytes) :
    bulkSpans args.length ((args.map writeBulk).flatten ++ rest) = some (args, rest) := by
  induction args with
  | nil => rfl
  | cons a as ih =>
    have ha := bulkSpan_writeBulk (h a (by simp)) ((as.map writeBulk).flatten ++ rest)
    have hi := ih fun b hb => h b (by simp [hb])
    simp [bulkSpans, ha, hi]

theorem parseFrame_writeCommand {args : Args} (h : WellFormed args) (rest : Bytes) :
    parseFrame (writeCommand args ++ rest) = some (args, rest) := by
  have hpos := List.length_pos_of_ne_nil h.ne_nil
  have hmax := h.count_le
  have hm : args.length ≤ maxInt := hmax.trans (by decide)
  have hl := nextLine_writeLen (k := 42) (by decide) args.length
    ((args.map writeBulk).flatten ++ rest)
  rw [← List.append_assoc] at hl
  change nextLine (writeCommand args ++ rest) = _ at hl
  unfold parseFrame
  split
  · rw [hl]
    dsimp only
    rw [List.tail_cons, parseCount_itoa hm]
    dsimp only
    rw [if_neg (by omega)]
    simpa using bulkSpans_writeBulk h.bulk_le rest
  · rename_i hne
    exact absurd rfl (hne _)

/-- Reading the front of a log returns its first command and leaves the others. -/
theorem parse_writeCommand {args : Args} (h : WellFormed args) (rest : Bytes) (c : ℕ) :
    parse ⟨writeCommand args ++ rest, c⟩ = (.ok args, ⟨rest, c + commandSize args⟩) := by
  rw [parse_eq]
  have := parseFrame_streamed (parseFrame_writeCommand h rest) [] c
  simp only [List.append_nil, List.length_append, writeCommand_length] at this
  rw [this]
  simp

/-! ### Bytes that arrive later -/

/-- The same input with more bytes behind it. -/
def ByteStream.extend (s : ByteStream) (more : Bytes) : ByteStream := ⟨s.rest ++ more, s.n⟩

theorem ByteStream.readLine_extend {s s' : ByteStream} {l : Bytes} (h : s.readLine = (.ok l, s'))
    (more : Bytes) : (s.extend more).readLine = (.ok l, s'.extend more) := by
  unfold ByteStream.readLine at h ⊢
  split at h
  · rename_i l' r hs
    simp only [Prod.mk.injEq, Except.ok.injEq] at h
    obtain ⟨rfl, rfl⟩ := h
    simp [ByteStream.extend, splitLine_append hs]
  · simp at h

theorem ByteStream.readFull_extend {s s' : ByteStream} {k : ℕ} {b : Bytes} (h : s.readFull k = (.ok b, s'))
    (more : Bytes) : (s.extend more).readFull k = (.ok b, s'.extend more) := by
  unfold ByteStream.readFull at h ⊢
  by_cases hk : k ≤ s.rest.length
  · rw [if_pos hk] at h
    simp only [Prod.mk.injEq, Except.ok.injEq] at h
    obtain ⟨rfl, rfl⟩ := h
    have hk' : k ≤ (s.rest ++ more).length := by rw [List.length_append]; omega
    simp only [ByteStream.extend, if_pos hk', List.take_append_of_le_length hk,
      List.drop_append_of_le_length hk]
  · rw [if_neg hk] at h
    simp at h

/-- Elements answered from a prefix of the input do not depend on what follows it. -/
theorem readElems_extend {n : ℕ} {s s' : ByteStream} {args : Args}
    (h : readElems ByteStream.input n s = (.ok args, s')) (more : Bytes) :
    readElems ByteStream.input n (s.extend more) = (.ok args, s'.extend more) := by
  induction n generalizing s args s' with
  | zero =>
    simp only [readElems, Prod.mk.injEq, Except.ok.injEq] at h
    obtain ⟨rfl, rfl⟩ := h
    rfl
  | succ n ih =>
    rw [readElems] at h ⊢
    rcases hl : ByteStream.input.readLine s with ⟨res, s₁⟩
    rw [hl] at h
    rcases res with e | line
    · simp at h
    rw [show ByteStream.input.readLine (s.extend more) = _ from ByteStream.readLine_extend hl more]
    rcases line with _ | ⟨c, digits⟩
    · simp at h
    dsimp only at h ⊢
    by_cases hc : c ≠ 36
    · rw [if_pos hc] at h; simp at h
    rw [if_neg hc] at h ⊢
    rcases hp : parseCount digits with _ | len
    · rw [hp] at h; simp at h
    rw [hp] at h
    dsimp only at h ⊢
    by_cases hlen : len < 0 ∨ (maxBulkLen : ℤ) < len
    · rw [if_pos hlen] at h; simp at h
    rw [if_neg hlen] at h ⊢
    rcases hf : ByteStream.input.readFull (len.toNat + 2) s₁ with ⟨res, s₂⟩
    rw [hf] at h
    rcases res with e | buf
    · simp at h
    rw [show ByteStream.input.readFull _ (s₁.extend more) = _ from ByteStream.readFull_extend hf more]
    dsimp only at h ⊢
    rcases he : readElems ByteStream.input n s₂ with ⟨res, s₃⟩
    rw [he] at h
    rcases res with e | as
    · simp at h
    simp only [Prod.mk.injEq, Except.ok.injEq] at h
    obtain ⟨rfl, rfl⟩ := h
    rw [ih he]

theorem readStreamedCommand_extend {s : ByteStream} {st : Step ByteStream}
    (h : readStreamedCommand ByteStream.input s = st) (hok : ∀ e s', st ≠ .done (.error e) s')
    (more : Bytes) : readStreamedCommand ByteStream.input (s.extend more) = st.map (·.extend more) := by
  subst h
  unfold readStreamedCommand at hok ⊢
  rcases hl : ByteStream.input.readLine s with ⟨res, s₁⟩
  rw [hl] at hok
  rcases res with e | line
  · exact absurd rfl (hok e s₁)
  rw [show ByteStream.input.readLine (s.extend more) = _ from ByteStream.readLine_extend hl more]
  rcases line with _ | ⟨c, cs⟩
  · rfl
  dsimp only at hok ⊢
  by_cases hc : c ≠ 42
  · rw [if_pos hc]
    rw [if_pos hc]
    rcases splitInline (c :: cs) with e | args
    · rfl
    · rcases args with _ | ⟨a, as⟩ <;> rfl
  rw [if_neg hc] at hok ⊢
  rw [if_neg hc]
  rcases hp : parseCount cs with _ | n
  · rfl
  rw [hp] at hok
  dsimp only at hok ⊢
  by_cases h2 : (maxMultiBulk : ℤ) < n
  · simp [h2, Step.map]
  rw [if_neg h2] at hok ⊢
  rw [if_neg h2]
  by_cases h3 : n ≤ 0
  · simp [h3, Step.map]
  rw [if_neg h3] at hok ⊢
  rw [if_neg h3]
  rcases he : readElems ByteStream.input n.toNat s₁ with ⟨res, s₂⟩
  rw [he] at hok
  rcases res with e | args
  · exact absurd rfl (hok e s₂)
  · rw [readElems_extend he]
    rfl

/-- A command found in a prefix of a log is found in the log. -/
theorem parse_extend {s s' : ByteStream} {args : Args} (h : parse s = (.ok args, s')) (more : Bytes) :
    parse (s.extend more) = (.ok args, s'.extend more) := by
  have key : ∀ k (s : ByteStream), s.rest.length < k → parse s = (.ok args, s') →
      parse (s.extend more) = (.ok args, s'.extend more) := by
    intro k
    induction k with
    | zero => intro s hk; omega
    | succ k ih =>
      intro s hk h
      have hadv := readStreamedCommand_advances s
      rw [parse_eq] at h ⊢
      rcases hs : readStreamedCommand ByteStream.input s with ⟨res, s₁⟩ | s₁
      · rw [hs] at h
        simp only [Prod.mk.injEq] at h
        obtain ⟨rfl, rfl⟩ := h
        rw [readStreamedCommand_extend hs (by simp)]
        rfl
      · rw [hs] at h hadv
        have : s₁.rest.length < s.rest.length := hadv
        rw [readStreamedCommand_extend hs (by simp)]
        exact ih s₁ (by omega) h
  exact key _ s (Nat.lt_succ_self _) h

/-! ### Torn records -/

/-- An answer holds as many arguments as the header announced. -/
theorem readElems_length {σ : Type} (I : Input σ) (n : ℕ) (s : σ) {args : Args} {s' : σ}
    (h : readElems I n s = (.ok args, s')) : args.length = n := by
  induction n generalizing s args s' with
  | zero =>
    simp only [readElems, Prod.mk.injEq, Except.ok.injEq] at h
    simp [← h.1]
  | succ n ih =>
    simp only [readElems] at h
    rcases hl : I.readLine s with ⟨res, s₁⟩
    rw [hl] at h
    rcases res with e | line
    · simp at h
    rcases line with _ | ⟨c, digits⟩
    · simp at h
    dsimp only at h
    split at h
    · simp at h
    rcases hp : parseCount digits with _ | len
    · rw [hp] at h; simp at h
    rw [hp] at h
    dsimp only at h
    split at h
    · simp at h
    rcases hf : I.readFull (len.toNat + 2) s₁ with ⟨res, s₂⟩
    rw [hf] at h
    rcases res with e | buf
    · simp at h
    dsimp only at h
    rcases he : readElems I n s₂ with ⟨res, s₃⟩
    rw [he] at h
    rcases res with e | as
    · simp at h
    · simp only [Prod.mk.injEq, Except.ok.injEq] at h
      rw [← h.1, List.length_cons, ih s₂ he]

/-- A record cut short before its last byte does not read as a command. -/
theorem parse_torn {args : Args} (h : WellFormed args) {t d : Bytes} (hd : d ≠ [])
    (ht : t ++ d = writeCommand args) (c : ℕ) : ∃ e s', parse ⟨t, c⟩ = (.error e, s') := by
  rcases hp : parse ⟨t, c⟩ with ⟨res, s'⟩
  rcases res with e | as
  · exact ⟨e, s', rfl⟩
  · have h1 := parse_extend hp d
    have h2 := parse_writeCommand h [] c
    rw [List.append_nil, ← ht] at h2
    rw [show ByteStream.extend ⟨t, c⟩ d = ⟨t ++ d, c⟩ from rfl, h2] at h1
    have h3 := congrArg (fun p => p.2.rest) h1
    simp only [ByteStream.extend] at h3
    exact absurd (List.append_eq_nil_iff.mp h3.symm).2 hd

theorem parse_header_length {n : ℕ} (hpos : 0 < n) (hmax : n ≤ maxMultiBulk) (rest : Bytes) (c : ℕ)
    {args : Args} {s' : ByteStream}
    (h : parse ⟨writeArrayHeader n ++ rest, c⟩ = (.ok args, s')) : args.length = n := by
  have hline := ByteStream.readLine_of_nextLine (s := ⟨writeArrayHeader n ++ rest, c⟩)
    (nextLine_writeLen (k := 42) (by decide) n rest)
  rw [parse_eq] at h
  simp only [readStreamedCommand, show ByteStream.input.readLine = ByteStream.readLine from rfl, hline,
    ne_eq, not_true_eq_false, if_false, parseCount_itoa (hmax.trans (by decide))] at h
  rw [if_neg (by omega), if_neg (by omega)] at h
  simp only [Int.toNat_natCast] at h
  exact readElems_length _ _ _ h

/-- A record cut inside its count header swallows the header of the record appended
behind it, and the two counts run together into one that does not parse. -/
theorem parse_torn_header {n m : ℕ} {t y : Bytes} (ht : t ≠ []) (hy : y ≠ [])
    (h : t ++ y = writeArrayHeader n) (rest : Bytes) (c : ℕ) :
    ∃ s', parse ⟨t ++ (writeArrayHeader m ++ rest), c⟩ = (.error .invalidMultibulk, s') := by
  -- the cut is before the newline of the header
  have hpre : t <+: 42 :: itoa n ++ [13] := by
    have hfull : t <+: (42 :: itoa n ++ [13]) ++ [10] := ⟨y, by simp [h, writeArrayHeader, writeLen, crlf]⟩
    apply List.prefix_of_prefix_length_le hfull (List.prefix_append _ _)
    have hlen := congrArg List.length h
    have := List.length_pos_of_ne_nil hy
    simp only [writeArrayHeader, writeLen_length, List.length_append] at hlen
    simp only [List.length_append, List.length_cons, List.length_nil]
    omega
  have hlf : (10 : UInt8) ∉ t := by
    intro hm
    have := hpre.subset hm
    simp only [List.cons_append, List.mem_cons, List.mem_append, List.not_mem_nil, or_false] at this
    rcases this with h | h | h
    · exact absurd h (by decide)
    · exact lf_not_mem_itoa n h
    · exact absurd h (by decide)
  obtain ⟨x, rfl⟩ : ∃ x, t = 42 :: x := by
    cases t with
    | nil => exact absurd rfl ht
    | cons b x =>
      simp only [writeArrayHeader, writeLen, List.cons_append, List.cons.injEq] at h
      exact ⟨x, by rw [h.1]⟩
  have hline : nextLine (42 :: x ++ (writeArrayHeader m ++ rest)) =
      some (42 :: (x ++ 42 :: itoa m), rest) := by
    have hs : splitLine (42 :: x ++ (writeArrayHeader m ++ rest)) =
        some (42 :: x ++ writeArrayHeader m, rest) := by
      rw [splitLine_none_append (splitLine_eq_none hlf), writeArrayHeader,
        splitLine_writeLen (by decide)]
      rfl
    rw [nextLine, hs, Option.map_some, writeArrayHeader, trimCRLF_writeLen]
    rfl
  have hread := ByteStream.readLine_of_nextLine (s := ⟨42 :: x ++ (writeArrayHeader m ++ rest), c⟩) hline
  have hcount : parseCount (x ++ 42 :: itoa m) = none :=
    parseCount_none_of_mem (c := 42) (by decide) (by decide) (by decide) (by simp)
  rw [parse_eq]
  simp only [readStreamedCommand, show ByteStream.input.readLine = ByteStream.readLine from rfl, hread,
    ne_eq, not_true_eq_false, if_false, hcount]
  exact ⟨_, rfl⟩

/-- What a torn record and a whole one behind it read as: never a first command with
another number of arguments than the torn record had. -/
theorem parse_torn_append {args : Args} (h : WellFormed args) {t d : Bytes} (ht : t ≠ [])
    (hd : t ++ d = writeCommand args) (next : Args) (c : ℕ) {as : Args} {s' : ByteStream}
    (hp : parse ⟨t ++ writeCommand next, c⟩ = (.ok as, s')) : as.length = args.length := by
  have hhead : writeArrayHeader args.length <+: writeCommand args := List.prefix_append _ _
  have htp : t <+: writeCommand args := ⟨d, hd⟩
  by_cases hlen : (writeArrayHeader args.length).length ≤ t.length
  · obtain ⟨t', rfl⟩ := List.prefix_of_prefix_length_le hhead htp hlen
    rw [List.append_assoc] at hp
    exact parse_header_length (List.length_pos_of_ne_nil h.ne_nil) h.count_le _ _ hp
  · obtain ⟨y, hy⟩ := List.prefix_of_prefix_length_le htp hhead (by omega)
    have hyn : y ≠ [] := by
      rintro rfl
      rw [List.append_nil] at hy
      rw [hy] at hlen
      exact hlen le_rfl
    obtain ⟨s₁, hs₁⟩ := parse_torn_header (m := next.length) ht hyn hy
      ((next.map writeBulk).flatten) c
    rw [writeCommand, hs₁] at hp
    simp at hp

/-! ### A sequence of commands -/

/-- The encoder of the replication offsets, which appends to one buffer. -/
def encodeCommand (args : Args) : Bytes :=
  args.foldl (fun buf a => buf ++ [36] ++ itoa a.length ++ [13, 10] ++ a ++ [13, 10])
    ([42] ++ itoa args.length ++ [13, 10])

theorem encodeCommand_eq (args : Args) : encodeCommand args = writeCommand args := by
  have hloop : ∀ buf : Bytes, args.foldl
      (fun buf a => buf ++ [36] ++ itoa a.length ++ [13, 10] ++ a ++ [13, 10]) buf =
        buf ++ (args.map writeBulk).flatten := by
    induction args with
    | nil => exact fun buf => (List.append_nil buf).symm
    | cons a as ih =>
      intro buf
      rw [List.foldl_cons, ih]
      simp [writeBulk, writeLen, crlf]
  rw [encodeCommand, hloop]
  rfl

/-- The next `n` answers of `ReadCommand`, each with what was consumed by then. -/
def Reader.readCommands : ℕ → Reader → List (Except ReadError Args × ℕ)
  | 0, _ => []
  | n + 1, r => (r.readCommand.1, r.readCommand.2.n) :: Reader.readCommands n r.readCommand.2

/-- The answers that commands call for, from an offset on. -/
def answers : ℕ → List Args → List (Except ReadError Args × ℕ)
  | c, [] => [(.error .eof, c)]
  | c, args :: cmds => (.ok args, c + commandSize args) :: answers (c + commandSize args) cmds

/-- Whatever came in which piece, buffered or not, the commands are read back one by one
with the offset at the end of each, and then the end of the input; both encoders write
the bytes that the offsets count. -/
theorem readCommands_roundtrip {cmds : List Args} (h : ∀ args ∈ cmds, WellFormed args) (r : Reader)
    (hr : r.r.rest = (cmds.map writeCommand).flatten) :
    r.readCommands (cmds.length + 1) = answers r.n cmds ∧
      ∀ args ∈ cmds, encodeCommand args = writeCommand args ∧
        (writeCommand args).length = commandSize args := by
  refine ⟨?_, fun args _ => ⟨encodeCommand_eq args, writeCommand_length args⟩⟩
  induction cmds generalizing r with
  | nil =>
    have hview : r.view = ⟨[], r.n⟩ := by rw [Reader.view, hr]; rfl
    have hread := r.readCommand_view
    rw [hview, parse, parseFuel_nil] at hread
    have hres : r.readCommand.1 = .error .eof := (congrArg Prod.fst hread).symm
    have hn : r.readCommand.2.n = r.n := (congrArg (fun p => p.2.n) hread).symm
    simp [Reader.readCommands, answers, hres, hn]
  | cons args cmds ih =>
    obtain ⟨hargs, hcmds⟩ := List.forall_mem_cons.mp h
    have hview : r.view = ⟨writeCommand args ++ (cmds.map writeCommand).flatten, r.n⟩ := by
      rw [Reader.view, hr]
      rfl
    have hread := r.readCommand_view
    rw [hview, parse_writeCommand hargs] at hread
    have hres : r.readCommand.1 = .ok args := (congrArg Prod.fst hread).symm
    have hn : r.readCommand.2.n = r.n + commandSize args := (congrArg (fun p => p.2.n) hread).symm
    have hleft : r.readCommand.2.r.rest = (cmds.map writeCommand).flatten :=
      (congrArg (fun p => p.2.rest) hread).symm
    rw [List.length_cons, Reader.readCommands, ih hcmds r.readCommand.2 hleft, answers, hn, hres]

/-- Two commands that arrive in one read, with a payload of line ends. -/
theorem readCommands_pipelined :
    (newReader [writeCommand [[71], [13, 10]] ++ writeCommand [[80]]]).readCommands 3 =
        answers 0 [[[71], [13, 10]], [[80]]] ∧
      ∀ args ∈ [[[71], [13, 10]], [[80]]], encodeCommand args = writeCommand args ∧
        (writeCommand args).length = commandSize args :=
  @readCommands_roundtrip [[[71], [13, 10]], [[80]]] (by decide) (newReader [_])
    (by simp [newReader, Buffered.rest])

end ShardKV.Resp
