import ShardKV.Resp.Roundtrip

/-! Commands beyond the protocol's limits. Their frames are refused where the count that
is too large is read, and no part of such a frame reads as a command. -/

namespace ShardKV

namespace Decimal

theorem readDigits_append_none {bound v : ℕ} {xs : Bytes} (ys : Bytes)
    (h : readDigits bound v xs = none) : readDigits bound v (xs ++ ys) = none := by
  induction xs generalizing v with
  | nil => cases h
  | cons b bs ih =>
    simp only [List.cons_append, readDigits] at h ⊢
    split_ifs at h ⊢
    · rfl
    · rfl
    · exact ih h

/-- A numeral above the bound is not read. -/
theorem readDigits_itoa_none {bound n : ℕ} (hb : 9 ≤ bound) (h : bound < n) :
    readDigits bound 0 (itoa n) = none := by
  induction n using digit_induction with
  | base d hd => omega
  | step n d hn hd ih =>
    rw [itoa_step hn hd]
    by_cases hle : n ≤ bound
    · rw [readDigits_append _ _ n _ _ (readDigits_itoa hle)]
      simp only [readDigits, digitByte_sub hd]
      rw [if_neg (by omega), if_pos (by omega)]
    · exact readDigits_append_none _ (ih (by omega))

end Decimal

namespace Resp

open Decimal

theorem parseCount_itoa_none {n : ℕ} (h : maxInt < n) : parseCount (itoa n) = none := by
  rw [parseCount_digits, readDigits_itoa_none (by decide) h]
  rfl

theorem ByteStream.readLine_writeLen {k : UInt8} (hk : k ≠ 10) (n : ℕ) (rest : Bytes) (c : ℕ) :
    ByteStream.readLine ⟨writeLen k n ++ rest, c⟩ =
      (.ok (k :: itoa n), ⟨rest, c + (writeLen k n).length⟩) := by
  have htrim : trimCRLF (writeLen k n) = k :: itoa n := by simpa using trimCRLF_writeLen [] k n
  simp only [ByteStream.readLine, splitLine_writeLen hk, htrim]

/-- A bulk string that is too long is refused. -/
theorem readElems_overlong {args : Args} (h : ∃ a ∈ args, maxBulkLen < a.length) (rest : Bytes)
    (c : ℕ) : ∃ s', readElems ByteStream.input args.length
      ⟨(args.map writeBulk).flatten ++ rest, c⟩ = (.error .invalidBulk, s') := by
  induction args generalizing c with
  | nil =>
    obtain ⟨a, ha, -⟩ := h
    exact absurd ha List.not_mem_nil
  | cons a as ih =>
    have happ : ((a :: as).map writeBulk).flatten ++ rest =
        writeLen 36 a.length ++ (a ++ (crlf ++ ((as.map writeBulk).flatten ++ rest))) := by
      simp [writeBulk]
    have hline := ByteStream.readLine_writeLen (k := 36) (by decide) a.length
      (a ++ (crlf ++ ((as.map writeBulk).flatten ++ rest))) c
    generalize c + (writeLen 36 a.length).length = c' at hline
    rw [happ, List.length_cons, readElems, show ByteStream.input.readLine = ByteStream.readLine from rfl,
      hline]
    dsimp only
    rw [if_neg (by decide)]
    by_cases ha : a.length ≤ maxBulkLen
    · have htail : ∃ b ∈ as, maxBulkLen < b.length := by
        obtain ⟨b, hb, hlong⟩ := h
        rcases List.mem_cons.mp hb with rfl | hb
        · exact absurd hlong (not_lt.mpr ha)
        · exact ⟨b, hb, hlong⟩
      rw [parseCount_itoa (ha.trans (by decide))]
      dsimp only
      rw [if_neg (by omega), Int.toNat_natCast,
        show ByteStream.input.readFull = ByteStream.readFull from rfl]
      have hfull : ByteStream.readFull (a.length + 2)
          ⟨a ++ (crlf ++ ((as.map writeBulk).flatten ++ rest)), c'⟩ =
            (.ok (a ++ crlf), ⟨(as.map writeBulk).flatten ++ rest, c' + (a.length + 2)⟩) := by
        simp [ByteStream.readFull, crlf, List.take_append, List.drop_append]
      rw [hfull]
      dsimp only
      obtain ⟨s', hs⟩ := ih htail (c' + (a.length + 2))
      rw [hs]
      exact ⟨s', rfl⟩
    · by_cases hmax : a.length ≤ maxInt
      · rw [parseCount_itoa hmax]
        dsimp only
        rw [if_pos (by omega)]
        exact ⟨_, rfl⟩
      · rw [parseCount_itoa_none (by omega)]
        exact ⟨_, rfl⟩

/-- A command beyond the protocol's limits is refused. -/
theorem parse_overlong {args : Args} (hne : args ≠ []) (h : ¬ WellFormed args) (rest : Bytes)
    (c : ℕ) : ∃ err s', parse ⟨writeCommand args ++ rest, c⟩ = (.error err, s') := by
  have hpos := List.length_pos_of_ne_nil hne
  have hline := ByteStream.readLine_writeLen (k := 42) (by decide) args.length
    ((args.map writeBulk).flatten ++ rest) c
  generalize c + (writeLen 42 args.length).length = c' at hline
  have happ : writeCommand args ++ rest =
      writeLen 42 args.length ++ ((args.map writeBulk).flatten ++ rest) := by
    simp [writeCommand, writeArrayHeader]
  rw [happ, parse_eq, readStreamedCommand,
    show ByteStream.input.readLine = ByteStream.readLine from rfl, hline]
  dsimp only
  rw [if_neg (by decide)]
  by_cases hcount : args.length ≤ maxMultiBulk
  · have hlong : ∃ a ∈ args, maxBulkLen < a.length := by
      by_contra hall
      push Not at hall
      exact h ⟨hne, hcount, hall⟩
    obtain ⟨s', hs⟩ := readElems_overlong hlong rest c'
    rw [parseCount_itoa (hcount.trans (by decide))]
    dsimp only
    rw [if_neg (by omega), if_neg (by omega), Int.toNat_natCast, hs]
    exact ⟨_, _, rfl⟩
  · by_cases hmax : args.length ≤ maxInt
    · rw [parseCount_itoa hmax]
      dsimp only
      rw [if_pos (by omega)]
      exact ⟨_, _, rfl⟩
    · rw [parseCount_itoa_none (by omega)]
      exact ⟨_, _, rfl⟩
/-- What a reader makes of the bytes that have come in of a frame and of what follows it: the
command of the frame once all of it is there, and otherwise an error. -/
theorem parse_arrived {args : Args} (hne : args ≠ []) {arrived more : Bytes}
    (h : arrived <+: writeCommand args ++ more) (c : ℕ) :
    (∃ rest, arrived = writeCommand args ++ rest ∧ rest <+: more ∧
      parse ⟨arrived, c⟩ = (.ok args, ⟨rest, c + commandSize args⟩)) ∨
    ∃ err s', parse ⟨arrived, c⟩ = (.error err, s') := by
  obtain ⟨d, hd⟩ := h
  by_cases hwf : WellFormed args
  · rcases List.append_eq_append_iff.1 hd with ⟨missing, hframe, -⟩ | ⟨rest, rfl, hmore⟩
    · by_cases hnil : missing = []
      · rw [hnil, List.append_nil] at hframe
        refine .inl ⟨[], by rw [hframe, List.append_nil], List.nil_prefix, ?_⟩
        have := parse_writeCommand hwf [] c
        rwa [List.append_nil, hframe] at this
      · exact .inr (parse_torn hwf hnil hframe.symm c)
    · exact .inl ⟨rest, rfl, ⟨d, hmore.symm⟩, parse_writeCommand hwf rest c⟩
  · rcases hp : parse ⟨arrived, c⟩ with ⟨err | found, s'⟩
    · exact .inr ⟨err, s', rfl⟩
    · -- what is found in a part of the frame would be found in the whole
      obtain ⟨err, s'', herr⟩ := parse_overlong hne hwf more c
      have hall := parse_extend hp d
      rw [show ByteStream.extend ⟨arrived, c⟩ d = ⟨arrived ++ d, c⟩ from rfl, hd, herr] at hall
      exact absurd (congrArg Prod.fst hall) (by simp)

end Resp

end ShardKV
