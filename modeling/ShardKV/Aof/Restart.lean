import ShardKV.Aof.Log

/-! A log across a crash and a restart. The crash keeps a prefix of the bytes the
log had accepted; the restart loads that prefix and opens the same file for
appending, torn tail included. Loading skips the torn tail, but the first record
appended behind it is read as its continuation, so the file survives further
appends exactly when the crash left no torn record. -/

namespace ShardKV.Aof

open Resp

/-- The commands whose records lie wholly within the first `cut` bytes. -/
def wholeBefore : ℕ → List Args → List Args
  | _, [] => []
  | cut, c :: cs =>
    if commandSize c ≤ cut then c :: wholeBefore (cut - commandSize c) cs else []

/-- The cut falls between two records, or at or past the end of the log. -/
def OnBoundary : ℕ → List Args → Prop
  | _, [] => True
  | cut, c :: cs => cut = 0 ∨ (commandSize c ≤ cut ∧ OnBoundary (cut - commandSize c) cs)

instance decidableOnBoundary : (cut : ℕ) → (cmds : List Args) → Decidable (OnBoundary cut cmds)
  | _, [] => isTrue trivial
  | cut, c :: cs =>
    have := decidableOnBoundary (cut - commandSize c) cs
    inferInstanceAs (Decidable (cut = 0 ∨ (commandSize c ≤ cut ∧ OnBoundary (cut - commandSize c) cs)))

/-- The file a crash leaves of a log that accepted `cmds`. -/
def crashed (policy : SyncPolicy) (cmds : List Args) (cut : ℕ) : Bytes :=
  ((openLog [] policy).appendAll cmds).written.take cut

/-- The file after the restarted server has opened it, appended `more` and closed it. -/
def restarted (policy : SyncPolicy) (cmds : List Args) (cut : ℕ) (more : List Args) : Bytes :=
  ((openLog (crashed policy cmds cut) policy).appendAll more).close.file

/-- The second load returns the commands before the cut and then those appended after
the restart, however the file's bytes are returned by its reads. -/
def Restores (cmds : List Args) (cut : ℕ) (more : List Args) : Prop :=
  ∀ (policy : SyncPolicy) (reads : List Bytes),
    reads.flatten = restarted policy cmds cut more →
      load (some reads) = wholeBefore cut cmds ++ more

theorem crashed_eq (policy : SyncPolicy) (cmds : List Args) (cut : ℕ) :
    crashed policy cmds cut = (encode cmds).take cut := by
  rw [crashed, Log.written_appendAll _ _ rfl, written_openLog, List.nil_append]

theorem restarted_eq (policy : SyncPolicy) (cmds : List Args) (cut : ℕ) (more : List Args) :
    restarted policy cmds cut more = (encode cmds).take cut ++ encode more := by
  rw [restarted, Log.close_file _ (by rw [Log.appendAll_closed]; rfl),
    Log.written_appendAll _ _ rfl, written_openLog, crashed_eq]

theorem restores_iff (cmds : List Args) (cut : ℕ) (more : List Args) :
    Restores cmds cut more ↔
      commands ⟨(encode cmds).take cut ++ encode more, 0⟩ = wholeBefore cut cmds ++ more := by
  constructor
  · intro h
    have := h .always [restarted .always cmds cut more] (by simp)
    rwa [load_eq, List.flatten_singleton, restarted_eq] at this
  · intro h policy reads hr
    rw [load_eq, hr, restarted_eq, h]

/-- What the crash keeps: the whole records before the cut and, when the cut is not on
a boundary, a non-empty proper prefix of the next one. -/
theorem take_encode (cut : ℕ) (cmds : List Args) :
    (OnBoundary cut cmds ∧ (encode cmds).take cut = encode (wholeBefore cut cmds)) ∨
    (¬ OnBoundary cut cmds ∧ ∃ c ∈ cmds, ∃ t d, t ≠ [] ∧ d ≠ [] ∧ t ++ d = writeCommand c ∧
      (encode cmds).take cut = encode (wholeBefore cut cmds) ++ t) := by
  induction cmds generalizing cut with
  | nil => left; simp [OnBoundary, wholeBefore]
  | cons c cs ih =>
    have hlen := writeCommand_length c
    by_cases hc : commandSize c ≤ cut
    · have hpos := commandSize_pos c
      have htake : (writeCommand c ++ encode cs).take cut =
          writeCommand c ++ (encode cs).take (cut - commandSize c) := by
        rw [List.take_append, hlen, List.take_of_length_le (by omega)]
      simp only [OnBoundary, wholeBefore, if_pos hc, encode_cons, htake, List.append_assoc]
      rcases ih (cut - commandSize c) with ⟨hb, he⟩ | ⟨hb, c', hm, t, d, ht, hd, htd, he⟩
      · left
        exact ⟨Or.inr ⟨hc, hb⟩, by rw [he]⟩
      · right
        refine ⟨?_, c', by simp [hm], t, d, ht, hd, htd, by rw [he]⟩
        rintro (h | h)
        · omega
        · exact hb h.2
    · simp only [OnBoundary, wholeBefore, if_neg hc, encode_cons, encode_nil, List.nil_append]
      have htake : (writeCommand c ++ encode cs).take cut = (writeCommand c).take cut := by
        rw [List.take_append_of_le_length (by omega)]
      rw [htake]
      by_cases h0 : cut = 0
      · left; simp [h0]
      · right
        have hne : writeCommand c ≠ [] := List.ne_nil_of_length_pos (by have := commandSize_pos c; omega)
        refine ⟨by simp [h0, hc], c, by simp, (writeCommand c).take cut, (writeCommand c).drop cut,
          ?_, ?_, List.take_append_drop _ _, rfl⟩
        · simp [h0, hne]
        · simp only [ne_eq, List.drop_eq_nil_iff]; omega

theorem wholeBefore_subset (cut : ℕ) (cmds : List Args) : wholeBefore cut cmds ⊆ cmds := by
  induction cmds generalizing cut with
  | nil => simp [wholeBefore]
  | cons c cs ih =>
    rw [wholeBefore]
    split_ifs
    · exact List.cons_subset_cons _ (ih _)
    · simp

/-- Without further appends a torn tail is skipped quietly. -/
theorem restores_nil {cmds : List Args} (h : ∀ c ∈ cmds, WellFormed c) (cut : ℕ) :
    Restores cmds cut [] := by
  have hw : ∀ c ∈ wholeBefore cut cmds, WellFormed c := fun c hc => h c (wholeBefore_subset _ _ hc)
  rw [restores_iff, encode_nil, List.append_nil, List.append_nil]
  rcases take_encode cut cmds with ⟨-, he⟩ | ⟨-, c, hc, t, d, -, hd, htd, he⟩
  · rw [he, commands_encode hw]
  · obtain ⟨m, hm⟩ := commands_encode_append hw t 0
    obtain ⟨e, s', hp⟩ := parse_torn (h c hc) hd htd m
    rw [he, hm, commands_eq, hp, List.append_nil]

theorem restores_of_boundary {cmds more : List Args} (h : ∀ c ∈ cmds, WellFormed c)
    (hm : ∀ c ∈ more, WellFormed c) {cut : ℕ} (hb : OnBoundary cut cmds) :
    Restores cmds cut more := by
  rw [restores_iff]
  rcases take_encode cut cmds with ⟨-, he⟩ | ⟨hn, -⟩
  · rw [he, ← encode_append, commands_encode]
    intro c hc
    rcases List.mem_append.mp hc with hc | hc
    · exact h c (wholeBefore_subset _ _ hc)
    · exact hm c hc
  · exact absurd hb hn

/-- A well-formed command with another number of arguments than `n`. -/
def probe (n : ℕ) : Args := if n = 1 then [[], []] else [[]]

theorem probe_wellFormed (n : ℕ) : WellFormed (probe n) := by
  unfold probe
  split_ifs <;> decide

theorem probe_length_ne (n : ℕ) : (probe n).length ≠ n := by
  unfold probe
  split_ifs with h
  · simp [h]
  · simpa using Ne.symm h

/-- Behind a torn record there is a command whose append is lost. -/
theorem not_restores_probe {cmds : List Args} (h : ∀ c ∈ cmds, WellFormed c) {cut : ℕ}
    (hb : ¬ OnBoundary cut cmds) : ∃ n, ¬ Restores cmds cut [probe n] := by
  rcases take_encode cut cmds with ⟨hy, -⟩ | ⟨-, c, hc, t, d, ht, hd, htd, he⟩
  · exact absurd hy hb
  refine ⟨c.length, ?_⟩
  rw [restores_iff, he, List.append_assoc]
  obtain ⟨m, hm⟩ := commands_encode_append (fun c hc => h c (wholeBefore_subset cut cmds hc))
    (t ++ encode [probe c.length]) 0
  rw [hm, List.append_cancel_left_eq, encode_cons, encode_nil, List.append_nil, commands_eq]
  -- what is read first has as many arguments as the torn record, and the probe has not
  rcases hp : parse ⟨t ++ writeCommand (probe c.length), m⟩ with ⟨res, s'⟩
  rcases res with e | as
  · simp
  · have hlen := parse_torn_append (h c hc) ht htd _ _ hp
    have hpos := List.length_pos_of_ne_nil (h c hc).ne_nil
    rcases as with _ | ⟨a, as⟩
    · rw [← hlen] at hpos; simp at hpos
    · intro heq
      have := (List.cons.inj heq).1
      exact probe_length_ne c.length (this ▸ hlen)

/-- Across a crash, a restart and further appends, a second load returns the commands
before the cut and all those appended after the restart, for every list of them,
exactly when the cut left no torn record; with nothing appended it always does. -/
theorem restart_restores_iff {cmds : List Args} (h : ∀ c ∈ cmds, WellFormed c) (cut : ℕ) :
    ((∀ more : List Args, (∀ c ∈ more, WellFormed c) → Restores cmds cut more) ↔
      OnBoundary cut cmds) ∧ Restores cmds cut [] := by
  refine ⟨⟨?_, ?_⟩, restores_nil h cut⟩
  · intro hall
    by_contra hb
    obtain ⟨n, hn⟩ := not_restores_probe h hb
    exact hn (hall [probe n] (by simp [probe_wellFormed]))
  · intro hb more hm
    exact restores_of_boundary h hm hb

/-- `DEL k` cut after its first five bytes. -/
theorem restart_restores_iff_torn_del :
    ((∀ more : List Args, (∀ c ∈ more, WellFormed c) → Restores [[ascii "DEL", ascii "k"]] 5 more) ↔
      OnBoundary 5 [[ascii "DEL", ascii "k"]]) ∧ Restores [[ascii "DEL", ascii "k"]] 5 [] :=
  restart_restores_iff (by decide) 5

/-- A `SET` appended behind a torn `DEL` is not loaded. -/
theorem restart_loses_appended_set :
    ¬ ∀ (cmds : List Args) (cut : ℕ) (more : List Args), (∀ c ∈ cmds, WellFormed c) →
      (∀ c ∈ more, WellFormed c) → Restores cmds cut more := by
  intro hall
  have h := hall [[ascii "DEL", ascii "k"]] 5 [[ascii "SET", ascii "k", ascii "v"]]
    (by decide) (by decide)
  rw [restores_iff] at h
  revert h
  decide +kernel

end ShardKV.Aof
