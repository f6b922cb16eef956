import ShardKV.Access.Machine
import ShardKV.Aof.Restart

/-! Rewriting the log under crashes. A file that has not been synced loses an arbitrary
tail in a crash, and a rename is forgotten unless the directory was synced after it. The
log is replaced by a temporary file that is complete and synced before it takes the
log's name, so a crash finds the old log or the whole snapshot. Whether the directory
was synced is not looked at. -/

namespace ShardKV.Aof

open Access Resp

/-- A file as the system has it, and how much of it is known to be on the disk. -/
structure Volume where
  bytes : Bytes
  synced : ℕ

def Volume.Leaves (f : Volume) (b : Bytes) : Prop := ∃ n, f.synced ≤ n ∧ b = f.bytes.take n

/-- A file that holds commands and has been synced. -/
def Volume.durable (cmds : List Args) : Volume := ⟨encode cmds, (encode cmds).length⟩

/-- Where a rewrite is: the temporary file is being written, is flushed, is synced, has
the name of the log, and the directory has been dealt with. -/
inductive Phase
  | idle
  | filling (snapshot : List Args) (tmp : Bytes)
  | flushed (snapshot : List Args)
  | ready (snapshot : List Args)
  | renamed (snapshot : List Args)
  | linked (snapshot : List Args) (synced : Bool)

/-- The snapshot that has the name of the log already. -/
def Phase.replaced : Phase → Option (List Args)
  | renamed snapshot | linked snapshot _ => some snapshot
  | _ => none

def Phase.snapshot : Phase → List Args
  | idle => []
  | filling snapshot _ | flushed snapshot | ready snapshot | renamed snapshot
  | linked snapshot _ => snapshot

/-- An open log. `base` is the snapshot of the last rewrite that returned without error,
`appended` what was appended since; `stale` are the files that were replaced by renames
that a crash may undo. -/
structure Journal where
  base : List Args
  appended : List Args
  file : Volume
  pending : Bytes
  broken : Bool
  closed : Bool
  stale : List Volume
  phase : Phase

/-- A log opened on a file of whole records, some of which may not be synced. -/
def Journal.opened (existing : List Args) (synced : ℕ) : Journal where
  base := []
  appended := existing
  file := ⟨encode existing, min synced (encode existing).length⟩
  pending := []
  broken := false
  closed := false
  stale := []
  phase := .idle

/-- A command that the log may be given. -/
abbrev Record := { args : Args // WellFormed args }

/-- The atomic steps. Bytes reach a file in pieces of any size; `abort` is an error of
the rewrite before the rename, and a failed `reopen` comes after it. -/
inductive Act
  | append (record : Record)
  | drain (k : ℕ)
  | writeError (k : ℕ)
  | sync
  | close
  | rewrite (snapshot : List Record)
  | fill (k : ℕ)
  | flushTmp
  | syncTmp
  | abort
  | rename
  | syncDir (ok : Bool)
  | reopen
  | reopenError (k : ℕ)

/-- The rewrite is over: the log goes on in the new file. What the old buffer holds goes
with the old file. -/
def Journal.replace (j : Journal) (snapshot : List Args) (synced closed : Bool) (k : ℕ) : Journal where
  base := snapshot
  appended := []
  file := .durable snapshot
  pending := []
  broken := false
  closed := closed
  stale := if synced then [] else { j.file with bytes := j.file.bytes ++ j.pending.take k } :: j.stale
  phase := .idle

/-- `Append`: a closed log takes commands and drops them, a failed writer refuses them. -/
def Journal.append (j : Journal) (args : Args) : Journal :=
  if j.closed then { j with appended := j.appended ++ [args] }
  else if j.broken then j
  else { j with appended := j.appended ++ [args], pending := j.pending ++ writeCommand args }

def Journal.drain (j : Journal) (k : ℕ) : Journal :=
  { j with file := { j.file with bytes := j.file.bytes ++ j.pending.take k }, pending := j.pending.drop k }

def Journal.step (j : Journal) (a : Act) : Option Journal :=
  match j.phase, a with
  | .idle, .append record => some (j.append record.1)
  | .idle, .drain k => if j.closed ∨ j.broken then none else some (j.drain k)
  | .idle, .writeError k => if j.closed ∨ j.broken then none else some { j.drain k with broken := true }
  | .idle, .sync => if j.closed then none else
      some { j with file := { j.file with synced := j.file.bytes.length } }
  | .idle, .close => some { j with closed := true }
  | .idle, .rewrite snapshot =>
    -- a closed log answers without an error
    if j.closed then some { j with base := snapshot.map Subtype.val, appended := [] }
    else some { j with phase := .filling (snapshot.map Subtype.val) [] }
  | .filling snapshot tmp, .fill k =>
    some { j with phase := .filling snapshot ((encode snapshot).take (tmp.length + k)) }
  | .filling snapshot tmp, .flushTmp =>
    if tmp = encode snapshot then some { j with phase := .flushed snapshot } else none
  | .flushed snapshot, .syncTmp => some { j with phase := .ready snapshot }
  | .filling _ _, .abort | .flushed _, .abort | .ready _, .abort => some { j with phase := .idle }
  | .ready snapshot, .rename => some { j with phase := .renamed snapshot }
  | .renamed snapshot, .syncDir ok => some { j with phase := .linked snapshot ok }
  | .linked snapshot synced, .reopen => some (j.replace snapshot synced j.closed 0)
  | .linked snapshot synced, .reopenError k => some (j.replace snapshot synced true k)
  | _, _ => none

/-- The files that the name of the log can stand for after a crash. -/
def Journal.candidates (j : Journal) : List Volume :=
  match j.phase with
  | .renamed snapshot | .linked snapshot false => .durable snapshot :: j.file :: j.stale
  | .linked snapshot true => [.durable snapshot]
  | _ => j.file :: j.stale

/-- What a crash can leave under the name of the log. -/
def Journal.Leaves (j : Journal) (b : Bytes) : Prop := ∃ f ∈ j.candidates, f.Leaves b

/-- After a crash the log loads as the last snapshot and a first part of what was
appended since, with everything that was synced; or, once the next snapshot has the
name of the log, as that snapshot. As long as the writer works its records are whole and
in order. -/
def Journal.Safe (j : Journal) : Prop :=
  (∀ reads, j.Leaves reads.flatten →
    (∃ kept, kept <+: j.appended ∧ load (some reads) = j.base ++ kept ∧
      wholeBefore j.file.synced (j.base ++ j.appended) <+: j.base ++ kept) ∨
    ∃ snapshot, j.phase.replaced = some snapshot ∧ load (some reads) = snapshot) ∧
  (j.closed = false → j.broken = false →
    j.file.bytes ++ j.pending = encode (j.base ++ j.appended))

/-- The directory sync of a rewrite succeeds, and no rewrite is asked of a closed log. -/
def Journal.Careful (j : Journal) : Act → Prop
  | .rewrite _ => j.closed = false
  | .syncDir ok => ok = true
  | _ => True

theorem wholeBefore_prefix (cut : ℕ) (cmds : List Args) : wholeBefore cut cmds <+: cmds := by
  induction cmds generalizing cut with
  | nil => exact List.prefix_refl _
  | cons c cs ih =>
    rw [wholeBefore]
    split_ifs
    · exact List.cons_prefix_cons.mpr ⟨rfl, ih _⟩
    · exact List.nil_prefix

theorem wholeBefore_mono {m n : ℕ} (h : m ≤ n) (cmds : List Args) :
    wholeBefore m cmds <+: wholeBefore n cmds := by
  induction cmds generalizing m n with
  | nil => exact List.prefix_refl _
  | cons c cs ih =>
    rw [wholeBefore, wholeBefore]
    by_cases hm : commandSize c ≤ m
    · rw [if_pos hm, if_pos (hm.trans h)]
      exact List.cons_prefix_cons.mpr ⟨rfl, ih (by omega)⟩
    · rw [if_neg hm]
      exact List.nil_prefix

/-- A cut behind whole records keeps them. -/
theorem wholeBefore_append {cut : ℕ} {xs : List Args} (h : (encode xs).length ≤ cut) (ys : List Args) :
    wholeBefore cut (xs ++ ys) = xs ++ wholeBefore (cut - (encode xs).length) ys := by
  induction xs generalizing cut with
  | nil => rfl
  | cons x xs ih =>
    rw [encode_cons, List.length_append, writeCommand_length] at h
    rw [List.cons_append, wholeBefore, if_pos (by omega), ih (by omega), encode_cons, List.length_append,
      writeCommand_length, Nat.sub_sub]
    rfl

/-- What is loaded of a log that was cut. -/
theorem load_take {cmds : List Args} (h : ∀ c ∈ cmds, WellFormed c) {cut : ℕ} {reads : List Bytes}
    (hr : reads.flatten = (encode cmds).take cut) : load (some reads) = wholeBefore cut cmds := by
  have hcmd := (restores_iff cmds cut []).mp (restores_nil h cut)
  rw [encode_nil, List.append_nil, List.append_nil] at hcmd
  rw [load_eq, hr, hcmd]

/-- What holds in careful runs. -/
structure Journal.Inv (j : Journal) : Prop where
  wellFormed : ∀ c ∈ j.base ++ j.appended, WellFormed c
  written : j.file.bytes <+: encode (j.base ++ j.appended)
  synced_le : j.file.synced ≤ j.file.bytes.length
  base_le : (encode j.base).length ≤ j.file.synced
  whole : j.closed = false → j.broken = false → j.file.bytes ++ j.pending = encode (j.base ++ j.appended)
  stale : j.stale = []
  linked : ∀ snapshot synced, j.phase = .linked snapshot synced → synced = true
  snapshot : ∀ c ∈ j.phase.snapshot, WellFormed c

theorem Journal.Inv.opened {existing : List Args} (h : ∀ c ∈ existing, WellFormed c) (synced : ℕ) :
    (Journal.opened existing synced).Inv where
  wellFormed := h
  written := List.prefix_refl _
  synced_le := Nat.min_le_right _ _
  base_le := Nat.zero_le _
  whole _ _ := List.append_nil _
  stale := rfl
  linked _ _ hphase := by cases hphase
  snapshot _ hc := absurd hc List.not_mem_nil

section Step

variable {j : Journal} (h : j.Inv)

include h

/-- Another phase of the same rewrite, or its end before the rename. -/
theorem Journal.Inv.rephase {phase : Phase} (hlinked : ∀ s b, phase = .linked s b → b = true)
    (hsnap : ∀ c ∈ phase.snapshot, WellFormed c) : { j with phase := phase }.Inv :=
  ⟨h.wellFormed, h.written, h.synced_le, h.base_le, h.whole, h.stale, hlinked, hsnap⟩

theorem Journal.Inv.append (record : Record) : (j.append record.1).Inv := by
  have hwf : ∀ c ∈ j.base ++ (j.appended ++ [record.1]), WellFormed c := by
    rw [← List.append_assoc]
    exact List.forall_mem_append.mpr ⟨h.wellFormed, List.forall_mem_singleton.mpr record.2⟩
  have hgrow : encode (j.base ++ (j.appended ++ [record.1])) =
      encode (j.base ++ j.appended) ++ writeCommand record.1 := by
    rw [← List.append_assoc, encode_append, encode_cons, encode_nil, List.append_nil]
  have hwritten : j.file.bytes <+: encode (j.base ++ (j.appended ++ [record.1])) :=
    hgrow ▸ h.written.trans (List.prefix_append _ _)
  unfold Journal.append
  split_ifs with hclosed hbroken
  · exact ⟨hwf, hwritten, h.synced_le, h.base_le, fun hc => absurd hclosed (Bool.eq_false_iff.mp hc),
      h.stale, h.linked, h.snapshot⟩
  · exact h
  · refine ⟨hwf, hwritten, h.synced_le, h.base_le, fun hc hb => ?_, h.stale, h.linked, h.snapshot⟩
    show j.file.bytes ++ (j.pending ++ writeCommand record.1) = _
    rw [← List.append_assoc, h.whole hc hb, hgrow]

theorem Journal.Inv.drain (hclosed : j.closed = false) (hbroken : j.broken = false) (k : ℕ) :
    (j.drain k).Inv := by
  have hwhole := h.whole hclosed hbroken
  have hsplit : (j.drain k).file.bytes ++ (j.drain k).pending = encode (j.base ++ j.appended) := by
    show j.file.bytes ++ j.pending.take k ++ j.pending.drop k = _
    rw [List.append_assoc, List.take_append_drop, hwhole]
  refine ⟨h.wellFormed, hsplit ▸ List.prefix_append _ _, ?_, h.base_le, fun _ _ => hsplit, h.stale,
    h.linked, h.snapshot⟩
  show j.file.synced ≤ (j.file.bytes ++ j.pending.take k).length
  rw [List.length_append]
  exact h.synced_le.trans (Nat.le_add_right _ _)

omit h in
/-- The new file in the place of the old one, after a rename that lasts. -/
theorem Journal.Inv.replace {snapshot : List Args} (hsnap : ∀ c ∈ snapshot, WellFormed c) (closed : Bool)
    (k : ℕ) : (j.replace snapshot true closed k).Inv where
  wellFormed := (List.append_nil snapshot).symm ▸ hsnap
  written := by
    show encode snapshot <+: encode (snapshot ++ [])
    rw [List.append_nil]
  synced_le := le_refl _
  base_le := le_refl _
  whole _ _ := by
    show encode snapshot ++ [] = encode (snapshot ++ [])
    rw [List.append_nil, List.append_nil]
  stale := rfl
  linked _ _ hphase := by cases hphase
  snapshot _ hc := absurd hc List.not_mem_nil

theorem Journal.Inv.step {j' : Journal} {a : Act} (hok : j.Careful a) (hstep : j.step a = some j') :
    j'.Inv := by
  have hsnap := h.snapshot
  cases hphase : j.phase with rw [hphase] at hsnap
  | idle =>
    cases a with simp only [Journal.step, hphase, reduceCtorEq] at hstep
    | append record =>
      cases hstep
      exact h.append record
    | drain k =>
      split_ifs at hstep with hc
      rw [not_or, Bool.not_eq_true, Bool.not_eq_true] at hc
      cases hstep
      exact h.drain hc.1 hc.2 k
    | writeError k =>
      split_ifs at hstep with hc
      rw [not_or, Bool.not_eq_true, Bool.not_eq_true] at hc
      cases hstep
      have hd := h.drain hc.1 hc.2 k
      exact ⟨hd.wellFormed, hd.written, hd.synced_le, hd.base_le, fun _ hb => absurd hb (by simp),
        hd.stale, hd.linked, hd.snapshot⟩
    | sync =>
      split_ifs at hstep
      cases hstep
      exact ⟨h.wellFormed, h.written, le_refl _, h.base_le.trans h.synced_le, h.whole, h.stale,
        fun _ _ hp => (by cases hp), hsnap⟩
    | close =>
      cases hstep
      exact ⟨h.wellFormed, h.written, h.synced_le, h.base_le, fun hc => absurd hc (by simp), h.stale,
        fun _ _ hp => (by cases hp), hsnap⟩
    | rewrite snapshot =>
      have hopen : ¬ j.closed = true := Bool.eq_false_iff.mp hok
      rw [if_neg hopen] at hstep
      cases hstep
      refine h.rephase (fun _ _ hp => by cases hp) fun c hc => ?_
      obtain ⟨r, -, rfl⟩ := List.mem_map.mp hc
      exact r.2
  | filling snapshot tmp =>
    cases a with simp only [Journal.step, hphase, reduceCtorEq] at hstep
    | fill k =>
      cases hstep
      exact h.rephase (fun _ _ hp => by cases hp) hsnap
    | flushTmp =>
      split_ifs at hstep
      cases hstep
      exact h.rephase (fun _ _ hp => by cases hp) hsnap
    | abort =>
      cases hstep
      exact h.rephase (fun _ _ hp => by cases hp) fun _ hc => absurd hc List.not_mem_nil
  | flushed snapshot =>
    cases a with simp only [Journal.step, hphase, reduceCtorEq] at hstep
    | syncTmp =>
      cases hstep
      exact h.rephase (fun _ _ hp => by cases hp) hsnap
    | abort =>
      cases hstep
      exact h.rephase (fun _ _ hp => by cases hp) fun _ hc => absurd hc List.not_mem_nil
  | ready snapshot =>
    cases a with simp only [Journal.step, hphase, reduceCtorEq] at hstep
    | rename =>
      cases hstep
      exact h.rephase (fun _ _ hp => by cases hp) hsnap
    | abort =>
      cases hstep
      exact h.rephase (fun _ _ hp => by cases hp) fun _ hc => absurd hc List.not_mem_nil
  | renamed snapshot =>
    cases a with simp only [Journal.step, hphase, reduceCtorEq] at hstep
    | syncDir ok =>
      cases hstep
      refine h.rephase (fun _ _ hp => ?_) hsnap
      cases hp
      exact hok
  | linked snapshot synced =>
    obtain rfl := h.linked snapshot synced hphase
    cases a with simp only [Journal.step, hphase, reduceCtorEq] at hstep
    | reopen =>
      cases hstep
      exact Journal.Inv.replace hsnap _ _
    | reopenError k =>
      cases hstep
      exact Journal.Inv.replace hsnap _ _

theorem Journal.Inv.load_file {reads : List Bytes} (hr : j.file.Leaves reads.flatten) :
    ∃ kept, kept <+: j.appended ∧ load (some reads) = j.base ++ kept ∧
      wholeBefore j.file.synced (j.base ++ j.appended) <+: j.base ++ kept := by
  obtain ⟨n, hn, hb⟩ := hr
  have hcut : reads.flatten = (encode (j.base ++ j.appended)).take (min n j.file.bytes.length) := by
    obtain ⟨rest, hrest⟩ := h.written
    rw [hb, ← hrest, List.take_append_of_le_length (Nat.min_le_right _ _), List.take_eq_take_iff]
    omega
  have hbase : (encode j.base).length ≤ min n j.file.bytes.length :=
    le_min (h.base_le.trans hn) (h.base_le.trans h.synced_le)
  have hload := load_take h.wellFormed hcut
  have hsynced := wholeBefore_mono (le_min hn h.synced_le) (j.base ++ j.appended)
  rw [wholeBefore_append hbase] at hload hsynced
  exact ⟨_, wholeBefore_prefix _ _, hload, hsynced⟩

omit h in
theorem load_durable {snapshot : List Args} (hsnap : ∀ c ∈ snapshot, WellFormed c) {reads : List Bytes}
    (hr : (Volume.durable snapshot).Leaves reads.flatten) : load (some reads) = snapshot := by
  obtain ⟨n, hn, hb⟩ := hr
  rw [show (Volume.durable snapshot).bytes = encode snapshot from rfl, List.take_of_length_le hn] at hb
  rw [load_eq, hb, commands_encode hsnap]

theorem Journal.Inv.safe : j.Safe := by
  refine ⟨fun reads hleaves => ?_, h.whole⟩
  obtain ⟨f, hf, hr⟩ := hleaves
  have hfile : f ∈ j.file :: j.stale → ∃ kept, kept <+: j.appended ∧ load (some reads) = j.base ++ kept ∧
      wholeBefore j.file.synced (j.base ++ j.appended) <+: j.base ++ kept := by
    intro hf
    rw [h.stale, List.mem_singleton] at hf
    exact h.load_file (hf ▸ hr)
  have hsnap := h.snapshot
  unfold Journal.candidates at hf
  cases hphase : j.phase with rw [hphase] at hf hsnap
  | renamed snapshot =>
    rcases List.mem_cons.mp hf with rfl | hf
    · exact .inr ⟨snapshot, rfl, load_durable hsnap hr⟩
    · exact .inl (hfile hf)
  | linked snapshot synced =>
    obtain rfl := h.linked snapshot synced hphase
    obtain rfl := List.mem_singleton.mp hf
    exact .inr ⟨snapshot, rfl, load_durable hsnap hr⟩
  | _ => exact .inl (hfile hf)

end Step

end ShardKV.Aof
