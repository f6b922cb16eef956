import ShardKV.Aof.Process

/-! Replaying the log at a later time. The wire forms carry absolute deadlines, so
a replay gives every key the deadline it had. But a command that edits a key in
place is logged as it is and looks the key up by the clock of the replay. A key
that was live when the command ran and has expired since is then missing, and the
command creates it anew or does nothing. The replay gives what is still live in
memory as long as no logged command relies on such a key. -/

namespace ShardKV.Aof

open Access Data Resp Server

variable {S : Type} [Numeric S] {cfg : Config}

/-- A database and the commands executed in it, each with its clock reading. -/
abbrev Batch (cfg : Config) := Fin cfg.databases × List (Env × Args)

/-- One process that executes batches and logs them. -/
def Process.serve (batches : List (Batch cfg)) : Process S :=
  Process.run cfg (batches.map fun b => .batch b.1 b.2)

/-- The clock readings, in the order of execution. -/
def clocks (batches : List (Batch cfg)) : List Instant :=
  batches.flatMap fun b => b.2.map fun c => c.1.now

/-- The log stands where the process believes the stream to be. -/
def Process.Level (cfg : Config) (p : Process S) : Prop :=
  position cfg p.log = Applier.idle p.streamDB

theorem level_aligned {p : Process S} (h : p.Level cfg) (e : Event cfg) : p.Aligned cfg e := by
  cases e with
  | restart env => trivial
  | batch db cmds =>
    intro _ hdb
    rw [h]
    exact hdb

theorem batch_level {p : Process S} (h : p.Regular cfg) (hp : p.Level cfg) (b : Batch cfg) :
    (p.step cfg (.batch b.1 b.2)).Level cfg := by
  unfold Process.Level
  simp only [Process.step]
  by_cases hne : (cfg.execBatch b.1 b.2 p.mem).2 = []
  · rw [hne, propagateBatch_nil, List.append_nil]
    exact hp
  · have hland : landing b.1 p.streamDB (position cfg p.log).db = b.1 := by
      rw [landing_eq_iff]
      exact level_aligned hp (.batch b.1 b.2) hne
    rw [position_append, batch_replayed h b.1 hne, hland, propagateBatch_eq _ _ hne]

theorem serve_aligned (batches : List (Batch cfg)) {p : Process S} (h : p.Regular cfg)
    (hp : p.Level cfg) :
    Guarded (Process.step cfg) (Process.Aligned cfg) p (batches.map fun b => .batch b.1 b.2) := by
  induction batches generalizing p with
  | nil => trivial
  | cons b bs ih =>
    exact ⟨level_aligned hp _, ih (step_regular p _ h) (batch_level h hp b)⟩

/-- Every logged command is carried out, when the clock shows its time, on keys
that are still live at `r`, or makes no use of what it finds. -/
def LastingRun (S : Type) [Numeric S] (r : Env) (batches : List (Batch cfg)) : Prop :=
  Guarded (fun (p : Process S) (b : Batch cfg) => p.step cfg (.batch b.1 b.2))
    (fun p b => cfg.LastingBatch b.1 r b.2 p.mem) Process.fresh batches

theorem lastingRun_unexpired {r : Env} {batches : List (Batch cfg)} (h : LastingRun S r batches) :
    Guarded (Process.step cfg) (Process.Unexpired cfg r) (Process.fresh : Process S)
      (batches.map fun b => .batch b.1 b.2) := by
  unfold LastingRun at h
  generalize (Process.fresh : Process S) = p at *
  induction batches generalizing p with
  | nil => trivial
  | cons b bs ih => exact ⟨h.1, ih _ h.2⟩

/-- Replaying the log at a later time gives the keys that are still live in memory,
with their values and deadlines. -/
theorem replay_later (r : Env) (batches : List (Batch cfg)) (h : LastingRun S r batches) :
    liveAt r.now (replay cfg r (Process.serve batches : Process S).log) =
      liveAt r.now (Process.serve batches : Process S).mem := by
  have hunexpired := lastingRun_unexpired h
  have hregular : (Process.fresh : Process S).Regular cfg := fresh_regular
  have haligned := serve_aligned batches hregular rfl
  have hfinal : (Process.serve batches : Process S).Faithful cfg r :=
    (haligned.and hunexpired).invariant step_faithful fresh_faithful
  have hcalls : replayCalls cfg (Process.serve batches : Process S).log =
      (Process.serve batches : Process S).executed := hfinal.placed
  unfold replay
  rw [hcalls]
  exact hfinal.restored.symm

/-- A command in database 0 at a clock reading in milliseconds. -/
def command (now : Instant) (words : List String) : Batch Config.default :=
  (⟨0, by decide⟩, [(Env.at now, words.map ascii)])

/-- A volatile string is appended to while it is live. -/
def appended : List (Batch Config.default) :=
  [command 0 ["SET", "s", "a", "PXAT", "100"], command 50 ["APPEND", "s", "b"]]

/-- Replayed after the deadline, the APPEND creates the expired key anew, and without
a deadline. -/
theorem replay_resurrects_key :
    (clocks appended ++ [200]).Pairwise (· ≤ ·) ∧
      liveAt 200 (Process.serve appended : Process ℤ).mem (0, ascii "s") = none ∧
      liveAt 200 (replay Config.default (Env.at 200) (Process.serve appended : Process ℤ).log)
        (0, ascii "s") = some (⟨.str (ascii "b"), none⟩ : Entry ℤ) := by
  refine ⟨by decide +kernel, by decide +kernel, by decide +kernel⟩

/-- A volatile string is deleted, set anew with a later deadline and appended to. -/
def renewed : List (Batch Config.default) :=
  [command 0 ["SET", "s", "a", "PXAT", "100"], command 50 ["DEL", "s"],
    command 60 ["SET", "s", "b", "PXAT", "300"], command 70 ["APPEND", "s", "c"]]

theorem replay_later_renewed :
    liveAt 200 (replay Config.default (Env.at 200) (Process.serve renewed : Process ℤ).log) =
      liveAt 200 (Process.serve renewed : Process ℤ).mem := by
  refine replay_later (Env.at 200) renewed ⟨?_, ?_, ?_, ?_, trivial⟩
  all_goals exact lastingBatch_of_lastsBatch _ _ (by decide +kernel)

end ShardKV.Aof
