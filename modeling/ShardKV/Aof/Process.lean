import ShardKV.Server.Exec

/-! The database position of the log across restarts. A process remembers which
database it last shipped to and writes a SELECT only when that changes. A restart
replays the log through a fresh applier, which ends wherever the log left it, and
starts the next process with the memory of database 0. Every write is replayed in
the database it was executed in exactly when no batch relies on that memory while
the log stands elsewhere. -/

namespace ShardKV.Aof

open Access Data Resp Server

variable {S : Type} [Numeric S]

/-- A server that logs, and what it has executed over all its processes. -/
structure Process (S : Type) [Numeric S] where
  streamDB : ℕ
  mem : Dataset S
  log : List Args
  executed : List Call

/-- The first start: no log yet. -/
def Process.fresh : Process S := ⟨0, emptyDataset, [], []⟩

/-- What happens to a server. A plain write is a batch of one. -/
inductive Event (cfg : Config)
  | batch (db : Fin cfg.databases) (cmds : List (Env × Args))
  | restart (env : Env)

section Replay

variable (cfg : Config)

/-- The calls that `ReplayCommands` makes of a log. -/
def replayCalls (log : List Args) : List Call := (cfg.feedAll (Applier.idle 0) log).2

/-- Where its applier ends. -/
def position (log : List Args) : Applier := (cfg.feedAll (Applier.idle 0) log).1

/-- `ReplayCommands` into empty databases. -/
def replay (env : Env) (log : List Args) : Dataset S :=
  cfg.performed env (replayCalls cfg log) emptyDataset

/-- `runWrite` and `execExec` with the log attached, and a clean restart. -/
def Process.step (p : Process S) : Event cfg → Process S
  | .batch db cmds =>
    let done := cfg.execBatch db cmds p.mem
    let shipped := propagateBatch db p.streamDB done.2
    { streamDB := shipped.1
      mem := done.1
      log := p.log ++ shipped.2
      executed := p.executed ++ done.2.map fun c => (db.val, c) }
  | .restart env => { p with streamDB := 0, mem := replay cfg env p.log }

/-- A run from the first start. -/
def Process.run (events : List (Event cfg)) : Process S :=
  events.foldl (Process.step cfg) Process.fresh

/-- A batch that writes to the database the process believes the stream to be in
finds the log there. -/
def Process.Aligned (p : Process S) : Event cfg → Prop
  | .batch db cmds =>
    (cfg.execBatch db cmds p.mem).2 ≠ [] → p.streamDB = db → (position cfg p.log).db = db
  | .restart _ => True

/-- Nothing that a logged write or a replayed command relies on is gone when the
clock of the reader is reached. -/
def Process.Unexpired (r : Env) (p : Process S) : Event cfg → Prop
  | .batch db cmds => cfg.LastingBatch db r cmds p.mem
  | .restart env => env.now ≤ r.now ∧
    cfg.StaysAll r env (replayCalls cfg p.log) (emptyDataset : Dataset S)

/-- Replaying the log applies every write in the database it was executed in. -/
def Process.Placed (p : Process S) : Prop := replayCalls cfg p.log = p.executed

/-- Replaying the log gives the databases as the reader sees them in memory. -/
def Process.Restored (r : Env) (p : Process S) : Prop :=
  liveAt r.now (replay cfg r p.log) = liveAt r.now p.mem

end Replay

section Position

variable {cfg : Config}

/-- What holds in every run: the log ends outside a transaction, and replaying it
makes as many calls as were executed. -/
structure Process.Regular (cfg : Config) (p : Process S) : Prop where
  proper : Prog.All Plain p.mem
  idle : ∃ db, position cfg p.log = Applier.idle db
  count : (replayCalls cfg p.log).length = p.executed.length

theorem replayCalls_append (log new : List Args) :
    replayCalls cfg (log ++ new) = replayCalls cfg log ++ (cfg.feedAll (position cfg log) new).2 := by
  simp [replayCalls, position, feedAll_append]

theorem position_append (log new : List Args) :
    position cfg (log ++ new) = (cfg.feedAll (position cfg log) new).1 := by
  simp [position, feedAll_append]

theorem fresh_regular : (Process.fresh : Process S).Regular cfg :=
  ⟨emptyDataset_proper, ⟨0, rfl⟩, rfl⟩

/-- What a batch that writes adds to the calls of a replay: itself, at the landing. -/
theorem batch_replayed {p : Process S} (h : p.Regular cfg) (db : Fin cfg.databases)
    {cmds : List (Env × Args)} (hne : (cfg.execBatch db cmds p.mem).2 ≠ []) :
    cfg.feedAll (position cfg p.log)
        (propagateBatch db p.streamDB (cfg.execBatch db cmds p.mem).2).2 =
      (Applier.idle (landing db p.streamDB (position cfg p.log).db),
        (cfg.execBatch db cmds p.mem).2.map fun c =>
          (landing db p.streamDB (position cfg p.log).db, c)) := by
  obtain ⟨pos, hpos⟩ := h.idle
  rw [hpos]
  exact feedAll_propagateBatch cfg db.isLt _ pos hne fun c hc =>
    (execBatch_shipped cfg db cmds h.proper c hc).1

theorem step_regular (p : Process S) (e : Event cfg) (h : p.Regular cfg) :
    (p.step cfg e).Regular cfg := by
  cases e with
  | restart env => exact ⟨performed_proper cfg env _ emptyDataset_proper, h.idle, h.count⟩
  | batch db cmds =>
    have hproper := execBatch_proper cfg db cmds h.proper
    by_cases hne : (cfg.execBatch db cmds p.mem).2 = []
    · have hstep : p.step cfg (.batch db cmds) =
          { p with mem := (cfg.execBatch db cmds p.mem).1 } := by
        simp [Process.step, hne, propagateBatch_nil]
      rw [hstep]
      exact ⟨hproper, h.idle, h.count⟩
    · have hfeed := batch_replayed h db hne
      refine ⟨hproper, ⟨landing db p.streamDB (position cfg p.log).db, ?_⟩, ?_⟩
      · simp only [Process.step]
        rw [position_append, hfeed]
      · simp only [Process.step]
        rw [replayCalls_append, hfeed]
        simp [h.count]

theorem landing_eq_iff (db streamDB pos : ℕ) :
    landing db streamDB pos = db ↔ (streamDB = db → pos = db) := by
  unfold landing
  by_cases h : streamDB = db <;> simp [h]

/-- A step keeps the log placed exactly when it is aligned. -/
theorem placed_step (p : Process S) (e : Event cfg) (h : p.Regular cfg) :
    (p.step cfg e).Placed cfg ↔ p.Placed cfg ∧ p.Aligned cfg e := by
  cases e with
  | restart env => exact (and_iff_left trivial).symm
  | batch db cmds =>
    by_cases hne : (cfg.execBatch db cmds p.mem).2 = []
    · simp [Process.Placed, Process.step, Process.Aligned, hne, propagateBatch_nil]
    · have hcalls : ((cfg.execBatch db cmds p.mem).2.map fun c =>
            (landing db p.streamDB (position cfg p.log).db, c)) =
          (cfg.execBatch db cmds p.mem).2.map (fun c => (db.val, c)) ↔
          landing db p.streamDB (position cfg p.log).db = db := by
        rw [List.map_inj_left]
        obtain ⟨c, hc⟩ := List.exists_mem_of_ne_nil _ hne
        exact ⟨fun hall => (Prod.mk.inj (hall c hc)).1, fun heq c _ => by rw [heq]⟩
      have happend {xs : List Call} : replayCalls cfg p.log ++ xs = p.executed ++
          (cfg.execBatch db cmds p.mem).2.map (fun c => (db.val, c)) ↔
          replayCalls cfg p.log = p.executed ∧
            xs = (cfg.execBatch db cmds p.mem).2.map (fun c => (db.val, c)) :=
        ⟨fun heq => List.append_inj heq h.count, fun ⟨hcall, hnew⟩ => by rw [hcall, hnew]⟩
      simp only [Process.Placed, Process.step, Process.Aligned]
      rw [replayCalls_append, batch_replayed h db hne, happend, hcalls, landing_eq_iff]
      simp [hne]

/-- A run is placed exactly when all its steps are aligned. -/
theorem placed_run (events : List (Event cfg)) :
    (Process.run cfg events : Process S).Placed cfg ↔
      Guarded (Process.step cfg) (Process.Aligned cfg) (Process.fresh : Process S) events := by
  have hregular : (Process.fresh : Process S).Regular cfg := fresh_regular
  have hrun := guarded_iff step_regular placed_step hregular events
  have hfresh : (Process.fresh : Process S).Placed cfg := rfl
  rwa [and_iff_right hfresh] at hrun

end Position

section Contents

variable {cfg : Config} {r : Env}

/-- A placed process whose log gives back its memory. -/
structure Process.Faithful (cfg : Config) (r : Env) (p : Process S) : Prop where
  regular : p.Regular cfg
  placed : p.Placed cfg
  timeless : AllTimeless cfg S p.executed
  restored : Prog.Alike (live r.now) p.mem (cfg.performed r p.executed emptyDataset)

theorem fresh_faithful : (Process.fresh : Process S).Faithful cfg r :=
  ⟨fresh_regular, rfl, fun _ h => absurd h (by simp [Process.fresh]), rfl⟩

theorem step_faithful (p : Process S) (e : Event cfg) (h : p.Faithful cfg r)
    (hok : p.Aligned cfg e ∧ p.Unexpired cfg r e) : (p.step cfg e).Faithful cfg r := by
  have hregular := step_regular p e h.regular
  have hplaced := (placed_step p e h.regular).mpr ⟨h.placed, hok.1⟩
  cases e with
  | batch db cmds =>
    refine ⟨hregular, hplaced, ?_, ?_⟩
    · intro c hc
      rcases List.mem_append.mp hc with hc | hc
      · exact h.timeless c hc
      · obtain ⟨a, ha, rfl⟩ := List.mem_map.mp hc
        exact (execBatch_shipped cfg db cmds h.regular.proper a ha).2
    · simp only [Process.step]
      rw [performed_append]
      exact execBatch_performed cfg db r cmds h.regular.proper hok.2 h.restored
  | restart env =>
    refine ⟨hregular, hplaced, h.timeless, ?_⟩
    obtain ⟨hle, hstays⟩ := hok.2
    have hcalls : replayCalls cfg p.log = p.executed := h.placed
    rw [hcalls] at hstays
    show Prog.Alike (live r.now) (replay cfg env p.log) _
    unfold replay
    rw [hcalls]
    exact performed_later cfg hle h.timeless hstays rfl

/-- A batch all of whose clocks show the reader's time. -/
theorem unexpired_simultaneous (p : Process S) {e : Event cfg}
    (h : match e with
      | .batch _ cmds => ∀ c ∈ cmds, c.1.now = r.now
      | .restart env => env.now = r.now) : p.Unexpired cfg r e := by
  cases e with
  | restart env =>
    exact ⟨le_of_eq h, staysAll_self cfg h _ _⟩
  | batch db cmds =>
    exact lastingBatch_simultaneous cfg db r cmds p.mem h

/-- In a run in which nothing expires, replaying the log applies every write where
it was executed and gives back the databases exactly when all steps are aligned. -/
theorem replay_restores_iff (r : Env) (events : List (Event cfg))
    (h : Guarded (Process.step cfg) (Process.Unexpired cfg r) (Process.fresh : Process S) events) :
    ((Process.run cfg events : Process S).Placed cfg ∧
        (Process.run cfg events : Process S).Restored cfg r) ↔
      Guarded (Process.step cfg) (Process.Aligned cfg) (Process.fresh : Process S) events := by
  constructor
  · rintro ⟨hplaced, -⟩
    exact (placed_run events).mp hplaced
  · intro haligned
    have hfinal : (Process.run cfg events : Process S).Faithful cfg r :=
      (haligned.and h).invariant step_faithful fresh_faithful
    refine ⟨hfinal.placed, ?_⟩
    have hcalls : replayCalls cfg (Process.run cfg events : Process S).log =
        (Process.run cfg events : Process S).executed := hfinal.placed
    show seen _ (cfg.performed r _ _) = seen _ _
    rw [hcalls]
    exact hfinal.restored.symm

end Contents

/-- `SET k value` in the given database. -/
def setEvent (db : Fin 16) (value : String) : Event Config.default :=
  .batch db [(Env.at 0, [ascii "SET", ascii "k", ascii value])]

/-- A write, a restart and another write. -/
def straddle (before after : Fin 16) : List (Event Config.default) :=
  [setEvent before "v", .restart (Env.at 0), setEvent after "w"]

theorem straddle_unexpired (before after : Fin 16) :
    Guarded (Process.step _) (Process.Unexpired _ (Env.at 0)) (Process.fresh : Process ℤ)
      (straddle before after) := by
  have hset (db : Fin 16) (value : String) (p : Process ℤ) :
      p.Unexpired _ (Env.at 0) (setEvent db value) :=
    unexpired_simultaneous p fun c hc => by rw [List.mem_singleton.mp hc]
  exact ⟨hset .., unexpired_simultaneous _ rfl, hset .., trivial⟩

/-- After a write in database 1 and a restart, a write to database 0 is logged
without a SELECT: replaying the log puts it in database 1. -/
theorem restart_misplaces_write :
    Guarded (Process.step _) (Process.Unexpired _ (Env.at 0)) (Process.fresh : Process ℤ)
        (straddle 1 0) ∧
      ¬ (Process.run _ (straddle 1 0) : Process ℤ).Placed Config.default ∧
      ¬ (Process.run _ (straddle 1 0) : Process ℤ).Restored Config.default (Env.at 0) := by
  refine ⟨straddle_unexpired 1 0, ?_, ?_⟩
  · unfold Process.Placed
    decide +kernel
  · intro h
    have hkey := congrFun h (0, ascii "k")
    revert hkey
    decide +kernel

theorem replay_restores_iff_straddle :
    (Process.run _ (straddle 1 2) : Process ℤ).Placed Config.default ∧
      (Process.run _ (straddle 1 2) : Process ℤ).Restored Config.default (Env.at 0) := by
  refine (replay_restores_iff (Env.at 0) (straddle 1 2) (straddle_unexpired 1 2)).mpr ?_
  refine ⟨fun _ h => ?_, trivial, fun _ h => ?_, trivial⟩
  · exact absurd h (by decide)
  · exact absurd h (by decide)

end ShardKV.Aof
