import ShardKV.Commands.Table
import ShardKV.Server.Stream

/-! Executing writes and applying them again. A write, or the batch of an EXEC,
runs in one database and ships the wire forms of the commands that changed
something. Performing the shipped calls elsewhere, for a reader with a later
clock, gives what that reader sees in the memory of the executing side, as long as
nothing that a call looked up expired in between. -/

namespace ShardKV.Server

open Access Data Resp Commands Prog

variable {S : Type} [Numeric S]

/-- `applyCommand` of a sequence of calls. -/
def Config.perform (cfg : Config) (env : Env) : List Call → Op S Unit
  | [] => pure ()
  | c :: cs => do
    dataTable.applyCommand (cfg.view c.1) env c.2
    cfg.perform env cs

/-- What is in memory after performing calls on some dataset. -/
def Config.performed (cfg : Config) (env : Env) (calls : List Call) (s : Dataset S) : Dataset S :=
  ((cfg.perform env calls).run (live env.now) s).2

/-- One command of a batch: the memory it leaves and what it ships. -/
def Config.exec (cfg : Config) (db : ℕ) (env : Env) (args : Args) (s : Dataset S) :
    Dataset S × List Args :=
  match dataTable.resolve args with
  | none => (s, [])
  | some c =>
    let r := (c.apply (cfg.view db) env args).run (live env.now) s
    (r.2, if c.isWrite && r.1.dirty then wireForm args r.1.effect else [])

/-- The batch of an EXEC, every command with the clock it reads. A single write is
a batch of one. -/
def Config.execBatch (cfg : Config) (db : ℕ) : List (Env × Args) → Dataset S → Dataset S × List Args
  | [], s => (s, [])
  | (env, args) :: rest, s =>
    let first := cfg.exec db env args s
    let tail := cfg.execBatch db rest first.1
    (tail.1, first.2 ++ tail.2)

/-- Shipped commands that leave the same whatever they find: the removal of keys,
and a SET in one of its two wire forms without KEEPTTL. -/
def blind : Args → Bool
  | name :: rest =>
    isWord name "DEL" || isWord name "UNLINK" ||
      isWord name "SET" &&
        match rest with
        | [_, _] => true
        | [_, _, opt, _] => isWord opt "PXAT"
        | _ => false
  | [] => false

def emptyDataset : Dataset S := fun _ => none

/-- Whole-number scores, the plainest arithmetic to run commands with. -/
instance : Numeric ℤ where
  parseScore := parseInt64
  formatScore := Decimal.formatInt
  zero := 0
  one := 1
  add a b := some (a + b)
  mul a b := some (a * b)
  Long := ℤ
  parseLong := parseInt64
  longIsInf _ := false
  longZero := 0
  longAdd a b := some (a + b)
  longText := Decimal.formatInt
  longAdd_zero _ _ := rfl

/-- A clock reading, with maps that happen to be walked in byte order. -/
def Env.at (now : Instant) : Env where
  now := now
  order m := m.sort bytesLE
  order_nodup m := m.sort_nodup bytesLE
  mem_order m _ := m.mem_sort bytesLE

section Perform

variable (cfg : Config)

theorem performed_nil (env : Env) (s : Dataset S) : cfg.performed env [] s = s := rfl

theorem performed_cons (env : Env) (c : Call) (cs : List Call) (s : Dataset S) :
    cfg.performed env (c :: cs) s =
      cfg.performed env cs ((dataTable.applyCommand (cfg.view c.1) env c.2).run (live env.now) s).2 := by
  simp [Config.performed, Config.perform]

theorem performed_append (env : Env) (cs ds : List Call) (s : Dataset S) :
    cfg.performed env (cs ++ ds) s = cfg.performed env ds (cfg.performed env cs s) := by
  induction cs generalizing s with
  | nil => rfl
  | cons c cs ih => rw [List.cons_append, performed_cons, performed_cons, ih]

/-- Calls that no clock matters to. -/
def AllTimeless (S : Type) [Numeric S] (calls : List Call) : Prop :=
  ∀ c ∈ calls, Timeless (dataTable (S := S)) (cfg.view c.1) c.2

/-- Whatever the call looks up and finds is still live at the later clock, or the
call makes no use of what it finds. -/
def Config.Stays (r env : Env) (c : Call) (s : Dataset S) : Prop :=
  blind c.2 = true ∨
    (dataTable.applyCommand (cfg.view c.1) r c.2).Settled (live env.now) (live r.now) s

/-- The same for a sequence of calls made by an earlier clock. -/
def Config.StaysAll (r env : Env) : List Call → Dataset S → Prop
  | [], _ => True
  | c :: cs, s =>
    cfg.Stays r env c s ∧
      StaysAll r env cs ((dataTable.applyCommand (cfg.view c.1) env c.2).run (live env.now) s).2

theorem staysAll_self {r env : Env} (h : env.now = r.now) (calls : List Call) (s : Dataset S) :
    cfg.StaysAll r env calls s := by
  induction calls generalizing s with
  | nil => trivial
  | cons c cs ih =>
    refine ⟨.inr ?_, ih _⟩
    rw [h]
    exact settled_self _ _ _

omit [Numeric S] in
theorem isWord_eq {b : Bytes} {word : String} (h : isWord b word = true) :
    toUpper b = ascii word := eq_of_beq h

theorem cmdSet_oblivious (v : View) (env : Env) (name key val : Bytes) {opts : List Bytes}
    (h : opts = [] ∨ ∃ opt n, opts = [opt, n] ∧ isWord opt "PXAT" = true) :
    (cmdSet v env (name :: key :: val :: opts) : Op S _).Oblivious := by
  unfold cmdSet
  dsimp only
  split
  · exact oblivious_ret _
  · rename_i o ho
    have hplain : o.nx = false ∧ o.xx = false ∧ o.get = false ∧ o.keepTTL = false := by
      obtain rfl | ⟨opt, n, rfl, hopt⟩ := h
      · rw [← Except.ok.inj ho]
        exact ⟨rfl, rfl, rfl, rfl⟩
      · have hother : isWord opt "NX" = false ∧ isWord opt "XX" = false ∧
            isWord opt "GET" = false ∧ isWord opt "KEEPTTL" = false := by
          simp only [isWord, isWord_eq hopt]
          decide
        grind [parseSetOpts, isExpireWord, noSetOpts]
    exact oblivious_map
      (setWithOptions_oblivious _ val hplain.1 hplain.2.1 hplain.2.2.1 hplain.2.2.2) _

theorem blind_oblivious (v : View) (env : Env) {args : Args} (h : blind args = true) :
    (dataTable.applyCommand v env args : Op S Unit).Oblivious := by
  cases hc : (dataTable (S := S)).resolve args with
  | none => simpa [Table.applyCommand, hc] using oblivious_ret ()
  | some c =>
    have happly : (c.apply v env args).Oblivious := by
      obtain ⟨name, rest, rfl⟩ : ∃ name rest, args = name :: rest := by
        cases args with
        | nil => exact absurd h (by simp [blind])
        | cons name rest => exact ⟨name, rest, rfl⟩
      have hentry : dataTable (toUpper name) = some c := (Option.filter_eq_some_iff.mp hc).1
      simp only [blind, Bool.or_eq_true, Bool.and_eq_true] at h
      obtain (hdel | hunlink) | ⟨hset, hform⟩ := h
      · rw [isWord_eq hdel, dataTable_del] at hentry
        cases hentry
        exact oblivious_map (cmdDel_oblivious v _) _
      · rw [isWord_eq hunlink, dataTable_unlink] at hentry
        cases hentry
        exact oblivious_map (cmdDel_oblivious v _) _
      · rw [isWord_eq hset, dataTable_set] at hentry
        cases hentry
        split at hform
        · exact oblivious_map (cmdSet_oblivious v env name _ _ (.inl rfl)) _
        · exact oblivious_map (cmdSet_oblivious v env name _ _ (.inr ⟨_, _, rfl, hform⟩)) _
        · exact absurd hform (by simp)
    intro vis vis' s s' hvis hs
    rw [run_applyCommand hc, run_applyCommand hc]
    exact happly vis vis' s s' hvis hs

/-- A call that stays, made by the earlier clock and by the later one. -/
theorem run_stays {r env : Env} (hle : env.now ≤ r.now) {c : Call} {s s' : Dataset S}
    (hc : cfg.Stays r env c s) (h : Alike (live r.now) s s') :
    Alike (live r.now) ((dataTable.applyCommand (cfg.view c.1) r c.2).run (live env.now) s).2
      ((dataTable.applyCommand (cfg.view c.1) r c.2).run (live r.now) s').2 := by
  refine run_steady (live_mono hle) h (hc.imp_left fun hb => ?_)
  exact blind_oblivious _ r hb

theorem performed_later {r env : Env} (hle : env.now ≤ r.now) {calls : List Call}
    (htime : AllTimeless cfg S calls) {s s' : Dataset S} (hc : cfg.StaysAll r env calls s)
    (h : Alike (live r.now) s s') :
    Alike (live r.now) (cfg.performed env calls s) (cfg.performed r calls s') := by
  induction calls generalizing s s' with
  | nil => exact h
  | cons c cs ih =>
    rw [performed_cons, performed_cons]
    refine ih (fun d hd => htime d (List.mem_cons_of_mem _ hd)) hc.2 ?_
    rw [htime c (by simp) env r]
    exact run_stays cfg hle hc.1 h

end Perform

variable {ok : Data.Stream → Prop} (cfg : Config) (db : ℕ)

theorem emptyDataset_proper : All (Proper ok) (emptyDataset : Dataset S) :=
  fun _ _ h => absurd h (by simp [emptyDataset])

theorem applyCommand_keeps (v : View) (env : Env) (args : Args) :
    (dataTable.applyCommand v env args : Op S Unit).Keeps (Proper ok) := by
  intro vis s hs
  cases hc : (dataTable (S := S)).resolve args with
  | none => simpa [Table.applyCommand, hc] using hs
  | some c =>
    rw [run_applyCommand hc]
    exact ((dataTable_faithful hc).sound v env).keeps vis s hs

theorem performed_proper (env : Env) (calls : List Call) {s : Dataset S} (hs : All (Proper ok) s) :
    All (Proper ok) (cfg.performed env calls s) := by
  induction calls generalizing s with
  | nil => exact hs
  | cons c cs ih =>
    rw [performed_cons]
    exact ih (applyCommand_keeps _ env c.2 _ s hs)

theorem exec_proper (env : Env) (args : Args) {s : Dataset S} (hs : All (Proper ok) s) :
    All (Proper ok) (cfg.exec db env args s).1 := by
  unfold Config.exec
  split
  · exact hs
  · rename_i c hc
    exact ((dataTable_faithful hc).sound _ env).keeps _ s hs

/-- A command ships nothing and changes nothing its own clock sees, or ships one
ordinary, clock-free command that does what it did. -/
theorem exec_spec (env : Env) (args : Args) {s : Dataset S} (hs : All (Proper ok) s) :
    ((cfg.exec db env args s).2 = [] ∧ Alike (live env.now) (cfg.exec db env args s).1 s) ∨
    ∃ a, (cfg.exec db env args s).2 = [a] ∧ ordinary a = true ∧
      Timeless (dataTable (S := S)) (cfg.view db) a ∧
      ∀ env', ((dataTable.applyCommand (cfg.view db) env' a).run (live env.now) s).2 =
        (cfg.exec db env args s).1 := by
  unfold Config.exec
  split
  · exact .inl ⟨rfl, rfl⟩
  · rename_i c hc
    have hf : Faithful ok dataTable c args := dataTable_faithful hc
    cases hd : ((c.apply (cfg.view db) env args).run (live env.now) s).1.dirty with
    | false => exact .inl ⟨by simp [hd], (hf.sound _ env).honest _ s hs hd⟩
    | true =>
      obtain ⟨hw, a, ha, hord, htime, hredo⟩ := hf.ships (cfg.view db) env _ s hs hd
      exact .inr ⟨a, by simp [hd, hw, ha], hord, htime, hredo⟩

/-- The shipped form of a command stays until the later clock. -/
def Config.Lasting (r env : Env) (args : Args) (s : Dataset S) : Prop :=
  env.now ≤ r.now ∧ ∀ a ∈ (cfg.exec db env args s).2, cfg.Stays r env (db, a) s

/-- The same for all commands of a batch. -/
def Config.LastingBatch (r : Env) : List (Env × Args) → Dataset S → Prop
  | [], _ => True
  | (env, args) :: rest, s =>
    cfg.Lasting db r env args s ∧ LastingBatch r rest (cfg.exec db env args s).1

/-- A check of `LastingBatch`. -/
def Config.lastsBatch (r : Env) : List (Env × Args) → Dataset S → Bool
  | [], _ => true
  | (env, args) :: rest, s =>
    decide (env.now ≤ r.now) &&
      ((cfg.exec db env args s).2.all fun a => blind a ||
        (dataTable.applyCommand (cfg.view db) r a).settles (live env.now) (live r.now) s) &&
      lastsBatch r rest (cfg.exec db env args s).1

theorem lastingBatch_of_lastsBatch {r : Env} {batch : List (Env × Args)} {s : Dataset S}
    (h : cfg.lastsBatch db r batch s = true) : cfg.LastingBatch db r batch s := by
  induction batch generalizing s with
  | nil => trivial
  | cons p rest ih =>
    simp only [Config.lastsBatch, Bool.and_eq_true, decide_eq_true_eq, List.all_eq_true,
      Bool.or_eq_true] at h
    obtain ⟨⟨hle, hall⟩, hrest⟩ := h
    exact ⟨⟨hle, fun a ha => (hall a ha).imp_right settled_of_settles⟩, ih hrest⟩

theorem lastingBatch_simultaneous (r : Env) (batch : List (Env × Args)) (s : Dataset S)
    (h : ∀ p ∈ batch, p.1.now = r.now) : cfg.LastingBatch db r batch s := by
  induction batch generalizing s with
  | nil => trivial
  | cons p rest ih =>
    have hnow : p.1.now = r.now := h p (by simp)
    refine ⟨⟨le_of_eq hnow, fun a _ => .inr ?_⟩, ih _ fun q hq => h q (List.mem_cons_of_mem _ hq)⟩
    rw [hnow]
    exact settled_self _ _ _

/-- The shipped form of a command, performed by a later reader on what it cannot
tell from the memory, leaves what it cannot tell from the new memory. -/
theorem exec_performed (r env : Env) (args : Args) {s s' : Dataset S} (hs : All (Proper ok) s)
    (hl : cfg.Lasting db r env args s) (h : Alike (live r.now) s s') :
    Alike (live r.now) (cfg.exec db env args s).1
      (cfg.performed r ((cfg.exec db env args s).2.map fun c => (db, c)) s') := by
  obtain ⟨hle, hstays⟩ := hl
  obtain ⟨hnil, halike⟩ | ⟨a, ha, -, -, hredo⟩ := exec_spec cfg db env args hs
  · rw [hnil]
    exact (alike_mono (live_mono hle) halike).trans h
  · rw [ha] at hstays ⊢
    rw [List.map_singleton, performed_cons, performed_nil, ← hredo r]
    exact run_stays cfg hle (hstays a (by simp)) h

theorem execBatch_proper (batch : List (Env × Args)) {s : Dataset S} (hs : All (Proper ok) s) :
    All (Proper ok) (cfg.execBatch db batch s).1 := by
  induction batch generalizing s with
  | nil => exact hs
  | cons p rest ih => exact ih (exec_proper cfg db p.1 p.2 hs)

theorem execBatch_shipped (batch : List (Env × Args)) {s : Dataset S} (hs : All (Proper ok) s) :
    ∀ a ∈ (cfg.execBatch db batch s).2,
      ordinary a = true ∧ Timeless (dataTable (S := S)) (cfg.view db) a := by
  induction batch generalizing s with
  | nil => simp [Config.execBatch]
  | cons p rest ih =>
    intro a ha
    rcases List.mem_append.mp ha with ha | ha
    · obtain ⟨hnil, -⟩ | ⟨b, hb, hord, htime, -⟩ := exec_spec cfg db p.1 p.2 hs
      · rw [hnil] at ha
        exact absurd ha (by simp)
      · rw [hb, List.mem_singleton] at ha
        subst ha
        exact ⟨hord, htime⟩
    · exact ih (exec_proper cfg db p.1 p.2 hs) a ha

theorem execBatch_performed (r : Env) (batch : List (Env × Args)) {s s' : Dataset S}
    (hs : All (Proper ok) s) (hl : cfg.LastingBatch db r batch s)
    (h : Alike (live r.now) s s') :
    Alike (live r.now) (cfg.execBatch db batch s).1
      (cfg.performed r ((cfg.execBatch db batch s).2.map fun c => (db, c)) s') := by
  induction batch generalizing s s' with
  | nil => exact h
  | cons p rest ih =>
    simp only [Config.execBatch, List.map_append]
    rw [performed_append]
    exact ih (exec_proper cfg db p.1 p.2 hs) hl.2 (exec_performed cfg db r p.1 p.2 hs hl.1 h)

/-! ### Removing expired entries -/

/-- A command as a client sees it, unless its name or its arity is wrong. -/
def answer (v : View) (env : Env) (args : Args) : Op S (Option Outcome) :=
  match dataTable.resolve args with
  | none => pure none
  | some c => some <$> c.apply v env args

/-- What happens to the databases: a command, or the removal of expired entries, by
`maintain` from a shard or by `dropIfExpired` from one key. -/
inductive Turn
  | command (v : View) (env : Env) (args : Args)
  | reclaim (now : Instant) (places : Loc → Bool)

def Turn.now : Turn → Instant
  | command _ env _ => env.now
  | reclaim now _ => now

end ShardKV.Server
