import ShardKV.Access.Apart
import ShardKV.Aof.Process

/-! Evictions on the stream. A write changes the memory and ships what it did in one section
under the ordering lock. An eviction deletes its victim under the lock of a shard only, and
ships a DEL for it later, in a section of its own. Until then the DEL is owed: the stream still
gives the key. A write that looks the key up, or writes it, before the DEL is shipped does
something else in memory than on the stream. -/

namespace ShardKV.Replication.Evicted

open Access Data Resp Server Commands Aof Prog

variable {S : Type} [Numeric S]

section System

variable (cfg : Config)

/-- A server with propagation active. The writer is who holds `propMu`: its database and what
it has to ship. The DELs of `owed` are yet to be shipped. -/
structure State (S : Type) [Numeric S] where
  mem : Dataset S
  streamDB : ℕ
  stream : List Args
  writer : Option (Fin cfg.databases × List Args)
  owed : List Loc

/-- `runWrite` is a lock, one command and the shipping; `execExec` runs the commands of its batch
in between. `EvictOne` is a deletion, and `onKeyRemoved` after it. -/
inductive Step
  | lock (db : Fin cfg.databases)
  | run (env : Env) (args : Args)
  | ship
  | evict (db : Fin cfg.databases) (key : Bytes)
  | shipDel (db : Fin cfg.databases) (key : Bytes)

def delCommand (key : Bytes) : Args := [ascii "DEL", key]

def State.fresh : State cfg S := ⟨emptyDataset, 0, [], none, []⟩

variable {cfg}

def State.step (s : State cfg S) : Step cfg → Option (State cfg S)
  | .lock db => if s.writer.isNone then some { s with writer := some (db, []) } else none
  | .run env args =>
    s.writer.map fun w =>
      { s with
        mem := (cfg.exec w.1 env args s.mem).1
        writer := some (w.1, w.2 ++ (cfg.exec w.1 env args s.mem).2) }
  | .ship =>
    s.writer.map fun w =>
      { s with
        streamDB := (propagateBatch w.1 s.streamDB w.2).1
        stream := s.stream ++ (propagateBatch w.1 s.streamDB w.2).2
        writer := none }
  | .evict db key =>
    if (s.mem (db, key)).isSome then
      some { s with mem := Function.update s.mem (db, key) none, owed := (↑db, key) :: s.owed }
    else none
  | .shipDel db key =>
    if s.writer.isNone ∧ (↑db, key) ∈ s.owed then
      some { s with
        streamDB := (shipRaw db s.streamDB (delCommand key)).1
        stream := s.stream ++ (shipRaw db s.streamDB (delCommand key)).2
        owed := s.owed.erase (↑db, key) }
    else none

/-- No step is half done. -/
def State.Quiet (s : State cfg S) : Prop := s.writer = none ∧ s.owed = []

/-- Replaying the stream from empty gives the live dataset of the memory. -/
def State.Converged (r : Env) (s : State cfg S) : Prop :=
  liveAt r.now (replay cfg r s.stream) = liveAt r.now s.mem

/-- Nothing that a write looks up is over when the stream is replayed. -/
def Unexpired (r : Env) (s : State cfg S) : Step cfg → Prop
  | .run env args => env.now ≤ r.now ∧ ∀ db effects, s.writer = some (db, effects) →
    ∀ a ∈ (cfg.exec db env args s.mem).2,
      (dataTable.applyCommand (cfg.view db) r a).Settled (live env.now) (live r.now) s.mem
  | _ => True

/-- A write, in the form it is shipped in, keeps apart from the keys whose DEL is owed. -/
def Orderly (r : Env) (s : State cfg S) : Step cfg → Prop
  | .run env args => ∀ db effects, s.writer = some (db, effects) →
    ∀ a ∈ (cfg.exec db env args s.mem).2,
      (dataTable.applyCommand (cfg.view db) r a).Avoids (live env.now) {k | k ∈ s.owed} s.mem
  | _ => True

end System

section Shipping

variable {cfg : Config}

theorem performed_del (r : Env) (db : ℕ) (key : Bytes) (s : Dataset S) :
    cfg.performed r [(db, delCommand key)] s = Function.update s (db, key) none := by
  have hup : toUpper (ascii "DEL") = ascii "DEL" := by decide
  have hc : (dataTable (S := S)).resolve (delCommand key) = some ⟨-2, .write cmdDel⟩ :=
    resolve_cons (by rw [hup, dataTable_del]) rfl
  rw [performed_cons, performed_nil, run_applyCommand hc, run_apply_write]
  simp [delCommand, cmdDel, delAll, del, run_edit, View.loc, Config.view]

theorem ordinary_del (key : Bytes) : ordinary (delCommand key) = true := by
  have hup : toUpper (ascii "DEL") = ascii "DEL" := by decide
  rw [delCommand, ordinary, hup]
  decide

theorem shipRaw_eq (db streamDB : ℕ) (args : Args) :
    shipRaw db streamDB args = propagateBatch db streamDB [args] := by
  simp [propagateBatch, frame]

theorem shipped_calls {stream : List Args} {streamDB : ℕ}
    (hpos : position cfg stream = Applier.idle streamDB) (db : Fin cfg.databases) {cmds : List Args}
    (h : ∀ c ∈ cmds, ordinary c = true) :
    position cfg (stream ++ (propagateBatch db streamDB cmds).2) =
        Applier.idle (propagateBatch db streamDB cmds).1 ∧
      replayCalls cfg (stream ++ (propagateBatch db streamDB cmds).2) =
        replayCalls cfg stream ++ cmds.map fun c => (db.val, c) := by
  have hfeed := feedAll_shipped cfg (Applier.idle 0) hpos db h
  exact ⟨congrArg Prod.fst hfeed, congrArg Prod.snd hfeed⟩

end Shipping

section Invariant

variable {cfg : Config} {r : Env} {s s' : State cfg S}

/-- What the writer has done and not shipped. -/
def State.unshipped (s : State cfg S) : List Call :=
  match s.writer with
  | none => []
  | some (db, effects) => effects.map fun c => (db.val, c)

/-- The stream, with what is about to be shipped, gives the memory outside the keys whose DEL
is owed, and in memory those are gone. -/
structure Inv (r : Env) (s : State cfg S) : Prop where
  proper : All Plain s.mem
  position : position cfg s.stream = Applier.idle s.streamDB
  plain : ∀ c ∈ s.unshipped, ordinary c.2 = true
  agrees : AlikeOff (live r.now) {k | k ∈ s.owed} s.mem
    (cfg.performed r (replayCalls cfg s.stream ++ s.unshipped) emptyDataset)
  gone : ∀ k ∈ s.owed, seen (live r.now) s.mem k = none

theorem Inv.fresh : Inv r (State.fresh cfg : State cfg S) where
  proper := emptyDataset_proper
  position := rfl
  plain := by simp [State.fresh, State.unshipped]
  agrees := by
    intro k _
    rfl
  gone := by simp [State.fresh]

theorem Inv.lock (h : Inv r s) {db : Fin cfg.databases} (hs : s.step (.lock db) = some s') :
    Inv r s' := by
  simp only [State.step, Option.ite_none_right_eq_some, Option.isNone_iff_eq_none,
    Option.some.injEq] at hs
  obtain ⟨hnone, rfl⟩ := hs
  have hunshipped : s.unshipped = [] := by rw [State.unshipped, hnone]
  have hagrees := h.agrees
  rw [hunshipped] at hagrees
  exact ⟨h.proper, h.position, by simp [State.unshipped], hagrees, h.gone⟩

theorem Inv.run (h : Inv r s) {env : Env} {args : Args} (hlast : Unexpired r s (.run env args))
    (hok : Orderly r s (.run env args)) (hs : s.step (.run env args) = some s') : Inv r s' := by
  obtain ⟨⟨db, effects⟩, hw, rfl⟩ := Option.map_eq_some_iff.mp hs
  have hunshipped : s.unshipped = effects.map fun c => (db.val, c) := by rw [State.unshipped, hw]
  obtain ⟨hle, hsettled⟩ := hlast
  have hproper := exec_proper cfg db env args h.proper
  have hordinary := h.plain
  have hagrees := h.agrees
  rw [hunshipped] at hordinary hagrees
  obtain ⟨hnil, halike⟩ | ⟨a, ha, hord, -, hredo⟩ := exec_spec cfg db env args h.proper
  · have hsame := alike_mono (live_mono hle) halike
    refine ⟨hproper, h.position, ?_, fun k hk => ?_, fun k hk => ?_⟩
    · simpa [State.unshipped, hnil] using hordinary
    · simpa only [State.unshipped, hnil, List.append_nil] using (congrFun hsame k).trans (hagrees k hk)
    · exact (congrFun hsame k).trans (h.gone k hk)
  · have hsettled := hsettled db effects hw a (by rw [ha]; exact List.mem_singleton_self a)
    have havoids := hok db effects hw a (by rw [ha]; exact List.mem_singleton_self a)
    have hrun := (run_avoids (live_mono hle) _ hagrees hsettled havoids).2
    have hnone := run_avoids_none havoids h.gone
    rw [hredo r] at hrun hnone
    refine ⟨hproper, h.position, ?_, ?_, hnone⟩
    · simp only [State.unshipped, ha, List.map_append, List.map_singleton]
      intro c hc
      rcases List.mem_append.mp hc with hc | hc
      · exact hordinary c hc
      · rw [List.mem_singleton.mp hc]
        exact hord
    · simp only [State.unshipped, ha, List.map_append, List.map_singleton]
      rw [← List.append_assoc, performed_append, performed_cons, performed_nil]
      exact hrun

theorem Inv.ship (h : Inv r s) (hs : s.step .ship = some s') : Inv r s' := by
  obtain ⟨⟨db, effects⟩, hw, rfl⟩ := Option.map_eq_some_iff.mp hs
  have hunshipped : s.unshipped = effects.map fun c => (db.val, c) := by rw [State.unshipped, hw]
  have hordinary : ∀ c ∈ effects, ordinary c = true := fun c hc =>
    h.plain (db.val, c) (by rw [hunshipped]; exact List.mem_map_of_mem hc)
  obtain ⟨hpos, hcalls⟩ := shipped_calls h.position db hordinary
  refine ⟨h.proper, hpos, by simp [State.unshipped], ?_, h.gone⟩
  have hagrees := h.agrees
  rw [hunshipped] at hagrees
  simpa only [State.unshipped, hcalls, List.append_nil] using hagrees

theorem Inv.evict (h : Inv r s) {db : Fin cfg.databases} {key : Bytes}
    (hs : s.step (.evict db key) = some s') : Inv r s' := by
  simp only [State.step, Option.ite_none_right_eq_some, Option.some.injEq] at hs
  obtain ⟨-, rfl⟩ := hs
  refine ⟨all_update h.proper _ (by simp), h.position, h.plain, fun k hk => ?_, fun k hk => ?_⟩
  · have hk : k ∉ (↑db, key) :: s.owed := hk
    rw [List.mem_cons, not_or] at hk
    rw [seen_update, if_neg hk.1]
    exact h.agrees k hk.2
  · rw [seen_update]
    split_ifs with hkey
    · rfl
    · exact h.gone k ((List.mem_cons.mp hk).resolve_left hkey)

theorem Inv.shipDel (h : Inv r s) {db : Fin cfg.databases} {key : Bytes}
    (hs : s.step (.shipDel db key) = some s') : Inv r s' := by
  simp only [State.step, Option.ite_none_right_eq_some, Option.isNone_iff_eq_none, Option.some.injEq] at hs
  obtain ⟨⟨hnone, howed⟩, rfl⟩ := hs
  have hunshipped : s.unshipped = [] := by rw [State.unshipped, hnone]
  rw [shipRaw_eq]
  have hdel : ∀ c ∈ [delCommand key], ordinary c = true := by simp [ordinary_del]
  obtain ⟨hpos, hcalls⟩ := shipped_calls h.position db hdel
  refine ⟨h.proper, hpos, h.plain, fun k hk => ?_, fun k hk => h.gone k (List.mem_of_mem_erase hk)⟩
  have hagrees := h.agrees
  simp only [State.unshipped, hnone, List.append_nil] at hagrees ⊢
  rw [hcalls, List.map_singleton, performed_append, performed_del, seen_update]
  split_ifs with hkey
  · rw [hkey]
    exact h.gone _ howed
  · exact hagrees k fun hmem => hk ((List.mem_erase_of_ne hkey).mpr hmem)

end Invariant

/-- In every run whose writes keep apart from the keys whose DEL is owed, replaying the stream
gives the memory whenever no step is half done. -/
theorem evictions_in_order {cfg : Config} (r : Env) {s : State cfg S}
    (h : Reaches State.step (fun s x => Unexpired r s x ∧ Orderly r s x) (State.fresh cfg) s)
    (hquiet : s.Quiet) : s.Converged r := by
  have hinv : Inv r s := by
    refine h.invariant (fun s x s' hs hok hstep => ?_) Inv.fresh
    cases x with
    | lock db => exact hs.lock hstep
    | run env args => exact hs.run hok.1 hok.2 hstep
    | ship => exact hs.ship hstep
    | evict db key => exact hs.evict hstep
    | shipDel db key => exact hs.shipDel hstep
  obtain ⟨hwriter, howed⟩ := hquiet
  have hagrees := hinv.agrees
  simp only [State.unshipped, hwriter, howed, List.append_nil, List.not_mem_nil] at hagrees
  exact (alikeOff_empty.mp hagrees).symm

theorem unexpired_simultaneous {cfg : Config} {r env : Env} (h : env.now = r.now) (s : State cfg S)
    (args : Args) : Unexpired r s (.run env args) := by
  refine ⟨le_of_eq h, fun db effects _ a _ => ?_⟩
  rw [h]
  exact settled_self _ _ _

/-- `SET key value` in database 0, under the lock. -/
def setKey (key value : String) : List (Step Config.default) :=
  [.lock (0 : Fin 16), .run (Env.at 0) [ascii "SET", ascii key, ascii value], .ship]

/-- Key `a` is set and evicted, and another key is set before the DEL for the eviction. -/
def evictThenSet (key : String) : List (Step Config.default) :=
  setKey "a" "v" ++ .evict (0 : Fin 16) (ascii "a") :: setKey key "w" ++
    [.shipDel (0 : Fin 16) (ascii "a")]

theorem unexpired_evictThenSet {key : String} {x : Step Config.default} (h : x ∈ evictThenSet key)
    (s : State Config.default ℤ) : Unexpired (Env.at 0) s x := by
  simp only [evictThenSet, setKey, List.cons_append, List.nil_append, List.mem_cons, List.not_mem_nil,
    or_false] at h
  rcases h with rfl | rfl | rfl | rfl | rfl | rfl | rfl | rfl
  all_goals first
    | trivial
    | exact unexpired_simultaneous rfl s _

/-- The state at the end, if the key is set again after its eviction. -/
def afterDel : State Config.default ℤ :=
  (play State.step (State.fresh _) (evictThenSet "a")).get (by decide +kernel)

/-- The DEL for the eviction comes after the write, and takes away what it wrote. -/
theorem del_overtakes_write :
    ¬ ∀ (r : Env) (s : State Config.default ℤ),
      Reaches State.step (Unexpired r) (State.fresh _) s → s.Quiet → s.Converged r := by
  intro hall
  have hreach : Reaches State.step (Unexpired (Env.at 0)) (State.fresh _) afterDel :=
    reaches_of_play (fun s x hx => unexpired_evictThenSet hx s) (Option.some_get _).symm
  have hsame := hall (Env.at 0) _ hreach ⟨by decide +kernel, by decide +kernel⟩
  have hkey := congrFun hsame (0, ascii "a")
  revert hkey
  decide +kernel

/-- A check of the condition. -/
def orderly (s : State Config.default ℤ) : Step Config.default → Bool
  | .run env args => decide (env.now = 0) && s.writer.all fun w =>
    (Config.default.exec w.1 env args s.mem).2.all fun a =>
      (dataTable.applyCommand (Config.default.view w.1) (Env.at 0) a).avoids (live env.now) s.owed s.mem
  | _ => true

theorem orderly_of_check (s : State Config.default ℤ) (x : Step Config.default) (h : orderly s x = true) :
    Unexpired (Env.at 0) s x ∧ Orderly (Env.at 0) s x := by
  cases x with
  | run env args =>
    obtain ⟨hnow, hall⟩ := Bool.and_eq_true_iff.mp h
    refine ⟨unexpired_simultaneous (of_decide_eq_true hnow) s args, fun db effects hw a ha => ?_⟩
    rw [hw] at hall
    exact avoids_of_check (List.all_eq_true.mp hall a ha)
  | lock | ship | evict | shipDel => exact ⟨trivial, trivial⟩

/-- The state at the end, if another key is set between the eviction and its DEL. -/
def afterOther : State Config.default ℤ :=
  (play (fun s x => if orderly s x then s.step x else none) (State.fresh _) (evictThenSet "b")).get
    (by decide +kernel)

theorem other_key_set : (afterOther.mem (0, ascii "b")).isSome = true ∧ afterOther.Converged (Env.at 0) :=
  ⟨by decide +kernel, evictions_in_order (Env.at 0)
    (reaches_of_checked orderly_of_check (Option.some_get _).symm) ⟨by decide +kernel, by decide +kernel⟩⟩

end ShardKV.Replication.Evicted
