import ShardKV.Bytes.Literal
import ShardKV.Commands.Keys
import ShardKV.Commands.ZSets

/-! The table of the data commands, and what all of them have in common. A
command keeps the entries proper, changes nothing its reader sees unless it says
so, and ships one ordinary command that does to a store what it did itself. -/

namespace ShardKV.Commands

open Access Data Resp Server

variable {S : Type} [Numeric S]

def stringCommands : List (String × Command S) :=
  [("SET", ⟨-3, .effect cmdSet⟩), ("GET", ⟨2, .query cmdGet⟩), ("GETEX", ⟨-2, .effect cmdGetEx⟩),
    ("INCR", ⟨2, .write cmdIncr⟩), ("DECR", ⟨2, .write cmdDecr⟩),
    ("INCRBY", ⟨3, .write cmdIncrBy⟩), ("DECRBY", ⟨3, .write cmdDecrBy⟩),
    ("INCRBYFLOAT", ⟨3, .effect cmdIncrByFloat⟩), ("MSET", ⟨-3, .write cmdMSet⟩),
    ("MSETNX", ⟨-3, .write cmdMSetNX⟩), ("SETNX", ⟨3, .write cmdSetNX⟩),
    ("SETEX", ⟨4, .effect cmdSetEx⟩), ("PSETEX", ⟨4, .effect cmdPSetEx⟩),
    ("GETSET", ⟨3, .write cmdGetSet⟩), ("GETDEL", ⟨2, .write cmdGetDel⟩),
    ("APPEND", ⟨3, .write cmdAppend⟩), ("STRLEN", ⟨2, .query cmdStrLen⟩),
    ("SETRANGE", ⟨4, .write cmdSetRange⟩)]

def keyCommands : List (String × Command S) :=
  [("DEL", ⟨-2, .write cmdDel⟩), ("UNLINK", ⟨-2, .write cmdDel⟩),
    ("EXISTS", ⟨-2, .query cmdExists⟩), ("EXPIRE", ⟨-3, .effect cmdExpire⟩),
    ("PEXPIRE", ⟨-3, .effect cmdPExpire⟩), ("EXPIREAT", ⟨-3, .effect cmdExpireAt⟩),
    ("PEXPIREAT", ⟨-3, .effect cmdPExpireAt⟩), ("PERSIST", ⟨2, .write cmdPersist⟩),
    ("TYPE", ⟨2, .query cmdType⟩), ("RENAME", ⟨3, .write cmdRename⟩),
    ("RENAMENX", ⟨3, .write cmdRenameNX⟩), ("COPY", ⟨-3, .write cmdCopy⟩),
    ("FLUSHALL", ⟨1, .write cmdFlushAll⟩), ("FLUSHDB", ⟨1, .write cmdFlushDB⟩),
    ("SWAPDB", ⟨3, .write cmdSwapDB⟩), ("MOVE", ⟨3, .write cmdMove⟩)]

def listCommands : List (String × Command S) :=
  [("LPUSH", ⟨-3, .write cmdLPush⟩), ("RPUSH", ⟨-3, .write cmdRPush⟩),
    ("LPUSHX", ⟨-3, .write cmdLPushX⟩), ("RPUSHX", ⟨-3, .write cmdRPushX⟩),
    ("LPOP", ⟨-2, .write cmdLPop⟩), ("RPOP", ⟨-2, .write cmdRPop⟩), ("LLEN", ⟨2, .query cmdLLen⟩),
    ("LSET", ⟨4, .write cmdLSet⟩), ("LINSERT", ⟨5, .write cmdLInsert⟩),
    ("LREM", ⟨4, .write cmdLRem⟩), ("LTRIM", ⟨4, .write cmdLTrim⟩),
    ("RPOPLPUSH", ⟨3, .write cmdRPopLPush⟩), ("LMOVE", ⟨5, .write cmdLMove⟩),
    ("BLPOP", ⟨-3, .block (blockingListPop true)⟩),
    ("BRPOP", ⟨-3, .block (blockingListPop false)⟩), ("BLMOVE", ⟨6, .block blockingLMove⟩),
    ("BRPOPLPUSH", ⟨4, .block blockingRPopLPush⟩), ("LMPOP", ⟨-4, .write cmdLMPop⟩),
    ("BLMPOP", ⟨-5, .block blockingLMPop⟩)]

def hashCommands : List (String × Command S) :=
  [("HSET", ⟨-4, .write cmdHSet⟩), ("HGET", ⟨3, .query cmdHGet⟩), ("HDEL", ⟨-3, .write cmdHDel⟩),
    ("HSETNX", ⟨4, .write cmdHSetNX⟩), ("HINCRBY", ⟨4, .write cmdHIncrBy⟩),
    ("HINCRBYFLOAT", ⟨4, .effect cmdHIncrByFloat⟩), ("HMSET", ⟨-4, .write cmdHMSet⟩)]

def setCommands : List (String × Command S) :=
  [("SADD", ⟨-3, .write cmdSAdd⟩), ("SREM", ⟨-3, .write cmdSRem⟩), ("SCARD", ⟨2, .query cmdSCard⟩),
    ("SPOP", ⟨-2, .effect cmdSPop⟩), ("SMOVE", ⟨4, .write cmdSMove⟩),
    ("SINTERSTORE", ⟨-3, .write cmdSInterStore⟩), ("SUNIONSTORE", ⟨-3, .write cmdSUnionStore⟩),
    ("SDIFFSTORE", ⟨-3, .write cmdSDiffStore⟩)]

def zsetCommands : List (String × Command S) :=
  [("ZADD", ⟨-4, .write cmdZAdd⟩), ("ZINCRBY", ⟨4, .write cmdZIncrBy⟩),
    ("ZREM", ⟨-3, .write cmdZRem⟩), ("ZCARD", ⟨2, .query cmdZCard⟩),
    ("ZREMRANGEBYRANK", ⟨4, .write cmdZRemRangeByRank⟩),
    ("ZREMRANGEBYSCORE", ⟨4, .write cmdZRemRangeByScore⟩),
    ("ZREMRANGEBYLEX", ⟨4, .write cmdZRemRangeByLex⟩),
    ("ZRANGESTORE", ⟨-5, .write cmdZRangeStore⟩), ("ZUNIONSTORE", ⟨-4, .write cmdZUnionStore⟩),
    ("ZINTERSTORE", ⟨-4, .write cmdZInterStore⟩), ("ZDIFFSTORE", ⟨-4, .write cmdZDiffStore⟩),
    ("ZPOPMIN", ⟨-2, .effect cmdZPopMin⟩), ("ZPOPMAX", ⟨-2, .effect cmdZPopMax⟩),
    ("ZMPOP", ⟨-4, .effect cmdZMPop⟩), ("BZPOPMIN", ⟨-3, .block (blockingZPop true)⟩),
    ("BZPOPMAX", ⟨-3, .block (blockingZPop false)⟩), ("BZMPOP", ⟨-5, .block blockingZMPop⟩)]

def dataCommands : List (String × Command S) :=
  stringCommands ++ keyCommands ++ listCommands ++ hashCommands ++ setCommands ++ zsetCommands

/-- `commandTable`, as far as the data commands go. -/
def dataTable : Table S := fun name =>
  (dataCommands.find? fun p => ascii p.1 == name).map Prod.snd

/-- What is known of one run of a command. -/
structure Faithful (ok : Data.Stream → Prop) (T : Table S) (c : Command S) (args : Args) : Prop where
  sound : ∀ v env, (c.apply v env args).Sound (Proper ok) Outcome.dirty
  ships : ∀ v env (vis : Entry S → Bool) (s : Dataset S), Prog.All (Proper ok) s →
    ((c.apply v env args).run vis s).1.dirty = true → c.isWrite = true ∧
      ∃ a, wireForm args ((c.apply v env args).run vis s).1.effect = [a] ∧ ordinary a = true ∧
        Timeless T v a ∧ ∀ env', ((T.applyCommand v env' a).run vis s).2 = ((c.apply v env args).run vis s).2

section Kinds

variable {ok : Data.Stream → Prop} {T : Table S} {args : Args} {arity : ℤ}

theorem faithful_query {h : View → Env → Args → Op S Reply}
    (hh : ∀ v env, (h v env args).ReadOnly) : Faithful ok T ⟨arity, .query h⟩ args := by
  have hro (v : View) (env : Env) : (Command.apply ⟨arity, .query h⟩ v env args).ReadOnly :=
    Prog.readOnly_bind (hh v env) fun _ => trivial
  refine ⟨fun v env => Prog.sound_readOnly (hro v env), ?_⟩
  intro v env vis s _ hd
  simp [Command.apply] at hd

/-- A plain write is its own wire form, and its handler does not see the clock. -/
theorem faithful_write {h : View → Args → Op S (Reply × Bool)}
    (hT : T.resolve args = some ⟨arity, .write h⟩) (hord : ordinary args = true)
    (hh : ∀ v, (h v args).Sound (Proper ok) Prod.snd) : Faithful ok T ⟨arity, .write h⟩ args := by
  constructor
  · intro v env
    exact Prog.sound_map (f := fun r : Reply × Bool => Outcome.mk r.1 r.2 []) (hh v)
  · intro v env vis s _ _
    rw [run_apply_write]
    refine ⟨rfl, args, rfl, hord, timeless_write hT, ?_⟩
    intro env'
    rw [run_applyCommand hT, run_apply_write]

theorem faithful_effect {h : View → Env → Args → Op S (Reply × List Args)}
    (hh : ∀ v env, Reproduces ok T v (h v env args)) : Faithful ok T ⟨arity, .effect h⟩ args := by
  constructor
  · intro v env
    exact Prog.sound_map (f := fun r : Reply × List Args => Outcome.mk r.1 (!r.2.isEmpty) r.2)
      (hh v env).sound
  · intro v env vis s hs hd
    rw [run_apply_effect] at hd ⊢
    refine ⟨rfl, ?_⟩
    obtain ⟨hnil, -⟩ | ⟨a, ha, hord, htime, hredo⟩ := (hh v env).shows vis s hs
    · simp [hnil] at hd
    · exact ⟨a, by simp [wireForm, ha], hord, htime, hredo⟩

theorem faithful_block {h : View → Env → Args → Op S (Option Reply × List Args)}
    (hh : ∀ v env, Reproduces ok T v (h v env args)) : Faithful ok T ⟨arity, .block h⟩ args := by
  constructor
  · intro v env
    exact Prog.sound_map
      (f := fun r : Option Reply × List Args => Outcome.mk (r.1.getD .nullArray) (!r.2.isEmpty) r.2)
      (hh v env).sound
  · intro v env vis s hs hd
    rw [run_apply_block] at hd ⊢
    refine ⟨rfl, ?_⟩
    obtain ⟨hnil, -⟩ | ⟨a, ha, hord, htime, hredo⟩ := (hh v env).shows vis s hs
    · simp [hnil] at hd
    · exact ⟨a, by simp [wireForm, ha], hord, htime, hredo⟩

end Kinds

def dataNames : List String :=
  ["SET", "GET", "GETEX", "INCR", "DECR", "INCRBY", "DECRBY", "INCRBYFLOAT", "MSET", "MSETNX",
    "SETNX", "SETEX", "PSETEX", "GETSET", "GETDEL", "APPEND", "STRLEN", "SETRANGE", "DEL",
    "UNLINK", "EXISTS", "EXPIRE", "PEXPIRE", "EXPIREAT", "PEXPIREAT", "PERSIST", "TYPE",
    "RENAME", "RENAMENX", "COPY", "FLUSHALL", "FLUSHDB", "SWAPDB", "MOVE", "LPUSH", "RPUSH",
    "LPUSHX", "RPUSHX", "LPOP", "RPOP", "LLEN", "LSET", "LINSERT", "LREM", "LTRIM", "RPOPLPUSH",
    "LMOVE", "BLPOP", "BRPOP", "BLMOVE", "BRPOPLPUSH", "LMPOP", "BLMPOP", "HSET", "HGET", "HDEL",
    "HSETNX", "HINCRBY", "HINCRBYFLOAT", "HMSET", "SADD", "SREM", "SCARD", "SPOP", "SMOVE",
    "SINTERSTORE", "SUNIONSTORE", "SDIFFSTORE", "ZADD", "ZINCRBY", "ZREM", "ZCARD",
    "ZREMRANGEBYRANK", "ZREMRANGEBYSCORE", "ZREMRANGEBYLEX", "ZRANGESTORE", "ZUNIONSTORE",
    "ZINTERSTORE", "ZDIFFSTORE", "ZPOPMIN", "ZPOPMAX", "ZMPOP", "BZPOPMIN", "BZPOPMAX", "BZMPOP"]

theorem dataCommands_names : (dataCommands (S := S)).map Prod.fst = dataNames := rfl

theorem dataNames_ascii : dataNames.all isAscii = true := by decide +kernel

theorem dataNames_nodup : (dataNames.map ascii).Nodup := by
  have hdistinct : (dataNames.map literalCode).Nodup := by decide +kernel
  have hcodes : dataNames.map literalCode = (dataNames.map ascii).map code := by
    rw [List.map_map]
    apply List.map_congr_left
    intro n hn
    rw [Function.comp_apply, ascii_eq_utf8 (List.all_eq_true.mp dataNames_ascii n hn), literalCode]
  rw [hcodes] at hdistinct
  exact hdistinct.of_map code

/-- No data command goes by a word that the applier keeps for itself. -/
theorem dataNames_ordinary : ∀ n ∈ dataNames, streamWords.contains (ascii n) = false := by
  decide +kernel

theorem find_of_mem {l : List (String × Command S)} (hl : (l.map fun p => ascii p.1).Nodup)
    {p : String × Command S} (hp : p ∈ l) : l.find? (fun q => ascii q.1 == ascii p.1) = some p := by
  induction l with
  | nil => exact absurd hp (by simp)
  | cons q l ih =>
    rw [List.map_cons, List.nodup_cons] at hl
    rcases List.mem_cons.mp hp with rfl | hp
    · simp
    · have hne : ascii q.1 ≠ ascii p.1 := by
        intro heq
        exact hl.1 (heq ▸ List.mem_map_of_mem hp)
      rw [List.find?_cons_of_neg (by simpa using hne)]
      exact ih hl.2 hp

theorem dataTable_of_mem {n : String} {c : Command S} (h : (n, c) ∈ dataCommands) :
    dataTable (ascii n) = some c := by
  have hnodup : ((dataCommands (S := S)).map fun p => ascii p.1).Nodup := by
    have hnames := dataNames_nodup
    rw [← dataCommands_names (S := S), List.map_map] at hnames
    exact hnames
  rw [dataTable, find_of_mem hnodup h]
  rfl

theorem dataTable_mem {name : Bytes} {c : Command S} (h : dataTable name = some c) :
    ∃ n, (n, c) ∈ dataCommands ∧ name = ascii n := by
  obtain ⟨⟨n, c'⟩, hfind, rfl⟩ := Option.map_eq_some_iff.mp h
  exact ⟨n, List.mem_of_find?_eq_some hfind, (by simpa using List.find?_some hfind : ascii n = name).symm⟩

theorem dataTable_eq_none {n : String} (hn : isAscii n = true)
    (h : (dataNames.any fun m => (literalCode n).beq (literalCode m)) = false) :
    dataTable (ascii n) = (none : Option (Command S)) := by
  cases hdata : (dataTable (ascii n) : Option (Command S)) with
  | none => rfl
  | some c =>
    obtain ⟨m, hmem, heq⟩ := dataTable_mem hdata
    have hname : m ∈ dataNames := dataCommands_names (S := S) ▸ List.mem_map_of_mem hmem
    have hany := (ascii_mem_iff hn dataNames_ascii).mp (heq ▸ List.mem_map_of_mem hname)
    exact absurd (h.symm.trans hany) (by decide)

/-- Every use of a registered command that the arity check lets through is faithful. -/
def EntryFaithful (ok : Data.Stream → Prop) (p : String × Command S) : Prop :=
  p ∈ dataCommands → ∀ args : Args, args.head?.map toUpper = some (ascii p.1) →
    arityOK p.2.arity args.length = true → Faithful ok dataTable p.2 args

section Entries

variable {ok : Data.Stream → Prop} {n : String} {arity : ℤ}

theorem resolve_entry {p : String × Command S} (hp : p ∈ dataCommands) {args : Args}
    (hname : args.head?.map toUpper = some (ascii p.1)) (ha : arityOK p.2.arity args.length = true) :
    dataTable.resolve args = some p.2 := by
  cases args with
  | nil => exact absurd hname (by simp)
  | cons name rest =>
    have hT : dataTable (toUpper name) = some p.2 := by
      rw [show toUpper name = ascii p.1 by simpa using hname]
      exact dataTable_of_mem hp
    exact resolve_cons hT ha

theorem ordinary_entry {p : String × Command S} (hp : p ∈ dataCommands) {args : Args}
    (hname : args.head?.map toUpper = some (ascii p.1)) : ordinary args = true := by
  cases args with
  | nil => exact absurd hname (by simp)
  | cons name rest =>
    have hmem : p.1 ∈ dataNames := dataCommands_names (S := S) ▸ List.mem_map_of_mem hp
    rw [ordinary, show toUpper name = ascii p.1 by simpa using hname, dataNames_ordinary _ hmem]
    rfl

theorem entry_query {h : View → Env → Args → Op S Reply}
    (hh : ∀ v args env, (h v env args).ReadOnly) : EntryFaithful ok (n, ⟨arity, .query h⟩) :=
  fun _ args _ _ => faithful_query fun v env => hh v args env

theorem entry_write {h : View → Args → Op S (Reply × Bool)}
    (hh : ∀ v args, arityOK arity args.length = true → (h v args).Sound (Proper ok) Prod.snd) :
    EntryFaithful ok (n, ⟨arity, .write h⟩) :=
  fun hp args hname ha => faithful_write (resolve_entry hp hname ha) (ordinary_entry hp hname)
    fun v => hh v args ha

theorem entry_effect {h : View → Env → Args → Op S (Reply × List Args)}
    (hh : ∀ v env args, args.head?.map toUpper = some (ascii n) →
      Reproduces ok dataTable v (h v env args)) : EntryFaithful ok (n, ⟨arity, .effect h⟩) :=
  fun _ args hname _ => faithful_effect fun v env => hh v env args hname

theorem entry_block {h : View → Env → Args → Op S (Option Reply × List Args)}
    (hh : ∀ v env args, Reproduces ok dataTable v (h v env args)) :
    EntryFaithful ok (n, ⟨arity, .block h⟩) :=
  fun _ args _ _ => faithful_block fun v env => hh v env args

theorem arityOK_le {k m : ℕ} (hk : 0 < k) (h : arityOK (-(k : ℤ)) m = true) : k ≤ m := by
  unfold arityOK at h
  rw [if_neg (by omega)] at h
  have := of_decide_eq_true h
  omega

end Entries

theorem dataTable_set : dataTable (ascii "SET") = some (⟨-3, .effect cmdSet⟩ : Command S) :=
  dataTable_of_mem (by simp [dataCommands, stringCommands])

theorem dataTable_del : dataTable (ascii "DEL") = some (⟨-2, .write cmdDel⟩ : Command S) :=
  dataTable_of_mem (by simp [dataCommands, keyCommands])

theorem dataTable_unlink : dataTable (ascii "UNLINK") = some (⟨-2, .write cmdDel⟩ : Command S) :=
  dataTable_of_mem (by simp [dataCommands, keyCommands])

theorem dataTable_pexpireat :
    dataTable (ascii "PEXPIREAT") = some (⟨-3, .effect cmdPExpireAt⟩ : Command S) :=
  dataTable_of_mem (by simp [dataCommands, keyCommands])

theorem dataTable_persist :
    dataTable (ascii "PERSIST") = some (⟨2, .write cmdPersist⟩ : Command S) :=
  dataTable_of_mem (by simp [dataCommands, keyCommands])

theorem dataTable_lpop : dataTable (ascii "LPOP") = some (⟨-2, .write cmdLPop⟩ : Command S) :=
  dataTable_of_mem (by simp [dataCommands, listCommands])

theorem dataTable_rpop : dataTable (ascii "RPOP") = some (⟨-2, .write cmdRPop⟩ : Command S) :=
  dataTable_of_mem (by simp [dataCommands, listCommands])

theorem dataTable_lmove : dataTable (ascii "LMOVE") = some (⟨5, .write cmdLMove⟩ : Command S) :=
  dataTable_of_mem (by simp [dataCommands, listCommands])

theorem dataTable_rpoplpush :
    dataTable (ascii "RPOPLPUSH") = some (⟨3, .write cmdRPopLPush⟩ : Command S) :=
  dataTable_of_mem (by simp [dataCommands, listCommands])

theorem dataTable_hset : dataTable (ascii "HSET") = some (⟨-4, .write cmdHSet⟩ : Command S) :=
  dataTable_of_mem (by simp [dataCommands, hashCommands])

theorem dataTable_srem : dataTable (ascii "SREM") = some (⟨-3, .write cmdSRem⟩ : Command S) :=
  dataTable_of_mem (by simp [dataCommands, setCommands])

theorem dataTable_zrem : dataTable (ascii "ZREM") = some (⟨-3, .write cmdZRem⟩ : Command S) :=
  dataTable_of_mem (by simp [dataCommands, zsetCommands])

theorem stringCommands_faithful : ∀ p ∈ stringCommands (S := S), EntryFaithful ok p := by
  simp only [stringCommands, List.forall_mem_cons]
  exact ⟨entry_effect fun _ env _ hname => cmdSet_reproduces dataTable_set env hname,
    entry_query cmdGet_readOnly,
    entry_effect fun _ env args _ =>
      cmdGetEx_reproduces dataTable_pexpireat dataTable_persist env args,
    entry_write fun v args _ => cmdIncr_sound v args,
    entry_write fun v args _ => cmdDecr_sound v args,
    entry_write fun v args _ => cmdIncrBy_sound v args,
    entry_write fun v args _ => cmdDecrBy_sound v args,
    entry_effect fun _ env args _ => cmdIncrByFloat_reproduces dataTable_set env args,
    entry_write fun v args _ => cmdMSet_sound v args,
    entry_write fun v args _ => cmdMSetNX_sound v args,
    entry_write fun v args _ => cmdSetNX_sound v args,
    entry_effect fun _ env args _ => setex_reproduces dataTable_set _ (by decide) env args,
    entry_effect fun _ env args _ => setex_reproduces dataTable_set _ (by decide) env args,
    entry_write fun v args _ => cmdGetSet_sound v args,
    entry_write fun v args _ => cmdGetDel_sound v args,
    entry_write fun v args _ => cmdAppend_sound v args,
    entry_query cmdStrLen_readOnly,
    entry_write fun v args _ => cmdSetRange_sound v args, by simp⟩

theorem keyCommands_faithful : ∀ p ∈ keyCommands (S := S), EntryFaithful ok p := by
  simp only [keyCommands, List.forall_mem_cons]
  exact ⟨entry_write fun v args _ => cmdDel_sound v args,
    entry_write fun v args _ => cmdDel_sound v args,
    entry_query cmdExists_readOnly,
    entry_effect fun _ env args _ => expire_reproduces dataTable_pexpireat _ (by decide) _ env args,
    entry_effect fun _ env args _ => expire_reproduces dataTable_pexpireat _ (by decide) _ env args,
    entry_effect fun _ env args _ => expire_reproduces dataTable_pexpireat _ (by decide) _ env args,
    entry_effect fun _ env args _ => expire_reproduces dataTable_pexpireat _ (by decide) _ env args,
    entry_write fun v args _ => cmdPersist_sound v args,
    entry_query cmdType_readOnly,
    entry_write fun v args _ => cmdRename_sound v args,
    entry_write fun v args _ => cmdRenameNX_sound v args,
    entry_write fun v args _ => cmdCopy_sound v args,
    entry_write fun v args _ => cmdFlushAll_sound v args,
    entry_write fun v args _ => cmdFlushDB_sound v args,
    entry_write fun v args _ => cmdSwapDB_sound v args,
    entry_write fun v args _ => cmdMove_sound v args, by simp⟩

theorem listCommands_faithful : ∀ p ∈ listCommands (S := S), EntryFaithful ok p := by
  simp only [listCommands, List.forall_mem_cons]
  exact ⟨entry_write fun v args ha => push_sound v args true (arityOK_le (by decide) ha),
    entry_write fun v args ha => push_sound v args false (arityOK_le (by decide) ha),
    entry_write fun v args ha => pushX_sound v args true (arityOK_le (by decide) ha),
    entry_write fun v args ha => pushX_sound v args false (arityOK_le (by decide) ha),
    entry_write fun v args _ => cmdPop_sound v args true,
    entry_write fun v args _ => cmdPop_sound v args false,
    entry_query cmdLLen_readOnly,
    entry_write fun v args _ => cmdLSet_sound v args,
    entry_write fun v args _ => cmdLInsert_sound v args,
    entry_write fun v args _ => cmdLRem_sound v args,
    entry_write fun v args _ => cmdLTrim_sound v args,
    entry_write fun v args _ => cmdRPopLPush_sound v args,
    entry_write fun v args _ => cmdLMove_sound v args,
    entry_block fun _ _ _ => blockingPops_reproduces dataTable_lpop dataTable_rpop _ _,
    entry_block fun _ _ _ => blockingPops_reproduces dataTable_lpop dataTable_rpop _ _,
    entry_block fun _ env args => blockingLMove_reproduces dataTable_lmove env args,
    entry_block fun _ env args => blockingRPopLPush_reproduces dataTable_rpoplpush env args,
    entry_write fun _ args _ => cmdLMPop_sound dataTable_lpop dataTable_rpop args,
    entry_block fun _ _ _ => listMPop_reproduces dataTable_lpop dataTable_rpop _, by simp⟩

theorem hashCommands_faithful : ∀ p ∈ hashCommands (S := S), EntryFaithful ok p := by
  simp only [hashCommands, List.forall_mem_cons]
  exact ⟨entry_write fun v args ha => cmdHSet_sound v args (arityOK_le (by decide) ha),
    entry_query cmdHGet_readOnly,
    entry_write fun v args _ => cmdHDel_sound v args,
    entry_write fun v args _ => cmdHSetNX_sound v args,
    entry_write fun v args _ => cmdHIncrBy_sound v args,
    entry_effect fun _ env args _ => cmdHIncrByFloat_reproduces dataTable_hset env args,
    entry_write fun v args ha => cmdHMSet_sound v args (arityOK_le (by decide) ha), by simp⟩

theorem setCommands_faithful : ∀ p ∈ setCommands (S := S), EntryFaithful ok p := by
  simp only [setCommands, List.forall_mem_cons]
  exact ⟨entry_write fun v args ha => cmdSAdd_sound v args (arityOK_le (by decide) ha),
    entry_write fun v args _ => cmdSRem_sound v args,
    entry_query cmdSCard_readOnly,
    entry_effect fun _ env args _ => cmdSPop_reproduces dataTable_srem env args,
    entry_write fun v args _ => cmdSMove_sound v args,
    entry_write fun v args _ => setCombineStore_sound v args _,
    entry_write fun v args _ => setCombineStore_sound v args _,
    entry_write fun v args _ => setCombineStore_sound v args _, by simp⟩

theorem zsetCommands_faithful : ∀ p ∈ zsetCommands (S := S), EntryFaithful ok p := by
  simp only [zsetCommands, List.forall_mem_cons]
  exact ⟨entry_write fun v args _ => cmdZAdd_sound v args,
    entry_write fun v args _ => cmdZIncrBy_sound v args,
    entry_write fun v args _ => cmdZRem_sound v args,
    entry_query cmdZCard_readOnly,
    entry_write fun v args _ => cmdZRemRangeByRank_sound v args,
    entry_write fun v args _ => cmdZRemRangeByScore_sound v args,
    entry_write fun v args _ => cmdZRemRangeByLex_sound v args,
    entry_write fun v args _ => cmdZRangeStore_sound v args,
    entry_write fun v args _ => cmdZCombineStore_sound v args _,
    entry_write fun v args _ => cmdZCombineStore_sound v args _,
    entry_write fun v args _ => cmdZCombineStore_sound v args _,
    entry_effect fun _ env args _ => cmdZPop_reproduces dataTable_zrem _ env args,
    entry_effect fun _ env args _ => cmdZPop_reproduces dataTable_zrem _ env args,
    entry_effect fun _ env args _ => cmdZMPop_reproduces dataTable_zrem env args,
    entry_block fun _ _ _ => blockingZPops_reproduces dataTable_zrem _ _,
    entry_block fun _ _ _ => blockingZPops_reproduces dataTable_zrem _ _,
    entry_block fun _ _ _ => zsetMPop_reproduces dataTable_zrem _, by simp⟩

theorem dataTable_faithful {args : Args} {c : Command S} (h : dataTable.resolve args = some c) :
    Faithful ok dataTable c args := by
  cases args with
  | nil => exact absurd h (by simp [Table.resolve])
  | cons name rest =>
    obtain ⟨hT, ha⟩ := Option.filter_eq_some_iff.mp h
    obtain ⟨n, hmem, hname⟩ := dataTable_mem hT
    have hentry : EntryFaithful ok (n, c) := by
      simp only [dataCommands, List.mem_append] at hmem
      obtain ((((hm | hm) | hm) | hm) | hm) | hm := hmem
      · exact stringCommands_faithful _ hm
      · exact keyCommands_faithful _ hm
      · exact listCommands_faithful _ hm
      · exact hashCommands_faithful _ hm
      · exact setCommands_faithful _ hm
      · exact zsetCommands_faithful _ hm
    exact hentry hmem _ (by simp [hname]) ha

end ShardKV.Commands
