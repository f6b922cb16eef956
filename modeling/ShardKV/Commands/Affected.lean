import ShardKV.Commands.Footprint
import ShardKV.Server.Exec

/-! The keys that a write reports. Clients that watch a key, or wait for one, learn of
a write through the list that `affectedDBKeys` reads off its arguments. A command
reports completely when every entry it creates, changes or deletes is on that list.
Most commands do, whatever their operands. Four do not always: LMPOP and ZMPOP report
the operand that counts their keys, COPY reports the first of its DB options and acts
on the last, and XREADGROUP reports an effect that names only the streams it delivered
new entries from. -/

namespace ShardKV.Commands

open Access Data Resp Server Prog

/-- Where the arguments of a command name the keys it writes. -/
inductive KeyShape
  | pairs
  | operands
  | second
  | sort
  | georadius
  | migrate
  | firstTwo
  | first
  deriving DecidableEq

/-- The case distinction of `affectedKeys`. -/
def keyShape (name : Bytes) : KeyShape :=
  if name ∈ ["MSET", "MSETNX"].map ascii then .pairs
  else if name ∈ ["DEL", "UNLINK", "TOUCH"].map ascii then .operands
  else if name ∈ ["XGROUP", "BITOP"].map ascii then .second
  else if name ∈ ["SORT", "SORT_RO"].map ascii then .sort
  else if name ∈ ["GEORADIUS", "GEORADIUSBYMEMBER"].map ascii then .georadius
  else if name = ascii "MIGRATE" then .migrate
  else if name ∈ ["RENAME", "RENAMENX", "COPY", "SMOVE", "LMOVE", "RPOPLPUSH", "BLMOVE",
      "BRPOPLPUSH", "ZRANGESTORE"].map ascii then .firstTwo
  else .first

/-- The destination that the last STORE of a SORT names. -/
def sortDestination : Option Bytes → List Bytes → Option Bytes
  | d, [] => d
  | d, [_] => d
  | d, a :: b :: rest =>
    if isWord a "LIMIT" then sortDestination d (rest.drop 1)
    else if isWord a "BY" || isWord a "GET" then sortDestination d rest
    else if isWord a "STORE" then sortDestination (some b) rest
    else sortDestination d (b :: rest)
  termination_by _ l => l.length

def sortKeys : Args → List Bytes
  | _ :: key :: opts => key :: (sortDestination none opts).toList
  | _ => []

/-- What follows a STORE or STOREDIST, wherever it stands. -/
def storeOperands : List Bytes → List Bytes
  | a :: b :: rest =>
    if isWord a "STORE" || isWord a "STOREDIST" then b :: storeOperands rest
    else storeOperands (b :: rest)
  | _ => []

def georadiusKeys : Args → List Bytes
  | _ :: key :: rest => key :: storeOperands rest
  | _ => []

structure MigrateOpts where
  copy : Bool
  replace : Bool
  user : Bytes
  pass : Option Bytes

def migrateKeyErr : Reply :=
  errorReply "ERR When using MIGRATE KEYS option, the key argument must be set to the empty string"

/-- `parseMigrateArgs`, from the options on; the key operand stands before them. -/
def parseMigrateArgs (key : Bytes) : MigrateOpts → List Bytes →
    Except Reply (List Bytes × MigrateOpts)
  | o, [] => if key = [] then .error migrateKeyErr else .ok ([key], o)
  | o, [a] =>
    if isWord a "COPY" then parseMigrateArgs key { o with copy := true } []
    else if isWord a "REPLACE" then parseMigrateArgs key { o with replace := true } []
    else if isWord a "KEYS" && key ≠ [] then .error migrateKeyErr
    else .error syntaxErr
  | o, a :: b :: rest =>
    if isWord a "COPY" then parseMigrateArgs key { o with copy := true } (b :: rest)
    else if isWord a "REPLACE" then parseMigrateArgs key { o with replace := true } (b :: rest)
    else if isWord a "AUTH" then parseMigrateArgs key { o with pass := some b } rest
    else if isWord a "AUTH2" then
      match rest with
      | [] => .error syntaxErr
      | c :: rest => parseMigrateArgs key { o with user := b, pass := some c } rest
    else if isWord a "KEYS" then
      if key ≠ [] then .error migrateKeyErr else .ok (b :: rest, o)
    else .error syntaxErr

def noMigrateOpts : MigrateOpts := ⟨false, false, [], none⟩

def migrateKeys : Args → List Bytes
  | _ :: _ :: _ :: key :: _ :: _ :: opts =>
    match parseMigrateArgs key noMigrateOpts opts with
    | .error _ => []
    | .ok (keys, _) => keys
  | _ => []

def affectedKeys (name : Bytes) (args : Args) : List Bytes :=
  match keyShape name with
  | .pairs => (pairs args.tail).map Prod.fst
  | .operands => args.tail
  | .second => args[2]?.toList
  | .sort => sortKeys args
  | .georadius => georadiusKeys args
  | .migrate => migrateKeys args
  | .firstTwo =>
    match args with
    | _ :: a :: b :: _ => [a, b]
    | _ => []
  | .first => args[1]?.toList

/-- The operand of the first DB option of a COPY. -/
def firstDB : List Bytes → Option ℤ
  | a :: n :: rest => if equalFold a "DB" then parseInt64 n else firstDB (n :: rest)
  | _ => none

def crossDBTarget (name : Bytes) (args : Args) : Option (ℤ × Bytes) :=
  if name = ascii "MOVE" then
    match args with
    | [_, key, n] => (parseInt64 n).map fun n => (n, key)
    | _ => none
  else if name = ascii "COPY" then
    match args with
    | _ :: _ :: dst :: opts => (firstDB opts).map fun n => (n, dst)
    | _ => none
  else none

def affectedDBKeys (v : View) (args : Args) : List (ℤ × Bytes) :=
  let name := toUpper (args.headD [])
  ((affectedKeys name args).map fun key => ((v.db : ℤ), key)) ++ (crossDBTarget name args).toList

/-- The key is on the list of one of the commands. -/
def Reports (v : View) (commands : List Args) (k : Loc) : Prop :=
  ∃ args ∈ commands, ((k.1 : ℤ), k.2) ∈ affectedDBKeys v args

section Completeness

variable {S : Type} [LinearOrder S]

/-- `cmd.block != nil`. -/
def blocks (c : Command S) : Bool :=
  match c.handler with
  | .block _ => true
  | _ => false

/-- What is passed to `touchWatchers`: the command, or the effect of one that blocks. -/
def observed (c : Command S) (args : Args) (r : Outcome) : List Args :=
  if blocks c then r.effect else [args]

/-- An entry that a dataset may hold. -/
abbrev Stored : Entry S → Prop := Proper fun _ => True

/-- Every live entry that the command creates, changes or deletes is reported. -/
def Complete (c : Command S) (v : View) (args : Args) : Prop :=
  ∀ (env : Env) (s : Dataset S), Prog.All Stored s → ∀ k,
    seen (live env.now) ((c.apply v env args).run (live env.now) s).2 k ≠ seen (live env.now) s k →
      Reports v (observed c args ((c.apply v env args).run (live env.now) s).1) k

/-- A program whose effect, if it blocks, names every key it changes. -/
def EffectReports {β : Type} (v : View) (p : Op S (β × List Args)) : Prop :=
  ∀ (vis : Entry S → Bool) (s : Dataset S), Prog.All Stored s → ∀ k,
    seen vis (p.run vis s).2 k ≠ seen vis s k → Reports v (p.run vis s).1.2 k

variable {β : Type} {v : View} {args : Args} {arity : ℤ}

theorem complete_of_writesIn {c : Command S} (hb : blocks c = false)
    (h : ∀ env, (c.apply v env args).WritesIn {k | Reports v [args] k}) : Complete c v args := by
  intro env s _ k hk
  rw [observed, if_neg (by simp [hb])]
  by_contra hno
  exact hk (congrArg (Option.filter _) (run_outside (h env) (live env.now) s hno))

theorem complete_write {h : View → Args → Op S (Reply × Bool)}
    (hh : (h v args).WritesIn {k | Reports v [args] k}) : Complete ⟨arity, .write h⟩ v args :=
  complete_of_writesIn rfl fun _ => writesIn_bind hh fun _ => writesIn_ret _

theorem complete_effect {h : View → Env → Args → Op S (Reply × List Args)}
    (hh : ∀ env, (h v env args).WritesIn {k | Reports v [args] k}) :
    Complete ⟨arity, .effect h⟩ v args :=
  complete_of_writesIn rfl fun env => writesIn_bind (hh env) fun _ => writesIn_ret _

theorem complete_block {h : View → Env → Args → Op S (Option Reply × List Args)}
    (hh : ∀ env, EffectReports v (h v env args)) : Complete ⟨arity, .block h⟩ v args := by
  intro env s hs k hk
  rw [run_apply_block] at hk ⊢
  exact hh env (live env.now) s hs k hk

theorem effectReports_ret (x : β × List Args) : EffectReports v (.ret x : Op S (β × List Args)) :=
  fun _ _ _ _ hk => absurd rfl hk

/-- What an attempt on one key has to satisfy: it goes on with the key as it was, or
it ends by naming the key. -/
def AttemptReports {α : Type} (v : View) (k : Loc) (next : α → Op S (β × List Args))
    (e : Option (Entry S)) : Prog.Edit (Entry S) α → Prop
  | .keep a => EffectReports v (next a)
  | .put w a => (e = some w ∧ EffectReports v (next a)) ∨
      ∃ x, next a = .ret x ∧ Reports v x.2 k
  | .drop a => ∃ x, next a = .ret x ∧ Reports v x.2 k

theorem effectReports_attempt {α : Type} {k : Loc} {f : Option (Entry S) → Prog.Edit (Entry S) α}
    {next : α → Op S (β × List Args)}
    (hf : ∀ e, (∀ x, e = some x → Stored x) → AttemptReports v k next e (f e)) :
    EffectReports v (Prog.edit k f >>= next) := by
  intro vis s hs j hj
  have hfe := hf (seen vis s k) fun x hx => all_seen hs vis k hx
  rw [run_bind, run_edit] at hj ⊢
  -- a run that ends here changed no other key
  have hend {w : Option (Entry S)} {x : β × List Args} (hx : Reports v x.2 k)
      (hne : seen vis (Function.update s k w) j ≠ seen vis s j) : Reports v x.2 j := by
    by_cases hjk : j = k
    · exact hjk ▸ hx
    · rw [seen_update, if_neg hjk] at hne
      exact absurd rfl hne
  cases hcase : f (seen vis s k) with
  | keep a =>
    rw [hcase] at hfe hj
    exact hfe vis s hs j hj
  | put w a =>
    rw [hcase] at hfe hj
    dsimp only at hj ⊢
    obtain ⟨hsame, hnext⟩ | ⟨x, hx, hk⟩ := hfe
    · rw [update_seen hsame] at hj ⊢
      exact hnext vis s hs j hj
    · rw [hx] at hj ⊢
      exact hend hk hj
  | drop a =>
    rw [hcase] at hfe hj
    dsimp only at hj ⊢
    obtain ⟨x, hx, hk⟩ := hfe
    rw [hx] at hj ⊢
    exact hend hk hj

end Completeness

variable {v : View} {args : Args} {n : String}

theorem headD_toUpper (h : args.head?.map toUpper = some (ascii n)) :
    toUpper (args.headD []) = ascii n := by
  cases args with
  | nil => exact absurd h (by simp)
  | cons name rest => exact Option.some.inj h

theorem reports_of_affected (h : args.head?.map toUpper = some (ascii n)) {key : Bytes}
    (hkey : key ∈ affectedKeys (ascii n) args) : Reports v [args] (v.loc key) := by
  refine ⟨args, List.mem_singleton_self args, ?_⟩
  rw [affectedDBKeys, headD_toUpper h]
  exact List.mem_append_left _ (List.mem_map_of_mem hkey)

theorem firstKey_reported (hn : keyShape (ascii n) = .first)
    (h : args.head?.map toUpper = some (ascii n)) : firstKey v args ⊆ {k | Reports v [args] k} := by
  rintro k ⟨key, hkey, rfl⟩
  exact reports_of_affected h (by simp [affectedKeys, hn, hkey])

/-- A command with fewer than two operands writes none of them. -/
theorem firstTwoKeys_reported (hn : keyShape (ascii n) = .firstTwo)
    (h : args.head?.map toUpper = some (ascii n)) (hlen : 3 ≤ args.length) :
    firstTwoKeys v args ⊆ {k | Reports v [args] k} := by
  rintro k ⟨key, hkey, rfl⟩
  match args, hlen with
  | name :: a :: b :: rest, _ =>
    refine reports_of_affected h ?_
    simp only [affectedKeys, hn]
    simpa [eq_comm] using hkey

end ShardKV.Commands
