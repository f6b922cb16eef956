import ShardKV.Data.Value
import ShardKV.Resp.Command
import ShardKV.Server.Operand

/-! Commands, their replies and what they ship. A handler is a program over the
key space. A plain write propagates its own text, so it may depend on nothing but
its arguments, its database and the live entries. An effect handler may read the
clock and the iteration order of a Go map, and names the commands that reproduce
what it did. -/

namespace ShardKV.Server

open Access Data Resp Prog

inductive Reply
  | simple (text : String)
  | error (text : Bytes)
  | int (n : ℤ)
  | bulk (b : Bytes)
  | double (text : Bytes)
  | null
  | nullArray
  | array (rs : List Reply)

/-- The errors a store operation returns. -/
inductive StoreErr
  | wrongType
  | notInteger
  | overflow
  | notFloat
  | hashNotInteger
  | hashNotFloat
  | nan
  | scoreNaN
  | offset
  | stringTooLong
  | noSuchKey
  | indexOutOfRange
  | sameObject
  deriving DecidableEq

def StoreErr.text : StoreErr → String
  | wrongType => "WRONGTYPE Operation against a key holding the wrong kind of value"
  | notInteger => "value is not an integer"
  | overflow => "increment or decrement would overflow"
  | notFloat => "value is not a valid float"
  | hashNotInteger => "hash value is not an integer"
  | hashNotFloat => "hash value is not a float"
  | nan => "increment would produce NaN or Infinity"
  | scoreNaN => "resulting score is not a number (NaN)"
  | offset => "offset is out of range"
  | stringTooLong => "string exceeds maximum allowed size (proto-max-bulk-len)"
  | noSuchKey => "no such key"
  | indexOutOfRange => "index out of range"
  | sameObject => "source and destination objects are the same"

def errorReply (text : String) : Reply := .error (ascii text)

/-- `writeStoreErr`. -/
def storeErrReply : StoreErr → Reply
  | .wrongType => errorReply StoreErr.wrongType.text
  | .notInteger => errorReply "ERR value is not an integer or out of range"
  | .overflow => errorReply "ERR increment or decrement would overflow"
  | e => errorReply ("ERR " ++ e.text)

def syntaxErr : Reply := errorReply "ERR syntax error"

def notIntegerErr : Reply := errorReply "ERR value is not an integer or out of range"

/-- The database a handler acts on, the number of databases, and whether cluster
mode is on. -/
structure View where
  db : ℕ
  databases : ℕ
  cluster : Bool
  deriving DecidableEq

def View.loc (v : View) (key : Bytes) : Loc := (v.db, key)

/-- What a handler reads besides its arguments and the key space: the clock, and
the order in which a Go map yields its keys. -/
structure Env where
  now : Instant
  order : Finset Bytes → List Bytes
  order_nodup : ∀ m, (order m).Nodup
  mem_order : ∀ m b, b ∈ order m ↔ b ∈ m

/-- What running a command gives: its reply, whether the dataset changed, and
the effect to propagate in its place, empty when the command ships itself. -/
structure Outcome where
  reply : Reply
  dirty : Bool
  effect : List Args

/-- The five ways a command is registered. -/
inductive Handler (S : Type) [LinearOrder S]
  | query (run : View → Env → Args → Op S Reply)
  | write (run : View → Args → Op S (Reply × Bool))
  | effect (run : View → Env → Args → Op S (Reply × List Args))
  | block (run : View → Env → Args → Op S (Option Reply × List Args))
  | session

structure Command (S : Type) [LinearOrder S] where
  arity : ℤ
  handler : Handler S

/-- The command table, keyed by upper-case name. -/
abbrev Table (S : Type) [LinearOrder S] := Bytes → Option (Command S)

def arityOK (arity : ℤ) (n : ℕ) : Bool :=
  if 0 ≤ arity then decide ((n : ℤ) = arity) else decide (-arity ≤ (n : ℤ))

variable {S : Type} [LinearOrder S]

/-- `command.write`. -/
def Command.isWrite (c : Command S) : Bool :=
  match c.handler with
  | .write _ | .effect _ | .block _ => true
  | .query _ | .session => false

/-- `command.apply`: the command run without a connection behind it. A blocking
command takes its non-blocking half, whose answer for nothing to serve is the
null array. -/
def Command.apply (c : Command S) (v : View) (env : Env) (args : Args) : Op S Outcome :=
  match c.handler with
  | .query run => do
    let reply ← run v env args
    pure ⟨reply, false, []⟩
  | .write run => do
    let (reply, dirty) ← run v args
    pure ⟨reply, dirty, []⟩
  | .effect run => do
    let (reply, effect) ← run v env args
    pure ⟨reply, !effect.isEmpty, effect⟩
  | .block run => do
    let (reply, effect) ← run v env args
    pure ⟨reply.getD .nullArray, !effect.isEmpty, effect⟩
  | .session => .ret ⟨.null, false, []⟩

/-- The commands a dirty write ships. -/
def wireForm (args : Args) (effect : List Args) : List Args :=
  if effect.isEmpty then [args] else effect

/-- The command table's entry for an argument vector, when its arity allows it. -/
def Table.resolve (T : Table S) (args : Args) : Option (Command S) :=
  match args with
  | [] => none
  | name :: _ => (T (toUpper name)).filter fun c => arityOK c.arity args.length

/-- `applyCommand`: what the applier does with one command of a stream, once it
knows the database. Unknown names, bad arities and connection commands are
skipped. -/
def Table.applyCommand (T : Table S) (v : View) (env : Env) (args : Args) : Op S Unit :=
  match T.resolve args with
  | none => .ret ()
  | some c => do
    let _ ← c.apply v env args
    pure ()

/-- The words of a stream that the applier keeps for itself. -/
def streamWords : List Bytes :=
  [ascii "SELECT", ascii "MULTI", ascii "EXEC", ascii "DISCARD", ascii "PUBLISH", ascii "PING"]

/-- A command that the applier buffers or applies. -/
def ordinary : Args → Bool
  | [] => false
  | name :: _ => !streamWords.contains (toUpper name)

variable {β : Type} {ok : Data.Stream → Prop} {T : Table S} {v : View}

theorem run_apply_write (arity : ℤ) (h : View → Args → Op S (Reply × Bool)) (env : Env)
    (args : Args) (vis : Entry S → Bool) (s : Dataset S) :
    ((Command.mk arity (.write h)).apply v env args).run vis s =
      (⟨((h v args).run vis s).1.1, ((h v args).run vis s).1.2, []⟩, ((h v args).run vis s).2) := by
  simp [Command.apply]

theorem run_apply_effect (arity : ℤ) (h : View → Env → Args → Op S (Reply × List Args))
    (env : Env) (args : Args) (vis : Entry S → Bool) (s : Dataset S) :
    ((Command.mk arity (.effect h)).apply v env args).run vis s =
      (⟨((h v env args).run vis s).1.1, !((h v env args).run vis s).1.2.isEmpty,
        ((h v env args).run vis s).1.2⟩, ((h v env args).run vis s).2) := by
  simp [Command.apply]

theorem run_apply_block (arity : ℤ) (h : View → Env → Args → Op S (Option Reply × List Args))
    (env : Env) (args : Args) (vis : Entry S → Bool) (s : Dataset S) :
    ((Command.mk arity (.block h)).apply v env args).run vis s =
      (⟨((h v env args).run vis s).1.1.getD .nullArray, !((h v env args).run vis s).1.2.isEmpty,
        ((h v env args).run vis s).1.2⟩, ((h v env args).run vis s).2) := by
  simp [Command.apply]

theorem run_applyCommand {c : Command S} {args : Args} (hc : T.resolve args = some c) (env : Env)
    (vis : Entry S → Bool) (s : Dataset S) :
    ((T.applyCommand v env args).run vis s).2 = ((c.apply v env args).run vis s).2 := by
  simp [Table.applyCommand, hc]

theorem resolve_cons {name : Bytes} {rest : List Bytes} {c : Command S}
    (hT : T (toUpper name) = some c) (ha : arityOK c.arity (rest.length + 1) = true) :
    T.resolve (name :: rest) = some c := by
  simp [Table.resolve, hT, Option.filter, ha]

theorem assigns_write {name : Bytes} {rest : List Bytes} {arity : ℤ}
    {h : View → Args → Op S (Reply × Bool)} (hT : T (toUpper name) = some ⟨arity, .write h⟩)
    (ha : arityOK arity (rest.length + 1) = true) (env : Env) {k : Loc} {e w : Option (Entry S)}
    (hw : (h v (name :: rest)).Assigns k e w) :
    (T.applyCommand v env (name :: rest)).Assigns k e w := by
  intro vis s hs
  rw [run_applyCommand (resolve_cons hT ha), run_apply_write]
  exact hw vis s hs

theorem assigns_effect {name : Bytes} {rest : List Bytes} {arity : ℤ}
    {h : View → Env → Args → Op S (Reply × List Args)}
    (hT : T (toUpper name) = some ⟨arity, .effect h⟩)
    (ha : arityOK arity (rest.length + 1) = true) (env : Env) {k : Loc} {e w : Option (Entry S)}
    (hw : (h v env (name :: rest)).Assigns k e w) :
    (T.applyCommand v env (name :: rest)).Assigns k e w := by
  intro vis s hs
  rw [run_applyCommand (resolve_cons hT ha), run_apply_effect]
  exact hw vis s hs

/-- Applying the command does not depend on the clock of whoever applies it. -/
def Timeless (T : Table S) (v : View) (args : Args) : Prop :=
  ∀ env env', T.applyCommand v env args = T.applyCommand v env' args

theorem timeless_write {args : Args} {arity : ℤ} {h : View → Args → Op S (Reply × Bool)}
    (hT : T.resolve args = some ⟨arity, .write h⟩) : Timeless T v args := by
  intro env env'
  simp [Table.applyCommand, hT, Command.apply]

theorem timeless_effect {args : Args} {arity : ℤ} {h : View → Env → Args → Op S (Reply × List Args)}
    (hT : T.resolve args = some ⟨arity, .effect h⟩) (hh : ∀ env env', h v env args = h v env' args) :
    Timeless T v args := by
  intro env env'
  simp [Table.applyCommand, hT, Command.apply, hh env env']

/-- A handler that names its effect. Either it names none and changed nothing,
or it names one ordinary command, which does to the store what the handler did. -/
structure Reproduces (ok : Data.Stream → Prop) (T : Table S) (v : View) (p : Op S (β × List Args)) : Prop where
  keeps : p.Keeps (Proper ok)
  shows : ∀ (vis : Entry S → Bool) (s : Dataset S), All (Proper ok) s →
    ((p.run vis s).1.2 = [] ∧ Alike vis (p.run vis s).2 s) ∨
    ∃ a, (p.run vis s).1.2 = [a] ∧ ordinary a = true ∧ Timeless T v a ∧
      ∀ env, ((T.applyCommand v env a).run vis s).2 = (p.run vis s).2

theorem reproduces_of_nil {x : β × List Args} (h : x.2 = []) :
    Reproduces ok T v (.ret x : Op S (β × List Args)) :=
  ⟨keeps_ret _, fun _ _ _ => .inl ⟨h, rfl⟩⟩

theorem reproduces_ret (b : β) : Reproduces ok T v (.ret (b, []) : Op S (β × List Args)) :=
  reproduces_of_nil rfl

/-- A shipped command that leaves `w` at the key where `e` was seen. -/
def Ships (T : Table S) (v : View) (k : Loc) (e w : Option (Entry S)) (effect : List Args) : Prop :=
  ∃ c, effect = [c] ∧ ordinary c = true ∧ Timeless T v c ∧
    ∀ env, (T.applyCommand v env c).Assigns k e w

/-- What an attempt on one key has to satisfy: it changes nothing and goes on to
something that reproduces, or it ends by shipping what it did. -/
def Attempt (ok : Data.Stream → Prop) (T : Table S) (v : View) (k : Loc) {α : Type} (next : α → Op S (β × List Args))
    (e : Option (Entry S)) : Edit (Entry S) α → Prop
  | .keep a => Reproduces ok T v (next a)
  | .put w a => Proper ok w ∧ ((e = some w ∧ Reproduces ok T v (next a)) ∨
      ∃ x, next a = .ret x ∧ Ships T v k e (some w) x.2)
  | .drop a => ∃ x, next a = .ret x ∧ Ships T v k e none x.2

theorem reproduces_attempt {α : Type} {k : Loc} {f : Option (Entry S) → Edit (Entry S) α}
    {next : α → Op S (β × List Args)}
    (hf : ∀ e, (∀ x, e = some x → Proper ok x) → Attempt ok T v k next e (f e)) :
    Reproduces ok T v (edit k f >>= next) := by
  constructor
  · apply keeps_read
    intro e he
    have hfe := hf e he
    beta_reduce
    cases hcase : f e with
    | keep a =>
      rw [hcase] at hfe
      exact hfe.keeps
    | put w a =>
      rw [hcase] at hfe
      obtain ⟨hw, ⟨-, hnext⟩ | ⟨x, hx, -⟩⟩ := hfe
      · exact keeps_put hw hnext.keeps
      · have hret : (next a).Keeps (Proper ok) := hx ▸ keeps_ret x
        exact keeps_put hw hret
    | drop a =>
      rw [hcase] at hfe
      obtain ⟨x, hx, -⟩ := hfe
      have hret : (next a).Keeps (Proper ok) := hx ▸ keeps_ret x
      exact keeps_drop hret
  · intro vis s hs
    have hfe := hf (seen vis s k) fun x hx => all_seen hs vis k hx
    rw [run_bind, run_edit]
    cases hcase : f (seen vis s k) with
    | keep a =>
      rw [hcase] at hfe
      exact hfe.shows vis s hs
    | put w a =>
      rw [hcase] at hfe
      obtain ⟨-, ⟨hsame, hnext⟩ | ⟨x, hx, c, hc, hord, htime, hassign⟩⟩ := hfe
      · dsimp only
        rw [update_seen hsame]
        exact hnext.shows vis s hs
      · refine .inr ⟨c, ?_, hord, htime, ?_⟩
        · rw [hx]
          exact hc
        · intro env
          rw [hx]
          exact hassign env vis s rfl
    | drop a =>
      rw [hcase] at hfe
      obtain ⟨x, hx, c, hc, hord, htime, hassign⟩ := hfe
      refine .inr ⟨c, ?_, hord, htime, ?_⟩
      · rw [hx]
        exact hc
      · intro env
        rw [hx]
        exact hassign env vis s rfl

/-- An attempt that stores something, or drops the key instead, and ends by
shipping that. -/
theorem attempt_unless {α : Type} {c : Prop} [Decidable c] {k : Loc}
    {next : α → Op S (β × List Args)} {e : Option (Entry S)} {w : Entry S} {a : α}
    {x : β × List Args} (hw : ¬c → Proper ok w) (hx : next a = .ret x)
    (h : Ships T v k e (if c then none else some w) x.2) :
    Attempt ok T v k next e (if c then .drop a else .put w a) := by
  split
  · rw [if_pos ‹c›] at h
    exact ⟨x, hx, h⟩
  · rw [if_neg ‹¬c›] at h
    exact ⟨hw ‹¬c›, .inr ⟨x, hx, h⟩⟩

/-- What the edit of a key has to satisfy when `g` names its effect. -/
def EditReproduces (ok : Data.Stream → Prop) (T : Table S) (v : View) (k : Loc) {α : Type} (g : α → β × List Args)
    (e : Option (Entry S)) : Edit (Entry S) α → Prop
  | .keep a => (g a).2 = []
  | .put w a => Proper ok w ∧ ((e = some w ∧ (g a).2 = []) ∨ Ships T v k e (some w) (g a).2)
  | .drop a => Ships T v k e none (g a).2

theorem editReproduces_unless {α : Type} {c : Prop} [Decidable c] {k : Loc} {g : α → β × List Args}
    {e : Option (Entry S)} {w : Entry S} {a : α} (hw : ¬c → Proper ok w)
    (h : Ships T v k e (if c then none else some w) (g a).2) :
    EditReproduces ok T v k g e (if c then .drop a else .put w a) := by
  split
  · rw [if_pos ‹c›] at h
    exact h
  · rw [if_neg ‹¬c›] at h
    exact ⟨hw ‹¬c›, .inr h⟩

theorem reproduces_edit {α : Type} {k : Loc} {f : Option (Entry S) → Edit (Entry S) α}
    {g : α → β × List Args}
    (hf : ∀ e, (∀ x, e = some x → Proper ok x) → EditReproduces ok T v k g e (f e)) :
    Reproduces ok T v (g <$> edit k f) := by
  apply reproduces_attempt
  intro e he
  have hfe := hf e he
  cases hcase : f e with
  | keep a =>
    rw [hcase] at hfe
    exact reproduces_of_nil hfe
  | put w a =>
    rw [hcase] at hfe
    obtain ⟨hw, ⟨hsame, hnil⟩ | hships⟩ := hfe
    · exact ⟨hw, .inl ⟨hsame, reproduces_of_nil hnil⟩⟩
    · exact ⟨hw, .inr ⟨_, rfl, hships⟩⟩
  | drop a =>
    rw [hcase] at hfe
    exact ⟨_, rfl, hfe⟩

theorem Reproduces.map {γ : Type} {p : Op S (β × List Args)} (hp : Reproduces ok T v p) (f : β → γ) :
    Reproduces ok T v ((fun r => (f r.1, r.2)) <$> p) := by
  refine ⟨keeps_map hp.keeps _, ?_⟩
  intro vis s hs
  rw [run_map]
  exact hp.shows vis s hs

theorem Reproduces.sound {p : Op S (β × List Args)} (hp : Reproduces ok T v p) :
    p.Sound (Proper ok) fun r => !r.2.isEmpty := by
  refine ⟨hp.keeps, ?_⟩
  intro vis s hs hd
  obtain ⟨-, halike⟩ | ⟨a, ha, -⟩ := hp.shows vis s hs
  · exact halike
  · exact absurd hd (by simp [ha])

/-- A sound program that ships, when it changed something, a command that runs
the same program again. -/
theorem reproduces_same {α : Type} {p : Op S α} {dirty : α → Bool} {g : α → β × List Args} {c : Args}
    (hp : p.Sound (Proper ok) dirty) (hg : ∀ a, (g a).2 = if dirty a then [c] else [])
    (hord : ordinary c = true) (htime : Timeless T v c)
    (hredo : ∀ env vis s, ((T.applyCommand v env c).run vis s).2 = (p.run vis s).2) :
    Reproduces ok T v (g <$> p) := by
  refine ⟨keeps_map hp.keeps g, ?_⟩
  intro vis s hs
  rw [run_map]
  cases hd : dirty (p.run vis s).1 with
  | false => exact .inl ⟨by simp [hg, hd], hp.honest vis s hs hd⟩
  | true => exact .inr ⟨c, by simp [hg, hd], hord, htime, fun env => hredo env vis s⟩

end ShardKV.Server
