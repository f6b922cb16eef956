import ShardKV.Commands.Complete

/-! Clients that wait for a value. A blocking command makes one attempt, and if nothing
can be served it joins the queue of each of its keys and parks. A write signals the
keys it reports, of each queue only the head; a client that takes a signal looks for a
value of its type, tries again, and hands its queues on when it leaves. Between any
two of these steps the other clients may take theirs. -/

namespace ShardKV.Blocking

open Access Data Resp Server Commands Prog

variable {S : Type} [Numeric S]

inductive Kind
  | string
  | list
  | hash
  | set
  | zset
  | stream
  deriving DecidableEq

def kind : Value S → Kind
  | .str _ => .string
  | .list _ => .list
  | .hash _ => .hash
  | .set _ => .set
  | .zset _ => .zset
  | .stream _ => .stream

/-- `Store.Type`. -/
def kindAt (now : Instant) (s : Dataset S) (k : Loc) : Option Kind :=
  (seen (live now) s k).map fun e => kind e.value

/-- A blocking command with its arguments: the keys it waits on, the type it can be
served from, and one attempt at it. An attempt names in its effect every key that it
changes, and asks to wait only where none of the keys can serve it. -/
structure Request (S : Type) [Numeric S] where
  view : View
  keys : List Loc
  want : Kind
  attempt : Op S (Option Reply × List Args)
  keeps : attempt.Keeps Stored
  reports : EffectReports view attempt
  waits : ∀ (now : Instant) (s : Dataset S), Prog.All Stored s →
    (attempt.run (live now) s).1.1 = none → ∀ k ∈ keys, kindAt now s k ≠ some want

/-- A write of another client, with what is known of every command of the table: it
leaves proper entries, and says so when it changed any. -/
structure WriteCall (S : Type) [Numeric S] where
  command : Command S
  view : View
  env : Env
  args : Args
  sound : (command.apply view env args).Sound Stored Outcome.dirty

/-- How far a client has come with its blocking command. -/
inductive Phase
  | arrived
  | trying
  | unserved
  | queued
  | parked
  | retrying
  | attempting
  | leaving
  | handing
  deriving DecidableEq

/-- The client stands in the queues of its keys. -/
def Phase.inQueue : Phase → Bool
  | .queued | .parked | .retrying | .attempting | .leaving => true
  | .arrived | .trying | .unserved | .handing => false

/-- A connection inside `blockUntilServed`, with the slot of its `ready` channel. -/
structure Client (S : Type) [Numeric S] where
  request : Request S
  phase : Phase
  ready : Bool

/-- The queues whose heads a wakeup is for. -/
inductive Scope
  | keys (l : List Loc)
  | database (n : ℕ)
  | all

def Scope.covers : Scope → Loc → Prop
  | .keys l, k => k ∈ l
  | .database n, k => k.1 = n
  | .all, _ => True

/-- The database numbers that a report can name are those of databases. -/
def toLoc (k : ℤ × Bytes) : Option Loc := if 0 ≤ k.1 then some (k.1.toNat, k.2) else none

/-- The case distinction of `signalWaiters`. -/
def scopeOf (v : View) (args : Args) : Scope :=
  let name := toUpper (args.headD [])
  if name ∈ ["SWAPDB", "FLUSHALL"].map ascii then .all
  else if name = ascii "FLUSHDB" then .database v.db
  else .keys ((affectedDBKeys v args).filterMap toLoc)

/-- What is left to do of a wakeup: `signalWaiters` not yet entered, the heads of some
queues not yet collected, or one send. -/
inductive Job
  | signal (v : View) (commands : List Args)
  | wake (scope : Scope)
  | send (id : ℕ)

/-- The wakeup reaches the queue of the key. -/
def Job.covers : Job → Loc → Prop
  | .signal v commands, k => ∃ args ∈ commands, (scopeOf v args).covers k
  | .wake scope, k => scope.covers k
  | .send _, _ => False

structure State (S : Type) [Numeric S] where
  now : Instant
  data : Dataset S
  clients : ℕ → Option (Client S)
  /-- Every client that ever came. -/
  ids : List ℕ
  queues : Loc → List ℕ
  blocked : ℤ
  jobs : List Job

def State.start (now : Instant) (data : Dataset S) : State S :=
  ⟨now, data, fun _ => none, [], fun _ => [], 0, []⟩

namespace State

variable (s : State S)

def put (id : ℕ) (c : Client S) : State S :=
  { s with clients := Function.update s.clients id (some c) }

/-- The client, if it has come to this phase. -/
def inPhase (id : ℕ) (p : Phase) : Option (Client S) :=
  (s.clients id).filter fun c => decide (c.phase = p)

def waited : List Loc :=
  s.ids.flatMap fun id => ((s.clients id).map fun c => c.request.keys).getD []

def scopeKeys : Scope → List Loc
  | .keys l => l
  | .database n => s.waited.filter fun k => k.1 = n
  | .all => s.waited

/-- The heads that `wakeKeys`, `wakeDatabase` or `wakeAll` collects. -/
def heads (scope : Scope) : List ℕ := (s.scopeKeys scope).filterMap fun k => (s.queues k).head?

/-- A client that could be served instead is already waiting. -/
def queueAhead (r : Request S) : Bool :=
  r.keys.any fun k => (s.queues k).any fun id =>
    match s.clients id with
    | some c => decide (c.request.want = r.want)
    | none => false

/-- `wakeupIsServiceable`. -/
def serviceable (r : Request S) : Bool :=
  r.keys.any fun k => decide (kindAt s.now s.data k = some r.want)

/-- One attempt: the reply and effect, and the dataset it leaves. -/
def attempt (r : Request S) : (Option Reply × List Args) × Dataset S :=
  r.attempt.run (live s.now) s.data

/-- The wakeups that a write which reports these commands starts. -/
def signals (v : View) (commands : List Args) : List Job :=
  if commands.isEmpty then [] else [.signal v commands]

end State

inductive Label (S : Type) [Numeric S]
  | arrive (id : ℕ) (r : Request S)
  | look (id : ℕ)
  | tryFirst (id : ℕ)
  | enqueue (id : ℕ)
  | count (id : ℕ)
  | wakeup (id : ℕ)
  | check (id : ℕ)
  | retry (id : ℕ)
  | giveUp (id : ℕ)
  | leave (id : ℕ)
  | handOn (id : ℕ)
  | write (w : WriteCall S)
  | work (i : ℕ)
  | tick (t : Instant)

/-- The outcome of an attempt that leaves the client waiting: no reply written. -/
def unserved (r : Option Reply × List Args) : Bool := r.1.isNone && r.2.isEmpty

/-- What becomes of a wakeup. -/
def State.perform (s : State S) (job : Job) (rest : List Job) : State S :=
  match job with
  | .signal v commands =>
    { s with jobs := if s.blocked = 0 then rest else rest ++ commands.map fun a => .wake (scopeOf v a) }
  | .wake scope => { s with jobs := rest ++ (s.heads scope).map .send }
  | .send id =>
    { s with
      jobs := rest
      clients := Function.update s.clients id ((s.clients id).map fun c => { c with ready := true }) }

def step (s : State S) : Label S → Option (State S)
  | .arrive id r =>
    if (s.clients id).isSome then none
    else some { s.put id ⟨r, .arrived, false⟩ with ids := id :: s.ids }
  | .look id => do
    let c ← s.inPhase id .arrived
    let eager := c.request.keys.isEmpty || !s.queueAhead c.request
    pure (s.put id { c with phase := if eager then .trying else .unserved })
  | .tryFirst id => do
    let c ← s.inPhase id .trying
    let (r, data) := s.attempt c.request
    if unserved r then pure { s.put id { c with phase := .unserved } with data := data }
    else pure { s with
      data := data
      clients := Function.update s.clients id none
      jobs := s.jobs ++ State.signals c.request.view r.2 }
  | .enqueue id => do
    let c ← s.inPhase id .unserved
    pure { s.put id { c with phase := .queued } with
      queues := fun k => s.queues k ++ List.replicate (c.request.keys.count k) id }
  | .count id => do
    let c ← s.inPhase id .queued
    pure { s.put id { c with phase := .parked } with blocked := s.blocked + 1 }
  | .wakeup id => do
    let c ← s.inPhase id .parked
    if c.ready then pure (s.put id { c with phase := .retrying, ready := false }) else none
  | .check id => do
    let c ← s.inPhase id .retrying
    pure (s.put id { c with phase := if s.serviceable c.request then .attempting else .parked })
  | .retry id => do
    let c ← s.inPhase id .attempting
    let (r, data) := s.attempt c.request
    if unserved r then pure { s.put id { c with phase := .parked } with data := data }
    else pure { s.put id { c with phase := .leaving } with
      data := data
      jobs := s.jobs ++ State.signals c.request.view r.2 }
  | .giveUp id => do
    let c ← s.inPhase id .parked
    pure (s.put id { c with phase := .leaving })
  | .leave id => do
    let c ← s.inPhase id .leaving
    pure { s.put id { c with phase := .handing } with
      queues := fun k => (s.queues k).diff (List.replicate (c.request.keys.count k) id) }
  | .handOn id => do
    let c ← s.inPhase id .handing
    pure { s with
      clients := Function.update s.clients id none
      blocked := s.blocked - 1
      jobs := s.jobs ++ [.wake (.keys c.request.keys)] }
  | .write w =>
    if w.env.now = s.now then
      let r := (w.command.apply w.view w.env w.args).run (live s.now) s.data
      some { s with
        data := r.2
        jobs := s.jobs ++
          if r.1.dirty then State.signals w.view (observed w.command w.args r.1) else [] }
    else none
  | .work i => (s.jobs[i]?).map fun job => s.perform job (s.jobs.eraseIdx i)
  | .tick t => if s.now ≤ t then some { s with now := t } else none

/-- A wakeup was lost: nothing is under way, and a client is parked on a key that holds
a value it can be served from. -/
def Lost (s : State S) : Prop :=
  s.jobs = [] ∧ (∀ id c, s.clients id = some c → c.phase = .parked ∧ c.ready = false) ∧
    ∃ id c, s.clients id = some c ∧ ∃ k ∈ c.request.keys,
      kindAt s.now s.data k = some c.request.want

end ShardKV.Blocking
