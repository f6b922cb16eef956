import ShardKV.Aof.Process
import ShardKV.Resp.Roundtrip

/-! Partial resync. A replica records the offset of the stream up to which it has applied
commands, and a master that still has the bytes from there on continues with them. The offset
says where in the stream the replica is; it does not say in which database the stream stands
there, nor that a transaction is open. The new connection has a new applier, which starts in
database 0 outside a transaction. -/

namespace ShardKV.Replication.Resumed

open Access Data Resp Server Commands

variable {S : Type} [Numeric S]

section System

variable (cfg : Config)

/-- A master, what it has shipped, and a replica of it. -/
structure State (S : Type) [Numeric S] where
  mem : Dataset S
  streamDB : ℕ
  shipped : List Args
  data : Dataset S
  applier : Applier
  slaveOffset : ℕ

/-- The master runs a write or the batch of an EXEC, or ships a message; the replica reads a
command; its link breaks, and it connects again and is answered CONTINUE. -/
inductive Step
  | batch (db : Fin cfg.databases) (cmds : List (Env × Args))
  | publish (operands : List Bytes)
  | read (env : Env)
  | reconnect

/-- The replica right after a full resync, whose last command selects the database of the
stream. -/
def State.synced (m : Dataset S) (db : Fin cfg.databases) : State S :=
  ⟨m, db, [], m, Applier.idle db, 0⟩

/-- What a backlog has from an offset on, in commands. -/
def resume : List Args → ℕ → List Args
  | [], _ => []
  | c :: cs, offset =>
    if (encodeCommand c).length ≤ offset then resume cs (offset - (encodeCommand c).length) else c :: cs

def State.unread (s : State S) : List Args := resume s.shipped s.slaveOffset

def publishCommand (operands : List Bytes) : Args := ascii "PUBLISH" :: operands

variable {cfg}

def State.step (s : State S) : Step cfg → Option (State S)
  | .batch db cmds =>
    let done := cfg.execBatch db cmds s.mem
    let sent := propagateBatch db s.streamDB done.2
    some { s with mem := done.1, streamDB := sent.1, shipped := s.shipped ++ sent.2 }
  | .publish operands => some { s with shipped := s.shipped ++ [publishCommand operands] }
  | .read env =>
    match s.unread with
    | [] => none
    | c :: _ =>
      some { s with
        data := cfg.performed env (cfg.feed s.applier c).2 s.data
        applier := (cfg.feed s.applier c).1
        slaveOffset := s.slaveOffset + (encodeCommand c).length }
  | .reconnect => some { s with applier := Applier.idle 0 }

/-- Once it has read the whole stream, the replica holds what the master does. -/
def State.Converged (r : Env) (s : State S) : Prop :=
  s.unread = [] → liveAt r.now s.data = liveAt r.now s.mem

/-- Nothing that is looked up, by the master or by the replica, is over at the reader's clock. -/
def Unexpired (r : Env) (s : State S) : Step cfg → Prop
  | .batch db cmds => cfg.LastingBatch db r cmds s.mem
  | .read env => env.now ≤ r.now ∧
    ∀ c rest, s.unread = c :: rest → cfg.StaysAll r env (cfg.feed s.applier c).2 s.data
  | _ => True

/-- The link breaks outside a transaction, and where the stream is in database 0 or goes on
with a SELECT. -/
def Orderly (s : State S) : Step cfg → Prop
  | .reconnect => s.applier.inMulti = false ∧
    (s.applier.db = 0 ∨ ∃ db : Fin cfg.databases, s.unread.head? = some (selectCommand db))
  | _ => True

end System

def bytes (cmds : List Args) : ℕ := (cmds.map fun c => (encodeCommand c).length).sum

theorem encodeCommand_pos (c : Args) : 0 < (encodeCommand c).length := by
  rw [encodeCommand_eq, writeCommand_length, commandSize]
  omega

theorem resume_append (done rest : List Args) : resume (done ++ rest) (bytes done) = rest := by
  induction done with
  | nil =>
    cases rest with
    | nil => rfl
    | cons c cs =>
      have hpos : ¬ (encodeCommand c).length ≤ bytes [] := not_le.mpr (encodeCommand_pos c)
      rw [List.nil_append, resume, if_neg hpos]
  | cons c cs ih =>
    have hbytes : bytes (c :: cs) = (encodeCommand c).length + bytes cs := by simp [bytes]
    rw [List.cons_append, resume, hbytes, if_pos (Nat.le_add_right _ _), Nat.add_sub_cancel_left]
    exact ih

section Feeding

variable {cfg : Config}

theorem feed_publish (a : Applier) (operands : List Bytes) :
    cfg.feed a (publishCommand operands) = (a, [(a.db, publishCommand operands)]) := by
  have hup : toUpper (ascii "PUBLISH") = ascii "PUBLISH" := by decide
  have hne : ascii "PUBLISH" ≠ ascii "SELECT" ∧ ascii "PUBLISH" ≠ ascii "MULTI" ∧
      ascii "PUBLISH" ≠ ascii "EXEC" ∧ ascii "PUBLISH" ≠ ascii "DISCARD" := by decide
  rw [publishCommand, Config.feed]
  simp only [hup, if_neg hne.1, if_neg hne.2.1, if_neg hne.2.2.1, if_neg hne.2.2.2, if_true]

theorem applyCommand_publish (v : View) (env : Env) (operands : List Bytes) :
    (dataTable.applyCommand v env (publishCommand operands) : Op S Unit) = .ret () := by
  have hup : toUpper (ascii "PUBLISH") = ascii "PUBLISH" := by decide
  have hnone : dataTable (ascii "PUBLISH") = (none : Option (Command S)) :=
    dataTable_eq_none (by decide +kernel) (by decide +kernel)
  simp [Table.applyCommand, Table.resolve, publishCommand, hup, hnone]

/-- Outside a transaction nothing is buffered. -/
theorem feed_regular {a : Applier} (h : a.inMulti = false → a.buf = []) (args : Args) :
    (cfg.feed a args).1.inMulti = false → (cfg.feed a args).1.buf = [] := by
  unfold Config.feed
  cases args with
  | nil => exact h
  | cons name rest =>
    dsimp only
    split_ifs with hselect hmulti hexec hdiscard hpublish hping hin
    · exact h
    · exact fun hfalse => absurd hfalse (by simp)
    · exact fun _ => rfl
    · exact fun _ => rfl
    · exact h
    · exact h
    · exact fun hfalse => absurd (hin.symm.trans hfalse) (by simp)
    · exact h

theorem feedAll_regular {a : Applier} (h : a.inMulti = false → a.buf = []) (cmds : List Args) :
    (cfg.feedAll a cmds).1.inMulti = false → (cfg.feedAll a cmds).1.buf = [] := by
  induction cmds generalizing a with
  | nil => exact h
  | cons c cs ih =>
    rw [feedAll_cons]
    exact ih (feed_regular h c)

end Feeding

section Invariant

variable {cfg : Config} {r : Env} {m : Dataset S} {db₀ : Fin cfg.databases} {s s' : State S}

/-- An applier takes the rest of a stream as another one does: it is the same, or both are
outside a transaction and a SELECT comes next. -/
def Follows (cfg : Config) (a b : Applier) (rest : List Args) : Prop :=
  a = b ∨ (∃ d, a = Applier.idle d) ∧ (∃ d, b = Applier.idle d) ∧
    ∃ db : Fin cfg.databases, rest.head? = some (selectCommand db)

theorem Follows.feed {a b : Applier} {c : Args} {rest : List Args} (h : Follows cfg a b (c :: rest)) :
    cfg.feed a c = cfg.feed b c := by
  obtain rfl | ⟨⟨d, rfl⟩, ⟨d', rfl⟩, db, hdb⟩ := h
  · rfl
  · obtain rfl : c = selectCommand db := Option.some.inj hdb
    rw [feed_select cfg _ db.isLt, feed_select cfg _ db.isLt]
    rfl

theorem Follows.append {a b : Applier} {rest : List Args} (h : Follows cfg a b rest) (more : List Args) :
    Follows cfg a b (rest ++ more) := by
  obtain rfl | ⟨ha, hb, db, hdb⟩ := h
  · exact .inl rfl
  · refine .inr ⟨ha, hb, db, ?_⟩
    rw [List.head?_append, hdb]
    rfl

/-- The stream from the resync on gives the master's memory, and the part of it that the replica
has read gives the replica's, with an applier that takes the rest as the one that has read it all. -/
structure Inv (r : Env) (m : Dataset S) (db₀ : Fin cfg.databases) (s : State S) : Prop where
  proper : Prog.All Plain s.mem
  position : (cfg.feedAll (Applier.idle db₀) s.shipped).1 = Applier.idle s.streamDB
  timeless : AllTimeless cfg S (cfg.feedAll (Applier.idle db₀) s.shipped).2
  restored : Prog.Alike (live r.now) s.mem
    (cfg.performed r (cfg.feedAll (Applier.idle db₀) s.shipped).2 m)
  read : ∃ done rest, s.shipped = done ++ rest ∧ s.slaveOffset = bytes done ∧
    Prog.Alike (live r.now) s.data (cfg.performed r (cfg.feedAll (Applier.idle db₀) done).2 m) ∧
    Follows cfg s.applier (cfg.feedAll (Applier.idle db₀) done).1 rest

theorem Inv.synced (hm : Prog.All Plain m) : Inv r m db₀ (State.synced cfg m db₀) where
  proper := hm
  position := rfl
  timeless := fun _ h => absurd h List.not_mem_nil
  restored := rfl
  read := ⟨[], [], rfl, rfl, rfl, .inl rfl⟩

/-- What is shipped later does not concern what was read. -/
theorem Inv.read_append (h : Inv r m db₀ s) (more : List Args) :
    ∃ done rest, s.shipped ++ more = done ++ rest ∧ s.slaveOffset = bytes done ∧
      Prog.Alike (live r.now) s.data (cfg.performed r (cfg.feedAll (Applier.idle db₀) done).2 m) ∧
      Follows cfg s.applier (cfg.feedAll (Applier.idle db₀) done).1 rest := by
  obtain ⟨done, rest, hsplit, hoffset, hdata, hfollows⟩ := h.read
  exact ⟨done, rest ++ more, by rw [hsplit, List.append_assoc], hoffset, hdata, hfollows.append more⟩

theorem Inv.batch (h : Inv r m db₀ s) {db : Fin cfg.databases} {cmds : List (Env × Args)}
    (hlast : Unexpired r s (.batch db cmds)) (hs : s.step (.batch db cmds) = some s') :
    Inv r m db₀ s' := by
  obtain rfl := Option.some.inj hs
  have hshipped := execBatch_shipped cfg db cmds h.proper
  have hfeed := feedAll_shipped cfg _ h.position db fun c hc => (hshipped c hc).1
  refine ⟨execBatch_proper cfg db cmds h.proper, ?_, ?_, ?_, h.read_append _⟩
  · rw [hfeed]
  · rw [hfeed]
    intro c hc
    rcases List.mem_append.mp hc with hc | hc
    · exact h.timeless c hc
    · obtain ⟨a, ha, rfl⟩ := List.mem_map.mp hc
      exact (hshipped a ha).2
  · rw [hfeed, performed_append]
    exact execBatch_performed cfg db r cmds h.proper hlast h.restored

theorem Inv.publish (h : Inv r m db₀ s) {operands : List Bytes}
    (hs : s.step (.publish operands : Step cfg) = some s') : Inv r m db₀ s' := by
  obtain rfl := Option.some.inj hs
  have hfeed : cfg.feedAll (Applier.idle db₀) (s.shipped ++ [publishCommand operands]) =
      (Applier.idle s.streamDB, (cfg.feedAll (Applier.idle db₀) s.shipped).2 ++
        [(s.streamDB, publishCommand operands)]) := by
    rw [feedAll_append, h.position, feedAll_cons, feed_publish]
    rfl
  refine ⟨h.proper, ?_, ?_, ?_, h.read_append _⟩
  · rw [hfeed]
  · rw [hfeed]
    intro c hc
    rcases List.mem_append.mp hc with hc | hc
    · exact h.timeless c hc
    · rw [List.mem_singleton.mp hc]
      intro env env'
      rw [applyCommand_publish, applyCommand_publish]
  · rw [hfeed, performed_append, performed_cons, performed_nil, applyCommand_publish]
    exact h.restored

theorem Inv.unread (h : Inv r m db₀ s) : ∃ done, s.shipped = done ++ s.unread ∧
    s.slaveOffset = bytes done ∧
    Prog.Alike (live r.now) s.data (cfg.performed r (cfg.feedAll (Applier.idle db₀) done).2 m) ∧
    Follows cfg s.applier (cfg.feedAll (Applier.idle db₀) done).1 s.unread := by
  obtain ⟨done, rest, hsplit, hoffset, hdata, hfollows⟩ := h.read
  have hrest : s.unread = rest := by rw [State.unread, hsplit, hoffset, resume_append]
  rw [hrest]
  exact ⟨done, hsplit, hoffset, hdata, hfollows⟩

theorem Inv.readStep (h : Inv r m db₀ s) {env : Env} (hlast : Unexpired r s (.read env : Step cfg))
    (hs : s.step (.read env : Step cfg) = some s') : Inv r m db₀ s' := by
  obtain ⟨done, hsplit, hoffset, hdata, hfollows⟩ := h.unread
  obtain ⟨hle, hstays⟩ := hlast
  rw [State.step] at hs
  cases hunread : s.unread with
  | nil =>
    rw [hunread] at hs
    cases hs
  | cons c rest =>
    rw [hunread] at hs hfollows hsplit
    obtain rfl := Option.some.inj hs
    have hfeed := hfollows.feed
    have hdone : cfg.feedAll (Applier.idle db₀) (done ++ [c]) = ((cfg.feed s.applier c).1,
        (cfg.feedAll (Applier.idle db₀) done).2 ++ (cfg.feed s.applier c).2) := by
      rw [feedAll_append, hfeed, feedAll_cons]
      simp [Config.feedAll]
    have hshipped : s.shipped = (done ++ [c]) ++ rest := by rw [hsplit, List.append_assoc]; rfl
    have htimeless : AllTimeless cfg S (cfg.feed s.applier c).2 := by
      intro x hx
      refine h.timeless x ?_
      rw [hshipped, feedAll_append, hdone]
      exact List.mem_append_left _ (List.mem_append_right _ hx)
    refine ⟨h.proper, h.position, h.timeless, h.restored, done ++ [c], rest, hshipped, ?_, ?_, ?_⟩
    · simp [hoffset, bytes]
    · rw [hdone, performed_append]
      exact performed_later cfg hle htimeless (hstays c rest hunread) hdata
    · rw [hdone]
      exact .inl rfl

theorem Inv.reconnect (h : Inv r m db₀ s) (hok : Orderly s (.reconnect : Step cfg))
    (hs : s.step (.reconnect : Step cfg) = some s') : Inv r m db₀ s' := by
  obtain ⟨done, hsplit, hoffset, hdata, hfollows⟩ := h.unread
  obtain rfl := Option.some.inj hs
  obtain ⟨hin, hnext⟩ := hok
  refine ⟨h.proper, h.position, h.timeless, h.restored, done, s.unread, hsplit, hoffset, hdata, ?_⟩
  rcases hfollows with hsame | ⟨-, hidle, hselect⟩
  · have hregular : s.applier.buf = [] := by
      rw [hsame] at hin ⊢
      exact feedAll_regular (fun _ => rfl) done hin
    have hidle : (cfg.feedAll (Applier.idle db₀) done).1 = Applier.idle s.applier.db := by
      rw [← hsame, Applier.idle, ← hin, ← hregular]
    rcases hnext with hzero | hselect
    · left
      rw [hidle, hzero]
    · exact .inr ⟨⟨0, rfl⟩, ⟨_, hidle⟩, hselect⟩
  · exact .inr ⟨⟨0, rfl⟩, hidle, hselect⟩

end Invariant

/-- In every run in which the link breaks only outside a transaction and where the stream is in
database 0 or goes on with a SELECT, a replica that has read the whole stream holds what the
master does. -/
theorem resync_converges {cfg : Config} (r : Env) {m : Dataset S} (hm : Prog.All Plain m)
    {db₀ : Fin cfg.databases} {s : State S}
    (h : Reaches State.step (fun s (x : Step cfg) => Unexpired r s x ∧ Orderly s x)
      (State.synced cfg m db₀) s) : s.Converged r := by
  have hinv : Inv r m db₀ s := by
    refine h.invariant (fun s x s' hs hok hstep => ?_) (Inv.synced hm)
    cases x with
    | batch db cmds => exact hs.batch hok.1 hstep
    | publish operands => exact hs.publish hstep
    | read env => exact hs.readStep hok.1 hstep
    | reconnect => exact hs.reconnect hok.2 hstep
  intro hread
  obtain ⟨done, hsplit, -, hdata, -⟩ := hinv.unread
  rw [hread, List.append_nil] at hsplit
  have hmem := hinv.restored
  rw [hsplit] at hmem
  exact hdata.trans hmem.symm

instance instNeZeroDatabases : NeZero 16 := ⟨by decide⟩

/-- `SET k value` in a database. -/
def setIn (db : Fin 16) (value : String) : Step Config.default :=
  .batch db [(Env.at 0, [ascii "SET", ascii "k", ascii value])]

/-- A write in database 1 is read, and the link breaks before or after the next write. -/
def cutRun (db : Fin 16) (reads : List (Step Config.default)) : List (Step Config.default) :=
  setIn 1 "v" :: .read (Env.at 0) :: .read (Env.at 0) :: setIn db "w" :: .reconnect :: reads

/-- A step whose clocks all read 0. -/
def punctual : Step Config.default → Bool
  | .batch _ cmds => cmds.all fun c => decide (c.1.now = 0)
  | .read env => decide (env.now = 0)
  | .publish _ | .reconnect => true

theorem unexpired_of_punctual (s : State ℤ) {x : Step Config.default} (h : punctual x = true) :
    Unexpired (Env.at 0) s x := by
  cases x with
  | batch db cmds =>
    exact lastingBatch_simultaneous _ db _ cmds s.mem fun c hc =>
      of_decide_eq_true (List.all_eq_true.mp h c hc)
  | read env =>
    have hnow : env.now = 0 := of_decide_eq_true h
    exact ⟨le_of_eq hnow, fun c rest _ => staysAll_self _ hnow _ _⟩
  | publish | reconnect => trivial

/-- A check of the condition. -/
def orderly (s : State ℤ) : Step Config.default → Bool
  | .reconnect => !s.applier.inMulti && (s.applier.db == 0 ||
    (List.finRange 16).any fun db => s.unread.head? == some (selectCommand db))
  | _ => true

theorem orderly_of_check (s : State ℤ) (x : Step Config.default)
    (h : (punctual x && orderly s x) = true) : Unexpired (Env.at 0) s x ∧ Orderly s x := by
  obtain ⟨hpunctual, h⟩ := Bool.and_eq_true_iff.mp h
  refine ⟨unexpired_of_punctual s hpunctual, ?_⟩
  cases x with
  | batch | publish | read => trivial
  | reconnect =>
    obtain ⟨hin, hnext⟩ := Bool.and_eq_true_iff.mp h
    refine ⟨by simpa using hin, (Bool.or_eq_true_iff.mp hnext).imp beq_iff_eq.mp fun hselect => ?_⟩
    obtain ⟨db, -, hdb⟩ := List.any_eq_true.mp hselect
    exact ⟨db, beq_iff_eq.mp hdb⟩

/-- The state after the second write, in database 1 like the first one. -/
def misplaced : State ℤ :=
  (play State.step (State.synced Config.default emptyDataset (0 : Fin 16))
    (cutRun 1 [.read (Env.at 0)])).get (by decide +kernel)

/-- The second write is shipped without a SELECT, and applied in database 0. -/
theorem cut_in_other_database :
    ¬ ∀ (r : Env) (m : Dataset ℤ) (db : Fin 16) (s : State ℤ), Prog.All Plain m →
      Reaches State.step (fun s (x : Step Config.default) => Unexpired r s x)
        (State.synced Config.default m db) s → s.Converged r := by
  intro hall
  have hreach : Reaches State.step (fun s (x : Step Config.default) => Unexpired (Env.at 0) s x)
      (State.synced Config.default emptyDataset (0 : Fin 16)) misplaced := by
    have hpunctual : (cutRun 1 [.read (Env.at 0)]).all punctual = true := by decide +kernel
    exact reaches_of_play (fun s x hx => unexpired_of_punctual s (List.all_eq_true.mp hpunctual x hx))
      (Option.some_get _).symm
  have hsame := hall (Env.at 0) _ _ _ emptyDataset_proper hreach (by decide +kernel)
  have hkey := congrFun hsame (1, ascii "k")
  revert hkey
  decide +kernel

/-- The state after a second write in database 0, which begins with a SELECT. -/
def resumed : State ℤ :=
  (play (fun s x => if punctual x && orderly s x then s.step x else none)
    (State.synced Config.default emptyDataset (0 : Fin 16))
    (cutRun 0 [.read (Env.at 0), .read (Env.at 0)])).get (by decide +kernel)

theorem cut_before_select : resumed.unread = [] ∧ resumed.Converged (Env.at 0) :=
  ⟨by decide +kernel, resync_converges (Env.at 0) emptyDataset_proper
    (reaches_of_checked orderly_of_check (Option.some_get _).symm)⟩

end ShardKV.Replication.Resumed
