import ShardKV.Server.Command
import ShardKV.Access.Machine

/-! The replication stream and the append-only log: a flat sequence of commands
with the database made part of it. The shipping side puts a SELECT in front of a
command whose database is not the one it believes the stream to be in, and frames
several writes by MULTI and EXEC. The applying side follows SELECT, collects what
stands between MULTI and EXEC, and makes calls: a database and a command for it. -/

namespace ShardKV.Server

open Access Data Resp Decimal

/-- The server settings that the stream depends on. -/
structure Config where
  databases : ℕ
  cluster : Bool
  databases_pos : 0 < databases
  databases_le : databases ≤ 2 ^ 63 - 1

def Config.default : Config := ⟨16, false, by decide, by decide⟩

/-- `forDB`. -/
def Config.view (cfg : Config) (db : ℕ) : View := ⟨db, cfg.databases, cfg.cluster⟩

/-- A command together with the database it goes to. -/
abbrev Call := ℕ × Args

/-- `txApplier`. -/
structure Applier where
  db : ℕ
  inMulti : Bool
  buf : List Args
  deriving DecidableEq

/-- `newTxApplier`: outside a transaction, in the given database. -/
def Applier.idle (db : ℕ) : Applier := ⟨db, false, []⟩

def selectCommand (db : ℕ) : Args := [ascii "SELECT", itoa db]

def multiCommand : Args := [ascii "MULTI"]

def execCommand : Args := [ascii "EXEC"]

/-- The database that a SELECT of the stream names. -/
def Config.selected (cfg : Config) (rest : List Bytes) : Option ℕ :=
  match rest with
  | [n] => (parseInt64 n).bind fun n => if 0 ≤ n ∧ n < cfg.databases then some n.toNat else none
  | _ => none

/-- `txApplier.feed`: the next state, and the calls made. -/
def Config.feed (cfg : Config) (a : Applier) (args : Args) : Applier × List Call :=
  match args with
  | [] => (a, [])
  | name :: rest =>
    if toUpper name = ascii "SELECT" then ({ a with db := (cfg.selected rest).getD a.db }, [])
    else if toUpper name = ascii "MULTI" then ({ a with inMulti := true, buf := [] }, [])
    else if toUpper name = ascii "EXEC" then (Applier.idle a.db, a.buf.map fun c => (a.db, c))
    else if toUpper name = ascii "DISCARD" then (Applier.idle a.db, [])
    else if toUpper name = ascii "PUBLISH" then (a, [(a.db, args)])
    else if toUpper name = ascii "PING" then (a, [])
    else if a.inMulti then ({ a with buf := a.buf ++ [args] }, [])
    else (a, [(a.db, args)])

/-- The calls an applier makes of a stream, and where it ends. -/
def Config.feedAll (cfg : Config) : Applier → List Args → Applier × List Call := transduce cfg.feed

section Feed

variable (cfg : Config)

theorem feed_select (a : Applier) {db : ℕ} (h : db < cfg.databases) :
    cfg.feed a (selectCommand db) = ({ a with db := db }, []) := by
  have hsel : cfg.selected [itoa db] = some db := by
    have := cfg.databases_le
    simp only [Config.selected, parseInt64_itoa (show db ≤ 2 ^ 63 - 1 by omega), Option.bind_some]
    rw [if_pos (by omega)]
    simp
  have hup : toUpper (ascii "SELECT") = ascii "SELECT" := by decide
  simp only [Config.feed, selectCommand, hup, if_true, hsel, Option.getD_some]

theorem feed_multi (a : Applier) : cfg.feed a multiCommand = (⟨a.db, true, []⟩, []) := by
  have hup : toUpper (ascii "MULTI") = ascii "MULTI" := by decide
  have hne : ascii "MULTI" ≠ ascii "SELECT" := by decide
  simp only [Config.feed, multiCommand, hup, if_neg hne, if_true]

theorem feed_exec (a : Applier) :
    cfg.feed a execCommand = (Applier.idle a.db, a.buf.map fun c => (a.db, c)) := by
  have hup : toUpper (ascii "EXEC") = ascii "EXEC" := by decide
  have hne : ascii "EXEC" ≠ ascii "SELECT" ∧ ascii "EXEC" ≠ ascii "MULTI" := by decide
  simp only [Config.feed, execCommand, hup, if_neg hne.1, if_neg hne.2, if_true]

/-- An ordinary command is buffered inside a transaction and called outside one. -/
theorem feed_ordinary (a : Applier) {args : Args} (h : ordinary args = true) :
    cfg.feed a args =
      if a.inMulti then ({ a with buf := a.buf ++ [args] }, []) else (a, [(a.db, args)]) := by
  cases args with
  | nil => exact absurd h (by simp [ordinary])
  | cons name rest =>
    simp only [ordinary, streamWords, List.contains_cons, List.contains_nil, Bool.or_false,
      Bool.not_eq_true', Bool.or_eq_false_iff, beq_eq_false_iff_ne, ne_eq] at h
    obtain ⟨hsel, hmulti, hexec, hdis, hpub, hping⟩ := h
    simp only [Config.feed, hsel, hmulti, hexec, hdis, hpub, hping, if_false]

theorem feedAll_append (a : Applier) (xs ys : List Args) :
    cfg.feedAll a (xs ++ ys) =
      ((cfg.feedAll (cfg.feedAll a xs).1 ys).1,
        (cfg.feedAll a xs).2 ++ (cfg.feedAll (cfg.feedAll a xs).1 ys).2) :=
  transduce_append cfg.feed a xs ys

theorem feedAll_cons (a : Applier) (x : Args) (xs : List Args) :
    cfg.feedAll a (x :: xs) =
      ((cfg.feedAll (cfg.feed a x).1 xs).1,
        (cfg.feed a x).2 ++ (cfg.feedAll (cfg.feed a x).1 xs).2) := rfl

/-- Outside a transaction every ordinary command is called where the applier is. -/
theorem feedAll_idle (db : ℕ) {cmds : List Args} (h : ∀ c ∈ cmds, ordinary c = true) :
    cfg.feedAll (Applier.idle db) cmds = (Applier.idle db, cmds.map fun c => (db, c)) := by
  induction cmds with
  | nil => rfl
  | cons c cs ih =>
    rw [feedAll_cons, feed_ordinary cfg _ (h c (by simp))]
    simp only [Applier.idle, Bool.false_eq_true, if_false]
    rw [show (⟨db, false, []⟩ : Applier) = Applier.idle db from rfl,
      ih fun c hc => h c (List.mem_cons_of_mem _ hc)]
    rfl

/-- Inside a transaction they are collected. -/
theorem feedAll_open (db : ℕ) (buf : List Args) {cmds : List Args}
    (h : ∀ c ∈ cmds, ordinary c = true) :
    cfg.feedAll ⟨db, true, buf⟩ cmds = (⟨db, true, buf ++ cmds⟩, []) := by
  induction cmds generalizing buf with
  | nil => simp [Config.feedAll]
  | cons c cs ih =>
    rw [feedAll_cons, feed_ordinary cfg _ (h c (by simp))]
    simp only [if_true]
    rw [ih _ fun c hc => h c (List.mem_cons_of_mem _ hc)]
    simp

end Feed

/-- `propagateBatch` without the database: several writes are framed. -/
def frame : List Args → List Args
  | [] => []
  | [c] => [c]
  | cmds => multiCommand :: cmds ++ [execCommand]

/-- `shipRaw`, from the believed stream position: the new one, and what is shipped. -/
def shipRaw (db : ℕ) (streamDB : ℕ) (args : Args) : ℕ × List Args :=
  if streamDB = db then (streamDB, [args]) else (db, [selectCommand db, args])

def propagateBatch (db streamDB : ℕ) (cmds : List Args) : ℕ × List Args :=
  transduce (shipRaw db) streamDB (frame cmds)

/-- The SELECT that goes before a batch, when one is thought to be needed. -/
def marker (db streamDB : ℕ) : List Args := if streamDB = db then [] else [selectCommand db]

theorem shipRaw_settled (db : ℕ) (cmds : List Args) :
    transduce (shipRaw db) db cmds = (db, cmds) := by
  induction cmds with
  | nil => rfl
  | cons c cs ih => simp [shipRaw, ih]

theorem shipAll_eq (db streamDB : ℕ) {cmds : List Args} (h : cmds ≠ []) :
    transduce (shipRaw db) streamDB cmds = (db, marker db streamDB ++ cmds) := by
  cases cmds with
  | nil => exact absurd rfl h
  | cons c cs =>
    by_cases hdb : streamDB = db
    · subst hdb
      rw [shipRaw_settled]
      simp [marker]
    · simp [shipRaw, hdb, marker, shipRaw_settled]

theorem frame_ne_nil {cmds : List Args} (h : cmds ≠ []) : frame cmds ≠ [] := by
  match cmds with
  | [] => exact absurd rfl h
  | [c] => simp [frame]
  | c :: d :: cs => simp [frame]

theorem propagateBatch_nil (db streamDB : ℕ) : propagateBatch db streamDB [] = (streamDB, []) := rfl

theorem propagateBatch_eq (db streamDB : ℕ) {cmds : List Args} (h : cmds ≠ []) :
    propagateBatch db streamDB cmds = (db, marker db streamDB ++ frame cmds) :=
  shipAll_eq db streamDB (frame_ne_nil h)

variable (cfg : Config)

/-- A framed batch is called where the applier is, and leaves it there. -/
theorem feedAll_frame (db : ℕ) {cmds : List Args} (h : ∀ c ∈ cmds, ordinary c = true) :
    cfg.feedAll (Applier.idle db) (frame cmds) = (Applier.idle db, cmds.map fun c => (db, c)) := by
  match cmds with
  | [] => rfl
  | [c] => exact feedAll_idle cfg db h
  | c :: d :: cs =>
    have hopen := feedAll_open cfg db [] h
    rw [show frame (c :: d :: cs) = multiCommand :: ((c :: d :: cs) ++ [execCommand]) from rfl,
      feedAll_cons, feed_multi, feedAll_append]
    simp only [Applier.idle] at *
    rw [hopen]
    simp only [Config.feedAll, transduce_cons, transduce_nil, feed_exec, Applier.idle,
      List.nil_append, List.append_nil]

/-- Where the calls of a shipped batch end up: in its own database when the stream
says so, and otherwise wherever the applier happens to be. -/
def landing (db streamDB pos : ℕ) : ℕ := if streamDB = db then pos else db

theorem feedAll_propagateBatch {db : ℕ} (hdb : db < cfg.databases) (streamDB pos : ℕ)
    {cmds : List Args} (hne : cmds ≠ []) (h : ∀ c ∈ cmds, ordinary c = true) :
    cfg.feedAll (Applier.idle pos) (propagateBatch db streamDB cmds).2 =
      (Applier.idle (landing db streamDB pos),
        cmds.map fun c => (landing db streamDB pos, c)) := by
  rw [propagateBatch_eq db streamDB hne]
  unfold marker landing
  by_cases hsd : streamDB = db
  · rw [if_pos hsd, if_pos hsd]
    exact feedAll_frame cfg pos h
  · rw [if_neg hsd, if_neg hsd, List.cons_append, List.nil_append, feedAll_cons, feed_select cfg _ hdb]
    exact feedAll_frame cfg db h

/-- What is shipped on a stream that stands where it is believed to is called in its database. -/
theorem feedAll_shipped (a : Applier) {stream : List Args} {streamDB : ℕ}
    (hpos : (cfg.feedAll a stream).1 = Applier.idle streamDB) (db : Fin cfg.databases)
    {cmds : List Args} (h : ∀ c ∈ cmds, ordinary c = true) :
    cfg.feedAll a (stream ++ (propagateBatch db streamDB cmds).2) =
      (Applier.idle (propagateBatch db streamDB cmds).1,
        (cfg.feedAll a stream).2 ++ cmds.map fun c => (db.val, c)) := by
  rw [feedAll_append, hpos]
  by_cases hne : cmds = []
  · subst hne
    simp [propagateBatch_nil, Config.feedAll]
  · have hland : landing db streamDB streamDB = db := by
      unfold landing
      split_ifs with hdb
      · exact hdb
      · rfl
    rw [feedAll_propagateBatch cfg db.isLt streamDB streamDB hne h, hland, propagateBatch_eq _ _ hne]

end ShardKV.Server
