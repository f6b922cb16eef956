import ShardKV.Data.Streams
import ShardKV.Server.Exec

/-! Snapshots. A store renders itself as commands that build it again: one encoder per
kind of value, collections in bounded pieces, a deadline as a trailing PEXPIREAT. The
server renders its databases one after the other, each preceded by the SELECT that
takes a replayer there; a seed for a replica ends in the database that the ongoing
stream is in, a snapshot file ends where it ends. -/

namespace ShardKV.Server

open Access Data Resp Commands Decimal

section Store

/-- How many elements one command of a dump carries at most. -/
def dumpChunkElems : ℕ := 256

/-- The runs of `per` elements that start at the multiples of `per`. -/
def chunks {α : Type} (per : ℕ) (elems : List α) : List (List α) :=
  (List.range ((elems.length + per - 1) / per)).map fun i => (elems.drop (i * per)).take per

def appendChunks (name : String) (key : Bytes) (elems : List Bytes) (stride : ℕ) : List Args :=
  (chunks (dumpChunkElems - dumpChunkElems % stride) elems).map fun part => ascii name :: key :: part

/-- The entries of a map under some of its keys, in the order of the keys. -/
def inOrder {K V : Type} [DecidableEq K] (m : Finmap fun _ : K => V) (keys : List K) : List (K × V) :=
  keys.filterMap fun k => (m.lookup k).map fun v => (k, v)

/-- A pending entry as the XCLAIM that makes it. -/
def pendingCommand (key group : Bytes) (p : StreamID × Nack) : Args :=
  [ascii "XCLAIM", key, group, p.2.consumer, ascii "0", idString p.1, ascii "TIME",
    formatInt p.2.deliveryMs, ascii "RETRYCOUNT", formatInt p.2.deliveryCount, ascii "FORCE",
    ascii "JUSTID"]

/-- A group, its consumers and its pending entries, the last two in ascending order. -/
def groupCommands (key : Bytes) (p : Bytes × Group) : List Args :=
  [ascii "XGROUP", ascii "CREATE", key, p.1, idString p.2.lastDelivered, ascii "ENTRIESREAD",
      formatInt p.2.entriesRead] ::
    ((p.2.consumers.keys.sort bytesLE).map fun c =>
        [ascii "XGROUP", ascii "CREATECONSUMER", key, p.1, c]) ++
      (inOrder p.2.pel (pendingIDs p.2.pel fun _ => true)).map (pendingCommand key p.1)

/-- `appendStreamCommands`. An empty stream is made by adding an entry and trimming it
away in one command. -/
def appendStreamCommands (key : Bytes) (st : Stream) : List Args :=
  (st.entries.map fun e => ascii "XADD" :: key :: idString e.id :: e.fields) ++
    (if st.entries.length = 0 then
      [[ascii "XADD", key, ascii "MAXLEN", ascii "0", ascii "0-1", ascii "x", ascii "y"]] else []) ++
    [[ascii "XSETID", key, idString st.last, ascii "ENTRIESADDED", itoa st.added,
      ascii "MAXDELETEDID", idString st.maxDeleted]] ++
    (inOrder st.groups (st.groups.keys.sort bytesLE)).flatMap (groupCommands key)

variable {S : Type} [Numeric S]

/-- `appendValueCommands`. Hashes and sets come in the order the Go map yields. -/
def appendValueCommands (env : Env) (key : Bytes) : Value S → List Args
  | .str b => [[ascii "SET", key, b]]
  | .list l => appendChunks "RPUSH" key l 1
  | .hash h => appendChunks "HSET" key ((inOrder h (env.order h.keys)).flatMap fun p => [p.1, p.2]) 2
  | .set m => appendChunks "SADD" key (env.order m) 1
  | .zset z => appendChunks "ZADD" key (z.nodes.flatMap fun n => [Numeric.formatScore n.1, n.2]) 2
  | .stream st => appendStreamCommands key st

/-- One entry of `appendShardCommands`. -/
def entryCommands (env : Env) (key : Bytes) (e : Entry S) : List Args :=
  if live env.now e then
    appendValueCommands env key e.value ++ (e.expireAt.map fun ms => pexpireatForm key ms).toList
  else []

/-- The keys of each database in the order its shards and their maps yield them. -/
structure Walk (s : Dataset S) where
  keys : ℕ → List Bytes
  nodup : ∀ db, (keys db).Nodup
  mem_keys : ∀ db k, k ∈ keys db ↔ (s (db, k)).isSome

variable {s : Dataset S}

/-- `Store.Dump` of one database. -/
def Walk.dump (w : Walk s) (env : Env) (db : ℕ) : List Args :=
  (w.keys db).flatMap fun key => (s (db, key)).elim [] (entryCommands env key)

theorem appendChunks_ordinary {name : String} (key : Bytes) (elems : List Bytes) (stride : ℕ)
    (h : streamWords.contains (toUpper (ascii name)) = false) :
    ∀ c ∈ appendChunks name key elems stride, ordinary c = true := by
  intro c hc
  obtain ⟨part, -, rfl⟩ := List.mem_map.mp hc
  simp only [ordinary, h, Bool.not_false]

theorem groupCommands_ordinary (key : Bytes) (p : Bytes × Group) :
    ∀ c ∈ groupCommands key p, ordinary c = true := by
  intro c hc
  simp only [groupCommands, List.cons_append, List.mem_cons, List.mem_append, List.mem_map] at hc
  obtain rfl | ⟨x, -, rfl⟩ | ⟨x, -, rfl⟩ := hc <;> rfl

theorem appendStreamCommands_ordinary (key : Bytes) (st : Stream) :
    ∀ c ∈ appendStreamCommands key st, ordinary c = true := by
  intro c hc
  simp only [appendStreamCommands, List.mem_append, List.mem_map, List.mem_singleton,
    List.mem_flatMap] at hc
  obtain ((⟨e, -, rfl⟩ | hempty) | rfl) | ⟨p, -, hp⟩ := hc
  · rfl
  · split_ifs at hempty
    · obtain rfl := List.mem_singleton.mp hempty
      rfl
    · exact absurd hempty List.not_mem_nil
  · rfl
  · exact groupCommands_ordinary key p c hp

theorem entryCommands_ordinary (env : Env) (key : Bytes) (e : Entry S) :
    ∀ c ∈ entryCommands env key e, ordinary c = true := by
  intro c hc
  unfold entryCommands at hc
  split_ifs at hc
  · rcases List.mem_append.mp hc with hval | hdl
    · cases hv : e.value with rw [hv] at hval
      | str b =>
        obtain rfl := List.mem_singleton.mp hval
        rfl
      | list l => exact appendChunks_ordinary key _ _ (by decide) c hval
      | hash h => exact appendChunks_ordinary key _ _ (by decide) c hval
      | set m => exact appendChunks_ordinary key _ _ (by decide) c hval
      | zset z => exact appendChunks_ordinary key _ _ (by decide) c hval
      | stream st => exact appendStreamCommands_ordinary key st c hval
    · obtain ⟨ms, -, rfl⟩ := Option.mem_map.mp (Option.mem_toList.mp hdl)
      rfl
  · exact absurd hc List.not_mem_nil

/-- A dump consists of writes. -/
theorem dump_ordinary (w : Walk s) (env : Env) (db : ℕ) : ∀ c ∈ w.dump env db, ordinary c = true := by
  intro c hc
  obtain ⟨key, -, hkey⟩ := List.mem_flatMap.mp hc
  cases he : s (db, key) with rw [he] at hkey
  | none => exact absurd hkey List.not_mem_nil
  | some e => exact entryCommands_ordinary env key e c hkey

end Store

/-- One database of a snapshot: nothing for an empty one, otherwise its commands, after
a SELECT unless the replayer is there. -/
def snapshotDB (dumped : ℕ → List Args) (cur db : ℕ) : ℕ × List Args :=
  if dumped db = [] then (cur, [])
  else if db ≠ cur then (db, selectCommand db :: dumped db)
  else (cur, dumped db)

variable {S : Type} [Numeric S] {s : Dataset S}

/-- `snapshotCut`, each database at its own clock reading. -/
def snapshotCut (cfg : Config) (w : Walk s) (env : ℕ → Env) : List Args :=
  (transduce (snapshotDB fun db => w.dump (env db) db) 0 (List.range cfg.databases)).2

/-- `dumpAll`: the same, and then back to the database of the ongoing stream. -/
def dumpAll (cfg : Config) (w : Walk s) (env : ℕ → Env) (streamDB : ℕ) : List Args :=
  let r := transduce (snapshotDB fun db => w.dump (env db) db) 0 (List.range cfg.databases)
  r.2 ++ if r.1 ≠ streamDB then [selectCommand streamDB] else []

/-- Each database's dumped commands, called in that database. -/
def dumpedCalls (cfg : Config) (w : Walk s) (env : ℕ → Env) : List Call :=
  (List.range cfg.databases).flatMap fun db => (w.dump (env db) db).map fun c => (db, c)

variable {cfg : Config} {dumped : ℕ → List Args}

/-- The running position is the replayer's: one database. -/
theorem feedAll_snapshotDB {db : ℕ} (hdb : db < cfg.databases)
    (h : ∀ c ∈ dumped db, ordinary c = true) (cur : ℕ) :
    cfg.feedAll (Applier.idle cur) (snapshotDB dumped cur db).2 =
      (Applier.idle (snapshotDB dumped cur db).1, (dumped db).map fun c => (db, c)) := by
  unfold snapshotDB
  split_ifs with hnil hcur
  · rw [hnil]
    rfl
  · rw [feedAll_cons, feed_select cfg _ hdb]
    show ((cfg.feedAll (Applier.idle db) _).1, [] ++ (cfg.feedAll (Applier.idle db) _).2) = _
    rw [feedAll_idle cfg db h]
    rfl
  · rw [not_not] at hcur
    rw [hcur, feedAll_idle cfg cur (hcur ▸ h)]

theorem feedAll_snapshot {dbs : List ℕ} (hdbs : ∀ db ∈ dbs, db < cfg.databases)
    (h : ∀ db, ∀ c ∈ dumped db, ordinary c = true) (cur : ℕ) :
    cfg.feedAll (Applier.idle cur) (transduce (snapshotDB dumped) cur dbs).2 =
      (Applier.idle (transduce (snapshotDB dumped) cur dbs).1,
        dbs.flatMap fun db => (dumped db).map fun c => (db, c)) := by
  induction dbs generalizing cur with
  | nil => rfl
  | cons db dbs ih =>
    obtain ⟨hdb, hdbs⟩ := List.forall_mem_cons.mp hdbs
    rw [transduce_cons, feedAll_append, feedAll_snapshotDB hdb (h db), ih hdbs, List.flatMap_cons]

/-- Replayed from database 0, a seed calls each database's commands in that database and
leaves the replayer where the stream is; a snapshot file makes the same calls. -/
theorem dumpAll_framed (cfg : Config) (w : Walk s) (env : ℕ → Env) {streamDB : ℕ}
    (hpos : streamDB < cfg.databases) :
    cfg.feedAll (Applier.idle 0) (dumpAll cfg w env streamDB) =
        (Applier.idle streamDB, dumpedCalls cfg w env) ∧
      (cfg.feedAll (Applier.idle 0) (snapshotCut cfg w env)).2 = dumpedCalls cfg w env := by
  have hrun := @feedAll_snapshot cfg (fun db => w.dump (env db) db) (List.range cfg.databases)
    (fun db hdb => List.mem_range.mp hdb) (fun db => dump_ordinary w (env db) db) 0
  refine ⟨?_, congrArg Prod.snd hrun⟩
  unfold dumpAll
  dsimp only
  rw [feedAll_append, hrun]
  split_ifs with hcur
  · rw [feedAll_cons, feed_select cfg _ hpos]
    simp [Config.feedAll, Applier.idle, dumpedCalls]
  · rw [not_not] at hcur
    rw [hcur]
    simp [Config.feedAll, dumpedCalls]

/-- A string in database 1, and nothing else. -/
def soleString : Dataset ℤ := fun k => if k = (1, ascii "k") then some ⟨.str (ascii "v"), none⟩ else none

def soleWalk : Walk soleString where
  keys db := if db = 1 then [ascii "k"] else []
  nodup db := by split_ifs <;> simp
  mem_keys db k := by
    unfold soleString
    by_cases hdb : db = 1 <;> by_cases hk : k = ascii "k" <;> simp [hdb, hk]

/-- It is dumped behind a SELECT 1, and the stream goes on in database 0. -/
theorem soleString_framed :
    Config.default.feedAll (Applier.idle 0) (dumpAll Config.default soleWalk (fun _ => Env.at 0) 0) =
        (Applier.idle 0, dumpedCalls Config.default soleWalk fun _ => Env.at 0) ∧
      (Config.default.feedAll (Applier.idle 0)
        (snapshotCut Config.default soleWalk fun _ => Env.at 0)).2 =
          dumpedCalls Config.default soleWalk fun _ => Env.at 0 :=
  dumpAll_framed Config.default soleWalk (fun _ => Env.at 0) (by decide)

end ShardKV.Server
