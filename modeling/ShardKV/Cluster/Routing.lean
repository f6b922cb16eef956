import ShardKV.Blocking.Requests
import ShardKV.Cluster.Redirect
import ShardKV.Commands.Numkeys
import ShardKV.Commands.Reported

/-! Which keys a command is routed by. The gate reads them off the arguments with
`commandKeys`; the handler takes its own keys from the same arguments. Routing is sound
for a command when the gate sees every key that the handler takes. Over the whole
command table this fails for seven commands: the pops that list several keys before a
timeout, LCS, PFDEBUG and DEBUG OBJECT. -/

namespace ShardKV.Cluster

open Data Resp Server Commands Checked Blocking

/-- `parseXRead` for XREAD. -/
def parseXRead : XReadOpts → List Bytes → Except Reply XReadOpts
  | _, [] => .error syntaxErr
  | _, [a] =>
    if isWord a "STREAMS" then
      .error (errorReply ("ERR Unbalanced XREAD list of streams: " ++
        "for each stream key an ID or '$' must be specified."))
    else .error syntaxErr
  | o, a :: b :: rest =>
    if isWord a "COUNT" then
      match parseInt64 b with
      | none => .error notIntegerErr
      | some n => parseXRead { o with count := n.toNat } rest
    else if isWord a "BLOCK" then
      match parseInt64 b with
      | none => .error (errorReply "ERR timeout is not an integer or out of range")
      | some ms =>
        if ms < 0 then .error (errorReply "ERR timeout is negative")
        else parseXRead { o with blockMs := some ms } rest
    else if isWord a "STREAMS" then
      if (b :: rest).length % 2 ≠ 0 then
        .error (errorReply ("ERR Unbalanced XREAD list of streams: " ++
          "for each stream key an ID or '$' must be specified."))
      else
        let half := (b :: rest).length / 2
        .ok { o with keys := (b :: rest).take half, ids := (b :: rest).drop half }
    else .error syntaxErr

/-- The streams that XREAD, or XREADGROUP, names. -/
def streamOperands (group : Bool) (args : Args) : List Bytes :=
  match if group then parseXReadGroup noXReadOpts false args.tail
    else parseXRead noXReadOpts args.tail with
  | .error _ => []
  | .ok o => o.keys

def xreadKeys (args : Args) : List Bytes :=
  streamOperands (equalFold (args.headD []) "XREADGROUP") args

def keylessCommands : List String :=
  ["PING", "INFO", "DBSIZE", "FLUSHALL", "COMMAND", "CONFIG", "CLIENT", "HELLO", "AUTH", "QUIT",
    "DEBUG", "FLUSHDB", "SWAPDB", "SLOWLOG", "LATENCY", "MONITOR", "XREAD", "XREADGROUP",
    "XGROUP", "XINFO", "MEMORY", "RESET", "SELECT", "SHUTDOWN", "LASTSAVE", "BGREWRITEAOF",
    "REPLICAOF", "SLAVEOF", "REPLCONF", "WAIT", "SCAN", "RANDOMKEY", "KEYS", "LMPOP", "BLMPOP",
    "ZMPOP", "BZMPOP", "SUBSCRIBE", "UNSUBSCRIBE", "PSUBSCRIBE", "PUNSUBSCRIBE", "PUBLISH",
    "PUBSUB", "MULTI", "EXEC", "DISCARD", "UNWATCH", "CLUSTER", "ASKING", "READONLY", "READWRITE"]

/-- The cases of `commandKeys`. -/
inductive RouteShape
  | operands
  | intoCounted
  | fromSecond
  | counted (pos : ℕ)
  | firstTwo
  | streams
  | second
  | usage
  | keyless
  | affected
  deriving DecidableEq

def routeShape (name : Bytes) : RouteShape :=
  if name ∈ ["MGET", "EXISTS", "TOUCH", "WATCH", "SUNION", "SINTER", "SDIFF", "PFCOUNT"].map ascii
    then .operands
  else if name ∈ ["SUNIONSTORE", "SINTERSTORE", "SDIFFSTORE", "PFMERGE"].map ascii then .operands
  else if name ∈ ["ZUNIONSTORE", "ZINTERSTORE", "ZDIFFSTORE"].map ascii then .intoCounted
  else if name = ascii "BITOP" then .fromSecond
  else if name ∈ ["SINTERCARD", "LMPOP", "ZMPOP", "ZDIFF", "ZUNION", "ZINTER",
      "ZINTERCARD"].map ascii then .counted 1
  else if name ∈ ["BLMPOP", "BZMPOP"].map ascii then .counted 2
  else if name = ascii "GEOSEARCHSTORE" then .firstTwo
  else if name ∈ ["XREAD", "XREADGROUP"].map ascii then .streams
  else if name ∈ ["XGROUP", "XINFO"].map ascii then .second
  else if name = ascii "MEMORY" then .usage
  else if name = ascii "OBJECT" then .second
  else if name ∈ keylessCommands.map ascii then .keyless
  else .affected

/-- The operands that GEOSEARCHSTORE, and most commands with two keys, begin with. -/
def leadingTwo : Args → List Bytes
  | _ :: a :: b :: _ => [a, b]
  | _ => []

def RouteShape.keys (shape : RouteShape) (name : Bytes) (args : Args) : Comp (List Bytes) :=
  match shape with
  | .operands => do byteStrings (← slice args 1 args.length)
  | .intoCounted => do
    let dest ← index args 1
    let counted ← numkeysKeys args 2
    pure (dest :: counted)
  | .fromSecond =>
    if args.length < 4 then pure []
    else do byteStrings (← slice args 2 args.length)
  | .counted pos => numkeysKeys args pos
  | .firstTwo => pure (leadingTwo args)
  | .streams => pure (xreadKeys args)
  | .second => pure (args[2]?.toList)
  | .usage => pure (if equalFold (args[1]?.getD []) "USAGE" then args[2]?.toList else [])
  | .keyless => pure []
  | .affected => pure (affectedKeys name args)

def commandKeys (name : Bytes) (args : Args) : Comp (List Bytes) := (routeShape name).keys name args

/-- Whether LCS takes its options. -/
def lcsOptions : Bool → Bool → List Bytes → Bool
  | wantLen, wantIdx, [] => !(wantLen && wantIdx)
  | wantLen, wantIdx, a :: rest =>
    if isWord a "LEN" then lcsOptions true wantIdx rest
    else if isWord a "IDX" then lcsOptions wantLen true rest
    else if isWord a "WITHMATCHLEN" then lcsOptions wantLen wantIdx rest
    else if isWord a "MINMATCHLEN" then
      match rest with
      | [] => false
      | n :: rest => (parseInt64 n).isSome && lcsOptions wantLen wantIdx rest
    else false

/-- Whether a subcommand of PFDEBUG looks at a key. -/
def pfdebugReads (sub : Bytes) : Bool :=
  isWord sub "GETREG" || isWord sub "ENCODING" || isWord sub "TODENSE"

/-- Where in its arguments a handler takes its keys from. -/
inductive Operands
  | keyless
  | first
  | second
  | every
  | fromSecond
  | pairs
  | firstTwo
  | counted (pos : ℕ)
  | intoCounted
  | streams (group : Bool)
  | usage
  | sort
  | radius (unit : ℕ)
  | migrate
  | beforeTimeout
  | lcs
  | pfdebug
  | debug
  deriving DecidableEq

/-- The keys that a handler takes from its arguments. Those that SORT derives from its
patterns are not arguments. -/
def Operands.keys : Operands → Args → List Bytes
  | .keyless, _ => []
  | .first, args => args[1]?.toList
  | .second, args => args[2]?.toList
  | .every, args => args.tail
  | .fromSecond, args => args.drop 2
  | .pairs, args => (Commands.pairs args.tail).map Prod.fst
  | .firstTwo, args => leadingTwo args
  | .counted pos, args => mpopKeys (args.drop pos)
  | .intoCounted, args => args[1]?.toList ++ mpopKeys (args.drop 2)
  | .streams group, args => streamOperands group args
  | .usage, args => if isWord (args[1]?.getD []) "USAGE" then args[2]?.toList else []
  | .sort, args => args[1]?.toList ++ sortTargets args
  | .radius unit, args => args[1]?.toList ++ geoTargets unit args
  | .migrate, args => migrateKeys args
  | .beforeTimeout, args => keysBeforeTimeout args
  | .lcs, args => if lcsOptions false false (args.drop 3) then leadingTwo args else []
  | .pfdebug, args => if pfdebugReads (args[1]?.getD []) then args[2]?.toList else []
  | .debug, args =>
    if isWord (args[1]?.getD []) "OBJECT" ∧ args.length = 3 then args[2]?.toList else []

/-- A row of the command table. -/
structure Registered where
  name : String
  arity : ℤ
  write : Bool
  takes : Operands
  deriving DecidableEq

def commandTable : List Registered :=
  [ ⟨"APPEND", 3, true, .first⟩, ⟨"BGREWRITEAOF", 1, false, .keyless⟩,
    ⟨"BGSAVE", -1, false, .keyless⟩, ⟨"BITCOUNT", -2, false, .first⟩,
    ⟨"BITFIELD", -2, true, .first⟩, ⟨"BITFIELD_RO", -2, false, .first⟩,
    ⟨"BITOP", -4, true, .fromSecond⟩, ⟨"BITPOS", -3, false, .first⟩,
    ⟨"CLUSTER", -2, false, .keyless⟩, ⟨"COMMAND", -1, false, .keyless⟩,
    ⟨"CONFIG", -2, false, .keyless⟩, ⟨"COPY", -3, true, .firstTwo⟩, ⟨"DBSIZE", 1, false, .keyless⟩,
    ⟨"DEBUG", -2, false, .debug⟩, ⟨"DECR", 2, true, .first⟩, ⟨"DECRBY", 3, true, .first⟩,
    ⟨"DEL", -2, true, .every⟩, ⟨"DUMP", 2, false, .first⟩, ⟨"ECHO", 2, false, .keyless⟩,
    ⟨"EXISTS", -2, false, .every⟩, ⟨"EXPIRETIME", 2, false, .first⟩,
    ⟨"FLUSHALL", 1, true, .keyless⟩, ⟨"FLUSHDB", 1, true, .keyless⟩,
    ⟨"FUNCTION", -2, false, .keyless⟩, ⟨"GEOADD", -5, true, .first⟩, ⟨"GEODIST", -4, false, .first⟩,
    ⟨"GEOHASH", -2, false, .first⟩, ⟨"GEOPOS", -2, false, .first⟩,
    ⟨"GEORADIUS", -6, true, .radius 5⟩, ⟨"GEORADIUSBYMEMBER", -5, true, .radius 4⟩,
    ⟨"GEORADIUSBYMEMBER_RO", -5, false, .first⟩, ⟨"GEORADIUS_RO", -6, false, .first⟩,
    ⟨"GEOSEARCH", -7, false, .first⟩, ⟨"GEOSEARCHSTORE", -8, true, .firstTwo⟩,
    ⟨"GET", 2, false, .first⟩, ⟨"GETBIT", 3, false, .first⟩, ⟨"GETDEL", 2, true, .first⟩,
    ⟨"GETRANGE", 4, false, .first⟩, ⟨"GETSET", 3, true, .first⟩, ⟨"HDEL", -3, true, .first⟩,
    ⟨"HEXISTS", 3, false, .first⟩, ⟨"HGET", 3, false, .first⟩, ⟨"HGETALL", 2, false, .first⟩,
    ⟨"HINCRBY", 4, true, .first⟩, ⟨"HKEYS", 2, false, .first⟩, ⟨"HLEN", 2, false, .first⟩,
    ⟨"HMGET", -3, false, .first⟩, ⟨"HMSET", -4, true, .first⟩, ⟨"HRANDFIELD", -2, false, .first⟩,
    ⟨"HSCAN", -3, false, .first⟩, ⟨"HSET", -4, true, .first⟩, ⟨"HSETNX", 4, true, .first⟩,
    ⟨"HSTRLEN", 3, false, .first⟩, ⟨"HVALS", 2, false, .first⟩, ⟨"INCR", 2, true, .first⟩,
    ⟨"INCRBY", 3, true, .first⟩, ⟨"INFO", -1, false, .keyless⟩, ⟨"KEYS", 2, false, .keyless⟩,
    ⟨"LASTSAVE", 1, false, .keyless⟩, ⟨"LATENCY", -2, false, .keyless⟩, ⟨"LCS", -3, false, .lcs⟩,
    ⟨"LINDEX", 3, false, .first⟩, ⟨"LINSERT", 5, true, .first⟩, ⟨"LLEN", 2, false, .first⟩,
    ⟨"LMOVE", 5, true, .firstTwo⟩, ⟨"LMPOP", -4, true, .counted 1⟩, ⟨"LPOP", -2, true, .first⟩,
    ⟨"LPOS", -3, false, .first⟩, ⟨"LPUSH", -3, true, .first⟩, ⟨"LPUSHX", -3, true, .first⟩,
    ⟨"LRANGE", 4, false, .first⟩, ⟨"LREM", 4, true, .first⟩, ⟨"LSET", 4, true, .first⟩,
    ⟨"LTRIM", 4, true, .first⟩, ⟨"MEMORY", -2, false, .usage⟩, ⟨"MGET", -2, false, .every⟩,
    ⟨"MOVE", 3, true, .first⟩, ⟨"MSET", -3, true, .pairs⟩, ⟨"MSETNX", -3, true, .pairs⟩,
    ⟨"OBJECT", -2, false, .second⟩, ⟨"PERSIST", 2, true, .first⟩, ⟨"PEXPIRETIME", 2, false, .first⟩,
    ⟨"PFADD", -2, true, .first⟩, ⟨"PFCOUNT", -2, false, .every⟩, ⟨"PFDEBUG", -3, false, .pfdebug⟩,
    ⟨"PFMERGE", -2, true, .every⟩, ⟨"PFSELFTEST", 1, false, .keyless⟩,
    ⟨"PING", -1, false, .keyless⟩, ⟨"PTTL", 2, false, .first⟩, ⟨"PUBLISH", 3, false, .keyless⟩,
    ⟨"PUBSUB", -2, false, .keyless⟩, ⟨"RANDOMKEY", 1, false, .keyless⟩,
    ⟨"RENAME", 3, true, .firstTwo⟩, ⟨"RENAMENX", 3, true, .firstTwo⟩,
    ⟨"REPLICAOF", 3, false, .keyless⟩, ⟨"ROLE", 1, false, .keyless⟩, ⟨"RPOP", -2, true, .first⟩,
    ⟨"RPOPLPUSH", 3, true, .firstTwo⟩, ⟨"RPUSH", -3, true, .first⟩, ⟨"RPUSHX", -3, true, .first⟩,
    ⟨"SADD", -3, true, .first⟩, ⟨"SAVE", 1, false, .keyless⟩, ⟨"SCAN", -2, false, .keyless⟩,
    ⟨"SCARD", 2, false, .first⟩, ⟨"SCRIPT", -2, false, .keyless⟩, ⟨"SDIFF", -2, false, .every⟩,
    ⟨"SDIFFSTORE", -3, true, .every⟩, ⟨"SETBIT", 4, true, .first⟩, ⟨"SETNX", 3, true, .first⟩,
    ⟨"SETRANGE", 4, true, .first⟩, ⟨"SINTER", -2, false, .every⟩,
    ⟨"SINTERCARD", -3, false, .counted 1⟩, ⟨"SINTERSTORE", -3, true, .every⟩,
    ⟨"SISMEMBER", 3, false, .first⟩, ⟨"SLAVEOF", 3, false, .keyless⟩,
    ⟨"SLOWLOG", -2, false, .keyless⟩, ⟨"SMEMBERS", 2, false, .first⟩,
    ⟨"SMISMEMBER", -3, false, .first⟩, ⟨"SMOVE", 4, true, .firstTwo⟩, ⟨"SORT", -2, true, .sort⟩,
    ⟨"SORT_RO", -2, false, .first⟩, ⟨"SRANDMEMBER", -2, false, .first⟩, ⟨"SREM", -3, true, .first⟩,
    ⟨"SSCAN", -3, false, .first⟩, ⟨"STRLEN", 2, false, .first⟩, ⟨"SUBSTR", 4, false, .first⟩,
    ⟨"SUNION", -2, false, .every⟩, ⟨"SUNIONSTORE", -3, true, .every⟩, ⟨"SWAPDB", 3, true, .keyless⟩,
    ⟨"TIME", 1, false, .keyless⟩, ⟨"TOUCH", -2, false, .every⟩, ⟨"TTL", 2, false, .first⟩,
    ⟨"TYPE", 2, false, .first⟩, ⟨"UNLINK", -2, true, .every⟩, ⟨"WAIT", 3, false, .keyless⟩,
    ⟨"XACK", -4, true, .first⟩, ⟨"XDEL", -3, true, .first⟩, ⟨"XINFO", -2, false, .second⟩,
    ⟨"XLEN", 2, false, .first⟩, ⟨"XPENDING", -3, false, .first⟩, ⟨"XRANGE", -4, false, .first⟩,
    ⟨"XREVRANGE", -4, false, .first⟩, ⟨"XSETID", -3, true, .first⟩, ⟨"XTRIM", -4, true, .first⟩,
    ⟨"ZADD", -4, true, .first⟩, ⟨"ZCARD", 2, false, .first⟩, ⟨"ZCOUNT", 4, false, .first⟩,
    ⟨"ZDIFF", -3, false, .counted 1⟩, ⟨"ZDIFFSTORE", -4, true, .intoCounted⟩,
    ⟨"ZINCRBY", 4, true, .first⟩, ⟨"ZINTER", -3, false, .counted 1⟩,
    ⟨"ZINTERCARD", -3, false, .counted 1⟩, ⟨"ZINTERSTORE", -4, true, .intoCounted⟩,
    ⟨"ZLEXCOUNT", 4, false, .first⟩, ⟨"ZMSCORE", -3, false, .first⟩,
    ⟨"ZRANDMEMBER", -2, false, .first⟩, ⟨"ZRANGE", -4, false, .first⟩,
    ⟨"ZRANGEBYLEX", -4, false, .first⟩, ⟨"ZRANGEBYSCORE", -4, false, .first⟩,
    ⟨"ZRANGESTORE", -5, true, .firstTwo⟩, ⟨"ZRANK", -3, false, .first⟩, ⟨"ZREM", -3, true, .first⟩,
    ⟨"ZREMRANGEBYLEX", 4, true, .first⟩, ⟨"ZREMRANGEBYRANK", 4, true, .first⟩,
    ⟨"ZREMRANGEBYSCORE", 4, true, .first⟩, ⟨"ZREVRANGE", -4, false, .first⟩,
    ⟨"ZREVRANGEBYLEX", -4, false, .first⟩, ⟨"ZREVRANGEBYSCORE", -4, false, .first⟩,
    ⟨"ZREVRANK", -3, false, .first⟩, ⟨"ZSCAN", -3, false, .first⟩, ⟨"ZSCORE", 3, false, .first⟩,
    ⟨"ZUNION", -3, false, .counted 1⟩, ⟨"ZUNIONSTORE", -4, true, .intoCounted⟩,
    ⟨"BLMOVE", 6, true, .firstTwo⟩, ⟨"BLMPOP", -5, true, .counted 2⟩,
    ⟨"BLPOP", -3, true, .beforeTimeout⟩, ⟨"BRPOP", -3, true, .beforeTimeout⟩,
    ⟨"BRPOPLPUSH", 4, true, .firstTwo⟩, ⟨"BZMPOP", -5, true, .counted 2⟩,
    ⟨"BZPOPMAX", -3, true, .beforeTimeout⟩, ⟨"BZPOPMIN", -3, true, .beforeTimeout⟩,
    ⟨"XREAD", -4, false, .streams false⟩, ⟨"XREADGROUP", -7, true, .streams true⟩,
    ⟨"EXPIRE", -3, true, .first⟩, ⟨"EXPIREAT", -3, true, .first⟩, ⟨"GETEX", -2, true, .first⟩,
    ⟨"HINCRBYFLOAT", 4, true, .first⟩, ⟨"INCRBYFLOAT", 3, true, .first⟩,
    ⟨"MIGRATE", -6, true, .migrate⟩, ⟨"PEXPIRE", -3, true, .first⟩, ⟨"PEXPIREAT", -3, true, .first⟩,
    ⟨"PSETEX", 4, true, .first⟩, ⟨"RESTORE", -4, true, .first⟩, ⟨"SET", -3, true, .first⟩,
    ⟨"SETEX", 4, true, .first⟩, ⟨"SPOP", -2, true, .first⟩, ⟨"XADD", -5, true, .first⟩,
    ⟨"XAUTOCLAIM", -6, true, .first⟩, ⟨"XCLAIM", -6, true, .first⟩, ⟨"XGROUP", -2, true, .second⟩,
    ⟨"ZMPOP", -4, true, .counted 1⟩, ⟨"ZPOPMAX", -2, true, .first⟩, ⟨"ZPOPMIN", -2, true, .first⟩,
    ⟨"ASKING", 1, false, .keyless⟩, ⟨"AUTH", -2, false, .keyless⟩, ⟨"CLIENT", -2, false, .keyless⟩,
    ⟨"DISCARD", 1, false, .keyless⟩, ⟨"EXEC", 1, false, .keyless⟩, ⟨"HELLO", -1, false, .keyless⟩,
    ⟨"MONITOR", 1, false, .keyless⟩, ⟨"MULTI", 1, false, .keyless⟩,
    ⟨"PSUBSCRIBE", -2, false, .keyless⟩, ⟨"PUNSUBSCRIBE", -1, false, .keyless⟩,
    ⟨"QUIT", 1, false, .keyless⟩, ⟨"READONLY", 1, false, .keyless⟩,
    ⟨"READWRITE", 1, false, .keyless⟩, ⟨"REPLCONF", -1, false, .keyless⟩,
    ⟨"RESET", 1, false, .keyless⟩, ⟨"SELECT", 2, false, .keyless⟩,
    ⟨"SHUTDOWN", -1, false, .keyless⟩, ⟨"SUBSCRIBE", -2, false, .keyless⟩,
    ⟨"UNSUBSCRIBE", -1, false, .keyless⟩, ⟨"UNWATCH", 1, false, .keyless⟩,
    ⟨"WATCH", -2, false, .every⟩ ]

theorem commandTable_ascii : ∀ c ∈ commandTable, isAscii c.name = true :=
  List.all_eq_true.mp (by decide +kernel)

/-- What a command registers besides its handler. -/
def registration {S : Type} [Numeric S] (p : String × Command S) : String × ℤ × Bool :=
  (p.1, p.2.arity, p.2.isWrite)

set_option maxRecDepth 20000 in
/-- The type of the scores plays no part in it. -/
theorem registration_dataCommands {S : Type} [Numeric S] :
    (dataCommands : List (String × Command S)).map registration =
      (dataCommands : List (String × Command ℤ)).map registration := rfl

/-- The commands whose handlers are modelled are rows of the table. -/
theorem dataCommands_registered {S : Type} [Numeric S] :
    ∀ p ∈ (dataCommands : List (String × Command S)),
      ∃ c ∈ commandTable, c.name = p.1 ∧ c.arity = p.2.arity ∧ c.write = p.2.isWrite := by
  have hall : ((dataCommands : List (String × Command ℤ)).map registration).all (fun r =>
      commandTable.any fun c => (literalCode c.name).beq (literalCode r.1) &&
        decide (c.arity = r.2.1) && decide (c.write = r.2.2)) = true := by decide +kernel
  intro p hp
  have hr : registration p ∈ (dataCommands : List (String × Command ℤ)).map registration :=
    registration_dataCommands (S := S) ▸ List.mem_map_of_mem hp
  obtain ⟨c, hc, h⟩ := List.any_eq_true.mp (List.all_eq_true.mp hall _ hr)
  simp only [Bool.and_eq_true, decide_eq_true_eq, Nat.beq_eq] at h
  exact ⟨c, hc, literalCode_injective h.1.1, h.1.2, h.2⟩

section Results

variable {α β : Type} {args : Args} {keys : List Bytes}

theorem pure_ok {a b : α} (h : (pure a : Comp α).result = .ok b) : b = a :=
  (Except.ok.inj h).symm

theorem index_ok {xs : List α} {i : ℕ} {x : α} (h : (index xs (i : ℤ)).result = .ok x) :
    xs[i]? = some x := by
  unfold index at h
  rw [if_pos (by omega), Int.toNat_natCast] at h
  cases hx : xs[i]? with
  | none =>
    rw [hx] at h
    exact absurd h (by simp [halt])
  | some y =>
    rw [hx] at h
    rw [pure_ok h]

theorem slice_ok {xs ys : List α} {lo hi : ℤ} (h : (slice xs lo hi).result = .ok ys) :
    0 ≤ lo ∧ lo ≤ hi ∧ hi ≤ xs.length ∧ ys = (xs.take hi.toNat).drop lo.toNat := by
  unfold slice at h
  split_ifs at h with hb
  · exact ⟨hb.1, hb.2.1, hb.2.2, pure_ok h⟩
  · exact absurd h (by simp [halt])

theorem byteStrings_ok {xs : List Bytes} (h : (byteStrings xs).result = .ok keys) : keys = xs := by
  obtain ⟨_, -, h⟩ := bind_ok h
  exact pure_ok h

theorem slice_rest_ok {lo : ℕ} (h : (do byteStrings (← slice args lo args.length)).result = .ok keys) :
    keys = args.drop lo := by
  obtain ⟨xs, hxs, h⟩ := bind_ok h
  rw [byteStrings_ok h, (slice_ok hxs).2.2.2, Int.toNat_natCast, Int.toNat_natCast, List.take_length]

end Results

section Coverage

variable {c : Registered} {args : Args} {keys : List Bytes}

theorem natAbs_le_of_arityOK {arity : ℤ} {n : ℕ} (h : arityOK arity n = true) :
    arity.natAbs ≤ n := by
  unfold arityOK at h
  split_ifs at h with hpos
  · have := of_decide_eq_true h
    omega
  · have := of_decide_eq_true h
    omega

/-- The keys that `affectedKeys` reads off in one of its cases. -/
def shapeKeys : KeyShape → Args → List Bytes
  | .pairs, args => (pairs args.tail).map Prod.fst
  | .operands, args => args.tail
  | .second, args => args[2]?.toList
  | .sort, args => sortKeys args
  | .georadius, args => georadiusKeys args
  | .migrate, args => migrateKeys args
  | .firstTwo, args => leadingTwo args
  | .first, args => args[1]?.toList

theorem affectedKeys_eq {name : Bytes} {shape : KeyShape} (h : keyShape name = shape) :
    affectedKeys name args = shapeKeys shape args := by
  unfold affectedKeys
  rw [h]
  cases shape with
  | firstTwo =>
    match args with
    | [] | [_] | [_, _] => rfl
    | _ :: a :: b :: rest => rfl
  | _ => rfl

end Coverage

section Soundness

variable {cs : ClusterState} {here : Bytes → Bool} {sess : Flags} {write : Bool} {name : Bytes}
  {slot : ℕ} {keys taken : List Bytes}

theorem Serves.mono (h : Serves cs here sess write name slot keys) (hsub : taken ⊆ keys) :
    Serves cs here sess write name slot taken := by
  cases h with
  | owned h hkeys => exact .owned h fun hmig k hk => hkeys hmig k (hsub hk)
  | migration h hmoving => exact .migration h hmoving
  | imported h hask => exact .imported h hask
  | replica owner h hsess hof hread => exact .replica owner h hsess hof hread

end Soundness

variable {c : Registered} {args : Args}

end ShardKV.Cluster
