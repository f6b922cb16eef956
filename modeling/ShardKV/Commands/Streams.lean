import ShardKV.Data.Streams
import ShardKV.Commands.Strings

/-! The stream commands and the consumer-group commands. Each operation works on
the stream of one key; XREADGROUP works on several, one after the other. Ids that
the server chose are spelled out in the effect that it ships. -/

namespace ShardKV.Commands

open Access Data Resp Server Decimal

variable {S : Type} [LinearOrder S]

def invalidStreamIDErr : Reply :=
  errorReply "ERR Invalid stream ID specified as stream command argument"

def xgroupNoKeyErr : Reply :=
  errorReply ("ERR The XGROUP subcommand requires the key to exist. " ++
    "Note that for CREATE you may want to use the MKSTREAM option to create " ++
    "an empty stream automatically.")

/-- The three wordings of a missing group. -/
inductive NogroupForm
  | read
  | pending
  | admin

def nogroupError (key group : Bytes) : NogroupForm → Reply
  | .read => .error (ascii "NOGROUP No such key '" ++ key ++ ascii "' or consumer group '" ++ group ++
      ascii "' in XREADGROUP with GROUP option")
  | .pending => .error (ascii "NOGROUP No such key '" ++ key ++ ascii "' or consumer group '" ++
      group ++ ascii "'")
  | .admin => .error (ascii "NOGROUP No such consumer group '" ++ group ++ ascii "' for key name '" ++
      key ++ ascii "'")

/-- `writeStreamStoreErr`. -/
def streamStoreErr (key group : Bytes) (form : NogroupForm) : StreamErr → Reply
  | .noGroup | .noSuchKey => nogroupError key group form
  | .busyGroup => errorReply "BUSYGROUP Consumer Group name already exists"
  | .wrongType => storeErrReply .wrongType
  | .idSmaller => errorReply "ERR stream id is equal or smaller than the target stream top item"
  | .idExhausted => errorReply "ERR the stream has exhausted the last possible id"
  | .setIDSmaller => errorReply "ERR stream id is smaller than the target stream top item"

def xgroupErr (key group : Bytes) : StreamErr → Reply
  | .noSuchKey => xgroupNoKeyErr
  | e => streamStoreErr key group .admin e

/-- An operation on the stream of a key that has to be there. It gives the new
stream, or nothing when it leaves the entry alone, and what it returns. -/
def streamEdit {α : Type} (k : Loc) (missing : Except StreamErr α)
    (f : Stream → Option Stream × Except StreamErr α) : Op S (Except StreamErr α) :=
  Prog.edit k fun
    | none => .keep missing
    | some ⟨.stream st, expireAt⟩ =>
      match f st with
      | (none, r) => .keep r
      | (some st, r) => .put ⟨.stream st, expireAt⟩ r
    | some _ => .keep (.error .wrongType)

/-- The same on one of its groups. -/
def groupEdit {α : Type} (k : Loc) (group : Bytes) (missing noGroup : Except StreamErr α)
    (f : Stream → Group → Group × α) : Op S (Except StreamErr α) :=
  streamEdit k missing fun st =>
    match st.groups.lookup group with
    | none => (none, noGroup)
    | some g =>
      let r := f st g
      (some { st with groups := st.groups.insert group r.1 }, .ok r.2)

/-- `XAdd`: the id and how many entries were trimmed, nothing when the key is
missing and may not be made. A refused XADD removes a stream without entries,
entry count and groups. -/
def xAdd (k : Loc) (now : Instant) (id : AddID) (noMkStream : Bool) (trim : TrimStrategy)
    (fields : List Bytes) : Op S (Except StreamErr (Option (StreamID × ℕ))) :=
  let add (st : Stream) (expireAt : Option ℤ) :
      Prog.Edit (Entry S) (Except StreamErr (Option (StreamID × ℕ))) :=
    match st.addID now id with
    | .error e =>
      if st.entries = [] ∧ st.added = 0 ∧ st.groups = ∅ then .drop (.error e) else .keep (.error e)
    | .ok id =>
      let r := st.append id fields trim
      .put ⟨.stream r.1, expireAt⟩ (.ok (some (id, r.2)))
  Prog.edit k fun
    | some ⟨.stream st, expireAt⟩ => add st expireAt
    | some _ => .keep (.error .wrongType)
    | none => if noMkStream then .keep (.ok none) else add .new none

def xDel (k : Loc) (ids : List StreamID) : Op S (Except StreamErr ℕ) :=
  streamEdit k (.ok 0) fun st => (some (st.deleteAll ids).1, .ok (st.deleteAll ids).2)

def xTrim (k : Loc) (trim : TrimStrategy) : Op S (Except StreamErr ℕ) :=
  streamEdit k (.ok 0) fun st => (some (st.trim trim).1, .ok (st.trim trim).2)

def xSetID (k : Loc) (id : StreamID) (entriesAdded : Option ℤ) (maxDeleted : Option StreamID) :
    Op S (Except StreamErr Unit) :=
  streamEdit k (.error .noSuchKey) fun st =>
    match st.setID id entriesAdded maxDeleted with
    | .error e => (none, .error e)
    | .ok st => (some st, .ok ())

/-- `XLastID`, where a missing key and one of another kind have the zero id. -/
def xLastID (k : Loc) : Op S StreamID :=
  .read k fun
    | some ⟨.stream st, _⟩ => pure st.last
    | _ => pure zeroID

def xGroupCreate (k : Loc) (group : Bytes) (start : StreamID) (mkstream : Bool) (entriesRead : ℤ)
    (hasEntriesRead : Bool) : Op S (Except StreamErr Unit) :=
  let create (st : Stream) (expireAt : Option ℤ) : Prog.Edit (Entry S) (Except StreamErr Unit) :=
    match st.groups.lookup group with
    | some _ => .keep (.error .busyGroup)
    | none =>
      .put ⟨.stream { st with
        groups := st.groups.insert group (.new start entriesRead hasEntriesRead) }, expireAt⟩ (.ok ())
  Prog.edit k fun
    | some ⟨.stream st, expireAt⟩ => create st expireAt
    | some _ => .keep (.error .wrongType)
    | none => if mkstream then create .new none else .keep (.error .noSuchKey)

def xGroupSetID (k : Loc) (group : Bytes) (id : StreamID) (hasEntriesRead : Bool)
    (entriesRead : ℤ) : Op S (Except StreamErr Unit) :=
  groupEdit k group (.error .noSuchKey) (.error .noGroup) fun _ g =>
    ({ g with
      lastDelivered := id
      entriesRead := entriesRead
      hasEntriesRead := hasEntriesRead }, ())

def xGroupDestroy (k : Loc) (group : Bytes) : Op S (Except StreamErr Bool) :=
  streamEdit k (.error .noSuchKey) fun st =>
    match st.groups.lookup group with
    | none => (none, .ok false)
    | some _ => (some { st with groups := st.groups.erase group }, .ok true)

def xGroupCreateConsumer (k : Loc) (group consumer : Bytes) (now : Instant) :
    Op S (Except StreamErr Bool) :=
  groupEdit k group (.error .noSuchKey) (.error .noGroup) fun _ g =>
    g.consumerFor consumer now.val

def xGroupDelConsumer (k : Loc) (group consumer : Bytes) : Op S (Except StreamErr ℕ) :=
  groupEdit k group (.error .noSuchKey) (.error .noGroup) fun _ g =>
    (g.delConsumer consumer).getD (g, 0)

def xReadGroup (k : Loc) (group consumer : Bytes) (after : Option StreamID) (count : ℕ)
    (noack : Bool) (now : Instant) : Op S (Except StreamErr ReadResult) :=
  groupEdit k group (.error .noSuchKey) (.error .noGroup) fun st g =>
    g.read st consumer after count noack now.val

def xAck (k : Loc) (group : Bytes) (ids : List StreamID) : Op S (Except StreamErr ℕ) :=
  groupEdit k group (.ok 0) (.ok 0) fun _ g => g.ack ids

def xClaim (k : Loc) (group consumer : Bytes) (ids : List StreamID) (o : ClaimOpts)
    (now : Instant) : Op S (Except StreamErr Claims) :=
  groupEdit k group (.error .noGroup) (.error .noGroup) fun st g =>
    g.claim st consumer ids o now.val

def xAutoClaim (k : Loc) (group consumer : Bytes) (start : StreamID) (minIdleMs count : ℤ)
    (justID : Bool) (now : Instant) : Op S (Except StreamErr (Claims × StreamID)) :=
  groupEdit k group (.error .noGroup) (.error .noGroup) fun st g =>
    g.autoClaim st consumer start minIdleMs count justID now.val

/-- The id operands of a command, all of which have to parse. -/
def parseIDs : List Bytes → Option (List StreamID)
  | [] => some []
  | a :: rest =>
    match parseStreamID a 0 with
    | none => none
    | some id => (parseIDs rest).map (id :: ·)

def parseRangeBound (b : Bytes) (isStart : Bool) : Option StreamID :=
  match b with
  | 40 :: s =>
    if s = [] ∨ s = ascii "-" ∨ s = ascii "+" then none
    else
      -- an exclusive bound without a sequence number starts from the other end
      let seqDefault := match (cutDash s).2 with
        | none => if isStart then maxUint64 else 0
        | some _ => if isStart then 0 else maxUint64
      (parseStreamID s seqDefault).map fun id => if isStart then idNext id else idPrev id
  | s =>
    if s = ascii "-" then some zeroID
    else if s = ascii "+" then some maxStreamID
    else parseStreamID s (if isStart then 0 else maxUint64)

/-- `parseTrim`: the strategy, whether it is approximate, and the operands after it. -/
def parseTrim : List Bytes → Except Reply (TrimStrategy × Bool × List Bytes)
  | [] => .error syntaxErr
  | word :: rest =>
    let maxLen := equalFold word "MAXLEN"
    if !maxLen && !equalFold word "MINID" then .error syntaxErr
    else
      let (approx, rest) := match rest with
        | a :: rest' =>
          if a = ascii "~" then (true, rest') else if a = ascii "=" then (false, rest')
          else (false, a :: rest')
        | [] => (false, [])
      match rest with
      | [] => .error syntaxErr
      | a :: rest =>
        if maxLen then
          match parseInt64 a with
          | none => .error notIntegerErr
          | some n => if n < 0 then .error notIntegerErr else .ok (.maxLen n, approx, rest)
        else
          match parseStreamID a 0 with
          | none => .error invalidStreamIDErr
          | some id => .ok (.minID id, approx, rest)

/-- The options of XADD that stand before the id. -/
structure XAddOpts where
  noMkStream : Bool
  trim : TrimStrategy
  approx : Bool
  hasLimit : Bool

/-- The option loop of XADD; `fuel` bounds the number of words. -/
def parseXAddOpts : ℕ → XAddOpts → List Bytes → Except Reply (XAddOpts × List Bytes)
  | 0, o, rest => .ok (o, rest)
  | _, o, [] => .ok (o, [])
  | fuel + 1, o, a :: rest =>
    if equalFold a "NOMKSTREAM" then parseXAddOpts fuel { o with noMkStream := true } rest
    else if equalFold a "MAXLEN" || equalFold a "MINID" then
      match parseTrim (a :: rest) with
      | .error r => .error r
      | .ok (trim, approx, rest) =>
        parseXAddOpts fuel { o with trim := trim, approx := o.approx || approx } rest
    else if equalFold a "LIMIT" then
      match rest with
      | [] => .error syntaxErr
      | n :: rest =>
        match parseInt64 n with
        | none => .error notIntegerErr
        | some n =>
          if n < 0 then .error notIntegerErr else parseXAddOpts fuel { o with hasLimit := true } rest
    else .ok (o, a :: rest)

def limitErr : Reply :=
  errorReply "ERR syntax error, LIMIT cannot be used without the special ~ option"

def xaddArgsErr : Reply := errorReply "ERR wrong number of arguments for 'xadd' command"

def parseXAddID (b : Bytes) : Option AddID :=
  if b = ascii "*" then some .auto
  else if (cutDash b).2 = some (ascii "*") then (parseUint64 (cutDash b).1).map .autoSeq
  else (parseStreamID b 0).map .explicit

def trimEffect (key : Bytes) : TrimStrategy → Args
  | .minID id => [ascii "XTRIM", key, ascii "MINID", idString id]
  | .maxLen n => [ascii "XTRIM", key, ascii "MAXLEN", formatInt n]
  | .none => [ascii "XTRIM", key, ascii "MAXLEN", formatInt 0]

def xaddErr : StreamErr → Reply
  | .idSmaller => errorReply ("ERR The ID specified in XADD is equal or " ++
      "smaller than the target stream top item")
  | .idExhausted => errorReply ("ERR The stream has exhausted the last possible ID, " ++
      "unable to add more items")
  | e => streamStoreErr [] [] .admin e

def cmdXAdd (v : View) (env : Env) : Args → Op S (Reply × List Args)
  | _ :: key :: rest =>
    match parseXAddOpts rest.length ⟨false, .none, false, false⟩ rest with
    | .error r => pure (r, [])
    | .ok (o, rest) =>
      if o.hasLimit && !o.approx then pure (limitErr, [])
      else
        match rest with
        | [] => pure (xaddArgsErr, [])
        | id :: fields =>
          match parseXAddID id with
          | none => pure (invalidStreamIDErr, [])
          | some id =>
            if fields = [] ∨ fields.length % 2 ≠ 0 then pure (xaddArgsErr, [])
            else
              (fun
                | .error e => (xaddErr e, [])
                | .ok none => (.null, [])
                | .ok (some (id, trimmed)) =>
                  (.bulk (idString id), (ascii "XADD" :: key :: idString id :: fields) ::
                    if 0 < trimmed then [trimEffect key o.trim] else [])) <$>
                xAdd (v.loc key) env.now id o.noMkStream o.trim fields
  | _ => pure (syntaxErr, [])

/-- The reply of an operation that counts what it changed. -/
def streamCountReply (r : Except StreamErr ℕ) : Reply × Bool :=
  match r with
  | .error e => (streamStoreErr [] [] .admin e, false)
  | .ok n => (.int n, decide (0 < n))

def cmdXDel (v : View) : Args → Op S (Reply × Bool)
  | _ :: key :: ids =>
    match parseIDs ids with
    | none => pure (invalidStreamIDErr, false)
    | some ids => streamCountReply <$> xDel (v.loc key) ids
  | _ => pure (syntaxErr, false)

def cmdXTrim (v : View) : Args → Op S (Reply × Bool)
  | _ :: key :: rest =>
    match parseTrim rest with
    | .error r => pure (r, false)
    | .ok (trim, approx, rest) =>
      match rest with
      | [] => streamCountReply <$> xTrim (v.loc key) trim
      | [word, n] =>
        if !equalFold word "LIMIT" then pure (syntaxErr, false)
        else
          match parseInt64 n with
          | none => pure (notIntegerErr, false)
          | some n =>
            if n < 0 then pure (notIntegerErr, false)
            else if !approx then pure (limitErr, false)
            else streamCountReply <$> xTrim (v.loc key) trim
      | _ => pure (syntaxErr, false)
  | _ => pure (syntaxErr, false)

/-- The options of XSETID, two words each. -/
def parseXSetIDOpts : Option ℤ × Option StreamID → List Bytes →
    Except Reply (Option ℤ × Option StreamID)
  | o, [] => .ok o
  | _, [_] => .error syntaxErr
  | o, word :: a :: rest =>
    if equalFold word "ENTRIESADDED" then
      match parseInt64 a with
      | none => .error notIntegerErr
      | some n => if n < 0 then .error notIntegerErr else parseXSetIDOpts (some n, o.2) rest
    else if equalFold word "MAXDELETEDID" then
      match parseStreamID a 0 with
      | none => .error invalidStreamIDErr
      | some id => parseXSetIDOpts (o.1, some id) rest
    else .error syntaxErr

def xsetidErr : StreamErr → Reply
  | .noSuchKey => errorReply "ERR The XSETID command requires the key to exist."
  | .setIDSmaller => errorReply ("ERR The ID specified in XSETID is smaller than " ++
      "the target stream top item")
  | e => streamStoreErr [] [] .admin e

def cmdXSetID (v : View) : Args → Op S (Reply × Bool)
  | _ :: key :: id :: opts =>
    match parseStreamID id 0 with
    | none => pure (invalidStreamIDErr, false)
    | some id =>
      match parseXSetIDOpts (none, none) opts with
      | .error r => pure (r, false)
      | .ok (entriesAdded, maxDeleted) =>
        (fun
          | .error e => (xsetidErr e, false)
          | .ok () => (.simple "OK", true)) <$> xSetID (v.loc key) id entriesAdded maxDeleted
  | _ => pure (syntaxErr, false)

def cmdXAck (v : View) : Args → Op S (Reply × Bool)
  | _ :: key :: group :: ids =>
    match parseIDs ids with
    | none => pure (invalidStreamIDErr, false)
    | some ids => streamCountReply <$> xAck (v.loc key) group ids
  | _ => pure (syntaxErr, false)

def groupStartID (k : Loc) (arg : Bytes) (allowExtremes : Bool) : Op S (Option StreamID) :=
  if arg = ascii "$" then some <$> xLastID k
  else if allowExtremes ∧ arg = ascii "-" then pure (some zeroID)
  else if allowExtremes ∧ arg = ascii "+" then pure (some maxStreamID)
  else pure (parseStreamID arg 0)

def parseEntriesRead (b : Bytes) : Except Reply ℤ :=
  match parseInt64 b with
  | none => .error notIntegerErr
  | some n =>
    if n < -1 then .error (errorReply "ERR value for ENTRIESREAD must be positive or -1") else .ok n

def parseXGroupCreateOpts : Bool × ℤ → List Bytes → Except Reply (Bool × ℤ)
  | o, [] => .ok o
  | o, a :: rest =>
    if equalFold a "MKSTREAM" then parseXGroupCreateOpts (true, o.2) rest
    else if equalFold a "ENTRIESREAD" then
      match rest with
      | [] => .error syntaxErr
      | n :: rest =>
        match parseEntriesRead n with
        | .error r => .error r
        | .ok n => parseXGroupCreateOpts (o.1, n) rest
    else .error syntaxErr

def xgroupCreate (v : View) (key group : Bytes) : List Bytes → Op S (Reply × List Args)
  | [] => pure (errorReply "ERR wrong number of arguments for 'xgroup|create' command", [])
  | id :: opts => do
    match ← groupStartID (v.loc key) id false with
    | none => pure (invalidStreamIDErr, [])
    | some start =>
      match parseXGroupCreateOpts (false, -1) opts with
      | .error r => pure (r, [])
      | .ok (mkstream, entriesRead) =>
        (fun
          | .error e => (xgroupErr key group e, [])
          | .ok () => (.simple "OK",
            [[ascii "XGROUP", ascii "CREATE", key, group, idString start] ++
              (if mkstream then [ascii "MKSTREAM"] else []) ++
              [ascii "ENTRIESREAD", formatInt entriesRead]])) <$>
          xGroupCreate (v.loc key) group start mkstream entriesRead (decide (0 ≤ entriesRead))

def parseXGroupSetIDOpts : List Bytes → Except Reply (Option ℤ)
  | [] => .ok none
  | [word, n] =>
    if equalFold word "ENTRIESREAD" then
      match parseEntriesRead n with
      | .error r => .error r
      | .ok n => .ok (some n)
    else .error syntaxErr
  | _ => .error syntaxErr

def xgroupSetID (v : View) (key group : Bytes) : List Bytes → Op S (Reply × List Args)
  | [] => pure (errorReply "ERR wrong number of arguments for 'xgroup|setid' command", [])
  | id :: opts => do
    match ← groupStartID (v.loc key) id true with
    | none => pure (invalidStreamIDErr, [])
    | some id =>
      match parseXGroupSetIDOpts opts with
      | .error r => pure (r, [])
      | .ok entriesRead =>
        (fun
          | .error e => (xgroupErr key group e, [])
          | .ok () => (.simple "OK",
            [[ascii "XGROUP", ascii "SETID", key, group, idString id] ++
              match entriesRead with
              | none => []
              | some n => [ascii "ENTRIESREAD", formatInt n]])) <$>
          xGroupSetID (v.loc key) group id ((entriesRead.map fun n => decide (0 ≤ n)).getD false)
            (entriesRead.getD 0)

/-- `writeUnknownSubcommand`. -/
def unknownSubcommandErr (command : String) (sub : Bytes) : Reply :=
  .error (ascii "ERR unknown subcommand '" ++ sub ++ ascii ("'. Try " ++ command ++ " HELP."))

/-- `writeHelp`. -/
def helpReply (title : String) (lines : List String) : Reply :=
  .array ((title :: lines ++ ["HELP", "    Print this help."]).map .simple)

def xgroupHelp : Reply :=
  helpReply "XGROUP <subcommand> [<arg> [value] [opt] ...]. Subcommands are:"
    ["CREATE <key> <groupname> <id|$> [MKSTREAM] [ENTRIESREAD <n>]",
      "    Create a new consumer group.",
      "CREATECONSUMER <key> <groupname> <consumer>",
      "    Create a new consumer in the specified group.",
      "DELCONSUMER <key> <groupname> <consumer>",
      "    Remove the specified consumer.",
      "DESTROY <key> <groupname>",
      "    Remove the specified group.",
      "SETID <key> <groupname> <id|$> [ENTRIESREAD <n>]",
      "    Set the current group id."]

def cmdXGroup (v : View) (env : Env) (args : Args) : Op S (Reply × List Args) :=
  match args with
  | _ :: sub :: rest =>
    if isWord sub "HELP" then pure (xgroupHelp, [])
    else
      match rest with
      | key :: group :: rest =>
        if isWord sub "CREATE" then xgroupCreate v key group rest
        else if isWord sub "SETID" then xgroupSetID v key group rest
        else if isWord sub "DESTROY" then
          (fun
            | .error e => (xgroupErr key group e, [])
            | .ok destroyed => (.int (if destroyed then 1 else 0), if destroyed then [args] else [])) <$>
            xGroupDestroy (v.loc key) group
        else if isWord sub "CREATECONSUMER" then
          match rest with
          | [consumer] =>
            (fun
              | .error e => (xgroupErr key group e, [])
              | .ok created => (.int (if created then 1 else 0), if created then [args] else [])) <$>
              xGroupCreateConsumer (v.loc key) group consumer env.now
          | _ =>
            pure (errorReply "ERR wrong number of arguments for 'xgroup|createconsumer' command", [])
        else if isWord sub "DELCONSUMER" then
          match rest with
          | [consumer] =>
            (fun
              | .error e => (xgroupErr key group e, [])
              | .ok n => (.int n, [args])) <$> xGroupDelConsumer (v.loc key) group consumer
          | _ => pure (errorReply "ERR wrong number of arguments for 'xgroup|delconsumer' command", [])
        else pure (unknownSubcommandErr "XGROUP" sub, [])
      | _ => pure (unknownSubcommandErr "XGROUP" sub, [])
  | _ => pure (syntaxErr, [])

/-- The leading ids of XCLAIM, up to the first word that is none. -/
def leadingIDs : List Bytes → List StreamID × List Bytes
  | [] => ([], [])
  | a :: rest =>
    match parseStreamID a 0 with
    | none => ([], a :: rest)
    | some id => (id :: (leadingIDs rest).1, (leadingIDs rest).2)

def xclaimOptionErr (option : String) : Reply :=
  errorReply ("ERR Invalid " ++ option ++ " option argument for XCLAIM")

def parseXClaimOpts : ClaimOpts → List Bytes → Except Reply ClaimOpts
  | o, [] => .ok o
  | o, [a] =>
    if isWord a "FORCE" then .ok { o with force := true }
    else if isWord a "JUSTID" then .ok { o with justID := true }
    else .error syntaxErr
  | o, a :: n :: rest =>
    if isWord a "IDLE" then
      match parseInt64 n with
      | none => .error (xclaimOptionErr "IDLE")
      | some n => parseXClaimOpts { o with idleMs := some n } rest
    else if isWord a "TIME" then
      match parseInt64 n with
      | none => .error (xclaimOptionErr "TIME")
      | some n => parseXClaimOpts { o with timeMs := some n } rest
    else if isWord a "RETRYCOUNT" then
      match parseInt64 n with
      | none => .error (xclaimOptionErr "RETRYCOUNT")
      | some n => parseXClaimOpts { o with retryCount := some n } rest
    else if isWord a "FORCE" then parseXClaimOpts { o with force := true } (n :: rest)
    else if isWord a "JUSTID" then parseXClaimOpts { o with justID := true } (n :: rest)
    else if isWord a "LASTID" then
      match parseStreamID n 0 with
      | none => .error invalidStreamIDErr
      | some id => parseXClaimOpts { o with lastID := some id } rest
    else .error syntaxErr

/-- The XCLAIM that hands one entry over as it was handed over here. -/
def claimForm (key group consumer : Bytes) (id : StreamID) (deliveryMs deliveryCount : ℤ) : Args :=
  [ascii "XCLAIM", key, group, consumer, ascii "0", idString id, ascii "TIME", formatInt deliveryMs,
    ascii "RETRYCOUNT", formatInt deliveryCount, ascii "FORCE", ascii "JUSTID"]

def claimEffect (key group consumer : Bytes) (r : Claims) (lastID : Option StreamID) : List Args :=
  (r.claimed.map fun c => claimForm key group consumer c.entry.id c.deliveryMs c.deliveryCount ++
    match lastID with
    | none => []
    | some id => [ascii "LASTID", idString id]) ++
  if r.deleted = [] then [] else [ascii "XACK" :: key :: group :: r.deleted.map idString]

/-- `writeStreamEntry`. -/
def streamEntryReply (id : StreamID) : Option (List Bytes) → Reply
  | none => .array [.bulk (idString id), .nullArray]
  | some fields => .array [.bulk (idString id), .array (fields.map .bulk)]

/-- `writeClaimed`. -/
def claimedReply (claimed : List ClaimResult) (justID : Bool) : Reply :=
  .array (claimed.map fun c =>
    if justID then .bulk (idString c.entry.id) else streamEntryReply c.entry.id (some c.entry.fields))

def cmdXClaim (v : View) (env : Env) : Args → Op S (Reply × List Args)
  | _ :: key :: group :: consumer :: minIdle :: rest =>
    match parseInt64 minIdle with
    | none => pure (errorReply "ERR Invalid min-idle-time argument for XCLAIM", [])
    | some minIdle =>
      let (ids, opts) := leadingIDs rest
      if ids = [] then pure (invalidStreamIDErr, [])
      else
        match parseXClaimOpts ⟨max minIdle 0, none, none, none, false, false, none⟩ opts with
        | .error r => pure (r, [])
        | .ok o =>
          (fun
            | .error e => (streamStoreErr key group .pending e, [])
            | .ok r => (claimedReply r.claimed o.justID, claimEffect key group consumer r o.lastID)) <$>
            xClaim (v.loc key) group consumer ids o env.now
  | _ => pure (syntaxErr, [])

def parseXAutoClaimOpts : ℤ × Bool → List Bytes → Except Reply (ℤ × Bool)
  | o, [] => .ok o
  | o, a :: rest =>
    if equalFold a "COUNT" then
      match rest with
      | [] => .error syntaxErr
      | n :: rest =>
        match parseInt64 n with
        | none => .error (errorReply "ERR COUNT must be > 0")
        | some n =>
          if n < 1 then .error (errorReply "ERR COUNT must be > 0")
          else parseXAutoClaimOpts (n, o.2) rest
    else if equalFold a "JUSTID" then parseXAutoClaimOpts (o.1, true) rest
    else .error syntaxErr

def cmdXAutoClaim (v : View) (env : Env) : Args → Op S (Reply × List Args)
  | _ :: key :: group :: consumer :: minIdle :: start :: opts =>
    match parseInt64 minIdle with
    | none => pure (errorReply "ERR Invalid min-idle-time argument for XAUTOCLAIM", [])
    | some minIdle =>
      match parseRangeBound start true with
      | none => pure (invalidStreamIDErr, [])
      | some start =>
        match parseXAutoClaimOpts (100, false) opts with
        | .error r => pure (r, [])
        | .ok (count, justID) =>
          (fun
            | .error e => (streamStoreErr key group .pending e, [])
            | .ok (r, cursor) =>
              (.array [.bulk (idString cursor), claimedReply r.claimed justID,
                .array (r.deleted.map fun id => .bulk (idString id))],
                claimEffect key group consumer r none)) <$>
            xAutoClaim (v.loc key) group consumer start (max minIdle 0) count justID env.now
  | _ => pure (syntaxErr, [])

structure XReadOpts where
  count : ℕ
  blockMs : Option ℤ
  noack : Bool
  group : Bytes
  consumer : Bytes
  keys : List Bytes
  ids : List Bytes

def noXReadOpts : XReadOpts := ⟨0, none, false, [], [], [], []⟩

def missingGroupErr : Reply :=
  errorReply "ERR Missing GROUP keyword or consumer/group name in XREADGROUP"

/-- `parseXRead` for XREADGROUP. -/
def parseXReadGroup : XReadOpts → Bool → List Bytes → Except Reply XReadOpts
  | _, _, [] => .error missingGroupErr
  | o, sawGroup, [a] =>
    if isWord a "NOACK" then parseXReadGroup { o with noack := true } sawGroup []
    else if isWord a "STREAMS" then
      .error (errorReply ("ERR Unbalanced XREADGROUP list of streams: " ++
        "for each stream key an ID or '>' must be specified."))
    else .error syntaxErr
  | o, sawGroup, a :: b :: rest =>
    if isWord a "COUNT" then
      match parseInt64 b with
      | none => .error notIntegerErr
      | some n => parseXReadGroup { o with count := n.toNat } sawGroup rest
    else if isWord a "BLOCK" then
      match parseInt64 b with
      | none => .error (errorReply "ERR timeout is not an integer or out of range")
      | some ms =>
        if ms < 0 then .error (errorReply "ERR timeout is negative")
        else parseXReadGroup { o with blockMs := some ms } sawGroup rest
    else if isWord a "GROUP" then
      match rest with
      | [] => .error syntaxErr
      | c :: rest => parseXReadGroup { o with group := b, consumer := c } true rest
    else if isWord a "NOACK" then parseXReadGroup { o with noack := true } sawGroup (b :: rest)
    else if isWord a "STREAMS" then
      if (b :: rest).length % 2 ≠ 0 then
        .error (errorReply ("ERR Unbalanced XREADGROUP list of streams: " ++
          "for each stream key an ID or '>' must be specified."))
      else if !sawGroup then .error missingGroupErr
      else
        let half := (b :: rest).length / 2
        .ok { o with keys := (b :: rest).take half, ids := (b :: rest).drop half }
    else .error syntaxErr

/-- `xreadGroupEffect`: a claim for each entry that became pending, then the
position of the group. -/
def xreadGroupEffect (key : Bytes) (o : XReadOpts) (r : ReadResult) : List Args :=
  (if o.noack then [] else
    (r.entries.zip r.delivery).map fun p =>
      claimForm key o.group p.2.consumer p.1.1 p.2.deliveryMs p.2.deliveryCount) ++
  [[ascii "XGROUP", ascii "SETID", key, o.group, idString r.lastDelivered, ascii "ENTRIESREAD",
    formatInt r.entriesRead]]

/-- What the loop of XREADGROUP carries: the replies so far, the effect so far,
and whether a stream was read for new entries. -/
structure ReadState where
  out : List Reply
  effect : List Args
  sawNew : Bool

def readReply (key : Bytes) (entries : List (StreamID × Option (List Bytes))) : Reply :=
  .array [.bulk key, .array (entries.map fun e => streamEntryReply e.1 e.2)]

/-- The loop over the streams. A stream that fails ends the command: what the ones
before it delivered stays delivered, and no effect is named. -/
def xreadStreams (v : View) (env : Env) (o : XReadOpts) :
    ReadState → List (Bytes × Bytes) → Op S (Except Reply ReadState)
  | r, [] => pure (.ok r)
  | r, (key, id) :: rest =>
    let newOnly := decide (id = ascii ">")
    let after : Option (Option StreamID) :=
      if newOnly then some none else (parseStreamID id 0).map some
    match after with
    | none => pure (.error invalidStreamIDErr)
    | some after => do
      match ← xReadGroup (v.loc key) o.group o.consumer after o.count o.noack env.now with
      | .error e => pure (.error (streamStoreErr key o.group .read e))
      | .ok res =>
        let sawNew := r.sawNew || newOnly
        if res.entries = [] then
          xreadStreams v env o
            { r with out := if newOnly then r.out else r.out ++ [readReply key []], sawNew := sawNew } rest
        else
          xreadStreams v env o
            { out := r.out ++ [readReply key res.entries]
              effect := if newOnly then r.effect ++ xreadGroupEffect key o res else r.effect
              sawNew := sawNew } rest

def dollarInGroupErr (id : String) : Reply :=
  errorReply ("ERR The " ++ id ++ " ID is meaningless in the context of XREADGROUP: " ++
    "you want to read the history of this consumer by specifying a proper ID, " ++
    "or use the > ID to get new messages. The " ++ id ++ " ID would just return an empty result set.")

/-- The first of the ids that ask for the end of the stream, which a group refuses. -/
def refusedID : List Bytes → Option Reply
  | [] => none
  | id :: ids =>
    if id = ascii "$" then some (dollarInGroupErr "$")
    else if id = ascii "+" then some (dollarInGroupErr "+")
    else refusedID ids

def blockingXReadGroup (v : View) (env : Env) (args : Args) : Op S (Option Reply × List Args) :=
  match parseXReadGroup noXReadOpts false args.tail with
  | .error r => pure (some r, [])
  | .ok o =>
    match refusedID o.ids with
    | some r => pure (some r, [])
    | none =>
      (fun
        | .error r => (some r, [])
        | .ok r =>
          if r.out = [] then
            (if o.blockMs.isSome && r.sawNew then none else some .nullArray, r.effect)
          else (some (.array r.out), r.effect)) <$>
        xreadStreams v env o ⟨[], [], false⟩ (o.keys.zip o.ids)

end ShardKV.Commands
