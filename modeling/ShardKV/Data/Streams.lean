import ShardKV.Data.Value
import ShardKV.Bytes.Checked
import ShardKV.Server.Operand

/-! Streams and their consumer groups. A stream is an append-only sequence of
entries under growing ids; a group is a cursor into it with the entries that were
delivered and not acknowledged, kept once for the group and once for the consumer
that holds them. Counters are machine words and wrap. -/

namespace ShardKV.Data

open Checked Decimal Server

/-- An unsigned 64-bit numeral. -/
def parseUint64 (b : Bytes) : Option (Fin (2 ^ 64)) :=
  (parseUint (2 ^ 64 - 1) b).map (Fin.ofNat (2 ^ 64))

def streamID (ms seq : Fin (2 ^ 64)) : StreamID := toLex (ms, seq)

def zeroID : StreamID := streamID 0 0

def maxUint64 : Fin (2 ^ 64) := Fin.last _

def maxStreamID : StreamID := streamID maxUint64 maxUint64

/-- `StreamID.String`. -/
def idString (id : StreamID) : Bytes :=
  itoa (ofLex id).1.val ++ 45 :: itoa (ofLex id).2.val

/-- `StreamID.Next`: the last id is its own successor. -/
def idNext (id : StreamID) : StreamID :=
  if (ofLex id).2 = maxUint64 then
    if (ofLex id).1 = maxUint64 then id else streamID ((ofLex id).1 + 1) 0
  else streamID (ofLex id).1 ((ofLex id).2 + 1)

/-- `StreamID.Prev`: the first id is its own predecessor. -/
def idPrev (id : StreamID) : StreamID :=
  if (ofLex id).2 = 0 then
    if (ofLex id).1 = 0 then id else streamID ((ofLex id).1 - 1) maxUint64
  else streamID (ofLex id).1 ((ofLex id).2 - 1)

/-- `strings.Cut` at the first dash. -/
def cutDash (b : Bytes) : Bytes × Option Bytes :=
  (b.takeWhile (· != 45),
    match b.dropWhile (· != 45) with
    | [] => none
    | _ :: seq => some seq)

def parseStreamID (b : Bytes) (seqDefault : Fin (2 ^ 64)) : Option StreamID :=
  match parseUint64 (cutDash b).1, (cutDash b).2 with
  | none, _ => none
  | some ms, none => some (streamID ms seqDefault)
  | some ms, some seq => (parseUint64 seq).map (streamID ms)

inductive StreamErr
  | wrongType
  | idSmaller
  | idExhausted
  | setIDSmaller
  | noGroup
  | busyGroup
  | noSuchKey
  deriving DecidableEq

namespace Stream

def new : Stream := ⟨[], zeroID, zeroID, 0, ∅⟩

/-- `nextID`: the id of an automatic XADD. -/
def nextID (st : Stream) (now : Instant) : Except StreamErr StreamID :=
  let ms : Fin (2 ^ 64) := Fin.ofNat _ now.val
  if (ofLex st.last).1 < ms then .ok (streamID ms 0)
  else if (ofLex st.last).2 = maxUint64 then
    if (ofLex st.last).1 = maxUint64 then .error .idExhausted
    else .ok (streamID ((ofLex st.last).1 + 1) 0)
  else .ok (streamID (ofLex st.last).1 ((ofLex st.last).2 + 1))

/-- `seqForMs`: the id of an XADD that names the milliseconds only. -/
def seqForMs (st : Stream) (ms : Fin (2 ^ 64)) : Except StreamErr StreamID :=
  if (ofLex st.last).1 < ms then .ok (streamID ms 0)
  else if ms < (ofLex st.last).1 then .error .idSmaller
  else if (ofLex st.last).2 = maxUint64 then .error .idSmaller
  else .ok (streamID ms ((ofLex st.last).2 + 1))

/-- `firstIndexAtOrAfter`: what the binary search finds in entries that ascend. -/
def firstIndexAtOrAfter (st : Stream) (id : StreamID) : ℕ :=
  st.entries.findIdx fun e => decide (id ≤ e.id)

/-- `find`, with the entry in place of its index. -/
def find (st : Stream) (id : StreamID) : Option StreamEntry :=
  (st.entries[st.firstIndexAtOrAfter id]?).filter fun e => e.id = id

end Stream

inductive TrimStrategy
  | none
  | maxLen (n : ℤ)
  | minID (id : StreamID)
  deriving DecidableEq

/-- `stream.trim`: how many entries went. -/
def Stream.trim (st : Stream) : TrimStrategy → Stream × ℕ
  | .none => (st, 0)
  | .maxLen n =>
    if n < 0 ∨ (st.entries.length : ℤ) ≤ n then (st, 0)
    else
      let cut := st.entries.length - n.toNat
      ({ st with entries := st.entries.drop cut }, cut)
  | .minID id =>
    let cut := st.firstIndexAtOrAfter id
    ({ st with entries := st.entries.drop cut }, cut)

inductive AddID
  | auto
  | autoSeq (ms : Fin (2 ^ 64))
  | explicit (id : StreamID)
  deriving DecidableEq

namespace Stream

def addID (st : Stream) (now : Instant) : AddID → Except StreamErr StreamID
  | .auto => st.nextID now
  | .autoSeq ms => st.seqForMs ms
  | .explicit id =>
    if id = zeroID then .error .idSmaller
    else if (st.entries ≠ [] ∨ 0 < st.added ∨ st.last ≠ zeroID) ∧ id ≤ st.last then
      .error .idSmaller
    else .ok id

/-- The stream after an entry went in at an id, and how many entries the trimming took. -/
def append (st : Stream) (id : StreamID) (fields : List Bytes) (t : TrimStrategy) : Stream × ℕ :=
  Stream.trim { st with
    entries := st.entries ++ [⟨id, fields⟩]
    last := id
    added := (st.added + 1) % 2 ^ 64 } t

/-- One id of XDEL: whether its entry was there. -/
def delete (st : Stream) (id : StreamID) : Stream × Bool :=
  match st.find id with
  | none => (st, false)
  | some _ =>
    ({ st with
      maxDeleted := if st.maxDeleted < id then id else st.maxDeleted
      entries := st.entries.eraseIdx (st.firstIndexAtOrAfter id) }, true)

/-- All ids of XDEL, in order: how many entries went. -/
def deleteAll (st : Stream) : List StreamID → Stream × ℕ
  | [] => (st, 0)
  | id :: ids =>
    let r := st.delete id
    let rest := deleteAll r.1 ids
    (rest.1, (if r.2 then 1 else 0) + rest.2)

/-- `XSetID` on the stream; the options are the entry count and the largest deleted id. -/
def setID (st : Stream) (id : StreamID) (entriesAdded : Option ℤ) (maxDeleted : Option StreamID) :
    Except StreamErr Stream :=
  if (st.entries.getLast?.map fun e => decide (id < e.id)) = some true then .error .setIDSmaller
  else .ok { st with
    last := id
    added := match entriesAdded with
      | none => st.added
      | some n => n.toNat
    maxDeleted := maxDeleted.getD st.maxDeleted }

end Stream

namespace Group

def new (start : StreamID) (entriesRead : ℤ) (hasEntriesRead : Bool) : Group :=
  ⟨start, entriesRead, hasEntriesRead, ∅, ∅⟩

def modifyConsumer (g : Group) (name : Bytes) (f : Consumer → Consumer) : Group :=
  match g.consumers.lookup name with
  | none => g
  | some c => { g with consumers := g.consumers.insert name (f c) }

/-- `consumerFor`: the consumer is made if need be and marked as seen. -/
def consumerFor (g : Group) (name : Bytes) (nowMs : ℤ) : Group × Bool :=
  match g.consumers.lookup name with
  | none => ({ g with consumers := g.consumers.insert name ⟨nowMs, nowMs, ∅⟩ }, true)
  | some c => ({ g with consumers := g.consumers.insert name { c with seenMs := nowMs } }, false)

/-- Forget a pending id, for the group and for the consumer that its record names. -/
def forget (g : Group) (id : StreamID) (owner : Bytes) : Group :=
  { g with pel := g.pel.erase id }.modifyConsumer owner fun c => { c with pel := c.pel.erase id }

/-- Hand a pending id to a consumer under a new record, taking it from the
consumer that the old record names. -/
def assign (g : Group) (id : StreamID) (owner : Bytes) (nack : Nack) (nowMs : ℤ) : Group :=
  let g := { g with pel := g.pel.insert id nack }
  let g := if owner = nack.consumer then g
    else g.modifyConsumer owner fun c => { c with pel := c.pel.erase id }
  g.modifyConsumer nack.consumer fun c =>
    { c with activeMs := nowMs, pel := c.pel.insert id nack }

/-- One entry of an XREADGROUP for new entries, with `behind` entries after it. -/
def deliver (g : Group) (st : Stream) (consumer : Bytes) (noack : Bool) (nowMs : ℤ)
    (ent : StreamEntry) (behind : ℕ) : Group :=
  let nack : Nack := ⟨consumer, nowMs, 1⟩
  let g := { g with
    lastDelivered := ent.id
    entriesRead := if g.hasEntriesRead then wrap (g.entriesRead + 1)
      else wrap ((st.added : ℤ) - behind)
    hasEntriesRead := true }
  if noack then g.modifyConsumer consumer fun c => { c with activeMs := nowMs }
  else
    { g with pel := g.pel.insert ent.id nack }.modifyConsumer consumer fun c =>
      { c with activeMs := nowMs, pel := c.pel.insert ent.id nack }

/-- The loop of XREADGROUP over new entries. `limit` is the count, nothing when
there is none; `taken` counts what was delivered. -/
def deliverAll (st : Stream) (consumer : Bytes) (noack : Bool) (nowMs : ℤ) (limit : ℕ) :
    Group → ℕ → List StreamEntry → Group × List StreamEntry
  | g, _, [] => (g, [])
  | g, taken, ent :: rest =>
    if 0 < limit ∧ taken = limit then (g, [])
    else
      let r := deliverAll st consumer noack nowMs limit
        (g.deliver st consumer noack nowMs ent rest.length) (taken + 1) rest
      (r.1, ent :: r.2)

/-- The ids of XACK, in order: how many were pending. -/
def ack (g : Group) : List StreamID → Group × ℕ
  | [] => (g, 0)
  | id :: ids =>
    match g.pel.lookup id with
    | none => ack g ids
    | some nack =>
      let r := ack (g.forget id nack.consumer) ids
      (r.1, r.2 + 1)

end Group

/-- The pending ids of a list that pass a test, ascending. -/
def pendingIDs (pel : Finmap fun _ : StreamID => Nack) (p : StreamID → Bool) : List StreamID :=
  (pel.keys.filter fun id => p id).sort (· ≤ ·)

/-- What an XREADGROUP of one stream found. An entry that a consumer holds and the
stream has no longer is reported without fields. -/
structure ReadResult where
  entries : List (StreamID × Option (List Bytes))
  delivery : List Nack
  lastDelivered : StreamID
  entriesRead : ℤ
  created : Bool

/-- `XReadGroup` on a stream that has the group. -/
def Group.read (g : Group) (st : Stream) (consumer : Bytes) (after : Option StreamID) (count : ℕ)
    (noack : Bool) (nowMs : ℤ) : Group × ReadResult :=
  let (g, created) := g.consumerFor consumer nowMs
  match after with
  | some after =>
    let pel := ((g.consumers.lookup consumer).map Consumer.pel).getD ∅
    let ids := pendingIDs pel fun id => decide (after < id)
    let ids := if count = 0 then ids else ids.take count
    (g, ⟨ids.map fun id => (id, (st.find id).map StreamEntry.fields),
      ids.filterMap fun id => (pel.lookup id).map fun n =>
        ⟨consumer, n.deliveryMs, n.deliveryCount⟩,
      g.lastDelivered, g.entriesRead, created⟩)
  | none =>
    let fresh := st.entries.drop (st.firstIndexAtOrAfter (idNext g.lastDelivered))
    let r := Group.deliverAll st consumer noack nowMs count g 0 fresh
    (r.1, ⟨r.2.map fun e => (e.id, some e.fields),
      r.2.map fun _ => if noack then ⟨consumer, 0, 0⟩ else ⟨consumer, nowMs, 1⟩,
      r.1.lastDelivered, r.1.entriesRead, created⟩)

structure ClaimOpts where
  minIdleMs : ℤ
  idleMs : Option ℤ
  timeMs : Option ℤ
  retryCount : Option ℤ
  force : Bool
  justID : Bool
  lastID : Option StreamID
  deriving DecidableEq

structure ClaimResult where
  entry : StreamEntry
  deliveryMs : ℤ
  deliveryCount : ℤ
  deriving DecidableEq

/-- What a claim found: the entries it took, and the ids it dropped because the
stream has them no longer. -/
structure Claims where
  claimed : List ClaimResult
  deleted : List StreamID
  deriving DecidableEq

namespace Group

/-- A claim of one id that is pending under a record and idle for long enough. -/
def takeOver (g : Group) (st : Stream) (consumer : Bytes) (nowMs : ℤ) (id : StreamID) (nack : Nack)
    (deliveryMs deliveryCount : ℤ) : Group × Claims :=
  match st.find id with
  | none => (g.forget id nack.consumer, ⟨[], [id]⟩)
  | some ent =>
    (g.assign id nack.consumer ⟨consumer, deliveryMs, deliveryCount⟩ nowMs,
      ⟨[⟨ent, deliveryMs, deliveryCount⟩], []⟩)

/-- One id of XCLAIM. With FORCE an entry that is not pending becomes so, and stays
so when it is not idle for long enough. -/
def claimOne (g : Group) (st : Stream) (consumer : Bytes) (nowMs : ℤ) (o : ClaimOpts)
    (id : StreamID) : Group × Claims :=
  let held : Option (Group × Nack) :=
    match g.pel.lookup id with
    | some nack => some (g, nack)
    | none =>
      if o.force ∧ (st.find id).isSome then
        let nack : Nack := ⟨consumer, nowMs, 0⟩
        some ({ g with pel := g.pel.insert id nack }, nack)
      else none
  match held with
  | none => (g, ⟨[], []⟩)
  | some (g, nack) =>
    if wrap (nowMs - nack.deliveryMs) < o.minIdleMs then (g, ⟨[], []⟩)
    else
      let deliveryMs := match o.timeMs, o.idleMs with
        | some t, _ => t
        | none, some i => wrap (nowMs - i)
        | none, none => nowMs
      let deliveryCount := match o.retryCount with
        | some n => n
        | none => if o.justID then nack.deliveryCount else wrap (nack.deliveryCount + 1)
      g.takeOver st consumer nowMs id nack deliveryMs deliveryCount

def claimAll (st : Stream) (consumer : Bytes) (nowMs : ℤ) (o : ClaimOpts) :
    Group → List StreamID → Group × Claims
  | g, [] => (g, ⟨[], []⟩)
  | g, id :: ids =>
    let r := g.claimOne st consumer nowMs o id
    let rest := claimAll st consumer nowMs o r.1 ids
    (rest.1, ⟨r.2.claimed ++ rest.2.claimed, r.2.deleted ++ rest.2.deleted⟩)

/-- `XClaim` on a stream that has the group. -/
def claim (g : Group) (st : Stream) (consumer : Bytes) (ids : List StreamID) (o : ClaimOpts)
    (nowMs : ℤ) : Group × Claims :=
  let r := claimAll st consumer nowMs o (g.consumerFor consumer nowMs).1 ids
  match o.lastID with
  | none => r
  | some id => (if r.1.lastDelivered < id then { r.1 with lastDelivered := id } else r.1, r.2)

/-- The loop of XAUTOCLAIM. `tried` is the loop index and `done` what was claimed
or dropped so far; the cursor is the first id it did not look at. -/
def autoClaimAll (st : Stream) (consumer : Bytes) (nowMs minIdleMs count : ℤ) (justID : Bool) :
    Group → ℤ → ℤ → List StreamID → Group × Claims × StreamID
  | g, _, _, [] => (g, ⟨[], []⟩, zeroID)
  | g, tried, done, id :: ids =>
    if count ≤ done ∨ wrap (count * 10) ≤ tried then (g, ⟨[], []⟩, id)
    else
      match g.pel.lookup id with
      | none => autoClaimAll st consumer nowMs minIdleMs count justID g (tried + 1) done ids
      | some nack =>
        if wrap (nowMs - nack.deliveryMs) < minIdleMs then
          autoClaimAll st consumer nowMs minIdleMs count justID g (tried + 1) done ids
        else
          let r := g.takeOver st consumer nowMs id nack nowMs
            (if justID then nack.deliveryCount else wrap (nack.deliveryCount + 1))
          let rest := autoClaimAll st consumer nowMs minIdleMs count justID r.1 (tried + 1)
            (done + 1) ids
          (rest.1, ⟨r.2.claimed ++ rest.2.1.claimed, r.2.deleted ++ rest.2.1.deleted⟩, rest.2.2)

/-- `XAutoClaim` on a stream that has the group. -/
def autoClaim (g : Group) (st : Stream) (consumer : Bytes) (start : StreamID)
    (minIdleMs count : ℤ) (justID : Bool) (nowMs : ℤ) : Group × Claims × StreamID :=
  let g := (g.consumerFor consumer nowMs).1
  autoClaimAll st consumer nowMs minIdleMs count justID g 0 0
    (pendingIDs g.pel fun id => decide (start ≤ id))

/-- `XGroupDelConsumer`: the pending entries that went with the consumer. -/
def delConsumer (g : Group) (name : Bytes) : Option (Group × ℕ) :=
  (g.consumers.lookup name).map fun c =>
    ({ g with
      pel := (pendingIDs c.pel fun _ => true).foldl (fun pel id => pel.erase id) g.pel
      consumers := g.consumers.erase name }, c.pel.keys.card)

end Group

end ShardKV.Data
