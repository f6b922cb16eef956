import ShardKV.Resp.Stream
import ShardKV.Server.Operand

/-! The reply decoder. A reply is a line whose first byte says its type, followed by
a payload or by the elements it counts. Elements are decoded one level deeper, and
levels are limited. An attribute is decoded and dropped, and the reply behind it is
decoded at the level of the attribute. Every reading also says how many activations
of the decoder were open at once. -/

namespace ShardKV.Resp

open Server

/-- Why a reply could not be decoded. `exhausted` is the budget of the model. -/
inductive ReplyError
  | read (e : ReadError)
  | protocol
  | replyType
  | tooDeep
  | exhausted
  deriving DecidableEq

/-- A decoded reply; a map is the list of its pairs. -/
inductive ReplyValue (D : Type)
  | text (b : Bytes)
  | error (b : Bytes)
  | int (z : ℤ)
  | double (d : D)
  | bool (b : Bool)
  | null
  | list (vs : List (ReplyValue D))
  | map (pairs : List (ReplyValue D × ReplyValue D))

def maxReplyDepth : ℕ := 32

/-- The activations that a reading opened. -/
structure Calls where
  /-- the most that were open at once -/
  opened : ℕ
  /-- the attributes before the reply -/
  lead : ℕ
  /-- the most attributes before one reply, at any level -/
  run : ℕ
  deriving DecidableEq

def Calls.none : Calls := ⟨0, 0, 0⟩

/-- One after the other. -/
def Calls.beside (c d : Calls) : Calls := ⟨max c.opened d.opened, 0, max c.run d.run⟩

/-- An activation around others. -/
def Calls.around (c : Calls) : Calls := ⟨c.opened + 1, 0, c.run⟩

/-- An activation around the pairs of an attribute and then the reply behind it. -/
def Calls.attribute (pairs behind : Calls) : Calls :=
  ⟨max pairs.opened behind.opened + 1, behind.lead + 1,
    max pairs.run (max behind.run (behind.lead + 1))⟩

/-- An outcome, what is left of the stream, and the activations. -/
structure Reading (α : Type) where
  outcome : Except ReplyError α
  rest : ByteStream
  calls : Calls

def Reading.map {α β : Type} (f : α → β) (r : Reading α) : Reading β :=
  ⟨r.outcome.map f, r.rest, r.calls⟩

/-- The reading within an activation. -/
def Reading.around {α : Type} (r : Reading α) : Reading α := ⟨r.outcome, r.rest, r.calls.around⟩

/-- An activation that ends without opening another. -/
def Reading.leaf {α : Type} (outcome : Except ReplyError α) (s : ByteStream) : Reading α :=
  ⟨outcome, s, Calls.none.around⟩

/-- `n` readings in a row, up to the first that fails. -/
def readMany {α : Type} (f : ByteStream → Reading α) : ℕ → ByteStream → Reading (List α)
  | 0, s => ⟨.ok [], s, Calls.none⟩
  | n + 1, s =>
    let first := f s
    match first.outcome with
    | .error e => ⟨.error e, first.rest, first.calls.beside Calls.none⟩
    | .ok v =>
      let others := readMany f n first.rest
      ⟨others.outcome.map (v :: ·), others.rest, first.calls.beside others.calls⟩

/-- The count of a header, between `least` and the largest multibulk. -/
def collectionCount (least : ℤ) (body : Bytes) : Option ℤ :=
  (parseInt64 body).bind fun n => if n < least ∨ (maxMultiBulk : ℤ) < n then none else some n

variable {D : Type} (parseDouble : Bytes → Option D)

/-- `readReplyBulk`: the payload that a header announced, without the format hint of
a verbatim string. -/
def readReplyBulk (body : Bytes) (verbatim : Bool) (s : ByteStream) :
    Except ReplyError (ReplyValue D) × ByteStream :=
  match parseInt64 body with
  | none => (.error (.read .invalidBulk), s)
  | some n =>
    if n < -1 ∨ (maxBulkLen : ℤ) < n then (.error (.read .invalidBulk), s)
    else if n < 0 then (.ok .null, s)
    else
      match s.readFull (n.toNat + 2) with
      | (.error e, s) => (.error (.read e), s)
      | (.ok buf, s) =>
        let payload := buf.take n.toNat
        (.ok (.text (if verbatim ∧ payload[3]? = some 58 then payload.drop 4 else payload)), s)

/-- The replies that are one line. -/
def scalarReply (kind : UInt8) (body : Bytes) : Option (Except ReplyError (ReplyValue D)) :=
  if kind = 43 ∨ kind = 40 then some (.ok (.text body))
  else if kind = 45 then some (.ok (.error body))
  else if kind = 58 then
    some (match parseInt64 body with
      | some z => .ok (.int z)
      | none => .error .protocol)
  else if kind = 95 then some (.ok .null)
  else if kind = 35 then
    some (if body = [116] then .ok (.bool true)
      else if body = [102] then .ok (.bool false)
      else .error .protocol)
  else if kind = 44 then
    some (match parseDouble body with
      | some d => .ok (.double d)
      | none => .error .protocol)
  else none

/-- Consecutive values, two by two. -/
def pairUp {α : Type} : List α → List (α × α)
  | k :: v :: rest => (k, v) :: pairUp rest
  | _ => []

def readReply : ℕ → ℕ → ByteStream → Reading (ReplyValue D)
  | 0, _, s => .leaf (.error .exhausted) s
  | fuel + 1, depth, s =>
    if maxReplyDepth < depth then .leaf (.error .tooDeep) s
    else
      match s.readLine with
      | (.error e, s) => .leaf (.error (.read e)) s
      | (.ok [], s) => .leaf (.error .replyType) s
      | (.ok (kind :: body), s) =>
        match scalarReply parseDouble kind body with
        | some outcome => .leaf outcome s
        | none =>
          if kind = 36 ∨ kind = 61 then
            let (outcome, s) := readReplyBulk body (kind = 61) s
            .leaf outcome s
          else if kind = 42 ∨ kind = 126 ∨ kind = 62 then
            match collectionCount (-1) body with
            | none => .leaf (.error (.read .invalidMultibulk)) s
            | some n =>
              if n < 0 then .leaf (.ok .null) s
              else ((readMany (readReply fuel (depth + 1)) n.toNat s).map .list).around
          else if kind = 37 then
            match collectionCount 0 body with
            | none => .leaf (.error (.read .invalidMultibulk)) s
            | some n =>
              ((readMany (readReply fuel (depth + 1)) (2 * n.toNat) s).map
                fun vs => .map (pairUp vs)).around
          else if kind = 124 then
            match collectionCount 0 body with
            | none => .leaf (.error (.read .invalidMultibulk)) s
            | some n =>
              let pairs := readMany (readReply fuel (depth + 1)) (2 * n.toNat) s
              match pairs.outcome with
              | .error e => ⟨.error e, pairs.rest, pairs.calls.around⟩
              | .ok _ =>
                -- the reply behind the attribute is decoded at the same depth
                let behind := readReply fuel depth pairs.rest
                ⟨behind.outcome, behind.rest, pairs.calls.attribute behind.calls⟩
          else .leaf (.error .replyType) s

/-- `ReadReply` on the bytes to come. -/
def readReplyTop (s : ByteStream) : Reading (ReplyValue D) :=
  readReply parseDouble (s.rest.length + 1) 0 s

end ShardKV.Resp
