import ShardKV.Bytes.Buffered
import ShardKV.Resp.Inline

/-! The command reader. A frame that is wholly buffered is parsed in place by
`readBufferedCommand`; everything else goes to `readStreamedCommand`, which blocks
for the bytes it needs and owns every rejection. The streamed parser is written
over the two operations it uses on its input, so that it can also be read as a
parser of a whole byte string. -/

namespace ShardKV.Resp

/-- The input operations of the streamed parser: a line without its terminator, and
exactly so many bytes. -/
structure Input (σ : Type) where
  readLine : σ → Except ReadError Bytes × σ
  readFull : ℕ → σ → Except ReadError Bytes × σ

/-- How one activation of the streamed parser ends: with an answer, or by reading
the next request. -/
inductive Step (σ : Type) where
  | done (res : Except ReadError Args) (s : σ)
  | again (s : σ)

section Streamed
variable {σ : Type} (I : Input σ)

/-- The elements of a multibulk request. -/
def readElems : ℕ → σ → Except ReadError Args × σ
  | 0, s => (.ok [], s)
  | n + 1, s =>
    match I.readLine s with
    | (.error e, s) => (.error e, s)
    | (.ok [], s) => (.error (.expectedBulk 13), s)
    | (.ok (c :: digits), s) =>
      if c ≠ 36 then (.error (.expectedBulk c), s)
      else
        match parseCount digits with
        | none => (.error .invalidBulk, s)
        | some len =>
          if len < 0 ∨ (maxBulkLen : ℤ) < len then (.error .invalidBulk, s)
          else
            match I.readFull (len.toNat + 2) s with
            | (.error e, s) => (.error e, s)
            | (.ok buf, s) =>
              match readElems n s with
              | (.error e, s) => (.error e, s)
              | (.ok args, s) => (.ok (buf.take len.toNat :: args), s)

def readStreamedCommand (s : σ) : Step σ :=
  match I.readLine s with
  | (.error e, s) => .done (.error e) s
  | (.ok [], s) => .again s -- blank lines between commands are tolerated
  | (.ok (c :: cs), s) =>
    if c ≠ 42 then
      match splitInline (c :: cs) with
      | .error e => .done (.error e) s
      | .ok [] => .again s
      | .ok (a :: as) => .done (.ok (a :: as)) s
    else
      match parseCount cs with
      | none => .done (.error .invalidMultibulk) s
      | some n =>
        if (maxMultiBulk : ℤ) < n then .done (.error .invalidMultibulk) s
        else if n ≤ 0 then .again s
        else
          match readElems I n.toNat s with
          | (res, s) => .done res s

end Streamed

/-! ### The in-place parser -/

/-- The line at the front of a frame, trimmed, and what follows it. -/
def nextLine (frame : Bytes) : Option (Bytes × Bytes) :=
  (splitLine frame).map fun p => (trimCRLF p.1, p.2)

/-- The payload of the bulk string at the front of a frame, and what follows it. -/
def bulkSpan (frame : Bytes) : Option (Bytes × Bytes) :=
  match nextLine frame with
  | some (36 :: digits, rest) =>
    match parseCount digits with
    | none => none
    | some len =>
      if len < 0 ∨ (maxBulkLen : ℤ) < len then none
      else if rest.length < len.toNat + 2 then none
      else some (rest.take len.toNat, rest.drop (len.toNat + 2))
  | _ => none

def bulkSpans : ℕ → Bytes → Option (Args × Bytes)
  | 0, frame => some ([], frame)
  | n + 1, frame =>
    match bulkSpan frame with
    | none => none
    | some (arg, rest) => (bulkSpans n rest).map fun p => (arg :: p.1, p.2)

/-- One complete multibulk frame at the front of the buffered bytes. -/
def parseFrame (frame : Bytes) : Option (Args × Bytes) :=
  match frame with
  | 42 :: _ =>
    match nextLine frame with
    | none => none
    | some (hdr, rest) =>
      match parseCount hdr.tail with
      | none => none
      | some n => if n ≤ 0 ∨ (maxMultiBulk : ℤ) < n then none else bulkSpans n.toNat rest
  | _ => none

/-! ### The reader -/

/-- The buffered connection and the count of bytes consumed from it. -/
structure Reader where
  r : Buffered
  n : ℕ

namespace Reader

def readLine (r : Reader) : Except ReadError Bytes × Reader :=
  match r.r.readBytes with
  | ((l, true), b) => (.ok (trimCRLF l), ⟨b, r.n + l.length⟩)
  | ((l, false), b) => (.error .eof, ⟨b, r.n + l.length⟩) -- those bytes are gone as well

def readFull (k : ℕ) (r : Reader) : Except ReadError Bytes × Reader :=
  match r.r.readFull k with
  | (got, b) =>
    if got.length = k then (.ok got, ⟨b, r.n + k⟩)
    else (.error (if got = [] then .eof else .unexpectedEOF), ⟨b, r.n⟩)

def input : Input Reader := ⟨readLine, readFull⟩

def readBufferedCommand (r : Reader) : Option (Args × Reader) :=
  (parseFrame r.r.buf).map fun p =>
    (p.1, ⟨{ r.r with buf := p.2 }, r.n + (r.r.buf.length - p.2.length)⟩)

/-- Read one command. Each further activation follows a consumed line, so a budget of
one more than the bytes to come is never exhausted. -/
def readCommandFuel : ℕ → Reader → Except ReadError Args × Reader
  | 0, r => (.error .eof, r)
  | fuel + 1, r =>
    match r.readBufferedCommand with
    | some (args, r') => (.ok args, r')
    | none =>
      -- with nothing buffered, block for the first bytes and try in place once more
      let r₁ : Reader := if r.r.buf = [] then ⟨r.r.fill, r.n⟩ else r
      if r₁.r.buf = [] then (.error .eof, r₁)
      else
        match r₁.readBufferedCommand with
        | some (args, r') => (.ok args, r')
        | none =>
          match readStreamedCommand input r₁ with
          | .done res r' => (res, r')
          | .again r' => readCommandFuel fuel r'

def readCommand (r : Reader) : Except ReadError Args × Reader :=
  readCommandFuel (r.r.rest.length + 1) r

end Reader

/-- A reader over a fresh connection, with the library's default buffer. -/
def newReader (reads : List Bytes) : Reader := ⟨⟨4096, by decide, [], reads⟩, 0⟩

end ShardKV.Resp
