import ShardKV.Resp.Stream
import Mathlib.Data.PNat.Basic

/-! What a connection reads, from its first command to its first error. A session is
read through a buffer of some size over reads of some sizes; its results are a
function of the bytes alone. -/

namespace ShardKV.Resp

open Decimal

/-- A byte as a rune: Go converts a byte to the text of that code point. -/
def runeText (c : UInt8) : Bytes :=
  if c < 128 then [c] else [192 + c / 64, 128 + c % 64]

/-- `ProtocolErrorText`: what the client is told, if anything. -/
def protocolErrorText : ReadError → Bytes
  | .expectedBulk got => ascii "Protocol error: expected '$', got '" ++ runeText got ++ ascii "'"
  | .invalidMultibulk => ascii "Protocol error: invalid multibulk length"
  | .invalidBulk => ascii "Protocol error: invalid bulk length"
  | .unbalancedQuotes => ascii "Protocol error: unbalanced quotes in request"
  | .eof => []
  | .unexpectedEOF => []

/-- One result of `ReadCommand`, with what `Consumed` says after it. -/
structure Answer where
  result : Except (ReadError × Bytes) Args
  consumed : ℕ

def Answer.failed (a : Answer) : Prop := ∃ e, a.result = .error e

/-- Read commands until the first error. Every command takes a byte, so one more than
the bytes to come is enough of a budget. -/
def Reader.sessionFuel : ℕ → Reader → List Answer
  | 0, _ => []
  | fuel + 1, r =>
    match r.readCommand with
    | (.error e, r') => [⟨.error (e, protocolErrorText e), r'.n⟩]
    | (.ok args, r') => ⟨.ok args, r'.n⟩ :: Reader.sessionFuel fuel r'

def Reader.session (r : Reader) : List Answer := r.sessionFuel (r.r.rest.length + 1)

/-- A new reader with a buffer of `size` bytes over a connection that delivers `reads`. -/
def readerOf (size : ℕ+) (reads : List Bytes) : Reader := ⟨⟨size, size.pos, [], reads⟩, 0⟩

def sessionOf : ℕ → ByteStream → List Answer
  | 0, _ => []
  | fuel + 1, s =>
    match parse s with
    | (.error e, s') => [⟨.error (e, protocolErrorText e), s'.n⟩]
    | (.ok args, s') => ⟨.ok args, s'.n⟩ :: sessionOf fuel s'

/-- A session sees only the bytes to come. -/
theorem Reader.sessionFuel_view (fuel : ℕ) (r : Reader) :
    r.sessionFuel fuel = sessionOf fuel r.view := by
  induction fuel generalizing r with
  | zero => rfl
  | succ fuel ih =>
    rw [Reader.sessionFuel, sessionOf, r.readCommand_view]
    rcases r.readCommand with ⟨_ | args, r'⟩
    · rfl
    · exact congrArg (List.cons _) (ih r')

theorem sessionOf_complete (fuel : ℕ) (s : ByteStream) (h : s.rest.length < fuel) :
    ∃ answers last, sessionOf fuel s = answers ++ [last] ∧ last.failed ∧
      ∀ a ∈ answers, ¬a.failed := by
  induction fuel generalizing s with
  | zero => omega
  | succ fuel ih =>
    rw [sessionOf]
    rcases hp : parse s with ⟨e | args, s'⟩
    · exact ⟨[], _, rfl, ⟨_, rfl⟩, by simp⟩
    · have hlt := parseFuel_lt _ s s' args hp
      obtain ⟨answers, last, heq, hlast, hall⟩ := ih s' (by omega)
      refine ⟨_ :: answers, last, congrArg (List.cons _) heq, hlast, ?_⟩
      rintro a (_ | ⟨_, ha⟩)
      · rintro ⟨e, he⟩
        cases he
      · exact hall a ha

theorem readerOf_session (size : ℕ+) (reads : List Bytes) :
    (readerOf size reads).session = sessionOf (reads.flatten.length + 1) ⟨reads.flatten, 0⟩ :=
  Reader.sessionFuel_view _ _

/-- Neither the buffer nor the division into reads shows: a session is the one of the
same bytes in one read, and of the same bytes one by one, and it ends with its first
error. -/
theorem session_splitting (size size' : ℕ+) (reads : List Bytes) :
    (readerOf size reads).session = (readerOf size' [reads.flatten]).session ∧
      (readerOf size reads).session = (readerOf size' (reads.flatten.map fun c => [c])).session ∧
      ∃ answers last, (readerOf size reads).session = answers ++ [last] ∧ last.failed ∧
        ∀ a ∈ answers, ¬a.failed := by
  have hone : (reads.flatten.map fun c => [c]).flatten = reads.flatten := by
    induction reads.flatten with
    | nil => rfl
    | cons c cs ih => rw [List.map_cons, List.flatten_cons, ih, List.singleton_append]
  refine ⟨?_, ?_, ?_⟩
  · rw [readerOf_session, readerOf_session, List.flatten_singleton]
  · rw [readerOf_session, readerOf_session, hone]
  · rw [readerOf_session]
    exact sessionOf_complete _ _ (Nat.lt_succ_self _)

end ShardKV.Resp
