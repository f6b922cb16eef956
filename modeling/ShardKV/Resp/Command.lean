import ShardKV.Bytes.Decimal

/-! Commands on the wire. `writeCommand` is the array-of-bulk-strings form that
the log, the replica stream and the snapshot all use; `commandSize` is the ruler
the offsets are measured with; `parseCount` reads the header counts. -/

namespace ShardKV.Resp

open Decimal

/-- The arguments of one command; the first is its name. -/
abbrev Args := List Bytes

def maxMultiBulk : ℕ := 2 ^ 20
def maxBulkLen : ℕ := 512 * 2 ^ 20
def maxInt : ℕ := 2 ^ 63 - 1

inductive ReadError where
  | eof
  | unexpectedEOF
  | invalidMultibulk
  | invalidBulk
  | expectedBulk (got : UInt8)
  | unbalancedQuotes
  deriving DecidableEq, Repr

def crlf : Bytes := [13, 10]

/-- A length header: the type byte, the count, the terminator. -/
def writeLen (kind : UInt8) (n : ℕ) : Bytes := kind :: itoa n ++ crlf

def writeArrayHeader (n : ℕ) : Bytes := writeLen 42 n

def writeBulk (b : Bytes) : Bytes := writeLen 36 b.length ++ b ++ crlf

def writeCommand (args : Args) : Bytes :=
  writeArrayHeader args.length ++ (args.map writeBulk).flatten

def commandSize (args : Args) : ℕ :=
  1 + (itoa args.length).length + 2 +
    (args.map fun a => 1 + (itoa a.length).length + 2 + a.length + 2).sum

/-- The decimal count of a header: an optional sign and at least one digit. -/
def parseCount : Bytes → Option ℤ
  | [] => none
  | b :: bs =>
    if b = 43 ∨ b = 45 then
      if bs = [] then none
      else (readDigits maxInt 0 bs).map fun v : ℕ => if b = 45 then -(v : ℤ) else v
    else (readDigits maxInt 0 (b :: bs)).map fun v : ℕ => (v : ℤ)

def isCRLF (c : UInt8) : Bool := c = 10 || c = 13

/-- Drop every trailing line terminator. -/
def trimCRLF (b : Bytes) : Bytes := b.rdropWhile isCRLF

theorem writeLen_length (kind : UInt8) (n : ℕ) :
    (writeLen kind n).length = 1 + (itoa n).length + 2 := by
  simp [writeLen, crlf]; omega

theorem writeBulk_length (b : Bytes) :
    (writeBulk b).length = 1 + (itoa b.length).length + 2 + b.length + 2 := by
  simp [writeBulk, writeLen_length, crlf]; omega

/-- The size formula measures the bytes written. -/
theorem writeCommand_length (args : Args) : (writeCommand args).length = commandSize args := by
  have h : ∀ l : Args, (l.map writeBulk).flatten.length =
      (l.map fun a => 1 + (itoa a.length).length + 2 + a.length + 2).sum := by
    intro l
    induction l with
    | nil => rfl
    | cons a as ih => simp [writeBulk_length, ih]
  rw [writeCommand, List.length_append, h, writeArrayHeader, writeLen_length, commandSize]

theorem commandSize_pos (args : Args) : 0 < commandSize args := by
  unfold commandSize; omega

theorem isDigit_ne {b c : UInt8} (hb : isDigit b = true) (hc : isDigit c = false) : b ≠ c := by
  rintro rfl; simp [hb] at hc

theorem lf_not_mem_itoa (n : ℕ) : (10 : UInt8) ∉ itoa n := fun h =>
  absurd (isDigit_of_mem_itoa h) (by decide)

theorem parseCount_digits (n : ℕ) :
    parseCount (itoa n) = (readDigits maxInt 0 (itoa n)).map fun v : ℕ => (v : ℤ) := by
  cases he : itoa n with
  | nil => exact absurd he (itoa_ne_nil n)
  | cons b bs =>
    have hb : isDigit b = true := isDigit_of_mem_itoa (n := n) (by simp [he])
    have h1 : b ≠ 43 := isDigit_ne hb (by decide)
    have h2 : b ≠ 45 := isDigit_ne hb (by decide)
    simp only [parseCount, h1, h2, or_self, if_false]

theorem parseCount_itoa {n : ℕ} (h : n ≤ maxInt) : parseCount (itoa n) = some (n : ℤ) := by
  rw [parseCount_digits, readDigits_itoa h]
  rfl

/-- A count with a byte in it that is neither digit nor sign is refused. -/
theorem parseCount_none_of_mem {c : UInt8} {bs : Bytes} (hd : isDigit c = false) (h1 : c ≠ 43)
    (h2 : c ≠ 45) (h : c ∈ bs) : parseCount bs = none := by
  cases bs with
  | nil => rfl
  | cons b bs =>
    rw [parseCount]
    by_cases hs : b = 43 ∨ b = 45
    · have hb : c ∈ bs := by
        rcases List.mem_cons.mp h with rfl | h
        · exact absurd hs (by simp [h1, h2])
        · exact h
      rw [if_pos hs, readDigits_none_of_mem _ _ _ c hd hb]
      simp
    · rw [if_neg hs, readDigits_none_of_mem _ _ _ c hd h]
      rfl

theorem trimCRLF_itoa (a : Bytes) (n : ℕ) : trimCRLF (a ++ itoa n ++ crlf) = a ++ itoa n := by
  rw [trimCRLF, crlf, show ([13, 10] : Bytes) = [13] ++ [10] from rfl, ← List.append_assoc,
    List.rdropWhile_concat_pos _ _ _ (by decide), List.rdropWhile_concat_pos _ _ _ (by decide),
    List.rdropWhile_eq_self_iff]
  intro hne
  have hmem : (a ++ itoa n).getLast hne ∈ itoa n := by
    rw [List.getLast_append_of_ne_nil _ (itoa_ne_nil n)]
    exact List.getLast_mem _
  have hd := isDigit_of_mem_itoa hmem
  have h1 : (a ++ itoa n).getLast hne ≠ 10 := isDigit_ne hd (by decide)
  have h2 : (a ++ itoa n).getLast hne ≠ 13 := isDigit_ne hd (by decide)
  simp [isCRLF, h1, h2]

theorem trimCRLF_writeLen (a : Bytes) (kind : UInt8) (n : ℕ) :
    trimCRLF (a ++ writeLen kind n) = a ++ kind :: itoa n := by
  have := trimCRLF_itoa (a ++ [kind]) n
  simpa [writeLen] using this

end ShardKV.Resp
