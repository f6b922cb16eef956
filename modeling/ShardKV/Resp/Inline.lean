import ShardKV.Resp.Command

/-! Inline requests: a line of arguments separated by blanks, with double quotes
that understand escapes and single quotes that understand an escaped quote. -/

namespace ShardKV.Resp

def isInlineSpace (c : UInt8) : Bool :=
  c = 32 || c = 9 || c = 10 || c = 13 || c = 11 || c = 12

def isHexDigit (c : UInt8) : Bool :=
  (48 ≤ c && c ≤ 57) || (97 ≤ c && c ≤ 102) || (65 ≤ c && c ≤ 70)

def hexVal (c : UInt8) : UInt8 :=
  if 48 ≤ c && c ≤ 57 then c - 48 else if 97 ≤ c && c ≤ 102 then c - 97 + 10 else c - 65 + 10

/-- The escapes recognised inside double quotes; any other stands for itself. -/
def unescape (c : UInt8) : UInt8 :=
  if c = 110 then 10 else if c = 114 then 13 else if c = 116 then 9
  else if c = 98 then 8 else if c = 97 then 7 else c

/-- Which quotation the scanner is inside of. -/
inductive Quote where
  | plain | double | single
  deriving DecidableEq

/-- A closing quote has to be followed by a separator or the end of the line. -/
def closeQuote (cur rest : Bytes) : Except ReadError (Bytes × Bytes) :=
  match rest with
  | [] => .ok (cur, rest)
  | d :: _ => if isInlineSpace d then .ok (cur, rest) else .error .unbalancedQuotes

/-- Scan one argument, returning it with the unread remainder of the line. -/
def scanArg : Quote → Bytes → Bytes → Except ReadError (Bytes × Bytes)
  | .plain, cur, [] => .ok (cur, [])
  | .plain, cur, c :: cs =>
    if isInlineSpace c then .ok (cur, c :: cs)
    else if c = 34 then scanArg .double cur cs
    else if c = 39 then scanArg .single cur cs
    else scanArg .plain (cur ++ [c]) cs
  | .double, _, [] => .error .unbalancedQuotes
  | .double, cur, [c] =>
    if c = 34 then closeQuote cur [] else scanArg .double (cur ++ [c]) []
  | .double, cur, c :: d :: cs =>
    if c = 92 then
      match cs with
      | h₁ :: h₂ :: cs' =>
        if d = 120 && isHexDigit h₁ && isHexDigit h₂ then
          scanArg .double (cur ++ [hexVal h₁ <<< 4 ||| hexVal h₂]) cs'
        else scanArg .double (cur ++ [unescape d]) (h₁ :: h₂ :: cs')
      | [h₁] => scanArg .double (cur ++ [unescape d]) [h₁]
      | [] => scanArg .double (cur ++ [unescape d]) []
    else if c = 34 then closeQuote cur (d :: cs)
    else scanArg .double (cur ++ [c]) (d :: cs)
  | .single, _, [] => .error .unbalancedQuotes
  | .single, cur, [c] =>
    if c = 39 then closeQuote cur [] else scanArg .single (cur ++ [c]) []
  | .single, cur, c :: d :: cs =>
    if c = 92 && d = 39 then scanArg .single (cur ++ [39]) cs
    else if c = 39 then closeQuote cur (d :: cs)
    else scanArg .single (cur ++ [c]) (d :: cs)

def splitInlineFuel : ℕ → Bytes → Except ReadError Args
  | 0, _ => .ok []
  | fuel + 1, line =>
    match line.dropWhile isInlineSpace with
    | [] => .ok []
    | c :: cs =>
      match scanArg .plain [] (c :: cs) with
      | .error e => .error e
      | .ok (arg, rest) =>
        match splitInlineFuel fuel rest with
        | .error e => .error e
        | .ok args => .ok (arg :: args)

/-- The arguments of an inline request; a line of separators has none. -/
def splitInline (line : Bytes) : Except ReadError Args := splitInlineFuel (line.length + 1) line

end ShardKV.Resp
