import ShardKV.Commands.Sets

/-! The sorted-set commands. Members are kept in skip-list order, so a range is a
run of that order. The pops ship the ZREM of what they popped. -/

namespace ShardKV.Commands

open Access Data Resp Server Decimal Prog

variable {S : Type} [Numeric S]

/-- A score range with inclusive or exclusive ends. -/
structure ScoreRange (S : Type) where
  min : S
  max : S
  minExcl : Bool
  maxExcl : Bool

def ScoreRange.aboveMin (r : ScoreRange S) (score : S) : Bool :=
  if r.minExcl then decide (r.min < score) else decide (r.min ≤ score)

def ScoreRange.belowMax (r : ScoreRange S) (score : S) : Bool :=
  if r.maxExcl then decide (score < r.max) else decide (score ≤ r.max)

/-- The nodes of a score range: skip to the first above the minimum, stop after
the last below the maximum. -/
def scoreRange (r : ScoreRange S) (nodes : List (S × Bytes)) : List (S × Bytes) :=
  (nodes.dropWhile fun n => !r.aboveMin n.1).takeWhile fun n => r.belowMax n.1

inductive LexBound
  | negInf
  | posInf
  | incl (member : Bytes)
  | excl (member : Bytes)
  deriving DecidableEq

def LexBound.aboveMin (b : LexBound) (m : Bytes) : Bool :=
  match b with
  | .negInf => true
  | .posInf => false
  | .excl x => !decide (bytesLE m x)
  | .incl x => decide (bytesLE x m)

def LexBound.belowMax (b : LexBound) (m : Bytes) : Bool :=
  match b with
  | .posInf => true
  | .negInf => false
  | .excl x => !decide (bytesLE x m)
  | .incl x => decide (bytesLE m x)

/-- `lexMembers`. -/
def lexRange (lo hi : LexBound) (nodes : List (S × Bytes)) : List (S × Bytes) :=
  (nodes.takeWhile fun n => hi.belowMax n.2).filter fun n => lo.aboveMin n.2

/-- The nodes between two ranks. -/
def rankRange (start stop : ℤ) (nodes : List (S × Bytes)) : List (S × Bytes) :=
  match normalizeRange nodes.length start stop with
  | none => []
  | some (i, j) => (nodes.drop i).take (j - i + 1)

/-- What ZRANGE and ZRANGESTORE select. -/
inductive Selector (S : Type)
  | rank (start stop : ℤ)
  | score (r : ScoreRange S)
  | lex (lo hi : LexBound)

def selectRange (by_ : Selector S) (offset count : ℤ) (rev : Bool) (nodes : List (S × Bytes)) :
    List (S × Bytes) :=
  let limited (picked : List (S × Bytes)) :=
    let picked := if rev then picked.reverse else picked
    if offset < 0 ∨ (picked.length : ℤ) ≤ offset then []
    else
      let picked := picked.drop offset.toNat
      if 0 ≤ count ∧ count < picked.length then picked.take count.toNat else picked
  match by_ with
  | .rank start stop => rankRange start stop (if rev then nodes.reverse else nodes)
  | .score r => limited (scoreRange r nodes)
  | .lex lo hi => limited (lexRange lo hi nodes)

structure ZAddOptions where
  nx : Bool
  xx : Bool
  gt : Bool
  lt : Bool
  ch : Bool
  incr : Bool
  deriving DecidableEq

def noZAddOptions : ZAddOptions := ⟨false, false, false, false, false, false⟩

def ZAddOptions.allows (o : ZAddOptions) (present : Bool) : Bool :=
  !((o.nx && present) || (o.xx && !present))

/-- `gateScore`. -/
def ZAddOptions.gate (o : ZAddOptions) (score : S) (cur : Option S) : Bool :=
  match cur with
  | none => true
  | some c => if o.gt then decide (c < score) else if o.lt then decide (score < c) else true

/-- Replace the sorted set of an entry, removing the key when it is empty. -/
def zsetEdit {α : Type} (expireAt : Option ℤ) (z : ZSet S) (a : α) : Edit (Entry S) α :=
  if z.nodes.isEmpty then .drop a else .put ⟨.zset z, expireAt⟩ a

/-- Add members in order under the options, counting additions and changes. -/
def zAddAll (o : ZAddOptions) : ZSet S × ℤ × ℤ → List (S × Bytes) → ZSet S × ℤ × ℤ
  | r, [] => r
  | (z, added, changed), (score, member) :: ms =>
    let cur := z.score member
    if !o.allows cur.isSome || !o.gate score cur then zAddAll o (z, added, changed) ms
    else
      let (z, isNew, didChange) := z.add member score
      zAddAll o (z, if isNew then added + 1 else added, if didChange then changed + 1 else changed) ms

/-- `ZAddMulti`: how many members are new and how many changed. -/
def zAddMulti (k : Loc) (o : ZAddOptions) (members : List (S × Bytes)) :
    Op S (Except StoreErr (ℤ × ℤ)) :=
  edit k fun e =>
    let add (z : ZSet S) (expireAt : Option ℤ) :=
      let (z, added, changed) := zAddAll o (z, 0, 0) members
      zsetEdit expireAt z (.ok (added, changed))
    match e with
    | some ⟨.zset z, expireAt⟩ => add z expireAt
    | some _ => .keep (.error .wrongType)
    | none => if o.xx then .keep (.ok (0, 0)) else add ZSet.empty none

/-- `ZIncrBy`: the new score, or nothing when the options forbid it. -/
def zIncrBy (k : Loc) (member : Bytes) (delta : S) (o : ZAddOptions) :
    Op S (Except StoreErr (Option S)) :=
  edit k fun e =>
    let incr (z : ZSet S) (expireAt : Option ℤ) :=
      let cur := z.score member
      if !o.allows cur.isSome then .keep (.ok none)
      else
        match Numeric.add (cur.getD Numeric.zero) delta with
        | none => .keep (.error .scoreNaN)
        | some score =>
          if !o.gate score cur then .keep (.ok none)
          else .put ⟨.zset (z.add member score).1, expireAt⟩ (.ok (some score))
    match e with
    | some ⟨.zset z, expireAt⟩ => incr z expireAt
    | some _ => .keep (.error .wrongType)
    | none => incr ZSet.empty none

/-- Remove members in order, counting those that were there. -/
def zRemAll : ZSet S × ℤ → List Bytes → ZSet S × ℤ
  | r, [] => r
  | (z, removed), m :: ms =>
    let (z, gone) := z.remove m
    zRemAll (z, if gone then removed + 1 else removed) ms

def zRemMulti (k : Loc) (members : List Bytes) : Op S (Except StoreErr ℤ) :=
  edit k fun
    | none => .keep (.ok 0)
    | some ⟨.zset z, expireAt⟩ =>
      let (z, removed) := zRemAll (z, 0) members
      zsetEdit expireAt z (.ok removed)
    | some _ => .keep (.error .wrongType)

/-- `ZPop`: what was popped, in order. -/
def zPop (k : Loc) (count : ℤ) (fromMin : Bool) : Op S (Except StoreErr (List (S × Bytes))) :=
  edit k fun
    | none => .keep (.ok [])
    | some ⟨.zset z, expireAt⟩ =>
      let popped := (if fromMin then z.nodes else z.nodes.reverse).take count.toNat
      zsetEdit expireAt (zRemAll (z, 0) (popped.map Prod.snd)).1 (.ok popped)
    | some _ => .keep (.error .wrongType)

/-- `zRemRange`: remove what `pick` selects. -/
def zRemRange (k : Loc) (pick : List (S × Bytes) → List (S × Bytes)) : Op S (Except StoreErr ℤ) :=
  edit k fun
    | none => .keep (.ok 0)
    | some ⟨.zset z, expireAt⟩ =>
      let doomed := pick z.nodes
      zsetEdit expireAt (zRemAll (z, 0) (doomed.map Prod.snd)).1 (.ok doomed.length)
    | some _ => .keep (.error .wrongType)

/-- `replaceZSetLocked`. -/
def replaceZSet (dst : Loc) (z : ZSet S) : Op S ℤ :=
  if z.nodes.isEmpty then .write dst none (pure 0)
  else .write dst (some ⟨.zset z, none⟩) (pure z.nodes.length)

/-- Selected nodes, in an order of their own, as a sorted set again. -/
def ofSelection (picked : List (S × Bytes)) : ZSet S :=
  picked.foldl (fun z n => (z.add n.2 n.1).1) ZSet.empty

def zRangeStore (dst src : Loc) (pick : List (S × Bytes) → List (S × Bytes)) :
    Op S (Except StoreErr ℤ) :=
  .read src fun
    | none => .ok <$> replaceZSet dst ZSet.empty
    | some ⟨.zset z, _⟩ => .ok <$> replaceZSet dst (ofSelection (pick z.nodes))
    | some _ => pure (.error .wrongType)

inductive ZAggregate
  | sum
  | min
  | max
  deriving DecidableEq

inductive ZCombineKind
  | union
  | inter
  | diff
  deriving DecidableEq

/-- Members with their scores, as `scoredMembers` reads them. -/
structure Scored (S : Type) where
  dom : Finset Bytes
  score : Bytes → S

/-- `scoredMembers`: a plain set has every member at one. -/
def scoredOf : Option (Entry S) → Except StoreErr (Scored S)
  | none => .ok ⟨∅, fun _ => Numeric.zero⟩
  | some ⟨.zset z, _⟩ =>
    .ok ⟨(z.nodes.map Prod.snd).toFinset, fun m => (z.score m).getD Numeric.zero⟩
  | some ⟨.set m, _⟩ => .ok ⟨m, fun _ => Numeric.one⟩
  | some _ => .error .wrongType

def weighted (score weight : S) : S := (Numeric.mul score weight).getD Numeric.zero

def aggregate (target val : S) : ZAggregate → S
  | .min => if val < target then val else target
  | .max => if target < val then val else target
  | .sum => (Numeric.add target val).getD Numeric.zero

def Scored.weigh (x : Scored S) (weight : S) : Scored S :=
  ⟨x.dom, fun m => weighted (x.score m) weight⟩

/-- Merge a further input into a union. -/
def Scored.unite (agg : ZAggregate) (acc x : Scored S) : Scored S where
  dom := acc.dom ∪ x.dom
  score m :=
    if m ∈ acc.dom then
      if m ∈ x.dom then aggregate (acc.score m) (x.score m) agg else acc.score m
    else x.score m

def Scored.meet (agg : ZAggregate) (acc x : Scored S) : Scored S where
  dom := acc.dom ∩ x.dom
  score m := aggregate (acc.score m) (x.score m) agg

/-- `zcombineLocked`, on the inputs already read, with their weights. -/
def zCombine (kind : ZCombineKind) (agg : ZAggregate) : List (Scored S × S) → Scored S
  | [] => ⟨∅, fun _ => Numeric.zero⟩
  | (x, w) :: rest =>
    match kind with
    | .union => rest.foldl (fun acc y => acc.unite agg (y.1.weigh y.2)) (x.weigh w)
    | .inter => rest.foldl (fun acc y => acc.meet agg (y.1.weigh y.2)) (x.weigh w)
    | .diff => ⟨rest.foldl (fun d y => d \ y.1.dom) x.dom, x.score⟩

/-- `sortedMembers`, as the sorted set that `replaceZSetLocked` builds of it. -/
def Scored.toZSet (x : Scored S) : ZSet S :=
  ZSet.ofNodes ((x.dom.sort bytesLE).map fun m => (x.score m, m)) (by
    rw [List.map_map, show Prod.snd ∘ (fun m => (x.score m, m)) = id from rfl, List.map_id]
    exact x.dom.sort_nodup bytesLE)

def readScored : List Loc → Op S (Except StoreErr (List (Scored S)))
  | [] => pure (.ok [])
  | k :: ks => .read k fun e =>
    match scoredOf e with
    | .error err => pure (.error err)
    | .ok x => (fun r => r.map (x :: ·)) <$> readScored ks

def zCombineStore (dst : Loc) (kind : ZCombineKind) (agg : ZAggregate) (ops : List (Loc × S)) :
    Op S (Except StoreErr ℤ) :=
  if ops.isEmpty then pure (.ok 0)
  else do
    match ← readScored (ops.map Prod.fst) with
    | .error err => pure (.error err)
    | .ok xs => .ok <$> replaceZSet dst (zCombine kind agg (xs.zip (ops.map Prod.snd))).toZSet

def notFloatErr : Reply := errorReply "ERR value is not a valid float"

/-- The leading options of ZADD, and the arguments after them. -/
def takeZAddOpts : ZAddOptions → List Bytes → ZAddOptions × List Bytes
  | o, [] => (o, [])
  | o, a :: rest =>
    if isWord a "NX" then takeZAddOpts { o with nx := true } rest
    else if isWord a "XX" then takeZAddOpts { o with xx := true } rest
    else if isWord a "GT" then takeZAddOpts { o with gt := true } rest
    else if isWord a "LT" then takeZAddOpts { o with lt := true } rest
    else if isWord a "CH" then takeZAddOpts { o with ch := true } rest
    else if isWord a "INCR" then takeZAddOpts { o with incr := true } rest
    else (o, a :: rest)

def parseZAddOpts (args : List Bytes) : Except Reply (ZAddOptions × List Bytes) :=
  let (o, rest) := takeZAddOpts noZAddOptions args
  if o.nx && o.xx then
    .error (errorReply "ERR XX and NX options at the same time are not compatible")
  else if (o.nx && (o.gt || o.lt)) || (o.gt && o.lt) then
    .error (errorReply "ERR GT, LT, and/or NX options at the same time are not compatible")
  else if rest.isEmpty || rest.length % 2 ≠ 0 then .error syntaxErr
  else if o.incr && rest.length ≠ 2 then
    .error (errorReply "ERR INCR option supports a single increment-element pair")
  else .ok (o, rest)

def parseMembers : List (Bytes × Bytes) → Except Reply (List (S × Bytes))
  | [] => .ok []
  | (score, member) :: ps =>
    match Numeric.parseScore score with
    | none => .error notFloatErr
    | some score =>
      match parseMembers ps with
      | .error r => .error r
      | .ok ms => .ok ((score, member) :: ms)

def parseScoreBound : Bytes → Option (S × Bool)
  | 40 :: b => (Numeric.parseScore b).map fun x : S => (x, true)
  | b => (Numeric.parseScore b).map fun x : S => (x, false)

def parseScoreRange (lo hi : Bytes) : Option (ScoreRange S) :=
  match parseScoreBound lo, parseScoreBound hi with
  | some (min, minExcl), some (max, maxExcl) => some ⟨min, max, minExcl, maxExcl⟩
  | _, _ => none

def parseLexBound (b : Bytes) : Option LexBound :=
  if b = ascii "-" then some .negInf
  else if b = ascii "+" then some .posInf
  else
    match b with
    | 91 :: m => some (.incl m)
    | 40 :: m => some (.excl m)
    | _ => none

def badLexRangeErr : Reply := errorReply "ERR min or max not valid string range item"

def badScoreRangeErr : Reply := errorReply "ERR min or max is not a float"

structure RangeTail where
  byScore : Bool
  byLex : Bool
  rev : Bool
  limit : Option (ℤ × ℤ)

def parseRangeTail : RangeTail → List Bytes → Except Reply RangeTail
  | t, [] => .ok t
  | t, a :: rest =>
    if isWord a "BYSCORE" then parseRangeTail { t with byScore := true } rest
    else if isWord a "BYLEX" then parseRangeTail { t with byLex := true } rest
    else if isWord a "REV" then parseRangeTail { t with rev := true } rest
    else if isWord a "LIMIT" then
      match rest with
      | o :: c :: rest =>
        match parseInt64 o, parseInt64 c with
        | some o, some c => parseRangeTail { t with limit := some (o, c) } rest
        | _, _ => .error notIntegerErr
      | _ => .error syntaxErr
    else .error syntaxErr

/-- `zRangeSpec`: what to pick from the nodes. -/
def zRangeSpec (minArg maxArg : Bytes) (tail : List Bytes) :
    Except Reply (List (S × Bytes) → List (S × Bytes)) :=
  match parseRangeTail ⟨false, false, false, none⟩ tail with
  | .error r => .error r
  | .ok t =>
    if t.byScore && t.byLex then .error syntaxErr
    else if t.limit.isSome && !t.byScore && !t.byLex then
      .error (errorReply ("ERR syntax error, LIMIT is only supported in combination with " ++
        "either BYSCORE or BYLEX"))
    else
      let (offset, count) := t.limit.getD (0, -1)
      let (lo, hi) := if t.rev then (maxArg, minArg) else (minArg, maxArg)
      if t.byScore then
        match parseScoreRange lo hi with
        | none => .error badScoreRangeErr
        | some r => .ok (selectRange (.score r) offset count t.rev)
      else if t.byLex then
        match parseLexBound lo, parseLexBound hi with
        | some lo, some hi => .ok (selectRange (.lex lo hi) offset count t.rev)
        | _, _ => .error badLexRangeErr
      else
        match parseInt64 minArg, parseInt64 maxArg with
        | some start, some stop => .ok (selectRange (.rank start stop) offset count t.rev)
        | _, _ => .error notIntegerErr

/-- Parsed operands of a combination: the inputs with their weights, and the aggregate. -/
def parseWeights : List Bytes → Option (List S)
  | [] => some []
  | b :: bs =>
    match Numeric.parseScore b, parseWeights bs with
    | some w, some ws => some (w :: ws)
    | _, _ => none

/-- The options after the keys of a storing combination. -/
def parseCombineOpts (kind : ZCombineKind) (numkeys : ℕ) :
    ℕ → List S × ZAggregate → List Bytes → Except Reply (List S × ZAggregate)
  | _, o, [] => .ok o
  | 0, _, _ => .error syntaxErr
  | fuel + 1, (ws, agg), a :: rest =>
    if isWord a "WEIGHTS" then
      if kind = .diff ∨ rest.length < numkeys then .error syntaxErr
      else
        match parseWeights (rest.take numkeys) with
        | none => .error (errorReply "ERR weight value is not a float")
        | some ws => parseCombineOpts kind numkeys fuel (ws, agg) (rest.drop numkeys)
    else if isWord a "AGGREGATE" then
      match rest with
      | [] => .error syntaxErr
      | word :: rest =>
        if kind = .diff then .error syntaxErr
        else if isWord word "SUM" then parseCombineOpts kind numkeys fuel (ws, .sum) rest
        else if isWord word "MIN" then parseCombineOpts kind numkeys fuel (ws, .min) rest
        else if isWord word "MAX" then parseCombineOpts kind numkeys fuel (ws, .max) rest
        else .error syntaxErr
    else .error syntaxErr

/-- `parseZCombine` for the storing forms, from the key count on. -/
def parseZCombine (kind : ZCombineKind) (name : Bytes) :
    List Bytes → Except Reply (List (Bytes × S) × ZAggregate)
  | [] => .error syntaxErr
  | numkeys :: rest =>
    match parseInt64 numkeys with
    | none => .error notIntegerErr
    | some n =>
      if n < 1 then
        .error (.error (ascii "ERR at least 1 input key is needed for '" ++ toLower name ++
          ascii "' command"))
      else if (rest.length : ℤ) < n then .error syntaxErr
      else
        let keys := rest.take n.toNat
        let ones : List S := keys.map fun _ => Numeric.one
        match parseCombineOpts kind n.toNat rest.length (ones, .sum) (rest.drop n.toNat) with
        | .error r => .error r
        | .ok (ws, agg) => .ok (keys.zip ws, agg)

def cmdZAdd (v : View) : Args → Op S (Reply × Bool)
  | _ :: key :: opts =>
    match parseZAddOpts opts with
    | .error r => pure (r, false)
    | .ok (o, rest) =>
      match parseMembers (pairs rest) with
      | .error r => pure (r, false)
      | .ok members =>
        match o.incr, members with
        | true, (delta, member) :: _ =>
          (fun
            | .error err => (storeErrReply err, false)
            | .ok none => (.null, false)
            | .ok (some score) => (.double (Numeric.formatScore score), true)) <$>
            zIncrBy (v.loc key) member delta o
        | _, _ =>
          (fun
            | .error err => (storeErrReply err, false)
            | .ok (added, changed) =>
              (.int (if o.ch then changed else added), decide (0 < changed))) <$>
            zAddMulti (v.loc key) o members
  | _ => pure (syntaxErr, false)

def cmdZIncrBy (v : View) : Args → Op S (Reply × Bool)
  | [_, key, by_, member] =>
    match Numeric.parseScore (S := S) by_ with
    | none => pure (notFloatErr, false)
    | some delta =>
      (fun
        | .error err => (storeErrReply err, false)
        | .ok score => (.double (Numeric.formatScore (score.getD Numeric.zero)), true)) <$>
        zIncrBy (v.loc key) member delta noZAddOptions
  | _ => pure (syntaxErr, false)

def cmdZRem (v : View) : Args → Op S (Reply × Bool)
  | _ :: key :: members => countReply <$> zRemMulti (v.loc key) members
  | _ => pure (syntaxErr, false)

def cmdZRemRangeByRank (v : View) : Args → Op S (Reply × Bool)
  | [_, key, start, stop] =>
    match parseInt64 start, parseInt64 stop with
    | some i, some j => countReply <$> zRemRange (v.loc key) (rankRange i j)
    | _, _ => pure (notIntegerErr, false)
  | _ => pure (syntaxErr, false)

def cmdZRemRangeByScore (v : View) : Args → Op S (Reply × Bool)
  | [_, key, lo, hi] =>
    match parseScoreRange (S := S) lo hi with
    | none => pure (badScoreRangeErr, false)
    | some r => countReply <$> zRemRange (v.loc key) (scoreRange r)
  | _ => pure (syntaxErr, false)

def cmdZRemRangeByLex (v : View) : Args → Op S (Reply × Bool)
  | [_, key, lo, hi] =>
    match parseLexBound lo, parseLexBound hi with
    | some lo, some hi => countReply <$> zRemRange (v.loc key) (lexRange lo hi)
    | _, _ => pure (badLexRangeErr, false)
  | _ => pure (syntaxErr, false)

/-- Members with their scores, in the RESP2 shape. -/
def membersReply (ms : List (S × Bytes)) : Reply :=
  .array (ms.flatMap fun n => [.bulk n.2, .double (Numeric.formatScore n.1)])

def zpop (fromMin : Bool) (count : ℤ) (v : View) (key : Bytes) : Op S (Reply × List Args) :=
  (fun
    | .error err => (storeErrReply err, [])
    | .ok popped => (membersReply popped, removalEffect "ZREM" key (popped.map Prod.snd))) <$>
    zPop (v.loc key) count fromMin

/-- ZPOPMIN and ZPOPMAX. -/
def cmdZPop (fromMin : Bool) (v : View) (_ : Env) : Args → Op S (Reply × List Args)
  | [_, key] => zpop fromMin 1 v key
  | [_, key, count] =>
    match parseInt64 count with
    | none => pure (notIntegerErr, [])
    | some n => if n < 0 then pure (notPositiveErr, []) else zpop fromMin n v key
  | name :: _ => pure (wrongArgsErr name, [])
  | [] => pure (syntaxErr, [])

def cmdZPopMin : View → Env → Args → Op S (Reply × List Args) := cmdZPop true

def cmdZPopMax : View → Env → Args → Op S (Reply × List Args) := cmdZPop false

/-- The reply of a command that stores a result and always counts as a change. -/
def storeReply (r : Except StoreErr ℤ) : Reply × Bool :=
  match r with
  | .error err => (storeErrReply err, false)
  | .ok n => (.int n, true)

def cmdZRangeStore (v : View) : Args → Op S (Reply × Bool)
  | _ :: dst :: src :: lo :: hi :: tail =>
    match zRangeSpec lo hi tail with
    | .error r => pure (r, false)
    | .ok pick => storeReply <$> zRangeStore (v.loc dst) (v.loc src) pick
  | _ => pure (syntaxErr, false)

def cmdZCombineStore (kind : ZCombineKind) (v : View) : Args → Op S (Reply × Bool)
  | name :: dst :: operands =>
    match parseZCombine kind name operands with
    | .error r => pure (r, false)
    | .ok (ops, agg) =>
      storeReply <$> zCombineStore (v.loc dst) kind agg (ops.map fun o => (v.loc o.1, o.2))
  | _ => pure (syntaxErr, false)

def cmdZUnionStore : View → Args → Op S (Reply × Bool) := cmdZCombineStore .union

def cmdZInterStore : View → Args → Op S (Reply × Bool) := cmdZCombineStore .inter

def cmdZDiffStore : View → Args → Op S (Reply × Bool) := cmdZCombineStore .diff

def cmdZCard (v : View) (_ : Env) : Args → Op S Reply
  | [_, key] => .read (v.loc key) fun
    | some ⟨.zset z, _⟩ => pure (.int z.nodes.length)
    | some _ => pure (storeErrReply .wrongType)
    | none => pure (.int 0)
  | _ => pure syntaxErr

/-- The keys of BZPOPMIN and BZPOPMAX tried in order. -/
def blockingZPops (fromMin : Bool) (v : View) : List Bytes → Op S (Option Reply × List Args)
  | [] => pure (none, [])
  | key :: keys => do
    match ← zPop (v.loc key) 1 fromMin with
    | .error err => pure (some (storeErrReply err), [])
    | .ok [] => blockingZPops fromMin v keys
    | .ok ((score, member) :: _) =>
      pure (some (.array [.bulk key, .bulk member, .double (Numeric.formatScore score)]),
        [[ascii "ZREM", key, member]])

def blockingZPop (fromMin : Bool) (v : View) (_ : Env) (args : Args) :
    Op S (Option Reply × List Args) :=
  blockingZPops fromMin v args.tail.dropLast

/-- The keys of ZMPOP tried in order. -/
def mPopZSets (o : MPopOpts) (v : View) : List Bytes → Op S (Option Reply × List Args)
  | [] => pure (none, [])
  | key :: keys => do
    match ← zPop (v.loc key) o.count o.first with
    | .error err => pure (some (storeErrReply err), [])
    | .ok [] => mPopZSets o v keys
    | .ok (m :: ms) =>
      let popped := (m :: ms).map fun n : S × Bytes =>
        Reply.array [.bulk n.2, .double (Numeric.formatScore n.1)]
      pure (some (.array [.bulk key, .array popped]),
        removalEffect "ZREM" key ((m :: ms).map Prod.snd))

/-- `zsetMPop`, on the arguments from the key count on. -/
def zsetMPop (v : View) (operands : List Bytes) : Op S (Option Reply × List Args) :=
  match parseMPop "MIN" "MAX" operands with
  | .error r => pure (some r, [])
  | .ok o => mPopZSets o v o.keys

def cmdZMPop (v : View) (_ : Env) (args : Args) : Op S (Reply × List Args) :=
  (fun r => (r.1.getD .nullArray, r.2)) <$> zsetMPop v args.tail

def blockingZMPop (v : View) (_ : Env) (args : Args) : Op S (Option Reply × List Args) :=
  zsetMPop v args.tail.tail

section Soundness

variable {ok : Data.Stream → Prop} (v : View) (args : Args)

theorem insert_nodes_ne_nil (z : ZSet S) (member : Bytes) (score : S) :
    (z.insert member score).nodes ≠ [] := by
  apply List.ne_nil_of_length_pos
  show 0 < ((z.erase member).nodes.orderedInsert zLE (score, member)).length
  rw [List.orderedInsert_length]
  omega

theorem score_nil (member : Bytes) {z : ZSet S} (h : z.nodes = []) : z.score member = none := by
  simp [ZSet.score, h]

theorem add_nodes_ne_nil (z : ZSet S) (member : Bytes) (score : S) :
    (z.add member score).1.nodes ≠ [] := by
  unfold ZSet.add
  split
  · rename_i old hold
    split
    · intro hnil
      rw [score_nil member hnil] at hold
      exact absurd hold (by simp)
    · exact insert_nodes_ne_nil z member score
  · exact insert_nodes_ne_nil z member score

theorem add_unchanged {z : ZSet S} {member : Bytes} {score : S}
    (h : (z.add member score).2.2 = false) : (z.add member score).1 = z := by
  unfold ZSet.add at h ⊢
  split
  · split
    · rfl
    · rename_i hold hne
      simp [hold, hne] at h
  · rename_i hnone
    simp [hnone] at h

/-- The count of changes grows from its start, and stays there only when nothing
changed. -/
theorem zAddAll_spec (o : ZAddOptions) (r : ZSet S × ℤ × ℤ) (members : List (S × Bytes)) :
    r.2.2 ≤ (zAddAll o r members).2.2 ∧
      ((zAddAll o r members).2.2 = r.2.2 → (zAddAll o r members).1 = r.1) := by
  induction members generalizing r with
  | nil => exact ⟨le_refl _, fun _ => rfl⟩
  | cons m ms ih =>
    obtain ⟨z, added, changed⟩ := r
    obtain ⟨score, member⟩ := m
    unfold zAddAll
    dsimp only
    split
    · exact ih _
    · cases hadd : z.add member score with
      | mk z' flags =>
        obtain ⟨isNew, didChange⟩ := flags
        dsimp only
        obtain ⟨hle, hsame⟩ := ih (z', if isNew then added + 1 else added,
          if didChange then changed + 1 else changed)
        cases didChange with
        | true =>
          simp only [if_true] at hle hsame ⊢
          exact ⟨by omega, fun heq => by omega⟩
        | false =>
          have hz : (z.add member score).1 = z := add_unchanged (by rw [hadd])
          rw [hadd] at hz
          simp only [Bool.false_eq_true, if_false] at hle hsame ⊢
          exact ⟨hle, fun heq => (hsame heq).trans hz⟩

theorem zsetEdit_sound {α : Type} {dirty : α → Bool} {d : Option ℤ} {z z' : ZSet S} {a : α}
    (hz : z.nodes ≠ []) (h : dirty a = true ∨ z' = z) :
    (zsetEdit d z' a : Edit (Entry S) α).Sound (Proper ok) dirty (some ⟨.zset z, d⟩) := by
  apply Edit.sound_unless
  · simp
  · refine h.imp_right ?_
    rintro rfl
    exact ⟨by simpa using hz, rfl⟩

/-- On a missing key an empty result is no change. -/
theorem zsetEdit_sound_none {α : Type} {dirty : α → Bool} {z' : ZSet S} {a : α}
    (h : dirty a = true ∨ z'.nodes = []) :
    (zsetEdit none z' a : Edit (Entry S) α).Sound (Proper ok) dirty none := by
  unfold zsetEdit
  split
  · exact .inr rfl
  · rename_i hne
    exact ⟨by simpa using hne, .inl (h.resolve_right (by simpa using hne))⟩

theorem zAddMulti_sound (k : Loc) (o : ZAddOptions) (members : List (S × Bytes)) {β : Type}
    {g : Except StoreErr (ℤ × ℤ) → β} {dirty : β → Bool}
    (hg : ∀ added changed, 0 < changed → dirty (g (.ok (added, changed))) = true) :
    (g <$> zAddMulti k o members : Op S β).Sound (Proper ok) dirty := by
  apply sound_map
  apply sound_edit
  have changes (z : ZSet S) := zAddAll_spec o (z, 0, 0) members
  rintro (_ | ⟨_ | _ | _ | _ | z | _, d⟩) he
  · dsimp only
    split
    · trivial
    · obtain ⟨hle, hsame⟩ := changes ZSet.empty
      apply zsetEdit_sound_none
      rcases lt_or_eq_of_le hle with hlt | heq
      · exact .inl (hg _ _ hlt)
      · exact .inr (by rw [hsame heq.symm]; rfl)
  · trivial
  · trivial
  · trivial
  · trivial
  · obtain ⟨hle, hsame⟩ := changes z
    apply zsetEdit_sound (he _ rfl)
    rcases lt_or_eq_of_le hle with hlt | heq
    · exact .inl (hg _ _ hlt)
    · exact .inr (hsame heq.symm)
  · trivial

theorem zIncrBy_sound (k : Loc) (member : Bytes) (delta : S) (o : ZAddOptions) {β : Type}
    {g : Except StoreErr (Option S) → β} {dirty : β → Bool}
    (hg : ∀ score, dirty (g (.ok (some score))) = true) :
    (g <$> zIncrBy k member delta o : Op S β).Sound (Proper ok) dirty := by
  apply sound_map
  apply sound_edit
  intro e _
  have incr (z : ZSet S) (d : Option ℤ) : Edit.Sound (Proper ok) (fun r => dirty (g r)) e
      (if !o.allows (z.score member).isSome then .keep (.ok none)
        else match Numeric.add ((z.score member).getD Numeric.zero) delta with
          | none => .keep (.error .scoreNaN)
          | some score =>
            if !o.gate score (z.score member) then .keep (.ok none)
            else .put ⟨.zset (z.add member score).1, d⟩ (.ok (some score))) := by
    split
    · trivial
    · cases Numeric.add ((z.score member).getD Numeric.zero) delta with
      | none => trivial
      | some score =>
        dsimp only
        split
        · trivial
        · exact ⟨add_nodes_ne_nil z member score, .inl (hg score)⟩
  obtain _ | ⟨_ | _ | _ | _ | z | _, d⟩ := e
  · exact incr ZSet.empty none
  · trivial
  · trivial
  · trivial
  · trivial
  · exact incr z d
  · trivial

theorem cmdZAdd_sound : (cmdZAdd v args : Op S _).Sound (Proper ok) Prod.snd := by
  unfold cmdZAdd
  split
  · split
    · exact sound_ret _
    · split
      · exact sound_ret _
      · split
        · exact zIncrBy_sound _ _ _ _ fun _ => rfl
        · exact zAddMulti_sound _ _ _ fun _ _ h => decide_eq_true h
  · exact sound_ret _

theorem cmdZIncrBy_sound : (cmdZIncrBy v args : Op S _).Sound (Proper ok) Prod.snd := by
  unfold cmdZIncrBy
  split
  · split
    · exact sound_ret _
    · exact zIncrBy_sound _ _ _ _ fun _ => rfl
  · exact sound_ret _

theorem zRemAll_spec (r : ZSet S × ℤ) (members : List Bytes) :
    r.2 ≤ (zRemAll r members).2 ∧
      ((zRemAll r members).2 = r.2 → (zRemAll r members).1 = r.1) := by
  induction members generalizing r with
  | nil => exact ⟨le_refl _, fun _ => rfl⟩
  | cons m ms ih =>
    obtain ⟨z, removed⟩ := r
    by_cases hm : (z.score m).isSome = true
    · obtain ⟨hle, hsame⟩ := ih (z.erase m, removed + 1)
      have hstep : zRemAll (z, removed) (m :: ms) = zRemAll (z.erase m, removed + 1) ms := by
        simp [zRemAll, ZSet.remove, hm]
      rw [hstep]
      exact ⟨by dsimp only at *; omega, fun heq => by dsimp only at *; omega⟩
    · have hstep : zRemAll (z, removed) (m :: ms) = zRemAll (z, removed) ms := by
        simp [zRemAll, ZSet.remove, hm]
      rw [hstep]
      exact ih (z, removed)

theorem cmdZRem_sound : (cmdZRem v args : Op S _).Sound (Proper ok) Prod.snd := by
  unfold cmdZRem
  split
  · rename_i members
    apply sound_map
    apply sound_edit
    rintro (_ | ⟨_ | _ | _ | _ | z | _, d⟩) he
    · trivial
    · trivial
    · trivial
    · trivial
    · trivial
    · obtain ⟨hle, hsame⟩ := zRemAll_spec (z, 0) members
      apply zsetEdit_sound (he _ rfl)
      rcases lt_or_eq_of_le hle with hlt | heq
      · exact .inl (decide_eq_true hlt)
      · exact .inr (hsame heq.symm)
    · trivial
  · exact sound_ret _

theorem zRemRange_sound (k : Loc) (pick : List (S × Bytes) → List (S × Bytes)) :
    (countReply <$> zRemRange k pick : Op S _).Sound (Proper ok) Prod.snd := by
  apply sound_map
  apply sound_edit
  rintro (_ | ⟨_ | _ | _ | _ | z | _, d⟩) he
  · trivial
  · trivial
  · trivial
  · trivial
  · trivial
  · apply zsetEdit_sound (he _ rfl)
    cases pick z.nodes with
    | nil => exact .inr rfl
    | cons n ns => exact .inl (decide_eq_true (by simp))
  · trivial

theorem cmdZRemRangeByRank_sound :
    (cmdZRemRangeByRank v args : Op S _).Sound (Proper ok) Prod.snd := by
  unfold cmdZRemRangeByRank
  split
  · split
    · exact zRemRange_sound _ _
    · exact sound_ret _
  · exact sound_ret _

theorem cmdZRemRangeByScore_sound :
    (cmdZRemRangeByScore v args : Op S _).Sound (Proper ok) Prod.snd := by
  unfold cmdZRemRangeByScore
  split
  · split
    · exact sound_ret _
    · exact zRemRange_sound _ _
  · exact sound_ret _

theorem cmdZRemRangeByLex_sound :
    (cmdZRemRangeByLex v args : Op S _).Sound (Proper ok) Prod.snd := by
  unfold cmdZRemRangeByLex
  split
  · split
    · exact zRemRange_sound _ _
    · exact sound_ret _
  · exact sound_ret _

theorem replaceZSet_keeps (dst : Loc) (z : ZSet S) : (replaceZSet dst z).Keeps (Proper ok) := by
  unfold replaceZSet
  split
  · exact keeps_drop (keeps_ret _)
  · rename_i hne
    have hz : Proper ok (⟨.zset z, none⟩ : Entry S) := by simpa using hne
    exact keeps_put hz (keeps_ret _)

theorem replaceZSet_sound (dst : Loc) (z : ZSet S) :
    (Except.ok <$> replaceZSet dst z : Op S (Except StoreErr ℤ)).Sound (Proper ok)
      fun r => (storeReply r).2 := by
  apply sound_of_dirty
  · exact keeps_map (replaceZSet_keeps dst z) _
  · intro vis s
    rw [run_map]
    rfl

theorem cmdZRangeStore_sound : (cmdZRangeStore v args : Op S _).Sound (Proper ok) Prod.snd := by
  unfold cmdZRangeStore
  split
  · split
    · exact sound_ret _
    · apply sound_map
      apply sound_read
      rintro (_ | ⟨_ | _ | _ | _ | z | _, d⟩) _
      · exact replaceZSet_sound _ _
      · exact sound_ret _
      · exact sound_ret _
      · exact sound_ret _
      · exact sound_ret _
      · exact replaceZSet_sound _ _
      · exact sound_ret _
  · exact sound_ret _

theorem readScored_readOnly (keys : List Loc) :
    (readScored keys : Op S (Except StoreErr (List (Scored S)))).ReadOnly := by
  induction keys with
  | nil => trivial
  | cons k ks ih =>
    intro e
    dsimp only
    cases scoredOf e with
    | error err => trivial
    | ok x => exact readOnly_map ih _

theorem cmdZCombineStore_sound (kind : ZCombineKind) :
    (cmdZCombineStore kind v args : Op S _).Sound (Proper ok) Prod.snd := by
  unfold cmdZCombineStore
  split
  · split
    · exact sound_ret _
    · apply sound_map
      unfold zCombineStore
      split
      · exact sound_ret _
      · apply sound_bind_readOnly (readScored_readOnly _)
        rintro (err | xs)
        · exact sound_ret _
        · exact replaceZSet_sound _ _
  · exact sound_ret _

theorem cmdZCard_readOnly (env : Env) : (cmdZCard v env args : Op S Reply).ReadOnly := by
  unfold cmdZCard
  split
  · rintro (_ | ⟨_ | _ | _ | _ | _ | _, d⟩) <;> trivial
  · trivial

end Soundness

variable {ok : Data.Stream → Prop} {T : Table S} {v : View} (hT : T (ascii "ZREM") = some ⟨-3, .write cmdZRem⟩)
include hT

/-- What an edit of a sorted set leaves, the shipped ZREM leaves too. -/
theorem zrem_assigns (key : Bytes) {members : List Bytes} (hne : members ≠ []) (env : Env)
    (z : ZSet S) (d : Option ℤ) :
    (T.applyCommand v env (ascii "ZREM" :: key :: members)).Assigns (v.loc key)
      (some ⟨.zset z, d⟩)
      (if (zRemAll (z, 0) members).1.nodes.isEmpty then none
        else some ⟨.zset (zRemAll (z, 0) members).1, d⟩) := by
  have hT' : T (toUpper (ascii "ZREM")) = some ⟨-3, .write cmdZRem⟩ := hT
  refine assigns_write hT' (arityOK_members key hne) env (assigns_map ?_ _)
  exact assigns_unless (a := .ok (zRemAll (z, 0) members).2) rfl

omit hT in
theorem zrem_ordinary (key : Bytes) (members : List Bytes) :
    ordinary (ascii "ZREM" :: key :: members) = true := by
  simp only [ordinary]
  decide

/-- A pop either takes nothing, puts the set back and goes on, or ends by shipping
the ZREM of what it took. -/
theorem zPop_attempt {β : Type} {key : Bytes} {count : ℤ} {fromMin : Bool}
    {next : Except StoreErr (List (S × Bytes)) → Op S (β × List Args)}
    (herr : ∀ err, Reproduces ok T v (next (.error err))) (hnil : Reproduces ok T v (next (.ok [])))
    (hcons : ∀ ms, ms ≠ [] → ms.length ≤ count.toNat → ∃ b,
      next (.ok ms) = .ret (b, [ascii "ZREM" :: key :: ms.map Prod.snd])) :
    Reproduces ok T v (zPop (v.loc key) count fromMin >>= next) := by
  apply reproduces_attempt
  rintro (_ | ⟨_ | _ | _ | _ | z | _, d⟩) he
  · exact hnil
  · exact herr _
  · exact herr _
  · exact herr _
  · exact herr _
  · have hz : z.nodes ≠ [] := he _ rfl
    dsimp only
    have hlen := List.length_take_le count.toNat (if fromMin then z.nodes else z.nodes.reverse)
    generalize (if fromMin then z.nodes else z.nodes.reverse).take count.toNat = popped at hlen
    cases popped with
    | nil =>
      unfold zsetEdit
      rw [if_neg (by simpa [zRemAll] using hz)]
      exact ⟨hz, .inl ⟨rfl, hnil⟩⟩
    | cons m ms =>
      obtain ⟨b, hb⟩ := hcons (m :: ms) (by simp) hlen
      have hT' : T (toUpper (ascii "ZREM")) = some ⟨-3, .write cmdZRem⟩ := hT
      exact attempt_unless (by simp) hb ⟨_, rfl, zrem_ordinary key _,
        timeless_write (resolve_cons hT' (arityOK_members key (by simp))),
        fun env => zrem_assigns hT key (by simp) env z d⟩
  · exact herr _

theorem zpop_reproduces (fromMin : Bool) (count : ℤ) (key : Bytes) :
    Reproduces ok T v (zpop fromMin count v key : Op S (Reply × List Args)) := by
  apply zPop_attempt hT
  · exact fun err => reproduces_ret _
  · exact reproduces_ret _
  · intro ms hms _
    exact ⟨_, congrArg _ (congrArg _ (removalEffect_cons "ZREM" key (by simpa using hms)))⟩

theorem cmdZPop_reproduces (fromMin : Bool) (env : Env) (args : Args) :
    Reproduces ok T v (cmdZPop fromMin v env args : Op S (Reply × List Args)) := by
  unfold cmdZPop
  split
  · exact zpop_reproduces hT _ _ _
  · split
    · exact reproduces_ret _
    · split
      · exact reproduces_ret _
      · exact zpop_reproduces hT _ _ _
  · exact reproduces_ret _
  · exact reproduces_ret _

theorem blockingZPops_reproduces (fromMin : Bool) (keys : List Bytes) :
    Reproduces ok T v (blockingZPops fromMin v keys : Op S (Option Reply × List Args)) := by
  induction keys with
  | nil => exact reproduces_ret _
  | cons key keys ih =>
    apply zPop_attempt hT
    · exact fun err => reproduces_ret _
    · exact ih
    · rintro (_ | ⟨m, _ | ⟨m', ms⟩⟩) hms hlen
      · exact absurd rfl hms
      · exact ⟨_, rfl⟩
      · -- one element was asked for
        simp at hlen

theorem mPopZSets_reproduces (o : MPopOpts) (keys : List Bytes) :
    Reproduces ok T v (mPopZSets o v keys : Op S (Option Reply × List Args)) := by
  induction keys with
  | nil => exact reproduces_ret _
  | cons key keys ih =>
    apply zPop_attempt hT
    · exact fun err => reproduces_ret _
    · exact ih
    · rintro (_ | ⟨m, ms⟩) hms _
      · exact absurd rfl hms
      · exact ⟨_, rfl⟩

theorem zsetMPop_reproduces (operands : List Bytes) :
    Reproduces ok T v (zsetMPop v operands : Op S (Option Reply × List Args)) := by
  unfold zsetMPop
  split
  · exact reproduces_ret _
  · exact mPopZSets_reproduces hT _ _

theorem cmdZMPop_reproduces (env : Env) (args : Args) :
    Reproduces ok T v (cmdZMPop v env args : Op S (Reply × List Args)) :=
  (zsetMPop_reproduces hT args.tail).map fun r => r.getD .nullArray

end ShardKV.Commands
