import ShardKV.Commands.Strings

/-! The list commands and the blocking pops. A list is a sequence with its head
on the left. A list that a command empties is removed with its key. -/

namespace ShardKV.Commands

open Access Data Resp Server Decimal Prog

variable {S : Type} [Numeric S]

/-- `normalizeRange`: the inclusive bounds of a range, or nothing when it is empty. -/
def normalizeRange (n : ℕ) (start stop : ℤ) : Option (ℕ × ℕ) :=
  let start := max (if start < 0 then start + n else start) 0
  let stop := if stop < 0 then stop + n else stop
  let stop := if (n : ℤ) ≤ stop then (n : ℤ) - 1 else stop
  if stop < start ∨ n = 0 then none else some (start.toNat, stop.toNat)

/-- `deque.at`: the position an index names. -/
def position (l : List Bytes) (i : ℤ) : Option ℕ :=
  let i := if i < 0 then i + l.length else i
  if i < 0 ∨ (l.length : ℤ) ≤ i then none else some i.toNat

def popFrom (left : Bool) (l : List Bytes) : Option (Bytes × List Bytes) :=
  if left then
    match l with
    | [] => none
    | x :: xs => some (x, xs)
  else
    match l.reverse with
    | [] => none
    | x :: xs => some (x, xs.reverse)

def pushTo (left : Bool) (l : List Bytes) (x : Bytes) : List Bytes :=
  if left then x :: l else l ++ [x]

/-- Up to `n` pops from one end: what was popped, in order, and what is left. -/
def popMany (left : Bool) (n : ℕ) (l : List Bytes) : List Bytes × List Bytes :=
  if left then (l.take n, l.drop n) else (l.reverse.take n, (l.reverse.drop n).reverse)

/-- `deque.insertAt`: nothing when the pivot does not occur. -/
def insertAt (pivot val : Bytes) (before : Bool) : List Bytes → Option (List Bytes)
  | [] => none
  | x :: xs =>
    if x = pivot then some (if before then val :: x :: xs else x :: val :: xs)
    else (insertAt pivot val before xs).map (x :: ·)

/-- Drop the first `limit` occurrences of a value. -/
def removeHead (val : Bytes) : ℕ → List Bytes → List Bytes
  | _, [] => []
  | 0, l => l
  | limit + 1, x :: xs =>
    if x = val then removeHead val limit xs else x :: removeHead val (limit + 1) xs

/-- `deque.removeVal`: all occurrences, the first `count`, or the last `-count`. -/
def removeVal (count : ℤ) (val : Bytes) (l : List Bytes) : List Bytes :=
  if count = 0 then l.filter (· ≠ val)
  else if 0 < count then removeHead val count.toNat l
  else (removeHead val (-count).toNat l.reverse).reverse

/-- `deque.trim`. -/
def trimList (start stop : ℤ) (l : List Bytes) : List Bytes :=
  match normalizeRange l.length start stop with
  | none => []
  | some (i, j) => (l.drop i).take (j - i + 1)

/-- Replace the list of an entry, removing the key when the list is empty. -/
def listEdit {α : Type} (expireAt : Option ℤ) (l : List Bytes) (a : α) : Edit (Entry S) α :=
  if l.isEmpty then .drop a else .put ⟨.list l, expireAt⟩ a

/-- `listPushMaybe`: the new length. -/
def listPushMaybe (k : Loc) (left : Bool) (vals : List Bytes) (requireExisting : Bool) :
    Op S (Except StoreErr ℤ) :=
  edit k fun
    | some ⟨.list l, expireAt⟩ =>
      let l := vals.foldl (pushTo left) l
      .put ⟨.list l, expireAt⟩ (.ok l.length)
    | some _ => .keep (.error .wrongType)
    | none =>
      if requireExisting then .keep (.ok 0)
      else
        let l := vals.foldl (pushTo left) []
        .put ⟨.list l, none⟩ (.ok l.length)

/-- `LPop` and `RPop`. -/
def listPop (k : Loc) (left : Bool) : Op S (Except StoreErr (Option Bytes)) :=
  edit k fun
    | none => .keep (.ok none)
    | some ⟨.list l, expireAt⟩ =>
      match popFrom left l with
      | none => .drop (.ok none)
      | some (x, l) => listEdit expireAt l (.ok (some x))
    | some _ => .keep (.error .wrongType)

/-- `LPopCount`: nothing when the key is missing. -/
def lPopCount (k : Loc) (n : ℤ) (left : Bool) : Op S (Except StoreErr (Option (List Bytes))) :=
  edit k fun
    | none => .keep (.ok none)
    | some ⟨.list l, expireAt⟩ =>
      let (vals, l) := popMany left n.toNat l
      listEdit expireAt l (.ok (some vals))
    | some _ => .keep (.error .wrongType)

def lSet (k : Loc) (index : ℤ) (val : Bytes) : Op S (Except StoreErr Unit) :=
  edit k fun
    | none => .keep (.error .noSuchKey)
    | some ⟨.list l, expireAt⟩ =>
      match position l index with
      | none => .keep (.error .indexOutOfRange)
      | some i => .put ⟨.list (l.set i val), expireAt⟩ (.ok ())
    | some _ => .keep (.error .wrongType)

/-- `LInsert`: the new length, or -1. -/
def lInsert (k : Loc) (before : Bool) (pivot val : Bytes) : Op S (Except StoreErr ℤ) :=
  edit k fun
    | none => .keep (.ok 0)
    | some ⟨.list l, expireAt⟩ =>
      match insertAt pivot val before l with
      | none => .keep (.ok (-1))
      | some l => .put ⟨.list l, expireAt⟩ (.ok l.length)
    | some _ => .keep (.error .wrongType)

/-- `LRem`: how many were removed. -/
def lRem (k : Loc) (count : ℤ) (val : Bytes) : Op S (Except StoreErr ℤ) :=
  edit k fun
    | none => .keep (.ok 0)
    | some ⟨.list l, expireAt⟩ =>
      let l' := removeVal count val l
      listEdit expireAt l' (.ok (l.length - l'.length))
    | some _ => .keep (.error .wrongType)

/-- `LTrim`: whether the length changed. -/
def lTrim (k : Loc) (start stop : ℤ) : Op S (Except StoreErr Bool) :=
  edit k fun
    | none => .keep (.ok false)
    | some ⟨.list l, expireAt⟩ =>
      let l' := trimList start stop l
      listEdit expireAt l' (.ok (l'.length != l.length))
    | some _ => .keep (.error .wrongType)

/-- The list an entry holds, the empty one for no entry. -/
def listOf : Option (Entry S) → Except StoreErr (List Bytes × Option ℤ)
  | some ⟨.list l, expireAt⟩ => .ok (l, expireAt)
  | some _ => .error .wrongType
  | none => .ok ([], none)

def lMove (src dst : Loc) (srcLeft dstLeft : Bool) : Op S (Except StoreErr (Option Bytes)) :=
  if src = dst then
    edit src fun
      | none => .keep (.ok none)
      | some ⟨.list l, expireAt⟩ =>
        match popFrom srcLeft l with
        | none => .keep (.ok none)
        | some (x, l) => .put ⟨.list (pushTo dstLeft l x), expireAt⟩ (.ok (some x))
      | some _ => .keep (.error .wrongType)
  else
    .read src fun
      | none => pure (.ok none)
      | some ⟨.list l, expireAt⟩ => .read dst fun de =>
        match listOf de with
        | .error err => pure (.error err)
        | .ok (dl, dExpireAt) =>
          match popFrom srcLeft l with
          | none => pure (.ok none)
          | some (x, l) =>
            .write dst (some ⟨.list (pushTo dstLeft dl x), dExpireAt⟩)
              (.write src (if l.isEmpty then none else some ⟨.list l, expireAt⟩)
                (pure (.ok (some x))))
      | some _ => pure (.error .wrongType)

def wrongArgsErr (name : Bytes) : Reply :=
  .error (ascii "ERR wrong number of arguments for '" ++ toLower name ++ ascii "' command")

def notPositiveErr : Reply := errorReply "ERR value is out of range, must be positive"

/-- LPUSH and RPUSH. -/
def push (left : Bool) (v : View) : Args → Op S (Reply × Bool)
  | _ :: key :: vals => intReply <$> listPushMaybe (v.loc key) left vals false
  | _ => pure (syntaxErr, false)

def cmdLPush : View → Args → Op S (Reply × Bool) := push true

def cmdRPush : View → Args → Op S (Reply × Bool) := push false

/-- The reply of a write that changed something when its integer is positive. -/
def countReply (r : Except StoreErr ℤ) : Reply × Bool :=
  match r with
  | .error err => (storeErrReply err, false)
  | .ok n => (.int n, decide (0 < n))

def pushX (left : Bool) (v : View) : Args → Op S (Reply × Bool)
  | _ :: key :: vals => countReply <$> listPushMaybe (v.loc key) left vals true
  | _ => pure (syntaxErr, false)

def cmdLPushX : View → Args → Op S (Reply × Bool) := pushX true

def cmdRPushX : View → Args → Op S (Reply × Bool) := pushX false

/-- The reply of a pop or a move: the element, or null. -/
def popReply (r : Except StoreErr (Option Bytes)) : Reply × Bool :=
  match r with
  | .error err => (storeErrReply err, false)
  | .ok (some x) => (.bulk x, true)
  | .ok none => (.null, false)

def popCountReply (r : Except StoreErr (Option (List Bytes))) : Reply × Bool :=
  match r with
  | .error err => (storeErrReply err, false)
  | .ok none => (.nullArray, false)
  | .ok (some vals) => (.array (vals.map .bulk), !vals.isEmpty)

/-- LPOP and RPOP. -/
def cmdPop (left : Bool) (v : View) : Args → Op S (Reply × Bool)
  | [_, key] => popReply <$> listPop (v.loc key) left
  | [_, key, count] =>
    match parseInt64 count with
    | none => pure (notIntegerErr, false)
    | some n =>
      if n < 0 then pure (notPositiveErr, false)
      else popCountReply <$> lPopCount (v.loc key) n left
  | name :: _ => pure (wrongArgsErr name, false)
  | [] => pure (syntaxErr, false)

def cmdLPop : View → Args → Op S (Reply × Bool) := cmdPop true

def cmdRPop : View → Args → Op S (Reply × Bool) := cmdPop false

def cmdLSet (v : View) : Args → Op S (Reply × Bool)
  | [_, key, index, val] =>
    match parseInt64 index with
    | none => pure (notIntegerErr, false)
    | some i =>
      (fun
        | .error err => (storeErrReply err, false)
        | .ok () => (.simple "OK", true)) <$> lSet (v.loc key) i val
  | _ => pure (syntaxErr, false)

def cmdLInsert (v : View) : Args → Op S (Reply × Bool)
  | [_, key, place, pivot, val] =>
    if isWord place "BEFORE" then countReply <$> lInsert (v.loc key) true pivot val
    else if isWord place "AFTER" then countReply <$> lInsert (v.loc key) false pivot val
    else pure (syntaxErr, false)
  | _ => pure (syntaxErr, false)

def cmdLRem (v : View) : Args → Op S (Reply × Bool)
  | [_, key, count, val] =>
    match parseInt64 count with
    | none => pure (notIntegerErr, false)
    | some n => countReply <$> lRem (v.loc key) n val
  | _ => pure (syntaxErr, false)

def cmdLTrim (v : View) : Args → Op S (Reply × Bool)
  | [_, key, start, stop] =>
    match parseInt64 start, parseInt64 stop with
    | some i, some j =>
      (fun
        | .error err => (storeErrReply err, false)
        | .ok changed => (.simple "OK", changed)) <$> lTrim (v.loc key) i j
    | _, _ => pure (notIntegerErr, false)
  | _ => pure (syntaxErr, false)

def listSide (b : Bytes) : Option Bool :=
  if isWord b "LEFT" then some true else if isWord b "RIGHT" then some false else none

def cmdRPopLPush (v : View) : Args → Op S (Reply × Bool)
  | [_, src, dst] => popReply <$> lMove (v.loc src) (v.loc dst) false true
  | _ => pure (syntaxErr, false)

def cmdLMove (v : View) : Args → Op S (Reply × Bool)
  | [_, src, dst, srcSide, dstSide] =>
    match listSide srcSide, listSide dstSide with
    | some srcLeft, some dstLeft => popReply <$> lMove (v.loc src) (v.loc dst) srcLeft dstLeft
    | _, _ => pure (syntaxErr, false)
  | _ => pure (syntaxErr, false)

def cmdLLen (v : View) (_ : Env) : Args → Op S Reply
  | [_, key] => .read (v.loc key) fun e =>
    match listOf e with
    | .error err => pure (storeErrReply err)
    | .ok (l, _) => pure (.int l.length)
  | _ => pure syntaxErr

def popCommand (left : Bool) : Bytes := if left then ascii "LPOP" else ascii "RPOP"

/-- The keys of BLPOP and BRPOP tried in order. -/
def blockingPops (left : Bool) (v : View) : List Bytes → Op S (Option Reply × List Args)
  | [] => pure (none, [])
  | key :: keys => do
    match ← listPop (v.loc key) left with
    | .error err => pure (some (storeErrReply err), [])
    | .ok none => blockingPops left v keys
    | .ok (some x) => pure (some (.array [.bulk key, .bulk x]), [[popCommand left, key]])

/-- BLPOP and BRPOP: the last argument is the timeout. -/
def blockingListPop (left : Bool) (v : View) (_ : Env) (args : Args) :
    Op S (Option Reply × List Args) :=
  blockingPops left v args.tail.dropLast

def blockingMove (v : View) (src dst : Bytes) (srcLeft dstLeft : Bool) (effect : Args) :
    Op S (Option Reply × List Args) :=
  (fun
    | .error err => (some (storeErrReply err), [])
    | .ok none => (none, [])
    | .ok (some x) => (some (.bulk x), [effect])) <$> lMove (v.loc src) (v.loc dst) srcLeft dstLeft

def blockingLMove (v : View) (_ : Env) : Args → Op S (Option Reply × List Args)
  | [_, src, dst, srcSide, dstSide, _] =>
    match listSide srcSide, listSide dstSide with
    | some srcLeft, some dstLeft =>
      blockingMove v src dst srcLeft dstLeft [ascii "LMOVE", src, dst, srcSide, dstSide]
    | _, _ => pure (some syntaxErr, [])
  | _ => pure (some syntaxErr, [])

def blockingRPopLPush (v : View) (_ : Env) : Args → Op S (Option Reply × List Args)
  | [_, src, dst, _] => blockingMove v src dst false true [ascii "RPOPLPUSH", src, dst]
  | _ => pure (some syntaxErr, [])

/-- The operands of LMPOP, ZMPOP and their blocking forms. -/
structure MPopOpts where
  keys : List Bytes
  first : Bool
  count : ℤ

/-- `parseMPop`, from the key count on; the two words name the ends. -/
def parseMPop (first second : String) : List Bytes → Except Reply MPopOpts
  | [] => .error syntaxErr
  | numkeys :: rest =>
    match parseInt64 numkeys with
    | none => .error (errorReply "ERR numkeys should be greater than 0")
    | some n =>
      if n ≤ 0 then .error (errorReply "ERR numkeys should be greater than 0")
      else
        match rest.drop n.toNat with
        | [] => .error syntaxErr
        | dir :: tail =>
          let keys := rest.take n.toNat
          let side : Option Bool :=
            if equalFold dir first then some true
            else if equalFold dir second then some false
            else none
          match side, tail with
          | none, _ => .error syntaxErr
          | some side, [] => .ok ⟨keys, side, 1⟩
          | some side, [word, count] =>
            if !equalFold word "COUNT" then .error syntaxErr
            else
              match parseInt64 count with
              | none => .error (errorReply "ERR count should be greater than 0")
              | some c =>
                if c ≤ 0 then .error (errorReply "ERR count should be greater than 0")
                else .ok ⟨keys, side, c⟩
          | some _, _ => .error syntaxErr

/-- The keys of LMPOP tried in order. -/
def mPopLists (o : MPopOpts) (v : View) : List Bytes → Op S (Option Reply × List Args)
  | [] => pure (none, [])
  | key :: keys => do
    match ← lPopCount (v.loc key) o.count o.first with
    | .error err => pure (some (storeErrReply err), [])
    | .ok none => mPopLists o v keys
    | .ok (some vals) =>
      if vals.isEmpty then mPopLists o v keys
      else
        pure (some (.array [.bulk key, .array (vals.map .bulk)]),
          [[popCommand o.first, key, itoa vals.length]])

/-- `listMPop`, on the arguments from the key count on. -/
def listMPop (v : View) (operands : List Bytes) : Op S (Option Reply × List Args) :=
  match parseMPop "LEFT" "RIGHT" operands with
  | .error r => pure (some r, [])
  | .ok o => mPopLists o v o.keys

def cmdLMPop (v : View) (args : Args) : Op S (Reply × Bool) :=
  (fun r => (r.1.getD .nullArray, !r.2.isEmpty)) <$> listMPop v args.tail

def blockingLMPop (v : View) (_ : Env) (args : Args) : Op S (Option Reply × List Args) :=
  listMPop v args.tail.tail

section Soundness

variable {ok : Data.Stream → Prop} (v : View) (args : Args)

theorem pushTo_ne_nil (left : Bool) (l : List Bytes) (x : Bytes) : pushTo left l x ≠ [] := by
  unfold pushTo
  split <;> simp

theorem foldl_pushTo_ne_nil (left : Bool) {l vals : List Bytes} (h : l ≠ [] ∨ vals ≠ []) :
    vals.foldl (pushTo left) l ≠ [] := by
  induction vals generalizing l with
  | nil => simpa using h
  | cons x xs ih => exact ih (.inl (pushTo_ne_nil left l x))

theorem push_sound (left : Bool) (h : 3 ≤ args.length) :
    (push left v args : Op S _).Sound (Proper ok) Prod.snd := by
  unfold push
  split
  · rename_i key vals
    have hvals : vals ≠ [] := by
      rintro rfl
      simp at h
    apply sound_map
    apply sound_edit
    rintro (_ | ⟨_ | l | _ | _ | _ | _, d⟩) _
    · exact ⟨foldl_pushTo_ne_nil left (.inr hvals), .inl rfl⟩
    · trivial
    · exact ⟨foldl_pushTo_ne_nil left (.inr hvals), .inl rfl⟩
    all_goals trivial
  · exact sound_ret _

theorem pushX_sound (left : Bool) (h : 3 ≤ args.length) :
    (pushX left v args : Op S _).Sound (Proper ok) Prod.snd := by
  unfold pushX
  split
  · rename_i key vals
    have hvals : vals ≠ [] := by
      rintro rfl
      simp at h
    apply sound_map
    apply sound_edit
    rintro (_ | ⟨_ | l | _ | _ | _ | _, d⟩) _
    · trivial
    · trivial
    · have hne : vals.foldl (pushTo left) l ≠ [] := foldl_pushTo_ne_nil left (.inr hvals)
      exact ⟨hne, .inl (by simpa [countReply] using List.length_pos_iff.mpr hne)⟩
    all_goals trivial
  · exact sound_ret _

/-- An edit that stores a list or removes its key is sound when it reports a
change, or stores what was there. -/
theorem listEdit_sound {α : Type} {dirty : α → Bool} {d : Option ℤ} {l l' : List Bytes} {a : α}
    (hl : l ≠ []) (h : dirty a = true ∨ l' = l) :
    (listEdit d l' a : Edit (Entry S) α).Sound (Proper ok) dirty (some ⟨.list l, d⟩) := by
  apply Edit.sound_unless
  · simp
  · refine h.imp_right ?_
    rintro rfl
    exact ⟨by simpa using hl, rfl⟩

theorem popFrom_ne_none {left : Bool} {l : List Bytes} (hl : l ≠ []) : popFrom left l ≠ none := by
  unfold popFrom
  split
  · cases l with
    | nil => exact absurd rfl hl
    | cons x xs => simp
  · cases hr : l.reverse with
    | nil => exact absurd (List.reverse_eq_nil_iff.mp hr) hl
    | cons x xs => simp

theorem listPop_sound (k : Loc) (left : Bool) :
    (popReply <$> listPop k left : Op S _).Sound (Proper ok) Prod.snd := by
  apply sound_map
  apply sound_edit
  rintro (_ | ⟨_ | l | _ | _ | _ | _, d⟩) he
  · trivial
  · trivial
  · have hl : l ≠ [] := he _ rfl
    dsimp only
    cases hp : popFrom left l with
    | none => exact absurd hp (popFrom_ne_none hl)
    | some p => exact listEdit_sound hl (.inl rfl)
  all_goals trivial

/-- Popping nothing leaves the list as it was. -/
theorem popMany_nil {left : Bool} {n : ℕ} {l : List Bytes} (h : (popMany left n l).1 = []) :
    (popMany left n l).2 = l := by
  unfold popMany at h ⊢
  cases left with
  | true =>
    rcases List.take_eq_nil_iff.mp h with rfl | rfl
    · simp
    · simp
  | false =>
    rcases List.take_eq_nil_iff.mp h with rfl | hl
    · simp
    · simp [List.reverse_eq_nil_iff.mp hl]

theorem lPopCount_sound (k : Loc) (n : ℤ) (left : Bool) :
    (popCountReply <$> lPopCount k n left : Op S _).Sound (Proper ok) Prod.snd := by
  apply sound_map
  apply sound_edit
  rintro (_ | ⟨_ | l | _ | _ | _ | _, d⟩) he
  · trivial
  · trivial
  · apply listEdit_sound (he _ rfl)
    by_cases hnil : (popMany left n.toNat l).1 = []
    · exact .inr (popMany_nil hnil)
    · refine .inl ?_
      show (!(popMany left n.toNat l).1.isEmpty) = true
      simpa using hnil
  all_goals trivial

theorem cmdPop_sound (left : Bool) :
    (cmdPop left v args : Op S _).Sound (Proper ok) Prod.snd := by
  unfold cmdPop
  split
  · exact listPop_sound _ _
  · split
    · exact sound_ret _
    · split
      · exact sound_ret _
      · exact lPopCount_sound _ _ _
  · exact sound_ret _
  · exact sound_ret _

theorem cmdLSet_sound : (cmdLSet v args : Op S _).Sound (Proper ok) Prod.snd := by
  unfold cmdLSet
  split
  · split
    · exact sound_ret _
    · rename_i i _
      apply sound_map
      apply sound_edit
      rintro (_ | ⟨_ | l | _ | _ | _ | _, d⟩) he
      · trivial
      · trivial
      · have hl : l ≠ [] := he _ rfl
        dsimp only
        cases position l i with
        | none => trivial
        | some j => exact ⟨by simpa using hl, .inl rfl⟩
      all_goals trivial
  · exact sound_ret _

theorem insertAt_ne_nil {pivot val : Bytes} {before : Bool} {l l' : List Bytes}
    (h : insertAt pivot val before l = some l') : l' ≠ [] := by
  cases l with
  | nil => exact absurd h (by simp [insertAt])
  | cons x xs =>
    unfold insertAt at h
    split at h
    · rw [← Option.some.inj h]
      split <;> simp
    · obtain ⟨ys, -, rfl⟩ := Option.map_eq_some_iff.mp h
      simp

theorem lInsert_sound (k : Loc) (before : Bool) (pivot val : Bytes) :
    (countReply <$> lInsert k before pivot val : Op S _).Sound (Proper ok) Prod.snd := by
  apply sound_map
  apply sound_edit
  rintro (_ | ⟨_ | l | _ | _ | _ | _, d⟩) _
  · trivial
  · trivial
  · dsimp only
    cases hi : insertAt pivot val before l with
    | none => trivial
    | some l' =>
      have hne := insertAt_ne_nil hi
      exact ⟨hne, .inl (by simpa [countReply] using List.length_pos_iff.mpr hne)⟩
  all_goals trivial

theorem cmdLInsert_sound : (cmdLInsert v args : Op S _).Sound (Proper ok) Prod.snd := by
  unfold cmdLInsert
  split
  · split
    · exact lInsert_sound _ _ _ _
    · split
      · exact lInsert_sound _ _ _ _
      · exact sound_ret _
  · exact sound_ret _

theorem removeHead_sublist (val : Bytes) (limit : ℕ) (l : List Bytes) :
    (removeHead val limit l).Sublist l := by
  induction l generalizing limit with
  | nil => simp [removeHead]
  | cons x xs ih =>
    cases limit with
    | zero => exact List.Sublist.refl _
    | succ limit =>
      unfold removeHead
      split
      · exact (ih limit).cons x
      · exact (ih (limit + 1)).cons_cons x

theorem removeVal_sublist (count : ℤ) (val : Bytes) (l : List Bytes) :
    (removeVal count val l).Sublist l := by
  unfold removeVal
  split_ifs
  · exact List.filter_sublist
  · exact removeHead_sublist _ _ _
  · have h := (removeHead_sublist val (-count).toNat l.reverse).reverse
    rwa [List.reverse_reverse] at h

theorem cmdLRem_sound : (cmdLRem v args : Op S _).Sound (Proper ok) Prod.snd := by
  unfold cmdLRem
  split
  · rename_i val
    split
    · exact sound_ret _
    · rename_i n _
      apply sound_map
      apply sound_edit
      rintro (_ | ⟨_ | l | _ | _ | _ | _, d⟩) he
      · trivial
      · trivial
      · have hsub := removeVal_sublist n val l
        apply listEdit_sound (he _ rfl)
        by_cases hlen : (removeVal n val l).length < l.length
        · exact .inl (by simpa [countReply] using hlen)
        · exact .inr (hsub.eq_of_length_le (not_lt.mp hlen))
      all_goals trivial
  · exact sound_ret _

theorem trimList_sublist (start stop : ℤ) (l : List Bytes) : (trimList start stop l).Sublist l := by
  unfold trimList
  split
  · exact List.nil_sublist l
  · exact (List.take_sublist _ _).trans (List.drop_sublist _ _)

theorem cmdLTrim_sound : (cmdLTrim v args : Op S _).Sound (Proper ok) Prod.snd := by
  unfold cmdLTrim
  split
  · split
    · rename_i i j _ _
      apply sound_map
      apply sound_edit
      rintro (_ | ⟨_ | l | _ | _ | _ | _, d⟩) he
      · trivial
      · trivial
      · apply listEdit_sound (he _ rfl)
        by_cases hlen : (trimList i j l).length = l.length
        · exact .inr ((trimList_sublist i j l).eq_of_length hlen)
        · exact .inl (by simpa using hlen)
      all_goals trivial
    · exact sound_ret _
  · exact sound_ret _

theorem lMove_sound (src dst : Loc) (srcLeft dstLeft : Bool) :
    (lMove src dst srcLeft dstLeft : Op S _).Sound (Proper ok) fun r => (popReply r).2 := by
  unfold lMove
  split
  · apply sound_edit
    rintro (_ | ⟨_ | l | _ | _ | _ | _, d⟩) _
    · trivial
    · trivial
    · dsimp only
      cases popFrom srcLeft l with
      | none => trivial
      | some p => exact ⟨pushTo_ne_nil _ _ _, .inl rfl⟩
    all_goals trivial
  · apply sound_read
    rintro (_ | ⟨_ | l | _ | _ | _ | _, d⟩) _
    · exact sound_ret _
    · exact sound_ret _
    · apply sound_read
      intro de _
      cases listOf de with
      | error err => exact sound_ret _
      | ok dl =>
        dsimp only
        cases popFrom srcLeft l with
        | none => exact sound_ret _
        | some p =>
          obtain ⟨x, l'⟩ := p
          have hput : Proper ok (⟨.list (pushTo dstLeft dl.1 x), dl.2⟩ : Entry S) :=
            pushTo_ne_nil _ _ _
          apply sound_of_dirty
          · apply keeps_put hput
            refine keeps_write ?_ (keeps_ret _)
            intro x hx
            split at hx
            · exact absurd hx (by simp)
            · rename_i hne
              rw [← Option.some.inj hx]
              simpa using hne
          · exact fun _ _ => rfl
    all_goals exact sound_ret _

theorem cmdRPopLPush_sound : (cmdRPopLPush v args : Op S _).Sound (Proper ok) Prod.snd := by
  unfold cmdRPopLPush
  split
  · exact sound_map (lMove_sound _ _ _ _)
  · exact sound_ret _

theorem cmdLMove_sound : (cmdLMove v args : Op S _).Sound (Proper ok) Prod.snd := by
  unfold cmdLMove
  split
  · split
    · exact sound_map (lMove_sound _ _ _ _)
    · exact sound_ret _
  · exact sound_ret _

theorem cmdLLen_readOnly (env : Env) : (cmdLLen v env args : Op S Reply).ReadOnly := by
  unfold cmdLLen
  split
  · rintro (_ | ⟨_ | _ | _ | _ | _ | _, d⟩) <;> trivial
  · trivial

end Soundness

variable {ok : Data.Stream → Prop} {T : Table S} {v : View}
  (hL : T (ascii "LPOP") = some ⟨-2, .write cmdLPop⟩)
  (hR : T (ascii "RPOP") = some ⟨-2, .write cmdRPop⟩)

theorem popCommand_ordinary (left : Bool) (rest : List Bytes) :
    ordinary (popCommand left :: rest) = true := by
  simp only [ordinary]
  cases left <;> decide

include hL hR

theorem popCommand_lookup (left : Bool) :
    T (toUpper (popCommand left)) = some ⟨-2, .write (cmdPop left)⟩ := by
  cases left with
  | true => exact hL
  | false => exact hR

theorem blockingPops_reproduces (left : Bool) (keys : List Bytes) :
    Reproduces ok T v (blockingPops left v keys : Op S (Option Reply × List Args)) := by
  induction keys with
  | nil => exact reproduces_ret _
  | cons key keys ih =>
    apply reproduces_attempt
    rintro (_ | ⟨_ | l | _ | _ | _ | _, d⟩) he
    · exact ih
    · exact reproduces_ret _
    · dsimp only
      cases hp : popFrom left l with
      | none => exact absurd hp (popFrom_ne_none (he _ rfl))
      | some p =>
        refine attempt_unless (by simp) rfl ⟨_, rfl, popCommand_ordinary left _,
          timeless_write (resolve_cons (popCommand_lookup hL hR left) rfl), fun env => ?_⟩
        refine assigns_write (popCommand_lookup hL hR left) rfl env (assigns_map ?_ _)
        exact assigns_unless (a := .ok (some p.1)) (by simp only [hp, listEdit])
    all_goals exact reproduces_ret _

omit hL hR

/-- A blocking move ships the plain move of the same two keys. -/
theorem blockingMove_reproduces {src dst : Bytes} {srcLeft dstLeft : Bool} {name : Bytes}
    {rest : List Bytes} {arity : ℤ} {h : View → Args → Op S (Reply × Bool)}
    (hT : T (toUpper name) = some ⟨arity, .write h⟩)
    (ha : arityOK arity (rest.length + 1) = true) (hord : ordinary (name :: rest) = true)
    (hh : h v (name :: rest) = popReply <$> lMove (v.loc src) (v.loc dst) srcLeft dstLeft) :
    Reproduces ok T v (blockingMove v src dst srcLeft dstLeft (name :: rest)) := by
  refine reproduces_same (lMove_sound _ _ _ _) ?_ hord (timeless_write (resolve_cons hT ha)) ?_
  · rintro (err | _ | x) <;> rfl
  · intro env vis s
    rw [run_applyCommand (resolve_cons hT ha), run_apply_write, hh, run_map]

theorem blockingLMove_reproduces (hM : T (ascii "LMOVE") = some ⟨5, .write cmdLMove⟩) (env : Env)
    (args : Args) : Reproduces ok T v (blockingLMove v env args : Op S (Option Reply × List Args)) := by
  unfold blockingLMove
  split
  · split
    · rename_i hs hd
      have hM' : T (toUpper (ascii "LMOVE")) = some ⟨5, .write cmdLMove⟩ := hM
      refine blockingMove_reproduces hM' rfl (by simp only [ordinary]; decide) ?_
      simp only [cmdLMove, hs, hd]
    · exact reproduces_ret _
  · exact reproduces_ret _

theorem blockingRPopLPush_reproduces
    (hM : T (ascii "RPOPLPUSH") = some ⟨3, .write cmdRPopLPush⟩) (env : Env) (args : Args) :
    Reproduces ok T v (blockingRPopLPush v env args : Op S (Option Reply × List Args)) := by
  unfold blockingRPopLPush
  split
  · have hM' : T (toUpper (ascii "RPOPLPUSH")) = some ⟨3, .write cmdRPopLPush⟩ := hM
    exact blockingMove_reproduces hM' rfl (by simp only [ordinary]; decide) rfl
  · exact reproduces_ret _

theorem popMany_length (left : Bool) (n : ℕ) (l : List Bytes) :
    popMany left (popMany left n l).1.length l = popMany left n l := by
  have take (l : List Bytes) : l.take (l.take n).length = l.take n := by
    rw [List.length_take, List.take_eq_take_iff]
    omega
  have drop (l : List Bytes) : l.drop (l.take n).length = l.drop n := by
    rw [List.length_take]
    rcases Nat.le_total n l.length with h | h
    · rw [min_eq_left h]
    · rw [min_eq_right h, List.drop_length, List.drop_eq_nil_of_le h]
  cases left with
  | true => exact Prod.ext (take l) (drop l)
  | false => exact Prod.ext (take l.reverse) (congrArg List.reverse (drop l.reverse))

theorem popMany_length_le (left : Bool) (n : ℕ) (l : List Bytes) :
    (popMany left n l).1.length ≤ n := by
  unfold popMany
  split <;> simp

include hL hR

/-- The shipped pop counts what was popped, and so pops the same again. -/
theorem popCount_assigns (left : Bool) (key : Bytes) {n : ℕ} (hn : n ≤ 2 ^ 63 - 1) (env : Env)
    (l : List Bytes) (d : Option ℤ) :
    (T.applyCommand v env [popCommand left, key, itoa n]).Assigns (v.loc key)
      (some ⟨.list l, d⟩)
      (if (popMany left n l).2.isEmpty then none else some ⟨.list (popMany left n l).2, d⟩) := by
  refine assigns_write (popCommand_lookup hL hR left) rfl env ?_
  simp only [cmdPop, parseInt64_itoa hn]
  rw [if_neg (show ¬ (n : ℤ) < 0 by omega)]
  apply assigns_map
  exact assigns_unless (a := .ok (some (popMany left n l).1)) rfl

theorem mPopLists_reproduces (o : MPopOpts) (ho : o.count ≤ maxInt64) (keys : List Bytes) :
    Reproduces ok T v (mPopLists o v keys : Op S (Option Reply × List Args)) := by
  induction keys with
  | nil => exact reproduces_ret _
  | cons key keys ih =>
    apply reproduces_attempt
    rintro (_ | ⟨_ | l | _ | _ | _ | _, d⟩) he
    · exact ih
    · exact reproduces_ret _
    · have hl : l ≠ [] := he _ rfl
      dsimp only
      cases hp : popMany o.first o.count.toNat l with
      | mk vals l' =>
        by_cases hnil : vals = []
        · -- nothing popped: the list is put back and the next key is tried
          have hsame : l' = l := by
            have hnil' : (popMany o.first o.count.toNat l).1 = [] := by rw [hp, hnil]
            simpa [hp] using popMany_nil hnil'
          rw [hnil, hsame]
          unfold listEdit
          rw [if_neg (by simpa using hl)]
          exact ⟨hl, .inl ⟨rfl, ih⟩⟩
        · have hlen : vals.length ≤ 2 ^ 63 - 1 := by
            have hle := popMany_length_le o.first o.count.toNat l
            simp only [hp] at hle
            unfold maxInt64 at ho
            omega
          refine attempt_unless (by simp) (if_neg (by simpa using hnil))
            ⟨_, rfl, popCommand_ordinary o.first _,
              timeless_write (resolve_cons (popCommand_lookup hL hR o.first) rfl), fun env => ?_⟩
          have h := popCount_assigns (v := v) hL hR o.first key hlen env l d
          have hagain := popMany_length o.first o.count.toNat l
          rw [hp] at hagain
          rwa [hagain] at h
    all_goals exact reproduces_ret _

omit hL hR in
theorem parseMPop_count {first second : String} {operands : List Bytes} {o : MPopOpts}
    (h : parseMPop first second operands = .ok o) : 0 < o.count ∧ o.count ≤ maxInt64 := by
  unfold parseMPop at h
  split at h
  · exact absurd h (by simp)
  split at h
  · exact absurd h (by simp)
  split at h
  · exact absurd h (by simp)
  split at h
  · exact absurd h (by simp)
  dsimp only at h
  split at h
  · exact absurd h (by simp)
  · rw [← Except.ok.inj h]
    exact ⟨Int.one_pos, (by decide : (1 : ℤ) ≤ maxInt64)⟩
  · split at h
    · exact absurd h (by simp)
    split at h
    · exact absurd h (by simp)
    · rename_i hc
      split at h
      · exact absurd h (by simp)
      · rename_i hpos
        rw [← Except.ok.inj h]
        exact ⟨not_le.mp hpos, (parseInt64_range hc).2⟩
  · exact absurd h (by simp)

theorem listMPop_reproduces (operands : List Bytes) :
    Reproduces ok T v (listMPop v operands : Op S (Option Reply × List Args)) := by
  unfold listMPop
  split
  · exact reproduces_ret _
  · rename_i o ho
    exact mPopLists_reproduces hL hR o (parseMPop_count ho).2 o.keys

theorem cmdLMPop_sound (args : Args) :
    (cmdLMPop v args : Op S _).Sound (Proper ok) Prod.snd :=
  sound_map (listMPop_reproduces hL hR _).sound

end ShardKV.Commands
