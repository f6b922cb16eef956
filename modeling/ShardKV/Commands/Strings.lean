import ShardKV.Server.Command

/-! The string commands: the store operations behind them and their handlers.
A handler that resolves a deadline against the clock ships the absolute form;
INCRBYFLOAT ships the text it stored; everything else ships itself. Every write
keeps the entries proper and owns up to what it changed, and every shipped form
does what its command did. -/

namespace ShardKV.Commands

open Access Data Resp Server Decimal Prog

variable {S : Type} [Numeric S]

def maxStringLen : ℤ := 512 * 2 ^ 20

/-- What `SetWithOptions` is asked for; `atMs` is the deadline, when one is given. -/
structure SetOpts where
  nx : Bool
  xx : Bool
  get : Bool
  keepTTL : Bool
  atMs : Option ℤ
  deriving DecidableEq

/-- `SetWithOptions`: the old string when GET asks for it, and whether it was set. -/
def setWithOptions (k : Loc) (val : Bytes) (o : SetOpts) :
    Op S (Except StoreErr (Option Bytes × Bool)) :=
  edit k fun e =>
    let expireAt : Option ℤ :=
      match o.atMs with
      | some ms => unixMilli ms
      | none => if o.keepTTL then e.bind Entry.expireAt else none
    let set (old : Option Bytes) :=
      if (o.nx && e.isSome) || (o.xx && e.isNone) then .keep (.ok (old, false))
      else .put ⟨.str val, expireAt⟩ (.ok (old, true))
    match e with
    | some ⟨.str b, _⟩ => set (if o.get then some b else none)
    | some _ => if o.get then .keep (.error .wrongType) else set none
    | none => set none

def setDeadline (k : Loc) (val : Bytes) (atMs : ℤ) : Op S Unit :=
  put k ⟨.str val, unixMilli atMs⟩

/-- `Set` without a TTL. -/
def setPlain (k : Loc) (val : Bytes) : Op S Unit := put k ⟨.str val, none⟩

def setNX (k : Loc) (val : Bytes) : Op S Bool :=
  edit k fun
    | some _ => .keep false
    | none => .put ⟨.str val, none⟩ true

/-- The existence test of `MSetNX`: whether any of the keys is live. -/
def anyLive : List Loc → Op S Bool
  | [] => pure false
  | k :: ks => .read k fun
    | some _ => pure true
    | none => anyLive ks

def setAll : List (Loc × Bytes) → Op S Unit
  | [] => pure ()
  | (k, val) :: ps => do
    setPlain k val
    setAll ps

def mSetNX (ps : List (Loc × Bytes)) : Op S Bool := do
  if ← anyLive (ps.map Prod.fst) then pure false
  else do
    setAll ps
    pure true

def getSet (k : Loc) (val : Bytes) : Op S (Except StoreErr (Option Bytes)) :=
  edit k fun
    | some ⟨.str b, _⟩ => .put ⟨.str val, none⟩ (.ok (some b))
    | some _ => .keep (.error .wrongType)
    | none => .put ⟨.str val, none⟩ (.ok none)

def getDel (k : Loc) : Op S (Except StoreErr (Option Bytes)) :=
  edit k fun
    | some ⟨.str b, _⟩ => .drop (.ok (some b))
    | some _ => .keep (.error .wrongType)
    | none => .keep (.ok none)

/-- `Append`: the new length. An existing deadline is kept. -/
def append (k : Loc) (suffix : Bytes) : Op S (Except StoreErr ℤ) :=
  edit k fun
    | some ⟨.str b, expireAt⟩ => .put ⟨.str (b ++ suffix), expireAt⟩ (.ok (b ++ suffix).length)
    | some _ => .keep (.error .wrongType)
    | none => .put ⟨.str suffix, none⟩ (.ok suffix.length)

/-- Signed 64-bit addition, refused on overflow. -/
def addInt64 (n delta : ℤ) : Option ℤ :=
  if (0 < delta ∧ maxInt64 - delta < n) ∨ (delta < 0 ∧ n < minInt64 - delta) then none
  else some (n + delta)

def incr (k : Loc) (delta : ℤ) : Op S (Except StoreErr ℤ) :=
  edit k fun e =>
    let add (n : ℤ) (expireAt : Option ℤ) :=
      match addInt64 n delta with
      | none => .keep (.error .overflow)
      | some n => .put ⟨.str (formatInt n), expireAt⟩ (.ok n)
    match e with
    | some ⟨.str b, expireAt⟩ =>
      match parseInt64 b with
      | some n => add n expireAt
      | none => .keep (.error .notInteger)
    | some _ => .keep (.error .wrongType)
    | none => add 0 none

/-- `GetEx`: the value, and whether its deadline changed. `deadline` is the one
to apply, when there is one to apply; `none` inside it removes the deadline. -/
def getEx (k : Loc) (deadline : Option (Option ℤ)) :
    Op S (Except StoreErr (Option (Bytes × Bool))) :=
  edit k fun
    | none => .keep (.ok none)
    | some ⟨.str b, expireAt⟩ =>
      match deadline with
      | some d =>
        if expireAt ≠ d then .put ⟨.str b, d⟩ (.ok (some (b, true)))
        else .keep (.ok (some (b, false)))
      | none => .keep (.ok (some (b, false)))
    | some _ => .keep (.error .wrongType)

/-- The value `SetRange` builds: the base zero-padded, overwritten at the offset. -/
def overlay (base : Bytes) (offset : ℕ) (val : Bytes) : Bytes :=
  (base ++ List.replicate (offset - base.length) 0).take offset ++ val ++
    base.drop (offset + val.length)

def setRange (k : Loc) (offset : ℤ) (val : Bytes) : Op S (Except StoreErr ℤ) :=
  if offset < 0 then pure (.error .offset)
  else if maxStringLen < offset ∨ maxStringLen - offset < val.length then
    pure (.error .stringTooLong)
  else
    edit k fun e =>
      let write (base : Bytes) (expireAt : Option ℤ) :=
        let nv := overlay base offset.toNat val
        if val.isEmpty then .keep (.ok base.length)
        else .put ⟨.str nv, expireAt⟩ (.ok nv.length)
      match e with
      | some ⟨.str b, expireAt⟩ => write b expireAt
      | some _ => .keep (.error .wrongType)
      | none => write [] none

/-- `IncrByFloat`: the text of the sum. -/
def incrByFloat (k : Loc) (delta : Numeric.Long S) : Op S (Except StoreErr Bytes) :=
  edit k fun e =>
    let add (cur : Numeric.Long S) (expireAt : Option ℤ) :=
      match Numeric.longAdd cur delta with
      | none => .keep (.error .nan)
      | some sum => .put ⟨.str (Numeric.longText sum), expireAt⟩ (.ok (Numeric.longText sum))
    match e with
    | some ⟨.str b, expireAt⟩ =>
      match Numeric.parseLong b with
      | some cur => add cur expireAt
      | none => .keep (.error .notFloat)
    | some _ => .keep (.error .wrongType)
    | none => add Numeric.longZero none

/-- `expireUnit`: the unit in milliseconds and whether the operand is relative. -/
def expireUnit (name : Bytes) : ℤ × Bool :=
  if isWord name "EX" then (1000, true)
  else if isWord name "PX" then (1, true)
  else if isWord name "EXAT" then (1000, false)
  else (1, false)

def isExpireWord (a : Bytes) : Bool :=
  isWord a "EX" || isWord a "PX" || isWord a "EXAT" || isWord a "PXAT"

/-- A positive deadline operand of SET, SETEX or GETEX. -/
def positiveDeadline (nowMs : ℤ) (n : Bytes) (unitMs : ℤ) (rel : Bool) (name : String) :
    Except Reply ℤ :=
  match parseInt64 n with
  | none => .error notIntegerErr
  | some n =>
    if n ≤ 0 then .error (errorReply ("ERR invalid expire time in '" ++ name ++ "' command"))
    else
      match deadlineMs nowMs n unitMs rel with
      | none => .error (errorReply ("ERR invalid expire time in '" ++ name ++ "' command"))
      | some atMs => .ok atMs

/-- The options of SET, from its fourth argument on. -/
def parseSetOpts (nowMs : ℤ) : SetOpts → List Bytes → Except Reply SetOpts
  | o, [] => .ok o
  | o, a :: rest =>
    if isWord a "NX" then
      if o.xx then .error syntaxErr else parseSetOpts nowMs { o with nx := true } rest
    else if isWord a "XX" then
      if o.nx then .error syntaxErr else parseSetOpts nowMs { o with xx := true } rest
    else if isWord a "GET" then parseSetOpts nowMs { o with get := true } rest
    else if isWord a "KEEPTTL" then
      if o.atMs.isSome then .error syntaxErr
      else parseSetOpts nowMs { o with keepTTL := true } rest
    else if isExpireWord a then
      if o.atMs.isSome || o.keepTTL then .error syntaxErr
      else
        match rest with
        | [] => .error syntaxErr
        | n :: rest =>
          match positiveDeadline nowMs n (expireUnit a).1 (expireUnit a).2 "set" with
          | .error r => .error r
          | .ok atMs => parseSetOpts nowMs { o with atMs := some atMs } rest
    else .error syntaxErr

def noSetOpts : SetOpts := ⟨false, false, false, false, none⟩

/-- What GETEX does to the deadline. -/
inductive GetExOpts
  | keep
  | persist
  | deadline (atMs : ℤ)
  deriving DecidableEq

def parseGetExOpts (nowMs : ℤ) : List Bytes → Except Reply GetExOpts
  | [] => .ok .keep
  | a :: rest =>
    if isWord a "PERSIST" then
      if rest.isEmpty then .ok .persist else .error syntaxErr
    else if isExpireWord a then
      match rest with
      | [n] => (positiveDeadline nowMs n (expireUnit a).1 (expireUnit a).2 "getex").map .deadline
      | _ => .error syntaxErr
    else .error syntaxErr

def pexpireatForm (key : Bytes) (atMs : ℤ) : Args := [ascii "PEXPIREAT", key, formatInt atMs]

/-- `setWireForm`; `name` is the command word as the client spelt it. -/
def setWireForm (name key val : Bytes) (o : SetOpts) : Args :=
  match o.atMs with
  | some atMs => [name, key, val, ascii "PXAT", formatInt atMs]
  | none => if o.keepTTL then [name, key, val, ascii "KEEPTTL"] else [name, key, val]

def setexWireForm (key val : Bytes) (atMs : ℤ) : Args :=
  [ascii "SET", key, val, ascii "PXAT", formatInt atMs]

/-- `getexWireForm`, for a GETEX that changed the deadline. -/
def getexWireForm (key : Bytes) : GetExOpts → Args
  | .deadline atMs => pexpireatForm key atMs
  | _ => [ascii "PERSIST", key]

def setReply (o : SetOpts) (old : Option Bytes) (set : Bool) : Reply :=
  match old with
  | some b => .bulk b
  | none => if o.get || !set then .null else .simple "OK"

def cmdSet (v : View) (env : Env) : Args → Op S (Reply × List Args)
  | name :: key :: val :: opts =>
    match parseSetOpts env.now.val noSetOpts opts with
    | .error r => pure (r, [])
    | .ok o =>
      (fun
        | .error err => (storeErrReply err, [])
        | .ok (old, set) =>
          (setReply o old set, if set then [setWireForm name key val o] else [])) <$>
        setWithOptions (v.loc key) val o
  | _ => pure (syntaxErr, [])

/-- SETEX and PSETEX. -/
def setex (name : String) (unitMs : ℤ) (v : View) (env : Env) : Args → Op S (Reply × List Args)
  | [_, key, n, val] =>
    match positiveDeadline env.now.val n unitMs true name with
    | .error r => pure (r, [])
    | .ok atMs =>
      (fun _ => (.simple "OK", [setexWireForm key val atMs])) <$> setDeadline (v.loc key) val atMs
  | _ => pure (syntaxErr, [])

def cmdSetEx : View → Env → Args → Op S (Reply × List Args) := setex "setex" 1000

def cmdPSetEx : View → Env → Args → Op S (Reply × List Args) := setex "psetex" 1

/-- The deadline GETEX applies, when it applies one. -/
def GetExOpts.deadline? : GetExOpts → Option (Option ℤ)
  | .keep => none
  | .persist => some none
  | .deadline atMs => some (unixMilli atMs)

def cmdGetEx (v : View) (env : Env) : Args → Op S (Reply × List Args)
  | _ :: key :: opts =>
    match parseGetExOpts env.now.val opts with
    | .error r => pure (r, [])
    | .ok o =>
      (fun
        | .error err => (storeErrReply err, [])
        | .ok none => (.null, [])
        | .ok (some (b, changed)) => (.bulk b, if changed then [getexWireForm key o] else [])) <$>
        getEx (v.loc key) o.deadline?
  | _ => pure (syntaxErr, [])

def cmdIncrByFloat (v : View) (_ : Env) : Args → Op S (Reply × List Args)
  | [_, key, by_] =>
    match Numeric.parseLong (S := S) by_ with
    | none => pure (errorReply "ERR value is not a valid float", [])
    | some delta =>
      (fun
        | .error err => (storeErrReply err, [])
        | .ok text => (.bulk text, [[ascii "SET", key, text, ascii "KEEPTTL"]])) <$>
        incrByFloat (v.loc key) delta
  | _ => pure (syntaxErr, [])

/-- The reply of a write that returns an integer or an error. -/
def intReply (r : Except StoreErr ℤ) : Reply × Bool :=
  match r with
  | .error err => (storeErrReply err, false)
  | .ok n => (.int n, true)

def cmdIncr (v : View) : Args → Op S (Reply × Bool)
  | [_, key] => intReply <$> incr (v.loc key) 1
  | _ => pure (syntaxErr, false)

def cmdDecr (v : View) : Args → Op S (Reply × Bool)
  | [_, key] => intReply <$> incr (v.loc key) (-1)
  | _ => pure (syntaxErr, false)

def cmdIncrBy (v : View) : Args → Op S (Reply × Bool)
  | [_, key, by_] =>
    match parseInt64 by_ with
    | none => pure (notIntegerErr, false)
    | some delta => intReply <$> incr (v.loc key) delta
  | _ => pure (syntaxErr, false)

def cmdDecrBy (v : View) : Args → Op S (Reply × Bool)
  | [_, key, by_] =>
    match parseInt64 by_ with
    | none => pure (notIntegerErr, false)
    | some delta =>
      if delta = minInt64 then
        pure (errorReply "ERR increment or decrement would overflow", false)
      else intReply <$> incr (v.loc key) (-delta)
  | _ => pure (syntaxErr, false)

/-- Consecutive arguments taken two by two. -/
def pairs : List Bytes → List (Bytes × Bytes)
  | a :: b :: rest => (a, b) :: pairs rest
  | _ => []

def cmdMSet (v : View) (args : Args) : Op S (Reply × Bool) :=
  if args.length % 2 ≠ 1 then
    pure (errorReply "ERR wrong number of arguments for 'mset' command", false)
  else
    (fun _ => (.simple "OK", true)) <$> setAll ((pairs args.tail).map fun p => (v.loc p.1, p.2))

/-- The reply of a write that reports success as one or zero. -/
def boolReply (b : Bool) : Reply × Bool := (.int (if b then 1 else 0), b)

def cmdMSetNX (v : View) (args : Args) : Op S (Reply × Bool) :=
  if args.length % 2 ≠ 1 then
    pure (errorReply "ERR wrong number of arguments for 'msetnx' command", false)
  else boolReply <$> mSetNX ((pairs args.tail).map fun p => (v.loc p.1, p.2))

def cmdSetNX (v : View) : Args → Op S (Reply × Bool)
  | [_, key, val] => boolReply <$> setNX (v.loc key) val
  | _ => pure (syntaxErr, false)

def cmdGetSet (v : View) : Args → Op S (Reply × Bool)
  | [_, key, val] =>
    (fun
      | .error err => (storeErrReply err, false)
      | .ok (some b) => (.bulk b, true)
      | .ok none => (.null, true)) <$> getSet (v.loc key) val
  | _ => pure (syntaxErr, false)

def cmdGetDel (v : View) : Args → Op S (Reply × Bool)
  | [_, key] =>
    (fun
      | .error err => (storeErrReply err, false)
      | .ok (some b) => (.bulk b, true)
      | .ok none => (.null, false)) <$> getDel (v.loc key)
  | _ => pure (syntaxErr, false)

def cmdAppend (v : View) : Args → Op S (Reply × Bool)
  | [_, key, suffix] => intReply <$> append (v.loc key) suffix
  | _ => pure (syntaxErr, false)

def cmdSetRange (v : View) : Args → Op S (Reply × Bool)
  | [_, key, offset, val] =>
    match parseInt64 offset with
    | none => pure (notIntegerErr, false)
    | some offset =>
      (fun
        | .error err => (storeErrReply err, false)
        -- an empty value only reports the current length
        | .ok n => (.int n, !val.isEmpty)) <$> setRange (v.loc key) offset val
  | _ => pure (syntaxErr, false)

def cmdGet (v : View) (_ : Env) : Args → Op S Reply
  | [_, key] => .read (v.loc key) fun
    | some ⟨.str b, _⟩ => pure (.bulk b)
    | some _ => pure (storeErrReply .wrongType)
    | none => pure .null
  | _ => pure syntaxErr

def cmdStrLen (v : View) (_ : Env) : Args → Op S Reply
  | [_, key] => .read (v.loc key) fun
    | some ⟨.str b, _⟩ => pure (.int b.length)
    | some _ => pure (storeErrReply .wrongType)
    | none => pure (.int 0)
  | _ => pure syntaxErr

section Soundness

variable {ok : Data.Stream → Prop} (v : View) (args : Args)

theorem incr_sound (k : Loc) (delta : ℤ) :
    (intReply <$> incr k delta : Op S _).Sound (Proper ok) Prod.snd := by
  apply sound_map
  apply sound_edit
  rintro (_ | ⟨_ | _ | _ | _ | _ | _, d⟩) _ <;>
    grind [Edit.Sound, intReply, proper_str]

theorem cmdIncr_sound : (cmdIncr v args : Op S _).Sound (Proper ok) Prod.snd := by
  unfold cmdIncr
  split
  · exact incr_sound _ _
  · exact sound_ret _

theorem cmdDecr_sound : (cmdDecr v args : Op S _).Sound (Proper ok) Prod.snd := by
  unfold cmdDecr
  split
  · exact incr_sound _ _
  · exact sound_ret _

theorem cmdIncrBy_sound : (cmdIncrBy v args : Op S _).Sound (Proper ok) Prod.snd := by
  unfold cmdIncrBy
  split
  · split
    · exact sound_ret _
    · exact incr_sound _ _
  · exact sound_ret _

theorem cmdDecrBy_sound : (cmdDecrBy v args : Op S _).Sound (Proper ok) Prod.snd := by
  unfold cmdDecrBy
  split
  · split
    · exact sound_ret _
    · split
      · exact sound_ret _
      · exact incr_sound _ _
  · exact sound_ret _

theorem setAll_keeps (ps : List (Loc × Bytes)) : (setAll ps : Op S Unit).Keeps (Proper ok) := by
  induction ps with
  | nil => exact keeps_ret _
  | cons p ps ih =>
    apply keeps_bind
    · exact keeps_put (proper_str _ _ _) (keeps_ret _)
    · exact fun _ => ih

theorem cmdMSet_sound : (cmdMSet v args : Op S _).Sound (Proper ok) Prod.snd := by
  unfold cmdMSet
  split
  · exact sound_ret _
  · apply sound_of_dirty
    · exact keeps_map (setAll_keeps _) _
    · intro vis s
      rw [run_map]

theorem anyLive_readOnly (ks : List Loc) : (anyLive ks : Op S Bool).ReadOnly := by
  induction ks with
  | nil => trivial
  | cons k ks ih =>
    intro e
    cases e with
    | none => exact ih
    | some e => trivial

theorem cmdMSetNX_sound : (cmdMSetNX v args : Op S _).Sound (Proper ok) Prod.snd := by
  unfold cmdMSetNX
  split
  · exact sound_ret _
  · apply sound_map
    apply sound_bind_readOnly (anyLive_readOnly _)
    intro live
    cases live with
    | true => exact sound_ret _
    | false =>
      apply sound_of_dirty
      · exact keeps_bind (setAll_keeps _) fun _ => keeps_ret _
      · intro vis s
        simp [boolReply]

theorem cmdSetNX_sound : (cmdSetNX v args : Op S _).Sound (Proper ok) Prod.snd := by
  unfold cmdSetNX
  split
  · apply sound_map
    apply sound_edit
    rintro (_ | e) _
    · exact ⟨trivial, .inl rfl⟩
    · trivial
  · exact sound_ret _

theorem cmdGetSet_sound : (cmdGetSet v args : Op S _).Sound (Proper ok) Prod.snd := by
  unfold cmdGetSet
  split
  · apply sound_map
    apply sound_edit
    rintro (_ | ⟨_ | _ | _ | _ | _ | _, d⟩) _ <;> simp [Edit.Sound]
  · exact sound_ret _

theorem cmdGetDel_sound : (cmdGetDel v args : Op S _).Sound (Proper ok) Prod.snd := by
  unfold cmdGetDel
  split
  · apply sound_map
    apply sound_edit
    rintro (_ | ⟨_ | _ | _ | _ | _ | _, d⟩) _ <;> simp [Edit.Sound]
  · exact sound_ret _

theorem cmdAppend_sound : (cmdAppend v args : Op S _).Sound (Proper ok) Prod.snd := by
  unfold cmdAppend
  split
  · apply sound_map
    apply sound_edit
    rintro (_ | ⟨_ | _ | _ | _ | _ | _, d⟩) _ <;> simp [Edit.Sound, intReply]
  · exact sound_ret _

theorem cmdSetRange_sound : (cmdSetRange v args : Op S _).Sound (Proper ok) Prod.snd := by
  unfold cmdSetRange
  split
  · split
    · exact sound_ret _
    · apply sound_map
      unfold setRange
      split
      · exact sound_ret _
      split
      · exact sound_ret _
      · apply sound_edit
        rintro (_ | ⟨_ | _ | _ | _ | _ | _, d⟩) _ <;>
          grind [Edit.Sound, proper_str]
  · exact sound_ret _

theorem cmdGet_readOnly (env : Env) : (cmdGet v env args : Op S Reply).ReadOnly := by
  unfold cmdGet
  split
  · rintro (_ | ⟨_ | _ | _ | _ | _ | _, d⟩) <;> trivial
  · trivial

theorem cmdStrLen_readOnly (env : Env) : (cmdStrLen v env args : Op S Reply).ReadOnly := by
  unfold cmdStrLen
  split
  · rintro (_ | ⟨_ | _ | _ | _ | _ | _, d⟩) <;> trivial
  · trivial

end Soundness

variable {ok : Data.Stream → Prop} {T : Table S} {v : View}

theorem positiveDeadline_range {nowMs unitMs ms : ℤ} {n : Bytes} {rel : Bool} {name : String}
    (hu : 0 < unitMs) (hnow : 0 ≤ nowMs) (hnow' : nowMs ≤ maxInt64)
    (h : positiveDeadline nowMs n unitMs rel name = .ok ms) : 0 < ms ∧ ms ≤ maxInt64 := by
  unfold positiveDeadline at h
  split at h
  · exact absurd h (by simp)
  · rename_i m hm
    split at h
    · exact absurd h (by simp)
    · rename_i hpos
      split at h
      · exact absurd h (by simp)
      · rename_i d hd
        rw [← Except.ok.inj h]
        exact ⟨deadlineMs_pos hu (not_le.mp hpos) hnow hd,
          (deadlineMs_bounds hu (parseInt64_range hm) hnow hnow' hd).2⟩

theorem expireUnit_pos (name : Bytes) : 0 < (expireUnit name).1 := by
  unfold expireUnit
  split_ifs <;> decide

/-- The deadline that SET parses is positive and fits 64 bits. -/
theorem parseSetOpts_range {nowMs : ℤ} (hnow : 0 ≤ nowMs) (hnow' : nowMs ≤ maxInt64)
    (opts : List Bytes) {o o' : SetOpts} (ho : ∀ ms, o.atMs = some ms → 0 < ms ∧ ms ≤ maxInt64)
    (h : parseSetOpts nowMs o opts = .ok o') :
    ∀ ms, o'.atMs = some ms → 0 < ms ∧ ms ≤ maxInt64 := by
  induction opts using List.twoStepInduction generalizing o with
  | nil =>
    rw [← Except.ok.inj h]
    exact ho
  | singleton a =>
    unfold parseSetOpts at h
    grind [parseSetOpts]
  | cons_cons a b rest ih1 ih2 =>
    unfold parseSetOpts at h
    have hd := @positiveDeadline_range nowMs (expireUnit a).1
    grind [parseSetOpts, expireUnit_pos]

theorem now_range (env : Env) : (0 : ℤ) ≤ env.now.val ∧ (env.now.val : ℤ) ≤ maxInt64 := by
  have := env.now.isLt
  unfold maxInt64
  omega

/-- The deadline that a SET gives its key. -/
def SetOpts.expireAt (o : SetOpts) (e : Option (Entry S)) : Option ℤ :=
  match o.atMs with
  | some ms => unixMilli ms
  | none => if o.keepTTL then e.bind Entry.expireAt else none

/-- An unconditional SET assigns its value and deadline. -/
theorem setWithOptions_assigns (k : Loc) (val : Bytes) {o : SetOpts} (hnx : o.nx = false)
    (hxx : o.xx = false) (hget : o.get = false) (e : Option (Entry S)) :
    (setWithOptions k val o).Assigns k e (some ⟨.str val, o.expireAt e⟩) := by
  apply assigns_put (a := .ok (none, true))
  obtain _ | ⟨_ | _ | _ | _ | _ | _, d⟩ := e <;> simp [hnx, hxx, hget, SetOpts.expireAt]

/-- A SET without conditions that does not keep the old deadline stores its own
whatever it finds. -/
theorem setWithOptions_oblivious (k : Loc) (val : Bytes) {o : SetOpts} (hnx : o.nx = false)
    (hxx : o.xx = false) (hget : o.get = false) (hkeep : o.keepTTL = false) :
    (setWithOptions k val o : Op S _).Oblivious := by
  refine oblivious_assigns (k := k) (w := some ⟨.str val, o.expireAt (S := S) none⟩) fun e => ?_
  have hsame : o.expireAt e = o.expireAt (S := S) none := by simp [SetOpts.expireAt, hkeep]
  rw [← hsame]
  exact setWithOptions_assigns k val hnx hxx hget e

theorem parseSetOpts_pxat (nowMs : ℤ) {ms : ℤ} (h : 0 < ms) (h' : ms ≤ maxInt64) :
    parseSetOpts nowMs noSetOpts [ascii "PXAT", formatInt ms] =
      .ok { noSetOpts with atMs := some ms } := by
  have hp : positiveDeadline nowMs (formatInt ms) 1 false "set" = .ok ms := by
    unfold positiveDeadline
    rw [parseInt64_formatInt (by unfold minInt64; omega) h']
    simp [deadlineMs_absolute, not_le.mpr h]
  have hu : expireUnit (ascii "PXAT") = (1, false) := by decide
  have hx : isExpireWord (ascii "PXAT") = true := by decide
  have hw : isWord (ascii "PXAT") "NX" = false ∧ isWord (ascii "PXAT") "XX" = false ∧
      isWord (ascii "PXAT") "GET" = false ∧ isWord (ascii "PXAT") "KEEPTTL" = false := by decide
  simp [parseSetOpts, hw, hx, hu, hp, noSetOpts]

theorem parseSetOpts_keepttl (nowMs : ℤ) :
    parseSetOpts nowMs noSetOpts [ascii "KEEPTTL"] = .ok { noSetOpts with keepTTL := true } := by
  have hw : isWord (ascii "KEEPTTL") "NX" = false ∧ isWord (ascii "KEEPTTL") "XX" = false ∧
      isWord (ascii "KEEPTTL") "GET" = false ∧ isWord (ascii "KEEPTTL") "KEEPTTL" = true := by
    decide
  simp [parseSetOpts, hw, noSetOpts]

/-- The options that the shipped SET of a SET is parsed to, by any clock. -/
theorem parseSetOpts_wire (name key val : Bytes) {o : SetOpts}
    (ho : ∀ ms, o.atMs = some ms → 0 < ms ∧ ms ≤ maxInt64) :
    ∃ opts o', setWireForm name key val o = name :: key :: val :: opts ∧
      (∀ nowMs, parseSetOpts nowMs noSetOpts opts = .ok o') ∧ o'.nx = false ∧ o'.xx = false ∧
      o'.get = false ∧ ∀ e : Option (Entry S), o'.expireAt e = o.expireAt e := by
  obtain ⟨nx, xx, get, keepTTL, _ | ms⟩ := o
  · cases keepTTL with
    | false => exact ⟨[], noSetOpts, rfl, fun _ => rfl, rfl, rfl, rfl, fun _ => rfl⟩
    | true => exact ⟨_, _, rfl, parseSetOpts_keepttl, rfl, rfl, rfl, fun _ => rfl⟩
  · obtain ⟨h, h'⟩ := ho ms rfl
    exact ⟨_, _, rfl, fun nowMs => parseSetOpts_pxat nowMs h h', rfl, rfl, rfl, fun _ => rfl⟩

/-- The options of the SET that INCRBYFLOAT ships. -/
def keepDeadline : SetOpts := ⟨false, false, false, true, none⟩

section Set

variable (hT : T (ascii "SET") = some ⟨-3, .effect cmdSet⟩)
include hT

/-- Whatever the options that led to it, the shipped SET stores what was stored. -/
theorem setWireForm_assigns {name : Bytes} (hname : toUpper name = ascii "SET") (key val : Bytes)
    {o : SetOpts} (ho : ∀ ms, o.atMs = some ms → 0 < ms ∧ ms ≤ maxInt64) (env : Env)
    (e : Option (Entry S)) :
    (T.applyCommand v env (setWireForm name key val o)).Assigns (v.loc key) e
      (some ⟨.str val, o.expireAt e⟩) := by
  obtain ⟨opts, o', hform, hparse, hnx, hxx, hget, hexp⟩ :=
    parseSetOpts_wire (S := S) name key val ho
  rw [hform, ← hexp e]
  refine assigns_effect (hname ▸ hT) (by simp [arityOK]; omega) env ?_
  unfold cmdSet
  dsimp only
  rw [hparse]
  exact assigns_map (setWithOptions_assigns _ val hnx hxx hget e) _

theorem setWireForm_timeless {name : Bytes} (hname : toUpper name = ascii "SET") (key val : Bytes)
    {o : SetOpts} (ho : ∀ ms, o.atMs = some ms → 0 < ms ∧ ms ≤ maxInt64) :
    Timeless T v (setWireForm name key val o) := by
  obtain ⟨opts, o', hform, hparse, -⟩ := parseSetOpts_wire (S := S) name key val ho
  rw [hform]
  refine timeless_effect (resolve_cons (hname ▸ hT) (by simp [arityOK]; omega)) ?_
  intro env env'
  simp only [cmdSet, hparse]

omit hT in
theorem setWireForm_ordinary {name : Bytes} (hname : toUpper name = ascii "SET") (key val : Bytes)
    (o : SetOpts) : ordinary (setWireForm name key val o) = true := by
  obtain ⟨rest, h⟩ : ∃ rest, setWireForm name key val o = name :: rest := by
    unfold setWireForm
    split
    · exact ⟨_, rfl⟩
    · split <;> exact ⟨_, rfl⟩
  rw [h]
  simp only [ordinary, hname]
  decide

theorem setWireForm_ships {name : Bytes} (hname : toUpper name = ascii "SET") (key val : Bytes)
    {o : SetOpts} (ho : ∀ ms, o.atMs = some ms → 0 < ms ∧ ms ≤ maxInt64) (e : Option (Entry S)) :
    Ships T v (v.loc key) e (some ⟨.str val, o.expireAt e⟩) [setWireForm name key val o] :=
  ⟨_, rfl, setWireForm_ordinary hname key val o, setWireForm_timeless hT hname key val ho,
    fun env => setWireForm_assigns hT hname key val ho env e⟩

theorem cmdSet_reproduces (env : Env) {args : Args}
    (hname : args.head?.map toUpper = some (ascii "SET")) :
    Reproduces ok T v (cmdSet v env args : Op S (Reply × List Args)) := by
  unfold cmdSet
  split
  · rename_i name key val opts
    split
    · exact reproduces_ret _
    · rename_i o ho
      have hname' : toUpper name = ascii "SET" := by simpa using hname
      have hms := parseSetOpts_range (now_range env).1 (now_range env).2 opts (by simp [noSetOpts]) ho
      apply reproduces_edit
      intro e _
      have set (old : Option Bytes) : EditReproduces ok T v (v.loc key)
          (fun r : Except StoreErr (Option Bytes × Bool) => match r with
            | .error err => (storeErrReply err, [])
            | .ok (old, set) =>
              (setReply o old set, if set then [setWireForm name key val o] else [])) e
          (if (o.nx && e.isSome) || (o.xx && e.isNone) then .keep (.ok (old, false))
            else .put ⟨.str val, o.expireAt e⟩ (.ok (old, true))) := by
        split
        · rfl
        · exact ⟨trivial, .inr (setWireForm_ships hT hname' key val hms e)⟩
      obtain _ | ⟨_ | _ | _ | _ | _ | _, d⟩ := e
      · exact set none
      · exact set _
      all_goals
        dsimp only
        split
        · rfl
        · exact set none
  · exact reproduces_ret _

theorem setex_reproduces (name : String) {unitMs : ℤ} (hu : 0 < unitMs) (env : Env) (args : Args) :
    Reproduces ok T v (setex name unitMs v env args : Op S (Reply × List Args)) := by
  unfold setex
  split
  · rename_i key n val
    split
    · exact reproduces_ret _
    · rename_i ms hms
      have hms := positiveDeadline_range hu (now_range env).1 (now_range env).2 hms
      refine ⟨keeps_map (keeps_put trivial (keeps_ret _)) _, ?_⟩
      intro vis s _
      have hset : toUpper (ascii "SET") = ascii "SET" := by decide
      obtain ⟨c, hc, hord, htime, hassign⟩ := setWireForm_ships (v := v) hT hset key val
        (o := { noSetOpts with atMs := some ms }) (by simpa using hms) (seen vis s (v.loc key))
      exact .inr ⟨c, hc, hord, htime, fun env' => hassign env' vis s rfl⟩
  · exact reproduces_ret _

theorem cmdIncrByFloat_reproduces (env : Env) (args : Args) :
    Reproduces ok T v (cmdIncrByFloat v env args : Op S (Reply × List Args)) := by
  unfold cmdIncrByFloat
  split
  · rename_i key by_
    split
    · exact reproduces_ret _
    · rename_i delta _
      apply reproduces_edit
      intro e _
      -- the shipped SET keeps the deadline, as the increment did
      have add (cur : Numeric.Long S) : EditReproduces ok T v (v.loc key)
          (fun r : Except StoreErr Bytes => match r with
            | .error err => (storeErrReply err, [])
            | .ok text => (.bulk text, [[ascii "SET", key, text, ascii "KEEPTTL"]])) e
          (match Numeric.longAdd cur delta with
            | none => .keep (.error .nan)
            | some sum => .put ⟨.str (Numeric.longText sum), e.bind Entry.expireAt⟩
              (.ok (Numeric.longText sum))) := by
        cases Numeric.longAdd cur delta with
        | none => rfl
        | some sum =>
          have hset : toUpper (ascii "SET") = ascii "SET" := by decide
          exact ⟨trivial, .inr
            (setWireForm_ships hT hset key _ (o := keepDeadline) (by simp [keepDeadline]) e)⟩
      obtain _ | ⟨b | _ | _ | _ | _ | _, d⟩ := e
      · exact add Numeric.longZero
      · dsimp only
        cases Numeric.parseLong (S := S) b with
        | none => rfl
        | some cur => exact add cur
      all_goals rfl
  · exact reproduces_ret _

end Set

end ShardKV.Commands
