import ShardKV.Commands.Strings

/-! The commands on whole keys and whole databases. The expiry family resolves
its deadline once and ships PEXPIREAT. COPY to another database under another
name stages the copy in the source database and then moves it over, as the code
does. -/

namespace ShardKV.Commands

open Access Data Resp Server Decimal Prog

variable {S : Type} [Numeric S]

def del (k : Loc) : Op S Bool := edit k fun e => .drop e.isSome

/-- Which of the expiry conditions were given. -/
structure ExpireCond where
  nx : Bool
  xx : Bool
  gt : Bool
  lt : Bool
  deriving DecidableEq

/-- Whether `ExpireAtCond` refuses to replace the deadline `old` by `new`. A zero
time orders before every other. -/
def ExpireCond.refuses (c : ExpireCond) (old new : Option ℤ) : Bool :=
  (c.nx && old.isSome) || (c.xx && old.isNone) ||
    (c.gt && (match old, new with
      | some o, some n => decide (n ≤ o)
      | some o, none => decide (-62135596800000 ≤ o)
      | none, _ => true)) ||
    (c.lt && (match old, new with
      | some o, some n => decide (o ≤ n)
      | some o, none => decide (o ≤ -62135596800000)
      | none, _ => false))

def expireAtCond (k : Loc) (atMs : ℤ) (cond : ExpireCond) : Op S Bool :=
  edit k fun
    | none => .keep false
    | some e =>
      if cond.refuses e.expireAt (unixMilli atMs) then .keep false
      else .put { e with expireAt := unixMilli atMs } true

def persist (k : Loc) : Op S Bool :=
  edit k fun
    | none => .keep false
    | some e => if e.expireAt.isNone then .keep false else .put { e with expireAt := none } true

def rename (src dst : Loc) : Op S Bool :=
  .read src fun
    | none => pure false
    | some e => .write src none (.write dst (some e) (pure true))

/-- `RenameNX`: whether the source was found, and whether it was renamed. -/
def renameNX (src dst : Loc) : Op S (Bool × Bool) :=
  .read src fun
    | none => pure (false, false)
    | some e => .read dst fun there =>
      if src = dst ∨ there.isSome then pure (true, false)
      else .write src none (.write dst (some e) (pure (true, true)))

/-- `Copy`, within one database. -/
def copy (src dst : Loc) (replace : Bool) : Op S (Except StoreErr Bool) :=
  if src = dst then pure (.error .sameObject)
  else
    .read src fun
      | none => pure (.ok false)
      | some e => .read dst fun there =>
        if !replace && there.isSome then pure (.ok false)
        else .write dst (some e) (pure (.ok true))

/-- `TransferKey`, between two databases. -/
def transferKey (src dst : Loc) (remove replace : Bool) : Op S Bool :=
  .read src fun
    | none => pure false
    | some e => .read dst fun there =>
      if !replace && there.isSome then pure false
      else .write dst (some e) (if remove then .write src none (pure true) else pure true)

def swapData (i j : ℕ) : Op S Unit :=
  move fun k => some (Equiv.swap i j k.1, k.2)

def delAll (v : View) : List Bytes → Op S ℕ
  | [] => pure 0
  | key :: keys => do
    let gone ← del (v.loc key)
    let n ← delAll v keys
    pure (if gone then n + 1 else n)

/-- DEL and UNLINK. -/
def cmdDel (v : View) (args : Args) : Op S (Reply × Bool) :=
  (fun n : ℕ => (.int n, decide (0 < n))) <$> delAll v args.tail

def parseExpireCond : ExpireCond → List Bytes → Except Reply ExpireCond
  | c, [] =>
    if c.nx && (c.xx || c.gt || c.lt) then
      .error (errorReply "ERR NX and XX, GT or LT options at the same time are not compatible")
    else if c.gt && c.lt then
      .error (errorReply "ERR GT and LT options at the same time are not compatible")
    else .ok c
  | c, a :: rest =>
    if isWord a "NX" then parseExpireCond { c with nx := true } rest
    else if isWord a "XX" then parseExpireCond { c with xx := true } rest
    else if isWord a "GT" then parseExpireCond { c with gt := true } rest
    else if isWord a "LT" then parseExpireCond { c with lt := true } rest
    else .error (.error (ascii "ERR Unsupported option " ++ a))

def expireAlways : ExpireCond := ⟨false, false, false, false⟩

/-- The expiry family, from a reading of the clock. -/
def expireFrom (name : String) (unitMs : ℤ) (rel : Bool) (v : View) (nowMs : ℤ) :
    Args → Op S (Reply × List Args)
  | _ :: key :: n :: opts =>
    match parseInt64 n with
    | none => pure (notIntegerErr, [])
    | some n =>
      match parseExpireCond expireAlways opts with
      | .error r => pure (r, [])
      | .ok cond =>
        match deadlineMs nowMs n unitMs rel with
        | none => pure (errorReply ("ERR invalid expire time in '" ++ name ++ "' command"), [])
        | some atMs =>
          (fun set => if set then (.int 1, [pexpireatForm key atMs]) else (.int 0, [])) <$>
            expireAtCond (v.loc key) atMs cond
  | _ => pure (syntaxErr, [])

def expire (name : String) (unitMs : ℤ) (rel : Bool) (v : View) (env : Env) (args : Args) :
    Op S (Reply × List Args) := expireFrom name unitMs rel v env.now.val args

def cmdExpire : View → Env → Args → Op S (Reply × List Args) := expire "expire" 1000 true

def cmdPExpire : View → Env → Args → Op S (Reply × List Args) := expire "pexpire" 1 true

def cmdExpireAt : View → Env → Args → Op S (Reply × List Args) := expire "expireat" 1000 false

def cmdPExpireAt : View → Env → Args → Op S (Reply × List Args) := expire "pexpireat" 1 false

def cmdPersist (v : View) : Args → Op S (Reply × Bool)
  | [_, key] => boolReply <$> persist (v.loc key)
  | _ => pure (syntaxErr, false)

def noSuchKeyErr : Reply := errorReply "ERR no such key"

def cmdRename (v : View) : Args → Op S (Reply × Bool)
  | [_, src, dst] =>
    (fun renamed => if renamed then (.simple "OK", true) else (noSuchKeyErr, false)) <$>
      rename (v.loc src) (v.loc dst)
  | _ => pure (syntaxErr, false)

def cmdRenameNX (v : View) : Args → Op S (Reply × Bool)
  | [_, src, dst] =>
    (fun r => if !r.1 then (noSuchKeyErr, false) else boolReply r.2) <$>
      renameNX (v.loc src) (v.loc dst)
  | _ => pure (syntaxErr, false)

def dbRangeErr : Reply := errorReply "ERR DB index is out of range"

/-- A database operand: within range, or the reply that refuses it. -/
def parseDB (v : View) (n : ℤ) : Except Reply ℕ :=
  if n < 0 ∨ (v.databases : ℤ) ≤ n then .error dbRangeErr else .ok n.toNat

/-- The options of COPY: the destination database and REPLACE. -/
def parseCopyOpts (v : View) : ℕ × Bool → List Bytes → Except Reply (ℕ × Bool)
  | o, [] => .ok o
  | o, a :: rest =>
    if isWord a "REPLACE" then parseCopyOpts v (o.1, true) rest
    else if isWord a "DB" then
      match rest with
      | [] => .error syntaxErr
      | n :: rest =>
        match parseInt64 n with
        | none => .error notIntegerErr
        | some n =>
          if n ≠ 0 ∧ v.cluster then
            .error (errorReply "ERR Copying to another database is not allowed in cluster mode")
          else
            match parseDB v n with
            | .error r => .error r
            | .ok db => parseCopyOpts v (db, o.2) rest
    else .error syntaxErr

def copyAcrossDatabases (v : View) (src dst : Bytes) (destDB : ℕ) (replace : Bool) :
    Op S (Reply × Bool) :=
  .read (destDB, dst) fun there =>
    if !replace && there.isSome then pure (.int 0, false)
    else do
      match ← copy (v.loc src) (v.loc dst) true with
      | .error err => pure (storeErrReply err, false)
      | .ok false => pure (.int 0, false)
      | .ok true => boolReply <$> transferKey (v.loc dst) (destDB, dst) true replace

def cmdCopy (v : View) : Args → Op S (Reply × Bool)
  | _ :: src :: dst :: opts =>
    match parseCopyOpts v (v.db, false) opts with
    | .error r => pure (r, false)
    | .ok (destDB, replace) =>
      if destDB ≠ v.db then
        if src ≠ dst then copyAcrossDatabases v src dst destDB replace
        else boolReply <$> transferKey (v.loc src) (destDB, src) false replace
      else
        (fun
          | .error err => (storeErrReply err, false)
          | .ok copied => boolReply copied) <$> copy (v.loc src) (v.loc dst) replace
  | _ => pure (syntaxErr, false)

def clusterNoDBErr (name : String) : Reply :=
  errorReply ("ERR " ++ name ++ " is not allowed in cluster mode")

def cmdFlushAll (_ : View) (_ : Args) : Op S (Reply × Bool) :=
  (fun _ => (.simple "OK", true)) <$> move fun _ => none

def cmdFlushDB (v : View) (_ : Args) : Op S (Reply × Bool) :=
  (fun _ => (.simple "OK", true)) <$> move fun k => if k.1 = v.db then none else some k

def cmdSwapDB (v : View) : Args → Op S (Reply × Bool)
  | [_, i, j] =>
    if v.cluster then pure (clusterNoDBErr "SWAPDB", false)
    else
      match parseInt64 i, parseInt64 j with
      | some i, some j =>
        if i < 0 ∨ (v.databases : ℤ) ≤ i ∨ j < 0 ∨ (v.databases : ℤ) ≤ j then
          pure (dbRangeErr, false)
        else if i = j then pure (.simple "OK", false)
        else (fun _ => (.simple "OK", true)) <$> swapData i.toNat j.toNat
      | _, _ => pure (errorReply "ERR invalid first DB index", false)
  | _ => pure (syntaxErr, false)

def cmdMove (v : View) : Args → Op S (Reply × Bool)
  | [_, key, n] =>
    if v.cluster then pure (clusterNoDBErr "MOVE", false)
    else
      match parseInt64 n with
      | none => pure (notIntegerErr, false)
      | some n =>
        match parseDB v n with
        | .error r => pure (r, false)
        | .ok db =>
          if db = v.db then
            pure (errorReply "ERR source and destination objects are the same", false)
          else boolReply <$> transferKey (v.loc key) (db, key) true false
  | _ => pure (syntaxErr, false)

def countLive (v : View) : List Bytes → Op S ℕ
  | [] => pure 0
  | key :: keys => .read (v.loc key) fun e =>
    (fun n => if e.isSome then n + 1 else n) <$> countLive v keys

def cmdExists (v : View) (_ : Env) (args : Args) : Op S Reply :=
  (fun n : ℕ => .int n) <$> countLive v args.tail

def Value.typeName : Value S → String
  | .str _ => "string"
  | .list _ => "list"
  | .hash _ => "hash"
  | .set _ => "set"
  | .zset _ => "zset"
  | .stream _ => "stream"

def cmdType (v : View) (_ : Env) : Args → Op S Reply
  | [_, key] => .read (v.loc key) fun
    | none => pure (.simple "none")
    | some e => pure (.simple (Value.typeName e.value))
  | _ => pure syntaxErr

section Soundness

variable {ok : Data.Stream → Prop} (v : View) (args : Args)

theorem del_sound (k : Loc) : (del k : Op S Bool).Sound (Proper ok) id := by
  apply sound_edit
  rintro (_ | e) _
  · exact .inr rfl
  · exact .inl rfl

theorem delAll_sound (keys : List Bytes) :
    (delAll v keys : Op S ℕ).Sound (Proper ok) fun n => decide (0 < n) := by
  induction keys with
  | nil => exact sound_ret _
  | cons key keys ih =>
    constructor
    · exact keeps_bind (del_sound _).keeps fun _ => keeps_bind ih.keeps fun _ =>
        keeps_ret _
    · intro vis s hs hd
      simp only [delAll, run_bind, run_pure] at hd ⊢
      have hgone : ((del (v.loc key) : Op S Bool).run vis s).1 = false := by
        by_contra h
        rw [Bool.not_eq_false] at h
        simp [h] at hd
      simp only [hgone, Bool.false_eq_true, if_false] at hd
      -- neither the first key nor the others were there
      have hfirst := (del_sound (v.loc key)).honest vis s hs hgone
      have hrest := ih.honest vis _ ((del_sound (v.loc key)).keeps vis s hs) hd
      exact hrest.trans hfirst

theorem delAll_oblivious (keys : List Bytes) : (delAll v keys : Op S ℕ).Oblivious := by
  induction keys with
  | nil => exact oblivious_ret 0
  | cons key keys ih =>
    intro vis vis' s s' hvis h
    have hdel : (del (v.loc key) : Op S Bool).Oblivious :=
      oblivious_assigns fun _ => assigns_drop rfl
    have hfirst := hdel vis vis' s s' hvis h
    simpa [delAll] using ih vis vis' _ _ hvis hfirst

/-- DEL leaves its keys absent whatever it finds. -/
theorem cmdDel_oblivious : (cmdDel v args : Op S _).Oblivious :=
  oblivious_map (delAll_oblivious v _) _

theorem cmdDel_sound : (cmdDel v args : Op S _).Sound (Proper ok) Prod.snd :=
  sound_map (delAll_sound v _)

theorem cmdPersist_sound : (cmdPersist v args : Op S _).Sound (Proper ok) Prod.snd := by
  unfold cmdPersist
  split
  · apply sound_map
    apply sound_edit
    rintro (_ | e) he
    · trivial
    · dsimp only
      split
      · trivial
      · exact ⟨proper_deadline none (he e rfl), .inl rfl⟩
  · exact sound_ret _

theorem cmdRename_sound : (cmdRename v args : Op S _).Sound (Proper ok) Prod.snd := by
  unfold cmdRename
  split
  · apply sound_map
    apply sound_read
    rintro (_ | e) he
    · exact sound_ret _
    · apply sound_of_dirty
      · exact keeps_drop (keeps_put (he e rfl) (keeps_ret _))
      · exact fun _ _ => rfl
  · exact sound_ret _

theorem cmdRenameNX_sound : (cmdRenameNX v args : Op S _).Sound (Proper ok) Prod.snd := by
  unfold cmdRenameNX
  split
  · apply sound_map
    apply sound_read
    rintro (_ | e) he
    · exact sound_ret _
    · apply sound_read
      intro there _
      split
      · exact sound_ret _
      · apply sound_of_dirty
        · exact keeps_drop (keeps_put (he e rfl) (keeps_ret _))
        · exact fun _ _ => rfl
  · exact sound_ret _

theorem copy_sound (src dst : Loc) (replace : Bool) :
    (copy src dst replace : Op S (Except StoreErr Bool)).Sound (Proper ok)
      fun r => match r with | .ok copied => copied | .error _ => false := by
  unfold copy
  split
  · exact sound_ret _
  · apply sound_read
    rintro (_ | e) he
    · exact sound_ret _
    · apply sound_read
      intro there _
      split
      · exact sound_ret _
      · apply sound_of_dirty
        · exact keeps_put (he e rfl) (keeps_ret _)
        · exact fun _ _ => rfl

theorem transferKey_sound (src dst : Loc) (remove replace : Bool) :
    (transferKey src dst remove replace : Op S Bool).Sound (Proper ok) id := by
  apply sound_read
  rintro (_ | e) he
  · exact sound_ret _
  · apply sound_read
    intro there _
    split
    · exact sound_ret _
    · apply sound_of_dirty
      · apply keeps_put (he e rfl)
        split
        · exact keeps_drop (keeps_ret _)
        · exact keeps_ret _
      · intro vis s
        cases remove <;> rfl

/-- A copy that was made is visible at its destination. -/
theorem copy_made {src dst : Loc} {vis : Entry S → Bool} {s : Dataset S}
    (h : ((copy src dst true).run vis s).1 = .ok true) :
    ∃ e, vis e = true ∧ ((copy src dst true).run vis s).2 = Function.update s dst (some e) := by
  unfold copy at h ⊢
  split
  · rename_i hsame
    rw [if_pos hsame] at h
    exact absurd h (by simp)
  · rename_i hne
    rw [if_neg hne] at h
    rw [run_read] at h ⊢
    cases he : seen vis s src with
    | none =>
      rw [he] at h
      exact absurd h (by simp)
    | some e => exact ⟨e, (Option.filter_eq_some_iff.mp he).2, by simp⟩

/-- A key that is there moves to where nothing is in the way. -/
theorem transferKey_moves {src dst : Loc} (remove : Bool) {replace : Bool} {vis : Entry S → Bool}
    {s : Dataset S} (hsrc : (seen vis s src).isSome)
    (hdst : ¬ (!replace && (seen vis s dst).isSome) = true) :
    ((transferKey src dst remove replace).run vis s).1 = true := by
  obtain ⟨e, he⟩ := Option.isSome_iff_exists.mp hsrc
  rw [transferKey, run_read, he, run_read, if_neg hdst]
  cases remove <;> rfl

/-- The staged copy is always there to be moved over: the destination was tested
before it was made, and staging it touches no other database. -/
theorem copyAcrossDatabases_sound (src dst : Bytes) {destDB : ℕ} (hdb : destDB ≠ v.db)
    (replace : Bool) :
    (copyAcrossDatabases v src dst destDB replace : Op S _).Sound (Proper ok) Prod.snd := by
  constructor
  · apply keeps_read
    intro there _
    split
    · exact keeps_ret _
    · apply keeps_bind (copy_sound _ _ _).keeps
      rintro (err | _ | _)
      · exact keeps_ret _
      · exact keeps_ret _
      · exact keeps_map (transferKey_sound _ _ _ _).keeps _
  · intro vis s hs
    rw [copyAcrossDatabases, run_read]
    split
    · exact fun _ => rfl
    · rename_i hthere
      have hcopy := (copy_sound (v.loc src) (v.loc dst) true).honest vis s hs
      rw [run_bind]
      cases hr : ((copy (v.loc src) (v.loc dst) true : Op S _).run vis s).1 with
      | error err =>
        rw [hr] at hcopy
        exact hcopy
      | ok copied =>
        cases copied with
        | false =>
          rw [hr] at hcopy
          exact hcopy
        | true =>
          obtain ⟨e, hvis, hs'⟩ := copy_made hr
          have hne : ((destDB, dst) : Loc) ≠ v.loc dst := fun h => hdb (Prod.mk.inj h).1
          have hmoved : ((transferKey (v.loc dst) (destDB, dst) true replace).run vis
              (Function.update s (v.loc dst) (some e))).1 = true :=
            transferKey_moves true (by simp [seen, Option.filter, hvis])
              (by simpa [seen, Function.update_of_ne hne] using hthere)
          intro hd
          rw [hs', run_map, hmoved] at hd
          exact absurd hd (by simp [boolReply])

theorem cmdCopy_sound : (cmdCopy v args : Op S _).Sound (Proper ok) Prod.snd := by
  unfold cmdCopy
  split
  · split
    · exact sound_ret _
    · split
      · rename_i hdb
        split
        · exact copyAcrossDatabases_sound v _ _ hdb _
        · exact sound_map (transferKey_sound _ _ _ _)
      · apply sound_map
        convert copy_sound (S := S) _ _ _ using 1
        funext r
        cases r <;> rfl
  · exact sound_ret _

theorem cmdFlushAll_sound : (cmdFlushAll v args : Op S _).Sound (Proper ok) Prod.snd :=
  sound_of_dirty (keeps_map (keeps_relocate (keeps_ret _)) _) fun _ _ => rfl

theorem cmdFlushDB_sound : (cmdFlushDB v args : Op S _).Sound (Proper ok) Prod.snd :=
  sound_of_dirty (keeps_map (keeps_relocate (keeps_ret _)) _) fun _ _ => rfl

theorem cmdSwapDB_sound : (cmdSwapDB v args : Op S _).Sound (Proper ok) Prod.snd := by
  unfold cmdSwapDB
  split
  · split
    · exact sound_ret _
    · split
      · split
        · exact sound_ret _
        · split
          · exact sound_ret _
          · apply sound_of_dirty
            · exact keeps_map (keeps_relocate (keeps_ret _)) _
            · exact fun _ _ => rfl
      · exact sound_ret _
  · exact sound_ret _

theorem cmdMove_sound : (cmdMove v args : Op S _).Sound (Proper ok) Prod.snd := by
  unfold cmdMove
  split
  · split
    · exact sound_ret _
    · split
      · exact sound_ret _
      · split
        · exact sound_ret _
        · split
          · exact sound_ret _
          · exact sound_map (transferKey_sound _ _ _ _)
  · exact sound_ret _

theorem cmdExists_readOnly (env : Env) : (cmdExists v env args : Op S Reply).ReadOnly := by
  apply readOnly_map
  induction args.tail with
  | nil => trivial
  | cons key keys ih => exact fun _ => readOnly_map ih _

theorem cmdType_readOnly (env : Env) : (cmdType v env args : Op S Reply).ReadOnly := by
  unfold cmdType
  split
  · rintro (_ | e) <;> trivial
  · trivial

end Soundness

variable {ok : Data.Stream → Prop} {T : Table S} {v : View}
  (hP : T (ascii "PEXPIREAT") = some ⟨-3, .effect cmdPExpireAt⟩)
include hP

/-- The shipped PEXPIREAT gives the key the deadline, whatever clock reads it. -/
theorem pexpireatForm_assigns (key : Bytes) {ms : ℤ} (hmin : minInt64 ≤ ms) (hmax : ms ≤ maxInt64)
    (env : Env) (e : Entry S) :
    (T.applyCommand v env (pexpireatForm key ms)).Assigns (v.loc key) (some e)
      (some { e with expireAt := unixMilli ms }) := by
  have hP' : T (toUpper (ascii "PEXPIREAT")) = some ⟨-3, .effect cmdPExpireAt⟩ := hP
  refine assigns_effect hP' rfl env ?_
  show (expire "pexpireat" 1 false v env _).Assigns _ _ _
  unfold expire expireFrom
  dsimp only
  rw [parseInt64_formatInt hmin hmax]
  apply assigns_map
  apply assigns_put (a := true)
  rfl

omit hP in
theorem pexpireatForm_ordinary (key : Bytes) (ms : ℤ) : ordinary (pexpireatForm key ms) = true := by
  simp only [pexpireatForm, ordinary]
  decide

theorem pexpireatForm_timeless (key : Bytes) (ms : ℤ) : Timeless T v (pexpireatForm key ms) := by
  have hP' : T (toUpper (ascii "PEXPIREAT")) = some ⟨-3, .effect cmdPExpireAt⟩ := hP
  refine timeless_effect (resolve_cons hP' rfl) ?_
  intro env env'
  simp only [cmdPExpireAt, expire, expireFrom, deadlineMs_absolute]

theorem pexpireatForm_ships (key : Bytes) {ms : ℤ} (hmin : minInt64 ≤ ms) (hmax : ms ≤ maxInt64)
    (e : Entry S) :
    Ships T v (v.loc key) (some e) (some { e with expireAt := unixMilli ms })
      [pexpireatForm key ms] :=
  ⟨_, rfl, pexpireatForm_ordinary key ms, pexpireatForm_timeless hP key ms,
    fun env => pexpireatForm_assigns hP key hmin hmax env e⟩

theorem expire_reproduces (name : String) {unitMs : ℤ} (hu : 0 < unitMs) (rel : Bool) (env : Env)
    (args : Args) :
    Reproduces ok T v (expire name unitMs rel v env args : Op S (Reply × List Args)) := by
  unfold expire expireFrom
  split
  · rename_i key n opts
    split
    · exact reproduces_ret _
    · rename_i n hn
      split
      · exact reproduces_ret _
      · split
        · exact reproduces_ret _
        · rename_i ms hms
          obtain ⟨hmin, hmax⟩ :=
            deadlineMs_bounds hu (parseInt64_range hn) (now_range env).1 (now_range env).2 hms
          apply reproduces_edit
          rintro (_ | e) he
          · rfl
          · dsimp only
            split
            · rfl
            · exact ⟨proper_deadline _ (he e rfl), .inr (pexpireatForm_ships hP key hmin hmax e)⟩
  · exact reproduces_ret _

omit hP in
theorem parseGetExOpts_range {nowMs ms : ℤ} (hnow : 0 ≤ nowMs) (hnow' : nowMs ≤ maxInt64)
    {opts : List Bytes} (h : parseGetExOpts nowMs opts = .ok (.deadline ms)) :
    0 < ms ∧ ms ≤ maxInt64 := by
  unfold parseGetExOpts at h
  split at h
  · exact absurd h (by simp)
  · rename_i a rest
    split at h
    · split at h <;> exact absurd h (by simp)
    · split at h
      · split at h
        · rename_i n
          cases hp : positiveDeadline nowMs n (expireUnit a).1 (expireUnit a).2 "getex" with
          | error r =>
            rw [hp] at h
            exact absurd h (by simp [Except.map])
          | ok d =>
            rw [hp] at h
            have hd : d = ms := by simpa [Except.map] using h
            rw [← hd]
            exact positiveDeadline_range (expireUnit_pos a) hnow hnow' hp
        · exact absurd h (by simp)
      · exact absurd h (by simp)

theorem cmdGetEx_reproduces (hR : T (ascii "PERSIST") = some ⟨2, .write cmdPersist⟩) (env : Env)
    (args : Args) : Reproduces ok T v (cmdGetEx v env args : Op S (Reply × List Args)) := by
  unfold cmdGetEx
  split
  · rename_i key opts
    split
    · exact reproduces_ret _
    · rename_i o ho
      apply reproduces_edit
      rintro (_ | ⟨b | _ | _ | _ | _ | _, d⟩) _
      · rfl
      · cases o with
        | keep => rfl
        | persist =>
          dsimp only [GetExOpts.deadline?]
          split
          · rename_i hd
            have hR' : T (toUpper (ascii "PERSIST")) = some ⟨2, .write cmdPersist⟩ := hR
            refine ⟨trivial, .inr ⟨_, rfl, by simp only [getexWireForm, ordinary]; decide,
              timeless_write (resolve_cons hR' rfl), ?_⟩⟩
            intro env
            refine assigns_write hR' rfl env (assigns_map ?_ _)
            apply assigns_put (a := true)
            simp [Option.isNone_iff_eq_none, hd]
          · rfl
        | deadline ms =>
          obtain ⟨hpos, hmax⟩ := parseGetExOpts_range (now_range env).1 (now_range env).2 ho
          have hmin : minInt64 ≤ ms := by
            unfold minInt64
            omega
          dsimp only [GetExOpts.deadline?]
          split
          · exact ⟨trivial, .inr (pexpireatForm_ships hP key hmin hmax _)⟩
          · rfl
      all_goals rfl
  · exact reproduces_ret _

end ShardKV.Commands
