import ShardKV.Commands.Lists

/-! The hash commands. A hash is a finite map from fields to values. The
increments insert the empty hash of a missing key before they can fail, as
`hashForWrite` does. -/

namespace ShardKV.Commands

open Access Data Resp Server Decimal Prog

variable {S : Type} [Numeric S]

abbrev Hash := Finmap fun _ : Bytes => Bytes

/-- Put the pairs in order, counting the fields that were not there. -/
def hashPutAll : Hash × ℤ → List (Bytes × Bytes) → Hash × ℤ
  | r, [] => r
  | (h, created), (f, val) :: ps =>
    hashPutAll (h.insert f val, if f ∈ h then created else created + 1) ps

/-- Drop the fields in order, counting those that were there. -/
def hashDropAll : Hash × ℤ → List Bytes → Hash × ℤ
  | r, [] => r
  | (h, removed), f :: fs => hashDropAll (h.erase f, if f ∈ h then removed + 1 else removed) fs

/-- `HSet`: how many fields are new. -/
def hSet (k : Loc) (ps : List (Bytes × Bytes)) : Op S (Except StoreErr ℤ) :=
  edit k fun e =>
    let set (h : Hash) (expireAt : Option ℤ) :=
      let (h, created) := hashPutAll (h, 0) ps
      .put ⟨.hash h, expireAt⟩ (.ok created)
    match e with
    | some ⟨.hash h, expireAt⟩ => set h expireAt
    | some _ => .keep (.error .wrongType)
    | none => set ∅ none

/-- `HDel`: how many fields were removed. -/
def hDel (k : Loc) (fields : List Bytes) : Op S (Except StoreErr ℤ) :=
  edit k fun
    | none => .keep (.ok 0)
    | some ⟨.hash h, expireAt⟩ =>
      let (h, removed) := hashDropAll (h, 0) fields
      if h = ∅ then .drop (.ok removed) else .put ⟨.hash h, expireAt⟩ (.ok removed)
    | some _ => .keep (.error .wrongType)

def hSetNX (k : Loc) (field val : Bytes) : Op S (Except StoreErr Bool) :=
  edit k fun
    | some ⟨.hash h, expireAt⟩ =>
      if field ∈ h then .keep (.ok false)
      else .put ⟨.hash (h.insert field val), expireAt⟩ (.ok true)
    | some _ => .keep (.error .wrongType)
    | none => .put ⟨.hash ((∅ : Hash).insert field val), none⟩ (.ok true)

/-- An increment of one field. `next` computes the new text from the current one. -/
def hashIncr {α : Type} (k : Loc) (field : Bytes)
    (next : Option Bytes → Except StoreErr (Bytes × α)) : Op S (Except StoreErr α) :=
  edit k fun
    | some ⟨.hash h, expireAt⟩ =>
      match next (h.lookup field) with
      | .error err => .keep (.error err)
      | .ok (text, a) => .put ⟨.hash (h.insert field text), expireAt⟩ (.ok a)
    | some _ => .keep (.error .wrongType)
    | none =>
      match next none with
      | .error err => .put ⟨.hash ∅, none⟩ (.error err)
      | .ok (text, a) => .put ⟨.hash ((∅ : Hash).insert field text), none⟩ (.ok a)

def nextInt (delta : ℤ) (cur : Option Bytes) : Except StoreErr (Bytes × ℤ) :=
  let n : Except StoreErr ℤ :=
    match cur with
    | none => .ok 0
    | some b =>
      match parseInt64 b with
      | none => .error .hashNotInteger
      | some n => .ok n
  match n with
  | .error err => .error err
  | .ok n =>
    match addInt64 n delta with
    | none => .error .overflow
    | some n => .ok (formatInt n, n)

def hIncrBy (k : Loc) (field : Bytes) (delta : ℤ) : Op S (Except StoreErr ℤ) :=
  hashIncr k field (nextInt delta)

def nextFloat (delta : Numeric.Long S) (cur : Option Bytes) : Except StoreErr (Bytes × Bytes) :=
  let n : Except StoreErr (Numeric.Long S) :=
    match cur with
    | none => .ok Numeric.longZero
    | some b =>
      match Numeric.parseLong b with
      | none => .error .hashNotFloat
      | some n => .ok n
  match n with
  | .error err => .error err
  | .ok n =>
    match Numeric.longAdd n delta with
    | none => .error .nan
    | some sum => .ok (Numeric.longText sum, Numeric.longText sum)

def hIncrByFloat (k : Loc) (field : Bytes) (delta : Numeric.Long S) :
    Op S (Except StoreErr Bytes) :=
  hashIncr k field (nextFloat delta)

def cmdHSet (v : View) (args : Args) : Op S (Reply × Bool) :=
  match args with
  | _ :: key :: rest =>
    if args.length % 2 ≠ 0 then
      pure (errorReply "ERR wrong number of arguments for 'hset' command", false)
    else intReply <$> hSet (v.loc key) (pairs rest)
  | _ => pure (syntaxErr, false)

def cmdHMSet (v : View) (args : Args) : Op S (Reply × Bool) :=
  match args with
  | _ :: key :: rest =>
    if args.length % 2 ≠ 0 then
      pure (errorReply "ERR wrong number of arguments for 'hmset' command", false)
    else
      (fun
        | .error err => (storeErrReply err, false)
        | .ok _ => (.simple "OK", true)) <$> hSet (v.loc key) (pairs rest)
  | _ => pure (syntaxErr, false)

def cmdHDel (v : View) : Args → Op S (Reply × Bool)
  | _ :: key :: fields => countReply <$> hDel (v.loc key) fields
  | _ => pure (syntaxErr, false)

def cmdHSetNX (v : View) : Args → Op S (Reply × Bool)
  | [_, key, field, val] =>
    (fun
      | .error err => (storeErrReply err, false)
      | .ok set => boolReply set) <$> hSetNX (v.loc key) field val
  | _ => pure (syntaxErr, false)

def cmdHIncrBy (v : View) : Args → Op S (Reply × Bool)
  | [_, key, field, by_] =>
    match parseInt64 by_ with
    | none => pure (notIntegerErr, false)
    | some delta => intReply <$> hIncrBy (v.loc key) field delta
  | _ => pure (syntaxErr, false)

def cmdHIncrByFloat (v : View) (_ : Env) : Args → Op S (Reply × List Args)
  | [_, key, field, by_] =>
    match Numeric.parseLong (S := S) by_ with
    | none => pure (errorReply "ERR value is not a valid float", [])
    | some delta =>
      if Numeric.longIsInf delta then pure (errorReply "ERR value is NaN or Infinity", [])
      else
        (fun
          | .error err => (storeErrReply err, [])
          | .ok text => (.bulk text, [[ascii "HSET", key, field, text]])) <$>
          hIncrByFloat (v.loc key) field delta
  | _ => pure (syntaxErr, [])

def cmdHGet (v : View) (_ : Env) : Args → Op S Reply
  | [_, key, field] => .read (v.loc key) fun
    | some ⟨.hash h, _⟩ =>
      match h.lookup field with
      | some b => pure (.bulk b)
      | none => pure .null
    | some _ => pure (storeErrReply .wrongType)
    | none => pure .null
  | _ => pure syntaxErr

section Soundness

variable {ok : Data.Stream → Prop} (v : View) (args : Args)

theorem hash_insert_ne_empty (h : Hash) (f val : Bytes) : h.insert f val ≠ ∅ := by
  intro hempty
  have hmem : f ∈ h.insert f val := Finmap.mem_insert.mpr (.inl rfl)
  rw [hempty] at hmem
  exact Finmap.notMem_empty hmem

theorem hashPutAll_ne_empty {r : Hash × ℤ} {ps : List (Bytes × Bytes)} (h : r.1 ≠ ∅ ∨ ps ≠ []) :
    (hashPutAll r ps).1 ≠ ∅ := by
  induction ps generalizing r with
  | nil => simpa [hashPutAll] using h
  | cons p ps ih => exact ih (.inl (hash_insert_ne_empty _ _ _))

theorem hSet_sound {β : Type} {g : Except StoreErr ℤ → β} {dirty : β → Bool}
    (hg : ∀ n, dirty (g (.ok n)) = true) (k : Loc) {ps : List (Bytes × Bytes)} (hps : ps ≠ []) :
    (g <$> hSet k ps : Op S β).Sound (Proper ok) dirty := by
  apply sound_map
  apply sound_edit
  rintro (_ | ⟨_ | _ | h | _ | _ | _, d⟩) _
  · exact ⟨hashPutAll_ne_empty (.inr hps), .inl (hg _)⟩
  · trivial
  · trivial
  · exact ⟨hashPutAll_ne_empty (.inr hps), .inl (hg _)⟩
  all_goals trivial

theorem pairs_ne_nil {name key : Bytes} {rest : List Bytes} (h : 4 ≤ (name :: key :: rest).length) :
    pairs rest ≠ [] := by
  match rest with
  | [] | [_] => simp at h
  | _ :: _ :: _ => simp [pairs]

theorem cmdHSet_sound (h : 4 ≤ args.length) :
    (cmdHSet v args : Op S _).Sound (Proper ok) Prod.snd := by
  unfold cmdHSet
  split
  · split
    · exact sound_ret _
    · exact hSet_sound (fun _ => rfl) _ (pairs_ne_nil h)
  · exact sound_ret _

theorem cmdHMSet_sound (h : 4 ≤ args.length) :
    (cmdHMSet v args : Op S _).Sound (Proper ok) Prod.snd := by
  unfold cmdHMSet
  split
  · split
    · exact sound_ret _
    · exact hSet_sound (fun _ => rfl) _ (pairs_ne_nil h)
  · exact sound_ret _

/-- The count of removed fields grows from its start, and stays there only when
no field was removed. -/
theorem hashDropAll_spec (r : Hash × ℤ) (fields : List Bytes) :
    r.2 ≤ (hashDropAll r fields).2 ∧
      ((hashDropAll r fields).2 = r.2 → (hashDropAll r fields).1 = r.1) := by
  induction fields generalizing r with
  | nil => exact ⟨le_refl _, fun _ => rfl⟩
  | cons f fs ih =>
    obtain ⟨h, removed⟩ := r
    obtain ⟨hle, hsame⟩ := ih (h.erase f, if f ∈ h then removed + 1 else removed)
    by_cases hf : f ∈ h
    · simp only [hf, if_true] at hle hsame
      simp only [hashDropAll, hf, if_true]
      exact ⟨by omega, fun heq => by omega⟩
    · have herase : h.erase f = h := by
        apply Finmap.ext_lookup
        intro x
        by_cases hx : x = f
        · subst hx
          rw [Finmap.lookup_erase, Finmap.lookup_eq_none.mpr hf]
        · rw [Finmap.lookup_erase_ne hx]
      simp only [hf, if_false, herase] at hle hsame
      simp only [hashDropAll, hf, if_false, herase]
      exact ⟨hle, hsame⟩

theorem cmdHDel_sound : (cmdHDel v args : Op S _).Sound (Proper ok) Prod.snd := by
  unfold cmdHDel
  split
  · rename_i fields
    apply sound_map
    apply sound_edit
    rintro (_ | ⟨_ | _ | h | _ | _ | _, d⟩) he
    · trivial
    · trivial
    · trivial
    · have hne : h ≠ ∅ := he _ rfl
      have hspec := hashDropAll_spec (h, 0) fields
      dsimp only
      cases hr : hashDropAll (h, 0) fields with
      | mk h' removed =>
        simp only [hr] at hspec
        by_cases hpos : 0 < removed
        · split
          · exact .inl (decide_eq_true hpos)
          · exact ⟨‹_›, .inl (decide_eq_true hpos)⟩
        · have hsame : h' = h := hspec.2 (by omega)
          rw [hsame, if_neg hne]
          exact ⟨hne, .inr rfl⟩
    all_goals trivial
  · exact sound_ret _

theorem cmdHSetNX_sound : (cmdHSetNX v args : Op S _).Sound (Proper ok) Prod.snd := by
  unfold cmdHSetNX
  split
  · apply sound_map
    apply sound_edit
    rintro (_ | ⟨_ | _ | h | _ | _ | _, d⟩) _
    · exact ⟨hash_insert_ne_empty _ _ _, .inl rfl⟩
    · trivial
    · trivial
    · dsimp only
      split
      · trivial
      · exact ⟨hash_insert_ne_empty _ _ _, .inl rfl⟩
    all_goals trivial
  · exact sound_ret _

/-- An increment of a field that is not there cannot fail, so no empty hash is
ever left behind. -/
theorem nextInt_none {delta : ℤ} (hmin : minInt64 ≤ delta) (hmax : delta ≤ maxInt64) :
    nextInt delta none = .ok (formatInt delta, delta) := by
  unfold minInt64 at hmin
  unfold maxInt64 at hmax
  have hadd : addInt64 0 delta = some delta := by
    unfold addInt64 maxInt64 minInt64
    rw [if_neg (by omega), zero_add]
  simp [nextInt, hadd]

theorem cmdHIncrBy_sound : (cmdHIncrBy v args : Op S _).Sound (Proper ok) Prod.snd := by
  unfold cmdHIncrBy
  split
  · rename_i field by_
    split
    · exact sound_ret _
    · rename_i delta hdelta
      obtain ⟨hmin, hmax⟩ := parseInt64_range hdelta
      apply sound_map
      apply sound_edit
      rintro (_ | ⟨_ | _ | h | _ | _ | _, d⟩) _
      · simp only [nextInt_none hmin hmax]
        exact ⟨hash_insert_ne_empty _ _ _, .inl rfl⟩
      · trivial
      · trivial
      · dsimp only
        cases nextInt delta (h.lookup field) with
        | error err => trivial
        | ok r => exact ⟨hash_insert_ne_empty _ _ _, .inl rfl⟩
      all_goals trivial
  · exact sound_ret _

theorem cmdHGet_readOnly (env : Env) : (cmdHGet v env args : Op S Reply).ReadOnly := by
  unfold cmdHGet
  split
  · rename_i field
    rintro (_ | ⟨_ | _ | h | _ | _ | _, d⟩)
    · trivial
    · trivial
    · trivial
    · dsimp only
      cases h.lookup field <;> trivial
    all_goals trivial
  · trivial

end Soundness

variable {ok : Data.Stream → Prop} {T : Table S} {v : View} (hT : T (ascii "HSET") = some ⟨-4, .write cmdHSet⟩)
include hT

theorem hset_assigns (key field text : Bytes) (env : Env) {e : Option (Entry S)} {h : Hash}
    {d : Option ℤ} (he : e = some ⟨.hash h, d⟩ ∨ e = none ∧ h = ∅ ∧ d = none) :
    (T.applyCommand v env [ascii "HSET", key, field, text]).Assigns (v.loc key) e
      (some ⟨.hash (h.insert field text), d⟩) := by
  have hT' : T (toUpper (ascii "HSET")) = some ⟨-4, .write cmdHSet⟩ := hT
  refine assigns_write hT' rfl env ?_
  unfold cmdHSet
  dsimp only
  rw [if_neg (by simp)]
  apply assigns_map
  obtain rfl | ⟨rfl, rfl, rfl⟩ := he
  · exact assigns_put rfl
  · exact assigns_put rfl

theorem hset_ships (key field text : Bytes) {e : Option (Entry S)} {h : Hash} {d : Option ℤ}
    (he : e = some ⟨.hash h, d⟩ ∨ e = none ∧ h = ∅ ∧ d = none) :
    Ships T v (v.loc key) e (some ⟨.hash (h.insert field text), d⟩)
      [[ascii "HSET", key, field, text]] := by
  have hT' : T (toUpper (ascii "HSET")) = some ⟨-4, .write cmdHSet⟩ := hT
  refine ⟨_, rfl, ?_, timeless_write (resolve_cons hT' rfl),
    fun env => hset_assigns hT key field text env he⟩
  simp only [ordinary]
  decide

theorem cmdHIncrByFloat_reproduces (env : Env) (args : Args) :
    Reproduces ok T v (cmdHIncrByFloat v env args : Op S (Reply × List Args)) := by
  unfold cmdHIncrByFloat
  split
  · rename_i key field by_
    split
    · exact reproduces_ret _
    · rename_i delta _
      split
      · exact reproduces_ret _
      · rename_i hinf
        apply reproduces_edit
        rintro (_ | ⟨_ | _ | h | _ | _ | _, d⟩) _
        · obtain ⟨sum, hsum⟩ := Option.isSome_iff_exists.mp
            (Numeric.longAdd_zero delta (by simpa using hinf))
          have hnext : nextFloat delta none = .ok (Numeric.longText sum, Numeric.longText sum) := by
            simp [nextFloat, hsum]
          dsimp only
          rw [hnext]
          exact ⟨hash_insert_ne_empty _ _ _, .inr (hset_ships hT key field _ (.inr ⟨rfl, rfl, rfl⟩))⟩
        · rfl
        · rfl
        · dsimp only
          cases hn : nextFloat delta (h.lookup field) with
          | error err => rfl
          | ok r =>
            obtain ⟨text, shown⟩ := r
            have hsame : shown = text := by
              unfold nextFloat at hn
              grind
            subst hsame
            exact ⟨hash_insert_ne_empty _ _ _, .inr (hset_ships hT key field _ (.inl rfl))⟩
        all_goals rfl
  · exact reproduces_ret _

end ShardKV.Commands
