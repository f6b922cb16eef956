import ShardKV.Commands.Hashes

/-! The set commands. SPOP takes members in the order the Go map yields them and
ships the SREM that removes them. -/

namespace ShardKV.Commands

open Access Data Resp Server Decimal Prog

variable {S : Type} [Numeric S]

/-- Replace the set of an entry, removing the key when the set is empty. -/
def setEdit {α : Type} (expireAt : Option ℤ) (m : Finset Bytes) (a : α) : Edit (Entry S) α :=
  if m = ∅ then .drop a else .put ⟨.set m, expireAt⟩ a

/-- Add members in order, counting the new ones. -/
def setPutAll : Finset Bytes × ℤ → List Bytes → Finset Bytes × ℤ
  | r, [] => r
  | (m, added), x :: xs => setPutAll (insert x m, if x ∈ m then added else added + 1) xs

/-- Drop members in order, counting those that were there. -/
def setDropAll : Finset Bytes × ℤ → List Bytes → Finset Bytes × ℤ
  | r, [] => r
  | (m, removed), x :: xs => setDropAll (m.erase x, if x ∈ m then removed + 1 else removed) xs

/-- `SAdd`: how many members are new. -/
def sAdd (k : Loc) (members : List Bytes) : Op S (Except StoreErr ℤ) :=
  edit k fun e =>
    let add (m : Finset Bytes) (expireAt : Option ℤ) :=
      let (m, added) := setPutAll (m, 0) members
      .put ⟨.set m, expireAt⟩ (.ok added)
    match e with
    | some ⟨.set m, expireAt⟩ => add m expireAt
    | some _ => .keep (.error .wrongType)
    | none => add ∅ none

/-- `SRem`: how many members were removed. -/
def sRem (k : Loc) (members : List Bytes) : Op S (Except StoreErr ℤ) :=
  edit k fun
    | none => .keep (.ok 0)
    | some ⟨.set m, expireAt⟩ =>
      let (m, removed) := setDropAll (m, 0) members
      setEdit expireAt m (.ok removed)
    | some _ => .keep (.error .wrongType)

/-- `SPop`: nothing when the key is missing. -/
def sPop (order : Finset Bytes → List Bytes) (k : Loc) (count : ℤ) :
    Op S (Except StoreErr (Option (List Bytes))) :=
  edit k fun
    | none => .keep (.ok none)
    | some ⟨.set m, expireAt⟩ =>
      let members := (order m).take count.toNat
      setEdit expireAt (setDropAll (m, 0) members).1 (.ok (some members))
    | some _ => .keep (.error .wrongType)

/-- The set an entry holds, the empty one for no entry. -/
def setOf : Option (Entry S) → Except StoreErr (Finset Bytes × Option ℤ)
  | some ⟨.set m, expireAt⟩ => .ok (m, expireAt)
  | some _ => .error .wrongType
  | none => .ok (∅, none)

def sMove (src dst : Loc) (member : Bytes) : Op S (Except StoreErr Bool) :=
  .read src fun
    | none => pure (.ok false)
    | some ⟨.set m, expireAt⟩ =>
      if src = dst then pure (.ok (decide (member ∈ m)))
      else
        .read dst fun de =>
          match setOf de with
          | .error err => pure (.error err)
          | .ok (dm, dExpireAt) =>
            if member ∉ m then pure (.ok false)
            else
              .write src (if m.erase member = ∅ then none else some ⟨.set (m.erase member), expireAt⟩)
                (.write dst (some ⟨.set (insert member dm), dExpireAt⟩) (pure (.ok true)))
    | some _ => pure (.error .wrongType)

inductive SetOp
  | inter
  | union
  | diff
  deriving DecidableEq

def SetOp.combine : SetOp → List (Finset Bytes) → Finset Bytes
  | _, [] => ∅
  | .union, m :: ms => ms.foldl (· ∪ ·) m
  | .inter, m :: ms => ms.foldl (· ∩ ·) m
  | .diff, m :: ms => ms.foldl (· \ ·) m

/-- The input sets, read in order; a missing key is empty. -/
def readSets : List Loc → Op S (Except StoreErr (List (Finset Bytes)))
  | [] => pure (.ok [])
  | k :: ks => .read k fun e =>
    match setOf e with
    | .error err => pure (.error err)
    | .ok (m, _) => (fun r => r.map (m :: ·)) <$> readSets ks

/-- `SCombineStore`: the size of the result, and whether anything changed. -/
def sCombineStore (op : SetOp) (dst : Loc) (keys : List Loc) : Op S (Except StoreErr (ℤ × Bool)) :=
  do
    match ← readSets keys with
    | .error err => pure (.error err)
    | .ok ms =>
      let m := op.combine ms
      edit dst fun e =>
        if m = ∅ then .drop (.ok (0, e.isSome)) else .put ⟨.set m, none⟩ (.ok (m.card, true))

def cmdSAdd (v : View) : Args → Op S (Reply × Bool)
  | _ :: key :: members => countReply <$> sAdd (v.loc key) members
  | _ => pure (syntaxErr, false)

def cmdSRem (v : View) : Args → Op S (Reply × Bool)
  | _ :: key :: members => countReply <$> sRem (v.loc key) members
  | _ => pure (syntaxErr, false)

/-- The effect of a pop: the removal of what was popped. -/
def removalEffect (name : String) (key : Bytes) (members : List Bytes) : List Args :=
  if members.isEmpty then [] else [ascii name :: key :: members]

def spopReply (single : Bool) : Option (List Bytes) → Reply
  | none => if single then .null else .array []
  | some members =>
    if single then
      match members with
      | [] => .null
      | x :: _ => .bulk x
    else .array (members.map .bulk)

def spop (single : Bool) (count : ℤ) (v : View) (env : Env) (key : Bytes) :
    Op S (Reply × List Args) :=
  (fun
    | .error err => (storeErrReply err, [])
    | .ok members => (spopReply single members, removalEffect "SREM" key (members.getD []))) <$>
    sPop env.order (v.loc key) count

def cmdSPop (v : View) (env : Env) : Args → Op S (Reply × List Args)
  | [_, key] => spop true 1 v env key
  | [_, key, count] =>
    match parseInt64 count with
    | none => pure (notIntegerErr, [])
    | some n => if n < 0 then pure (notPositiveErr, []) else spop false n v env key
  | _ => pure (errorReply "ERR wrong number of arguments for 'spop' command", [])

def cmdSMove (v : View) : Args → Op S (Reply × Bool)
  | [_, src, dst, member] =>
    (fun
      | .error err => (storeErrReply err, false)
      | .ok moved => boolReply moved) <$> sMove (v.loc src) (v.loc dst) member
  | _ => pure (syntaxErr, false)

def setCombineStore (op : SetOp) (v : View) : Args → Op S (Reply × Bool)
  | _ :: dst :: keys =>
    (fun
      | .error err => (storeErrReply err, false)
      | .ok (n, changed) => (.int n, changed)) <$>
      sCombineStore op (v.loc dst) (keys.map v.loc)
  | _ => pure (syntaxErr, false)

def cmdSInterStore : View → Args → Op S (Reply × Bool) := setCombineStore .inter

def cmdSUnionStore : View → Args → Op S (Reply × Bool) := setCombineStore .union

def cmdSDiffStore : View → Args → Op S (Reply × Bool) := setCombineStore .diff

def cmdSCard (v : View) (_ : Env) : Args → Op S Reply
  | [_, key] => .read (v.loc key) fun e =>
    match setOf e with
    | .error err => pure (storeErrReply err)
    | .ok (m, _) => pure (.int m.card)
  | _ => pure syntaxErr

section Soundness

variable {ok : Data.Stream → Prop} (v : View) (args : Args)

/-- The count of new members grows from its start, and stays there only when no
member is new. -/
theorem setPutAll_spec (r : Finset Bytes × ℤ) (members : List Bytes) :
    r.2 ≤ (setPutAll r members).2 ∧
      ((setPutAll r members).2 = r.2 → (setPutAll r members).1 = r.1) := by
  induction members generalizing r with
  | nil => exact ⟨le_refl _, fun _ => rfl⟩
  | cons x xs ih =>
    obtain ⟨m, added⟩ := r
    obtain ⟨hle, hsame⟩ := ih (insert x m, if x ∈ m then added else added + 1)
    by_cases hx : x ∈ m
    · simp only [hx, if_true, Finset.insert_eq_of_mem] at hle hsame
      simp only [setPutAll, hx, if_true, Finset.insert_eq_of_mem]
      exact ⟨hle, hsame⟩
    · simp only [hx, if_false] at hle hsame
      simp only [setPutAll, hx, if_false]
      exact ⟨by omega, fun heq => by omega⟩

theorem setPutAll_ne_empty {r : Finset Bytes × ℤ} {members : List Bytes}
    (h : r.1 ≠ ∅ ∨ members ≠ []) : (setPutAll r members).1 ≠ ∅ := by
  induction members generalizing r with
  | nil => simpa [setPutAll] using h
  | cons x xs ih => exact ih (.inl (Finset.insert_ne_empty _ _))

theorem setDropAll_spec (r : Finset Bytes × ℤ) (members : List Bytes) :
    r.2 ≤ (setDropAll r members).2 ∧
      ((setDropAll r members).2 = r.2 → (setDropAll r members).1 = r.1) := by
  induction members generalizing r with
  | nil => exact ⟨le_refl _, fun _ => rfl⟩
  | cons x xs ih =>
    obtain ⟨m, removed⟩ := r
    obtain ⟨hle, hsame⟩ := ih (m.erase x, if x ∈ m then removed + 1 else removed)
    by_cases hx : x ∈ m
    · simp only [hx, if_true] at hle hsame
      simp only [setDropAll, hx, if_true]
      exact ⟨by omega, fun heq => by omega⟩
    · simp only [hx, if_false, Finset.erase_eq_of_notMem, not_false_eq_true] at hle hsame
      simp only [setDropAll, hx, if_false, Finset.erase_eq_of_notMem, not_false_eq_true]
      exact ⟨hle, hsame⟩

theorem cmdSAdd_sound (h : 3 ≤ args.length) :
    (cmdSAdd v args : Op S _).Sound (Proper ok) Prod.snd := by
  unfold cmdSAdd
  split
  · rename_i members
    have hmembers : members ≠ [] := by
      rintro rfl
      simp at h
    apply sound_map
    apply sound_edit
    rintro (_ | ⟨_ | _ | _ | m | _ | _, d⟩) _
    · refine ⟨setPutAll_ne_empty (.inr hmembers), .inl ?_⟩
      obtain ⟨hle, hsame⟩ := setPutAll_spec (∅, 0) members
      have hne := setPutAll_ne_empty (r := (∅, 0)) (.inr hmembers)
      have hpos : 0 < (setPutAll (∅, 0) members).2 := by
        rcases lt_or_eq_of_le hle with hlt | heq
        · exact hlt
        · exact absurd (hsame heq.symm) hne
      exact decide_eq_true hpos
    · trivial
    · trivial
    · trivial
    · refine ⟨setPutAll_ne_empty (.inr hmembers), ?_⟩
      obtain ⟨hle, hsame⟩ := setPutAll_spec (m, 0) members
      rcases lt_or_eq_of_le hle with hlt | heq
      · exact .inl (decide_eq_true hlt)
      · exact .inr (by rw [hsame heq.symm])
    all_goals trivial
  · exact sound_ret _

theorem setEdit_sound {α : Type} {dirty : α → Bool} {d : Option ℤ} {m m' : Finset Bytes} {a : α}
    (hm : m ≠ ∅) (h : dirty a = true ∨ m' = m) :
    (setEdit d m' a : Edit (Entry S) α).Sound (Proper ok) dirty (some ⟨.set m, d⟩) := by
  apply Edit.sound_unless
  · exact id
  · refine h.imp_right ?_
    rintro rfl
    exact ⟨hm, rfl⟩

theorem cmdSRem_sound : (cmdSRem v args : Op S _).Sound (Proper ok) Prod.snd := by
  unfold cmdSRem
  split
  · rename_i members
    apply sound_map
    apply sound_edit
    rintro (_ | ⟨_ | _ | _ | m | _ | _, d⟩) he
    · trivial
    · trivial
    · trivial
    · trivial
    · obtain ⟨hle, hsame⟩ := setDropAll_spec (m, 0) members
      apply setEdit_sound (he _ rfl)
      rcases lt_or_eq_of_le hle with hlt | heq
      · exact .inl (decide_eq_true hlt)
      · exact .inr (hsame heq.symm)
    all_goals trivial
  · exact sound_ret _

theorem cmdSMove_sound : (cmdSMove v args : Op S _).Sound (Proper ok) Prod.snd := by
  unfold cmdSMove
  split
  · rename_i member
    apply sound_map
    apply sound_read
    rintro (_ | ⟨_ | _ | _ | m | _ | _, d⟩) _
    · exact sound_ret _
    · exact sound_ret _
    · exact sound_ret _
    · exact sound_ret _
    · dsimp only
      split
      · exact sound_ret _
      · apply sound_read
        intro de _
        cases setOf de with
        | error err => exact sound_ret _
        | ok dm =>
          obtain ⟨dm, dd⟩ := dm
          dsimp only
          split
          · exact sound_ret _
          · have hput : Proper ok (⟨.set (insert member dm), dd⟩ : Entry S) :=
              Finset.insert_ne_empty _ _
            apply sound_of_dirty
            · refine keeps_write ?_ (keeps_put hput (keeps_ret _))
              intro x hx
              split at hx
              · exact absurd hx (by simp)
              · rename_i hne
                rw [← Option.some.inj hx]
                exact hne
            · exact fun _ _ => rfl
    all_goals exact sound_ret _
  · exact sound_ret _

theorem readSets_readOnly (keys : List Loc) :
    (readSets keys : Op S (Except StoreErr (List (Finset Bytes)))).ReadOnly := by
  induction keys with
  | nil => trivial
  | cons k ks ih =>
    intro e
    dsimp only
    cases setOf e with
    | error err => trivial
    | ok m => exact readOnly_map ih _

theorem setCombineStore_sound (op : SetOp) :
    (setCombineStore op v args : Op S _).Sound (Proper ok) Prod.snd := by
  unfold setCombineStore
  split
  · apply sound_map
    apply sound_bind_readOnly (readSets_readOnly _)
    rintro (err | ms)
    · exact sound_ret _
    · apply sound_edit
      intro e _
      split
      · cases e with
        | none => exact .inr rfl
        | some e => exact .inl rfl
      · exact ⟨‹_›, .inl rfl⟩
  · exact sound_ret _

theorem cmdSCard_readOnly (env : Env) : (cmdSCard v env args : Op S Reply).ReadOnly := by
  unfold cmdSCard
  split
  · rintro (_ | ⟨_ | _ | _ | _ | _ | _, d⟩) <;> trivial
  · trivial

end Soundness

variable {ok : Data.Stream → Prop} {T : Table S} {v : View}

/-- A pop that took something ships one removal. -/
theorem removalEffect_cons (name : String) (key : Bytes) {members : List Bytes} (h : members ≠ []) :
    removalEffect name key members = [ascii name :: key :: members] := by
  unfold removalEffect
  rw [if_neg (by simpa using h)]

theorem arityOK_members (key : Bytes) {members : List Bytes} (h : members ≠ []) :
    arityOK (-3) ((key :: members).length + 1) = true := by
  have := List.length_pos_iff.mpr h
  simp [arityOK]
  omega

variable (hT : T (ascii "SREM") = some ⟨-3, .write cmdSRem⟩)
include hT

/-- What an edit of a set leaves, the shipped SREM leaves too. -/
theorem srem_assigns (key : Bytes) {members : List Bytes} (hne : members ≠ []) (env : Env)
    (m : Finset Bytes) (d : Option ℤ) :
    (T.applyCommand v env (ascii "SREM" :: key :: members)).Assigns (v.loc key)
      (some ⟨.set m, d⟩)
      (if (setDropAll (m, 0) members).1 = ∅ then none
        else some ⟨.set (setDropAll (m, 0) members).1, d⟩) := by
  have hT' : T (toUpper (ascii "SREM")) = some ⟨-3, .write cmdSRem⟩ := hT
  refine assigns_write hT' (arityOK_members key hne) env (assigns_map ?_ _)
  exact assigns_unless (a := .ok (setDropAll (m, 0) members).2) rfl

theorem spop_reproduces (single : Bool) (count : ℤ) (env : Env) (key : Bytes) :
    Reproduces ok T v (spop single count v env key : Op S (Reply × List Args)) := by
  apply reproduces_edit
  rintro (_ | ⟨_ | _ | _ | m | _ | _, d⟩) he
  · rfl
  · rfl
  · rfl
  · rfl
  · have hm : m ≠ ∅ := he _ rfl
    by_cases hnil : (env.order m).take count.toNat = []
    · simp only [hnil, setDropAll, setEdit, if_neg hm]
      exact ⟨hm, .inl ⟨rfl, rfl⟩⟩
    · have hord : ordinary (ascii "SREM" :: key :: (env.order m).take count.toNat) = true := by
        simp only [ordinary]
        decide
      have hT' : T (toUpper (ascii "SREM")) = some ⟨-3, .write cmdSRem⟩ := hT
      exact editReproduces_unless id ⟨_, removalEffect_cons "SREM" key hnil, hord,
        timeless_write (resolve_cons hT' (arityOK_members key hnil)),
        fun env' => srem_assigns hT key hnil env' m d⟩
  all_goals rfl

theorem cmdSPop_reproduces (env : Env) (args : Args) :
    Reproduces ok T v (cmdSPop v env args : Op S (Reply × List Args)) := by
  unfold cmdSPop
  split
  · exact spop_reproduces hT _ _ _ _
  · split
    · exact reproduces_ret _
    · split
      · exact reproduces_ret _
      · exact spop_reproduces hT _ _ _ _
  · exact reproduces_ret _

end ShardKV.Commands
