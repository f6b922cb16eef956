import ShardKV.Commands.Table
import ShardKV.Commands.Streams

/-! Where the commands write. A handler is a program whose text is data, so the
keys it may write are read off its text: the first operand for most commands, the
first two for the ones that move something, every operand for DEL, and the keys of
the pairs for MSET. -/

namespace ShardKV.Commands

open Access Data Resp Server Prog

variable {S : Type} [Numeric S] (v : View) (env : Env) (args : Args)

/-- The first operand, as a key of the caller's database. -/
def firstKey : Set Loc := {k | ∃ key, args[1]? = some key ∧ k = v.loc key}

def firstTwoKeys : Set Loc :=
  {k | ∃ key, (args[1]? = some key ∨ args[2]? = some key) ∧ k = v.loc key}

def operandKeys : Set Loc := {k | ∃ key ∈ args.tail, k = v.loc key}

def listedKeys (keys : List Bytes) : Set Loc := {k | ∃ key ∈ keys, k = v.loc key}

section Sets

variable {v} {name key key' : Bytes} {rest : List Bytes}

@[simp] theorem loc_mem_firstKey : v.loc key ∈ firstKey v (name :: key :: rest) := ⟨key, rfl, rfl⟩

@[simp] theorem loc_mem_firstTwoKeys : v.loc key ∈ firstTwoKeys v (name :: key :: rest) :=
  ⟨key, .inl rfl, rfl⟩

@[simp] theorem loc_mem_firstTwoKeys' : v.loc key' ∈ firstTwoKeys v (name :: key :: key' :: rest) :=
  ⟨key', .inr rfl, rfl⟩

theorem loc_mem_listedKeys {keys : List Bytes} (h : key ∈ keys) : v.loc key ∈ listedKeys v keys :=
  ⟨key, h, rfl⟩

theorem listedKeys_mono {keys keys' : List Bytes} (h : keys ⊆ keys') :
    listedKeys v keys ⊆ listedKeys v keys' := by
  rintro k ⟨key, hkey, rfl⟩
  exact ⟨key, h hkey, rfl⟩

end Sets

theorem cmdSet_writesIn : (cmdSet v env args : Op S _).WritesIn (firstKey v args) := by
  unfold cmdSet
  split
  · split <;> simp [setWithOptions]
  · simp

theorem setex_writesIn (name : String) (unitMs : ℤ) :
    (setex name unitMs v env args : Op S _).WritesIn (firstKey v args) := by
  unfold setex
  split
  · split <;> simp [setDeadline]
  · simp

theorem cmdGetEx_writesIn : (cmdGetEx v env args : Op S _).WritesIn (firstKey v args) := by
  unfold cmdGetEx
  split
  · split <;> simp [getEx]
  · simp

theorem cmdIncrByFloat_writesIn : (cmdIncrByFloat v env args : Op S _).WritesIn (firstKey v args) := by
  unfold cmdIncrByFloat
  split
  · split <;> simp [incrByFloat]
  · simp

theorem cmdIncr_writesIn : (cmdIncr v args : Op S _).WritesIn (firstKey v args) := by
  unfold cmdIncr
  split <;> simp [incr]

theorem cmdDecr_writesIn : (cmdDecr v args : Op S _).WritesIn (firstKey v args) := by
  unfold cmdDecr
  split <;> simp [incr]

theorem cmdIncrBy_writesIn : (cmdIncrBy v args : Op S _).WritesIn (firstKey v args) := by
  unfold cmdIncrBy
  split
  · split <;> simp [incr]
  · simp

theorem cmdDecrBy_writesIn : (cmdDecrBy v args : Op S _).WritesIn (firstKey v args) := by
  unfold cmdDecrBy
  split
  · split
    · simp
    · split <;> simp [incr]
  · simp

theorem cmdSetNX_writesIn : (cmdSetNX v args : Op S _).WritesIn (firstKey v args) := by
  unfold cmdSetNX
  split <;> simp [setNX]

theorem cmdGetSet_writesIn : (cmdGetSet v args : Op S _).WritesIn (firstKey v args) := by
  unfold cmdGetSet
  split <;> simp [getSet]

theorem cmdGetDel_writesIn : (cmdGetDel v args : Op S _).WritesIn (firstKey v args) := by
  unfold cmdGetDel
  split <;> simp [getDel]

theorem cmdAppend_writesIn : (cmdAppend v args : Op S _).WritesIn (firstKey v args) := by
  unfold cmdAppend
  split <;> simp [append]

theorem cmdSetRange_writesIn : (cmdSetRange v args : Op S _).WritesIn (firstKey v args) := by
  unfold cmdSetRange
  split
  · split
    · simp
    · apply writesIn_map
      unfold setRange
      split
      · simp
      · split <;> simp
  · simp

/-- The keys of the pairs that MSET writes. -/
def pairKeys : Set Loc := listedKeys v ((pairs args.tail).map Prod.fst)

theorem setAll_writesIn {L : Set Loc} {ps : List (Loc × Bytes)} (h : ∀ p ∈ ps, p.1 ∈ L) :
    (setAll ps : Op S Unit).WritesIn L := by
  induction ps with
  | nil => exact writesIn_ret ()
  | cons p ps ih =>
    rw [List.forall_mem_cons] at h
    exact writesIn_bind (writesIn_put h.1 _) fun _ => ih h.2

theorem setAll_pairs_writesIn :
    (setAll ((pairs args.tail).map fun p => (v.loc p.1, p.2)) : Op S Unit).WritesIn
      (pairKeys v args) := by
  apply setAll_writesIn
  intro p hp
  obtain ⟨q, hq, rfl⟩ := List.mem_map.mp hp
  exact loc_mem_listedKeys (List.mem_map_of_mem hq)

theorem cmdMSet_writesIn : (cmdMSet v args : Op S _).WritesIn (pairKeys v args) := by
  unfold cmdMSet
  split
  · simp
  · exact writesIn_map (setAll_pairs_writesIn v args) _

theorem cmdMSetNX_writesIn : (cmdMSetNX v args : Op S _).WritesIn (pairKeys v args) := by
  unfold cmdMSetNX mSetNX
  split
  · simp
  · apply writesIn_map
    refine writesIn_bind (writesIn_readOnly (anyLive_readOnly _)) fun live => ?_
    split
    · simp
    · exact writesIn_bind (setAll_pairs_writesIn v args) fun _ => writesIn_ret true

theorem delAll_writesIn (keys : List Bytes) : (delAll v keys : Op S ℕ).WritesIn (listedKeys v keys) := by
  induction keys with
  | nil => exact writesIn_ret 0
  | cons key keys ih =>
    refine writesIn_bind (writesIn_edit (loc_mem_listedKeys (by simp)) _) fun gone => ?_
    exact writesIn_map (ih.mono (listedKeys_mono (List.subset_cons_self key keys))) _

theorem cmdDel_writesIn : (cmdDel v args : Op S _).WritesIn (operandKeys v args) :=
  writesIn_map (delAll_writesIn v args.tail) _

theorem expire_writesIn (name : String) (unitMs : ℤ) (rel : Bool) :
    (expire name unitMs rel v env args : Op S _).WritesIn (firstKey v args) := by
  unfold expire expireFrom
  split
  · split
    · simp
    · split
      · simp
      · split <;> simp [expireAtCond]
  · simp

theorem cmdPersist_writesIn : (cmdPersist v args : Op S _).WritesIn (firstKey v args) := by
  unfold cmdPersist
  split <;> simp [persist]

theorem rename_writesIn {L : Set Loc} {src dst : Loc} (hsrc : src ∈ L) (hdst : dst ∈ L) :
    (rename src dst : Op S Bool).WritesIn L := by
  intro e
  cases e with
  | none => exact writesIn_ret false
  | some e => exact ⟨hsrc, hdst, writesIn_ret true⟩

theorem renameNX_writesIn {L : Set Loc} {src dst : Loc} (hsrc : src ∈ L) (hdst : dst ∈ L) :
    (renameNX src dst : Op S (Bool × Bool)).WritesIn L := by
  intro e
  cases e with
  | none => exact writesIn_ret _
  | some e =>
    intro there
    beta_reduce
    split
    · exact writesIn_ret _
    · exact ⟨hsrc, hdst, writesIn_ret _⟩

theorem cmdRename_writesIn : (cmdRename v args : Op S _).WritesIn (firstTwoKeys v args) := by
  unfold cmdRename
  split
  · exact writesIn_map (rename_writesIn (by simp) (by simp)) _
  · simp

theorem cmdRenameNX_writesIn : (cmdRenameNX v args : Op S _).WritesIn (firstTwoKeys v args) := by
  unfold cmdRenameNX
  split
  · exact writesIn_map (renameNX_writesIn (by simp) (by simp)) _
  · simp

theorem copy_writesIn {L : Set Loc} {dst : Loc} (hdst : dst ∈ L) (src : Loc) (replace : Bool) :
    (copy src dst replace : Op S _).WritesIn L := by
  unfold copy
  split
  · simp
  · intro e
    cases e with
    | none => exact writesIn_ret _
    | some e =>
      intro there
      beta_reduce
      split
      · exact writesIn_ret _
      · exact ⟨hdst, writesIn_ret _⟩

theorem transferKey_writesIn {L : Set Loc} {src dst : Loc} (hdst : dst ∈ L) {remove : Bool}
    (hsrc : remove = true → src ∈ L) (replace : Bool) :
    (transferKey src dst remove replace : Op S Bool).WritesIn L := by
  intro e
  cases e with
  | none => exact writesIn_ret _
  | some e =>
    intro there
    beta_reduce
    split
    · exact writesIn_ret _
    · refine ⟨hdst, ?_⟩
      split
      · exact ⟨hsrc ‹_›, writesIn_ret _⟩
      · exact writesIn_ret _

theorem push_writesIn (left : Bool) : (push left v args : Op S _).WritesIn (firstKey v args) := by
  unfold push
  split <;> simp [listPushMaybe]

theorem pushX_writesIn (left : Bool) : (pushX left v args : Op S _).WritesIn (firstKey v args) := by
  unfold pushX
  split <;> simp [listPushMaybe]

theorem cmdPop_writesIn (left : Bool) : (cmdPop left v args : Op S _).WritesIn (firstKey v args) := by
  unfold cmdPop
  split
  · simp [listPop]
  · split
    · simp
    · split <;> simp [lPopCount]
  · simp
  · simp

theorem cmdLSet_writesIn : (cmdLSet v args : Op S _).WritesIn (firstKey v args) := by
  unfold cmdLSet
  split
  · split <;> simp [lSet]
  · simp

theorem cmdLInsert_writesIn : (cmdLInsert v args : Op S _).WritesIn (firstKey v args) := by
  unfold cmdLInsert
  split
  · split
    · simp [lInsert]
    · split <;> simp [lInsert]
  · simp

theorem cmdLRem_writesIn : (cmdLRem v args : Op S _).WritesIn (firstKey v args) := by
  unfold cmdLRem
  split
  · split <;> simp [lRem]
  · simp

theorem cmdLTrim_writesIn : (cmdLTrim v args : Op S _).WritesIn (firstKey v args) := by
  unfold cmdLTrim
  split
  · split <;> simp [lTrim]
  · simp

theorem lMove_writesIn {L : Set Loc} {src dst : Loc} (hsrc : src ∈ L) (hdst : dst ∈ L)
    (srcLeft dstLeft : Bool) : (lMove src dst srcLeft dstLeft : Op S _).WritesIn L := by
  unfold lMove
  split
  · exact writesIn_edit hsrc _
  · intro e
    beta_reduce
    split
    · exact writesIn_ret _
    · intro de
      beta_reduce
      split
      · exact writesIn_ret _
      · split
        · exact writesIn_ret _
        · exact ⟨hdst, hsrc, writesIn_ret _⟩
    · exact writesIn_ret _

theorem cmdRPopLPush_writesIn : (cmdRPopLPush v args : Op S _).WritesIn (firstTwoKeys v args) := by
  unfold cmdRPopLPush
  split
  · exact writesIn_map (lMove_writesIn (by simp) (by simp) _ _) _
  · simp

theorem cmdLMove_writesIn : (cmdLMove v args : Op S _).WritesIn (firstTwoKeys v args) := by
  unfold cmdLMove
  split
  · split
    · exact writesIn_map (lMove_writesIn (by simp) (by simp) _ _) _
    · simp
  · simp

theorem mPopLists_writesIn (o : MPopOpts) (keys : List Bytes) :
    (mPopLists o v keys : Op S _).WritesIn (listedKeys v keys) := by
  induction keys with
  | nil => exact writesIn_ret _
  | cons key keys ih =>
    have hrest := ih.mono (listedKeys_mono (v := v) (List.subset_cons_self key keys))
    refine writesIn_bind (writesIn_edit (loc_mem_listedKeys (by simp)) _) fun r => ?_
    split
    · simp
    · exact hrest
    · split
      · exact hrest
      · simp

theorem cmdHSet_writesIn : (cmdHSet v args : Op S _).WritesIn (firstKey v args) := by
  unfold cmdHSet
  split
  · split <;> simp [hSet]
  · simp

theorem cmdHMSet_writesIn : (cmdHMSet v args : Op S _).WritesIn (firstKey v args) := by
  unfold cmdHMSet
  split
  · split <;> simp [hSet]
  · simp

theorem cmdHDel_writesIn : (cmdHDel v args : Op S _).WritesIn (firstKey v args) := by
  unfold cmdHDel
  split <;> simp [hDel]

theorem cmdHSetNX_writesIn : (cmdHSetNX v args : Op S _).WritesIn (firstKey v args) := by
  unfold cmdHSetNX
  split <;> simp [hSetNX]

theorem cmdHIncrBy_writesIn : (cmdHIncrBy v args : Op S _).WritesIn (firstKey v args) := by
  unfold cmdHIncrBy
  split
  · split <;> simp [hIncrBy, hashIncr]
  · simp

theorem cmdHIncrByFloat_writesIn : (cmdHIncrByFloat v env args : Op S _).WritesIn (firstKey v args) := by
  unfold cmdHIncrByFloat
  split
  · split
    · simp
    · split <;> simp [hIncrByFloat, hashIncr]
  · simp

theorem cmdSAdd_writesIn : (cmdSAdd v args : Op S _).WritesIn (firstKey v args) := by
  unfold cmdSAdd
  split <;> simp [sAdd]

theorem cmdSRem_writesIn : (cmdSRem v args : Op S _).WritesIn (firstKey v args) := by
  unfold cmdSRem
  split <;> simp [sRem]

theorem cmdSPop_writesIn : (cmdSPop v env args : Op S _).WritesIn (firstKey v args) := by
  unfold cmdSPop
  split
  · simp [spop, sPop]
  · split
    · simp
    · split <;> simp [spop, sPop]
  · simp

theorem cmdSMove_writesIn : (cmdSMove v args : Op S _).WritesIn (firstTwoKeys v args) := by
  unfold cmdSMove
  split
  · apply writesIn_map
    intro e
    beta_reduce
    split
    · exact writesIn_ret _
    · split
      · exact writesIn_ret _
      · intro de
        beta_reduce
        split
        · exact writesIn_ret _
        · split
          · exact writesIn_ret _
          · exact ⟨by simp, by simp, writesIn_ret _⟩
    · exact writesIn_ret _
  · simp

theorem setCombineStore_writesIn (op : SetOp) :
    (setCombineStore op v args : Op S _).WritesIn (firstKey v args) := by
  unfold setCombineStore
  split
  · apply writesIn_map
    refine writesIn_bind (writesIn_readOnly (readSets_readOnly _)) fun r => ?_
    split <;> simp
  · simp

theorem cmdZAdd_writesIn : (cmdZAdd v args : Op S _).WritesIn (firstKey v args) := by
  unfold cmdZAdd
  split
  · split
    · simp
    · split
      · simp
      · split <;> simp [zIncrBy, zAddMulti]
  · simp

theorem cmdZIncrBy_writesIn : (cmdZIncrBy v args : Op S _).WritesIn (firstKey v args) := by
  unfold cmdZIncrBy
  split
  · split <;> simp [zIncrBy]
  · simp

theorem cmdZRem_writesIn : (cmdZRem v args : Op S _).WritesIn (firstKey v args) := by
  unfold cmdZRem
  split <;> simp [zRemMulti]

theorem cmdZRemRangeByRank_writesIn :
    (cmdZRemRangeByRank v args : Op S _).WritesIn (firstKey v args) := by
  unfold cmdZRemRangeByRank
  split
  · split <;> simp [zRemRange]
  · simp

theorem cmdZRemRangeByScore_writesIn :
    (cmdZRemRangeByScore v args : Op S _).WritesIn (firstKey v args) := by
  unfold cmdZRemRangeByScore
  split
  · split <;> simp [zRemRange]
  · simp

theorem cmdZRemRangeByLex_writesIn :
    (cmdZRemRangeByLex v args : Op S _).WritesIn (firstKey v args) := by
  unfold cmdZRemRangeByLex
  split
  · split <;> simp [zRemRange]
  · simp

theorem cmdZPop_writesIn (fromMin : Bool) :
    (cmdZPop fromMin v env args : Op S _).WritesIn (firstKey v args) := by
  unfold cmdZPop
  split
  · simp [zpop, zPop]
  · split
    · simp
    · split <;> simp [zpop, zPop]
  · simp
  · simp

theorem replaceZSet_writesIn {L : Set Loc} {dst : Loc} (hdst : dst ∈ L) (z : ZSet S) :
    (replaceZSet dst z).WritesIn L := by
  unfold replaceZSet
  split
  · exact ⟨hdst, writesIn_ret _⟩
  · exact ⟨hdst, writesIn_ret _⟩

theorem cmdZRangeStore_writesIn : (cmdZRangeStore v args : Op S _).WritesIn (firstKey v args) := by
  unfold cmdZRangeStore
  split
  · split
    · simp
    · apply writesIn_map
      intro e
      beta_reduce
      split
      · exact writesIn_map (replaceZSet_writesIn (by simp) _) _
      · exact writesIn_map (replaceZSet_writesIn (by simp) _) _
      · exact writesIn_ret _
  · simp

theorem cmdZCombineStore_writesIn (kind : ZCombineKind) :
    (cmdZCombineStore kind v args : Op S _).WritesIn (firstKey v args) := by
  unfold cmdZCombineStore
  split
  · split
    · simp
    · apply writesIn_map
      unfold zCombineStore
      split
      · simp
      · refine writesIn_bind (writesIn_readOnly (readScored_readOnly _)) fun r => ?_
        split
        · simp
        · exact writesIn_map (replaceZSet_writesIn (by simp) _) _
  · simp

theorem mPopZSets_writesIn (o : MPopOpts) (keys : List Bytes) :
    (mPopZSets o v keys : Op S _).WritesIn (listedKeys v keys) := by
  induction keys with
  | nil => exact writesIn_ret _
  | cons key keys ih =>
    refine writesIn_bind (writesIn_edit (loc_mem_listedKeys (by simp)) _) fun r => ?_
    split
    · simp
    · exact ih.mono (listedKeys_mono (List.subset_cons_self key keys))
    · simp

section Streams

theorem streamEdit_writesIn {α : Type} {L : Set Loc} {k : Loc} (hk : k ∈ L)
    (missing : Except StreamErr α) (f : Stream → Option Stream × Except StreamErr α) :
    (streamEdit k missing f : Op S _).WritesIn L :=
  writesIn_edit hk _

theorem groupEdit_writesIn {α : Type} {L : Set Loc} {k : Loc} (hk : k ∈ L) (group : Bytes)
    (missing noGroup : Except StreamErr α) (f : Stream → Group → Group × α) :
    (groupEdit k group missing noGroup f : Op S _).WritesIn L :=
  writesIn_edit hk _

attribute [local simp] streamEdit_writesIn groupEdit_writesIn

theorem cmdXAdd_writesIn : (cmdXAdd v env args : Op S _).WritesIn (firstKey v args) := by
  unfold cmdXAdd
  split
  · split
    · simp
    · split
      · simp
      · split
        · simp
        · split
          · simp
          · split <;> simp [xAdd]
  · simp

theorem cmdXDel_writesIn : (cmdXDel v args : Op S _).WritesIn (firstKey v args) := by
  unfold cmdXDel
  split
  · split <;> simp [xDel]
  · simp

theorem cmdXTrim_writesIn : (cmdXTrim v args : Op S _).WritesIn (firstKey v args) := by
  unfold cmdXTrim
  split
  · split
    · simp
    · split
      · simp [xTrim]
      · split
        · simp
        · split
          · simp
          · split
            · simp
            · split <;> simp [xTrim]
      · simp
  · simp

theorem cmdXSetID_writesIn : (cmdXSetID v args : Op S _).WritesIn (firstKey v args) := by
  unfold cmdXSetID
  split
  · split
    · simp
    · split <;> simp [xSetID]
  · simp

theorem cmdXAck_writesIn : (cmdXAck v args : Op S _).WritesIn (firstKey v args) := by
  unfold cmdXAck
  split
  · split <;> simp [xAck]
  · simp

theorem cmdXClaim_writesIn : (cmdXClaim v env args : Op S _).WritesIn (firstKey v args) := by
  unfold cmdXClaim
  split
  · split
    · simp
    · dsimp only
      split
      · simp
      · split <;> simp [xClaim]
  · simp

theorem cmdXAutoClaim_writesIn : (cmdXAutoClaim v env args : Op S _).WritesIn (firstKey v args) := by
  unfold cmdXAutoClaim
  split
  · split
    · simp
    · split
      · simp
      · split <;> simp [xAutoClaim]
  · simp

/-- The key of an XGROUP subcommand, after the subcommand's name. -/
def secondKey : Set Loc := {k | ∃ key, args[2]? = some key ∧ k = v.loc key}

theorem groupStartID_writesIn {L : Set Loc} (k : Loc) (arg : Bytes) (allowExtremes : Bool) :
    (groupStartID k arg allowExtremes : Op S _).WritesIn L := by
  unfold groupStartID
  split
  · apply writesIn_map
    intro e
    beta_reduce
    split <;> exact writesIn_ret _
  · split
    · simp
    · split <;> simp

theorem xgroupCreate_writesIn {L : Set Loc} {key : Bytes} (hk : v.loc key ∈ L) (group : Bytes)
    (rest : List Bytes) : (xgroupCreate v key group rest : Op S _).WritesIn L := by
  unfold xgroupCreate
  split
  · simp
  · refine writesIn_bind (groupStartID_writesIn _ _ _) fun start => ?_
    split
    · simp
    · split <;> simp [xGroupCreate, hk]

theorem xgroupSetID_writesIn {L : Set Loc} {key : Bytes} (hk : v.loc key ∈ L) (group : Bytes)
    (rest : List Bytes) : (xgroupSetID v key group rest : Op S _).WritesIn L := by
  unfold xgroupSetID
  split
  · simp
  · refine writesIn_bind (groupStartID_writesIn _ _ _) fun id => ?_
    split
    · simp
    · split <;> simp [xGroupSetID, hk]

theorem cmdXGroup_writesIn : (cmdXGroup v env args : Op S _).WritesIn (secondKey v args) := by
  unfold cmdXGroup
  split
  · split
    · simp
    · split
      · rename_i name sub _ _ key group rest
        have hk : v.loc key ∈ secondKey v (name :: sub :: key :: group :: rest) := ⟨key, rfl, rfl⟩
        split
        · exact xgroupCreate_writesIn v hk group rest
        split
        · exact xgroupSetID_writesIn v hk group rest
        split
        · simp [xGroupDestroy, hk]
        split
        · split <;> simp [xGroupCreateConsumer, hk]
        split
        · split <;> simp [xGroupDelConsumer, hk]
        · simp
      · simp
  · simp

end Streams

theorem listPop_barren (k : Loc) (left : Bool) : (listPop k left : Op S _).Barren :=
  barren_edit fun _ _ => by simp

theorem lPopCount_barren (k : Loc) (n : ℤ) (left : Bool) : (lPopCount k n left : Op S _).Barren :=
  barren_edit fun _ _ => by simp

theorem zPop_barren (k : Loc) (n : ℤ) (fromMin : Bool) : (zPop k n fromMin : Op S _).Barren :=
  barren_edit fun _ _ => by simp

theorem groupEdit_barren {α : Type} (k : Loc) (group : Bytes) (missing noGroup : Except StreamErr α)
    (f : Stream → Group → Group × α) : (groupEdit k group missing noGroup f : Op S _).Barren :=
  barren_edit fun _ _ => by simp

theorem blockingPops_barren (left : Bool) (keys : List Bytes) :
    (blockingPops left v keys : Op S _).Barren := by
  induction keys with
  | nil => exact barren_ret _
  | cons key keys ih =>
    refine barren_bind (listPop_barren _ _) fun r => ?_
    split
    · exact barren_ret _
    · exact ih
    · exact barren_ret _

theorem listMPop_barren (operands : List Bytes) : (listMPop v operands : Op S _).Barren := by
  have hkeys (o : MPopOpts) (keys : List Bytes) : (mPopLists o v keys : Op S _).Barren := by
    induction keys with
    | nil => exact barren_ret _
    | cons key keys ih =>
      refine barren_bind (lPopCount_barren _ _ _) fun r => ?_
      split
      · exact barren_ret _
      · exact ih
      · split_ifs
        · exact ih
        · exact barren_ret _
  unfold listMPop
  split
  · exact barren_ret _
  · exact hkeys _ _

theorem blockingZPops_barren (fromMin : Bool) (keys : List Bytes) :
    (blockingZPops fromMin v keys : Op S _).Barren := by
  induction keys with
  | nil => exact barren_ret _
  | cons key keys ih =>
    refine barren_bind (zPop_barren _ _ _) fun r => ?_
    split
    · exact barren_ret _
    · exact ih
    · exact barren_ret _

theorem zsetMPop_barren (operands : List Bytes) : (zsetMPop v operands : Op S _).Barren := by
  have hkeys (o : MPopOpts) (keys : List Bytes) : (mPopZSets o v keys : Op S _).Barren := by
    induction keys with
    | nil => exact barren_ret _
    | cons key keys ih =>
      refine barren_bind (zPop_barren _ _ _) fun r => ?_
      split
      · exact barren_ret _
      · exact ih
      · exact barren_ret _
  unfold zsetMPop
  split
  · exact barren_ret _
  · exact hkeys _ _

theorem xreadStreams_barren (o : XReadOpts) (r : ReadState) (streams : List (Bytes × Bytes)) :
    (xreadStreams v env o r streams : Op S _).Barren := by
  induction streams generalizing r with
  | nil => exact barren_ret _
  | cons p rest ih =>
    obtain ⟨key, id⟩ := p
    unfold xreadStreams
    dsimp only
    split
    · exact barren_ret _
    · refine barren_bind (groupEdit_barren _ _ _ _ _) fun res => ?_
      split
      · exact barren_ret _
      · split_ifs <;> exact ih _

theorem blockingXReadGroup_barren : (blockingXReadGroup v env args : Op S _).Barren := by
  unfold blockingXReadGroup
  split
  · exact barren_ret _
  · split
    · exact barren_ret _
    · exact barren_map (xreadStreams_barren _ _ _ _ _) _

/-- BLMOVE and BRPOPLPUSH write where LMOVE does. -/
theorem blockingMove_writesIn {L : Set Loc} {src dst : Bytes} (hsrc : v.loc src ∈ L)
    (hdst : v.loc dst ∈ L) (srcLeft dstLeft : Bool) (effect : Args) :
    (blockingMove v src dst srcLeft dstLeft effect : Op S _).WritesIn L :=
  writesIn_map (lMove_writesIn hsrc hdst _ _) _

theorem blockingLMove_writesIn : (blockingLMove v env args : Op S _).WritesIn (firstTwoKeys v args) := by
  unfold blockingLMove
  split
  · split
    · exact blockingMove_writesIn v (by simp) (by simp) _ _ _
    · simp
  · simp

theorem blockingRPopLPush_writesIn :
    (blockingRPopLPush v env args : Op S _).WritesIn (firstTwoKeys v args) := by
  unfold blockingRPopLPush
  split
  · exact blockingMove_writesIn v (by simp) (by simp) _ _ _
  · simp

end ShardKV.Commands
