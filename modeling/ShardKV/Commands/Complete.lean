import ShardKV.Commands.Affected
import ShardKV.Commands.Copy

/-! Which write commands report every key they change. The table is walked command
by command: a footprint inside the reported keys settles all but four commands, and
for those four the operands for which the report is complete are found exactly. -/

namespace ShardKV.Commands

open Access Data Resp Server Prog Decimal

variable {S : Type} [Numeric S] {v : View}

/-- A command in its canonical spelling reports its first operand. -/
theorem reports_command {n : String} (hu : toUpper (ascii n) = ascii n)
    (hn : keyShape (ascii n) = .first) (key : Bytes) (rest : List Bytes) :
    Reports v [ascii n :: key :: rest] (v.loc key) :=
  firstKey_reported hn (by simp [hu]) loc_mem_firstKey

theorem popCommand_reports (left : Bool) (key : Bytes) (rest : List Bytes) :
    Reports v [popCommand left :: key :: rest] (v.loc key) := by
  cases left with
  | true => exact reports_command (n := "LPOP") (by decide) (by decide) key rest
  | false => exact reports_command (n := "RPOP") (by decide) (by decide) key rest

theorem zrem_reports (key : Bytes) (rest : List Bytes) :
    Reports v [ascii "ZREM" :: key :: rest] (v.loc key) :=
  reports_command (by decide) (by decide) key rest

theorem attemptReports_unless {α β : Type} {c : Prop} [Decidable c] {k : Loc}
    {next : α → Op S (β × List Args)} {e : Option (Entry S)} {w : Entry S} {a : α}
    {x : β × List Args} (hx : next a = .ret x) (hk : Reports v x.2 k) :
    AttemptReports v k next e (if c then .drop a else .put w a) := by
  split
  · exact ⟨x, hx, hk⟩
  · exact .inr ⟨x, hx, hk⟩

theorem blockingPops_reports (left : Bool) (keys : List Bytes) :
    EffectReports v (blockingPops left v keys : Op S (Option Reply × List Args)) := by
  induction keys with
  | nil => exact effectReports_ret _
  | cons key keys ih =>
    apply effectReports_attempt
    rintro (_ | ⟨_ | l | _ | _ | _ | _, d⟩) he
    · exact ih
    · exact effectReports_ret _
    · dsimp only
      cases hp : popFrom left l with
      | none => exact absurd hp (popFrom_ne_none (he _ rfl))
      | some p => exact attemptReports_unless rfl (popCommand_reports left key [])
    all_goals exact effectReports_ret _

theorem mPopLists_reports (o : MPopOpts) (keys : List Bytes) :
    EffectReports v (mPopLists o v keys : Op S (Option Reply × List Args)) := by
  induction keys with
  | nil => exact effectReports_ret _
  | cons key keys ih =>
    apply effectReports_attempt
    rintro (_ | ⟨_ | l | _ | _ | _ | _, d⟩) he
    · exact ih
    · exact effectReports_ret _
    · have hl : l ≠ [] := he _ rfl
      dsimp only
      cases hp : popMany o.first o.count.toNat l with
      | mk vals l' =>
        by_cases hnil : vals = []
        · -- nothing popped: the list is put back and the next key is tried
          have hsame : l' = l := by
            have hnil' : (popMany o.first o.count.toNat l).1 = [] := by rw [hp, hnil]
            simpa [hp] using popMany_nil hnil'
          rw [hnil, hsame]
          unfold listEdit
          rw [if_neg (by simpa using hl)]
          exact .inl ⟨rfl, ih⟩
        · exact attemptReports_unless (if_neg (by simpa using hnil))
            (popCommand_reports o.first key _)
    all_goals exact effectReports_ret _

theorem listMPop_reports (operands : List Bytes) :
    EffectReports v (listMPop v operands : Op S (Option Reply × List Args)) := by
  unfold listMPop
  split
  · exact effectReports_ret _
  · exact mPopLists_reports _ _

/-- A pop of a sorted set that is followed by its ZREM, or by a further attempt. -/
theorem zPop_reports {β : Type} {key : Bytes} {count : ℤ} {fromMin : Bool}
    {next : Except StoreErr (List (S × Bytes)) → Op S (β × List Args)}
    (herr : ∀ err, EffectReports v (next (.error err))) (hnil : EffectReports v (next (.ok [])))
    (hcons : ∀ m ms, ∃ b rest, next (.ok (m :: ms)) = .ret (b, [ascii "ZREM" :: key :: rest])) :
    EffectReports v (zPop (v.loc key) count fromMin >>= next) := by
  apply effectReports_attempt
  rintro (_ | ⟨_ | _ | _ | _ | z | _, d⟩) he
  · exact hnil
  · exact herr _
  · exact herr _
  · exact herr _
  · exact herr _
  · have hz : z.nodes ≠ [] := he _ rfl
    dsimp only
    generalize (if fromMin then z.nodes else z.nodes.reverse).take count.toNat = popped
    cases popped with
    | nil =>
      unfold zsetEdit
      rw [if_neg (by simpa [zRemAll] using hz)]
      exact .inl ⟨rfl, hnil⟩
    | cons m ms =>
      obtain ⟨b, rest, hb⟩ := hcons m ms
      exact attemptReports_unless hb (zrem_reports key rest)
  · exact herr _

theorem blockingZPops_reports (fromMin : Bool) (keys : List Bytes) :
    EffectReports v (blockingZPops fromMin v keys : Op S (Option Reply × List Args)) := by
  induction keys with
  | nil => exact effectReports_ret _
  | cons key keys ih =>
    apply zPop_reports
    · exact fun err => effectReports_ret _
    · exact ih
    · exact fun m ms => ⟨_, _, rfl⟩

theorem mPopZSets_reports (o : MPopOpts) (keys : List Bytes) :
    EffectReports v (mPopZSets o v keys : Op S (Option Reply × List Args)) := by
  induction keys with
  | nil => exact effectReports_ret _
  | cons key keys ih =>
    apply zPop_reports
    · exact fun err => effectReports_ret _
    · exact ih
    · exact fun m ms => ⟨_, _, rfl⟩

theorem zsetMPop_reports (operands : List Bytes) :
    EffectReports v (zsetMPop v operands : Op S (Option Reply × List Args)) := by
  unfold zsetMPop
  split
  · exact effectReports_ret _
  · exact mPopZSets_reports _ _

theorem blockingMove_reports {src dst : Bytes} {srcLeft dstLeft : Bool} {n : String}
    {rest : List Bytes} (hu : toUpper (ascii n) = ascii n) (hn : keyShape (ascii n) = .firstTwo) :
    EffectReports v (blockingMove v src dst srcLeft dstLeft (ascii n :: src :: dst :: rest) :
      Op S (Option Reply × List Args)) := by
  intro vis s hs k hk
  rw [blockingMove, run_map] at hk ⊢
  have hin : (lMove (v.loc src) (v.loc dst) srcLeft dstLeft : Op S _).WritesIn
      (firstTwoKeys v (ascii n :: src :: dst :: rest)) :=
    lMove_writesIn loc_mem_firstTwoKeys loc_mem_firstTwoKeys' _ _
  have hmem : k ∈ firstTwoKeys v (ascii n :: src :: dst :: rest) := by
    by_contra hno
    exact hk (congrArg (Option.filter vis) (run_outside hin vis s hno))
  have hhonest := (lMove_sound (v.loc src) (v.loc dst) srcLeft dstLeft).honest vis s hs
  match hr : ((lMove (v.loc src) (v.loc dst) srcLeft dstLeft : Op S _).run vis s).1 with
  | .error _ | .ok none =>
    rw [hr] at hhonest
    exact absurd (congrFun (hhonest rfl) k) hk
  | .ok (some x) => exact firstTwoKeys_reported hn (by simp [hu]) (by simp) hmem

theorem blockingLMove_reports (env : Env) (args : Args) :
    EffectReports v (blockingLMove v env args : Op S (Option Reply × List Args)) := by
  unfold blockingLMove
  split
  · split
    · exact blockingMove_reports (by decide) (by decide)
    · exact effectReports_ret _
  · exact effectReports_ret _

theorem blockingRPopLPush_reports (env : Env) (args : Args) :
    EffectReports v (blockingRPopLPush v env args : Op S (Option Reply × List Args)) := by
  unfold blockingRPopLPush
  split
  · exact blockingMove_reports (by decide) (by decide)
  · exact effectReports_ret _

section Numkeys

variable {args : Args}

/-- Every key of the command is spelled like the operand that counts them. -/
def NamedByCount (first second : String) (args : Args) : Prop :=
  ∀ o, parseMPop first second args.tail = .ok o → ∀ key ∈ o.keys, args[1]? = some key

theorem crossDBTarget_none {name : Bytes} (hmove : name ≠ ascii "MOVE") (hcopy : name ≠ ascii "COPY")
    (args : Args) : crossDBTarget name args = none := by
  unfold crossDBTarget
  rw [if_neg hmove, if_neg hcopy]

/-- A command of the plain shape reports its first operand and nothing else. -/
theorem reports_first {n : String} (hn : keyShape (ascii n) = .first)
    (hcross : crossDBTarget (ascii n) args = none) (h : args.head?.map toUpper = some (ascii n))
    {key : Bytes} (hr : Reports v [args] (v.loc key)) : args[1]? = some key := by
  obtain ⟨a, ha, hmem⟩ := hr
  rw [List.mem_singleton.mp ha, affectedDBKeys, headD_toUpper h, hcross] at hmem
  simp only [affectedKeys, hn] at hmem
  simpa [View.loc, eq_comm] using hmem

def onlyEntry (k : Loc) (e : Entry S) : Dataset S := Function.update (fun _ => none) k (some e)

theorem onlyEntry_stored {k : Loc} {e : Entry S} (he : Stored e) : Prog.All Stored (onlyEntry k e) := by
  apply all_update
  · exact fun _ _ h => absurd h (by simp)
  · rintro x hx
    exact Option.some.inj hx ▸ he

theorem seen_onlyEntry (vis : Entry S → Bool) (k j : Loc) (e : Entry S) :
    seen vis (onlyEntry k e) j = if j = k then (some e).filter vis else none := by
  rw [onlyEntry, seen_update]
  rfl

/-- A list of one element, without a deadline. -/
def oneElement : Entry S := ⟨.list [[]], none⟩

/-- A sorted set of one member, without a deadline. -/
def oneMember : Entry S := ⟨.zset ⟨[(Numeric.zero, [])], by simp, by simp⟩, none⟩

theorem filter_oneElement (now : Instant) :
    (some (oneElement : Entry S)).filter (live now) = some oneElement := rfl

theorem filter_oneMember (now : Instant) :
    (some (oneMember : Entry S)).filter (live now) = some oneMember := rfl

theorem lPopCount_oneElement {n : ℤ} (hn : 0 < n) (left : Bool) (k : Loc) (now : Instant) :
    (lPopCount k n left : Op S _).run (live now) (onlyEntry k oneElement) =
      (.ok (some [[]]), Function.update (onlyEntry k oneElement) k none) := by
  obtain ⟨c, hc⟩ : ∃ c, n.toNat = c + 1 := ⟨n.toNat - 1, by omega⟩
  have hpop : popMany left n.toNat [([] : Bytes)] = ([[]], []) := by
    rw [hc]
    cases left <;> simp [popMany]
  rw [lPopCount, run_edit, seen_onlyEntry, if_pos rfl, filter_oneElement]
  simp [oneElement, hpop, listEdit]

theorem zPop_oneMember {n : ℤ} (hn : 0 < n) (fromMin : Bool) (k : Loc) (now : Instant) :
    (zPop k n fromMin : Op S _).run (live now) (onlyEntry k oneMember) =
      (.ok [(Numeric.zero, [])], Function.update (onlyEntry k oneMember) k none) := by
  obtain ⟨c, hc⟩ : ∃ c, n.toNat = c + 1 := ⟨n.toNat - 1, by omega⟩
  rw [zPop, run_edit, seen_onlyEntry, if_pos rfl, filter_oneMember]
  cases fromMin <;>
    simp [oneMember, hc, zRemAll, ZSet.remove, ZSet.score, ZSet.erase, zsetEdit]

theorem mPopLists_pops {o : MPopOpts} (ho : 0 < o.count) {key : Bytes} {keys : List Bytes}
    (h : key ∈ keys) (now : Instant) :
    ((mPopLists o v keys : Op S _).run (live now) (onlyEntry (v.loc key) oneElement)).2 (v.loc key) =
      none := by
  induction keys with
  | nil => exact absurd h (by simp)
  | cons key' keys ih =>
    rw [mPopLists, run_bind]
    by_cases hkey : key' = key
    · subst hkey
      rw [lPopCount_oneElement ho]
      simp
    · have hne : v.loc key' ≠ v.loc key := fun heq => hkey (Prod.mk.inj heq).2
      rw [lPopCount, run_edit, seen_onlyEntry, if_neg hne]
      exact ih ((List.mem_cons.mp h).resolve_left (Ne.symm hkey))

theorem mPopZSets_pops {o : MPopOpts} (ho : 0 < o.count) {key : Bytes} {keys : List Bytes}
    (h : key ∈ keys) (now : Instant) :
    ((mPopZSets o v keys : Op S _).run (live now) (onlyEntry (v.loc key) oneMember)).2 (v.loc key) =
      none := by
  induction keys with
  | nil => exact absurd h (by simp)
  | cons key' keys ih =>
    rw [mPopZSets, run_bind]
    by_cases hkey : key' = key
    · subst hkey
      rw [zPop_oneMember ho]
      simp
    · have hne : v.loc key' ≠ v.loc key := fun heq => hkey (Prod.mk.inj heq).2
      rw [zPop, run_edit, seen_onlyEntry, if_neg hne]
      exact ih ((List.mem_cons.mp h).resolve_left (Ne.symm hkey))

/-- LMPOP tells its watchers about the count, so it reports completely exactly when
no key is spelled otherwise. -/
theorem cmdLMPop_complete_iff {arity : ℤ} (h : args.head?.map toUpper = some (ascii "LMPOP")) :
    Complete (⟨arity, .write cmdLMPop⟩ : Command S) v args ↔ NamedByCount "LEFT" "RIGHT" args := by
  constructor
  · intro hc o ho key hkey
    have hpops := mPopLists_pops (S := S) (v := v) (parseMPop_count ho).1 hkey 0
    refine reports_first (v := v) (by decide) (crossDBTarget_none (by decide) (by decide) args) h ?_
    refine hc (Env.at 0) (onlyEntry (v.loc key) oneElement) (onlyEntry_stored (by simp [oneElement]))
      (v.loc key) ?_
    rw [run_apply_write, cmdLMPop, run_map, listMPop, ho, seen_onlyEntry, if_pos rfl]
    simp only [seen]
    rw [show (Env.at 0).now = 0 from rfl, hpops, filter_oneElement]
    simp
  · intro hnamed
    apply complete_write
    apply writesIn_map
    unfold listMPop
    split
    · simp
    · rename_i o ho
      refine (mPopLists_writesIn v o o.keys).mono ?_
      rintro k ⟨key, hkey, rfl⟩
      exact firstKey_reported (n := "LMPOP") (by decide) h ⟨key, hnamed o ho key hkey, rfl⟩

theorem cmdZMPop_complete_iff {arity : ℤ} (h : args.head?.map toUpper = some (ascii "ZMPOP")) :
    Complete (⟨arity, .effect cmdZMPop⟩ : Command S) v args ↔ NamedByCount "MIN" "MAX" args := by
  constructor
  · intro hc o ho key hkey
    have hpops := mPopZSets_pops (S := S) (v := v) (parseMPop_count ho).1 hkey 0
    refine reports_first (v := v) (by decide) (crossDBTarget_none (by decide) (by decide) args) h ?_
    refine hc (Env.at 0) (onlyEntry (v.loc key) oneMember) (onlyEntry_stored (by simp [oneMember]))
      (v.loc key) ?_
    rw [run_apply_effect, cmdZMPop, run_map, zsetMPop, ho, seen_onlyEntry, if_pos rfl]
    simp only [seen]
    rw [show (Env.at 0).now = 0 from rfl, hpops, filter_oneMember]
    simp
  · intro hnamed
    apply complete_effect
    intro env
    apply writesIn_map
    unfold zsetMPop
    split
    · simp
    · rename_i o ho
      refine (mPopZSets_writesIn v o o.keys).mono ?_
      rintro k ⟨key, hkey, rfl⟩
      exact firstKey_reported (n := "ZMPOP") (by decide) h ⟨key, hnamed o ho key hkey, rfl⟩

end Numkeys

section CrossDatabase

variable {args : Args}

theorem parseDB_ok {n : ℤ} {db : ℕ} (h : parseDB v n = .ok db) : (db : ℤ) = n := by
  unfold parseDB at h
  split at h
  · exact absurd h (by simp)
  · rename_i hn
    rw [← Except.ok.inj h]
    omega

theorem cmdMove_complete {arity : ℤ} (h : args.head?.map toUpper = some (ascii "MOVE")) :
    Complete (⟨arity, .write cmdMove⟩ : Command S) v args := by
  apply complete_write
  unfold cmdMove
  split
  · rename_i name key n
    split
    · simp
    · split
      · simp
      · rename_i m hm
        split
        · simp
        · rename_i db hdb
          split
          · simp
          · have hfrom : Reports v [[name, key, n]] (v.loc key) :=
              firstKey_reported (n := "MOVE") (by decide) h loc_mem_firstKey
            have hto : Reports v [[name, key, n]] (db, key) := by
              refine ⟨_, List.mem_singleton_self _, ?_⟩
              rw [affectedDBKeys, headD_toUpper h]
              simp [crossDBTarget, hm, parseDB_ok hdb]
            exact writesIn_map (transferKey_writesIn hto (fun _ => hfrom) false) _
  · simp

/-- The operand of the last DB option of a COPY. -/
def lastDB : List Bytes → Option ℤ
  | a :: n :: rest => if isWord a "DB" then (lastDB rest).or (parseInt64 n) else lastDB (n :: rest)
  | _ => none

/-- The last DB option of an accepted COPY names the caller's database, or the
database that the first one names. -/
def OneTarget (v : View) (args : Args) : Prop :=
  ∀ o, parseCopyOpts v (v.db, false) (args.drop 3) = .ok o →
    lastDB (args.drop 3) = none ∨ lastDB (args.drop 3) = some (v.db : ℤ) ∨
      lastDB (args.drop 3) = firstDB (args.drop 3)

/-- COPY acts on the last of its DB options. -/
theorem parseCopyOpts_target {o o' : ℕ × Bool} {opts : List Bytes}
    (h : parseCopyOpts v o opts = .ok o') : (o'.1 : ℤ) = (lastDB opts).getD o.1 := by
  induction opts using lastDB.induct generalizing o with
  | case1 a n rest hdb ih =>
    have hreplace : isWord a "REPLACE" = false := by
      simp only [isWord, isWord_eq hdb]
      decide
    rw [lastDB, if_pos hdb]
    rw [parseCopyOpts, if_neg (by simp [hreplace]), if_pos hdb] at h
    split at h
    · exact absurd h (by simp)
    · rename_i m hm
      split at h
      · exact absurd h (by simp)
      · split at h
        · exact absurd h (by simp)
        · rename_i db hdb'
          rw [ih h, hm]
          cases lastDB rest with
          | none => exact parseDB_ok hdb'
          | some d => rfl
  | case2 a n rest hdb ih =>
    rw [lastDB, if_neg hdb]
    rw [parseCopyOpts, if_neg hdb] at h
    split at h
    · have hrest := ih h
      exact hrest
    · exact absurd h (by simp)
  | case3 l hl =>
    rcases l with _ | ⟨a, _ | ⟨n, rest⟩⟩
    · rw [parseCopyOpts] at h
      rw [← Except.ok.inj h]
      rfl
    · rw [parseCopyOpts] at h
      split at h
      · rw [parseCopyOpts] at h
        rw [← Except.ok.inj h]
        rfl
      · split at h <;> exact absurd h (by simp)
    · exact absurd rfl (hl a n rest)

theorem parseCopyOpts_elsewhere {o : ℕ × Bool} {opts : List Bytes}
    (h : parseCopyOpts v (v.db, false) opts = .ok o) (hdb : o.1 ≠ v.db) :
    lastDB opts = some (o.1 : ℤ) := by
  have htarget := parseCopyOpts_target h
  cases hlast : lastDB opts with
  | none =>
    rw [hlast] at htarget
    exact absurd (Nat.cast_injective htarget) hdb
  | some d =>
    rw [hlast, Option.getD_some] at htarget
    rw [htarget]

theorem copy_reports {name src dst : Bytes} {opts : List Bytes} (h : toUpper name = ascii "COPY")
    (k : Loc) : Reports v [name :: src :: dst :: opts] k ↔
      (k.1 = v.db ∧ (k.2 = src ∨ k.2 = dst)) ∨ (firstDB opts = some (k.1 : ℤ) ∧ k.2 = dst) := by
  have hshape : keyShape (ascii "COPY") = .firstTwo := by decide
  have hne : ascii "COPY" ≠ ascii "MOVE" := by decide
  simp only [Reports, List.mem_singleton, exists_eq_left, affectedDBKeys, List.headD_cons, h,
    affectedKeys, hshape, crossDBTarget, if_neg hne, if_true, List.mem_append]
  cases firstDB opts with
  | none => simp [eq_comm, and_or_left]
  | some d => simp [eq_comm, and_or_left]

theorem copyAcrossDatabases_writesIn {L : Set Loc} {src dst : Bytes} {destDB : ℕ}
    (hstage : v.loc dst ∈ L) (hdest : (destDB, dst) ∈ L) (replace : Bool) :
    (copyAcrossDatabases v src dst destDB replace : Op S _).WritesIn L := by
  intro there
  beta_reduce
  split
  · exact writesIn_ret _
  · refine writesIn_bind (copy_writesIn hstage _ _) fun r => ?_
    split
    · simp
    · simp
    · exact writesIn_map (transferKey_writesIn hdest (fun _ => hstage) _) _

def plainString : Entry S := ⟨.str [], none⟩

/-- What a COPY of the only key into another database leaves there. -/
theorem copied_across (src dst : Bytes) {destDB : ℕ} (hdb : destDB ≠ v.db) (replace : Bool)
    (now : Instant) :
    ((if src ≠ dst then copyAcrossDatabases v src dst destDB replace
        else boolReply <$> transferKey (v.loc src) (destDB, src) false replace : Op S _).run
      (live now) (onlyEntry (v.loc src) plainString)).2 (destDB, dst) = some plainString := by
  have hsrc : seen (live now) (onlyEntry (v.loc src) (plainString : Entry S)) (v.db, src) =
      some plainString := by
    rw [seen_onlyEntry]
    exact if_pos rfl
  have hfree (key : Bytes) :
      seen (live now) (onlyEntry (v.loc src) (plainString : Entry S)) (destDB, key) = none := by
    rw [seen_onlyEntry]
    exact if_neg fun heq => hdb (Prod.mk.inj heq).1
  by_cases hne : src = dst
  · subst hne
    rw [if_neg (by simp), run_map, transferKey, run_read, show seen (live now) _ (v.loc src) = _ from hsrc]
    simp [hfree]
  · have hcross : ((destDB, dst) : Loc) ≠ (v.db, dst) := fun h => hdb (Prod.mk.inj h).1
    rw [if_pos hne, copyAcrossDatabases_run hdb hne hsrc (.inr (hfree dst))]
    dsimp only
    rw [Function.update_of_ne hcross, Function.update_self]

/-- COPY acts on its last DB option and reports its first. -/
theorem cmdCopy_complete_iff {arity : ℤ} (h : args.head?.map toUpper = some (ascii "COPY")) :
    Complete (⟨arity, .write cmdCopy⟩ : Command S) v args ↔ OneTarget v args := by
  match args, h with
  | [name], _ | [name, src], _ =>
    refine iff_of_true (complete_write (by simp [cmdCopy])) ?_
    intro o _
    exact .inl rfl
  | name :: src :: dst :: opts, h =>
    have hname : toUpper name = ascii "COPY" := Option.some.inj h
    unfold OneTarget
    rw [show (name :: src :: dst :: opts).drop 3 = opts from rfl]
    constructor
    · intro hc o ho
      by_cases hdb : o.1 = v.db
      · have htarget := parseCopyOpts_target ho
        cases hlast : lastDB opts with
        | none => exact .inl rfl
        | some d =>
          rw [hlast, Option.getD_some] at htarget
          exact .inr (.inl (by rw [← htarget, hdb]))
      · have hreport : Reports v [name :: src :: dst :: opts] (o.1, dst) := by
          refine hc (Env.at 0) (onlyEntry (v.loc src) plainString)
            (onlyEntry_stored (by simp [plainString])) (o.1, dst) ?_
          have hne : ((o.1, dst) : Loc) ≠ v.loc src := fun heq => hdb (Prod.mk.inj heq).1
          rw [run_apply_write, cmdCopy, ho, seen_onlyEntry, if_neg hne]
          simp only [seen]
          rw [if_pos hdb, copied_across src dst hdb]
          simp [plainString, live]
        obtain ⟨heq, -⟩ | ⟨hfirst, -⟩ := (copy_reports hname _).mp hreport
        · exact absurd heq hdb
        · exact .inr (.inr (by rw [parseCopyOpts_elsewhere ho hdb, hfirst]))
    · intro hone
      apply complete_write
      unfold cmdCopy
      dsimp only
      split
      · simp
      · rename_i destDB replace ho
        have hdst : v.loc dst ∈ {k | Reports v [name :: src :: dst :: opts] k} :=
          (copy_reports hname _).mpr (.inl ⟨rfl, .inr rfl⟩)
        split
        · rename_i hdb
          have hlast : lastDB opts = some (destDB : ℤ) := parseCopyOpts_elsewhere ho hdb
          have hdest : ((destDB, dst) : Loc) ∈ {k | Reports v [name :: src :: dst :: opts] k} := by
            refine (copy_reports hname _).mpr (.inr ⟨?_, rfl⟩)
            have hcases := hone _ ho
            rw [hlast] at hcases
            obtain hnone | hhere | hfirst := hcases
            · exact absurd hnone (by simp)
            · exact absurd (Nat.cast_injective (Option.some.inj hhere)) hdb
            · exact hfirst.symm
          split
          · exact copyAcrossDatabases_writesIn hdst hdest replace
          · rename_i hsame
            obtain rfl := not_ne_iff.mp hsame
            exact writesIn_map (transferKey_writesIn hdest (by simp) replace) _
        · exact writesIn_map (copy_writesIn hdst _ replace) _

end CrossDatabase

variable {args : Args}

/-- XREADGROUP is refused before it reads its first stream: it does not parse, one of
its ids asks for the end of a stream, or the first of them is no id. -/
def RefusedUnread (args : Args) : Prop :=
  ∀ o, parseXReadGroup noXReadOpts false args.tail = .ok o →
    (refusedID o.ids).isSome ∨ ∃ id ids, o.ids = id :: ids ∧ id ≠ ascii ">" ∧ parseStreamID id 0 = none

/-- What was accepted names at least one stream, and as many ids as streams. -/
theorem parseXReadGroup_keys {o o' : XReadOpts} {sawGroup : Bool} {operands : List Bytes}
    (h : parseXReadGroup o sawGroup operands = .ok o') :
    ∃ key keys id ids, o'.keys = key :: keys ∧ o'.ids = id :: ids := by
  fun_induction parseXReadGroup o sawGroup operands with
  | case2 _ _ _ _ ih => exact ih h
  | case6 _ _ _ _ _ _ _ _ ih => exact ih h
  | case9 _ _ _ _ _ _ _ _ _ _ ih => exact ih h
  | case11 _ _ _ _ _ _ _ _ _ ih => exact ih h
  | case12 _ _ _ _ _ _ _ _ _ ih => exact ih h
  | case15 o sawGroup a b rest _ _ _ _ _ heven _ half =>
    -- an even number of operands, at least two
    have hlen : 2 ≤ (b :: rest).length := by
      simp only [List.length_cons] at heven ⊢
      omega
    have htake : 0 < ((b :: rest).take half).length := by
      rw [List.length_take]
      omega
    have hdrop : 0 < ((b :: rest).drop half).length := by
      rw [List.length_drop]
      omega
    obtain ⟨key, keys, hkeys⟩ := List.exists_cons_of_length_pos htake
    obtain ⟨id, ids, hids⟩ := List.exists_cons_of_length_pos hdrop
    rw [← Except.ok.inj h]
    exact ⟨key, keys, id, ids, hkeys, hids⟩
  | _ => exact absurd h (by simp)

/-- A stream without entries that has the group, and the group has no consumer yet. -/
def idleStream (group : Bytes) : Entry S :=
  ⟨.stream { Stream.new with groups := .singleton group (.new zeroID 0 true) }, none⟩

/-- The stream has nothing to deliver to the consumer, which is known to its group. -/
def Attended (group consumer : Bytes) (k : Loc) (s : Dataset S) : Prop :=
  ∃ st g c, s = onlyEntry k ⟨.stream st, none⟩ ∧ st.entries = [] ∧
    st.groups.lookup group = some g ∧ g.consumers.lookup consumer = some c ∧ c.pel = ∅

/-- The same, where the group may not know the consumer. -/
def Idle (group consumer : Bytes) (k : Loc) (s : Dataset S) : Prop :=
  ∃ st g, s = onlyEntry k ⟨.stream st, none⟩ ∧ st.entries = [] ∧
    st.groups.lookup group = some g ∧ ∀ c, g.consumers.lookup consumer = some c → c.pel = ∅

theorem Attended.idle {group consumer : Bytes} {k : Loc} {s : Dataset S}
    (h : Attended group consumer k s) : Idle group consumer k s := by
  obtain ⟨st, g, c, hs, hst, hg, hc, hpel⟩ := h
  refine ⟨st, g, hs, hst, hg, ?_⟩
  intro c' hc'
  rw [hc] at hc'
  exact Option.some.inj hc' ▸ hpel

/-- A group that meets the consumer knows it, with what it held before. -/
theorem consumerFor_known {g : Group} {consumer : Bytes}
    (hg : ∀ c, g.consumers.lookup consumer = some c → c.pel = ∅) (nowMs : ℤ) :
    ∃ c, (g.consumerFor consumer nowMs).1.consumers.lookup consumer = some c ∧ c.pel = ∅ := by
  unfold Group.consumerFor
  cases hc : g.consumers.lookup consumer with
  | none => exact ⟨_, Finmap.lookup_insert _, rfl⟩
  | some c => exact ⟨_, Finmap.lookup_insert _, hg c hc⟩

/-- A group that has nothing for the consumer delivers nothing, and knows it afterwards. -/
theorem read_idle {st : Stream} {g : Group} {consumer : Bytes} (hst : st.entries = [])
    (hg : ∀ c, g.consumers.lookup consumer = some c → c.pel = ∅) (after : Option StreamID)
    (count : ℕ) (noack : Bool) (nowMs : ℤ) :
    (g.read st consumer after count noack nowMs).2.entries = [] ∧
      ∃ c, (g.read st consumer after count noack nowMs).1.consumers.lookup consumer = some c ∧
        c.pel = ∅ := by
  obtain ⟨c, hc, hpel⟩ := consumerFor_known hg nowMs
  cases after with
  | none =>
    unfold Group.read
    simp only [hst, List.drop_nil, Group.deliverAll]
    exact ⟨rfl, c, hc, hpel⟩
  | some after =>
    have hnone : pendingIDs (∅ : Finmap fun _ : StreamID => Nack) (fun id => decide (after < id)) = [] := by
      simp [pendingIDs]
    refine ⟨?_, c, hc, hpel⟩
    unfold Group.read
    simp only [hc, hpel, Option.map_some, Option.getD_some, hnone]
    simp

/-- Reading a stream that is idle names no entry and leaves the consumer known; any
other key is missing. -/
theorem xReadGroup_idle {group consumer : Bytes} {k : Loc} {s : Dataset S}
    (h : Idle group consumer k s) (j : Loc) (after : Option StreamID) (count : ℕ) (noack : Bool)
    (now : Instant) :
    (j ≠ k ∧ (xReadGroup j group consumer after count noack now : Op S _).run (live now) s =
        (.error .noSuchKey, s)) ∨
    (j = k ∧ ∃ res s', (xReadGroup j group consumer after count noack now : Op S _).run (live now) s =
      (.ok res, s') ∧ res.entries = [] ∧ Attended group consumer k s') := by
  obtain ⟨st, g, rfl, hst, hg, hpel⟩ := h
  by_cases hj : j = k
  · subst hj
    obtain ⟨hentries, c, hc, hcpel⟩ := read_idle hst hpel after count noack now.val
    have hseen : seen (live now) (onlyEntry j (⟨.stream st, none⟩ : Entry S)) j =
        some ⟨.stream st, none⟩ := by
      rw [seen_onlyEntry, if_pos rfl]
      rfl
    refine .inr ⟨rfl, (g.read st consumer after count noack now.val).2,
      onlyEntry j ⟨.stream { st with
        groups := st.groups.insert group (g.read st consumer after count noack now.val).1 }, none⟩,
      ?_, hentries, ?_⟩
    · rw [xReadGroup, groupEdit, streamEdit, run_edit, hseen]
      simp only [hg, onlyEntry, Function.update_idem]
    · exact ⟨_, _, c, rfl, hst, Finmap.lookup_insert _, hc, hcpel⟩
  · refine .inl ⟨hj, ?_⟩
    rw [xReadGroup, groupEdit, streamEdit, run_edit, seen_onlyEntry, if_neg hj]

/-- The loop over further streams, once the consumer is known: no effect is named,
and the consumer stays known. -/
theorem xreadStreams_idle {env : Env} {o : XReadOpts} {k : Loc} (streams : List (Bytes × Bytes))
    {r : ReadState} (hr : r.effect = []) {s : Dataset S} (h : Attended o.group o.consumer k s) :
    Attended o.group o.consumer k ((xreadStreams v env o r streams).run (live env.now) s).2 ∧
      ∀ r', ((xreadStreams v env o r streams).run (live env.now) s).1 = .ok r' → r'.effect = [] := by
  induction streams generalizing r s with
  | nil => exact ⟨h, fun r' hr' => Except.ok.inj hr' ▸ hr⟩
  | cons p streams ih =>
    obtain ⟨key, id⟩ := p
    rw [xreadStreams]
    dsimp only
    split
    · exact ⟨h, fun r' hr' => absurd hr' (by simp)⟩
    · rename_i after _
      rw [run_bind]
      obtain ⟨-, hrun⟩ | ⟨-, res, s', hrun, hentries, hs'⟩ :=
        xReadGroup_idle h.idle (v.loc key) after o.count o.noack env.now
      · rw [hrun]
        exact ⟨h, fun r' hr' => absurd hr' (by simp)⟩
      · rw [hrun]
        dsimp only
        rw [if_pos hentries]
        refine ih ?_ hs'
        exact hr

/-- XREADGROUP of a stream that has nothing new makes the consumer known to the group
and names no effect. -/
theorem xreadStreams_attends (env : Env) (o : XReadOpts) (key : Bytes) {id : Bytes}
    (streams : List (Bytes × Bytes)) (hid : id = ascii ">" ∨ (parseStreamID id 0).isSome) :
    Attended o.group o.consumer (v.loc key) ((xreadStreams v env o ⟨[], [], false⟩
        ((key, id) :: streams)).run (live env.now)
          (onlyEntry (v.loc key) (idleStream o.group : Entry S))).2 ∧
      ∀ r', ((xreadStreams v env o ⟨[], [], false⟩ ((key, id) :: streams)).run (live env.now)
        (onlyEntry (v.loc key) (idleStream o.group : Entry S))).1 = .ok r' → r'.effect = [] := by
  have hidle : Idle o.group o.consumer (v.loc key)
      (onlyEntry (v.loc key) (idleStream o.group : Entry S)) :=
    ⟨_, _, rfl, rfl, Finmap.lookup_singleton_eq, fun c hc => absurd hc (by simp [Group.new])⟩
  rw [xreadStreams]
  dsimp only
  split
  · rename_i hnone
    exfalso
    rcases hid with rfl | hid
    · simp at hnone
    · split at hnone
      · exact absurd hnone (by simp)
      · simp_all
  · rename_i after _
    rw [run_bind]
    obtain ⟨hne, -⟩ | ⟨-, res, s', hrun, hentries, hs'⟩ :=
      xReadGroup_idle hidle (v.loc key) after o.count o.noack env.now
    · exact absurd rfl hne
    · rw [hrun]
      dsimp only
      rw [if_pos hentries]
      exact xreadStreams_idle streams rfl hs'

theorem not_attended_idleStream {group consumer : Bytes} {k : Loc} :
    ¬ Attended group consumer k (onlyEntry k (idleStream group : Entry S)) := by
  rintro ⟨st, g, c, hs, -, hg, hc, -⟩
  have hst := congrFun hs k
  simp only [onlyEntry, Function.update_self, idleStream, Option.some.injEq, Entry.mk.injEq,
    Value.stream.injEq, and_true] at hst
  rw [← hst, Finmap.lookup_singleton_eq] at hg
  rw [← Option.some.inj hg] at hc
  simp [Group.new] at hc

theorem blockingXReadGroup_run {o : XReadOpts} (ho : parseXReadGroup noXReadOpts false args.tail = .ok o)
    (hids : refusedID o.ids = none) (env : Env) (vis : Entry S → Bool) (s : Dataset S) :
    ((blockingXReadGroup v env args).run vis s).2 =
        ((xreadStreams v env o ⟨[], [], false⟩ (o.keys.zip o.ids)).run vis s).2 ∧
      ((∀ r', ((xreadStreams v env o ⟨[], [], false⟩ (o.keys.zip o.ids)).run vis s).1 = .ok r' →
        r'.effect = []) → ((blockingXReadGroup v env args).run vis s).1.2 = []) := by
  unfold blockingXReadGroup
  rw [ho]
  dsimp only
  rw [hids, run_map]
  refine ⟨rfl, fun heffect => ?_⟩
  dsimp only
  split
  · rfl
  · rename_i r hr
    have hr' := heffect r hr
    split <;> exact hr'

/-- XREADGROUP reports completely only when it is refused before its first read: a
stream without news changes and is not named. -/
theorem blockingXReadGroup_complete_iff {arity : ℤ} :
    Complete (⟨arity, .block blockingXReadGroup⟩ : Command S) v args ↔ RefusedUnread args := by
  constructor
  · intro hc o ho
    obtain ⟨key, keys, id, ids, hkeys, hids⟩ := parseXReadGroup_keys ho
    by_contra hno
    rw [not_or, Bool.not_eq_true, Option.isSome_eq_false_iff, Option.isNone_iff_eq_none] at hno
    obtain ⟨hrefused, hfirst⟩ := hno
    have hid : id = ascii ">" ∨ (parseStreamID id 0).isSome := by
      by_contra hbad
      rw [not_or, Bool.not_eq_true, Option.isSome_eq_false_iff, Option.isNone_iff_eq_none] at hbad
      exact hfirst ⟨id, ids, hids, hbad.1, hbad.2⟩
    obtain ⟨hattended, heffect⟩ :=
      xreadStreams_attends (S := S) (v := v) (Env.at 0) o key (keys.zip ids) hid
    obtain ⟨hstore, hnil⟩ := blockingXReadGroup_run (S := S) (v := v) ho hrefused (Env.at 0)
      (live (Env.at 0).now) (onlyEntry (v.loc key) (idleStream o.group))
    rw [hkeys, hids, List.zip_cons_cons] at hstore hnil
    have hreport : Reports v [] (v.loc key) := by
      rw [← hnil heffect]
      have h := hc (Env.at 0) (onlyEntry (v.loc key) (idleStream o.group))
        (onlyEntry_stored (by simp [idleStream])) (v.loc key)
      rw [run_apply_block] at h
      apply h
      rw [hstore]
      intro hsame
      obtain ⟨st, g, c, hs, hst, hg, hknown, hpel⟩ := hattended
      rw [hs, seen_onlyEntry, seen_onlyEntry, if_pos rfl, if_pos rfl] at hsame
      have hentry : (⟨.stream st, none⟩ : Entry S) = idleStream o.group := Option.some.inj hsame
      exact not_attended_idleStream
        ⟨st, g, c, congrArg (onlyEntry (v.loc key)) hentry.symm, hst, hg, hknown, hpel⟩
    obtain ⟨_, hmem, _⟩ := hreport
    exact absurd hmem (by simp)
  · intro hrefused
    apply complete_block
    intro env
    unfold blockingXReadGroup
    split
    · exact effectReports_ret _
    · rename_i o ho
      split
      · exact effectReports_ret _
      · rename_i hnone
        obtain hsome | ⟨id, ids, hids, hnew, hbad⟩ := hrefused o ho
        · rw [hnone] at hsome
          exact absurd hsome (by simp)
        · obtain ⟨key, keys, id', ids', hkeys, hids'⟩ := parseXReadGroup_keys ho
          obtain ⟨rfl, rfl⟩ := List.cons.inj (hids.symm.trans hids')
          have hloop (r : ReadState) : (xreadStreams v env o r ((key, id) :: keys.zip ids) : Op S _) =
              .ret (.error invalidStreamIDErr) := by
            rw [xreadStreams]
            simp only [hnew, decide_false, Bool.false_eq_true, if_false, hbad, Option.map_none]
            rfl
          rw [hkeys, hids, List.zip_cons_cons, hloop]
          exact effectReports_ret _

end ShardKV.Commands
