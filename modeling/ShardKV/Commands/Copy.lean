import ShardKV.Server.Exec

/-! COPY into another database. Between two key names it is composed of two store
operations: the value is first copied to the destination name within the source
database, and that copy is then moved over. A key that the source database already
had under that name is overwritten by the first operation and removed by the
second. In every other case the command writes its destination and nothing else. -/

namespace ShardKV.Commands

open Access Data Resp Server Prog

variable {S : Type} [Numeric S]

/-- What a COPY from database `v.db` to another one may do, as a reader sees it. -/
structure OnlyDestination (vis : Entry S → Bool) (v : View) (src dst : Bytes) (destDB : ℕ)
    (s : Dataset S) (reply : Reply) (s' : Dataset S) : Prop where
  source : ∀ key, seen vis s' (v.db, key) = seen vis s (v.db, key)
  destination : ∀ key, key ≠ dst → seen vis s' (destDB, key) = seen vis s (destDB, key)
  elsewhere : ∀ db key, db ≠ v.db → db ≠ destDB → seen vis s' (db, key) = seen vis s (db, key)
  copied : reply = .int 1 →
    ∃ e, seen vis s (v.db, src) = some e ∧ seen vis s' (destDB, dst) = some e
  refused : reply = .int 0 → seen vis s' = seen vis s

/-- The copy is made and the source database has a key of the destination's name. -/
def Displaces (vis : Entry S → Bool) (v : View) (src dst : Bytes) (destDB : ℕ) (replace : Bool)
    (s : Dataset S) : Prop :=
  src ≠ dst ∧ (seen vis s (v.db, src)).isSome ∧ (seen vis s (v.db, dst)).isSome ∧
    (replace = true ∨ seen vis s (destDB, dst) = none)

section Frame

variable {vis : Entry S → Bool} {v : View} {src dst : Bytes} {destDB : ℕ} {s : Dataset S}

/-- A command that changes nothing and does not claim to have copied. -/
theorem onlyDestination_refl {reply : Reply} (h : reply ≠ .int 1) :
    OnlyDestination vis v src dst destDB s reply s :=
  ⟨fun _ => rfl, fun _ _ => rfl, fun _ _ _ _ => rfl, fun h' => absurd h' h, fun _ => rfl⟩

theorem onlyDestination_put (hdb : destDB ≠ v.db) {e : Entry S}
    (he : seen vis s (v.db, src) = some e) :
    OnlyDestination vis v src dst destDB s (.int 1)
      (Function.update s (destDB, dst) (some e)) := by
  have hvis : vis e = true := (Option.filter_eq_some_iff.mp he).2
  constructor
  · intro key
    rw [seen_update, if_neg fun h => hdb (Prod.mk.inj h).1.symm]
  · intro key hkey
    rw [seen_update, if_neg fun h => hkey (Prod.mk.inj h).2]
  · intro db key _ hdest
    rw [seen_update, if_neg fun h => hdest (Prod.mk.inj h).1]
  · intro _
    exact ⟨e, he, by simp [seen_update, Option.filter, hvis]⟩
  · intro h
    exact absurd h (by simp)

theorem transferKey_onlyDestination (hdb : destDB ≠ v.db) (replace : Bool) :
    OnlyDestination vis v src src destDB s
      ((boolReply <$> transferKey (v.loc src) (destDB, src) false replace).run vis s).1.1
      ((boolReply <$> transferKey (v.loc src) (destDB, src) false replace).run vis s).2 := by
  rw [run_map, transferKey, run_read]
  cases he : seen vis s (v.loc src) with
  | none => exact onlyDestination_refl (by simp [boolReply])
  | some e =>
    dsimp only
    rw [run_read]
    split
    · exact onlyDestination_refl (by simp [boolReply])
    · exact onlyDestination_put hdb he

/-- What the two store operations make of a copy that goes ahead. -/
theorem copyAcrossDatabases_run (hdb : destDB ≠ v.db) (hne : src ≠ dst) {replace : Bool}
    {e : Entry S} (he : seen vis s (v.db, src) = some e)
    (hfree : replace = true ∨ seen vis s (destDB, dst) = none) :
    (copyAcrossDatabases v src dst destDB replace).run vis s =
      ((.int 1, true), Function.update (Function.update s (destDB, dst) (some e)) (v.db, dst) none) := by
  have hvis : vis e = true := (Option.filter_eq_some_iff.mp he).2
  have hpass : ¬ (!replace && (seen vis s (destDB, dst)).isSome) = true := by
    rcases hfree with h | h <;> simp [h]
  have hloc : v.loc src ≠ v.loc dst := fun h => hne (Prod.mk.inj h).2
  have hcross : ((destDB, dst) : Loc) ≠ (v.db, dst) := fun h => hdb (Prod.mk.inj h).1
  have hcopy : (copy (v.loc src) (v.loc dst) true : Op S _).run vis s =
      (.ok true, Function.update s (v.db, dst) (some e)) := by
    rw [copy, if_neg hloc, run_read, show seen vis s (v.loc src) = some e from he]
    rfl
  have hmove : (transferKey (v.loc dst) (destDB, dst) true replace).run vis
      (Function.update s (v.db, dst) (some e)) =
      (true, Function.update (Function.update (Function.update s (v.db, dst) (some e))
        (destDB, dst) (some e)) (v.db, dst) none) := by
    rw [transferKey, run_read, show v.loc dst = (v.db, dst) from rfl, seen_update, if_pos rfl]
    simp only [Option.filter, hvis, if_true]
    rw [run_read, seen_update, if_neg hcross, if_neg hpass]
    rfl
  rw [copyAcrossDatabases, run_read, if_neg hpass, run_bind, hcopy]
  dsimp only
  rw [run_map, hmove, Function.update_comm hcross.symm, Function.update_idem]
  rfl

/-- The staged copy leaves the source database as it was exactly when no key had
to make way for it. -/
theorem copyAcrossDatabases_onlyDestination (hdb : destDB ≠ v.db) (hne : src ≠ dst)
    (replace : Bool) :
    OnlyDestination vis v src dst destDB s
        ((copyAcrossDatabases v src dst destDB replace).run vis s).1.1
        ((copyAcrossDatabases v src dst destDB replace).run vis s).2 ↔
      ¬ Displaces vis v src dst destDB replace s := by
  have hloc : v.loc src ≠ v.loc dst := fun h => hne (Prod.mk.inj h).2
  by_cases hfree : replace = true ∨ seen vis s (destDB, dst) = none
  · cases he : seen vis s (v.db, src) with
    | none =>
      have hrun : (copyAcrossDatabases v src dst destDB replace).run vis s = ((.int 0, false), s) := by
        have hpass : ¬ (!replace && (seen vis s (destDB, dst)).isSome) = true := by
          rcases hfree with h | h <;> simp [h]
        rw [copyAcrossDatabases, run_read, if_neg hpass, run_bind, copy, if_neg hloc,
          run_read, show seen vis s (v.loc src) = none from he]
        rfl
      rw [hrun]
      exact iff_of_true (onlyDestination_refl (by simp)) fun h => absurd h.2.1 (by simp [he])
    | some e =>
      rw [copyAcrossDatabases_run hdb hne he hfree]
      have hcross : ((v.db, dst) : Loc) ≠ (destDB, dst) := fun h => hdb (Prod.mk.inj h).1.symm
      cases hd : seen vis s (v.db, dst) with
      | none =>
        refine iff_of_true ?_ fun h => absurd h.2.2.1 (by simp [hd])
        -- removing what nobody saw at the staging key changes nothing
        have hput : OnlyDestination vis v src dst destDB s (.int 1)
            (Function.update s (destDB, dst) (some e)) := onlyDestination_put hdb he
        have hsame : seen vis (Function.update (Function.update s (destDB, dst) (some e))
            (v.db, dst) none) = seen vis (Function.update s (destDB, dst) (some e)) :=
          alike_drop (by rw [seen_update, if_neg hcross, hd])
        constructor
        · intro key
          rw [hsame]
          exact hput.source key
        · intro key hkey
          rw [hsame]
          exact hput.destination key hkey
        · intro db key hsrc hdest
          rw [hsame]
          exact hput.elsewhere db key hsrc hdest
        · intro h
          rw [hsame]
          exact hput.copied h
        · intro h
          exact absurd h (by simp)
      | some d =>
        refine iff_of_false ?_ (not_not.mpr ⟨hne, by simp [he], by simp [hd], hfree⟩)
        intro h
        have hgone := h.source dst
        rw [seen_update, if_pos rfl, hd] at hgone
        exact absurd hgone (by simp)
  · have hstop : (!replace && (seen vis s (destDB, dst)).isSome) = true := by
      rw [not_or] at hfree
      simp only [Bool.and_eq_true, Bool.not_eq_true', ← Bool.not_eq_true]
      exact ⟨hfree.1, Option.ne_none_iff_isSome.mp hfree.2⟩
    have hrun : (copyAcrossDatabases v src dst destDB replace).run vis s = ((.int 0, false), s) := by
      rw [copyAcrossDatabases, run_read, if_pos hstop]
      rfl
    rw [hrun]
    exact iff_of_true (onlyDestination_refl (by simp)) fun h => hfree h.2.2.2

end Frame

/-- COPY to another database writes its destination and nothing else exactly when
it displaces no key of the source database. -/
theorem cmdCopy_only_destination_iff (v : View) (now : Instant) (name src dst : Bytes)
    (opts : List Bytes) {destDB : ℕ} {replace : Bool} (s : Dataset S)
    (hopts : parseCopyOpts v (v.db, false) opts = .ok (destDB, replace)) (hdb : destDB ≠ v.db) :
    OnlyDestination (live now) v src dst destDB s
        ((cmdCopy v (name :: src :: dst :: opts)).run (live now) s).1.1
        ((cmdCopy v (name :: src :: dst :: opts)).run (live now) s).2 ↔
      ¬ Displaces (live now) v src dst destDB replace s := by
  have hcmd : (cmdCopy v (name :: src :: dst :: opts) : Op S _) =
      if src ≠ dst then copyAcrossDatabases v src dst destDB replace
      else boolReply <$> transferKey (v.loc src) (destDB, src) false replace := by
    simp only [cmdCopy, hopts, if_pos hdb]
  rw [hcmd]
  by_cases hne : src = dst
  · subst hne
    rw [if_neg (by simp)]
    exact iff_of_true (transferKey_onlyDestination hdb replace) fun h => h.1 rfl
  · rw [if_pos hne]
    exact copyAcrossDatabases_onlyDestination hdb hne replace

/-- Strings without deadlines, in the order they are stored. -/
def strings (entries : List (Loc × String)) : Dataset ℤ :=
  entries.foldl (fun s e => Function.update s e.1 (some ⟨.str (ascii e.2), none⟩)) emptyDataset

/-- `COPY a b DB 1`. -/
def copyAB : Args := [ascii "COPY", ascii "a", ascii "b", ascii "DB", ascii "1"]

/-- Copying `a` to `b` of database 1 removes the `b` of database 0. -/
theorem cmdCopy_displaces_key :
    let s := strings [((0, ascii "a"), "x"), ((0, ascii "b"), "y")]
    let r := (cmdCopy (Config.default.view 0) copyAB).run (live 0) s
    seen (live 0) s (0, ascii "b") = some ⟨.str (ascii "y"), none⟩ ∧
      seen (live 0) r.2 (0, ascii "b") = none ∧
      ¬ OnlyDestination (live 0) (Config.default.view 0) (ascii "a") (ascii "b") 1 s r.1.1 r.2 := by
  have hbefore : seen (live 0) (strings [((0, ascii "a"), "x"), ((0, ascii "b"), "y")])
      (0, ascii "b") = some ⟨.str (ascii "y"), none⟩ := by decide +kernel
  have hafter : seen (live 0) ((cmdCopy (Config.default.view 0) copyAB).run (live 0)
      (strings [((0, ascii "a"), "x"), ((0, ascii "b"), "y")])).2 (0, ascii "b") = none := by
    decide +kernel
  refine ⟨hbefore, hafter, fun h => ?_⟩
  have hsame := h.source (ascii "b")
  rw [show (Config.default.view 0).db = 0 from rfl, hafter, hbefore] at hsame
  exact absurd hsame (by simp)

theorem cmdCopy_only_destination_iff_alone :
    let s := strings [((0, ascii "a"), "x"), ((1, ascii "c"), "y")]
    let r := (cmdCopy (Config.default.view 0) copyAB).run (live 0) s
    OnlyDestination (live 0) (Config.default.view 0) (ascii "a") (ascii "b") 1 s r.1.1 r.2 := by
  have hopts : parseCopyOpts (Config.default.view 0) (0, false) [ascii "DB", ascii "1"] =
      .ok (1, false) := by rfl
  refine (cmdCopy_only_destination_iff (Config.default.view 0) 0 (ascii "COPY") (ascii "a")
    (ascii "b") _ _ hopts (by decide)).mpr ?_
  intro h
  exact absurd h.2.2.1 (by decide +kernel)

end ShardKV.Commands
