import Mathlib.Tactic.Linarith
import ShardKV.Access.Machine

/-!
The counter of unsaved changes.

A command that changes the dataset raises the counter by one. A snapshot save reads the counter at
its cut, writes the file, and subtracts what it read; a rewrite of the append-only file dumps the
dataset and then sets the counter to zero. The cut, the dump and a change with its count are each
one section under the ordering lock. The subtraction and the reset are made outside it, so that
changes and the other job can come in between.
-/

namespace ShardKV.Server.Unsaved

open Access

/-- How far `saveSnapshot` has come. What it read at its cut is kept with the number of changes
executed by then. -/
inductive SavePhase
  | idle
  | started
  | cut (dirtyAtCut : ℤ) (n : ℕ)
  | written (dirtyAtCut : ℤ) (n : ℕ)
  | failed
  | done (n : ℕ)
  deriving DecidableEq

/-- How far `rewriteAOF` has come. -/
inductive RewritePhase
  | idle
  | started
  | dumped (n : ℕ)
  | failed
  | cleared (n : ℕ)
  deriving DecidableEq

/-- The counter and the two jobs; how many changing commands have been executed, and how many of
them the most recent completed save or rewrite holds. -/
structure State where
  dirtyChanges : ℤ
  save : SavePhase
  rewrite : RewritePhase
  executed : ℕ
  saved : ℕ
  deriving DecidableEq

def State.start : State := ⟨0, .idle, .idle, 0, 0⟩

/-- The steps of the commands, of a save, of a rewrite, and of the save schedule. -/
inductive Action
  | change
  | saveStart
  | saveCut
  | saveWrite (ok : Bool)
  | saveSubtract
  | saveEnd
  | rewriteStart
  | rewriteDump (ok : Bool)
  | rewriteClear
  | rewriteEnd
  | tick (changes : ℤ)
  deriving DecidableEq

def State.step (s : State) : Action → Option State
  -- `noteDirty`
  | .change => some { s with dirtyChanges := s.dirtyChanges + 1, executed := s.executed + 1 }
  | .saveStart => if s.save = .idle then some { s with save := .started } else none
  -- `snapshotCut`
  | .saveCut => if s.save = .started then some { s with save := .cut s.dirtyChanges s.executed } else none
  | .saveWrite ok =>
    match s.save with
    | .cut d n => some { s with save := if ok then .written d n else .failed }
    | _ => none
  | .saveSubtract =>
    match s.save with
    | .written d n => some { s with dirtyChanges := s.dirtyChanges - d, save := .done n }
    | _ => none
  | .saveEnd =>
    match s.save with
    | .done n => some { s with save := .idle, saved := n }
    | .failed => some { s with save := .idle }
    | _ => none
  | .rewriteStart => if s.rewrite = .idle then some { s with rewrite := .started } else none
  | .rewriteDump ok =>
    if s.rewrite = .started then some { s with rewrite := if ok then .dumped s.executed else .failed } else none
  -- `clearDirtyChanges`
  | .rewriteClear =>
    match s.rewrite with
    | .dumped n => some { s with dirtyChanges := 0, rewrite := .cleared n }
    | _ => none
  | .rewriteEnd =>
    match s.rewrite with
    | .cleared n => some { s with rewrite := .idle, saved := n }
    | .failed => some { s with rewrite := .idle }
    | _ => none
  -- `maybeScheduledSave`, for a rule whose time has passed
  | .tick changes =>
    if s.save = .idle ∧ 0 < s.dirtyChanges ∧ changes ≤ s.dirtyChanges then some { s with save := .started } else some s

/-- No save or rewrite is in progress. -/
def State.Quiet (s : State) : Prop := s.save = .idle ∧ s.rewrite = .idle

/-- A save has taken its cut and has not ended. -/
def SavePhase.Open : SavePhase → Prop
  | .cut _ _ | .written _ _ | .done _ => True
  | _ => False

/-- A rewrite has taken its dump and has not ended. -/
def RewritePhase.Open : RewritePhase → Prop
  | .dumped _ | .cleared _ => True
  | _ => False

/-- No change comes between the dump of a rewrite and its reset; no save takes its cut and no rewrite
its dump while the other job is between that and its end. -/
def Orderly (s : State) : Action → Prop
  | .change => ∀ n, s.rewrite ≠ .dumped n
  | .saveCut => ¬ s.rewrite.Open
  | .rewriteDump _ => ¬ s.save.Open
  | _ => True

/-- What orderly steps keep. The counter is relative to the last completed copy, or to the one that has
done its part and is about to end; an unfinished save has read what was unsaved at its cut; nothing has
changed since a dump that is not yet cleared. -/
structure State.Inv (s : State) : Prop where
  saved_le : s.saved ≤ s.executed
  counter : (∀ n, s.save ≠ .done n) → (∀ n, s.rewrite ≠ .cleared n) → s.dirtyChanges = (s.executed : ℤ) - s.saved
  done : ∀ n, s.save = .done n → s.dirtyChanges = (s.executed : ℤ) - n ∧ n ≤ s.executed
  cleared : ∀ n, s.rewrite = .cleared n → s.dirtyChanges = (s.executed : ℤ) - n ∧ n ≤ s.executed
  cut : ∀ d n, s.save = .cut d n ∨ s.save = .written d n → d = (n : ℤ) - s.saved ∧ n ≤ s.executed
  dumped : ∀ n, s.rewrite = .dumped n → n = s.executed
  apart : s.save.Open → ¬ s.rewrite.Open

theorem State.inv_start : State.start.Inv := by
  constructor <;> simp [State.start, SavePhase.Open]

section Steps

variable {s t : State}

/-- A save reads exactly what is unsaved at its cut. -/
theorem State.Inv.saveCut (h : s.Inv) (hsave : s.save = .started) (hok : ¬ s.rewrite.Open) :
    State.Inv { s with save := .cut s.dirtyChanges s.executed } := by
  have hcounter : s.dirtyChanges = (s.executed : ℤ) - s.saved := by
    refine h.counter (fun n => by simp [hsave]) fun n hn => hok ?_
    rw [hn]
    trivial
  refine ⟨h.saved_le, fun _ _ => hcounter, fun n hn => (by cases hn), h.cleared, ?_, h.dumped, fun _ => hok⟩
  rintro d n (heq | heq)
  · obtain ⟨rfl, rfl⟩ := SavePhase.cut.inj heq
    exact ⟨hcounter, le_rfl⟩
  · cases heq

/-- The subtraction leaves what came after the cut. -/
theorem State.Inv.saveSubtract (h : s.Inv) {d : ℤ} {n : ℕ} (hsave : s.save = .written d n) :
    State.Inv { s with dirtyChanges := s.dirtyChanges - d, save := .done n } := by
  have hopen : s.save.Open := by
    rw [hsave]
    trivial
  have hquiet : ∀ m, s.rewrite ≠ .cleared m := fun m hm => h.apart hopen (by rw [hm]; trivial)
  have hcounter := h.counter (fun m => by simp [hsave]) hquiet
  obtain ⟨hd, hn⟩ := h.cut d n (.inr hsave)
  refine ⟨h.saved_le, fun hne => absurd rfl (hne n), ?_, fun m hm => absurd hm (hquiet m), ?_, h.dumped,
    fun _ => h.apart hopen⟩
  · intro m hm
    obtain rfl := SavePhase.done.inj hm
    have hleft : s.dirtyChanges - d = (s.executed : ℤ) - n := by omega
    exact ⟨hleft, hn⟩
  · rintro d' n' (heq | heq) <;> cases heq

/-- The reset is right when nothing has changed since the dump. -/
theorem State.Inv.rewriteClear (h : s.Inv) {n : ℕ} (hrewrite : s.rewrite = .dumped n) :
    State.Inv { s with dirtyChanges := 0, rewrite := .cleared n } := by
  obtain rfl := h.dumped n hrewrite
  have hopen : s.rewrite.Open := by
    rw [hrewrite]
    trivial
  have hsave : ¬ s.save.Open := fun hs => h.apart hs hopen
  refine ⟨h.saved_le, fun _ hne => absurd rfl (hne s.executed), fun m hm => absurd (by rw [hm]; trivial) hsave, ?_,
    h.cut, fun m hm => (by cases hm), fun hs => absurd hs hsave⟩
  intro m hm
  obtain rfl := RewritePhase.cleared.inj hm
  exact ⟨(Int.sub_self _).symm, le_rfl⟩

end Steps

theorem State.Inv.step {s t : State} {a : Action} (h : s.Inv) (hok : Orderly s a) (ht : s.step a = some t) : t.Inv := by
  cases a with
  | change =>
    obtain rfl := Option.some.inj ht
    obtain ⟨hle, hcounter, hdone, hcleared, hcut, hdumped, hapart⟩ := h
    have hnot : ∀ n, s.rewrite ≠ .dumped n := hok
    constructor <;> grind
  | saveCut =>
    obtain ⟨hsave, ht⟩ := Option.ite_none_right_eq_some.1 ht
    exact Option.some.inj ht ▸ h.saveCut hsave hok
  | saveSubtract =>
    simp only [State.step] at ht
    split at ht
    · rename_i d n hsave
      exact Option.some.inj ht ▸ h.saveSubtract hsave
    · cases ht
  | rewriteClear =>
    simp only [State.step] at ht
    split at ht
    · rename_i n hrewrite
      exact Option.some.inj ht ▸ h.rewriteClear hrewrite
    · cases ht
  -- the other steps open and close the jobs
  | _ =>
    obtain ⟨hle, hcounter, hdone, hcleared, hcut, hdumped, hapart⟩ := h
    simp only [State.step] at ht
    constructor <;> grind [Orderly, SavePhase.Open, RewritePhase.Open]

/-- In an orderly run, whenever no save or rewrite is in progress, the counter is the number of changes
since the cut of the last completed one. -/
theorem unsaved_counted {s : State} (h : Reaches State.step Orderly State.start s) (hquiet : s.Quiet) :
    s.dirtyChanges = (s.executed : ℤ) - s.saved ∧ 0 ≤ s.dirtyChanges := by
  have hinv : s.Inv := Reaches.invariant (fun _ _ _ hs hok hstep => hs.step hok hstep) h State.inv_start
  have hcounter := hinv.counter (fun n => by simp [hquiet.1]) fun n => by simp [hquiet.2]
  have hle := hinv.saved_le
  exact ⟨hcounter, by omega⟩

/-- A change while the file is being written stays counted. -/
theorem change_during_save : ∃ s, Reaches State.step Orderly State.start s ∧ s.Quiet ∧
    s.dirtyChanges = 1 ∧ (s.executed : ℤ) - s.saved = 1 := by
  have hidle : ∀ n, RewritePhase.idle ≠ .dumped n := by simp
  have hcut : Reaches State.step Orderly State.start _ :=
    .tail .saveCut (.tail .saveStart (.tail .change .refl hidle rfl) trivial rfl) id rfl
  have hend : Reaches State.step Orderly State.start _ :=
    .tail .saveEnd (.tail .saveSubtract (.tail (.saveWrite true) (.tail .change hcut hidle rfl) trivial rfl) trivial rfl)
      trivial rfl
  exact ⟨_, hend, ⟨rfl, rfl⟩, (unsaved_counted hend ⟨rfl, rfl⟩).1, rfl⟩

/-- A change between the dump and the reset of a rewrite is not counted, and a rewrite that ends between
the cut and the subtraction of a save makes the counter negative. -/
theorem counter_lost : (∃ s, Reachable State.step State.start s ∧ s.Quiet ∧
      s.dirtyChanges = 0 ∧ (s.executed : ℤ) - s.saved = 1) ∧
    ∃ s, Reachable State.step State.start s ∧ s.Quiet ∧ s.dirtyChanges = -1 := by
  have hlost : play State.step State.start [.rewriteStart, .rewriteDump true, .change, .rewriteClear, .rewriteEnd] =
    some _ := rfl
  have hnegative : play State.step State.start [.change, .saveStart, .saveCut, .rewriteStart, .rewriteDump true,
    .rewriteClear, .rewriteEnd, .saveWrite true, .saveSubtract, .saveEnd] = some _ := rfl
  exact ⟨⟨_, reachable_of_play hlost, ⟨rfl, rfl⟩, rfl, rfl⟩, _, reachable_of_play hnegative, ⟨rfl, rfl⟩, rfl⟩

end ShardKV.Server.Unsaved
