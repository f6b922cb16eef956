import Mathlib.Data.Set.Basic
import ShardKV.Access.Prog

/-! Runs that keep apart from some keys. A run that neither looks up nor writes a key of a
set, and moves nothing into it or out of it, does the same on stores that differ there only,
and leaves them differing there only. -/

namespace ShardKV.Access.Prog

variable {K V α : Type}

/-- Two stores that the reader cannot tell apart outside the set. -/
def AlikeOff (vis : V → Bool) (L : Set K) (s s' : Store K V) : Prop :=
  ∀ k, k ∉ L → seen vis s k = seen vis s' k

variable [DecidableEq K] (vis vis' : V → Bool) (L : Set K)

/-- The run looks up and writes no key of the set, and moves nothing across its border. -/
def Avoids : Prog K V α → Store K V → Prop
  | ret _, _ => True
  | read k next, s => k ∉ L ∧ Avoids (next (seen vis s k)) s
  | scan next, s => L = ∅ ∧ Avoids (next (seen vis s)) s
  | write k v next, s => k ∉ L ∧ Avoids next (Function.update s k v)
  | relocate f next, s => (∀ k, ∀ j ∈ f k, k ∈ L ↔ j ∈ L) ∧ Avoids next fun k => (f k).bind s

/-- A check of `Avoids`, for programs that do not look at the whole store or move it. -/
def avoids (L : List K) : Prog K V α → Store K V → Bool
  | ret _, _ => true
  | read k next, s => !L.contains k && avoids L (next (seen vis s k)) s
  | scan _, _ => false
  | write k v next, s => !L.contains k && avoids L next (Function.update s k v)
  | relocate _ _, _ => false

variable {vis vis' L}

theorem avoids_of_check {L : List K} {p : Prog K V α} {s : Store K V} (h : p.avoids vis L s = true) :
    p.Avoids vis {k | k ∈ L} s := by
  have hout {k : K} (hk : (!L.contains k) = true) : k ∉ {k | k ∈ L} := by simpa using hk
  induction p generalizing s with
  | ret a => trivial
  | read k next ih =>
    obtain ⟨hk, hnext⟩ := Bool.and_eq_true_iff.mp h
    exact ⟨hout hk, ih _ hnext⟩
  | scan next => cases h
  | write k v next ih =>
    obtain ⟨hk, hnext⟩ := Bool.and_eq_true_iff.mp h
    exact ⟨hout hk, ih hnext⟩
  | relocate f next => cases h

omit [DecidableEq K] in
theorem alikeOff_empty {s s' : Store K V} : AlikeOff vis ∅ s s' ↔ Alike vis s s' :=
  ⟨fun h => funext fun k => h k (Set.notMem_empty k), fun h k _ => congrFun h k⟩

theorem AlikeOff.update {s s' : Store K V} (h : AlikeOff vis L s s') (k : K) (v : Option V) :
    AlikeOff vis L (Function.update s k v) (Function.update s' k v) := by
  intro j hj
  rw [seen_update, seen_update, h j hj]

omit [DecidableEq K] in
theorem AlikeOff.relocate {s s' : Store K V} (h : AlikeOff vis L s s') {f : K → Option K}
    (hf : ∀ k, ∀ j ∈ f k, k ∈ L ↔ j ∈ L) :
    AlikeOff vis L (fun k => (f k).bind s) (fun k => (f k).bind s') := by
  intro k hk
  cases hfk : f k with
  | none => simp [seen, hfk]
  | some j => simpa [seen, hfk] using h j fun hj => hk ((hf k j hfk).mpr hj)

omit [DecidableEq K] in
/-- What the first reader finds at a key and the second can see too, both find there. -/
theorem seen_of_visible (hvis : ∀ v, vis' v → vis v) {s s' : Store K V} {k : K}
    (h : seen vis' s k = seen vis' s' k) (hk : ∀ v, seen vis s k = some v → vis' v) :
    seen vis s k = seen vis' s' k := by
  -- the two readers are compared on stores with that one key
  have halike : Alike vis' (fun _ : Unit => s k) (fun _ => s' k) := funext fun _ => h
  exact seen_eq_of_settled (k := ()) hvis halike hk

/-- A run that keeps apart from the set, made again by a later reader. -/
theorem run_avoids (hvis : ∀ v, vis' v → vis v) (p : Prog K V α) {s s' : Store K V}
    (h : AlikeOff vis' L s s') (hsettled : p.Settled vis vis' s) (havoids : p.Avoids vis L s) :
    (p.run vis s).1 = (p.run vis' s').1 ∧ AlikeOff vis' L (p.run vis s).2 (p.run vis' s').2 := by
  induction p generalizing s s' with
  | ret a => exact ⟨rfl, h⟩
  | read k next ih =>
    rw [run_read, run_read, ← seen_of_visible hvis (h k havoids.1) hsettled.1]
    exact ih _ h hsettled.2 havoids.2
  | scan next ih =>
    have hseen : seen vis s = seen vis' s' := by
      funext k
      exact seen_of_visible hvis (h k (havoids.1 ▸ Set.notMem_empty k)) (hsettled.1 k)
    rw [run_scan, run_scan, ← hseen]
    exact ih _ h hsettled.2 havoids.2
  | write k v next ih => exact ih (h.update k v) hsettled havoids.2
  | relocate f next ih => exact ih (h.relocate havoids.1) hsettled havoids.2

/-- Where the second reader sees nothing in the set, it sees nothing there after a run that
keeps apart from it. -/
theorem run_avoids_none {p : Prog K V α} {s : Store K V} (havoids : p.Avoids vis L s)
    (hs : ∀ k ∈ L, seen vis' s k = none) : ∀ k ∈ L, seen vis' (p.run vis s).2 k = none := by
  induction p generalizing s with
  | ret a => exact hs
  | read k next ih => exact ih _ havoids.2 hs
  | scan next ih => exact ih _ havoids.2 hs
  | write k v next ih =>
    refine ih havoids.2 fun j hj => ?_
    have hne : j ≠ k := by
      rintro rfl
      exact havoids.1 hj
    rw [seen_update, if_neg hne, hs j hj]
  | relocate f next ih =>
    refine ih havoids.2 fun j hj => ?_
    cases hfj : f j with
    | none => simp [seen, hfj]
    | some i => simpa [seen, hfj] using hs i ((havoids.1 j i hfj).mp hj)

end ShardKV.Access.Prog
