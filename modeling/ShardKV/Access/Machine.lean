import Mathlib.Data.List.Basic

/-! Machines that consume a sequence. A transducer answers every input with a
list of outputs; its answer to a concatenation is the concatenation of answers,
the second one from the state the first part left. A guarded run is one whose
every step meets a condition on the state it starts from, and an invariant that
such steps preserve holds at its end. A system of partial steps may take a step only
where it is enabled; its runs are all the interleavings of what its parties do. -/

namespace ShardKV.Access

variable {σ ι ο : Type}

/-- The state a transducer ends in and all that it answers. -/
def transduce (step : σ → ι → σ × List ο) : σ → List ι → σ × List ο
  | a, [] => (a, [])
  | a, x :: xs =>
    let tail := transduce step (step a x).1 xs
    (tail.1, (step a x).2 ++ tail.2)

section Transducer

variable (step : σ → ι → σ × List ο)

@[simp] theorem transduce_nil (a : σ) : transduce step a [] = (a, []) := rfl

@[simp] theorem transduce_cons (a : σ) (x : ι) (xs : List ι) :
    transduce step a (x :: xs) =
      ((transduce step (step a x).1 xs).1, (step a x).2 ++ (transduce step (step a x).1 xs).2) := rfl

theorem transduce_append (a : σ) (xs ys : List ι) :
    transduce step a (xs ++ ys) =
      ((transduce step (transduce step a xs).1 ys).1,
        (transduce step a xs).2 ++ (transduce step (transduce step a xs).1 ys).2) := by
  induction xs generalizing a with
  | nil => simp
  | cons x xs ih => simp [ih]

end Transducer

section Guard

variable (step : σ → ι → σ) (ok : σ → ι → Prop)

/-- Every step of the run meets the condition in the state it starts from. -/
def Guarded : σ → List ι → Prop
  | _, [] => True
  | s, x :: xs => ok s x ∧ Guarded (step s x) xs

variable {step ok}

/-- What guarded steps preserve holds at the end of a guarded run. -/
theorem Guarded.invariant {Inv : σ → Prop} (hstep : ∀ s x, Inv s → ok s x → Inv (step s x))
    {s : σ} {xs : List ι} (h : Guarded step ok s xs) (hs : Inv s) : Inv (xs.foldl step s) := by
  induction xs generalizing s with
  | nil => exact hs
  | cons x xs ih => exact ih h.2 (hstep s x hs h.1)

/-- A property that a step keeps exactly when it meets the condition holds at the
end exactly when it held at the start and all steps met the condition. -/
theorem guarded_iff {Inv P : σ → Prop} (hinv : ∀ s x, Inv s → Inv (step s x))
    (hstep : ∀ s x, Inv s → (P (step s x) ↔ P s ∧ ok s x)) {s : σ} (hs : Inv s) (xs : List ι) :
    P (xs.foldl step s) ↔ P s ∧ Guarded step ok s xs := by
  induction xs generalizing s with
  | nil => simp [Guarded]
  | cons x xs ih =>
    rw [List.foldl_cons, ih (hinv s x hs), hstep s x hs, and_assoc]
    rfl

theorem Guarded.and {ok' : σ → ι → Prop} {s : σ} {xs : List ι} (h : Guarded step ok s xs)
    (h' : Guarded step ok' s xs) : Guarded step (fun s x => ok s x ∧ ok' s x) s xs := by
  induction xs generalizing s with
  | nil => trivial
  | cons x xs ih => exact ⟨⟨h.1, h'.1⟩, ih h.2 h'.2⟩

/-- A run is guarded when the condition holds wherever it is looked at. -/
theorem guarded_iff_forall {s : σ} {xs : List ι} :
    Guarded step ok s xs ↔ ∀ pre x post, xs = pre ++ x :: post → ok (pre.foldl step s) x := by
  induction xs generalizing s with
  | nil => simp [Guarded]
  | cons y ys ih =>
    rw [Guarded, ih]
    constructor
    · rintro ⟨hy, hys⟩ pre x post heq
      cases pre with
      | nil =>
        obtain ⟨rfl, -⟩ := List.cons.inj heq
        exact hy
      | cons z pre =>
        obtain ⟨rfl, htail⟩ := List.cons.inj heq
        exact hys pre x post htail
    · intro h
      exact ⟨h [] y ys rfl, fun pre x post heq => h (y :: pre) x post (by rw [heq]; rfl)⟩

end Guard

variable (step : σ → ι → Option σ)

/-- The end of a run, if each of its steps can be taken. -/
def play : σ → List ι → Option σ
  | s, [] => some s
  | s, x :: xs => (step s x).bind fun t => play t xs

/-- The states that enabled steps lead to, where every step meets the condition in the
state it starts from. -/
inductive Reaches (ok : σ → ι → Prop) (s : σ) : σ → Prop
  | refl : Reaches ok s s
  | tail {t u : σ} (x : ι) (h : Reaches ok s t) (hok : ok t x) (hstep : step t x = some u) :
      Reaches ok s u

/-- All states that a run can lead to. -/
abbrev Reachable (s t : σ) : Prop := Reaches step (fun _ _ => True) s t

variable {step} {ok : σ → ι → Prop}

theorem Reaches.invariant {Inv : σ → Prop}
    (hinv : ∀ s x t, Inv s → ok s x → step s x = some t → Inv t) {s t : σ}
    (h : Reaches step ok s t) (hs : Inv s) : Inv t := by
  induction h with
  | refl => exact hs
  | tail x _ hok hstep ih => exact hinv _ x _ ih hok hstep

theorem Reaches.head {s t u : σ} (x : ι) (hok : ok s x) (hstep : step s x = some t)
    (h : Reaches step ok t u) : Reaches step ok s u := by
  induction h with
  | refl => exact .tail x .refl hok hstep
  | tail y _ hoky hy ih => exact .tail y ih hoky hy

theorem Reaches.trans {s t u : σ} (h : Reaches step ok s t) (h' : Reaches step ok t u) :
    Reaches step ok s u := by
  induction h' with
  | refl => exact h
  | tail x _ hok hstep ih => exact .tail x ih hok hstep

theorem reaches_of_play {s t : σ} {xs : List ι} (hok : ∀ u, ∀ x ∈ xs, ok u x)
    (h : play step s xs = some t) : Reaches step ok s t := by
  induction xs generalizing s with
  | nil => exact Option.some.inj h ▸ .refl
  | cons x xs ih =>
    obtain ⟨u, hstep, hplay⟩ := Option.bind_eq_some_iff.mp h
    exact .head x (hok s x List.mem_cons_self) hstep
      (ih (fun u y hy => hok u y (List.mem_cons_of_mem x hy)) hplay)

/-- A run whose steps are checked one by one. -/
theorem reaches_of_checked {check : σ → ι → Bool} (hok : ∀ u x, check u x = true → ok u x)
    {s t : σ} {xs : List ι}
    (h : play (fun u x => if check u x then step u x else none) s xs = some t) :
    Reaches step ok s t := by
  induction xs generalizing s with
  | nil => exact Option.some.inj h ▸ .refl
  | cons x xs ih =>
    obtain ⟨u, hstep, hplay⟩ := Option.bind_eq_some_iff.mp h
    obtain ⟨hcheck, hstep⟩ := Option.ite_none_right_eq_some.mp hstep
    exact .head x (hok s x hcheck) hstep (ih hplay)

theorem reachable_of_play {s t : σ} {xs : List ι} (h : play step s xs = some t) :
    Reachable step s t := reaches_of_play (fun _ _ _ => trivial) h

end ShardKV.Access
