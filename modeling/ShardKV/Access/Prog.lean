import Mathlib.Data.Option.Basic
import Mathlib.Logic.Function.Basic
import Mathlib.Tactic.Common

/-! Programs over a keyed store. A program reads keys, writes or removes them,
and may relocate the whole key space. Its text is data, so what a run depends on
is proved once, by induction on the program, for every program. Each stored
value is visible or hidden to the reader that runs the program. Reads see
visible content only. Two runs of one program by different readers, over stores
that agree on what the second reader sees, agree as long as no read of the
first run returns something that the second reader no longer sees. -/

namespace ShardKV.Access

/-- A store over arbitrary keys and contents. -/
abbrev Store (K V : Type) := K → Option V

/-- The part of a store that a reader sees. -/
def seen {K V : Type} (vis : V → Bool) (s : Store K V) : Store K V :=
  fun k => (s k).filter vis

/-- A program that returns an `α`. `scan` reads every key at once, and
`relocate f` gives every key `k` the content of `f k`, or none. -/
inductive Prog (K V α : Type) : Type
  | ret (a : α)
  | read (k : K) (next : Option V → Prog K V α)
  | scan (next : Store K V → Prog K V α)
  | write (k : K) (v : Option V) (next : Prog K V α)
  | relocate (f : K → Option K) (next : Prog K V α)

namespace Prog

variable {K V α β : Type}

def bind : Prog K V α → (α → Prog K V β) → Prog K V β
  | ret a, f => f a
  | read k next, f => read k fun v => (next v).bind f
  | scan next, f => scan fun s => (next s).bind f
  | write k v next, f => write k v (next.bind f)
  | relocate g next, f => relocate g (next.bind f)

instance : Monad (Prog K V) where
  pure := ret
  bind := bind

def put (k : K) (v : V) : Prog K V Unit := write k (some v) (ret ())

def drop (k : K) : Prog K V Unit := write k none (ret ())

def move (f : K → Option K) : Prog K V Unit := relocate f (ret ())

/-- What an operation on one key does to it, and what it returns. -/
inductive Edit (V α : Type) : Type
  | keep (a : α)
  | put (v : V) (a : α)
  | drop (a : α)

/-- An operation on one key, decided by its visible content. -/
def edit (k : K) (f : Option V → Edit V α) : Prog K V α :=
  read k fun v =>
    match f v with
    | .keep a => ret a
    | .put v' a => write k (some v') (ret a)
    | .drop a => write k none (ret a)

section Run

variable [DecidableEq K] (vis : V → Bool)

/-- The result of a program and the store it leaves. -/
def run : Prog K V α → Store K V → α × Store K V
  | ret a, s => (a, s)
  | read k next, s => run (next ((s k).filter vis)) s
  | scan next, s => run (next (seen vis s)) s
  | write k v next, s => run next (Function.update s k v)
  | relocate f next, s => run next fun k => (f k).bind s

@[simp] theorem run_ret (a : α) (s : Store K V) : (ret a).run vis s = (a, s) := rfl

@[simp] theorem run_pure (a : α) (s : Store K V) :
    (pure a : Prog K V α).run vis s = (a, s) := rfl

@[simp] theorem run_read (k : K) (next : Option V → Prog K V α) (s : Store K V) :
    (read k next).run vis s = (next (seen vis s k)).run vis s := rfl

@[simp] theorem run_scan (next : Store K V → Prog K V α) (s : Store K V) :
    (scan next).run vis s = (next (seen vis s)).run vis s := rfl

@[simp] theorem run_write (k : K) (v : Option V) (next : Prog K V α) (s : Store K V) :
    (write k v next).run vis s = next.run vis (Function.update s k v) := rfl

@[simp] theorem run_relocate (f : K → Option K) (next : Prog K V α) (s : Store K V) :
    (relocate f next).run vis s = next.run vis (fun k => (f k).bind s) := rfl

theorem run_bind' (p : Prog K V α) (f : α → Prog K V β) (s : Store K V) :
    (p.bind f).run vis s = (f (p.run vis s).1).run vis (p.run vis s).2 := by
  induction p generalizing s with
  | ret a => rfl
  | read k next ih => exact ih _ s
  | scan next ih => exact ih _ s
  | write k v next ih => exact ih _
  | relocate g next ih => exact ih _

@[simp] theorem run_bind (p : Prog K V α) (f : α → Prog K V β) (s : Store K V) :
    (p >>= f).run vis s = (f (p.run vis s).1).run vis (p.run vis s).2 := run_bind' vis p f s

@[simp] theorem run_map (p : Prog K V α) (f : α → β) (s : Store K V) :
    (f <$> p).run vis s = (f (p.run vis s).1, (p.run vis s).2) := run_bind' vis p _ s

@[simp] theorem run_put (k : K) (v : V) (s : Store K V) :
    (put k v).run vis s = ((), Function.update s k (some v)) := rfl

@[simp] theorem run_drop (k : K) (s : Store K V) :
    (drop k).run vis s = ((), Function.update s k none) := rfl

@[simp] theorem run_move (f : K → Option K) (s : Store K V) :
    (move f).run vis s = ((), fun k => (f k).bind s) := rfl

theorem run_edit (k : K) (f : Option V → Edit V α) (s : Store K V) :
    (edit k f).run vis s =
      match f (seen vis s k) with
      | .keep a => (a, s)
      | .put v a => (a, Function.update s k (some v))
      | .drop a => (a, Function.update s k none) := by
  rw [edit, run_read]
  cases f (seen vis s k) <;> rfl

end Run

section Later

variable [DecidableEq K] (vis vis' : V → Bool)

/-- Every content that a read of the run returns is visible to the second
reader as well. -/
def Settled : Prog K V α → Store K V → Prop
  | ret _, _ => True
  | read k next, s => (∀ v, seen vis s k = some v → vis' v) ∧ Settled (next (seen vis s k)) s
  | scan next, s =>
    (∀ k v, seen vis s k = some v → vis' v) ∧ Settled (next (seen vis s)) s
  | write k v next, s => Settled next (Function.update s k v)
  | relocate f next, s => Settled next fun k => (f k).bind s

/-- A check of `Settled`, for programs that do not look at the whole store. -/
def settles : Prog K V α → Store K V → Bool
  | ret _, _ => true
  | read k next, s => (seen vis s k).all vis' && settles (next (seen vis s k)) s
  | scan _, _ => false
  | write k v next, s => settles next (Function.update s k v)
  | relocate f next, s => settles next fun k => (f k).bind s

/-- Two stores that the second reader cannot tell apart. -/
def Alike (s s' : Store K V) : Prop := seen vis' s = seen vis' s'

variable {vis'} in
theorem alike_update {s s' : Store K V} (h : Alike vis' s s') (k : K) (v : Option V) :
    Alike vis' (Function.update s k v) (Function.update s' k v) := by
  funext j
  by_cases hj : j = k
  · subst hj
    simp [seen]
  · simpa [seen, Function.update_of_ne hj] using congrFun h j

omit [DecidableEq K] in
variable {vis'} in
theorem alike_relocate {s s' : Store K V} (h : Alike vis' s s') (f : K → Option K) :
    Alike vis' (fun k => (f k).bind s) (fun k => (f k).bind s') := by
  funext j
  cases hf : f j with
  | none => simp [seen, hf]
  | some i => simpa [seen, hf] using congrFun h i

omit [DecidableEq K] in
variable {vis vis'} in
/-- A settled read returns the same to both readers. -/
theorem seen_eq_of_settled (hvis : ∀ v, vis' v → vis v) {s s' : Store K V}
    (h : Alike vis' s s') {k : K} (hk : ∀ v, seen vis s k = some v → vis' v) :
    seen vis s k = seen vis' s' k := by
  have hs : seen vis' s k = seen vis' s' k := congrFun h k
  rw [← hs]
  show (s k).filter vis = (s k).filter vis'
  cases hv : s k with
  | none => rfl
  | some v =>
    by_cases hvv : vis v = true
    · have := hk v (by simp [seen, hv, hvv])
      simp [Option.filter, hvv, this]
    · have hv' : ¬ vis' v = true := fun h' => hvv (hvis v h')
      simp [Option.filter, hvv, hv']

variable {vis vis'} in
/-- Running a settled program again, for a reader that sees less, over a store
it cannot tell apart, returns the same and leaves stores it cannot tell apart. -/
theorem run_settled (hvis : ∀ v, vis' v → vis v) (p : Prog K V α) {s s' : Store K V}
    (h : Alike vis' s s') (hp : p.Settled vis vis' s) :
    (p.run vis s).1 = (p.run vis' s').1 ∧ Alike vis' (p.run vis s).2 (p.run vis' s').2 := by
  induction p generalizing s s' with
  | ret a => exact ⟨rfl, h⟩
  | read k next ih =>
    obtain ⟨hk, hnext⟩ := hp
    rw [run_read, run_read, ← seen_eq_of_settled hvis h hk]
    exact ih _ h hnext
  | scan next ih =>
    obtain ⟨hall, hnext⟩ := hp
    have hseen : seen vis s = seen vis' s' := by
      funext k
      exact seen_eq_of_settled hvis h (hall k)
    rw [run_scan, run_scan, ← hseen]
    exact ih _ h hnext
  | write k v next ih => exact ih (alike_update h k v) hp
  | relocate f next ih => exact ih (alike_relocate h f) hp

theorem settled_self (p : Prog K V α) (s : Store K V) : p.Settled vis vis s := by
  induction p generalizing s with
  | ret a => trivial
  | read k next ih =>
    refine ⟨?_, ih _ s⟩
    intro v hv
    exact (Option.filter_eq_some_iff.mp hv).2
  | scan next ih =>
    refine ⟨?_, ih _ s⟩
    intro k v hv
    exact (Option.filter_eq_some_iff.mp hv).2
  | write k v next ih => exact ih _
  | relocate f next ih => exact ih _

variable {vis vis'} in
theorem settled_of_settles {p : Prog K V α} {s : Store K V} (h : p.settles vis vis' s = true) :
    p.Settled vis vis' s := by
  induction p generalizing s with
  | ret a => trivial
  | read k next ih =>
    obtain ⟨hk, hnext⟩ := Bool.and_eq_true_iff.mp h
    refine ⟨?_, ih _ hnext⟩
    intro v hv
    simpa [hv] using hk
  | scan next => exact absurd h (by simp [settles])
  | write k v next ih => exact ih h
  | relocate f next ih => exact ih h

variable {vis} in
/-- A run depends only on what its reader sees. -/
theorem run_alike (p : Prog K V α) {s s' : Store K V} (h : Alike vis s s') :
    (p.run vis s).1 = (p.run vis s').1 ∧ Alike vis (p.run vis s).2 (p.run vis s').2 :=
  run_settled (fun _ hv => hv) p h (settled_self vis p s)

omit [DecidableEq K] in
variable {vis vis'} in
/-- What one reader cannot tell apart, a reader that sees less cannot either. -/
theorem alike_mono (hvis : ∀ v, vis' v → vis v) {s s' : Store K V} (h : Alike vis s s') :
    Alike vis' s s' := by
  have hless (u : Store K V) : seen vis' u = seen vis' (seen vis u) := by
    funext k
    cases hk : u k with
    | none => simp [seen, hk]
    | some v =>
      by_cases hv' : vis' v = true
      · simp [seen, hk, Option.filter, hv', hvis v hv']
      · by_cases hv : vis v = true <;> simp [seen, hk, Option.filter, hv', hv]
  show seen vis' s = seen vis' s'
  rw [hless s, hless s', h]

/-- The program does the same whatever it finds. -/
def Oblivious (p : Prog K V α) : Prop :=
  ∀ (vis vis' : V → Bool) (s s' : Store K V), (∀ v, vis' v → vis v) → Alike vis' s s' →
    Alike vis' (p.run vis s).2 (p.run vis' s').2

/-- Nothing that the program finds is hidden from the second reader, or it makes
no use of what it finds. -/
def Steady (p : Prog K V α) (s : Store K V) : Prop := p.Oblivious ∨ p.Settled vis vis' s

theorem oblivious_ret (a : α) : (ret a : Prog K V α).Oblivious := fun _ _ _ _ _ h => h

theorem oblivious_map {p : Prog K V α} (hp : p.Oblivious) (f : α → β) : (f <$> p).Oblivious := by
  intro vis vis' s s' hvis h
  rw [run_map, run_map]
  exact hp vis vis' s s' hvis h

variable {vis vis'} in
theorem run_steady (hvis : ∀ v, vis' v → vis v) {p : Prog K V α} {s s' : Store K V}
    (h : Alike vis' s s') (hp : p.Steady vis vis' s) :
    Alike vis' (p.run vis s).2 (p.run vis' s').2 := by
  rcases hp with hp | hp
  · exact hp vis vis' s s' hvis h
  · exact (run_settled hvis p h hp).2

end Later

section Discipline

variable [DecidableEq K]

/-- Every content of the store has the property. -/
def All (P : V → Prop) (s : Store K V) : Prop := ∀ k v, s k = some v → P v

/-- The program leaves a store whose contents have the property, if it finds one. -/
def Keeps (P : V → Prop) (p : Prog K V α) : Prop :=
  ∀ (vis : V → Bool) (s : Store K V), All P s → All P (p.run vis s).2

/-- When the program reports no change, its reader sees none. -/
def Honest (P : V → Prop) (dirty : α → Bool) (p : Prog K V α) : Prop :=
  ∀ (vis : V → Bool) (s : Store K V), All P s → dirty (p.run vis s).1 = false →
    Alike vis (p.run vis s).2 s

/-- The program keeps the property and owns up to what it changed. -/
structure Sound (P : V → Prop) (dirty : α → Bool) (p : Prog K V α) : Prop where
  keeps : p.Keeps P
  honest : p.Honest P dirty

/-- What an edit of a key with visible content `e` has to satisfy to be sound. -/
def Edit.Sound (P : V → Prop) (dirty : α → Bool) (e : Option V) : Edit V α → Prop
  | .keep _ => True
  | .put v a => P v ∧ (dirty a = true ∨ e = some v)
  | .drop a => dirty a = true ∨ e = none

variable {P : V → Prop} {dirty : α → Bool} {p : Prog K V α} {f : α → Prog K V β} {s : Store K V} {k : K}

theorem all_update (h : All P s) (k : K) {v : Option V}
    (hv : ∀ x, v = some x → P x) : All P (Function.update s k v) := by
  intro j x hj
  by_cases hjk : j = k
  · subst hjk
    rw [Function.update_self] at hj
    exact hv x hj
  · rw [Function.update_of_ne hjk] at hj
    exact h j x hj

omit [DecidableEq K] in
theorem all_seen (h : All P s) (vis : V → Bool) (k : K) {x : V}
    (hx : seen vis s k = some x) : P x :=
  h k x (Option.filter_eq_some_iff.mp hx).1

omit [DecidableEq K] in
theorem all_relocate (h : All P s) (f : K → Option K) :
    All P (fun k => (f k).bind s) := by
  intro k x hx
  obtain ⟨j, -, hj⟩ := Option.bind_eq_some_iff.mp hx
  exact h j x hj

theorem seen_update (vis : V → Bool) (s : Store K V) (k j : K) (w : Option V) :
    seen vis (Function.update s k w) j = if j = k then w.filter vis else seen vis s j := by
  by_cases hj : j = k
  · subst hj
    simp [seen]
  · simp [seen, hj]

/-- Removing what the reader does not see is no change to it. -/
theorem alike_drop {vis : V → Bool} (h : seen vis s k = none) :
    Alike vis (Function.update s k none) s := by
  funext j
  by_cases hj : j = k
  · subst hj
    rw [h]
    simp [seen]
  · simp [seen, Function.update_of_ne hj]

/-- Putting back what the reader sees is no change at all. -/
theorem update_seen {vis : V → Bool} {v : V}
    (h : seen vis s k = some v) : Function.update s k (some v) = s := by
  have hk : s k = some v := (Option.filter_eq_some_iff.mp h).1
  rw [← hk, Function.update_eq_self]

theorem keeps_ret (a : α) : (ret a : Prog K V α).Keeps P := fun _ _ h => h

theorem keeps_bind (hp : p.Keeps P)
    (hf : ∀ a, (f a).Keeps P) : (p >>= f).Keeps P := by
  intro vis s hs
  rw [run_bind]
  exact hf _ vis _ (hp vis s hs)

theorem keeps_map (hp : p.Keeps P) (f : α → β) : (f <$> p).Keeps P :=
  keeps_bind hp fun a => keeps_ret (f a)

theorem keeps_read {next : Option V → Prog K V α}
    (h : ∀ v, (∀ x, v = some x → P x) → (next v).Keeps P) : (read k next).Keeps P := by
  intro vis s hs
  exact h _ (fun x hx => all_seen hs vis k hx) vis s hs

theorem keeps_write {v : Option V} {next : Prog K V α} (hv : ∀ x, v = some x → P x)
    (h : next.Keeps P) : (write k v next).Keeps P :=
  fun vis _ hs => h vis _ (all_update hs k hv)

theorem keeps_put {v : V} {next : Prog K V α} (hv : P v) (h : next.Keeps P) :
    (write k (some v) next).Keeps P :=
  keeps_write (fun _ hx => Option.some.inj hx ▸ hv) h

theorem keeps_drop {next : Prog K V α} (h : next.Keeps P) :
    (write k none next).Keeps P :=
  keeps_write (fun _ hx => absurd hx (by simp)) h

theorem keeps_relocate {f : K → Option K} {next : Prog K V α} (h : next.Keeps P) :
    (relocate f next).Keeps P :=
  fun vis _ hs => h vis _ (all_relocate hs f)

theorem sound_ret (a : α) : (ret a : Prog K V α).Sound P dirty :=
  ⟨keeps_ret a, fun _ _ _ _ => rfl⟩

/-- A program that always reports a change has nothing to hide. -/
theorem sound_of_dirty (hp : p.Keeps P)
    (h : ∀ vis s, dirty (p.run vis s).1 = true) : p.Sound P dirty := by
  refine ⟨hp, ?_⟩
  intro vis s _ hd
  rw [h vis s] at hd
  exact Bool.noConfusion hd

theorem sound_map {f : α → β} {dirty : β → Bool}
    (hp : p.Sound P fun a => dirty (f a)) : (f <$> p).Sound P dirty := by
  refine ⟨keeps_map hp.keeps f, ?_⟩
  intro vis s hs hd
  rw [run_map] at hd ⊢
  exact hp.honest vis s hs hd

theorem sound_read {next : Option V → Prog K V α}
    (h : ∀ v, (∀ x, v = some x → P x) → (next v).Sound P dirty) :
    (read k next).Sound P dirty := by
  refine ⟨keeps_read fun v hv => (h v hv).keeps, ?_⟩
  intro vis s hs
  exact (h _ fun x hx => all_seen hs vis k hx).honest vis s hs

theorem sound_edit {f : Option V → Edit V α}
    (hf : ∀ e, (∀ x, e = some x → P x) → (f e).Sound P dirty e) :
    (edit k f).Sound P dirty := by
  constructor
  · apply keeps_read
    intro e he
    have hfe := hf e he
    cases hcase : f e with
    | keep a => exact keeps_ret a
    | put v a => exact keeps_put (hcase ▸ hfe).1 (keeps_ret a)
    | drop a => exact keeps_drop (keeps_ret a)
  · intro vis s hs hd
    have hfe := hf (seen vis s k) fun x hx => all_seen hs vis k hx
    rw [run_edit] at hd ⊢
    cases hcase : f (seen vis s k) with
    | keep a => rfl
    | put v a =>
      rw [hcase] at hd hfe
      obtain ⟨-, hdirty | hsame⟩ := hfe
      · exact absurd hdirty (by simpa using hd)
      · exact congrArg (seen vis) (update_seen hsame)
    | drop a =>
      rw [hcase] at hd hfe
      obtain hdirty | hnone := hfe
      · exact absurd hdirty (by simpa using hd)
      · exact alike_drop hnone

/-- Where the reader sees `e` at the key, all that the program does is assign it `w`. -/
def Assigns (k : K) (e w : Option V) (p : Prog K V α) : Prop :=
  ∀ (vis : V → Bool) (s : Store K V), seen vis s k = e → (p.run vis s).2 = Function.update s k w

theorem assigns_map {e w : Option V} (hp : p.Assigns k e w) (f : α → β) :
    (f <$> p).Assigns k e w := by
  intro vis s hs
  rw [run_map]
  exact hp vis s hs

/-- A program that assigns the same whatever it finds is oblivious. -/
theorem oblivious_assigns {w : Option V} (hp : ∀ e, p.Assigns k e w) :
    p.Oblivious := by
  intro vis vis' s s' _ h
  rw [hp _ vis s rfl, hp _ vis' s' rfl]
  exact alike_update h k w

theorem assigns_put {e : Option V} {f : Option V → Edit V α} {v : V} {a : α}
    (h : f e = .put v a) : (edit k f).Assigns k e (some v) := by
  intro vis s hs
  rw [run_edit, hs, h]

theorem assigns_drop {e : Option V} {f : Option V → Edit V α} {a : α}
    (h : f e = .drop a) : (edit k f).Assigns k e none := by
  intro vis s hs
  rw [run_edit, hs, h]

theorem assigns_unless {c : Prop} [Decidable c] {e : Option V} {f : Option V → Edit V α}
    {v : V} {a : α} (h : f e = if c then .drop a else .put v a) :
    (edit k f).Assigns k e (if c then none else some v) := by
  split at h
  · rw [if_pos ‹c›]
    exact assigns_drop h
  · rw [if_neg ‹¬c›]
    exact assigns_put h

/-- Storing a content, or dropping the key instead, is sound when it is reported
or the content was there. -/
theorem Edit.sound_unless {c : Prop} [Decidable c] {e : Option V} {v : V} {a : α} (hv : ¬c → P v)
    (h : dirty a = true ∨ (¬c ∧ e = some v)) :
    Edit.Sound P dirty e (if c then .drop a else .put v a) := by
  split
  · exact .inl (h.resolve_right fun h' => h'.1 ‹c›)
  · exact ⟨hv ‹¬c›, h.imp_right And.right⟩

def ReadOnly : Prog K V α → Prop
  | ret _ => True
  | read _ next => ∀ v, (next v).ReadOnly
  | scan next => ∀ s, (next s).ReadOnly
  | write _ _ _ => False
  | relocate _ _ => False

omit [DecidableEq K] in
theorem readOnly_bind (hp : p.ReadOnly)
    (hf : ∀ a, (f a).ReadOnly) : (p >>= f).ReadOnly := by
  induction p with
  | ret a => exact hf a
  | read k next ih => exact fun v => ih v (hp v)
  | scan next ih => exact fun s => ih s (hp s)
  | write k v next => exact hp.elim
  | relocate g next => exact hp.elim

omit [DecidableEq K] in
theorem readOnly_map (hp : p.ReadOnly) (f : α → β) : (f <$> p).ReadOnly :=
  readOnly_bind hp fun _ => trivial

theorem run_readOnly (hp : p.ReadOnly) (vis : V → Bool) (s : Store K V) :
    (p.run vis s).2 = s := by
  induction p with
  | ret a => rfl
  | read k next ih => exact ih _ (hp _)
  | scan next ih => exact ih _ (hp _)
  | write k v next => exact hp.elim
  | relocate g next => exact hp.elim

theorem keeps_readOnly (hp : p.ReadOnly) : p.Keeps P := by
  intro vis s hs
  rw [run_readOnly hp]
  exact hs

theorem sound_readOnly (hp : p.ReadOnly) : p.Sound P dirty := by
  refine ⟨keeps_readOnly hp, ?_⟩
  intro vis s _ _
  rw [run_readOnly hp]
  rfl

theorem sound_bind_readOnly {dirty : β → Bool}
    (hp : p.ReadOnly) (hf : ∀ a, (f a).Sound P dirty) : (p >>= f).Sound P dirty := by
  refine ⟨keeps_bind (keeps_readOnly hp) fun a => (hf a).keeps, ?_⟩
  intro vis s hs hd
  rw [run_bind, run_readOnly hp] at hd ⊢
  exact (hf _).honest vis s hs hd

end Discipline

section Footprint

/-- Every key that the program may write is in the set, and it relocates nothing. -/
def WritesIn (L : Set K) : Prog K V α → Prop
  | ret _ => True
  | read _ next => ∀ v, (next v).WritesIn L
  | scan next => ∀ s, (next s).WritesIn L
  | write k _ next => k ∈ L ∧ next.WritesIn L
  | relocate _ _ => False

variable {L M : Set K} {p : Prog K V α} {f : α → Prog K V β}

@[simp] theorem writesIn_ret (a : α) : (ret a : Prog K V α).WritesIn L := trivial

@[simp] theorem writesIn_pure (a : α) : (pure a : Prog K V α).WritesIn L := trivial

theorem WritesIn.mono (hp : p.WritesIn L) (h : L ⊆ M) : p.WritesIn M := by
  induction p with
  | ret a => trivial
  | read k next ih => exact fun v => ih v (hp v)
  | scan next ih => exact fun s => ih s (hp s)
  | write k v next ih => exact ⟨h hp.1, ih hp.2⟩
  | relocate g next => exact hp.elim

theorem writesIn_bind (hp : p.WritesIn L)
    (hf : ∀ a, (f a).WritesIn L) : (p >>= f).WritesIn L := by
  induction p with
  | ret a => exact hf a
  | read k next ih => exact fun v => ih v (hp v)
  | scan next ih => exact fun s => ih s (hp s)
  | write k v next ih => exact ⟨hp.1, ih hp.2⟩
  | relocate g next => exact hp.elim

@[simp] theorem writesIn_map (hp : p.WritesIn L) (f : α → β) : (f <$> p).WritesIn L :=
  writesIn_bind hp fun a => writesIn_ret (f a)

@[simp] theorem writesIn_edit {k : K} (hk : k ∈ L) (f : Option V → Edit V α) : (edit k f).WritesIn L := by
  intro v
  beta_reduce
  cases f v with
  | keep a => exact writesIn_ret a
  | put w a => exact ⟨hk, writesIn_ret a⟩
  | drop a => exact ⟨hk, writesIn_ret a⟩

@[simp] theorem writesIn_put {k : K} (hk : k ∈ L) (v : V) : (put k v).WritesIn L := ⟨hk, trivial⟩

theorem writesIn_readOnly (hp : p.ReadOnly) : p.WritesIn L := by
  induction p with
  | ret a => trivial
  | read k next ih => exact fun v => ih v (hp v)
  | scan next ih => exact fun s => ih s (hp s)
  | write k v next => exact hp.elim
  | relocate g next => exact hp.elim

/-- Every key that the program may look up is in the set, and it never looks at all of
them. -/
def ReadsIn (L : Set K) : Prog K V α → Prop
  | ret _ => True
  | read k next => k ∈ L ∧ ∀ v, (next v).ReadsIn L
  | scan _ => False
  | write _ _ next => next.ReadsIn L
  | relocate _ next => next.ReadsIn L

/-- A run leaves every other key alone. -/
theorem run_outside [DecidableEq K] (hp : p.WritesIn L) (vis : V → Bool)
    (s : Store K V) {k : K} (hk : k ∉ L) : (p.run vis s).2 k = s k := by
  induction p generalizing s with
  | ret a => rfl
  | read j next ih => exact ih _ (hp _) s
  | scan next ih => exact ih _ (hp _) s
  | write j v next ih =>
    have hne : k ≠ j := fun h => hk (h ▸ hp.1)
    rw [run_write, ih hp.2, Function.update_of_ne hne]
  | relocate g next => exact hp.elim

end Footprint

section Prompt

variable [DecidableEq K] {p : Prog K V α} {f : α → Prog K V β}

/-- The program looks up whatever it looks up before it writes: readers that see the same
of a store run it alike. -/
def Prompt (p : Prog K V α) : Prop :=
  ∀ (vis vis' : V → Bool) (s : Store K V), seen vis s = seen vis' s → p.run vis s = p.run vis' s

@[simp] theorem prompt_ret (a : α) : (ret a : Prog K V α).Prompt := fun _ _ _ _ => rfl

@[simp] theorem prompt_pure (a : α) : (pure a : Prog K V α).Prompt := prompt_ret a

@[simp] theorem prompt_map (hp : p.Prompt) (f : α → β) : (f <$> p).Prompt := by
  intro vis vis' s h
  rw [run_map, run_map, hp vis vis' s h]

@[simp] theorem prompt_edit (k : K) (f : Option V → Edit V α) : (edit k f).Prompt := by
  intro vis vis' s h
  rw [run_edit, run_edit, h]

theorem prompt_readOnly (hp : p.ReadOnly) : p.Prompt := by
  intro vis vis' s h
  induction p with
  | ret a => rfl
  | read k next ih =>
    rw [run_read, run_read, h]
    exact ih _ (hp _)
  | scan next ih =>
    rw [run_scan, run_scan, h]
    exact ih _ (hp _)
  | write k v next => exact hp.elim
  | relocate g next => exact hp.elim

/-- Looking up first does not harm. -/
theorem prompt_bind_readOnly (hp : p.ReadOnly)
    (hf : ∀ a, (f a).Prompt) : (p >>= f).Prompt := by
  intro vis vis' s h
  rw [run_bind, run_bind, run_readOnly hp, run_readOnly hp, prompt_readOnly hp vis vis' s h]
  exact hf _ vis vis' s h

end Prompt

section Creation

/-- The program brings no key into being. -/
def Barren [DecidableEq K] (p : Prog K V α) : Prop :=
  ∀ (vis : V → Bool) (s : Store K V) (k : K), seen vis s k = none → seen vis (p.run vis s).2 k = none

variable [DecidableEq K] {p : Prog K V α} {f : α → Prog K V β}

theorem barren_ret (a : α) : (ret a : Prog K V α).Barren := fun _ _ _ h => h

theorem barren_bind (hp : p.Barren) (hf : ∀ a, (f a).Barren) :
    (p >>= f).Barren := by
  intro vis s k h
  rw [run_bind]
  exact hf _ vis _ k (hp vis s k h)

theorem barren_map (hp : p.Barren) (f : α → β) : (f <$> p).Barren :=
  barren_bind hp fun a => barren_ret (f a)

/-- An edit that leaves a missing key missing. -/
theorem barren_edit {k : K} {f : Option V → Edit V α} (hf : ∀ v a, f none ≠ .put v a) :
    (edit k f).Barren := by
  intro vis s j hj
  rw [run_edit]
  cases hfk : f (seen vis s k) with
  | keep a => exact hj
  | drop a =>
    rw [seen_update]
    split_ifs
    · rfl
    · exact hj
  | put v a =>
    have hjk : j ≠ k := by
      rintro rfl
      exact hf v a (hj ▸ hfk)
    rw [seen_update, if_neg hjk]
    exact hj

/-- Keys that stay where they are, or go. -/
theorem barren_move {g : K → Option K} (hg : ∀ k, g k = none ∨ g k = some k) :
    (move g : Prog K V Unit).Barren := by
  intro vis s k h
  rw [run_move]
  obtain hk | hk := hg k
  · simp [seen, hk]
  · simpa [seen, hk] using h

theorem mem_of_created {L : Set K} (hp : p.WritesIn L) (vis : V → Bool)
    {s : Store K V} {k : K} (h : seen vis s k = none) (h' : seen vis (p.run vis s).2 k ≠ none) :
    k ∈ L := by
  by_contra hk
  apply h'
  rw [← h]
  exact congrArg (Option.filter _) (run_outside hp vis s hk)

end Creation

end Prog

end ShardKV.Access
