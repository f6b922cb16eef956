import ShardKV.Access.Machine
import Mathlib.Logic.Function.Basic

/-! WATCH as an optimistic lock. A write changes the data first and marks the clients that
watch its keys afterwards; EXEC looks at its own mark first, gives up its watches, and takes the
ordering lock and runs its batch afterwards. Nothing keeps another client's write out of the
gaps: between a change and the marks for it a check sees no mark, and between a check and the
batch a change comes too late. -/

namespace ShardKV.Server.Watch

open Access

section System

variable {C K V : Type}

/-- What a write does to the data, whether its handler reports a change, and the keys that it is
reported to have touched. -/
structure Write (K V : Type) where
  run : (K → V) → K → V
  dirty : (K → V) → Bool
  reports : (K → V) → List K

/-- Where a client is: in `runWrite` before the change, before the marks and before the unlock;
in `execExec` behind the check, behind `unwatchAll`, before a command of the batch (the first
one or a later one) and before the marks for it. -/
inductive Phase (K V : Type)
  | idle
  | writing (w : Write K V) (locked : Bool)
  | touching (keys : List K) (locked : Bool)
  | leaving (locked : Bool)
  | checked (aborted : Bool) (batch : List (Write K V))
  | entering (batch : List (Write K V))
  | running (first : Bool) (batch : List (Write K V)) (locked : Bool)
  | executed (keys : List K) (batch : List (Write K V)) (locked : Bool)

/-- A session: what it has queued in MULTI, the keys it watches, each with the length of the
history at its WATCH, and its mark. `guards` is what the EXEC in progress had watched. -/
structure Client (K V : Type) where
  phase : Phase K V
  queued : Option (List (Write K V))
  watched : List (K × ℕ)
  dirty : Bool
  guards : List (K × ℕ)

/-- A write that took place: its author, and the data before and after. -/
structure Change (C K V : Type) where
  author : C
  before : K → V
  after : K → V

structure State (C K V : Type) where
  data : K → V
  propagating : Bool
  lock : Option C
  clients : C → Client K V
  history : List (Change C K V)

/-- The atomic steps. The check of EXEC also fails when a watched key has expired or a command
was refused as it was queued, which is `refused`. -/
inductive Action (C K V : Type)
  | watch (c : C) (k : K)
  | unwatch (c : C)
  | multi (c : C)
  | queue (c : C) (w : Write K V)
  | discard (c : C)
  | write (c : C) (w : Write K V)
  | mutate (c : C)
  | touch (c : C)
  | leave (c : C)
  | check (c : C) (refused : Bool)
  | clear (c : C)
  | enter (c : C)
  | execute (c : C)
  | observe (c : C)
  | finish (c : C)
  | propagate (on : Bool)

variable [DecidableEq C] [DecidableEq K]

def State.set (s : State C K V) (c : C) (me : Client K V) : State C K V :=
  { s with clients := Function.update s.clients c me }

/-- `propMu`, if writes are propagated. -/
def State.acquire (s : State C K V) (c : C) : Option (State C K V × Bool) :=
  if s.propagating then
    if s.lock = none then some ({ s with lock := some c }, true) else none
  else some (s, false)

def State.release (s : State C K V) (locked : Bool) : State C K V :=
  if locked then { s with lock := none } else s

/-- The data is changed, and the change is written down. -/
def State.change (s : State C K V) (c : C) (w : Write K V) : State C K V :=
  { s with data := w.run s.data, history := s.history ++ [⟨c, s.data, w.run s.data⟩] }

/-- `touchWatchers`: every session that watches one of the keys is marked. -/
def State.mark (s : State C K V) (keys : List K) : State C K V :=
  { s with clients := fun c =>
      let me := s.clients c
      { me with dirty := me.dirty || me.watched.any fun g => decide (g.1 ∈ keys) } }

/-- `unwatchAll`. -/
def Client.unwatched (me : Client K V) : Client K V := { me with watched := [], dirty := false }

def State.step (s : State C K V) : Action C K V → Option (State C K V)
  | .watch c k =>
    let me := s.clients c
    match me.phase, me.queued with
    | .idle, none =>
      if me.watched.any fun g => decide (g.1 = k) then some s
      else some (s.set c { me with watched := (k, s.history.length) :: me.watched })
    | _, _ => none
  | .unwatch c =>
    match (s.clients c).phase with
    | .idle => some (s.set c (s.clients c).unwatched)
    | _ => none
  | .multi c =>
    match (s.clients c).phase, (s.clients c).queued with
    | .idle, none => some (s.set c { s.clients c with queued := some [] })
    | _, _ => none
  | .queue c w =>
    match (s.clients c).phase, (s.clients c).queued with
    | .idle, some batch => some (s.set c { s.clients c with queued := some (batch ++ [w]) })
    | _, _ => none
  | .discard c =>
    match (s.clients c).phase, (s.clients c).queued with
    | .idle, some _ => some (s.set c { (s.clients c).unwatched with queued := none })
    | _, _ => none
  | .write c w =>
    match (s.clients c).phase, (s.clients c).queued with
    | .idle, none => (s.acquire c).map fun r => r.1.set c { s.clients c with phase := .writing w r.2 }
    | _, _ => none
  | .mutate c =>
    match (s.clients c).phase with
    | .writing w locked =>
      some ((s.change c w).set c { s.clients c with
        phase := if w.dirty s.data then .touching (w.reports s.data) locked else .leaving locked })
    | _ => none
  | .touch c =>
    match (s.clients c).phase with
    | .touching keys locked =>
      some ((s.mark keys).set c { (s.mark keys).clients c with phase := .leaving locked })
    | _ => none
  | .leave c =>
    match (s.clients c).phase with
    | .leaving locked => some ((s.release locked).set c { s.clients c with phase := .idle })
    | _ => none
  | .check c refused =>
    match (s.clients c).phase, (s.clients c).queued with
    | .idle, some batch =>
      some (s.set c { s.clients c with
        phase := .checked ((s.clients c).dirty || refused) batch
        queued := none
        guards := (s.clients c).watched })
    | _, _ => none
  | .clear c =>
    match (s.clients c).phase with
    | .checked aborted batch =>
      some (s.set c { (s.clients c).unwatched with
        phase := if aborted then .idle else .entering batch })
    | _ => none
  | .enter c =>
    match (s.clients c).phase with
    | .entering batch =>
      (s.acquire c).map fun r => r.1.set c { s.clients c with phase := .running true batch r.2 }
    | _ => none
  | .execute c =>
    match (s.clients c).phase with
    | .running _ (w :: batch) locked =>
      some ((s.change c w).set c { s.clients c with
        phase := if w.dirty s.data then .executed (w.reports s.data) batch locked
          else .running false batch locked })
    | _ => none
  | .observe c =>
    match (s.clients c).phase with
    | .executed keys batch locked =>
      some ((s.mark keys).set c { (s.mark keys).clients c with phase := .running false batch locked })
    | _ => none
  | .finish c =>
    match (s.clients c).phase with
    | .running _ [] locked => some ((s.release locked).set c { s.clients c with phase := .idle })
    | _ => none
  | .propagate on => some { s with propagating := on }

/-- No client has done anything yet. -/
def State.start (data : K → V) : State C K V :=
  ⟨data, false, none, fun _ => ⟨.idle, none, [], false, []⟩, []⟩

end System

section Locking

variable {C K V : Type}

/-- The keys whose watchers are still to be marked. -/
def Phase.owes : Phase K V → List K
  | .touching keys _ => keys
  | .executed keys _ _ => keys
  | _ => []

/-- From a check that passed up to the first command of the batch. -/
def Phase.committed : Phase K V → Bool
  | .checked aborted _ => !aborted
  | .entering _ => true
  | .running first _ _ => first
  | _ => false

/-- The write that the client is about to make. -/
def Phase.next : Phase K V → Option (Write K V)
  | .writing w _ => some w
  | .running _ (w :: _) _ => some w
  | _ => none

/-- Another client's write changed the key since the history had that length. -/
def State.Disturbed (s : State C K V) (c : C) (g : K × ℕ) : Prop :=
  ∃ e ∈ s.history.drop g.2, e.author ≠ c ∧ e.before g.1 ≠ e.after g.1

/-- A write reports every key that it changes. -/
def Write.Reported (w : Write K V) (data : K → V) : Prop :=
  ∀ k, w.run data k ≠ data k → w.dirty data = true ∧ k ∈ w.reports data

/-- A write is reported completely and does not change a key that an EXEC behind its check had
watched, and EXEC does not check while the marks for a key that it watches are still to come. -/
def Orderly (s : State C K V) : Action C K V → Prop
  | .mutate c | .execute c => ∀ w, (s.clients c).phase.next = some w →
      w.Reported s.data ∧ ∀ c', c' ≠ c → (s.clients c').phase.committed = true →
        ∀ g ∈ (s.clients c').guards, w.run s.data g.1 = s.data g.1
  | .check c _ => ∀ c', c' ≠ c → ∀ g ∈ (s.clients c).watched, g.1 ∉ (s.clients c').phase.owes
  | _ => True

/-- A watched key that was disturbed has its mark, or the mark is on its way. -/
def State.Marks (s : State C K V) (c : C) (me : Client K V) : Prop :=
  ∀ g ∈ me.watched, g.2 ≤ s.history.length ∧
    (s.Disturbed c g → me.dirty = true ∨ ∃ c', g.1 ∈ (s.clients c').phase.owes)

/-- An EXEC behind its check was not disturbed. -/
def State.Keeps (s : State C K V) (c : C) (me : Client K V) : Prop :=
  me.phase.committed = true → ∀ g ∈ me.guards, g.2 ≤ s.history.length ∧ ¬ s.Disturbed c g

def State.Inv (s : State C K V) : Prop := ∀ c, s.Marks c (s.clients c) ∧ s.Keeps c (s.clients c)

variable {s t : State C K V} {c : C}

theorem disturbed_change {w : Write K V} {c' : C} {g : K × ℕ} (hg : g.2 ≤ s.history.length)
    (h : (s.change c w).Disturbed c' g) :
    s.Disturbed c' g ∨ (c ≠ c' ∧ w.run s.data g.1 ≠ s.data g.1) := by
  obtain ⟨e, he, hauthor, hne⟩ := h
  rw [State.change, List.drop_append_of_le_length hg, List.mem_append, List.mem_singleton] at he
  rcases he with he | rfl
  · exact .inl ⟨e, he, hauthor, hne⟩
  · exact .inr ⟨hauthor, Ne.symm hne⟩

theorem acquire_eq {r : State C K V × Bool} (h : s.acquire c = some r) :
    r.1.history = s.history ∧ r.1.clients = s.clients := by
  unfold State.acquire at h
  split_ifs at h <;> cases h <;> exact ⟨rfl, rfl⟩

theorem release_eq (s : State C K V) (locked : Bool) :
    (s.release locked).history = s.history ∧ (s.release locked).clients = s.clients := by
  unfold State.release
  split_ifs <;> exact ⟨rfl, rfl⟩

variable [DecidableEq C]

/-- A step of one client that leaves the history alone. -/
theorem State.Inv.set (h : s.Inv) {me : Client K V} (hdata : t.history = s.history)
    (hclients : t.clients = Function.update s.clients c me)
    (howes : (s.clients c).phase.owes ⊆ me.phase.owes)
    (hmarks : s.Marks c me) (hkeeps : s.Keeps c me) : t.Inv := by
  have hdisturbed (c' : C) (g : K × ℕ) : t.Disturbed c' g ↔ s.Disturbed c' g := by
    unfold State.Disturbed
    rw [hdata]
  have howed {k : K} : (∃ c', k ∈ (s.clients c').phase.owes) → ∃ c', k ∈ (t.clients c').phase.owes := by
    rintro ⟨c', hk⟩
    refine ⟨c', ?_⟩
    rw [hclients]
    by_cases hc : c' = c
    · subst hc
      rw [Function.update_self]
      exact howes hk
    · rwa [Function.update_of_ne hc]
  have hsame {c' : C} {other : Client K V} (hm : s.Marks c' other) (hk : s.Keeps c' other) :
      t.Marks c' other ∧ t.Keeps c' other := by
    constructor
    · intro g hg
      refine ⟨hdata ▸ (hm g hg).1, fun hd => ?_⟩
      exact ((hm g hg).2 ((hdisturbed c' g).1 hd)).imp_right howed
    · intro hcommitted g hg
      exact ⟨hdata ▸ (hk hcommitted g hg).1, mt (hdisturbed c' g).1 (hk hcommitted g hg).2⟩
  intro c'
  rw [hclients]
  by_cases hc : c' = c
  · subst hc
    rw [Function.update_self]
    exact hsame hmarks hkeeps
  · rw [Function.update_of_ne hc]
    exact hsame (h c').1 (h c').2

/-- A write of one client: whoever watches what it changed will be marked. -/
theorem State.Inv.change (h : s.Inv) {w : Write K V} {phase : Phase K V}
    (hreported : w.Reported s.data) (hphase : (s.clients c).phase.owes = [])
    (howes : w.dirty s.data = true → phase.owes = w.reports s.data)
    (hcommitted : phase.committed = false)
    (hclear : ∀ c', c' ≠ c → (s.clients c').phase.committed = true →
      ∀ g ∈ (s.clients c').guards, w.run s.data g.1 = s.data g.1) :
    ((s.change c w).set c { s.clients c with phase := phase }).Inv := by
  set t := (s.change c w).set c { s.clients c with phase := phase } with ht
  have hself : t.clients c = { s.clients c with phase := phase } := Function.update_self ..
  have hother {c' : C} (hc : c' ≠ c) : t.clients c' = s.clients c' := Function.update_of_ne hc ..
  have hlen : t.history.length = s.history.length + 1 := by simp [ht, State.set, State.change]
  -- apart from the phase the sessions are as they were
  have hwatched (c' : C) : (t.clients c').watched = (s.clients c').watched ∧
      (t.clients c').dirty = (s.clients c').dirty ∧ (t.clients c').guards = (s.clients c').guards := by
    by_cases hc : c' = c
    · subst hc
      rw [hself]
      exact ⟨rfl, rfl, rfl⟩
    · rw [hother hc]
      exact ⟨rfl, rfl, rfl⟩
  intro c'
  obtain ⟨hw, hd, hg⟩ := hwatched c'
  constructor
  · intro g hmem
    rw [hw] at hmem
    obtain ⟨hle, hmark⟩ := (h c').1 g hmem
    refine ⟨by omega, fun hdist => ?_⟩
    rcases disturbed_change hle hdist with hold | ⟨-, hne⟩
    · rw [hd]
      refine (hmark hold).imp_right ?_
      rintro ⟨d, hk⟩
      have hdc : d ≠ c := by
        rintro rfl
        simp [hphase] at hk
      exact ⟨d, by rwa [hother hdc]⟩
    · obtain ⟨hdirty, hk⟩ := hreported g.1 hne
      refine .inr ⟨c, ?_⟩
      rw [hself]
      exact (howes hdirty).symm ▸ hk
  · intro hcom g hmem
    have hc : c' ≠ c := by
      rintro rfl
      rw [hself] at hcom
      exact absurd hcom (by simp [hcommitted])
    rw [hother hc] at hcom hmem
    obtain ⟨hle, hnot⟩ := (h c').2 hcom g hmem
    refine ⟨by omega, fun hdist => ?_⟩
    rcases disturbed_change hle hdist with hold | ⟨-, hne⟩
    · exact hnot hold
    · exact hne (hclear c' hc hcom g hmem)

theorem State.Inv.mark [DecidableEq K] (h : s.Inv) {keys : List K} {phase : Phase K V}
    (hkeys : (s.clients c).phase.owes = keys) (hcommitted : phase.committed = false) :
    ((s.mark keys).set c { (s.mark keys).clients c with phase := phase }).Inv := by
  set t := (s.mark keys).set c { (s.mark keys).clients c with phase := phase } with ht
  have hself : t.clients c = { (s.mark keys).clients c with phase := phase } := Function.update_self ..
  have hother {c' : C} (hc : c' ≠ c) : t.clients c' = (s.mark keys).clients c' :=
    Function.update_of_ne hc ..
  have hsession (c' : C) : (t.clients c').watched = (s.clients c').watched ∧
      (t.clients c').guards = (s.clients c').guards ∧ (t.clients c').dirty =
        ((s.clients c').dirty || (s.clients c').watched.any fun g => decide (g.1 ∈ keys)) := by
    by_cases hc : c' = c
    · subst hc
      rw [hself]
      exact ⟨rfl, rfl, rfl⟩
    · rw [hother hc]
      exact ⟨rfl, rfl, rfl⟩
  intro c'
  obtain ⟨hw, hg, hd⟩ := hsession c'
  constructor
  · intro g hmem
    rw [hw] at hmem
    obtain ⟨hle, hmark⟩ := (h c').1 g hmem
    refine ⟨hle, fun hdist => ?_⟩
    rw [hd]
    rcases hmark hdist with hdirty | ⟨d, hk⟩
    · exact .inl (by rw [hdirty, Bool.true_or])
    · by_cases hdc : d = c
      · subst hdc
        rw [hkeys] at hk
        refine .inl (Bool.or_eq_true_iff.2 (.inr (List.any_eq_true.2 ⟨g, hmem, decide_eq_true hk⟩)))
      · refine .inr ⟨d, ?_⟩
        rw [hother hdc]
        exact hk
  · intro hcom g hmem
    have hc : c' ≠ c := by
      rintro rfl
      rw [hself] at hcom
      exact absurd hcom (by simp [hcommitted])
    rw [hother hc] at hcom
    rw [hg] at hmem
    exact (h c').2 hcom g hmem

/-- A step that moves a client on, with the same watches. -/
theorem State.Inv.move (h : s.Inv) {me : Client K V} (hhistory : t.history = s.history)
    (hclients : t.clients = Function.update s.clients c me)
    (howes : (s.clients c).phase.owes = []) (hwatched : me.watched = (s.clients c).watched)
    (hdirty : me.dirty = (s.clients c).dirty) (hguards : me.guards = (s.clients c).guards)
    (hcommitted : me.phase.committed = true → (s.clients c).phase.committed = true) : t.Inv := by
  refine h.set hhistory hclients (by simp [howes]) (fun g hg => ?_) fun hcom g hg => ?_
  · rw [hwatched] at hg
    rw [hdirty]
    exact (h c).1 g hg
  · rw [hguards] at hg
    exact (h c).2 (hcommitted hcom) g hg

theorem State.Inv.forget (h : s.Inv) {me : Client K V} (hclients : t.clients = Function.update s.clients c me)
    (hhistory : t.history = s.history) (howes : (s.clients c).phase.owes = []) (hwatched : me.watched = [])
    (hguards : me.guards = (s.clients c).guards)
    (hcommitted : me.phase.committed = true → (s.clients c).phase.committed = true) : t.Inv := by
  refine h.set hhistory hclients (by simp [howes]) (fun g hg => ?_) fun hcom g hg => ?_
  · simp [hwatched] at hg
  · rw [hguards] at hg
    exact (h c).2 (hcommitted hcom) g hg

theorem State.Inv.watch [DecidableEq K] (h : s.Inv) {k : K} (ht : s.step (.watch c k) = some t) : t.Inv := by
  simp only [State.step] at ht
  split at ht
  · rename_i hidle _
    split_ifs at ht
    · exact Option.some.inj ht ▸ h
    · obtain rfl := Option.some.inj ht
      refine h.set rfl rfl (by simp [hidle, Phase.owes]) (fun g hg => ?_) (h c).2
      rcases List.mem_cons.1 hg with rfl | hg
      · refine ⟨Nat.le_refl _, ?_⟩
        rintro ⟨e, he, -⟩
        simp at he
      · exact (h c).1 g hg
  · cases ht

theorem State.Inv.check [DecidableEq K] (h : s.Inv) {refused : Bool} (hok : Orderly s (.check c refused))
    (ht : s.step (.check c refused) = some t) : t.Inv := by
  simp only [State.step] at ht
  split at ht
  · rename_i batch hidle _
    obtain rfl := Option.some.inj ht
    refine h.set rfl rfl (by simp [hidle, Phase.owes]) (h c).1 fun hcom g hg => ?_
    simp only [Phase.committed, Bool.not_eq_true', Bool.or_eq_false_iff] at hcom
    obtain ⟨hle, hmark⟩ := (h c).1 g hg
    refine ⟨hle, fun hdist => ?_⟩
    rcases hmark hdist with hdirty | ⟨d, hk⟩
    · simp [hcom.1] at hdirty
    · by_cases hdc : d = c
      · subst hdc
        simp [hidle, Phase.owes] at hk
      · exact hok d hdc g hg hk
  · cases ht

theorem State.Inv.step [DecidableEq K] (h : s.Inv) {a : Action C K V} (hok : Orderly s a)
    (ht : s.step a = some t) : t.Inv := by
  cases a with
  | watch c k => exact h.watch ht
  | check c refused => exact h.check hok ht
  | unwatch c =>
    simp only [State.step] at ht
    split at ht
    · rename_i hidle
      obtain rfl := Option.some.inj ht
      exact h.forget rfl rfl (by rw [hidle]; rfl) rfl rfl id
    · cases ht
  | multi | queue =>
    simp only [State.step] at ht
    split at ht
    · rename_i hidle _
      obtain rfl := Option.some.inj ht
      exact h.move rfl rfl (by rw [hidle]; rfl) rfl rfl rfl id
    · cases ht
  | discard c =>
    simp only [State.step] at ht
    split at ht
    · rename_i hidle _
      obtain rfl := Option.some.inj ht
      exact h.forget rfl rfl (by rw [hidle]; rfl) rfl rfl id
    · cases ht
  | write c w =>
    simp only [State.step] at ht
    split at ht
    · rename_i hidle _
      obtain ⟨r, hr, rfl⟩ := Option.map_eq_some_iff.1 ht
      obtain ⟨hhistory, hclients⟩ := acquire_eq hr
      exact h.move hhistory (congrArg (Function.update · c _) hclients) (by rw [hidle]; rfl) rfl rfl rfl
        fun hcom => absurd hcom Bool.false_ne_true
    · cases ht
  | clear c =>
    simp only [State.step] at ht
    split at ht
    · rename_i aborted batch hphase
      obtain rfl := Option.some.inj ht
      refine h.forget rfl rfl (by rw [hphase]; rfl) rfl rfl fun hcom => ?_
      rw [hphase]
      cases aborted with
      | false => rfl
      | true => exact absurd hcom Bool.false_ne_true
    · cases ht
  | enter c =>
    simp only [State.step] at ht
    split at ht
    · rename_i batch hphase
      obtain ⟨r, hr, rfl⟩ := Option.map_eq_some_iff.1 ht
      obtain ⟨hhistory, hclients⟩ := acquire_eq hr
      exact h.move hhistory (congrArg (Function.update · c _) hclients) (by rw [hphase]; rfl) rfl rfl rfl
        fun _ => by rw [hphase]; rfl
    · cases ht
  | mutate | execute =>
    simp only [State.step] at ht
    split at ht
    · rename_i hphase
      obtain rfl := Option.some.inj ht
      obtain ⟨hreported, hclear⟩ := hok _ (by rw [hphase]; rfl)
      refine h.change hreported (by rw [hphase]; rfl) (fun hdirty => ?_) ?_ hclear
      · rw [if_pos hdirty]
        rfl
      · split_ifs <;> rfl
    · cases ht
  | touch | observe =>
    simp only [State.step] at ht
    split at ht
    · rename_i hphase
      obtain rfl := Option.some.inj ht
      exact h.mark (by rw [hphase]; rfl) rfl
    · cases ht
  | leave c | finish c =>
    simp only [State.step] at ht
    split at ht
    · rename_i locked hphase
      obtain rfl := Option.some.inj ht
      obtain ⟨hhistory, hclients⟩ := release_eq s locked
      exact h.move hhistory (congrArg (Function.update · c _) hclients) (by rw [hphase]; rfl) rfl rfl rfl
        fun hcom => absurd hcom Bool.false_ne_true
    · cases ht
  | propagate on => exact Option.some.inj ht ▸ h

/-- In an orderly run, when EXEC comes to the first command of its batch, no other client's write
has changed a key since it was watched. -/
theorem watch_is_lock [DecidableEq K] {data : K → V} (h : Reaches State.step Orderly (State.start data) s)
    {batch : List (Write K V)} {locked : Bool} (hrun : (s.clients c).phase = .running true batch locked) :
    ∀ g ∈ (s.clients c).guards, ¬ s.Disturbed c g := by
  have hinv : s.Inv := by
    refine Reaches.invariant (fun s a t hs hok hstep => ?_) h fun c => ?_
    · exact hs.step hok hstep
    · exact ⟨fun g hg => absurd hg List.not_mem_nil, fun hcom => absurd hcom Bool.false_ne_true⟩
  intro g hg
  exact ((hinv c).2 (by rw [hrun]; rfl) g hg).2

end Locking

/-- Two clients and two counters. -/
abbrev Pair := State Bool Bool ℕ

/-- INCR. -/
def bump (k : Bool) : Write Bool ℕ :=
  ⟨fun data => Function.update data k (data k + 1), fun _ => true, fun _ => [k]⟩

theorem bump_reported (k : Bool) (data : Bool → ℕ) : (bump k).Reported data := by
  intro k' hne
  refine ⟨rfl, List.mem_singleton.2 ?_⟩
  by_contra hk
  exact hne (Function.update_of_ne hk _ _)

/-- One client watches a counter; the other one is about to increment the other counter. -/
def begun : Pair :=
  (play State.step (State.start fun _ => 0) [.watch true true, .write false (bump false)]).get rfl

def incremented : Pair := (begun.step (.mutate false)).get rfl

/-- The transaction is queued, and EXEC is next. -/
def ready : Pair :=
  (play State.step incremented [.touch false, .multi true, .queue true (bump true)]).get rfl

def passed : Pair := (ready.step (.check true false)).get rfl

theorem reaches_passed : Reaches State.step Orderly (State.start fun _ => 0) passed := by
  have hbegun : Reaches State.step Orderly (State.start fun _ => 0) begun :=
    reaches_of_play (by simp [Orderly]) (Option.some_get _).symm
  have hincremented : Reaches State.step Orderly (State.start fun _ => 0) incremented := by
    refine .tail (.mutate false) hbegun (fun w hw => ?_) (Option.some_get _).symm
    obtain rfl : bump false = w := Option.some.inj hw
    refine ⟨bump_reported false _, fun c hc hcom => ?_⟩
    obtain rfl : c = true := by simpa using hc
    exact absurd hcom Bool.false_ne_true
  have hready : Reaches State.step Orderly incremented ready :=
    reaches_of_play (by simp [Orderly]) (Option.some_get _).symm
  refine .tail (.check true false) (hincremented.trans hready) (fun c hc g _ => ?_) (Option.some_get _).symm
  obtain rfl : c = false := by simpa using hc
  exact List.not_mem_nil

/-- A client watches one counter while the other client increments the other one. -/
theorem other_key_written : ∃ s : Pair, Reaches State.step Orderly (State.start fun _ => 0) s ∧
    (s.clients true).phase = .running true [bump true] false ∧ s.data false = 1 ∧
    ∀ g ∈ (s.clients true).guards, ¬ s.Disturbed true g := by
  have hcleared : Reaches State.step Orderly (State.start fun _ => 0) _ :=
    .tail (.clear true) reaches_passed trivial rfl
  have hrun : Reaches State.step Orderly (State.start fun _ => 0) _ :=
    .tail (.enter true) hcleared trivial rfl
  exact ⟨_, hrun, rfl, rfl, watch_is_lock hrun rfl⟩

/-- The watched counter is incremented after the check of EXEC and before its batch. -/
theorem written_after_check : ∃ s : Pair, Reachable State.step (State.start fun _ => 0) s ∧
    (s.clients true).phase = .running true [bump true] false ∧
    ∃ g ∈ (s.clients true).guards, s.Disturbed true g := by
  have hplay : play State.step (State.start fun _ => 0 : Pair) [.watch true true, .multi true,
      .queue true (bump true), .check true false, .write false (bump true), .mutate false,
      .touch false, .leave false, .clear true, .enter true] = some _ := rfl
  refine ⟨_, reachable_of_play hplay, rfl, (true, 0), List.mem_singleton.2 rfl, ?_⟩
  exact ⟨_, List.mem_singleton.2 rfl, by decide, by decide⟩

end ShardKV.Server.Watch
