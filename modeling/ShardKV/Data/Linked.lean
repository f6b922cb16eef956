import Mathlib.Data.List.Basic
import Mathlib.Data.List.Nodup
import Mathlib.Data.List.Perm.Basic

/-!
Doubly linked lists.

A list is the sequence of its cells. Each cell has an identity that no other cell of the list has
or had, and a pointer is such an identity, so a pointer to one cell outlives the removal of another.
Both directions of a walk are one: the walk back is the walk over the reversed sequence.
-/

namespace ShardKV.Linked

variable {α : Type}

/-- The cells of a doubly linked list, and a bound on the identities in use. -/
structure LinkedList (α : Type) where
  cells : List (ℕ × α)
  fresh : ℕ
  below : ∀ c ∈ cells, c.1 < fresh
  distinct : (cells.map Prod.fst).Nodup

namespace LinkedList

/-- The cell after the one with the given identity. -/
def succIn : List (ℕ × α) → ℕ → Option ℕ
  | [], _ => none
  | c :: cs, p => if c.1 = p then cs.head?.map Prod.fst else succIn cs p

variable (l : LinkedList α)

def contents : List α := l.cells.map Prod.snd

def len : ℕ := l.cells.length

/-- The cells as a walk meets them, from the head or from the tail. -/
def order (fromTail : Bool) : List (ℕ × α) := if fromTail then l.cells.reverse else l.cells

def front : Option ℕ := (l.order false).head?.map Prod.fst

def back : Option ℕ := (l.order true).head?.map Prod.fst

def next (p : ℕ) : Option ℕ := succIn (l.order false) p

def prev (p : ℕ) : Option ℕ := succIn (l.order true) p

def value (p : ℕ) : Option α := (l.cells.find? fun c => c.1 = p).map Prod.snd

def empty : LinkedList α := ⟨[], 0, by simp, by simp⟩

theorem fresh_notMem : l.fresh ∉ l.cells.map Prod.fst := by
  intro h
  obtain ⟨c, hc, heq⟩ := List.mem_map.1 h
  exact absurd (l.below c hc) (by omega)

/-- At most one cell more, with the fresh identity. -/
def grown (v : α) (cells : List (ℕ × α)) (h : cells = l.cells ∨ cells.Perm ((l.fresh, v) :: l.cells)) :
    LinkedList α where
  cells := cells
  fresh := l.fresh + 1
  below := by
    intro c hc
    have hold : ∀ c ∈ l.cells, c.1 < l.fresh + 1 := fun c hc => Nat.lt_succ_of_lt (l.below c hc)
    rcases h with rfl | hperm
    · exact hold c hc
    · rcases List.mem_cons.1 (hperm.mem_iff.1 hc) with rfl | hc
      · exact Nat.lt_succ_self _
      · exact hold c hc
  distinct := by
    rcases h with rfl | hperm
    · exact l.distinct
    · exact (hperm.map Prod.fst).nodup_iff.2 (List.nodup_cons.2 ⟨l.fresh_notMem, l.distinct⟩)

def pushFront (v : α) : LinkedList α := l.grown v ((l.fresh, v) :: l.cells) (.inr (.refl _))

def pushBack (v : α) : LinkedList α :=
  l.grown v (l.cells ++ [(l.fresh, v)]) (.inr (List.perm_append_singleton _ _))

/-- A cell put next to the one with the given identity; nothing where there is no such cell. -/
def placed (before : Bool) (x : ℕ × α) (p : ℕ) : List (ℕ × α) → List (ℕ × α)
  | [] => []
  | c :: cs =>
    if c.1 = p then if before then x :: c :: cs else c :: x :: cs else c :: placed before x p cs

theorem placed_perm (before : Bool) (x : ℕ × α) (p : ℕ) (cells : List (ℕ × α)) :
    placed before x p cells = cells ∨ (placed before x p cells).Perm (x :: cells) := by
  induction cells with
  | nil => exact .inl rfl
  | cons c cs ih =>
    rw [placed]
    by_cases hp : c.1 = p
    · rw [if_pos hp]
      cases before
      · exact .inr (.swap x c cs)
      · exact .inr (.refl _)
    · rw [if_neg hp]
      rcases ih with heq | hperm
      · exact .inl (by rw [heq])
      · exact .inr ((hperm.cons c).trans (.swap x c cs))

def insertNear (before : Bool) (v : α) (p : ℕ) : LinkedList α :=
  l.grown v (placed before (l.fresh, v) p l.cells) (placed_perm _ _ _ _)

/-- The list without the cell of the given identity. -/
def remove (p : ℕ) : LinkedList α where
  cells := l.cells.filter fun c => c.1 ≠ p
  fresh := l.fresh
  below := fun c hc => l.below c (List.mem_of_mem_filter hc)
  distinct := l.distinct.sublist ((List.filter_sublist).map Prod.fst)

/-- The cell of the given identity holds another value. -/
def setValue (p : ℕ) (v : α) : LinkedList α where
  cells := l.cells.map fun c => if c.1 = p then (c.1, v) else c
  fresh := l.fresh
  below := by
    intro c hc
    obtain ⟨c, hold, rfl⟩ := List.mem_map.1 hc
    have := l.below c hold
    split_ifs <;> exact this
  distinct := by
    have hids : (l.cells.map fun c => if c.1 = p then (c.1, v) else c).map Prod.fst = l.cells.map Prod.fst := by
      rw [List.map_map]
      refine List.map_congr_left fun c _ => ?_
      by_cases hp : c.1 = p <;> simp [hp]
    rw [hids]
    exact l.distinct

section Walking

variable {l} {fromTail : Bool} {p : ℕ} {v : α} {pre post : List (ℕ × α)}

theorem order_distinct (l : LinkedList α) (fromTail : Bool) : ((l.order fromTail).map Prod.fst).Nodup := by
  unfold order
  cases fromTail
  · exact l.distinct
  · rw [if_pos rfl, List.map_reverse, List.nodup_reverse]
    exact l.distinct

theorem length_order (l : LinkedList α) (fromTail : Bool) : (l.order fromTail).length = l.len := by
  cases fromTail <;> simp [order, len]

/-- The identities around a cell are not its own. -/
theorem ne_of_split (h : l.order fromTail = pre ++ (p, v) :: post) : ∀ c ∈ pre ++ post, c.1 ≠ p := by
  have hnodup := l.order_distinct fromTail
  rw [h, List.map_append, List.map_cons, List.nodup_middle, List.nodup_cons, ← List.map_append] at hnodup
  intro c hc hp
  exact hnodup.1 (List.mem_map.2 ⟨c, hc, hp⟩)

theorem succIn_split (h : ∀ c ∈ pre, c.1 ≠ p) : succIn (pre ++ (p, v) :: post) p = post.head?.map Prod.fst := by
  induction pre with
  | nil => rw [List.nil_append, succIn, if_pos rfl]
  | cons c pre ih =>
    rw [List.cons_append, succIn, if_neg (h c List.mem_cons_self)]
    exact ih fun c hc => h c (List.mem_cons_of_mem _ hc)

theorem step_split (h : l.order fromTail = pre ++ (p, v) :: post) :
    (if fromTail then l.prev p else l.next p) = post.head?.map Prod.fst := by
  have hpre : ∀ c ∈ pre, c.1 ≠ p := fun c hc => ne_of_split h c (List.mem_append_left _ hc)
  have hstep : succIn (l.order fromTail) p = post.head?.map Prod.fst := by rw [h, succIn_split hpre]
  cases fromTail
  · exact hstep
  · exact hstep

theorem value_split (h : l.order fromTail = pre ++ (p, v) :: post) : l.value p = some v := by
  have hmem : (p, v) ∈ l.cells := by
    have : (p, v) ∈ l.order fromTail := by simp [h]
    cases fromTail
    · exact this
    · exact List.mem_reverse.1 this
  unfold value
  cases hfind : l.cells.find? fun c => c.1 = p with
  | none => exact absurd (List.find?_eq_none.1 hfind _ hmem) (by simp)
  | some c =>
    have hc := List.find?_some hfind
    have heq : c = (p, v) := List.inj_on_of_nodup_map l.distinct (List.mem_of_find?_eq_some hfind) hmem (by simpa using hc)
    rw [heq]
    rfl

theorem order_remove (h : l.order fromTail = pre ++ (p, v) :: post) :
    (l.remove p).order fromTail = pre ++ post := by
  have hne := ne_of_split h
  have hfilter : (l.order fromTail).filter (fun c => c.1 ≠ p) = pre ++ post := by
    rw [h, List.filter_append, List.filter_cons_of_neg (by simp), ← List.filter_append]
    exact List.filter_eq_self.2 fun c hc => by simpa using hne c hc
  rw [← hfilter]
  cases fromTail
  · rfl
  · exact List.filter_reverse.symm

theorem contents_of_order (h : l.order false = pre) : l.contents = pre.map Prod.snd := by
  rw [← h]
  rfl

theorem contents_setValue (h : l.order false = pre ++ (p, v) :: post) (w : α) :
    (l.setValue p w).contents = pre.map Prod.snd ++ w :: post.map Prod.snd := by
  have hcells : l.cells = pre ++ (p, v) :: post := h
  have hne := ne_of_split h
  have hrest : ∀ cs : List (ℕ × α), (∀ c ∈ cs, c.1 ≠ p) →
      cs.map (fun c => if c.1 = p then (c.1, w) else c) = cs := fun cs hcs =>
    (List.map_congr_left fun c hc => if_neg (hcs c hc)).trans (List.map_id' cs)
  unfold contents setValue
  dsimp only
  rw [hcells, List.map_append, List.map_cons, if_pos rfl,
    hrest pre fun c hc => hne c (List.mem_append_left _ hc),
    hrest post fun c hc => hne c (List.mem_append_right _ hc), List.map_append, List.map_cons]

theorem contents_insertNear (h : l.order false = pre ++ (p, v) :: post) (before : Bool) (w : α) :
    (l.insertNear before w p).contents =
      pre.map Prod.snd ++ (if before then [w, v] else [v, w]) ++ post.map Prod.snd := by
  have hcells : l.cells = pre ++ (p, v) :: post := h
  have hpre : ∀ c ∈ pre, c.1 ≠ p := fun c hc => ne_of_split h c (List.mem_append_left _ hc)
  have hplaced : ∀ (pre : List (ℕ × α)), (∀ c ∈ pre, c.1 ≠ p) → ∀ x, placed before x p (pre ++ (p, v) :: post) =
      pre ++ (if before then [x, (p, v)] else [(p, v), x]) ++ post := by
    intro pre hpre x
    induction pre with
    | nil => cases before <;> simp [placed]
    | cons c pre ih =>
      rw [List.cons_append, placed, if_neg (hpre c List.mem_cons_self),
        ih fun c hc => hpre c (List.mem_cons_of_mem _ hc)]
      rfl
  change (placed before (l.fresh, w) p l.cells).map Prod.snd = _
  rw [hcells, hplaced pre hpre]
  cases before <;> simp

theorem contents_pushFront (l : LinkedList α) (v : α) : (l.pushFront v).contents = v :: l.contents := rfl

theorem contents_pushBack (l : LinkedList α) (v : α) : (l.pushBack v).contents = l.contents ++ [v] := by
  change (l.cells ++ [(l.fresh, v)]).map Prod.snd = _
  rw [List.map_append]
  rfl

theorem length_contents (l : LinkedList α) : l.contents.length = l.len := List.length_map _

end Walking

end LinkedList

end ShardKV.Linked
