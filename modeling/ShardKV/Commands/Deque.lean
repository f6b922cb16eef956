import ShardKV.Bytes.Checked
import ShardKV.Commands.Lists
import ShardKV.Data.Linked

/-!
The list type as it is stored.

A list is a doubly linked list with a running count of its bytes. The operations walk it from one end
or the other and change it as they go. Each of them is compared with an operation on the sequence of
the elements: it returns the same and leaves the same, and the count stays the sum over the elements.
-/

namespace ShardKV.Commands

open Access Data Server Checked Linked

structure Deque where
  l : LinkedList Bytes
  bytes : ℤ

def newDeque : Deque := ⟨.empty, 0⟩

def memListElem : ℤ := 64

def elemBytes (v : Bytes) : ℤ := memListElem + v.length

namespace Deque

variable (d : Deque)

def contents : List Bytes := d.l.contents

def len : ℕ := d.l.len

def valueAt (el : ℕ) : Bytes := (d.l.value el).getD []

def lpush (v : Bytes) : Deque := ⟨d.l.pushFront v, d.bytes + elemBytes v⟩

def rpush (v : Bytes) : Deque := ⟨d.l.pushBack v, d.bytes + elemBytes v⟩

def remove (el : ℕ) : Deque := ⟨d.l.remove el, d.bytes - elemBytes (d.valueAt el)⟩

def lpop : Option (Bytes × Deque) := d.l.front.map fun el => (d.valueAt el, d.remove el)

def rpop : Option (Bytes × Deque) := d.l.back.map fun el => (d.valueAt el, d.remove el)

def setValue (el : ℕ) (v : Bytes) : Deque :=
  ⟨d.l.setValue el v, d.bytes + ((v.length : ℤ) - (d.valueAt el).length)⟩

/-- The loop of `rangeIdx`. Every loop over the elements ends within `left` turns. -/
def rangeFrom (start stop : ℤ) : ℕ → Option ℕ → ℤ → List Bytes → List Bytes
  | left + 1, some el, i, out =>
    if i > stop then out
    else rangeFrom start stop left (d.l.next el) (i + 1) (if i ≥ start then out ++ [d.valueAt el] else out)
  | _, _, _, out => out

def rangeIdx (start stop : ℤ) : List Bytes :=
  let n : ℤ := d.len
  let start := if start < 0 then start + n else start
  let stop := if stop < 0 then stop + n else stop
  let start := if start < 0 then 0 else start
  let stop := if stop ≥ n then n - 1 else stop
  if start > stop ∨ n = 0 then [] else d.rangeFrom start stop d.len d.l.front 0 []

def advance (step : ℕ → Option ℕ) : ℕ → Option ℕ → Option ℕ
  | 0, el => el
  | j + 1, el => advance step j (el.bind step)

/-- `at`. -/
def elementAt (i : ℤ) : Option ℕ :=
  let n : ℤ := d.len
  let i := if i < 0 then i + n else i
  if i < 0 ∨ i ≥ n then none
  else if i ≤ n / 2 then advance d.l.next i.toNat d.l.front
  else advance d.l.prev (n - 1 - i).toNat d.l.back

/-- The loop of `insertAt`. -/
def insertFrom (pivot val : Bytes) (before : Bool) : ℕ → Option ℕ → Deque × ℤ
  | left + 1, some el =>
    if d.valueAt el ≠ pivot then insertFrom pivot val before left (d.l.next el)
    else
      let d : Deque := ⟨d.l.insertNear before val el, d.bytes + elemBytes val⟩
      (d, d.len)
  | _, _ => (d, -1)

def insertAt (pivot val : Bytes) (before : Bool) : Deque × ℤ := d.insertFrom pivot val before d.len d.l.front

/-- The loop of `removeVal`; the next element is read before the current one goes. -/
def removeFrom (fromTail : Bool) (count limit : ℤ) (val : Bytes) : ℕ → Deque → Option ℕ → ℤ → Deque × ℤ
  | left + 1, d, some el, removed =>
    let next := if fromTail then d.l.prev el else d.l.next el
    if d.valueAt el = val then
      if count ≠ 0 ∧ removed + 1 = limit then (d.remove el, removed + 1)
      else removeFrom fromTail count limit val left (d.remove el) next (removed + 1)
    else removeFrom fromTail count limit val left d next removed
  | _, d, _, removed => (d, removed)

def removeVal (count : ℤ) (val : Bytes) : Deque × ℤ :=
  let limit := if count < 0 then wrap (-count) else count
  let fromTail := decide (count < 0)
  removeFrom fromTail count limit val d.len d (if fromTail then d.l.back else d.l.front) 0

/-- A loop of `trim`, which takes a number of elements off one end. -/
def trimFrom (fromTail : Bool) : ℕ → Deque → Option ℕ → Deque
  | left + 1, d, some el => trimFrom fromTail left (d.remove el) (if fromTail then d.l.prev el else d.l.next el)
  | _, d, _ => d

def trim (start stop : ℤ) : Deque :=
  match normalizeRange d.len start stop with
  | none => ⟨.empty, 0⟩
  | some (first, last) =>
    let d := trimFrom false first d d.l.front
    trimFrom true (d.len - 1 - (last - first)) d d.l.back

/-- The loop of `positions`. -/
def positionsFrom (val : Bytes) (fromTail : Bool) (skip count maxlen : ℤ) :
    ℕ → Option ℕ → ℤ → ℤ → ℤ → List ℤ → List ℤ
  | left + 1, some el, i, compared, matched, out =>
    let next := if fromTail then d.l.prev el else d.l.next el
    let i' := if fromTail then i - 1 else i + 1
    if maxlen > 0 ∧ compared ≥ maxlen then out
    else if d.valueAt el = val then
      if matched ≥ skip then
        if count > 0 ∧ ((out ++ [i]).length : ℤ) = count then out ++ [i]
        else positionsFrom val fromTail skip count maxlen left next i' (compared + 1) (matched + 1) (out ++ [i])
      else positionsFrom val fromTail skip count maxlen left next i' (compared + 1) (matched + 1) out
    else positionsFrom val fromTail skip count maxlen left next i' (compared + 1) matched out
  | _, _, _, _, _, out => out

def positions (val : Bytes) (rank count maxlen : ℤ) : List ℤ :=
  let skip := if rank < 0 then wrap (wrap (-rank) - 1) else wrap (rank - 1)
  let fromTail := decide (rank < 0)
  d.positionsFrom val fromTail skip count maxlen d.len (if fromTail then d.l.back else d.l.front)
    (if fromTail then (d.len : ℤ) - 1 else 0) 0 0 []

/-- One end's push, and one end's pop. -/
def push (left : Bool) (v : Bytes) : Deque := if left then d.lpush v else d.rpush v

def pop (left : Bool) : Option (Bytes × Deque) := if left then d.lpop else d.rpop

/-- The loop of `LPopCount`. -/
def popFrom (left : Bool) : ℕ → Deque → List Bytes → List Bytes × Deque
  | n + 1, d, vals =>
    match d.pop left with
    | none => (vals, d)
    | some (v, d) => popFrom left n d (vals ++ [v])
  | 0, d, vals => (vals, d)

/-- The byte count is the sum over the elements. -/
def Exact : Prop := d.bytes = (d.contents.map elemBytes).sum

section Elements

variable {d} {fromTail : Bool} {p : ℕ} {v : Bytes} {pre post : List (ℕ × Bytes)}

theorem valueAt_split (h : d.l.order fromTail = pre ++ (p, v) :: post) : d.valueAt p = v := by
  rw [valueAt, LinkedList.value_split h]
  rfl

theorem map_order (d : Deque) (fromTail : Bool) :
    (d.l.order fromTail).map Prod.snd = if fromTail then d.contents.reverse else d.contents := by
  cases fromTail
  · rfl
  · exact List.map_reverse

theorem sum_order (d : Deque) (fromTail : Bool) :
    (((d.l.order fromTail).map Prod.snd).map elemBytes).sum = (d.contents.map elemBytes).sum := by
  rw [map_order]
  cases fromTail
  · rfl
  · rw [if_pos rfl, List.map_reverse, List.sum_reverse]

theorem exact_remove (hd : d.Exact) (h : d.l.order fromTail = pre ++ (p, v) :: post) : (d.remove p).Exact := by
  have hsum := d.sum_order fromTail
  have hsum' := (d.remove p).sum_order fromTail
  have hafter : (d.remove p).l.order fromTail = pre ++ post := LinkedList.order_remove h
  rw [h] at hsum
  rw [hafter] at hsum'
  unfold Exact at hd ⊢
  change d.bytes - elemBytes (d.valueAt p) = _
  rw [← hsum', hd, ← hsum, valueAt_split h]
  simp only [List.map_append, List.map_cons, List.sum_append, List.sum_cons]
  ring

theorem length_contents (d : Deque) : d.contents.length = d.len := d.l.length_contents

theorem first_eq (d : Deque) (fromTail : Bool) :
    (if fromTail then d.l.back else d.l.front) = (d.l.order fromTail).head?.map Prod.fst := by
  cases fromTail <;> rfl

end Elements

section Ends

variable {d}

theorem push_spec (hd : d.Exact) (left : Bool) (v : Bytes) :
    (d.push left v).Exact ∧ (d.push left v).contents = pushTo left d.contents v := by
  unfold Exact at hd ⊢
  cases left
  · have hcontents : (d.push false v).contents = d.contents ++ [v] := d.l.contents_pushBack v
    refine ⟨?_, hcontents⟩
    change d.bytes + elemBytes v = _
    rw [hcontents, hd]
    simp
  · have hcontents : (d.push true v).contents = v :: d.contents := d.l.contents_pushFront v
    refine ⟨?_, hcontents⟩
    change d.bytes + elemBytes v = _
    rw [hcontents, hd, List.map_cons, List.sum_cons, add_comm]

/-- A pop takes the first element of the walk from its end. -/
theorem pop_eq (d : Deque) (left : Bool) :
    d.pop left = (d.l.order (!left)).head?.map fun c => (d.valueAt c.1, d.remove c.1) := by
  cases left
  · change Option.map _ (Option.map Prod.fst _) = _
    rw [Option.map_map]
    rfl
  · change Option.map _ (Option.map Prod.fst _) = _
    rw [Option.map_map]
    rfl

theorem popFrom_eq {left : Bool} {l w : List Bytes} (hw : w = if left then l else l.reverse) :
    Commands.popFrom left l = w.head?.map fun x => (x, if left then w.tail else w.tail.reverse) := by
  subst hw
  unfold Commands.popFrom
  cases left
  · rw [if_neg Bool.false_ne_true, if_neg Bool.false_ne_true]
    cases l.reverse <;> rfl
  · rw [if_pos rfl, if_pos rfl]
    cases l <;> rfl

theorem pop_spec (hd : d.Exact) (left : Bool) :
    (d.pop left).map (fun r => (r.1, r.2.contents)) = Commands.popFrom left d.contents ∧
      ∀ v d', d.pop left = some (v, d') → d'.Exact := by
  have hmap : (d.l.order (!left)).map Prod.snd = if left then d.contents else d.contents.reverse := by
    rw [map_order]
    cases left <;> rfl
  rw [pop_eq, popFrom_eq hmap]
  cases horder : d.l.order (!left) with
  | nil => exact ⟨rfl, fun v d' h => by cases h⟩
  | cons c cs =>
    obtain ⟨p, v⟩ := c
    have hsplit : d.l.order (!left) = [] ++ (p, v) :: cs := horder
    have hafter : (d.remove p).l.order (!left) = cs := LinkedList.order_remove hsplit
    have hcontents : (d.remove p).contents = if left then cs.map Prod.snd else (cs.map Prod.snd).reverse := by
      have := (d.remove p).map_order (!left)
      rw [hafter] at this
      cases left
      · exact (List.reverse_eq_iff.2 this).symm
      · exact this.symm
    constructor
    · simp only [List.head?_cons, Option.map_some, List.map_cons, List.tail_cons, valueAt_split hsplit, hcontents]
    · rintro v' d' heq
      obtain ⟨-, rfl⟩ := Prod.mk.inj (Option.some.inj heq)
      exact exact_remove hd hsplit

theorem popMany_nil (left : Bool) (n : ℕ) : popMany left n [] = ([], []) := by cases left <;> simp [popMany]

theorem popMany_succ {left : Bool} {l l' : List Bytes} {x : Bytes} (h : Commands.popFrom left l = some (x, l')) (n : ℕ) :
    popMany left (n + 1) l = (x :: (popMany left n l').1, (popMany left n l').2) := by
  rw [popFrom_eq rfl] at h
  obtain ⟨y, hy, heq⟩ := Option.map_eq_some_iff.1 h
  obtain ⟨rfl, rfl⟩ := Prod.mk.inj heq
  cases left
  · obtain ⟨ys, hys⟩ := List.head?_eq_some_iff.1 hy
    rw [if_neg Bool.false_ne_true] at hys
    simp [popMany, hys]
  · obtain ⟨ys, hys⟩ := List.head?_eq_some_iff.1 hy
    rw [if_pos rfl] at hys
    simp [popMany, hys]

theorem popFrom_spec (hd : d.Exact) (left : Bool) (n : ℕ) (vals : List Bytes) :
    (popFrom left n d vals).1 = vals ++ (popMany left n d.contents).1 ∧
    (popFrom left n d vals).2.contents = (popMany left n d.contents).2 ∧ (popFrom left n d vals).2.Exact := by
  induction n generalizing d vals with
  | zero => cases left <;> simp [popFrom, popMany, hd]
  | succ n ih =>
    obtain ⟨hpop, hexact⟩ := pop_spec hd left
    rw [popFrom]
    cases hcase : d.pop left with
    | none =>
      rw [hcase] at hpop
      have hnil : d.contents = [] := by
        rw [popFrom_eq rfl, Option.map_none, eq_comm, Option.map_eq_none_iff, List.head?_eq_none_iff] at hpop
        cases left
        · exact List.reverse_eq_nil_iff.1 hpop
        · exact hpop
      dsimp only
      rw [hnil, popMany_nil]
      exact ⟨(List.append_nil _).symm, rfl, hd⟩
    | some r =>
      obtain ⟨v, d'⟩ := r
      rw [hcase, Option.map_some] at hpop
      dsimp only
      obtain ⟨hvals, hcontents, hexact'⟩ := ih (hexact v d' hcase) (vals ++ [v])
      rw [popMany_succ hpop.symm]
      exact ⟨by rw [hvals, List.append_assoc]; rfl, hcontents, hexact'⟩

end Ends

section Index

variable {d}

theorem advance_eq (fromTail : Bool) (pre post : List (ℕ × Bytes)) (h : d.l.order fromTail = pre ++ post) (k : ℕ) :
    advance (fun el => if fromTail then d.l.prev el else d.l.next el) k (post.head?.map Prod.fst) =
      (post.drop k).head?.map Prod.fst := by
  induction k generalizing pre post with
  | zero => rfl
  | succ k ih =>
    rw [advance]
    cases post with
    | nil => simpa using ih pre [] h
    | cons c cs =>
      obtain ⟨p, v⟩ := c
      have hnext : ((p, v) :: cs).head?.map Prod.fst = some p := rfl
      rw [hnext, Option.bind_some, LinkedList.step_split h, List.drop_succ_cons]
      exact ih (pre ++ [(p, v)]) cs (by rw [h, List.append_assoc]; rfl)

theorem elementAt_none {i : ℤ} (h : position d.contents i = none) : d.elementAt i = none := by
  unfold position at h
  unfold elementAt
  rw [length_contents] at h
  dsimp only at h ⊢
  generalize (if i < 0 then i + (d.len : ℤ) else i) = i' at h ⊢
  by_cases hout : i' < 0 ∨ (d.len : ℤ) ≤ i'
  · exact if_pos hout
  · rw [if_neg hout] at h
    cases h

theorem elementAt_some {i : ℤ} {k : ℕ} (h : position d.contents i = some k) :
    ∃ pre p v post, d.l.order false = pre ++ (p, v) :: post ∧ pre.length = k ∧ d.elementAt i = some p := by
  unfold position at h
  unfold elementAt
  rw [length_contents] at h
  dsimp only at h ⊢
  generalize (if i < 0 then i + (d.len : ℤ) else i) = i' at h ⊢
  by_cases hout : i' < 0 ∨ (d.len : ℤ) ≤ i'
  · rw [if_pos hout] at h
    cases h
  rw [if_neg hout] at h
  have hk : i'.toNat = k := Option.some.inj h
  have hlen : (d.l.order false).length = d.len := d.l.length_order false
  have hlt : k < (d.l.order false).length := by omega
  obtain ⟨pre, ⟨p, v⟩, post, hsplit, hpre⟩ : ∃ pre c post, d.l.order false = pre ++ c :: post ∧ pre.length = k :=
    ⟨_, _, _, by rw [← List.drop_eq_getElem_cons hlt, List.take_append_drop], by rw [List.length_take]; omega⟩
  have hpost : pre.length + 1 + post.length = d.len := by
    rw [← hlen, hsplit, List.length_append, List.length_cons]
    omega
  refine ⟨pre, p, v, post, hsplit, hpre, ?_⟩
  rw [if_neg hout]
  by_cases hnear : i' ≤ (d.len : ℤ) / 2
  · rw [if_pos hnear, hk]
    refine (advance_eq false [] (d.l.order false) rfl k).trans ?_
    rw [hsplit, ← hpre, List.drop_left]
    rfl
  · have hback : d.l.order true = post.reverse ++ (p, v) :: pre.reverse := by
      change (d.l.order false).reverse = _
      rw [hsplit, List.reverse_append, List.reverse_cons, List.append_assoc]
      rfl
    have hsteps : ((d.len : ℤ) - 1 - i').toNat = post.reverse.length := by
      rw [List.length_reverse]
      omega
    rw [if_neg hnear, hsteps]
    refine (advance_eq true [] (d.l.order true) rfl _).trans ?_
    rw [hback, List.drop_left]
    rfl

/-- An index names the element at its position. -/
theorem elementAt_spec (d : Deque) (i : ℤ) :
    (d.elementAt i).map d.valueAt = (position d.contents i).bind fun k => d.contents[k]? := by
  cases h : position d.contents i with
  | none => rw [elementAt_none h]; rfl
  | some k =>
    obtain ⟨pre, p, v, post, hsplit, hpre, helement⟩ := elementAt_some h
    rw [helement, Option.map_some, valueAt_split hsplit, Option.bind_some, ← hpre,
      show d.contents = _ from LinkedList.contents_of_order hsplit]
    simp

theorem setValue_spec (hd : d.Exact) {i : ℤ} {k : ℕ} (h : position d.contents i = some k) (w : Bytes) :
    ∃ p, d.elementAt i = some p ∧ (d.setValue p w).contents = d.contents.set k w ∧ (d.setValue p w).Exact := by
  obtain ⟨pre, p, v, post, hsplit, rfl, helement⟩ := elementAt_some h
  have hbefore : d.contents = pre.map Prod.snd ++ v :: post.map Prod.snd := by
    rw [show d.contents = _ from LinkedList.contents_of_order hsplit, List.map_append, List.map_cons]
  have hafter : (d.setValue p w).contents = pre.map Prod.snd ++ w :: post.map Prod.snd :=
    LinkedList.contents_setValue hsplit w
  refine ⟨p, helement, ?_, ?_⟩
  · have hlen : pre.length = (pre.map Prod.snd).length := (List.length_map _).symm
    rw [hafter, hbefore, hlen, List.set_append_right _ _ le_rfl, Nat.sub_self, List.set_cons_zero]
  · unfold Exact at hd ⊢
    change d.bytes + ((w.length : ℤ) - (d.valueAt p).length) = _
    rw [hafter, hd, hbefore, valueAt_split hsplit]
    simp only [List.map_append, List.map_cons, List.sum_append, List.sum_cons, elemBytes]
    ring

end Index

section Insert

variable {d}

/-- The insertion goes next to the first element that equals the pivot. -/
theorem insertFrom_spec (hd : d.Exact) (pivot val : Bytes) (before : Bool) (pre post : List (ℕ × Bytes))
    (h : d.l.order false = pre ++ post) (left : ℕ) (hleft : post.length ≤ left) :
    (d.insertFrom pivot val before left (post.head?.map Prod.fst)).1.Exact ∧
    (∀ l, Commands.insertAt pivot val before (post.map Prod.snd) = some l →
      (d.insertFrom pivot val before left (post.head?.map Prod.fst)).1.contents = pre.map Prod.snd ++ l ∧
      (d.insertFrom pivot val before left (post.head?.map Prod.fst)).2 = (pre.map Prod.snd ++ l).length) ∧
    (Commands.insertAt pivot val before (post.map Prod.snd) = none →
      d.insertFrom pivot val before left (post.head?.map Prod.fst) = (d, -1)) := by
  induction post generalizing pre left with
  | nil =>
    have hstop : d.insertFrom pivot val before left none = (d, -1) := by cases left <;> rfl
    rw [List.head?_nil, Option.map_none, hstop]
    exact ⟨hd, fun l hl => (by cases hl), fun _ => rfl⟩
  | cons c post ih =>
    obtain ⟨p, v⟩ := c
    obtain ⟨left, rfl⟩ : ∃ k, left = k + 1 := ⟨left - 1, by rw [List.length_cons] at hleft; omega⟩
    rw [List.head?_cons, Option.map_some, insertFrom, valueAt_split h, List.map_cons, Commands.insertAt]
    by_cases hv : v = pivot
    · have hcontents := LinkedList.contents_insertNear h before val
      rw [if_neg (not_not.2 hv), if_pos hv]
      refine ⟨?_, ?_, fun hnone => by cases hnone⟩
      · have hbefore : d.contents = pre.map Prod.snd ++ v :: post.map Prod.snd := by
          rw [show d.contents = _ from LinkedList.contents_of_order h, List.map_append, List.map_cons]
        unfold Exact at hd ⊢
        change d.bytes + elemBytes val = ((d.l.insertNear before val p).contents.map elemBytes).sum
        rw [hcontents, hd, hbefore]
        cases before <;> simp <;> ring
      · intro l hl
        have hl' : (d.l.insertNear before val p).contents = pre.map Prod.snd ++ l := by
          rw [hcontents, ← Option.some.inj hl]
          cases before <;> simp
        exact ⟨hl', by rw [← hl', LinkedList.length_contents]; rfl⟩
    · have hnext : d.l.next p = post.head?.map Prod.fst := LinkedList.step_split h
      obtain ⟨hexact, hsome, hnone⟩ := ih (pre ++ [(p, v)]) (by rw [h, List.append_assoc]; rfl) left
        (by rw [List.length_cons] at hleft; omega)
      rw [if_pos hv, if_neg hv, hnext]
      refine ⟨hexact, fun l hl => ?_, fun hmap => hnone (Option.map_eq_none_iff.1 hmap)⟩
      obtain ⟨l', hl', rfl⟩ := Option.map_eq_some_iff.1 hl
      obtain ⟨hcontents, hlength⟩ := hsome l' hl'
      rw [hcontents, hlength]
      simp

end Insert

section Remove

variable {d}

/-- What a limit that is not reached leaves. -/
theorem removeHead_of_le (val : Bytes) {k : ℕ} {l : List Bytes} (h : l.length ≤ k) :
    removeHead val k l = l.filter (· ≠ val) := by
  induction l generalizing k with
  | nil => cases k <;> rfl
  | cons x l ih =>
    obtain ⟨k, rfl⟩ : ∃ j, k = j + 1 := ⟨k - 1, by rw [List.length_cons] at h; omega⟩
    rw [List.length_cons] at h
    rw [removeHead]
    by_cases hx : x = val
    · rw [if_pos hx, ih (by omega), List.filter_cons_of_neg (by simp [hx])]
    · rw [if_neg hx, ih (by omega), List.filter_cons_of_pos (by simp [hx])]

theorem removeHead_zero (val : Bytes) (l : List Bytes) : removeHead val 0 l = l := by cases l <;> rfl

/-- The elements that are left of those not yet visited: `limit` is where the count of removed ones stops
the loop, and the loop goes to the end where the count of removed ones never gets there. -/
def leftOver (count limit removed : ℤ) (val : Bytes) (l : List Bytes) : List Bytes :=
  if count = 0 ∨ limit ≤ removed then l.filter (· ≠ val) else removeHead val (limit - removed).toNat l

section LeftOver

variable {count limit removed : ℤ} {val x : Bytes} {l : List Bytes}

theorem leftOver_nil : leftOver count limit removed val [] = [] := by
  unfold leftOver
  split_ifs
  · rfl
  · cases (limit - removed).toNat <;> rfl

theorem leftOver_cons_ne (hx : x ≠ val) :
    leftOver count limit removed val (x :: l) = x :: leftOver count limit removed val l := by
  unfold leftOver
  split_ifs with hall
  · exact List.filter_cons_of_pos (by simp [hx])
  · obtain ⟨k, hk⟩ : ∃ k, (limit - removed).toNat = k + 1 := ⟨(limit - removed).toNat - 1, by omega⟩
    rw [hk, removeHead, if_neg hx]

theorem leftOver_last (hcount : count ≠ 0) (hlast : removed + 1 = limit) :
    leftOver count limit removed val (val :: l) = l := by
  unfold leftOver
  rw [if_neg (by omega), show (limit - removed).toNat = 0 + 1 by omega, removeHead, if_pos rfl, removeHead_zero]

theorem leftOver_cons_same (hmore : ¬ (count ≠ 0 ∧ removed + 1 = limit)) :
    leftOver count limit removed val (val :: l) = leftOver count limit (removed + 1) val l := by
  unfold leftOver
  by_cases hall : count = 0 ∨ limit ≤ removed
  · rw [if_pos hall, if_pos (by omega)]
    exact List.filter_cons_of_neg (by simp)
  · obtain ⟨k, hk⟩ : ∃ k, (limit - removed).toNat = k + 1 := ⟨(limit - removed).toNat - 1, by omega⟩
    rw [if_neg hall, if_neg (by omega), hk, removeHead, if_pos rfl, show (limit - (removed + 1)).toNat = k by omega]

end LeftOver

/-- The loop removes what its limit allows of the elements it has not visited. -/
theorem removeFrom_spec (fromTail : Bool) (count limit : ℤ) (val : Bytes) {d : Deque} (hd : d.Exact)
    (pre post : List (ℕ × Bytes)) (h : d.l.order fromTail = pre ++ post) (left : ℕ) (hleft : post.length ≤ left)
    (removed : ℤ) :
    (removeFrom fromTail count limit val left d (post.head?.map Prod.fst) removed).1.Exact ∧
    ((removeFrom fromTail count limit val left d (post.head?.map Prod.fst) removed).1.l.order fromTail).map Prod.snd =
      pre.map Prod.snd ++ leftOver count limit removed val (post.map Prod.snd) ∧
    (removeFrom fromTail count limit val left d (post.head?.map Prod.fst) removed).2 =
      removed + ((post.length : ℤ) - (leftOver count limit removed val (post.map Prod.snd)).length) := by
  induction post generalizing d pre left removed with
  | nil =>
    have hstop : removeFrom fromTail count limit val left d none removed = (d, removed) := by cases left <;> rfl
    rw [List.head?_nil, Option.map_none, hstop, h, List.map_nil, leftOver_nil]
    exact ⟨hd, by simp, by simp⟩
  | cons c post ih =>
    obtain ⟨p, v⟩ := c
    obtain ⟨left, rfl⟩ : ∃ k, left = k + 1 := ⟨left - 1, by rw [List.length_cons] at hleft; omega⟩
    have hleft' : post.length ≤ left := by
      rw [List.length_cons] at hleft
      omega
    have hremoved : (d.remove p).l.order fromTail = pre ++ post := LinkedList.order_remove h
    rw [List.head?_cons, Option.map_some, removeFrom]
    dsimp only
    rw [valueAt_split h, LinkedList.step_split h, List.map_cons, List.length_cons]
    by_cases hv : v = val
    · subst hv
      rw [if_pos rfl]
      by_cases hlast : count ≠ 0 ∧ removed + 1 = limit
      · rw [if_pos hlast, leftOver_last hlast.1 hlast.2, hremoved, List.map_append, List.length_map]
        exact ⟨exact_remove hd h, rfl, by push_cast; ring⟩
      · rw [if_neg hlast, leftOver_cons_same hlast]
        obtain ⟨hexact, horder, hcount⟩ := ih (exact_remove hd h) pre hremoved left hleft' (removed + 1)
        exact ⟨hexact, horder, by rw [hcount]; push_cast; ring⟩
    · rw [if_neg hv, leftOver_cons_ne hv, List.length_cons]
      obtain ⟨hexact, horder, hcount⟩ := ih hd (pre ++ [(p, v)]) (by rw [h, List.append_assoc]; rfl) left hleft' removed
      refine ⟨hexact, ?_, by rw [hcount]; push_cast; ring⟩
      rw [horder, List.map_append, List.append_assoc]
      rfl

theorem leftOver_forward (count : ℤ) (hcount : 0 ≤ count) (val : Bytes) (l : List Bytes) :
    leftOver count count 0 val l = Commands.removeVal count val l := by
  unfold leftOver Commands.removeVal
  by_cases hzero : count = 0
  · rw [if_pos (.inl hzero), if_pos hzero]
  · rw [if_neg (by omega), if_neg hzero, if_pos (by omega), Int.sub_zero]

/-- The negation of the least count overflows to itself, a limit that is never reached; but no list is
long enough to reach the one that was meant. -/
theorem leftOver_backward {count : ℤ} (hneg : count < 0) (hcount : minInt64 ≤ count) (val : Bytes) {l : List Bytes}
    (hlen : (l.length : ℤ) ≤ maxInt64) :
    leftOver count (wrap (-count)) 0 val l = removeHead val (-count).toNat l := by
  unfold maxInt64 at hlen
  unfold minInt64 at hcount
  unfold leftOver
  by_cases hleast : count = -2 ^ 63
  · have hwrap : wrap (-count) = -2 ^ 63 := by
      rw [hleast]
      decide
    rw [hwrap, if_pos (by omega), removeHead_of_le val (by omega)]
  · rw [wrap_of_range (by omega) (by omega), if_neg (by omega), Int.sub_zero]

/-- An `int` holds the length of a list. -/
theorem removeVal_spec (hd : d.Exact) (hlen : (d.contents.length : ℤ) ≤ maxInt64) {count : ℤ}
    (hcount : minInt64 ≤ count) (val : Bytes) :
    (d.removeVal count val).1.Exact ∧ (d.removeVal count val).1.contents = Commands.removeVal count val d.contents ∧
      (d.removeVal count val).2 =
        (d.contents.length : ℤ) - (Commands.removeVal count val d.contents).length := by
  unfold removeVal
  dsimp only
  rw [first_eq]
  by_cases hneg : count < 0
  · have hspec : Commands.removeVal count val d.contents =
        (leftOver count (wrap (-count)) 0 val d.contents.reverse).reverse := by
      rw [leftOver_backward hneg hcount val (by rwa [List.length_reverse]), Commands.removeVal, if_neg hneg.ne,
        if_neg (by omega)]
    obtain ⟨hexact, horder, hremoved⟩ := removeFrom_spec true count (wrap (-count)) val hd [] (d.l.order true) rfl
      d.len (d.l.length_order true).le 0
    rw [map_order, if_pos rfl, List.map_nil, List.nil_append, map_order, if_pos rfl] at horder
    rw [map_order, if_pos rfl, LinkedList.length_order] at hremoved
    rw [decide_eq_true hneg, if_pos hneg, hspec]
    refine ⟨hexact, (List.reverse_eq_iff.1 horder), ?_⟩
    rw [hremoved, List.length_reverse, Int.zero_add, length_contents]
    rfl
  · obtain ⟨hexact, horder, hremoved⟩ := removeFrom_spec false count count val hd [] (d.l.order false) rfl
      d.len (d.l.length_order false).le 0
    rw [map_order, List.map_nil, List.nil_append, map_order] at horder
    rw [map_order, LinkedList.length_order] at hremoved
    rw [decide_eq_false hneg, if_neg hneg, ← leftOver_forward count (by omega) val]
    refine ⟨hexact, horder, ?_⟩
    rw [hremoved, Int.zero_add, length_contents]
    rfl

end Remove

section Ranges

variable {d}

/-- The position an index names, not yet checked against the bounds. -/
def resolved (n : ℕ) (i : ℤ) : ℤ := if i < 0 then i + n else i

/-- The elements whose positions lie between two indexes. -/
def between (l : List Bytes) (start stop : ℤ) : List Bytes :=
  (l.zipIdx.filter fun x => resolved l.length start ≤ x.2 ∧ (x.2 : ℤ) ≤ resolved l.length stop).map Prod.fst

theorem rangeFrom_spec (start stop : ℤ) (pre post : List (ℕ × Bytes)) (h : d.l.order false = pre ++ post) (left : ℕ)
    (hleft : post.length ≤ left) (out : List Bytes) :
    d.rangeFrom start stop left (post.head?.map Prod.fst) pre.length out =
      out ++ (((post.map Prod.snd).zipIdx pre.length).filter fun x => start ≤ x.2 ∧ (x.2 : ℤ) ≤ stop).map Prod.fst := by
  induction post generalizing pre left out with
  | nil =>
    have hstop : d.rangeFrom start stop left none pre.length out = out := by cases left <;> rfl
    rw [List.head?_nil, Option.map_none, hstop]
    simp
  | cons c post ih =>
    obtain ⟨p, v⟩ := c
    obtain ⟨left, rfl⟩ : ∃ k, left = k + 1 := ⟨left - 1, by rw [List.length_cons] at hleft; omega⟩
    have hnext : d.l.next p = post.head?.map Prod.fst := LinkedList.step_split h
    have hrest := ih (pre ++ [(p, v)]) (by rw [h, List.append_assoc]; rfl) left
      (by rw [List.length_cons] at hleft; omega)
    rw [List.length_append, List.length_singleton, Nat.cast_add, Nat.cast_one] at hrest
    rw [List.head?_cons, Option.map_some, rangeFrom, hnext, valueAt_split h]
    by_cases hbeyond : (pre.length : ℤ) > stop
    · have hnone : ((((p, v) :: post).map Prod.snd).zipIdx pre.length).filter
          (fun x => start ≤ x.2 ∧ (x.2 : ℤ) ≤ stop) = [] := by
        refine List.filter_eq_nil_iff.2 fun x hx => ?_
        have := List.le_snd_of_mem_zipIdx hx
        simp only [decide_eq_true_eq]
        omega
      rw [if_pos hbeyond, hnone, List.map_nil, List.append_nil]
    · rw [if_neg hbeyond, hrest, List.map_cons, List.zipIdx_cons]
      by_cases hin : (pre.length : ℤ) ≥ start
      · rw [if_pos hin, List.filter_cons_of_pos (by simp only [decide_eq_true_eq]; omega), List.map_cons,
          List.append_assoc]
        rfl
      · rw [if_neg hin, List.filter_cons_of_neg (by simp only [decide_eq_true_eq]; omega)]

/-- Between the bounds after clamping lies what lies between the bounds. -/
theorem between_of_bounds {l : List Bytes} {start stop : ℤ} (first last : ℤ)
    (h : ∀ p : ℕ, p < l.length → (first ≤ p ∧ (p : ℤ) ≤ last ↔
      resolved l.length start ≤ p ∧ (p : ℤ) ≤ resolved l.length stop)) :
    between l start stop = (l.zipIdx.filter fun x => first ≤ x.2 ∧ (x.2 : ℤ) ≤ last).map Prod.fst := by
  refine congrArg _ (List.filter_congr fun x hx => decide_eq_decide.2 (h x.2 ?_).symm)
  have := List.snd_lt_add_of_mem_zipIdx hx
  omega

theorem rangeIdx_spec (d : Deque) (start stop : ℤ) : d.rangeIdx start stop = between d.contents start stop := by
  unfold rangeIdx
  dsimp only
  have hlen := d.length_contents
  generalize hfirst : (if (if start < 0 then start + (d.len : ℤ) else start) < 0 then 0
    else if start < 0 then start + (d.len : ℤ) else start) = first
  generalize hlast : (if (if stop < 0 then stop + (d.len : ℤ) else stop) ≥ (d.len : ℤ) then (d.len : ℤ) - 1
    else if stop < 0 then stop + (d.len : ℤ) else stop) = last
  rw [between_of_bounds first last (fun p hp => by
    rw [hlen] at hp ⊢
    unfold resolved
    split_ifs at hfirst hlast ⊢ <;> omega)]
  by_cases hnone : first > last ∨ (d.len : ℤ) = 0
  · rw [if_pos hnone, eq_comm, List.map_eq_nil_iff, List.filter_eq_nil_iff]
    intro x hx
    have := List.snd_lt_add_of_mem_zipIdx hx
    simp only [decide_eq_true_eq]
    omega
  · rw [if_neg hnone]
    exact rangeFrom_spec first last [] (d.l.order false) rfl d.len (d.l.length_order false).le []

theorem filter_zipIdx (l : List Bytes) (k a b : ℕ) :
    ((l.zipIdx k).filter fun x => (a : ℤ) ≤ x.2 ∧ (x.2 : ℤ) ≤ b).map Prod.fst = (l.take (b + 1 - k)).drop (a - k) := by
  induction l generalizing k with
  | nil => simp
  | cons x l ih =>
    rw [List.zipIdx_cons]
    by_cases hb : k ≤ b
    · rw [show b + 1 - k = b + 1 - (k + 1) + 1 by omega, List.take_succ_cons]
      by_cases ha : a ≤ k
      · rw [List.filter_cons_of_pos (by simp only [decide_eq_true_eq]; omega), List.map_cons, ih,
          show a - k = 0 by omega, show a - (k + 1) = 0 by omega, List.drop_zero, List.drop_zero]
      · rw [List.filter_cons_of_neg (by simp only [decide_eq_true_eq]; omega), ih,
          show a - k = a - (k + 1) + 1 by omega, List.drop_succ_cons]
    · rw [List.filter_cons_of_neg (by simp only [decide_eq_true_eq]; omega), ih, show b + 1 - k = 0 by omega,
        show b + 1 - (k + 1) = 0 by omega, List.take_zero, List.take_zero, List.drop_nil, List.drop_nil]

theorem trimList_eq_between (start stop : ℤ) (l : List Bytes) : trimList start stop l = between l start stop := by
  unfold trimList normalizeRange
  dsimp only
  generalize hfirst : max (if start < 0 then start + (l.length : ℤ) else start) 0 = first
  generalize hlast : (if (l.length : ℤ) ≤ (if stop < 0 then stop + (l.length : ℤ) else stop) then (l.length : ℤ) - 1
    else if stop < 0 then stop + (l.length : ℤ) else stop) = last
  have hbounds : between l start stop = (l.zipIdx.filter fun x => first ≤ x.2 ∧ (x.2 : ℤ) ≤ last).map Prod.fst :=
    between_of_bounds first last fun p hp => by
      unfold resolved
      split_ifs at hfirst hlast ⊢ <;> omega
  by_cases hnone : last < first ∨ l.length = 0
  · rw [if_pos hnone, hbounds, eq_comm, List.map_eq_nil_iff, List.filter_eq_nil_iff]
    intro x hx
    have := List.snd_lt_add_of_mem_zipIdx hx
    simp only [decide_eq_true_eq]
    omega
  · have hpos : 0 ≤ first := hfirst ▸ le_max_right _ _
    have hints : ((first.toNat : ℕ) : ℤ) = first ∧ ((last.toNat : ℕ) : ℤ) = last := by omega
    rw [if_neg hnone, hbounds, ← hints.1, ← hints.2, filter_zipIdx l 0 first.toNat last.toNat, List.drop_take]
    simp only [Int.toNat_natCast, Nat.sub_zero]
    rw [show last.toNat + 1 - first.toNat = last.toNat - first.toNat + 1 by omega]

/-- A loop of `trim` drops the elements it visits. -/
theorem trimFrom_spec (fromTail : Bool) {d : Deque} (hd : d.Exact) (k : ℕ) :
    (trimFrom fromTail k d ((d.l.order fromTail).head?.map Prod.fst)).Exact ∧
      (trimFrom fromTail k d ((d.l.order fromTail).head?.map Prod.fst)).l.order fromTail =
        (d.l.order fromTail).drop k := by
  induction k generalizing d with
  | zero => exact ⟨hd, rfl⟩
  | succ k ih =>
    cases horder : d.l.order fromTail with
    | nil => exact ⟨hd, horder⟩
    | cons c cs =>
      obtain ⟨p, v⟩ := c
      have hsplit : d.l.order fromTail = [] ++ (p, v) :: cs := horder
      have hafter : (d.remove p).l.order fromTail = cs := LinkedList.order_remove hsplit
      rw [List.head?_cons, Option.map_some, trimFrom, LinkedList.step_split hsplit, List.drop_succ_cons, ← hafter]
      exact ih (exact_remove hd hsplit)

theorem normalizeRange_bounds {n first last : ℕ} {start stop : ℤ}
    (h : normalizeRange n start stop = some (first, last)) : first ≤ last ∧ last < n := by
  unfold normalizeRange at h
  dsimp only at h
  generalize (if stop < 0 then stop + (n : ℤ) else stop) = stop' at h
  have hpos := le_max_right (if start < 0 then start + (n : ℤ) else start) 0
  generalize max (if start < 0 then start + (n : ℤ) else start) 0 = start' at h hpos
  generalize hlast : (if (n : ℤ) ≤ stop' then (n : ℤ) - 1 else stop') = last' at h
  by_cases hnone : last' < start' ∨ n = 0
  · rw [if_pos hnone] at h
    cases h
  · rw [if_neg hnone] at h
    obtain ⟨rfl, rfl⟩ := Prod.mk.inj (Option.some.inj h)
    split_ifs at hlast <;> omega

theorem trim_spec (hd : d.Exact) (start stop : ℤ) :
    (d.trim start stop).Exact ∧ (d.trim start stop).contents = between d.contents start stop := by
  rw [← trimList_eq_between]
  unfold trim trimList
  rw [length_contents]
  cases hrange : normalizeRange d.len start stop with
  | none => exact ⟨rfl, rfl⟩
  | some r =>
    obtain ⟨first, last⟩ := r
    obtain ⟨hle, hlt⟩ := normalizeRange_bounds hrange
    obtain ⟨hexact, horder⟩ := trimFrom_spec false hd first
    have hcontents : (trimFrom false first d d.l.front).contents = d.contents.drop first := by
      have hmap := congrArg (List.map Prod.snd) horder
      rw [List.map_drop, map_order, map_order] at hmap
      exact hmap
    dsimp only
    generalize htrim : trimFrom false first d d.l.front = d' at hcontents
    have hexact' : d'.Exact := htrim ▸ hexact
    obtain ⟨hexact'', horder''⟩ := trimFrom_spec true hexact' (d'.len - 1 - (last - first))
    refine ⟨hexact'', ?_⟩
    have hmap := congrArg (List.map Prod.snd) horder''
    rw [List.map_drop, map_order, map_order, if_pos rfl, if_pos rfl, List.drop_reverse, List.reverse_inj] at hmap
    have hkeep : d'.contents.length - (d'.len - 1 - (last - first)) = last - first + 1 := by
      rw [← d'.length_contents, hcontents, List.length_drop, length_contents]
      omega
    rw [hkeep, hcontents] at hmap
    exact hmap

end Ranges

section Positions

variable {d}

/-- The elements with their positions, as a walk from one end meets them. -/
def numbered (fromTail : Bool) : ℤ → List Bytes → List (ℤ × Bytes)
  | _, [] => []
  | i, v :: vs => (i, v) :: numbered fromTail (if fromTail then i - 1 else i + 1) vs

def limitOf (z : ℤ) : Option ℕ := if z > 0 then some z.toNat else none

def atMost {α : Type} (limit : Option ℕ) (l : List α) : List α := limit.elim l l.take

/-- What a search reports of the elements it meets: the positions of those among the first `maxlen` that
match, without the first `skip` of them, and at most `count`. -/
def found (val : Bytes) (skip : ℕ) (count maxlen : Option ℕ) (walk : List (ℤ × Bytes)) : List ℤ :=
  atMost count ((((atMost maxlen walk).filter fun x => x.2 = val).map Prod.fst).drop skip)

/-- The positions of a value, searched from the end that the sign of the rank names. -/
def positionsOf (val : Bytes) (rank count maxlen : ℤ) (l : List Bytes) : List ℤ :=
  let places := l.zipIdx.map fun x => ((x.2 : ℤ), x.1)
  found val (rank.natAbs - 1) (limitOf count) (limitOf maxlen) (if rank < 0 then places.reverse else places)

section Found

variable {val v : Bytes} {skip : ℕ} {count maxlen : Option ℕ} {i : ℤ} {walk : List (ℤ × Bytes)}

theorem found_nil : found val skip count maxlen [] = [] := by
  cases maxlen <;> cases count <;> simp [found, atMost]

theorem found_exhausted : found val skip count (some 0) walk = [] := by cases count <;> simp [found, atMost]

theorem atMost_cons {α : Type} {limit : Option ℕ} (h : limit ≠ some 0) (x : α) (l : List α) :
    atMost limit (x :: l) = x :: atMost (limit.map (· - 1)) l := by
  cases limit with
  | none => rfl
  | some k =>
    cases k with
    | zero => exact absurd rfl h
    | succ k => rfl

theorem found_cons_ne (hmax : maxlen ≠ some 0) (hv : v ≠ val) :
    found val skip count maxlen ((i, v) :: walk) = found val skip count (maxlen.map (· - 1)) walk := by
  rw [found, atMost_cons hmax, List.filter_cons_of_neg (by simpa using hv), found]

theorem found_cons_skip (hmax : maxlen ≠ some 0) :
    found val (skip + 1) count maxlen ((i, val) :: walk) = found val skip count (maxlen.map (· - 1)) walk := by
  rw [found, atMost_cons hmax, List.filter_cons_of_pos (by simp), List.map_cons, List.drop_succ_cons, found]

theorem found_cons_hit (hmax : maxlen ≠ some 0) (hcount : count ≠ some 0) :
    found val 0 count maxlen ((i, val) :: walk) =
      i :: found val 0 (count.map (· - 1)) (maxlen.map (· - 1)) walk := by
  rw [found, atMost_cons hmax, List.filter_cons_of_pos (by simp), List.map_cons, List.drop_zero, atMost_cons hcount,
    found, List.drop_zero]

theorem found_full : found val skip (some 0) maxlen walk = [] := by simp [found, atMost]

end Found

/-- What is left of a limit once `used` of it are used. -/
def remaining (limit used : ℤ) : Option ℕ := if limit > 0 then some (limit - used).toNat else none

theorem remaining_step {limit used : ℤ} (h : limit > 0 → used < limit) :
    remaining limit used ≠ some 0 ∧ (remaining limit used).map (· - 1) = remaining limit (used + 1) := by
  unfold remaining
  by_cases hlimit : limit > 0
  · have := h hlimit
    rw [if_pos hlimit, if_pos hlimit]
    refine ⟨fun hzero => ?_, congrArg some ?_⟩
    · have := Option.some.inj hzero
      omega
    · change (limit - used).toNat - 1 = _
      omega
  · rw [if_neg hlimit, if_neg hlimit]
    exact ⟨by simp, rfl⟩

theorem positionsFrom_spec (val : Bytes) (fromTail : Bool) (skip count maxlen : ℤ) (pre post : List (ℕ × Bytes))
    (h : d.l.order fromTail = pre ++ post) (left : ℕ) (hleft : post.length ≤ left) (i compared matched : ℤ)
    (out : List ℤ) (hout : count > 0 → (out.length : ℤ) < count) :
    d.positionsFrom val fromTail skip count maxlen left (post.head?.map Prod.fst) i compared matched out =
      out ++ found val (skip - matched).toNat (remaining count out.length) (remaining maxlen compared)
        (numbered fromTail i (post.map Prod.snd)) := by
  induction post generalizing pre left i compared matched out with
  | nil =>
    have hstop : d.positionsFrom val fromTail skip count maxlen left none i compared matched out = out := by
      cases left <;> rfl
    rw [List.head?_nil, Option.map_none, hstop, List.map_nil, numbered, found_nil, List.append_nil]
  | cons c post ih =>
    obtain ⟨p, v⟩ := c
    obtain ⟨left, rfl⟩ : ∃ k, left = k + 1 := ⟨left - 1, by rw [List.length_cons] at hleft; omega⟩
    have hrest := ih (pre ++ [(p, v)]) (by rw [h, List.append_assoc]; rfl) left
      (by rw [List.length_cons] at hleft; omega) (if fromTail then i - 1 else i + 1) (compared + 1)
    rw [List.head?_cons, Option.map_some, positionsFrom]
    dsimp only
    rw [LinkedList.step_split h, valueAt_split h, List.map_cons, numbered]
    by_cases hmax : maxlen > 0 ∧ compared ≥ maxlen
    · have hzero : remaining maxlen compared = some 0 := by
        rw [remaining, if_pos hmax.1]
        exact congrArg some (by omega)
      rw [if_pos hmax, hzero, found_exhausted, List.append_nil]
    have hwithin : maxlen > 0 → compared < maxlen := by omega
    obtain ⟨hmore, hstep⟩ := remaining_step hwithin
    rw [if_neg hmax]
    by_cases hv : v = val
    · subst hv
      rw [if_pos rfl]
      by_cases hskip : matched ≥ skip
      · obtain ⟨hroom, hused⟩ := remaining_step hout
        rw [if_pos hskip, show (skip - matched).toNat = 0 by omega, found_cons_hit hmore hroom, hstep, hused]
        by_cases hfull : count > 0 ∧ ((out ++ [i]).length : ℤ) = count
        · have hlast : remaining count ((out.length : ℤ) + 1) = some 0 := by
            rw [List.length_append, List.length_singleton] at hfull
            rw [remaining, if_pos hfull.1]
            exact congrArg some (by push_cast at hfull; omega)
          rw [if_pos hfull, hlast, found_full]
        · have hlen : ((out ++ [i]).length : ℤ) = out.length + 1 := by simp
          rw [if_neg hfull, hrest (matched + 1) (out ++ [i]) (by omega), hlen, List.append_assoc,
            show (skip - (matched + 1)).toNat = 0 by omega]
          rfl
      · obtain ⟨k, hk⟩ : ∃ k, (skip - matched).toNat = k + 1 := ⟨(skip - matched).toNat - 1, by omega⟩
        rw [if_neg hskip, hrest (matched + 1) out hout, hk, found_cons_skip hmore, hstep,
          show (skip - (matched + 1)).toNat = k by omega]
    · rw [if_neg hv, hrest matched out hout, found_cons_ne hmore hv, hstep]

theorem numbered_forward (k : ℕ) (l : List Bytes) :
    numbered false k l = (l.zipIdx k).map fun x => ((x.2 : ℤ), x.1) := by
  induction l generalizing k with
  | nil => rfl
  | cons v l ih =>
    rw [numbered, List.zipIdx_cons, List.map_cons, ← ih]
    rfl

theorem numbered_backward (l : List Bytes) :
    numbered true ((l.length : ℤ) - 1) l.reverse = (l.zipIdx.map fun x => ((x.2 : ℤ), x.1)).reverse := by
  induction l using List.reverseRecOn with
  | nil => rfl
  | append_singleton l v ih =>
    rw [List.reverse_append, List.reverse_singleton, List.singleton_append, numbered, List.zipIdx_append,
      List.map_append, List.reverse_append, ← ih]
    simp

/-- The skip count is right for every rank, the least one included: its two overflows undo each other. -/
theorem skip_eq {rank : ℤ} (h : minInt64 ≤ rank) (h' : rank ≤ maxInt64) :
    (if rank < 0 then wrap (wrap (-rank) - 1) else wrap (rank - 1)) = rank.natAbs - 1 := by
  unfold minInt64 at h
  unfold maxInt64 at h'
  unfold wrap
  split_ifs <;> omega

theorem positions_spec (d : Deque) (val : Bytes) {rank : ℤ} (h : minInt64 ≤ rank) (h' : rank ≤ maxInt64)
    (count maxlen : ℤ) :
    d.positions val rank count maxlen = positionsOf val rank count maxlen d.contents := by
  have hlimit (z : ℤ) : remaining z 0 = limitOf z := by rw [remaining, limitOf, Int.sub_zero]
  unfold positions positionsOf
  dsimp only
  rw [skip_eq h h', first_eq]
  have hwalk := positionsFrom_spec (d := d) val (decide (rank < 0)) (rank.natAbs - 1) count maxlen []
    (d.l.order (decide (rank < 0))) rfl d.len (d.l.length_order _).le
    (if decide (rank < 0) then (d.len : ℤ) - 1 else 0) 0 0 [] (fun hpos => hpos)
  rw [hwalk, List.nil_append, List.length_nil, Nat.cast_zero, hlimit, hlimit, map_order]
  have hskip : ((rank.natAbs : ℤ) - 1 - 0).toNat = rank.natAbs - 1 := by omega
  rw [hskip]
  by_cases hneg : rank < 0
  · rw [decide_eq_true hneg, if_pos rfl, if_pos rfl, if_pos hneg, ← d.length_contents, numbered_backward]
  · rw [decide_eq_false hneg, if_neg Bool.false_ne_true, if_neg Bool.false_ne_true, if_neg hneg]
    exact congrArg _ (numbered_forward 0 d.contents)

end Positions

end Deque

inductive ListOp
  | push (left : Bool) (v : Bytes)
  | pop (left : Bool)
  | popCount (n : ℤ) (left : Bool)
  | index (i : ℤ)
  | set (i : ℤ) (v : Bytes)
  | insert (before : Bool) (pivot val : Bytes)
  | remove (count : ℤ) (val : Bytes)
  | trim (start stop : ℤ)
  | range (start stop : ℤ)
  | positions (val : Bytes) (rank count maxlen : ℤ)

inductive ListAnswer
  | nothing
  | value (v : Option Bytes)
  | values (vs : List Bytes)
  | number (n : ℤ)
  | done (ok : Bool)
  | places (ps : List ℤ)

/-- The operation on the stored list. -/
def Deque.exec (d : Deque) : ListOp → Deque × ListAnswer
  | .push left v => (d.push left v, .number (d.push left v).len)
  | .pop left =>
    match d.pop left with
    | none => (d, .value none)
    | some (v, d) => (d, .value (some v))
  | .popCount n left => ((popFrom left n.toNat d []).2, .values (popFrom left n.toNat d []).1)
  | .index i => (d, .value ((d.elementAt i).map d.valueAt))
  | .set i v =>
    match d.elementAt i with
    | none => (d, .done false)
    | some el => (d.setValue el v, .done true)
  | .insert before pivot val => ((d.insertAt pivot val before).1, .number (d.insertAt pivot val before).2)
  | .remove count val => ((d.removeVal count val).1, .number (d.removeVal count val).2)
  | .trim start stop => (d.trim start stop, .nothing)
  | .range start stop => (d, .values (d.rangeIdx start stop))
  | .positions val rank count maxlen => (d, .places (d.positions val rank count maxlen))

/-- The operation on a sequence. -/
def ListOp.onSequence (l : List Bytes) : ListOp → List Bytes × ListAnswer
  | .push left v => (pushTo left l v, .number (pushTo left l v).length)
  | .pop left =>
    match popFrom left l with
    | none => (l, .value none)
    | some (v, l) => (l, .value (some v))
  | .popCount n left => ((popMany left n.toNat l).2, .values (popMany left n.toNat l).1)
  | .index i => (l, .value ((position l i).bind fun k => l[k]?))
  | .set i v =>
    match position l i with
    | none => (l, .done false)
    | some k => (l.set k v, .done true)
  | .insert before pivot val =>
    match insertAt pivot val before l with
    | none => (l, .number (-1))
    | some l => (l, .number l.length)
  | .remove count val => (removeVal count val l, .number ((l.length : ℤ) - (removeVal count val l).length))
  | .trim start stop => (Deque.between l start stop, .nothing)
  | .range start stop => (l, .values (Deque.between l start stop))
  | .positions val rank count maxlen => (l, .places (Deque.positionsOf val rank count maxlen l))

/-- The operands whose arithmetic can overflow are `int`s. -/
def ListOp.Operands : ListOp → Prop
  | .remove count _ => minInt64 ≤ count ∧ count ≤ maxInt64
  | .positions _ rank _ _ => minInt64 ≤ rank ∧ rank ≤ maxInt64
  | _ => True

/-- Every operation on the stored list is the operation on its sequence, and keeps the byte count. -/
theorem exec_spec {d : Deque} (hd : d.Exact) (hlen : (d.contents.length : ℤ) ≤ maxInt64) {op : ListOp}
    (hop : op.Operands) : (d.exec op).1.Exact ∧ ((d.exec op).1.contents, (d.exec op).2) = op.onSequence d.contents := by
  cases op with
  | push left v =>
    obtain ⟨hexact, hcontents⟩ := Deque.push_spec hd left v
    exact ⟨hexact, by rw [ListOp.onSequence, ← hcontents, Deque.length_contents]; rfl⟩
  | pop left =>
    obtain ⟨hpop, hexact⟩ := Deque.pop_spec hd left
    rw [Deque.exec, ListOp.onSequence, ← hpop]
    cases hcase : d.pop left with
    | none => exact ⟨hd, rfl⟩
    | some r => exact ⟨hexact r.1 r.2 hcase, rfl⟩
  | popCount n left =>
    obtain ⟨hvals, hcontents, hexact⟩ := Deque.popFrom_spec hd left n.toNat []
    exact ⟨hexact, Prod.ext hcontents (congrArg ListAnswer.values hvals)⟩
  | index i => exact ⟨hd, Prod.ext rfl (congrArg ListAnswer.value (d.elementAt_spec i))⟩
  | set i v =>
    rw [Deque.exec, ListOp.onSequence]
    cases hcase : position d.contents i with
    | none =>
      rw [Deque.elementAt_none hcase]
      exact ⟨hd, rfl⟩
    | some k =>
      obtain ⟨p, helement, hcontents, hexact⟩ := Deque.setValue_spec hd hcase v
      rw [helement]
      exact ⟨hexact, Prod.ext hcontents rfl⟩
  | insert before pivot val =>
    obtain ⟨hexact, hsome, hnone⟩ := Deque.insertFrom_spec hd pivot val before [] (d.l.order false) rfl d.len
      (d.l.length_order false).le
    rw [Deque.map_order] at hsome hnone
    refine ⟨hexact, ?_⟩
    rw [ListOp.onSequence]
    cases hcase : insertAt pivot val before d.contents with
    | none => exact congrArg (fun r : Deque × ℤ => (r.1.contents, ListAnswer.number r.2)) (hnone hcase)
    | some l =>
      obtain ⟨hcontents, hnumber⟩ := hsome l hcase
      exact Prod.ext hcontents (congrArg ListAnswer.number hnumber)
  | remove count val =>
    obtain ⟨hexact, hcontents, hnumber⟩ := Deque.removeVal_spec hd hlen hop.1 val
    exact ⟨hexact, Prod.ext hcontents (congrArg ListAnswer.number hnumber)⟩
  | trim start stop =>
    obtain ⟨hexact, hcontents⟩ := Deque.trim_spec hd start stop
    exact ⟨hexact, Prod.ext hcontents rfl⟩
  | range start stop => exact ⟨hd, Prod.ext rfl (congrArg ListAnswer.values (d.rangeIdx_spec start stop))⟩
  | positions val rank count maxlen =>
    exact ⟨hd, Prod.ext rfl (congrArg ListAnswer.places (d.positions_spec val hop.1 hop.2 count maxlen))⟩

/-- Operations one after the other on the stored list, and on a sequence. -/
def Deque.run (d : Deque) (ops : List ListOp) : Deque := ops.foldl (fun d op => (d.exec op).1) d

def runSequence (l : List Bytes) (ops : List ListOp) : List Bytes := ops.foldl (fun l op => (op.onSequence l).1) l

theorem run_spec {d : Deque} (hd : d.Exact) {ops : List ListOp} (hops : ∀ op ∈ ops, op.Operands)
    (hlen : ∀ k, ((runSequence d.contents (ops.take k)).length : ℤ) ≤ maxInt64) :
    (d.run ops).Exact ∧ (d.run ops).contents = runSequence d.contents ops := by
  induction ops generalizing d with
  | nil => exact ⟨hd, rfl⟩
  | cons op ops ih =>
    obtain ⟨hexact, hstep⟩ := exec_spec hd (hlen 0) (hops op List.mem_cons_self)
    have hcontents : (d.exec op).1.contents = (op.onSequence d.contents).1 := congrArg Prod.fst hstep
    have hrest := ih hexact (fun op' h' => hops op' (List.mem_cons_of_mem _ h')) fun k => by
      rw [hcontents]
      exact hlen (k + 1)
    rw [hcontents] at hrest
    exact hrest

theorem exact_newDeque : newDeque.Exact := rfl

end ShardKV.Commands
