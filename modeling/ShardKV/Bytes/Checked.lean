import Mathlib

/-! Slices and machine integers as a Go program uses them. Arithmetic wraps in 64
bits. An index or a slice expression outside its slice, and a capacity that cannot
be allocated, end the computation with a fault; the capacities asked for are
recorded. A computation is safe when it ends without a fault and every capacity is
bounded, and safety is shown by rules that follow its structure. -/

namespace ShardKV.Checked

/-- Two's complement in 64 bits. -/
def wrap (z : ℤ) : ℤ := (z + 2 ^ 63) % 2 ^ 64 - 2 ^ 63

theorem wrap_of_range {z : ℤ} (h : -2 ^ 63 ≤ z) (h' : z < 2 ^ 63) : wrap z = z := by
  unfold wrap
  omega

theorem wrap_of_overflow {z : ℤ} (h : 2 ^ 63 ≤ z) (h' : z < 2 ^ 64) : wrap z = z - 2 ^ 64 := by
  unfold wrap
  omega

theorem wrap_range (z : ℤ) : -2 ^ 63 ≤ wrap z ∧ wrap z < 2 ^ 63 := by
  unfold wrap
  omega

theorem wrap_wrap_add (x y : ℤ) : wrap (wrap x + y) = wrap (x + y) := by
  unfold wrap
  omega

/-- The bytes that the runtime allocates at most in one request. -/
def maxAlloc : ℤ := 2 ^ 48

inductive Fault
  | index
  | slice
  | capacity
  | shift
  | steps
  deriving DecidableEq

/-- The capacities a computation has asked for, and its result or the fault that
ended it. -/
structure Comp (α : Type) where
  requests : List ℤ
  result : Except Fault α

variable {α β : Type}

def halt (f : Fault) : Comp α := ⟨[], .error f⟩

def Comp.bind (c : Comp α) (f : α → Comp β) : Comp β :=
  match c.result with
  | .ok a => ⟨c.requests ++ (f a).requests, (f a).result⟩
  | .error e => ⟨c.requests, .error e⟩

instance : Monad Comp where
  pure a := ⟨[], .ok a⟩
  bind := Comp.bind

/-- `xs[i]`. -/
def index (xs : List α) (i : ℤ) : Comp α :=
  if 0 ≤ i then
    match xs[i.toNat]? with
    | some x => pure x
    | none => halt .index
  else halt .index

/-- `xs[lo:hi]`, which must not reach past the slice. -/
def slice (xs : List α) (lo hi : ℤ) : Comp (List α) :=
  if 0 ≤ lo ∧ lo ≤ hi ∧ hi ≤ xs.length then pure ((xs.take hi.toNat).drop lo.toNat)
  else halt .slice

/-- `make` with a capacity of `n` elements of the given size. -/
def makeCap (size n : ℤ) : Comp Unit :=
  ⟨[n], if 0 ≤ n ∧ n * size ≤ maxAlloc then .ok () else .error .capacity⟩

variable {len : ℕ} {Q : α → Prop} {R : β → Prop}

/-- No fault, every capacity at most `len`, and a result with the property. -/
def Safe (len : ℕ) (Q : α → Prop) (c : Comp α) : Prop :=
  (∀ n ∈ c.requests, 0 ≤ n ∧ n ≤ len) ∧ ∃ a, c.result = .ok a ∧ Q a

theorem safe_pure {a : α} (h : Q a) : Safe len Q (pure a) :=
  ⟨fun _ hn => absurd hn (List.not_mem_nil), a, rfl, h⟩

theorem safe_bind {c : Comp α} {f : α → Comp β} (hc : Safe len Q c)
    (hf : ∀ a, Q a → Safe len R (f a)) : Safe len R (c >>= f) := by
  obtain ⟨hreq, a, ha, hQ⟩ := hc
  obtain ⟨hreq', b, hb, hR⟩ := hf a hQ
  have hbind : c >>= f = ⟨c.requests ++ (f a).requests, (f a).result⟩ := by
    show Comp.bind c f = _
    unfold Comp.bind
    rw [ha]
  rw [hbind]
  refine ⟨fun n hn => ?_, b, hb, hR⟩
  rcases List.mem_append.mp hn with hn | hn
  · exact hreq n hn
  · exact hreq' n hn

theorem Safe.mono {Q' : α → Prop} {c : Comp α} (hc : Safe len Q c) (h : ∀ a, Q a → Q' a) :
    Safe len Q' c := by
  obtain ⟨hreq, a, ha, hQ⟩ := hc
  exact ⟨hreq, a, ha, h a hQ⟩

/-- A safe computation is safe up to any point. -/
theorem Safe.of_bind {c : Comp α} {f : α → Comp β} (h : Safe len R (c >>= f)) :
    ∃ a, Safe len (· = a) c ∧ Safe len R (f a) := by
  change Safe len R (Comp.bind c f) at h
  unfold Comp.bind at h
  cases hc : c.result with
  | error e =>
    rw [hc] at h
    obtain ⟨-, b, hb, -⟩ := h
    exact absurd hb (by simp)
  | ok a =>
    rw [hc] at h
    obtain ⟨hreq, b, hb, hR⟩ := h
    exact ⟨a, ⟨fun n hn => hreq n (List.mem_append_left _ hn), a, hc, rfl⟩,
      fun n hn => hreq n (List.mem_append_right _ hn), b, hb, hR⟩

theorem safe_index {xs : List α} {i : ℤ} (h : 0 ≤ i) (h' : i < xs.length) :
    Safe len (fun a => xs[i.toNat]? = some a) (index xs i) := by
  have hlt : i.toNat < xs.length := by omega
  have hget : xs[i.toNat]? = some xs[i.toNat] := List.getElem?_eq_getElem hlt
  have hindex : index xs i = pure xs[i.toNat] := by
    unfold index
    rw [if_pos h, hget]
  rw [hindex]
  exact safe_pure hget

theorem safe_slice {xs : List α} {lo hi : ℤ} (h : 0 ≤ lo) (h' : lo ≤ hi) (h'' : hi ≤ xs.length) :
    Safe len (fun ys => ys = (xs.take hi.toNat).drop lo.toNat) (slice xs lo hi) := by
  unfold slice
  rw [if_pos ⟨h, h', h''⟩]
  exact safe_pure rfl

theorem safe_makeCap {size n : ℤ} (h : 0 ≤ n) (h' : n ≤ len) (h'' : n * size ≤ maxAlloc) :
    Safe len (fun _ => True) (makeCap size n) := by
  refine ⟨fun m hm => ?_, (), ?_, trivial⟩
  · rw [List.mem_singleton.mp hm]
    exact ⟨h, h'⟩
  · exact if_pos ⟨h, h''⟩

theorem bind_fault {c : Comp α} {e : Fault} (h : c.result = .error e) (f : α → Comp β) :
    (c >>= f).result = .error e := by
  show (Comp.bind c f).result = _
  unfold Comp.bind
  rw [h]

theorem bind_result {c : Comp α} {a : α} (h : c.result = .ok a) (f : α → Comp β) :
    (c >>= f).result = (f a).result := by
  show (Comp.bind c f).result = _
  unfold Comp.bind
  rw [h]

/-- A computation that ends in a result has passed every point on the way. -/
theorem bind_ok {c : Comp α} {f : α → Comp β} {b : β} (h : (c >>= f).result = .ok b) :
    ∃ a, c.result = .ok a ∧ (f a).result = .ok b := by
  cases hc : c.result with
  | error e =>
    rw [bind_fault hc] at h
    exact absurd h (by simp)
  | ok a => exact ⟨a, rfl, bind_result hc f ▸ h⟩

theorem not_safe_of_fault {c : Comp α} {e : Fault} (h : c.result = .error e) :
    ¬ Safe len Q c := by
  rintro ⟨-, a, ha, -⟩
  rw [h] at ha
  exact absurd ha (by simp)

theorem index_result {xs : List α} {i : ℕ} {x : α} (h : xs[i]? = some x) :
    (index xs (i : ℤ)).result = .ok x := by
  unfold index
  rw [if_pos (by omega), Int.toNat_natCast, h]
  rfl

theorem slice_result {xs : List α} {lo hi : ℤ} (h : 0 ≤ lo) (h' : lo ≤ hi) (h'' : hi ≤ xs.length) :
    (slice xs lo hi).result = .ok ((xs.take hi.toNat).drop lo.toNat) := by
  unfold slice
  rw [if_pos ⟨h, h', h''⟩]
  rfl

theorem slice_fault {xs : List α} {lo hi : ℤ} (h : hi < lo) :
    (slice xs lo hi).result = .error .slice := by
  unfold slice
  rw [if_neg (by omega)]
  rfl

theorem makeCap_fault {size n : ℤ} (h : maxAlloc < n * size) :
    (makeCap size n).result = .error .capacity := if_neg (by omega)

end ShardKV.Checked
