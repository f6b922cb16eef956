import ShardKV.Bytes.Decimal
import ShardKV.Access.Prog
import Mathlib.Data.Finmap
import Mathlib.Data.Prod.Lex
import Mathlib.Data.List.Sort
import Mathlib.Data.List.Lex
import Mathlib.Data.Finset.Sort
import Mathlib.Order.Fin.Basic

/-! The stored values. A key of a database holds an entry: a value of one of the
six kinds and an optional deadline. The Go maps are finite maps and finite sets,
a list is a sequence, and a sorted set is the level-0 chain of its skip list,
which carries its order and the uniqueness of its members. Scores and long
doubles stay abstract: what the server needs of them is a linear order and the
operations it calls. -/

namespace ShardKV.Data

open Access

/-- The floating point the server computes with. `add` and `mul` return nothing
when the result is not a number; a `Long` is the wide format of INCRBYFLOAT,
whose sum is refused when it is not finite, which zero plus a finite number is. -/
class Numeric (S : Type) extends LinearOrder S where
  parseScore : Bytes → Option S
  formatScore : S → Bytes
  zero : S
  one : S
  add : S → S → Option S
  mul : S → S → Option S
  Long : Type
  parseLong : Bytes → Option Long
  longIsInf : Long → Bool
  longZero : Long
  longAdd : Long → Long → Option Long
  longText : Long → Bytes
  longAdd_zero : ∀ d, longIsInf d = false → (longAdd longZero d).isSome

/-- The order of Go strings: byte by byte. -/
def bytesLE (a b : Bytes) : Prop := a.map UInt8.toNat ≤ b.map UInt8.toNat

instance : DecidableRel bytesLE := fun a b =>
  inferInstanceAs (Decidable (a.map UInt8.toNat ≤ b.map UInt8.toNat))

instance : IsTrans Bytes bytesLE := ⟨fun _ _ _ hab hbc => le_trans (α := List ℕ) hab hbc⟩

instance : Std.Total bytesLE := ⟨fun _ _ => le_total (α := List ℕ) _ _⟩

instance : Std.Antisymm bytesLE :=
  ⟨fun _ _ hab hba => List.map_injective_iff.mpr (fun _ _ => UInt8.toNat_inj.mp)
    (le_antisymm hab hba)⟩

section Sorted

variable {S : Type} [LinearOrder S]

/-- Ascending by score, then by the bytes of the member. -/
def zKey (n : S × Bytes) : S ×ₗ List ℕ := toLex (n.1, n.2.map UInt8.toNat)

def zLE (a b : S × Bytes) : Prop := zKey a ≤ zKey b

instance : DecidableRel (zLE (S := S)) := fun a b => inferInstanceAs (Decidable (zKey a ≤ zKey b))

instance : Std.Total (zLE (S := S)) := ⟨fun a b => le_total (zKey a) (zKey b)⟩

instance : IsTrans (S × Bytes) zLE := ⟨fun _ _ _ hab hbc => le_trans hab hbc⟩

/-- A sorted set: its nodes in skip-list order. -/
structure ZSet (S : Type) [LinearOrder S] where
  nodes : List (S × Bytes)
  sorted : nodes.Pairwise zLE
  nodup : (nodes.map Prod.snd).Nodup
  deriving DecidableEq

namespace ZSet

def empty : ZSet S := ⟨[], List.Pairwise.nil, List.nodup_nil⟩

def score (z : ZSet S) (member : Bytes) : Option S :=
  (z.nodes.find? fun n => n.2 == member).map Prod.fst

def erase (z : ZSet S) (member : Bytes) : ZSet S where
  nodes := z.nodes.filter fun n => n.2 ≠ member
  sorted := z.sorted.filter _
  nodup := (List.filter_sublist.map Prod.snd).nodup z.nodup

theorem not_mem_erase (z : ZSet S) (member : Bytes) :
    member ∉ (z.erase member).nodes.map Prod.snd := by
  intro h
  obtain ⟨n, hn, hm⟩ := List.mem_map.mp h
  have := (List.mem_filter.mp hn).2
  simp [hm] at this

/-- Put a member at a score, moving it there if it is present. -/
def insert (z : ZSet S) (member : Bytes) (score : S) : ZSet S where
  nodes := (z.erase member).nodes.orderedInsert zLE (score, member)
  sorted := (z.erase member).sorted.orderedInsert _ _
  nodup := by
    have hperm := (List.perm_orderedInsert zLE (score, member) (z.erase member).nodes).map Prod.snd
    rw [hperm.nodup_iff, List.map_cons, List.nodup_cons]
    exact ⟨z.not_mem_erase member, (z.erase member).nodup⟩

/-- The sorted set of a list of members with their scores. -/
def ofNodes (l : List (S × Bytes)) (h : (l.map Prod.snd).Nodup) : ZSet S where
  nodes := l.insertionSort zLE
  sorted := List.pairwise_insertionSort zLE l
  nodup := ((List.perm_insertionSort zLE l).map Prod.snd).nodup_iff.mpr h

/-- `zset.add`: whether the member is new and whether anything changed. -/
def add (z : ZSet S) (member : Bytes) (score : S) : ZSet S × Bool × Bool :=
  match z.score member with
  | some old => if old = score then (z, false, false) else (z.insert member score, false, true)
  | none => (z.insert member score, true, true)

def remove (z : ZSet S) (member : Bytes) : ZSet S × Bool :=
  if (z.score member).isSome then (z.erase member, true) else (z, false)

end ZSet

end Sorted

instance instNeZeroWord : NeZero (2 ^ 64) := ⟨by norm_num⟩

/-- A stream id: milliseconds, then a sequence number. -/
abbrev StreamID := Fin (2 ^ 64) ×ₗ Fin (2 ^ 64)

structure StreamEntry where
  id : StreamID
  fields : List Bytes
  deriving DecidableEq

/-- A delivered entry that is not yet acknowledged. -/
structure Nack where
  consumer : Bytes
  deliveryMs : ℤ
  deliveryCount : ℤ
  deriving DecidableEq

structure Consumer where
  seenMs : ℤ
  activeMs : ℤ
  pel : Finmap fun _ : StreamID => Nack
  deriving DecidableEq

structure Group where
  lastDelivered : StreamID
  entriesRead : ℤ
  hasEntriesRead : Bool
  pel : Finmap fun _ : StreamID => Nack
  consumers : Finmap fun _ : Bytes => Consumer
  deriving DecidableEq

structure Stream where
  entries : List StreamEntry
  last : StreamID
  maxDeleted : StreamID
  added : ℕ
  groups : Finmap fun _ : Bytes => Group
  deriving DecidableEq

inductive Value (S : Type) [LinearOrder S]
  | str (b : Bytes)
  | list (l : List Bytes)
  | hash (h : Finmap fun _ : Bytes => Bytes)
  | set (m : Finset Bytes)
  | zset (z : ZSet S)
  | stream (st : Stream)
  deriving DecidableEq

/-- An entry of the key space. The deadline is in Unix milliseconds. -/
structure Entry (S : Type) [LinearOrder S] where
  value : Value S
  expireAt : Option ℤ
  deriving DecidableEq

/-- A key of a numbered database. -/
abbrev Loc := ℕ × Bytes

instance instNeZeroInstant : NeZero (2 ^ 63) := ⟨by norm_num⟩

/-- A clock reading: Unix milliseconds in a signed 64-bit word, not before the epoch. -/
abbrev Instant := Fin (2 ^ 63)

/-- The contents of all databases, expired entries that nobody swept included. -/
abbrev Dataset (S : Type) [LinearOrder S] := Access.Store Loc (Entry S)

/-- A store operation or a command handler. -/
abbrev Op (S : Type) [LinearOrder S] := Prog Loc (Entry S)

variable {S : Type} [LinearOrder S]

/-- `time.UnixMilli`, with the zero time, which the store takes for "no deadline". -/
def unixMilli (ms : ℤ) : Option ℤ := if ms = -62135596800000 then none else some ms

/-- The complement of `entry.expired`. -/
def live (now : Instant) (e : Entry S) : Bool :=
  match e.expireAt with
  | none => true
  | some d => decide ((now.val : ℤ) < d)

/-- What was still live later was live before. -/
theorem live_mono {t T : Instant} (h : t ≤ T) (e : Entry S) : live T e → live t e := by
  unfold live
  cases e.expireAt with
  | none => exact id
  | some d =>
    intro hT
    have hd : (T.val : ℤ) < d := of_decide_eq_true hT
    have hv : t.val ≤ T.val := h
    exact decide_eq_true (by omega)

/-- No collection is stored empty: the command that empties one removes its key.
What is asked of a stream is left open. -/
def Proper (ok : Stream → Prop) (e : Entry S) : Prop :=
  match e.value with
  | .str _ => True
  | .list l => l ≠ []
  | .hash h => h ≠ ∅
  | .set m => m ≠ ∅
  | .zset z => z.nodes ≠ []
  | .stream st => ok st

/-- A proper entry that is no stream. -/
abbrev Plain : Entry S → Prop := Proper fun _ => False

section Proper

variable (ok : Stream → Prop) (d : Option ℤ)

@[simp] theorem proper_str (b : Bytes) : Proper ok (⟨.str b, d⟩ : Entry S) := trivial

@[simp] theorem proper_list (l : List Bytes) : Proper ok (⟨.list l, d⟩ : Entry S) ↔ l ≠ [] :=
  Iff.rfl

@[simp] theorem proper_zset (z : ZSet S) : Proper ok (⟨.zset z, d⟩ : Entry S) ↔ z.nodes ≠ [] :=
  Iff.rfl

@[simp] theorem proper_stream (st : Stream) : Proper ok (⟨.stream st, d⟩ : Entry S) ↔ ok st := Iff.rfl

variable {ok} in
theorem proper_deadline {e : Entry S} (h : Proper ok e) : Proper ok { e with expireAt := d } := h

end Proper

/-- The live entries of a dataset. -/
def liveAt (now : Instant) (s : Dataset S) : Dataset S := seen (live now) s

end ShardKV.Data
