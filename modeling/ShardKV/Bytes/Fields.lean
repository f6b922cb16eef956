import ShardKV.Bytes.Decimal

/-! Words and the blanks between them, as `strings.Fields` finds them in ASCII text. -/

namespace ShardKV

open Decimal

def isBlank (b : UInt8) : Bool :=
  b = 9 || b = 10 || b = 11 || b = 12 || b = 13 || b = 32

/-- The loop of `strings.Fields`, with the word it is in. -/
def fieldsFrom : Bytes → Bytes → List Bytes
  | word, [] => if word = [] then [] else [word]
  | word, b :: text =>
    if isBlank b then
      if word = [] then fieldsFrom [] text else word :: fieldsFrom [] text
    else fieldsFrom (word ++ [b]) text

def fields (text : Bytes) : List Bytes := fieldsFrom [] text

/-- A word that is one field. -/
structure IsField (word : Bytes) : Prop where
  ne_nil : word ≠ []
  solid : ∀ b ∈ word, isBlank b = false

theorem fieldsFrom_solid {word : Bytes} (h : ∀ b ∈ word, isBlank b = false) (front text : Bytes) :
    fieldsFrom front (word ++ text) = fieldsFrom (front ++ word) text := by
  induction word generalizing front with
  | nil => simp
  | cons b word ih =>
    rw [List.cons_append, fieldsFrom, h b List.mem_cons_self, if_neg Bool.false_ne_true,
      ih fun c hc => h c (List.mem_cons_of_mem _ hc), List.append_assoc, List.singleton_append]

theorem fields_cons {word : Bytes} (h : IsField word) {b : UInt8} (hb : isBlank b = true) (text : Bytes) :
    fields (word ++ b :: text) = word :: fields text := by
  rw [fields, fieldsFrom_solid h.solid, List.nil_append, fieldsFrom, if_pos hb, if_neg h.ne_nil, fields]

theorem fields_single {word : Bytes} (h : IsField word) : fields word = [word] := by
  have := fieldsFrom_solid h.solid [] []
  rw [List.append_nil, List.nil_append, fieldsFrom, if_neg h.ne_nil] at this
  exact this

theorem isBlank_of_isDigit {b : UInt8} (h : isDigit b = true) : isBlank b = false := by
  have hne {c : UInt8} (hc : isDigit c = false) : b ≠ c := fun heq => by simp [heq, hc] at h
  have h9 : b ≠ 9 := hne (by decide)
  have h10 : b ≠ 10 := hne (by decide)
  have h11 : b ≠ 11 := hne (by decide)
  have h12 : b ≠ 12 := hne (by decide)
  have h13 : b ≠ 13 := hne (by decide)
  have h32 : b ≠ 32 := hne (by decide)
  simp [isBlank, h9, h10, h11, h12, h13, h32]

theorem isField_itoa (n : ℕ) : IsField (itoa n) :=
  ⟨itoa_ne_nil n, fun _ hb => isBlank_of_isDigit (isDigit_of_mem_itoa hb)⟩

theorem isField_formatInt (z : ℤ) : IsField (formatInt z) := by
  unfold formatInt
  split_ifs
  · exact ⟨List.cons_ne_nil _ _, List.forall_mem_cons.2 ⟨by decide, (isField_itoa _).solid⟩⟩
  · exact isField_itoa _

end ShardKV
