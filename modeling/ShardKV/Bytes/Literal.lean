import ShardKV.Bytes.Decimal

/-! Literals compared by number. A byte string is read as a numeral whose digits are from
1 to 256, so that no two have the same number; literals of ASCII text are the same bytes
just when their encodings have the same number, and a table of many of them is checked by
comparing numbers instead of texts. -/

namespace ShardKV

open String (utf8EncodeChar)

/-- The bytes of the literal as it is stored. -/
def utf8 (s : String) : Bytes := s.toByteArray.data.toList

def code (b : Bytes) : ℕ := b.foldr (fun x n => 256 * n + x.toNat + 1) 0

/-- The number of a literal. -/
def literalCode (s : String) : ℕ := code (utf8 s)

def isAscii (s : String) : Bool := (utf8 s).all fun b => decide (b < 128)

theorem code_injective : Function.Injective code := by
  intro a
  induction a with
  | nil =>
    intro b h
    cases b with
    | nil => rfl
    | cons y ys => simp [code] at h
  | cons x xs ih =>
    intro b h
    cases b with
    | nil => simp [code] at h
    | cons y ys =>
      have hx := x.toNat_lt
      have hy := y.toNat_lt
      simp only [code, List.foldr_cons] at h
      have hhead : x = y := UInt8.toNat_inj.mp (by omega)
      have htail : code xs = code ys := by
        unfold code
        omega
      rw [hhead, ih htail]

theorem literalCode_injective : Function.Injective literalCode := by
  intro s t h
  have hbytes : s.toByteArray = t.toByteArray :=
    ByteArray.ext (Array.toList_inj.mp (code_injective h))
  exact String.toByteArray_inj.mp hbytes

theorem utf8_eq_flatMap (s : String) : utf8 s = s.toList.flatMap utf8EncodeChar := by
  conv_lhs => rw [← String.ofList_toList (s := s)]
  rw [utf8, String.toByteArray_ofList, List.utf8Encode, List.data_toByteArray]

/-- The first byte of a longer encoding is not one of ASCII. -/
theorem utf8EncodeChar_of_ascii {c : Char} (h : ∀ b ∈ utf8EncodeChar c, b < 128) :
    utf8EncodeChar c = [UInt8.ofNat c.toNat] := by
  unfold utf8EncodeChar at h ⊢
  dsimp only at h ⊢
  split_ifs at h ⊢ with h1
  · rfl
  all_goals
    have hlead := h _ List.mem_cons_self
    rw [UInt8.lt_iff_toNat_lt, UInt8.toNat_ofNat'] at hlead
    simp at hlead
    omega

theorem ascii_eq_utf8 {s : String} (h : isAscii s = true) : ascii s = utf8 s := by
  simp only [isAscii, List.all_eq_true, decide_eq_true_eq] at h
  rw [utf8_eq_flatMap] at h ⊢
  unfold ascii
  generalize s.toList = cs at h ⊢
  induction cs with
  | nil => rfl
  | cons c cs ih =>
    simp only [List.flatMap_cons, List.mem_append] at h
    rw [List.map_cons, List.flatMap_cons, utf8EncodeChar_of_ascii fun b hb => h b (.inl hb),
      ih fun b hb => h b (.inr hb)]
    rfl

theorem ascii_eq_iff {s t : String} (hs : isAscii s = true) (ht : isAscii t = true) :
    ascii s = ascii t ↔ (literalCode s).beq (literalCode t) = true := by
  rw [ascii_eq_utf8 hs, ascii_eq_utf8 ht, Nat.beq_eq]
  exact code_injective.eq_iff.symm

theorem ascii_mem_iff {s : String} {l : List String} (hs : isAscii s = true)
    (hl : l.all isAscii = true) :
    ascii s ∈ l.map ascii ↔ (l.any fun t => (literalCode s).beq (literalCode t)) = true := by
  rw [List.mem_map, List.any_eq_true]
  refine exists_congr fun t => and_congr_right fun ht => ?_
  rw [eq_comm]
  exact ascii_eq_iff hs (List.all_eq_true.mp hl t ht)

end ShardKV
