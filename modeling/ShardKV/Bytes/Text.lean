import ShardKV.Bytes.Fields
import ShardKV.Bytes.Literal

/-! Text in UTF-8, as `strings.Fields` takes it apart into words and `bufio.Scanner` into
lines. No byte of a wide white space is ASCII and each starts with a byte that starts a
character, so white space is found by comparing bytes. A scanner gives up at a line that does
not fit its buffer together with the line's end. -/

namespace ShardKV.Text

/-- The characters of `unicode.IsSpace`, in UTF-8. -/
def blanks : List Bytes :=
  [[9], [10], [11], [12], [13], [32], [0xC2, 0x85], [0xC2, 0xA0], [0xE1, 0x9A, 0x80],
   [0xE2, 0x80, 0x80], [0xE2, 0x80, 0x81], [0xE2, 0x80, 0x82], [0xE2, 0x80, 0x83],
   [0xE2, 0x80, 0x84], [0xE2, 0x80, 0x85], [0xE2, 0x80, 0x86], [0xE2, 0x80, 0x87],
   [0xE2, 0x80, 0x88], [0xE2, 0x80, 0x89], [0xE2, 0x80, 0x8A], [0xE2, 0x80, 0xA8],
   [0xE2, 0x80, 0xA9], [0xE2, 0x80, 0xAF], [0xE2, 0x81, 0x9F], [0xE3, 0x80, 0x80]]

/-- The white space that a text starts with. -/
def blankAt (text : Bytes) : Option Bytes := blanks.find? (·.isPrefixOf text)

theorem blankAt_none {text : Bytes} : blankAt text = none ↔ ∀ blank ∈ blanks, ¬ blank <+: text := by
  simp only [blankAt, List.find?_eq_none, List.isPrefixOf_iff_prefix]

theorem blankAt_space (text : Bytes) : blankAt (32 :: text) = some [32] := rfl

theorem blank_cases : ∀ blank ∈ blanks,
    (blank.length = 1 ∧ ∀ b ∈ blank, isBlank b = true) ∨ ∀ b ∈ blank, 128 ≤ b := by
  have hall : blanks.all (fun blank => (blank.length == 1 && blank.all isBlank) ||
      blank.all (fun b => 128 ≤ b.toNat)) = true := by decide
  intro blank hblank
  simpa [UInt8.le_iff_toNat_le] using List.all_eq_true.1 hall blank hblank

/-- No white space in it. -/
def Solid (word : Bytes) : Prop := ∀ blank ∈ blanks, ¬ blank <:+: word

/-- A word that is one field. -/
structure IsWord (word : Bytes) : Prop where
  ne_nil : word ≠ []
  solid : Solid word

/-- A visible ASCII character. -/
def isGraphic (b : UInt8) : Bool := b < 128 && !isBlank b

theorem Solid.within {word part : Bytes} (h : Solid word) (hpart : part <:+: word) : Solid part :=
  fun blank hb hin => h blank hb (hin.trans hpart)

theorem Solid.notMem {word : Bytes} (h : Solid word) {b : UInt8} (hb : [b] ∈ blanks) : b ∉ word :=
  fun hmem => h [b] hb ((List.singleton_infix_iff b word).2 hmem)

theorem solid_of_graphic {word : Bytes} (h : ∀ b ∈ word, isGraphic b = true) : Solid word := by
  intro blank hblank hin
  have hgraphic : ∀ b ∈ blank, b < 128 ∧ isBlank b = false := fun b hb => by
    simpa [isGraphic] using h b (hin.mem hb)
  obtain ⟨b, hb⟩ : ∃ b, b ∈ blank := List.exists_mem_of_ne_nil _ fun hnil => by
    rw [hnil] at hblank
    exact absurd hblank (by decide)
  rcases blank_cases blank hblank with ⟨-, hall⟩ | hall
  · exact absurd (hgraphic b hb).2 (by simp [hall b hb])
  · exact absurd (hgraphic b hb).1 (by simpa using hall b hb)

theorem graphic_literal {s : String} (h : (utf8 s).all isGraphic = true) :
    ∀ b ∈ ascii s, isGraphic b = true := by
  rw [List.all_eq_true] at h
  have hascii : isAscii s = true := List.all_eq_true.2 fun b hb =>
    (Bool.and_eq_true_iff.1 (h b hb)).1
  rwa [ascii_eq_utf8 hascii]

/-- White space does not lie across an ASCII character. -/
theorem Solid.append {front back : Bytes} (hfront : Solid front) (hback : Solid back)
    (h : (∃ b ∈ front.getLast?, b < 128) ∨ ∃ b ∈ back.head?, b < 128) : Solid (front ++ back) := by
  intro blank hblank hin
  rcases List.infix_append_iff.1 hin with hin | hin | ⟨l, r, rfl, hl, hr⟩
  · exact hfront blank hblank hin
  · exact hback blank hblank hin
  by_cases hlnil : l = []
  · subst hlnil
    exact hback _ hblank hr.isInfix
  by_cases hrnil : r = []
  · subst hrnil
    exact hfront _ hblank (by simpa using hl.isInfix)
  rcases blank_cases _ hblank with ⟨hlen, -⟩ | hwide
  · have hpos := List.length_pos_iff.2 hlnil
    have hpos' := List.length_pos_iff.2 hrnil
    rw [List.length_append] at hlen
    omega
  · rcases h with ⟨b, hb, hlt⟩ | ⟨b, hb, hlt⟩
    · obtain ⟨s, rfl⟩ := hl
      have hlast : b ∈ l := by
        rw [Option.mem_def, List.getLast?_append_of_ne_nil _ hlnil] at hb
        exact List.mem_of_getLast? hb
      exact absurd hlt (by simpa using hwide b (List.mem_append_left r hlast))
    · obtain ⟨s, rfl⟩ := hr
      have hfirst : b ∈ r := by
        rw [Option.mem_def, List.head?_append_of_ne_nil _ hrnil] at hb
        exact List.mem_of_head? hb
      exact absurd hlt (by simpa using hwide b (List.mem_append_right l hfirst))

/-- A text that goes on after a word with an ASCII character has no white space inside the word. -/
theorem Solid.blankAt_none {b : UInt8} {word text : Bytes} (h : Solid (b :: word))
    (htext : ∀ c ∈ text.head?, c < 128) : blankAt (b :: word ++ text) = none := by
  rw [Text.blankAt_none]
  rintro blank hblank ⟨t, heq⟩
  rcases List.append_eq_append_iff.1 heq with ⟨a, hword, -⟩ | ⟨c, rfl, htail⟩
  · exact h blank hblank (hword ▸ (List.prefix_append blank a).isInfix)
  · cases c with
    | nil => exact h _ hblank (by simp)
    | cons c rest =>
      rcases blank_cases _ hblank with ⟨hlen, -⟩ | hwide
      · simp at hlen
      · have hlt : c < 128 := htext c (by rw [htail]; rfl)
        exact absurd hlt (by simpa using hwide c (by simp))

/-- The loop of `strings.Fields`: the word it is in, and the bytes of white space it has
still to pass. -/
def wordsFrom : Bytes → ℕ → Bytes → List Bytes
  | word, _, [] => if word = [] then [] else [word]
  | word, n + 1, _ :: text => wordsFrom word n text
  | word, 0, b :: text =>
    match blankAt (b :: text) with
    | none => wordsFrom (word ++ [b]) 0 text
    | some blank =>
      if word = [] then wordsFrom [] (blank.length - 1) text
      else word :: wordsFrom [] (blank.length - 1) text

/-- `strings.Fields`. -/
def words (text : Bytes) : List Bytes := wordsFrom [] 0 text

theorem wordsFrom_none {b : UInt8} {text : Bytes} (h : blankAt (b :: text) = none) (word : Bytes) :
    wordsFrom word 0 (b :: text) = wordsFrom (word ++ [b]) 0 text := by
  rw [wordsFrom, h]

theorem wordsFrom_some {b : UInt8} {text blank : Bytes} (h : blankAt (b :: text) = some blank)
    (word : Bytes) : wordsFrom word 0 (b :: text) =
      if word = [] then wordsFrom [] (blank.length - 1) text
      else word :: wordsFrom [] (blank.length - 1) text := by
  rw [wordsFrom, h]

theorem wordsFrom_solid {word text : Bytes} (h : Solid word) (htext : ∀ c ∈ text.head?, c < 128)
    (front : Bytes) : wordsFrom front 0 (word ++ text) = wordsFrom (front ++ word) 0 text := by
  induction word generalizing front with
  | nil => simp
  | cons b word ih =>
    have hnone : blankAt (b :: (word ++ text)) = none := h.blankAt_none htext
    rw [List.cons_append, wordsFrom_none hnone, ih (h.within (List.suffix_cons b word).isInfix), List.append_assoc, List.singleton_append]

theorem words_cons {word : Bytes} (h : IsWord word) (text : Bytes) :
    words (word ++ 32 :: text) = word :: words text := by
  rw [words, wordsFrom_solid h.solid (by simp), List.nil_append,
    wordsFrom_some (blankAt_space text), if_neg h.ne_nil]
  rfl

theorem words_single {word : Bytes} (h : IsWord word) : words word = [word] := by
  have := wordsFrom_solid h.solid (by simp : ∀ c ∈ ([] : Bytes).head?, c < 128) []
  rw [List.append_nil, List.nil_append] at this
  exact this.trans (if_neg h.ne_nil)

/-- Words with a space before each but the first are read back. -/
theorem words_join {word : Bytes} {rest : List Bytes} (h : IsWord word) (hrest : ∀ w ∈ rest, IsWord w) :
    words (word ++ rest.flatMap (32 :: ·)) = word :: rest := by
  induction rest generalizing word with
  | nil => simpa using words_single h
  | cons next rest ih =>
    obtain ⟨hnext, hrest⟩ := List.forall_mem_cons.1 hrest
    rw [List.flatMap_cons, List.cons_append, words_cons h, ih hnext hrest]

theorem notMem_join {c : UInt8} (hc : [c] ∈ blanks) (hspace : c ≠ 32) {word : Bytes} {rest : List Bytes}
    (h : Solid word) (hrest : ∀ w ∈ rest, Solid w) : c ∉ word ++ rest.flatMap (32 :: ·) := by
  intro hmem
  rcases List.mem_append.1 hmem with hmem | hmem
  · exact h.notMem hc hmem
  · obtain ⟨w, hw, hmem⟩ := List.mem_flatMap.1 hmem
    rcases List.mem_cons.1 hmem with rfl | hmem
    · exact hspace rfl
    · exact (hrest w hw).notMem hc hmem

/-- White space that starts in the word does not end behind it. -/
def Closed (word text : Bytes) : Prop :=
  ∀ front back, word = front ++ back → back ≠ [] → blankAt (back ++ text) = none

theorem Closed.solid {word text : Bytes} (h : Closed word text) : Solid word := by
  rintro blank hblank ⟨s, t, rfl⟩
  have hne : blank ++ t ≠ [] := by
    intro hnil
    rw [(List.append_eq_nil_iff.1 hnil).1] at hblank
    exact absurd hblank (by decide)
  have hnone := blankAt_none.1 (h s (blank ++ t) (List.append_assoc s blank t) hne) blank hblank
  exact hnone (by simp)

theorem Closed.concat {word text : Bytes} {b : UInt8} (h : Closed word (b :: text))
    (hb : blankAt (b :: text) = none) : Closed (word ++ [b]) text := by
  intro front back heq hne
  obtain ⟨back, c, rfl⟩ : ∃ init c, back = init ++ [c] :=
    ⟨_, _, (List.dropLast_append_getLast hne).symm⟩
  rw [← List.append_assoc] at heq
  obtain ⟨rfl, hc⟩ := List.append_inj' heq rfl
  obtain rfl : b = c := by simpa using hc
  rw [List.append_assoc, List.singleton_append]
  by_cases hnil : back = []
  · rw [hnil]
    exact hb
  · exact h front back rfl hnil

theorem closed_nil (text : Bytes) : Closed [] text := by
  intro front back heq hne
  exact absurd (List.append_eq_nil_iff.1 heq.symm).2 hne

theorem isWord_of_mem_wordsFrom {word text w : Bytes} {n : ℕ} (h : Closed word text)
    (hn : n ≠ 0 → word = []) (hw : w ∈ wordsFrom word n text) : IsWord w := by
  induction text generalizing word n with
  | nil =>
    change w ∈ if word = [] then [] else [word] at hw
    split_ifs at hw with hnil
    · cases hw
    · obtain rfl := List.mem_singleton.1 hw
      exact ⟨hnil, h.solid⟩
  | cons b text ih =>
    cases n with
    | succ n =>
      obtain rfl := hn (Nat.succ_ne_zero n)
      exact ih (closed_nil text) (fun _ => rfl) hw
    | zero =>
      cases hb : blankAt (b :: text) with
      | none =>
        rw [wordsFrom_none hb] at hw
        exact ih (h.concat hb) (absurd rfl) hw
      | some blank =>
        rw [wordsFrom_some hb] at hw
        split_ifs at hw with hnil
        · exact ih (closed_nil text) (fun _ => rfl) hw
        · rcases List.mem_cons.1 hw with rfl | hw
          · exact ⟨hnil, h.solid⟩
          · exact ih (closed_nil text) (fun _ => rfl) hw

theorem isWord_of_mem_words {text w : Bytes} (hw : w ∈ words text) : IsWord w :=
  isWord_of_mem_wordsFrom (closed_nil text) (absurd rfl) hw

/-- What stands before and behind the first place of a byte. -/
def cut (c : UInt8) : Bytes → Option (Bytes × Bytes)
  | [] => none
  | b :: text => if b = c then some ([], text) else (cut c text).map fun r => (b :: r.1, r.2)

/-- What stands before and behind the last place of a byte. -/
def cutLast (c : UInt8) : Bytes → Option (Bytes × Bytes)
  | [] => none
  | b :: text =>
    match cutLast c text with
    | some r => some (b :: r.1, r.2)
    | none => if b = c then some ([], text) else none

theorem cut_cons (c b : UInt8) (text : Bytes) : cut c (b :: text) =
    if b = c then some ([], text) else (cut c text).map fun r => (b :: r.1, r.2) := rfl

theorem cut_append {c : UInt8} {front : Bytes} (h : c ∉ front) (back : Bytes) :
    cut c (front ++ c :: back) = some (front, back) := by
  induction front with
  | nil => simp [cut_cons]
  | cons b front ih =>
    obtain ⟨hb, hfront⟩ := not_or.1 (mt List.mem_cons.2 h)
    rw [List.cons_append, cut_cons, if_neg (Ne.symm hb), ih hfront]
    rfl

theorem cut_none {c : UInt8} {text : Bytes} (h : c ∉ text) : cut c text = none := by
  induction text with
  | nil => rfl
  | cons b text ih =>
    obtain ⟨hb, htext⟩ := not_or.1 (mt List.mem_cons.2 h)
    rw [cut_cons, if_neg (Ne.symm hb), ih htext]
    rfl

theorem cut_eq {c : UInt8} {text front back : Bytes} (h : cut c text = some (front, back)) :
    text = front ++ c :: back := by
  induction text generalizing front with
  | nil => cases h
  | cons b text ih =>
    rw [cut_cons] at h
    split_ifs at h with hb
    · cases h
      rw [hb, List.nil_append]
    · obtain ⟨r, hr, heq⟩ := Option.map_eq_some_iff.1 h
      cases heq
      rw [List.cons_append, ← ih hr]

theorem cutLast_none {c : UInt8} {text : Bytes} (h : c ∉ text) : cutLast c text = none := by
  induction text with
  | nil => rfl
  | cons b text ih =>
    obtain ⟨hb, htext⟩ := not_or.1 (mt List.mem_cons.2 h)
    rw [cutLast, ih htext]
    exact if_neg (Ne.symm hb)

theorem cutLast_append {c : UInt8} {back : Bytes} (h : c ∉ back) (front : Bytes) :
    cutLast c (front ++ c :: back) = some (front, back) := by
  induction front with
  | nil => simp [cutLast, cutLast_none h]
  | cons b front ih => rw [List.cons_append, cutLast, ih]

theorem cutLast_eq {c : UInt8} {text front back : Bytes} (h : cutLast c text = some (front, back)) :
    text = front ++ c :: back := by
  induction text generalizing front with
  | nil => cases h
  | cons b text ih =>
    rw [cutLast] at h
    cases hr : cutLast c text with
    | none =>
      rw [hr] at h
      simp only [Option.ite_none_right_eq_some, Option.some.injEq, Prod.mk.injEq] at h
      obtain ⟨rfl, rfl, rfl⟩ := h
      rfl
    | some r =>
      rw [hr] at h
      cases h
      rw [List.cons_append, ← ih hr]

def maxScanTokenSize : ℕ := 65536

def dropCR (line : Bytes) : Bytes := if line.getLast? = some 13 then line.dropLast else line

/-- The loop of a scanner of lines, with the line it is in: the lines it gives, and whether it
stopped because a line is too long. -/
def scanFrom : Bytes → Bytes → List Bytes × Bool
  | line, [] =>
    if line = [] then ([], false)
    else if maxScanTokenSize ≤ line.length then ([], true) else ([dropCR line], false)
  | line, b :: text =>
    if b = 10 then
      if maxScanTokenSize ≤ line.length then ([], true)
      else (dropCR line :: (scanFrom [] text).1, (scanFrom [] text).2)
    else scanFrom (line ++ [b]) text

def scanLines (text : Bytes) : List Bytes × Bool := scanFrom [] text

theorem scanFrom_line {line : Bytes} (h : 10 ∉ line) (front text : Bytes) :
    scanFrom front (line ++ text) = scanFrom (front ++ line) text := by
  induction line generalizing front with
  | nil => simp
  | cons b line ih =>
    obtain ⟨hb, hline⟩ := not_or.1 (mt List.mem_cons.2 h)
    rw [List.cons_append, scanFrom, if_neg (Ne.symm hb), ih hline, List.append_assoc,
      List.singleton_append]

theorem dropCR_of_notMem {line : Bytes} (h : 13 ∉ line) : dropCR line = line :=
  if_neg fun hlast => h (List.mem_of_getLast? hlast)

/-- Plain lines are given back if they all fit, and only then. -/
theorem scanLines_lines {lines : List Bytes} (h : ∀ l ∈ lines, 10 ∉ l ∧ 13 ∉ l) :
    (scanLines (lines.flatMap (· ++ [10])) = (lines, false) ∧ ∀ l ∈ lines, l.length < maxScanTokenSize) ∨
      ((scanLines (lines.flatMap (· ++ [10]))).2 = true ∧
        ¬ ∀ l ∈ lines, l.length < maxScanTokenSize) := by
  induction lines with
  | nil => exact .inl ⟨rfl, by simp⟩
  | cons line lines ih =>
    obtain ⟨hline, hlines⟩ := List.forall_mem_cons.1 h
    rw [List.flatMap_cons, scanLines, List.append_assoc, scanFrom_line hline.1, List.nil_append,
      List.singleton_append, scanFrom, if_pos rfl, dropCR_of_notMem hline.2]
    by_cases hlen : maxScanTokenSize ≤ line.length
    · rw [if_pos hlen]
      exact .inr ⟨rfl, fun hall => absurd (hall line List.mem_cons_self) (by omega)⟩
    · rw [if_neg hlen]
      rcases ih hlines with ⟨hscan, hall⟩ | ⟨hscan, hnot⟩
      · rw [scanLines] at hscan
        exact .inl ⟨by rw [hscan], List.forall_mem_cons.2 ⟨by omega, hall⟩⟩
      · exact .inr ⟨hscan, fun hall => hnot fun l hl => hall l (List.mem_cons_of_mem _ hl)⟩

end ShardKV.Text
