import Mathlib.Data.List.Infix
import Mathlib.Tactic.Common

/-! Patterns with wildcards over an arbitrary alphabet. A pattern is a sequence of items,
each a star, which stands for any run of letters, or a token, which stands for one letter
that it accepts. Between two stars there are tokens only, so a segment takes as many
letters as it has tokens; and a star that reaches some later place reaches every earlier
one's. This is why a matcher need not return to any star but the last. -/

namespace ShardKV.Wildcard

inductive Item (τ : Type)
  | star
  | one (t : τ)
  deriving DecidableEq

variable {τ α : Type} {accepts : τ → α → Prop}

/-- The subject can be split along the pattern. -/
def Matches (accepts : τ → α → Prop) : List (Item τ) → List α → Prop
  | [], s => s = []
  | .star :: ts, s => ∃ run rest, s = run ++ rest ∧ Matches accepts ts rest
  | .one t :: ts, s => ∃ c rest, s = c :: rest ∧ accepts t c ∧ Matches accepts ts rest

variable {t : τ} {ts : List (Item τ)} {s : List α}

@[simp] theorem matches_nil : Matches accepts [] s ↔ s = [] := Iff.rfl

theorem matches_star_iff : Matches accepts (.star :: ts) s ↔ ∃ r, r <:+ s ∧ Matches accepts ts r := by
  constructor
  · rintro ⟨run, rest, rfl, h⟩
    exact ⟨rest, List.suffix_append run rest, h⟩
  · rintro ⟨rest, ⟨run, rfl⟩, h⟩
    exact ⟨run, rest, rfl, h⟩

@[simp] theorem matches_one_nil : ¬ Matches accepts (.one t :: ts) [] := by
  rintro ⟨c, rest, h, -⟩
  cases h

@[simp] theorem matches_one_cons {c : α} :
    Matches accepts (.one t :: ts) (c :: s) ↔ accepts t c ∧ Matches accepts ts s := by
  constructor
  · rintro ⟨c', rest, h, ht, hm⟩
    cases h
    exact ⟨ht, hm⟩
  · rintro ⟨ht, hm⟩
    exact ⟨c, s, rfl, ht, hm⟩

@[simp] theorem matches_star_nil : Matches accepts (.star :: ts) [] ↔ Matches accepts ts [] := by
  simp [matches_star_iff]

/-- A star takes nothing, or the first letter and then again some. -/
theorem matches_star_cons {c : α} :
    Matches accepts (.star :: ts) (c :: s) ↔
      Matches accepts ts (c :: s) ∨ Matches accepts (.star :: ts) s := by
  simp only [matches_star_iff, List.suffix_cons_iff]
  constructor
  · rintro ⟨r, rfl | hr, h⟩
    · exact .inl h
    · exact .inr ⟨r, hr, h⟩
  · rintro (h | ⟨r, hr, h⟩)
    · exact ⟨c :: s, .inl rfl, h⟩
    · exact ⟨r, .inr hr, h⟩

/-- What matches behind a star matches with more letters in front. -/
theorem matches_star_of_suffix {r : List α} (hr : r <:+ s) (h : Matches accepts (.star :: ts) r) :
    Matches accepts (.star :: ts) s := by
  obtain ⟨q, hq, hm⟩ := matches_star_iff.mp h
  exact matches_star_iff.mpr ⟨q, hq.trans hr, hm⟩

theorem matches_star_end : Matches accepts [.star] s :=
  matches_star_iff.mpr ⟨[], List.nil_suffix, rfl⟩

theorem matches_nil_right : Matches accepts ts [] ↔ ∀ i ∈ ts, i = .star := by
  induction ts with
  | nil => simp
  | cons i ts ih =>
    cases i with
    | star => simp [ih]
    | one t => simp

section Segments

variable {seg : List τ}

theorem matches_segment (h : Matches accepts (seg.map .one ++ ts) s) :
    ∃ w r, s = w ++ r ∧ w.length = seg.length ∧ Matches accepts ts r := by
  induction seg generalizing s with
  | nil => exact ⟨[], s, rfl, rfl, h⟩
  | cons t seg ih =>
    obtain ⟨c, rest, rfl, -, hm⟩ := h
    obtain ⟨w, r, rfl, hw, hr⟩ := ih hm
    exact ⟨c :: w, r, rfl, by simp [hw], hr⟩

/-- A segment found somewhere reaches the star behind it; finding it further on reaches no
more. -/
theorem matches_star_of_later {w r : List α} (hw : w.length = seg.length) (hr : r <:+ w ++ s)
    (h : Matches accepts (seg.map .one ++ .star :: ts) r) : Matches accepts (.star :: ts) s := by
  obtain ⟨w', r', rfl, hw', hm⟩ := matches_segment h
  have hlen := hr.length_le
  rw [List.length_append, List.length_append] at hlen
  have hsuf : r' <:+ w ++ s := (List.suffix_append w' r').trans hr
  have hin : r' <:+ s :=
    List.suffix_of_suffix_length_le hsuf (List.suffix_append w s) (by omega)
  exact matches_star_of_suffix hin hm

end Segments

/-- How many groups of adjacent stars a pattern has. -/
def starGroups : Bool → List (Item τ) → ℕ
  | _, [] => 0
  | prev, .star :: ts => (if prev then 0 else 1) + starGroups true ts
  | _, .one _ :: ts => starGroups false ts

end ShardKV.Wildcard
