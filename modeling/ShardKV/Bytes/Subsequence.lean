import Mathlib.Data.List.Basic
import Mathlib.Data.List.TakeDrop
import Mathlib.Order.Bounds.Basic
import Mathlib.Order.MinMax

/-! The lengths of the common subsequences of two lists, and how the greatest of them
grows when the lists do so at their ends. These are the three cases of the usual table. -/

namespace ShardKV.Subsequence

open scoped List

variable {α : Type} {xs ys : List α} {c d : α} {m n : ℕ}

/-- The lengths of the lists that are subsequences of both. -/
def commonLengths (xs ys : List α) : Set ℕ := {n | ∃ s : List α, s <+ xs ∧ s <+ ys ∧ s.length = n}

/-- A subsequence of an extended list leaves its last element out or ends with it. -/
theorem sublist_concat {s : List α} (h : s <+ xs ++ [c]) : s <+ xs ∨ ∃ t, s = t ++ [c] ∧ t <+ xs := by
  obtain ⟨t, u, rfl, ht, hu⟩ := List.sublist_append_iff.1 h
  rcases List.sublist_singleton.1 hu with rfl | rfl
  · exact .inl (by simpa using ht)
  · exact .inr ⟨t, rfl, ht⟩

theorem isGreatest_nil_left (ys : List α) : IsGreatest (commonLengths [] ys) 0 := by
  refine ⟨⟨[], List.Sublist.refl _, List.nil_sublist ys, rfl⟩, ?_⟩
  rintro n ⟨s, hs, -, rfl⟩
  rw [List.sublist_nil.1 hs]
  rfl

theorem isGreatest_comm (h : IsGreatest (commonLengths xs ys) n) : IsGreatest (commonLengths ys xs) n := by
  obtain ⟨⟨s, hxs, hys, hlen⟩, hub⟩ := h
  refine ⟨⟨s, hys, hxs, hlen⟩, ?_⟩
  rintro k ⟨t, hty, htx, hk⟩
  exact hub ⟨t, htx, hty, hk⟩

theorem isGreatest_nil_right (xs : List α) : IsGreatest (commonLengths xs []) 0 :=
  isGreatest_comm (isGreatest_nil_left xs)

theorem isGreatest_concat (c : α) (h : IsGreatest (commonLengths xs ys) n) :
    IsGreatest (commonLengths (xs ++ [c]) (ys ++ [c])) (n + 1) := by
  obtain ⟨⟨s, hxs, hys, hlen⟩, hub⟩ := h
  refine ⟨⟨s ++ [c], hxs.append_right [c], hys.append_right [c], by simp [hlen]⟩, ?_⟩
  rintro k ⟨t, htx, hty, rfl⟩
  -- without its last element, a common subsequence is one of the shorter lists
  have hdrop : t.dropLast <+ xs ∧ t.dropLast <+ ys := by
    constructor
    · rcases sublist_concat htx with h | ⟨u, rfl, hu⟩
      · exact (List.dropLast_sublist t).trans h
      · rwa [List.dropLast_concat]
    · rcases sublist_concat hty with h | ⟨u, rfl, hu⟩
      · exact (List.dropLast_sublist t).trans h
      · rwa [List.dropLast_concat]
  have hle : t.dropLast.length ≤ n := hub ⟨_, hdrop.1, hdrop.2, rfl⟩
  rw [List.length_dropLast] at hle
  omega

theorem isGreatest_concat_of_ne (hne : c ≠ d) (h : IsGreatest (commonLengths xs (ys ++ [d])) m)
    (h' : IsGreatest (commonLengths (xs ++ [c]) ys) n) :
    IsGreatest (commonLengths (xs ++ [c]) (ys ++ [d])) (max m n) := by
  obtain ⟨⟨s, hsx, hsy, hs⟩, hub⟩ := h
  obtain ⟨⟨t, htx, hty, ht⟩, hub'⟩ := h'
  constructor
  · rcases max_choice m n with hmax | hmax
    · exact ⟨s, hsx.trans (List.sublist_append_left _ _), hsy, hs.trans hmax.symm⟩
    · exact ⟨t, htx, hty.trans (List.sublist_append_left _ _), ht.trans hmax.symm⟩
  · rintro k ⟨u, hux, huy, rfl⟩
    rcases sublist_concat hux with hx | ⟨v, rfl, -⟩
    · exact (hub ⟨u, hx, huy, rfl⟩).trans (le_max_left m n)
    · rcases sublist_concat huy with hy | ⟨w, hvw, -⟩
      · exact (hub' ⟨_, hux, hy, rfl⟩).trans (le_max_right m n)
      · exact absurd (List.append_inj_right' hvw rfl) (by simpa using hne)

theorem le_length (h : IsGreatest (commonLengths xs ys) n) : n ≤ xs.length := by
  obtain ⟨⟨s, hxs, -, rfl⟩, -⟩ := h
  exact hxs.length_le

end ShardKV.Subsequence
