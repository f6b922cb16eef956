import ShardKV.Server.Maxmemory

/-! Which key an eviction takes. The sampler looks at the first candidates of a shard in
the order of the map and keeps the one of least rank, unless it comes upon a key that is
over. A rank is a 64-bit word: access times and counters are their own rank, a deadline
is ranked by its nanoseconds, which wrap around, and the greatest word is no rank at all. -/

namespace ShardKV.Server

open Checked

section Model

variable (p : EvictionPolicy) (o : Sampler)

/-- The candidates that a search of the shard looks at, if it is not cut short. -/
def Draw.sampled (d : Draw) (sh : Shard) : List Tracked :=
  ((d.order sh.items).filter p.mayEvict).take (max o.samples 1).toNat

/-- That one key is no worse a victim than another: its deadline is no later, or its last
access, or its decayed counter is no greater. -/
def EvictionPolicy.NoWorse (nowMs decay : ℤ) (e x : Tracked) : Prop :=
  match p with
  | .volatileTTL => ∀ t ∈ e.expireAt, ∀ u ∈ x.expireAt, t ≤ u
  | .allKeysLRU | .volatileLRU => e.atime ≤ x.atime
  | .allKeysLFU | .volatileLFU =>
    lfuCounter e.freq (lfuMinute nowMs) decay ≤ lfuCounter x.freq (lfuMinute nowMs) decay
  | _ => True

/-- The right victim is a key of the sample, and the best of it if none of it is over. -/
structure RightVictim (d : Draw) (sh : Shard) (e : Tracked) : Prop where
  sampled : e ∈ d.sampled p o sh
  best : (∀ x ∈ d.sampled p o sh, x.expired d.nowMs = false) →
    ∀ x ∈ d.sampled p o sh, p.NoWorse d.nowMs o.decay e x

/-- `EvictOne` does what it is for: it finds nothing only where there is nothing to evict,
and otherwise it removes the right victim of a shard and nothing else. -/
structure Database.EvictsRight (d : Draw) (db : Database) : Prop where
  complete : db.evictOne p o d = none → ∀ sh ∈ db, ∀ e ∈ sh.items, p.mayEvict e = false
  removes : ∀ db', db.evictOne p o d = some db' → ∃ i sh e, db[i]? = some sh ∧
    e ∈ sh.items ∧ p.mayEvict e = true ∧ db' = db.set i (sh.remove e.key) ∧
      sh.items.Perm (e :: (sh.remove e.key).items) ∧ RightVictim p o d sh e

/-- The words of the shard's live deadlines are in the order of the deadlines. -/
def Shard.WordsOrdered (nowMs : ℤ) (sh : Shard) : Prop :=
  ∀ e ∈ sh.items, ∀ x ∈ sh.items, ∀ t ∈ e.expireAt, ∀ u ∈ x.expireAt,
    nowMs < t → t < u → wrap (t * 1000000) < wrap (u * 1000000)

/-- If there is a key to evict, there is a shard with one in which no live key is passed
over. -/
def Database.Offers (nowMs : ℤ) (db : Database) : Prop :=
  (∃ sh ∈ db, ∃ e ∈ sh.items, p.mayEvict e = true) →
    ∃ sh ∈ db, (∃ e ∈ sh.items, p.mayEvict e = true) ∧
      ∀ e ∈ sh.items, p.passesOver e = true → e.expired nowMs = true

/-- A deadline that the expire commands accept: one that `deadlineMs` makes of an operand
in seconds or milliseconds. -/
def Accepted (t : ℤ) : Prop :=
  ∃ nowMs n unitMs rel, (unitMs = 1 ∨ unitMs = 1000) ∧ (minInt64 ≤ nowMs ∧ nowMs ≤ maxInt64) ∧
    (minInt64 ≤ n ∧ n ≤ maxInt64) ∧ deadlineMs nowMs n unitMs rel = some t

end Model

section Search

variable {p : EvictionPolicy} {o : Sampler} {nowMs : ℤ}

/-- What the search answers, from a best rank and victim so far: a key of the sample that
it takes on sight, or the victim so far if nothing of the sample ranks less, or the key of
the sample that does. -/
theorem pick_cases {best sampled : ℤ} {victim : Option Tracked} {l S : List Tracked}
    (hsampled : sampled < max o.samples 1)
    (hS : S = (l.filter p.mayEvict).take (max o.samples 1 - sampled).toNat) :
    (∃ e ∈ S, pick p o nowMs best victim sampled l = some e ∧ (e.expired nowMs || p.random) = true) ∨
      (∀ x ∈ S, (x.expired nowMs || p.random) = false) ∧
        (pick p o nowMs best victim sampled l = victim ∧
            (∀ x ∈ S, best ≤ p.rank (lfuMinute nowMs) o.decay x) ∨
          ∃ e ∈ S, pick p o nowMs best victim sampled l = some e ∧
            p.rank (lfuMinute nowMs) o.decay e < best ∧
            ∀ x ∈ S, p.rank (lfuMinute nowMs) o.decay e ≤ p.rank (lfuMinute nowMs) o.decay x) := by
  induction l generalizing best sampled victim S with
  | nil =>
    subst hS
    exact .inr ⟨by simp, .inl ⟨rfl, by simp⟩⟩
  | cons e l ih =>
    cases hmay : p.mayEvict e with
    | false =>
      rw [List.filter_cons_of_neg (by simp [hmay])] at hS
      rw [pick_skip hmay]
      exact ih hsampled hS
    | true =>
      obtain ⟨k, hk⟩ : ∃ k, (max o.samples 1 - sampled).toNat = k + 1 :=
        Nat.exists_eq_succ_of_ne_zero (by omega)
      rw [List.filter_cons_of_pos hmay, hk, List.take_succ_cons] at hS
      subst hS
      rw [pick_candidate hmay]
      have hfull (h : max o.samples 1 ≤ sampled + 1) : (l.filter p.mayEvict).take k = [] := by
        rw [show k = 0 by omega, List.take_zero]
      have hnext (h : ¬ max o.samples 1 ≤ sampled + 1) :
          (l.filter p.mayEvict).take k =
            (l.filter p.mayEvict).take (max o.samples 1 - (sampled + 1)).toNat := by
        rw [show (max o.samples 1 - (sampled + 1)).toNat = k by omega]
      simp only [List.forall_mem_cons, List.exists_mem_cons_iff]
      split_ifs with htake hless hdone hdone
      · exact .inl (.inl ⟨rfl, htake⟩)
      · rw [hfull hdone]
        exact .inr ⟨⟨Bool.eq_false_iff.mpr htake, by simp⟩,
          .inr (.inl ⟨rfl, hless, le_rfl, by simp⟩)⟩
      · have hlive := Bool.eq_false_iff.mpr htake
        rcases ih (by omega) (hnext hdone) with
          h | ⟨hall, ⟨hpick, hleast⟩ | ⟨x, hx, hpick, hlt, hleast⟩⟩
        · exact .inl (.inr h)
        · exact .inr ⟨⟨hlive, hall⟩, .inr (.inl ⟨hpick, hless, le_rfl, hleast⟩)⟩
        · exact .inr ⟨⟨hlive, hall⟩, .inr (.inr ⟨x, hx, hpick, hlt.trans hless, hlt.le, hleast⟩)⟩
      · rw [hfull hdone]
        exact .inr ⟨⟨Bool.eq_false_iff.mpr htake, by simp⟩, .inl ⟨rfl, not_lt.mp hless, by simp⟩⟩
      · have hlive := Bool.eq_false_iff.mpr htake
        rcases ih (by omega) (hnext hdone) with
          h | ⟨hall, ⟨hpick, hleast⟩ | ⟨x, hx, hpick, hlt, hleast⟩⟩
        · exact .inl (.inr h)
        · exact .inr ⟨⟨hlive, hall⟩, .inl ⟨hpick, not_lt.mp hless, hleast⟩⟩
        · exact .inr ⟨⟨hlive, hall⟩, .inr (.inr ⟨x, hx, hpick, hlt,
            hlt.le.trans (not_lt.mp hless), hleast⟩)⟩

end Search

section Shards

variable {p : EvictionPolicy} {o : Sampler} {d : Draw} {sh : Shard}

theorem Draw.mem_sampled {x : Tracked} (h : x ∈ d.sampled p o sh) :
    x ∈ sh.items ∧ p.mayEvict x = true := by
  obtain ⟨hmem, hmay⟩ := List.mem_filter.mp (List.mem_of_mem_take h)
  exact ⟨(d.perm sh.items).mem_iff.mp hmem, hmay⟩

theorem Draw.sampled_ne_nil (h : ∃ e ∈ sh.items, p.mayEvict e = true) : d.sampled p o sh ≠ [] := by
  obtain ⟨e, he, hmay⟩ := h
  have hmem : e ∈ (d.order sh.items).filter p.mayEvict :=
    List.mem_filter.mpr ⟨(d.perm sh.items).mem_iff.mpr he, hmay⟩
  unfold Draw.sampled
  rw [Ne, List.take_eq_nil_iff, not_or]
  exact ⟨by omega, List.ne_nil_of_mem hmem⟩

/-- The cases of the search, for a shard with a candidate. -/
theorem Shard.pickVictim_cases (h : ∃ e ∈ sh.items, p.mayEvict e = true) :
    (∃ e ∈ d.sampled p o sh, sh.pickVictim p o d = some e ∧
        (e.expired d.nowMs || p.random) = true) ∨
      (∀ x ∈ d.sampled p o sh, (x.expired d.nowMs || p.random) = false) ∧
        (sh.pickVictim p o d = none ∧
            (∀ x ∈ d.sampled p o sh, maxInt64 ≤ p.rank (lfuMinute d.nowMs) o.decay x) ∨
          ∃ e ∈ d.sampled p o sh, sh.pickVictim p o d = some e ∧
            p.rank (lfuMinute d.nowMs) o.decay e < maxInt64 ∧
            ∀ x ∈ d.sampled p o sh,
              p.rank (lfuMinute d.nowMs) o.decay e ≤ p.rank (lfuMinute d.nowMs) o.decay x) := by
  rw [Shard.pickVictim_eq_pick (List.countP_pos_iff.mpr h)]
  exact pick_cases (by omega) (by rw [sub_zero]; rfl)

/-- A shard without a candidate yields no victim. -/
theorem Shard.exists_of_pickVictim (hev : p.evicts = true) {e : Tracked}
    (h : sh.pickVictim p o d = some e) : ∃ x ∈ sh.items, p.mayEvict x = true := by
  by_contra hnone
  push Not at hnone
  have hrest : ∀ x ∈ d.order sh.items, p.mayEvict x = false := fun x hx =>
    Bool.eq_false_iff.mpr (hnone x ((d.perm sh.items).mem_iff.mp hx))
  have hsearch : pick p o d.nowMs maxInt64 none 0 ([] ++ d.order sh.items) = none :=
    pick_passed_first hev (by simp) (.inl hrest) (by omega)
  unfold Shard.pickVictim at h
  split_ifs at h
  rw [← List.nil_append (d.order sh.items), hsearch] at h
  cases h

/-- Where no live key is passed over, a shard with a candidate yields a victim. -/
theorem Shard.pickVictim_ne_none (hev : p.evicts = true) (h : ∃ e ∈ sh.items, p.mayEvict e = true)
    (hpass : ∀ e ∈ sh.items, p.passesOver e = true → e.expired d.nowMs = true) :
    sh.pickVictim p o d ≠ none := by
  intro hnone
  rcases Shard.pickVictim_cases (o := o) (d := d) h with
    ⟨e, -, hpick, -⟩ | ⟨hlive, ⟨-, hall⟩ | ⟨e, -, hpick, -⟩⟩
  · rw [hnone] at hpick
    cases hpick
  · obtain ⟨x, hx⟩ := List.exists_mem_of_ne_nil _ (Draw.sampled_ne_nil (o := o) (d := d) h)
    obtain ⟨hmem, hmay⟩ := Draw.mem_sampled hx
    obtain ⟨hexp, hrandom⟩ := Bool.or_eq_false_iff.mp (hlive x hx)
    have hover : p.passesOver x = true := by
      by_contra hover
      have hlt := (rank_lt_iff hmay hrandom hev (lfuMinute d.nowMs) o.decay).mpr
        (Bool.eq_false_iff.mpr hover)
      exact absurd (hall x hx) (not_le.mpr hlt)
    rw [hpass x hmem hover] at hexp
    cases hexp
  · rw [hnone] at hpick
    cases hpick

theorem mayEvict_of_deadline {e : Tracked} {t : ℤ} (h : t ∈ e.expireAt) : p.mayEvict e = true := by
  rw [EvictionPolicy.mayEvict, Option.mem_def.mp h, Option.isSome_some, Bool.or_true]

theorem expired_eq_false {e : Tracked} {t nowMs : ℤ} (h : t ∈ e.expireAt) :
    e.expired nowMs = false ↔ nowMs < t := by
  rw [Tracked.expired, Option.mem_def.mp h, Option.any_some, decide_eq_false_iff_not, not_le]

theorem rank_of_deadline {e : Tracked} {t : ℤ} (h : t ∈ e.expireAt) (minute : ℕ) (decay : ℤ) :
    EvictionPolicy.rank .volatileTTL minute decay e = wrap (t * 1000000) := by
  rw [EvictionPolicy.rank, Option.mem_def.mp h, Option.getD_some]

/-- A key of least rank is no worse a victim than the rest of the sample, for deadlines if
their words are in order. -/
theorem noWorse_of_rank_le {nowMs decay : ℤ} {e x : Tracked}
    (hwords : p = .volatileTTL → sh.WordsOrdered nowMs) (he : e ∈ sh.items) (hx : x ∈ sh.items)
    (hlive : x.expired nowMs = false)
    (h : p.rank (lfuMinute nowMs) decay e ≤ p.rank (lfuMinute nowMs) decay x) :
    p.NoWorse nowMs decay e x := by
  cases p with
  | noEviction | allKeysRandom | volatileRandom => trivial
  | allKeysLRU | volatileLRU | allKeysLFU | volatileLFU => exact h
  | volatileTTL =>
    intro t ht u hu
    by_contra hlt
    have hword := hwords rfl x hx e he u hu t ht ((expired_eq_false hu).mp hlive) (not_le.mp hlt)
    rw [rank_of_deadline ht, rank_of_deadline hu] at h
    exact absurd h (not_le.mpr hword)

theorem Shard.rightVictim (hev : p.evicts = true) {e : Tracked} (h : sh.pickVictim p o d = some e)
    (hwords : p = .volatileTTL → sh.WordsOrdered d.nowMs) : RightVictim p o d sh e := by
  rcases Shard.pickVictim_cases (o := o) (d := d) (Shard.exists_of_pickVictim hev h) with
    ⟨x, hx, hpick, htake⟩ | ⟨hlive, ⟨hpick, -⟩ | ⟨x, hx, hpick, -, hleast⟩⟩
  · obtain rfl : x = e := Option.some.inj (hpick.symm.trans h)
    refine ⟨hx, fun hall y _ => ?_⟩
    rw [hall x hx, Bool.false_or] at htake
    cases p with
    | allKeysRandom | volatileRandom => trivial
    | noEviction | allKeysLRU | volatileLRU | allKeysLFU | volatileLFU | volatileTTL => cases htake
  · rw [hpick] at h
    cases h
  · obtain rfl : x = e := Option.some.inj (hpick.symm.trans h)
    exact ⟨hx, fun hall y hy => noWorse_of_rank_le hwords (Draw.mem_sampled hx).1
      (Draw.mem_sampled hy).1 (hall y hy) (hleast y hy)⟩

/-- Removing a key removes that key and no other. -/
theorem Shard.perm_remove {e : Tracked} (h : e ∈ sh.items) :
    sh.items.Perm (e :: (sh.remove e.key).items) := by
  obtain ⟨s, t, hsplit⟩ := List.append_of_mem h
  have hnodup := sh.nodup
  rw [hsplit, List.map_append, List.map_cons, List.nodup_middle, List.nodup_cons,
    ← List.map_append] at hnodup
  have hkeep : (s ++ t).filter (fun x => decide (x.key ≠ e.key)) = s ++ t :=
    List.filter_eq_self.mpr fun x hx => decide_eq_true fun hkey =>
      hnodup.1 (hkey ▸ List.mem_map_of_mem hx)
  have hremove : (sh.remove e.key).items = s ++ t := by
    change sh.items.filter (fun x => decide (x.key ≠ e.key)) = s ++ t
    rw [← hkeep, hsplit, List.filter_append, List.filter_append, List.filter_cons_of_neg (by simp)]
  rw [hremove, hsplit]
  exact List.perm_middle

theorem Shard.eq_of_remove_eq {e x : Tracked} (he : e ∈ sh.items) (hx : x ∈ sh.items)
    (h : sh.remove e.key = sh.remove x.key) : e = x := by
  have hgone : e ∉ (sh.remove x.key).items := by
    rw [← h]
    simp [Shard.remove]
  have hkey : e.key = x.key := by
    by_contra hne
    exact hgone (List.mem_filter.mpr ⟨he, decide_eq_true hne⟩)
  exact List.inj_on_of_nodup_map sh.nodup he hx hkey

end Shards

section Databases

variable {p : EvictionPolicy} {o : Sampler} {d : Draw} {db : Database} {nowMs : ℤ}

namespace Database

theorem evictFrom_eq_some {visits : List ℕ} {db' : Database}
    (h : evictFrom p o d db visits = some db') : ∃ i sh e, db[i]? = some sh ∧
      sh.pickVictim p o d = some e ∧ db' = db.set i (sh.remove e.key) := by
  induction visits with
  | nil => cases h
  | cons i rest ih =>
    rw [evictFrom] at h
    cases hi : db[i]? with
    | none =>
      rw [hi] at h
      exact ih h
    | some sh =>
      rw [hi] at h
      cases hv : sh.pickVictim p o d with
      | none =>
        simp only [hv] at h
        exact ih h
      | some e =>
        simp only [hv, Option.some.injEq] at h
        exact ⟨i, sh, e, hi, hv, h.symm⟩

/-- The shard and the victim can be read off the outcome. -/
theorem set_remove_inj {i j : ℕ} {sh sh' : Shard} {e e' : Tracked} (hi : db[i]? = some sh)
    (hj : db[j]? = some sh') (he : e ∈ sh.items) (he' : e' ∈ sh'.items)
    (h : db.set i (sh.remove e.key) = db.set j (sh'.remove e'.key)) : i = j ∧ sh = sh' ∧ e = e' := by
  have hlt : i < db.length := (List.getElem?_eq_some_iff.mp hi).1
  have hget := congrArg (fun l : Database => l[i]?) h
  simp only [List.getElem?_set_self hlt] at hget
  by_cases hij : j = i
  · subst hij
    obtain rfl : sh = sh' := Option.some.inj (hi.symm.trans hj)
    rw [List.getElem?_set_self hlt] at hget
    exact ⟨rfl, rfl, Shard.eq_of_remove_eq he he' (Option.some.inj hget)⟩
  · rw [List.getElem?_set_ne hij, hi] at hget
    have hlen := Shard.remove_length he
    rw [Option.some.inj hget] at hlen
    exact absurd hlen (lt_irrefl _)

/-- The shard that the search starts with is the one a victim is taken from, if it has one. -/
theorem evictOne_start (hev : p.evicts = true) {sh : Shard} {e : Tracked}
    (hi : db[d.start]? = some sh) (hv : sh.pickVictim p o d = some e) :
    db.evictOne p o d = some (db.set d.start (sh.remove e.key)) := by
  have hlt : d.start < db.length := (List.getElem?_eq_some_iff.mp hi).1
  obtain ⟨n, hn⟩ : ∃ n, db.length = n + 1 := Nat.exists_eq_succ_of_ne_zero (by omega)
  unfold evictOne
  rw [hev, if_neg (by simp), hn, List.range_succ_eq_map, List.map_cons, add_zero, ← hn,
    Nat.mod_eq_of_lt hlt, evictFrom, hi]
  simp only [hv]

theorem evictsRight (hev : p.evicts = true) (hoffers : db.Offers p d.nowMs)
    (hwords : p = .volatileTTL → ∀ sh ∈ db, sh.WordsOrdered d.nowMs) : db.EvictsRight p o d where
  complete := by
    intro hnone sh hsh e he
    by_contra hmay
    obtain ⟨sh', hsh', hcandidate, hpass⟩ :=
      hoffers ⟨sh, hsh, e, he, Bool.eq_true_of_not_eq_false hmay⟩
    exact Shard.pickVictim_ne_none hev hcandidate hpass ((evictOne_eq_none hev).mp hnone sh' hsh')
  removes := by
    intro db' hsome
    unfold evictOne at hsome
    split_ifs at hsome
    obtain ⟨i, sh, e, hi, hv, hdb'⟩ := evictFrom_eq_some hsome
    have hright := Shard.rightVictim hev hv fun hp => hwords hp sh (List.mem_of_getElem? hi)
    obtain ⟨hmem, hmay⟩ := Draw.mem_sampled hright.sampled
    exact ⟨i, sh, e, hi, hmem, hmay, hdb', Shard.perm_remove hmem, hright⟩

end Database

end Databases

/-! ### Draws that show the condition -/

section Draws

variable {p : EvictionPolicy} {db : Database} {nowMs : ℤ}

/-- The draw that puts some keys of every shard in front of the others. -/
def Draw.front (nowMs : ℤ) (q : Tracked → Bool) : Draw where
  nowMs := nowMs
  start := 0
  order l := l.filter q ++ l.filter fun e => !q e
  perm l := List.filter_append_perm _ l

open Classical in
/-- The draw that starts with a shard and walks its keys in a given order. -/
noncomputable def Draw.walking (nowMs : ℤ) (start : ℕ) {l walk : List Tracked} (h : walk.Perm l) :
    Draw where
  nowMs := nowMs
  start := start
  order k := if k = l then walk else k
  perm k := by
    split_ifs with hk
    · exact hk ▸ h
    · exact .refl k

theorem Draw.walking_order {start : ℕ} {l walk : List Tracked} (h : walk.Perm l) :
    (Draw.walking nowMs start h).order l = walk := if_pos rfl

namespace Database

/-- One sample, and the keys that are passed over in front. -/
theorem offers_of_evictsRight (hev : p.evicts = true)
    (hright : ∀ o d, d.nowMs = nowMs → db.EvictsRight p o d) : db.Offers p nowMs := by
  rintro ⟨sh, hsh, e, he, hmay⟩
  by_contra hnone
  push Not at hnone
  let q (x : Tracked) : Bool := p.passesOver x && !x.expired nowMs
  have hfail : db.evictOne p ⟨1, 0⟩ (Draw.front nowMs q) = none := by
    refine (evictOne_eq_none hev).mpr fun sh hsh => ?_
    unfold Shard.pickVictim
    split_ifs
    · rfl
    · rfl
    · refine pick_passed_first hev (fun x hx => ?_) ?_ (by decide)
      · obtain ⟨hpass, hlive⟩ := Bool.and_eq_true_iff.mp (List.mem_filter.mp hx).2
        have hlive : x.expired nowMs = false := by simpa using hlive
        exact ⟨hpass, hlive⟩
      · by_cases hcandidate : ∃ x ∈ sh.items, p.mayEvict x = true
        · obtain ⟨x, hx, hpass, hlive⟩ := hnone sh hsh hcandidate
          have hpos : 0 < (sh.items.filter q).length :=
            List.length_pos_of_mem (List.mem_filter.mpr ⟨hx, by simp [q, hpass, hlive]⟩)
          right
          simp only [max_self]
          omega
        · push Not at hcandidate
          exact .inl fun x hx => Bool.eq_false_iff.mpr (hcandidate x (List.mem_filter.mp hx).1)
  have hno := (hright ⟨1, 0⟩ (Draw.front nowMs q) rfl).complete hfail sh hsh e he
  rw [hmay] at hno
  cases hno

theorem exists_perm_pair {l : List Tracked} {e x : Tracked} (he : e ∈ l) (hx : x ∈ l) (hne : e ≠ x) :
    ∃ rest, (x :: e :: rest).Perm l := by
  obtain ⟨s, t, rfl⟩ := List.append_of_mem hx
  have hmem : e ∈ s ++ t := by
    simpa [hne] using he
  obtain ⟨s', t', hst⟩ := List.append_of_mem hmem
  refine ⟨s' ++ t', .trans (.cons x ?_) List.perm_middle.symm⟩
  rw [hst]
  exact List.perm_middle.symm

/-- Of two samples, the first stays the victim if the second does not rank less. -/
theorem pickVictim_pair {sh : Shard} {d : Draw} {e x : Tracked} {rest : List Tracked}
    (horder : d.order sh.items = x :: e :: rest) (hxmay : p.mayEvict x = true)
    (hemay : p.mayEvict e = true) (hxlive : (x.expired d.nowMs || p.random) = false)
    (helive : (e.expired d.nowMs || p.random) = false)
    (hxrank : p.rank (lfuMinute d.nowMs) 0 x < maxInt64)
    (herank : ¬ p.rank (lfuMinute d.nowMs) 0 e < p.rank (lfuMinute d.nowMs) 0 x) :
    sh.pickVictim p ⟨2, 0⟩ d = some x := by
  have hx : x ∈ sh.items := (d.perm sh.items).mem_iff.mp (horder ▸ List.mem_cons_self)
  rw [Shard.pickVictim_eq_pick (List.countP_pos_iff.mpr ⟨x, hx, hxmay⟩), horder, pick_candidate hxmay,
    hxlive, if_neg Bool.false_ne_true, if_pos hxrank, if_neg (by decide), pick_candidate hemay, helive,
    if_neg Bool.false_ne_true, if_neg herank, if_pos (by decide)]

/-- Two samples, and the later deadline in front of the earlier one. -/
theorem wordsOrdered_of_evictsRight
    (hright : ∀ o d, d.nowMs = nowMs → db.EvictsRight .volatileTTL o d) {sh : Shard} (hsh : sh ∈ db) :
    sh.WordsOrdered nowMs := by
  intro e he x hx t ht u hu hnow htu
  by_contra hword
  have hne : e ≠ x := by
    rintro rfl
    have := Option.some.inj (ht.symm.trans hu)
    omega
  obtain ⟨i, hlt, hi⟩ := List.getElem_of_mem hsh
  have hi : db[i]? = some sh := List.getElem?_eq_some_iff.mpr ⟨hlt, hi⟩
  obtain ⟨rest, hperm⟩ := exists_perm_pair he hx hne
  have horder : (Draw.walking nowMs i hperm).order sh.items = x :: e :: rest := Draw.walking_order hperm
  have hlive := (expired_eq_false ht).mpr hnow
  have hlive' := (expired_eq_false hu).mpr (hnow.trans htu)
  have hpick : sh.pickVictim .volatileTTL ⟨2, 0⟩ (Draw.walking nowMs i hperm) = some x := by
    refine pickVictim_pair horder (mayEvict_of_deadline hu) (mayEvict_of_deadline ht)
      (Bool.or_eq_false_iff.mpr ⟨hlive', rfl⟩) (Bool.or_eq_false_iff.mpr ⟨hlive, rfl⟩) ?_ ?_
    · exact wrap_even_lt _
    · rw [rank_of_deadline ht, rank_of_deadline hu]
      exact hword
  obtain ⟨j, sh', e', hj, he', -, hset, -, hvictim⟩ :=
    (hright ⟨2, 0⟩ (Draw.walking nowMs i hperm) rfl).removes _ (evictOne_start rfl hi hpick)
  obtain ⟨rfl, rfl, rfl⟩ := set_remove_inj hi hj hx he' hset
  -- the victim is the later of the two, and the sample is the two
  have hsampled : (Draw.walking nowMs i hperm).sampled .volatileTTL ⟨2, 0⟩ sh = [x, e] := by
    rw [Draw.sampled, horder, List.filter_cons_of_pos (mayEvict_of_deadline hu),
      List.filter_cons_of_pos (mayEvict_of_deadline ht)]
    rfl
  have hbest := hvictim.best
  simp only [hsampled, List.forall_mem_cons] at hbest
  have hle := (hbest ⟨hlive', hlive, by simp⟩).2.1 u hu t ht
  omega

end Database

end Draws

/-- Evictions at a time are right, for every sample size, decay time, start and order of
the maps, exactly when there is a shard to evict from in which no live key has the
greatest word for its access time under an LRU policy, and under volatile-ttl the words of
the live deadlines of each shard are in the order of the deadlines. -/
theorem evictions_right_iff {p : EvictionPolicy} (hev : p.evicts = true) (db : Database) (nowMs : ℤ) :
    (∀ o d, d.nowMs = nowMs → db.EvictsRight p o d) ↔
      db.Offers p nowMs ∧ (p = .volatileTTL → ∀ sh ∈ db, sh.WordsOrdered nowMs) := by
  constructor
  · intro hright
    refine ⟨Database.offers_of_evictsRight hev hright, ?_⟩
    rintro rfl sh hsh
    exact Database.wordsOrdered_of_evictsRight hright hsh
  · rintro ⟨hoffers, hwords⟩ o d rfl
    exact Database.evictsRight hev hoffers hwords

/-- Deadlines that are nanoseconds in a word are in order. -/
theorem Shard.wordsOrdered_of_range {sh : Shard} (nowMs : ℤ)
    (h : ∀ e ∈ sh.items, ∀ t ∈ e.expireAt, -2 ^ 63 ≤ t * 1000000 ∧ t * 1000000 < 2 ^ 63) :
    sh.WordsOrdered nowMs := by
  intro e he x hx t ht u hu _ htu
  obtain ⟨hlo, hhi⟩ := h e he t ht
  obtain ⟨hlo', hhi'⟩ := h x hx u hu
  rw [wrap_of_range hlo hhi, wrap_of_range hlo' hhi']
  omega

/-- Only an LRU policy passes keys over. -/
theorem Database.offers_of_not_lru {p : EvictionPolicy} (hp : p.lru = false) (db : Database)
    (nowMs : ℤ) : db.Offers p nowMs := by
  rintro ⟨sh, hsh, hcandidate⟩
  refine ⟨sh, hsh, hcandidate, fun e _ hpass => ?_⟩
  rw [EvictionPolicy.passesOver, hp, Bool.false_and, Bool.and_false] at hpass
  cases hpass

theorem due_charged : 0 < 100 := by decide

theorem due_atime : (0 : ℤ) ≤ maxInt64 := by decide

def dueAt (key : Bytes) (t : ℤ) : Tracked := ⟨key, 100, some t, 0, 0, due_charged, due_atime⟩

theorem dueAt_nodup (t u : ℤ) : ([dueAt (ascii "a") t, dueAt (ascii "b") u].map Tracked.key).Nodup := by
  change [ascii "a", ascii "b"].Nodup
  decide

/-- One shard with two keys and their deadlines. -/
def twoDeadlines (t u : ℤ) : Database :=
  [⟨[dueAt (ascii "a") t, dueAt (ascii "b") u], dueAt_nodup t u⟩]

theorem near_deadlines_evicted_right : EvictionPolicy.evicts .volatileTTL = true ∧
    ∀ o d, d.nowMs = 1700000000000 →
      (twoDeadlines 2000000000000 3000000000000).EvictsRight .volatileTTL o d := by
  refine ⟨rfl, (evictions_right_iff rfl _ _).mpr
    ⟨Database.offers_of_not_lru rfl _ _, fun _ sh hsh => ?_⟩⟩
  obtain rfl := List.mem_singleton.mp hsh
  refine Shard.wordsOrdered_of_range _ ?_
  decide

/-- Of a deadline in the year 2033 and one in 2286, whose nanoseconds do not fit a word, the
later one is evicted. -/
theorem later_deadline_evicted :
    ¬ ∀ (p : EvictionPolicy) (o : Sampler) (d : Draw) (db : Database), p.evicts = true →
      (∀ sh ∈ db, ∀ e ∈ sh.items, ∀ t ∈ e.expireAt, Accepted t) → db.EvictsRight p o d := by
  intro hall
  have haccepted (t : ℤ) (h : minInt64 ≤ t ∧ t ≤ maxInt64) : Accepted t :=
    ⟨0, t, 1, false, .inl rfl, by decide, h, deadlineMs_absolute 0 t⟩
  have hwords : ∀ sh ∈ twoDeadlines 2000000000000 10000000000000, sh.WordsOrdered 1700000000000 := by
    intro sh hsh
    refine Database.wordsOrdered_of_evictsRight (fun o d _ => hall _ o d _ rfl ?_) hsh
    simp only [twoDeadlines, dueAt, List.forall_mem_cons, List.not_mem_nil, false_imp_iff, implies_true,
      and_true, Option.mem_def, Option.some.injEq, forall_eq']
    exact ⟨haccepted _ (by decide), haccepted _ (by decide)⟩
  have hword := hwords _ List.mem_cons_self _ List.mem_cons_self _
    (List.mem_cons_of_mem _ List.mem_cons_self) _ rfl _ rfl (by decide) (by decide)
  revert hword
  decide

end ShardKV.Server
