import ShardKV.Cluster.Slots

/-! SORT in cluster mode. The keys that a BY or GET pattern names come out of the data, so
the command is let through when the pattern's hash tag belongs to the slot of the sorted
key. The check reads the tag off the pattern, while the slot belongs to the expanded
key: the two agree when the tag is closed before the star. -/

namespace ShardKV.Cluster

open Access Data Resp Server

/-- What SORT's options say about the keys it consults. -/
structure SortSpec where
  byPattern : Bytes
  hasBy : Bool
  dontsort : Bool
  getPattern : List Bytes
  deriving DecidableEq

/-- `patternSlot`: the slot of the first pair of braces, or -1. -/
def patternSlot (pattern : Bytes) : ℤ :=
  match scanFor 0x7b 0 pattern with
  | none => -1
  | some start =>
    match scanFor 0x7d 0 (pattern.drop (start + 1)) with
    | none => -1
    | some stop =>
      if stop = 0 then -1 else scanSlot ((pattern.drop start).take (stop + 2))

def sortByDenied : String :=
  "ERR BY option of SORT denied in Cluster mode when keys formed by the pattern may be in different slots."

def sortGetDenied : String :=
  "ERR GET option of SORT denied in Cluster mode when keys formed by the pattern may be in different slots."

/-- `sortClusterCheck`: the refusal, if there is one. -/
def sortClusterCheck (key : Bytes) (spec : SortSpec) : Option String :=
  let slot : ℤ := scanSlot key
  if spec.hasBy && !spec.dontsort && patternSlot spec.byPattern != slot then some sortByDenied
  else if spec.getPattern.any fun p => p != ascii "#" && patternSlot p != slot then some sortGetDenied
  else none

/-- `strings.Index` of the arrow, counted from `i`. -/
def scanArrow : ℕ → Bytes → Option ℕ
  | _, [] => none
  | i, b :: bs => if (ascii "->").isPrefixOf (b :: bs) then some i else scanArrow (i + 1) bs

/-- The key that a pattern names for an element, and the field of it if the pattern has
one. -/
def expand (pattern elem : Bytes) : Option (Bytes × Option Bytes) :=
  match scanFor 42 0 pattern with
  | none => none
  | some star =>
    match scanArrow 0 (pattern.drop star) with
    | some (idx + 1) =>
      some (pattern.take star ++ elem ++ (pattern.drop (star + 1)).take idx,
        some (pattern.drop (star + (idx + 1) + 2)))
    | _ => some (pattern.take star ++ elem ++ pattern.drop (star + 1), none)

variable {S : Type} [LinearOrder S]

/-- `GetString`, for which a value of another kind is none. -/
def getString (k : Loc) : Op S (Option Bytes) :=
  .read k fun
    | some ⟨.str b, _⟩ => pure (some b)
    | _ => pure none

/-- `HGet`, likewise. -/
def hashField (k : Loc) (field : Bytes) : Op S (Option Bytes) :=
  .read k fun
    | some ⟨.hash h, _⟩ => pure (h.lookup field)
    | _ => pure none

def lookupByPattern (v : View) (pattern elem : Bytes) : Op S (Option Bytes) :=
  match expand pattern elem with
  | none => pure none
  | some (key, some field) => hashField (v.loc key) field
  | some (key, none) => getString (v.loc key)

def lookupGetPattern (v : View) (pattern elem : Bytes) : Op S (Option Bytes) :=
  if pattern = ascii "#" then pure (some elem) else lookupByPattern v pattern elem

/-- The patterns that `sortElements` and the reply hand to `lookupByPattern`. -/
def SortSpec.consulted (spec : SortSpec) : List Bytes :=
  (if spec.hasBy && !spec.dontsort then [spec.byPattern] else []) ++
    spec.getPattern.filter (· ≠ ascii "#")

/-- The keys of this database in the slot of a key. -/
def slotOf (v : View) (key : Bytes) : Set Loc := {k | k.1 = v.db ∧ scanSlot k.2 = scanSlot key}

/-- Whatever the elements are, a pattern with a star names keys of the slot only. -/
def StaysInSlot (S : Type) [LinearOrder S] (v : View) (key : Bytes) (spec : SortSpec) : Prop :=
  ∀ p ∈ spec.consulted, 42 ∈ p → ∀ elem,
    (lookupByPattern v p elem : Op S (Option Bytes)).ReadsIn (slotOf v key)

/-- The first pair of braces has something in it and is closed before the first star. -/
def TagBeforeStar (pattern : Bytes) : Prop :=
  ∃ pre tag post, pattern = pre ++ 0x7b :: (tag ++ 0x7d :: post) ∧ 0x7b ∉ pre ∧ 0x7d ∉ tag ∧
    tag ≠ [] ∧ 42 ∉ pre ∧ 42 ∉ tag

/-- A pattern puts the element where its star is, and what follows does not depend on the
element. -/
theorem expand_star {pre post : Bytes} (h : 42 ∉ pre) :
    ∃ rest field, rest <+: post ∧
      ∀ elem, expand (pre ++ 42 :: post) elem = some (pre ++ elem ++ rest, field) := by
  have hstar : scanFor 42 0 (pre ++ 42 :: post) = some pre.length := by
    rw [scanFor_append h, Nat.zero_add]
  have htake : (pre ++ 42 :: post).take pre.length = pre := List.take_left
  have hdrop : (pre ++ 42 :: post).drop (pre.length + 1) = post := by simp [List.drop_append]
  cases harrow : scanArrow 0 ((pre ++ 42 :: post).drop pre.length) with
  | none =>
    refine ⟨post, none, List.prefix_refl _, fun elem => ?_⟩
    simp only [expand, hstar, harrow, htake, hdrop]
  | some i =>
    cases i with
    | zero =>
      refine ⟨post, none, List.prefix_refl _, fun elem => ?_⟩
      simp only [expand, hstar, harrow, htake, hdrop]
    | succ idx =>
      refine ⟨post.take idx, some ((pre ++ 42 :: post).drop (pre.length + (idx + 1) + 2)),
        List.take_prefix _ _, fun elem => ?_⟩
      simp only [expand, hstar, harrow, htake, hdrop]

theorem readsIn_lookup {v : View} {pattern elem key : Bytes} {field : Option Bytes} {L : Set Loc}
    (h : expand pattern elem = some (key, field)) :
    (lookupByPattern v pattern elem : Op S (Option Bytes)).ReadsIn L ↔ v.loc key ∈ L := by
  have hnext (next : Option (Entry S) → Op S (Option Bytes)) (hret : ∀ e, ∃ a, next e = .ret a) :
      (Prog.read (v.loc key) next).ReadsIn L ↔ v.loc key ∈ L := by
    refine and_iff_left fun e => ?_
    obtain ⟨a, ha⟩ := hret e
    rw [ha]
    trivial
  rw [lookupByPattern, h]
  cases field with
  | none =>
    refine hnext _ fun e => ?_
    split <;> exact ⟨_, rfl⟩
  | some f =>
    refine hnext _ fun e => ?_
    split <;> exact ⟨_, rfl⟩

theorem crc16_append (b : Bytes) (c : UInt8) :
    crc16 (b ++ [c]) = (crc16 b <<< 8) ^^^ crc16Table ((crc16 b >>> 8).toUInt8 ^^^ c) := by
  simp [crc16]

theorem crc16Table_xor (i j : UInt8) : crc16Table (i ^^^ j) = crc16Table i ^^^ crc16Table j := by
  apply UInt16.toBitVec_inj.mp
  rw [UInt16.toBitVec_xor, crc16Table_toBitVec, crc16Table_toBitVec, crc16Table_toBitVec,
    ← Crc.iterate_shift_xor, UInt8.toBitVec_xor, BitVec.setWidth_xor, BitVec.shiftLeft_xor_distrib]

/-- Two tags that differ in their last byte, which is `a` in one and `b` in the other, are in
different slots. -/
theorem serial_concat_ne (b : Bytes) :
    (serialCRC16 (b ++ [97])).toNat % 16384 ≠ (serialCRC16 (b ++ [98])).toNat % 16384 := by
  intro h
  rw [← crc16_toBitVec, ← crc16_toBitVec, ← and_slots, ← and_slots, UInt16.toNat_inj, crc16_append,
    crc16_append, crc16Table_xor, crc16Table_xor, ← UInt16.xor_assoc, ← UInt16.xor_assoc] at h
  -- the table's words for the two bytes differ in their lowest bit
  have hbit := congrArg (fun c : UInt16 => c.toBitVec.getLsbD 0) h
  simp only [UInt16.toBitVec_and, UInt16.toBitVec_xor, BitVec.getLsbD_and, BitVec.getLsbD_xor] at hbit
  have ha : (crc16Table 97).toBitVec.getLsbD 0 = true := by decide
  have hb : (crc16Table 98).toBitVec.getLsbD 0 = false := by decide
  have hm : (16383 : UInt16).toBitVec.getLsbD 0 = true := by decide
  rw [ha, hb, hm] at hbit
  simp at hbit

/-- The slot that the check reads off a pattern. -/
theorem patternSlot_braced {pattern tag : Bytes} (h : Braced pattern tag) (hne : tag ≠ []) :
    patternSlot pattern = ((serialCRC16 tag).toNat % 16384 : ℕ) := by
  obtain ⟨pre, post, rfl, hpre, htag⟩ := h
  have hpos := List.length_pos_of_ne_nil hne
  have hdrop : (pre ++ 0x7b :: (tag ++ 0x7d :: post)).drop (pre.length + 1) = tag ++ 0x7d :: post := by
    simp [List.drop_append]
  have hcut : ((pre ++ 0x7b :: (tag ++ 0x7d :: post)).drop pre.length).take (tag.length + 2) =
      0x7b :: (tag ++ 0x7d :: []) := by
    rw [List.drop_left, List.take_succ_cons, List.take_append, List.take_of_length_le (by omega),
      Nat.add_sub_cancel_left]
    rfl
  simp only [patternSlot, scanFor_append hpre, Nat.zero_add, hdrop, scanFor_append htag]
  rw [if_neg (by omega), hcut]
  exact congrArg Nat.cast (scanSlot_braced ⟨[], [], rfl, List.not_mem_nil, htag⟩ hne)

/-- A pattern that is let through has a tag. -/
theorem braced_of_patternSlot {pattern : Bytes} {slot : ℕ} (h : patternSlot pattern = slot) :
    ∃ tag, Braced pattern tag ∧ tag ≠ [] := by
  by_cases hopen : (0x7b : UInt8) ∈ pattern
  · obtain ⟨pre, rest, rfl, hpre⟩ := List.eq_append_cons_of_mem hopen
    have hdrop : (pre ++ 0x7b :: rest).drop (pre.length + 1) = rest := by simp [List.drop_append]
    by_cases hclose : (0x7d : UInt8) ∈ rest
    · obtain ⟨tag, post, rfl, htag⟩ := List.eq_append_cons_of_mem hclose
      refine ⟨tag, ⟨pre, post, rfl, hpre, htag⟩, ?_⟩
      rintro rfl
      simp only [patternSlot, scanFor_append hpre, Nat.zero_add, hdrop, scanFor_append htag,
        List.length_nil, if_true] at h
      omega
    · simp only [patternSlot, scanFor_append hpre, Nat.zero_add, hdrop, scanFor_eq_none.mpr hclose] at h
      omega
  · simp only [patternSlot, scanFor_eq_none.mpr hopen] at h
    omega

theorem patternSlot_of_consulted {key p : Bytes} {spec : SortSpec}
    (h : sortClusterCheck key spec = none) (hp : p ∈ spec.consulted) :
    patternSlot p = scanSlot key := by
  unfold sortClusterCheck at h
  dsimp only at h
  split_ifs at h with hby hget
  rcases List.mem_append.mp hp with hp | hp
  · split_ifs at hp with hsorted
    · obtain rfl := List.mem_singleton.mp hp
      simpa [hsorted] using hby
    · exact absurd hp List.not_mem_nil
  · obtain ⟨hmem, hne⟩ := List.mem_filter.mp hp
    by_contra hslot
    refine hget (List.any_eq_true.mpr ⟨p, hmem, ?_⟩)
    simpa [hslot] using hne

/-- The text before the first star is fixed by the pattern. -/
theorem before_star {xs xs' ys ys' : Bytes} (h : xs ++ 42 :: xs' = ys ++ 42 :: ys') (hx : 42 ∉ xs)
    (hy : 42 ∉ ys) : xs = ys := by
  have hscan := congrArg (scanFor 42 0) h
  rw [scanFor_append hx, scanFor_append hy, Option.some.injEq, Nat.zero_add, Nat.zero_add] at hscan
  exact (List.append_inj h hscan).1

theorem braced_expand {pre post : Bytes} (h : TagBeforeStar (pre ++ 42 :: post)) (hpre : 42 ∉ pre) :
    ∃ tag, tag ≠ [] ∧ Braced (pre ++ 42 :: post) tag ∧ ∀ more, Braced (pre ++ more) tag := by
  obtain ⟨a, tag, b, heq, ha, htag, hne, hstar, hstar'⟩ := h
  have hmem : (42 : UInt8) ∈ b := by
    have : (42 : UInt8) ∈ pre ++ 42 :: post := by simp
    rw [heq] at this
    simpa [hstar, hstar'] using this
  obtain ⟨b₁, b₂, rfl, hb⟩ := List.eq_append_cons_of_mem hmem
  have hsplit : (a ++ 0x7b :: (tag ++ 0x7d :: b₁)) ++ 42 :: b₂ = pre ++ 42 :: post := by
    rw [heq]
    simp
  have hfront : a ++ 0x7b :: (tag ++ 0x7d :: b₁) = pre :=
    before_star hsplit (by simpa [hstar, hstar'] using hb) hpre
  refine ⟨tag, hne, ⟨a, b₁ ++ 42 :: b₂, heq, ha, htag⟩, fun more => ⟨a, b₁ ++ more, ?_, ha, htag⟩⟩
  rw [← hfront]
  simp

/-- Otherwise an element can bring the closing brace, or a whole tag. -/
theorem exists_expand {pre post tag : Bytes} (h : ¬ TagBeforeStar (pre ++ 42 :: post)) (hpre : 42 ∉ pre)
    (htag : Braced (pre ++ 42 :: post) tag) (hne : tag ≠ []) :
    ∃ (front : Bytes) (elem : UInt8 → Bytes),
      ∀ c more, c ≠ 0x7d → Braced (pre ++ elem c ++ more) (front ++ [c]) := by
  obtain ⟨a, b, heq, ha, hclose⟩ := htag
  by_cases hstar : (42 : UInt8) ∈ a
  · -- the star comes first, so a whole tag can stand in its place
    obtain ⟨a₁, a₂, rfl, ha₁⟩ := List.eq_append_cons_of_mem hstar
    have hsplit : a₁ ++ 42 :: (a₂ ++ 0x7b :: (tag ++ 0x7d :: b)) = pre ++ 42 :: post := by
      rw [heq]
      simp
    have hfront : a₁ = pre := before_star hsplit ha₁ hpre
    refine ⟨[], fun c => [0x7b, c, 0x7d], fun c more hc => ⟨pre, more, by simp, ?_, by simpa using hc.symm⟩⟩
    intro hopen
    exact ha (List.mem_append_left _ (hfront ▸ hopen))
  · -- the star is inside the braces
    have hstar' : (42 : UInt8) ∈ tag := by
      by_contra hnot
      exact h ⟨a, tag, b, heq, ha, hclose, hne, hstar, hnot⟩
    obtain ⟨u, u', rfl, hu⟩ := List.eq_append_cons_of_mem hstar'
    have hsplit : (a ++ 0x7b :: u) ++ 42 :: (u' ++ 0x7d :: b) = pre ++ 42 :: post := by
      rw [heq]
      simp
    have hfront : a ++ 0x7b :: u = pre := before_star hsplit (by simp [hstar, hu]) hpre
    refine ⟨u, fun c => [c, 0x7d], fun c more hc => ⟨a, more, ?_, ha, ?_⟩⟩
    · rw [← hfront]
      simp
    · rw [List.mem_append, not_or] at hclose ⊢
      exact ⟨hclose.1, by simpa using hc.symm⟩

/-- A command that the check lets through reads keys of its own slot, whatever the elements
are, exactly when every pattern it consults closes its tag before its star. -/
theorem sort_stays_iff (S : Type) [LinearOrder S] (v : View) {key : Bytes} {spec : SortSpec}
    (h : sortClusterCheck key spec = none) :
    StaysInSlot S v key spec ↔ ∀ p ∈ spec.consulted, 42 ∈ p → TagBeforeStar p := by
  refine forall₂_congr fun p hp => imp_congr_right fun hmem => ?_
  have hslot := patternSlot_of_consulted h hp
  obtain ⟨pre, post, rfl, hpre⟩ := List.eq_append_cons_of_mem hmem
  obtain ⟨rest, field, -, hexpand⟩ := @expand_star pre post hpre
  have hreads (elem : Bytes) := readsIn_lookup (S := S) (v := v) (L := slotOf v key) (hexpand elem)
  constructor
  · intro hstay
    by_contra hnot
    obtain ⟨tag, htag, hne⟩ := braced_of_patternSlot hslot
    obtain ⟨front, elem, helem⟩ := exists_expand hnot hpre htag hne
    have hin (c : UInt8) (hc : c ≠ 0x7d) :
        (serialCRC16 (front ++ [c])).toNat % 16384 = scanSlot key := by
      rw [← scanSlot_braced (helem c rest hc) (by simp)]
      exact ((hreads _).mp (hstay _)).2
    exact serial_concat_ne front ((hin 97 (by decide)).trans (hin 98 (by decide)).symm)
  · intro htag elem
    obtain ⟨tag, hne, hbraced, hall⟩ := braced_expand htag hpre
    refine (hreads elem).mpr ⟨rfl, ?_⟩
    have hpattern := patternSlot_braced hbraced hne
    rw [hslot, Nat.cast_inj] at hpattern
    rw [hpattern]
    show scanSlot (pre ++ elem ++ rest) = _
    rw [List.append_assoc, scanSlot_braced (hall _) hne]

/-- SORT of `l{a}` by `w{a}_*`. -/
def ownTag : SortSpec := ⟨ascii "w\x7ba\x7d_*", true, false, []⟩

theorem ownTag_stays : sortClusterCheck (ascii "l\x7ba\x7d") ownTag = none ∧
    StaysInSlot ℤ ⟨0, 1, true⟩ (ascii "l\x7ba\x7d") ownTag := by
  refine ⟨by decide +kernel, (sort_stays_iff ℤ _ (by decide +kernel)).mpr ?_⟩
  intro p hp _
  obtain rfl : p = ascii "w\x7ba\x7d_*" := by simpa [ownTag, SortSpec.consulted] using hp
  exact ⟨ascii "w", ascii "a", ascii "_*", by decide, by decide, by decide, by decide, by decide,
    by decide⟩

/-- A tag behind the star does not bind: sorting `{a}` by `*{a}`, the element `{b}` is
looked up as a key of another slot. -/
theorem tag_behind_star : ¬ ∀ (v : View) (key : Bytes) (spec : SortSpec),
    sortClusterCheck key spec = none → StaysInSlot ℤ v key spec := by
  intro h
  have hstay := h ⟨0, 1, true⟩ (ascii "\x7ba\x7d") ⟨ascii "*\x7ba\x7d", true, false, []⟩
    (by decide +kernel) (ascii "*\x7ba\x7d") (by decide) (by decide) (ascii "\x7bb\x7d")
  have hslot : scanSlot (ascii "\x7bb\x7d\x7ba\x7d") = scanSlot (ascii "\x7ba\x7d") := hstay.1.2
  exact absurd hslot (by decide +kernel)

end ShardKV.Cluster
