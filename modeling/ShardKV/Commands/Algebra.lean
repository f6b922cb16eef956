import ShardKV.Server.Exec

/-! The set and sorted-set algebra, loop by loop. The inputs are read into maps, and a
map is met in an order that differs from one `range` statement to the next, so every
loop here runs over an arbitrary enumeration. The result of each loop is a function of
its inputs alone: what a call stores is what another call returns, and counting with
an early stop counts the same members. -/

namespace ShardKV.Commands

open Access Data Server Prog

variable {S : Type}

namespace Scored

def empty [Numeric S] : Scored S := ⟨∅, fun _ => Numeric.zero⟩

def lookup (x : Scored S) (m : Bytes) : Option S := if m ∈ x.dom then some (x.score m) else none

def put (x : Scored S) (m : Bytes) (v : S) : Scored S where
  dom := insert m x.dom
  score := Function.update x.score m v

/-- Run over the members in the given order; each may put a score for itself into the
accumulator. -/
def loop (f : Scored S → Bytes → Option S) : List Bytes → Scored S → Scored S
  | [], acc => acc
  | m :: ms, acc =>
    match f acc m with
    | some v => loop f ms (acc.put m v)
    | none => loop f ms acc

/-- Two maps with the same members at the same scores. -/
def Same (x y : Scored S) : Prop := ∀ m, x.lookup m = y.lookup m

theorem lookup_empty [Numeric S] (m : Bytes) : (empty : Scored S).lookup m = none := by
  simp [lookup, empty]

theorem lookup_put (x : Scored S) (m k : Bytes) (v : S) :
    (x.put m v).lookup k = if k = m then some v else x.lookup k := by
  by_cases hk : k = m
  · subst hk
    simp [lookup, put]
  · simp [lookup, put, hk]

theorem lookup_isSome (x : Scored S) (m : Bytes) : (x.lookup m).isSome ↔ m ∈ x.dom := by
  unfold lookup
  split <;> simp [*]

theorem lookup_of_mem {x : Scored S} {m : Bytes} (h : m ∈ x.dom) : x.lookup m = some (x.score m) :=
  if_pos h

theorem Same.dom_eq {x y : Scored S} (h : x.Same y) : x.dom = y.dom := by
  ext m
  rw [← lookup_isSome, ← lookup_isSome, h m]

theorem Same.score_eq {x y : Scored S} (h : x.Same y) {m : Bytes} (hm : m ∈ x.dom) :
    x.score m = y.score m := by
  have he := h m
  rw [lookup_of_mem hm, lookup_of_mem (h.dom_eq ▸ hm)] at he
  exact Option.some.inj he

/-- A loop that decides each member by the member's own score in the accumulator
gives every member it meets what it decides at the start. -/
theorem lookup_loop {f : Scored S → Bytes → Option S}
    (hf : ∀ x y m, x.lookup m = y.lookup m → f x m = f y m) {l : List Bytes} (hl : l.Nodup)
    (acc : Scored S) (k : Bytes) :
    (loop f l acc).lookup k = if k ∈ l then (f acc k).or (acc.lookup k) else acc.lookup k := by
  induction l generalizing acc with
  | nil => simp [loop]
  | cons m ms ih =>
    obtain ⟨hm, hms⟩ := List.nodup_cons.mp hl
    rw [loop]
    cases hv : f acc m with
    | none =>
      simp only [ih hms acc, List.mem_cons]
      by_cases hk : k = m
      · subst hk
        simp [hm, hv]
      · simp [hk]
    | some v =>
      simp only [ih hms (acc.put m v), List.mem_cons, lookup_put]
      by_cases hk : k = m
      · subst hk
        simp [hm, hv]
      · have hfk : f (acc.put m v) k = f acc k := hf _ _ _ (by rw [lookup_put, if_neg hk])
        simp [hk, hfk]

end Scored

/-- The orders in which the successive `range` statements of a call meet the keys of
their maps. -/
structure Ranging where
  order : ℕ → Finset Bytes → List Bytes
  nodup : ∀ i d, (order i d).Nodup
  mem : ∀ i d m, m ∈ order i d ↔ m ∈ d

namespace Ranging

variable (rng : Ranging)

theorem lookup_loop (i : ℕ) (d : Finset Bytes) {f : Scored S → Bytes → Option S}
    (hf : ∀ x y m, x.lookup m = y.lookup m → f x m = f y m) (acc : Scored S) (k : Bytes) :
    (Scored.loop f (rng.order i d) acc).lookup k =
      if k ∈ d then (f acc k).or (acc.lookup k) else acc.lookup k := by
  rw [Scored.lookup_loop hf (rng.nodup i d)]
  simp only [rng.mem]

theorem perm (i : ℕ) (d : Finset Bytes) : (rng.order i d).Perm (d.sort bytesLE) :=
  (List.perm_ext_iff_of_nodup (rng.nodup i d) (d.sort_nodup bytesLE)).mpr fun m => by
    rw [rng.mem, Finset.mem_sort]

end Ranging

variable [Numeric S]

namespace Algebra

/-- What a member of the first input scores in an intersection, if every other input
has it. -/
def meetAt (agg : ZAggregate) (m : Bytes) : S → List (Scored S × S) → Option S
  | v, [] => some v
  | v, (y, w) :: others =>
    match y.lookup m with
    | some other => meetAt agg m (aggregate v (weighted other w) agg) others
    | none => none

/-- The further inputs of a union, each in its own order. -/
def uniteAll (rng : Ranging) (agg : ZAggregate) : ℕ → List (Scored S × S) → Scored S → Scored S
  | _, [], acc => acc
  | i, (x, w) :: others, acc =>
    uniteAll rng agg (i + 1) others
      (Scored.loop (fun acc m =>
        some (match acc.lookup m with
          | some cur => aggregate cur (weighted (x.score m) w) agg
          | none => weighted (x.score m) w)) (rng.order i x.dom) acc)

/-- `zcombineLocked`, on the inputs it has read with their weights. -/
def zcombineLocked (rng : Ranging) (kind : ZCombineKind) (agg : ZAggregate) (first : Scored S) (weight : S)
    (others : List (Scored S × S)) : Scored S :=
  match kind with
  | .union =>
    uniteAll rng agg 1 others
      (Scored.loop (fun _ m => some (weighted (first.score m) weight)) (rng.order 0 first.dom)
        Scored.empty)
  | .inter =>
    Scored.loop (fun _ m => meetAt agg m (weighted (first.score m) weight) others)
      (rng.order 0 first.dom) Scored.empty
  | .diff =>
    Scored.loop
      (fun _ m => if others.any (fun y => decide (m ∈ y.1.dom)) then none else some (first.score m))
      (rng.order 0 first.dom) Scored.empty

def sortedMembers (rng : Ranging) (i : ℕ) (acc : Scored S) : List (S × Bytes) :=
  ((rng.order i acc.dom).map fun m => (acc.score m, m)).insertionSort zLE

def replaceZSetLocked (dst : Loc) (members : List (S × Bytes)) : Op S ℤ :=
  if members.isEmpty then .write dst none (pure 0)
  else .write dst (some ⟨.zset (ofSelection members), none⟩) (pure members.length)

/-- The members a call over `ops` comes to, in the order of a sorted set. -/
def combined (rng : Ranging) (kind : ZCombineKind) (agg : ZAggregate) (ops : List (Loc × S))
    (inputs : List (Scored S)) : List (S × Bytes) :=
  match inputs.zip (ops.map Prod.snd) with
  | [] => []
  | (first, weight) :: others =>
    sortedMembers rng ops.length (zcombineLocked rng kind agg first weight others)

def zCombine (rng : Ranging) (kind : ZCombineKind) (agg : ZAggregate) (ops : List (Loc × S)) :
    Op S (Except StoreErr (List (S × Bytes))) :=
  if ops.isEmpty then pure (.ok [])
  else (fun r => r.map (combined rng kind agg ops)) <$> readScored (ops.map Prod.fst)

def zCombineStore (rng : Ranging) (dst : Loc) (kind : ZCombineKind) (agg : ZAggregate)
    (ops : List (Loc × S)) : Op S (Except StoreErr ℤ) :=
  if ops.isEmpty then pure (.ok 0)
  else do
    match ← readScored (ops.map Prod.fst) with
    | .error err => pure (.error err)
    | .ok inputs => .ok <$> replaceZSetLocked dst (combined rng kind agg ops inputs)

/-- Count the members that every other input has, up to a positive limit. -/
def countLoop (others : List (Scored S)) (limit : ℤ) : List Bytes → ℤ → ℤ
  | [], n => n
  | m :: ms, n =>
    if others.all fun y => decide (m ∈ y.dom) then
      if 0 < limit ∧ limit ≤ n + 1 then n + 1 else countLoop others limit ms (n + 1)
    else countLoop others limit ms n

def zInterCard (rng : Ranging) (keys : List Loc) (limit : ℤ) : Op S (Except StoreErr ℤ) :=
  (fun r => r.map fun
    | [] => 0
    | first :: others => countLoop others limit (rng.order 0 first.dom) 0) <$> readScored keys

end Algebra

namespace Algebra

/-- The map of a key; a missing key has none. -/
def setMap : Option (Entry S) → Except StoreErr (Option (Finset Bytes))
  | none => .ok none
  | some ⟨.set m, _⟩ => .ok (some m)
  | some _ => .error .wrongType

def readMaps : List Loc → Op S (Except StoreErr (List (Option (Finset Bytes))))
  | [] => pure (.ok [])
  | k :: ks => .read k fun e =>
    match setMap e with
    | .error err => pure (.error err)
    | .ok x => (fun r => r.map (x :: ·)) <$> readMaps ks

/-- Append the members that have not been seen. -/
def unionLoop : List Bytes → Finset Bytes × List Bytes → Finset Bytes × List Bytes
  | [], r => r
  | m :: ms, (seen, out) =>
    if m ∈ seen then unionLoop ms (seen, out) else unionLoop ms (insert m seen, out ++ [m])

def unionAll (rng : Ranging) :
    ℕ → List (Option (Finset Bytes)) → Finset Bytes × List Bytes → Finset Bytes × List Bytes
  | _, [], r => r
  | i, x :: xs, r => unionAll rng (i + 1) xs (unionLoop (rng.order i (x.getD ∅)) r)

/-- Append the members kept, up to a positive limit. -/
def pickLoop (keep : Bytes → Bool) (limit : ℤ) : List Bytes → List Bytes → List Bytes
  | [], out => out
  | m :: ms, out =>
    if keep m then
      if 0 < limit ∧ ((out ++ [m]).length : ℤ) = limit then out ++ [m]
      else pickLoop keep limit ms (out ++ [m])
    else pickLoop keep limit ms out

/-- `combineLocked`, on the maps it has read. -/
def combineLocked (rng : Ranging) (op : SetOp) (limit : ℤ) (first : Option (Finset Bytes))
    (others : List (Option (Finset Bytes))) : List Bytes :=
  match op with
  | .union => (unionAll rng 0 (first :: others) (∅, [])).2
  | .inter =>
    match first with
    | none => []
    | some m =>
      if others.any Option.isNone then []
      else
        pickLoop (fun x => others.all fun y => decide (x ∈ y.getD ∅)) limit (rng.order 0 m) []
  | .diff =>
    match first with
    | none => []
    | some m =>
      pickLoop (fun x => !others.any fun y => decide (x ∈ y.getD ∅)) 0 (rng.order 0 m) []

/-- What is read of the keys, combined. -/
def combineMaps (rng : Ranging) (op : SetOp) (limit : ℤ) :
    List (Option (Finset Bytes)) → List Bytes
  | [] => []
  | first :: others => combineLocked rng op limit first others

def sCombine (rng : Ranging) (op : SetOp) (limit : ℤ) (keys : List Loc) :
    Op S (Except StoreErr (List Bytes)) :=
  if keys.isEmpty then pure (.ok [])
  else (fun r => r.map (combineMaps rng op limit)) <$> readMaps keys

/-- `SCombineStore`, which takes one key at least: the size of the result, and whether
anything changed. -/
def sCombineStore (rng : Ranging) (op : SetOp) (dst : Loc) (key : Loc) (keys : List Loc) :
    Op S (Except StoreErr (ℤ × Bool)) := do
  match ← readMaps (key :: keys) with
  | .error err => pure (.error err)
  | .ok maps =>
    let members := combineMaps rng op 0 maps
    if members.isEmpty then
      .read dst fun e => .write dst none (pure (.ok (0, e.isSome)))
    else .write dst (some ⟨.set members.toFinset, none⟩) (pure (.ok (members.length, true)))

end Algebra

namespace Algebra

variable (rng : Ranging) (agg : ZAggregate)

theorem zLE_antisymm {a b : S × Bytes} (hab : zLE a b) (hba : zLE b a) : a = b := by
  have he : zKey a = zKey b := le_antisymm hab hba
  obtain ⟨h₁, h₂⟩ := Prod.mk.inj (toLex.injective he)
  exact Prod.ext h₁ (List.map_injective_iff.mpr (fun _ _ => UInt8.toNat_inj.mp) h₂)

theorem eq_of_perm_sorted {l l' : List (S × Bytes)} (h : l.Perm l') (hl : l.Pairwise zLE)
    (hl' : l'.Pairwise zLE) : l = l' :=
  h.eq_of_pairwise (fun _ _ _ _ hab hba => zLE_antisymm hab hba) hl hl'

/-- The order of the map does not show in the sorted result. -/
theorem sortedMembers_eq {x y : Scored S} (h : x.Same y) (i : ℕ) :
    sortedMembers rng i x = y.toZSet.nodes := by
  refine eq_of_perm_sorted ?_ (List.pairwise_insertionSort zLE _) y.toZSet.sorted
  refine (List.perm_insertionSort zLE _).trans (.trans ?_ (List.perm_insertionSort zLE _).symm)
  rw [← h.dom_eq]
  have hscore : ∀ m ∈ rng.order i x.dom, (x.score m, m) = (y.score m, m) := fun m hm => by
    rw [h.score_eq ((rng.mem i x.dom m).mp hm)]
  rw [List.map_congr_left hscore]
  exact (rng.perm i x.dom).map _

theorem lookup_weigh (x : Scored S) (w : S) (m : Bytes) :
    (x.weigh w).lookup m = (x.lookup m).map fun v => weighted v w := by
  unfold Scored.lookup Scored.weigh
  split <;> simp

theorem lookup_unite (acc x : Scored S) (m : Bytes) :
    (acc.unite agg x).lookup m =
      match x.lookup m with
      | some v => some ((acc.lookup m).elim v fun cur => aggregate cur v agg)
      | none => acc.lookup m := by
  by_cases ha : m ∈ acc.dom <;> by_cases hx : m ∈ x.dom <;>
    simp [Scored.lookup, Scored.unite, ha, hx]

theorem lookup_meet (acc x : Scored S) (m : Bytes) :
    (acc.meet agg x).lookup m =
      (acc.lookup m).bind fun cur => (x.lookup m).map fun v => aggregate cur v agg := by
  by_cases ha : m ∈ acc.dom <;> by_cases hx : m ∈ x.dom <;>
    simp [Scored.lookup, Scored.meet, ha, hx]

/-- The loop over an input of a union, in any order, unites the input. -/
theorem unite_loop_same (i : ℕ) (x : Scored S) (w : S) {acc acc' : Scored S} (h : acc.Same acc') :
    (Scored.loop (fun acc m =>
      some (match acc.lookup m with
        | some cur => aggregate cur (weighted (x.score m) w) agg
        | none => weighted (x.score m) w)) (rng.order i x.dom) acc).Same
      (acc'.unite agg (x.weigh w)) := by
  intro m
  rw [rng.lookup_loop i x.dom (fun _ _ _ he => by simp only [he]), lookup_unite, lookup_weigh, h m]
  by_cases hx : m ∈ x.dom
  · rw [if_pos hx, Scored.lookup_of_mem hx]
    cases acc'.lookup m <;> rfl
  · simp [Scored.lookup, hx]

theorem uniteAll_same (i : ℕ) (others : List (Scored S × S)) {acc acc' : Scored S}
    (h : acc.Same acc') :
    (uniteAll rng agg i others acc).Same
      (others.foldl (fun acc y => acc.unite agg (y.1.weigh y.2)) acc') := by
  induction others generalizing i acc acc' with
  | nil => exact h
  | cons y others ih => exact ih (i + 1) (unite_loop_same rng agg i y.1 y.2 h)

theorem lookup_foldl_meet (others : List (Scored S × S)) (acc : Scored S) (m : Bytes) :
    (others.foldl (fun acc y => acc.meet agg (y.1.weigh y.2)) acc).lookup m =
      (acc.lookup m).bind fun v => meetAt agg m v others := by
  induction others generalizing acc with
  | nil => cases h : acc.lookup m <;> simp [meetAt, h]
  | cons y others ih =>
    rw [List.foldl_cons, ih, lookup_meet, lookup_weigh]
    cases acc.lookup m with
    | none => rfl
    | some v =>
      rw [Option.bind_some, Option.bind_some, meetAt]
      cases y.1.lookup m <;> rfl

omit [Numeric S] in
theorem mem_foldl_sdiff (others : List (Scored S × S)) (d : Finset Bytes) (m : Bytes) :
    m ∈ others.foldl (fun d y => d \ y.1.dom) d ↔
      m ∈ d ∧ others.any (fun y => decide (m ∈ y.1.dom)) = false := by
  induction others generalizing d with
  | nil => simp
  | cons y others ih =>
    rw [List.foldl_cons, ih, Finset.mem_sdiff, List.any_cons, Bool.or_eq_false_iff,
      decide_eq_false_iff_not, and_assoc]

/-- The loops compute the combination, whatever the orders of the maps. -/
theorem zcombineLocked_same (kind : ZCombineKind) (first : Scored S) (weight : S)
    (others : List (Scored S × S)) :
    (zcombineLocked rng kind agg first weight others).Same
      (Commands.zCombine kind agg ((first, weight) :: others)) := by
  cases kind with
  | union =>
    refine uniteAll_same rng agg 1 others fun m => ?_
    rw [rng.lookup_loop 0 first.dom (fun _ _ _ _ => rfl), lookup_weigh, Scored.lookup_empty]
    simp only [Scored.lookup, Option.some_or]
    split <;> rfl
  | inter =>
    intro m
    refine (rng.lookup_loop 0 first.dom (fun _ _ _ _ => rfl) _ m).trans ?_
    refine Eq.trans ?_ (lookup_foldl_meet agg others (first.weigh weight) m).symm
    rw [lookup_weigh, Scored.lookup_empty, Option.or_none, Scored.lookup]
    split <;> rfl
  | diff =>
    intro m
    refine (rng.lookup_loop 0 first.dom (fun _ _ _ _ => rfl) _ m).trans ?_
    rw [Scored.lookup_empty, Option.or_none, Scored.lookup]
    simp only [Commands.zCombine, mem_foldl_sdiff]
    by_cases hm : m ∈ first.dom
    · cases others.any fun y => decide (m ∈ y.1.dom) <;> simp [hm]
    · simp [hm]

theorem score_eq_none {z : ZSet S} {m : Bytes} (h : m ∉ z.nodes.map Prod.snd) : z.score m = none := by
  rw [ZSet.score, Option.map_eq_none_iff, List.find?_eq_none]
  intro n hn hm
  exact h (List.mem_map.mpr ⟨n, hn, by simpa using hm⟩)

/-- Adding a member that is not there puts its node among the others. -/
theorem add_perm {z : ZSet S} {m : Bytes} (h : m ∉ z.nodes.map Prod.snd) (v : S) :
    (z.add m v).1.nodes.Perm ((v, m) :: z.nodes) := by
  have herase : (z.erase m).nodes = z.nodes := by
    refine List.filter_eq_self.mpr fun n hn => ?_
    have : n.2 ≠ m := fun he => h (he ▸ List.mem_map_of_mem hn)
    simpa using this
  rw [ZSet.add, score_eq_none h]
  refine (List.perm_orderedInsert zLE (v, m) (z.erase m).nodes).trans ?_
  rw [herase]

theorem foldl_add_perm (l : List (S × Bytes)) (z : ZSet S)
    (h : ((z.nodes ++ l).map Prod.snd).Nodup) :
    (l.foldl (fun z n => (z.add n.2 n.1).1) z).nodes.Perm (z.nodes ++ l) := by
  induction l generalizing z with
  | nil => simp
  | cons n l ih =>
    have hn : n.2 ∉ z.nodes.map Prod.snd := by
      rw [List.map_append, List.map_cons] at h
      exact fun hmem => (List.disjoint_of_nodup_append h) hmem (List.mem_cons_self ..)
    have hp : ((z.add n.2 n.1).1.nodes ++ l).Perm (z.nodes ++ n :: l) :=
      ((add_perm hn n.1).append_right l).trans List.perm_middle.symm
    exact (ih _ ((hp.map Prod.snd).nodup_iff.mpr h)).trans hp

/-- A sorted list of distinct members is the skip list built of it. -/
theorem ofSelection_nodes {l : List (S × Bytes)} (hs : l.Pairwise zLE) (hn : (l.map Prod.snd).Nodup) :
    (ofSelection l).nodes = l :=
  eq_of_perm_sorted (foldl_add_perm l ZSet.empty (by simpa [ZSet.empty] using hn))
    (ofSelection l).sorted hs

theorem combined_eq (kind : ZCombineKind) (ops : List (Loc × S)) (inputs : List (Scored S)) :
    combined rng kind agg ops inputs =
      (Commands.zCombine kind agg (inputs.zip (ops.map Prod.snd))).toZSet.nodes := by
  unfold combined
  split
  · rename_i h
    rw [h]
    simp [Commands.zCombine, Scored.toZSet, ZSet.ofNodes]
  · rename_i first weight others h
    rw [h]
    exact sortedMembers_eq rng (zcombineLocked_same rng agg kind first weight others) _

theorem replaceZSetLocked_eq (dst : Loc) (z : ZSet S) :
    replaceZSetLocked dst z.nodes = replaceZSet dst z := by
  have hz : ofSelection z.nodes = z := by
    have hn := ofSelection_nodes z.sorted z.nodup
    cases h : ofSelection z.nodes with
    | mk nodes sorted nodup =>
      rw [h] at hn
      subst hn
      rfl
  rw [replaceZSetLocked, replaceZSet, hz]

theorem zCombineStore_eq (dst : Loc) (kind : ZCombineKind) (ops : List (Loc × S)) :
    zCombineStore rng dst kind agg ops = Commands.zCombineStore dst kind agg ops := by
  unfold zCombineStore Commands.zCombineStore
  split
  · rfl
  · congr 1
    funext r
    cases r with
    | error err => rfl
    | ok inputs => simp only [combined_eq, replaceZSetLocked_eq]

theorem readScored_length (vis : Entry S → Bool) (s : Store Loc (Entry S)) {keys : List Loc}
    {xs : List (Scored S)} (h : ((readScored keys).run vis s).1 = .ok xs) : xs.length = keys.length := by
  induction keys generalizing xs with
  | nil =>
    cases h
    rfl
  | cons k ks ih =>
    simp only [readScored, run_read] at h
    cases hx : scoredOf (seen vis s k) with
    | error err => simp [hx] at h
    | ok x =>
      cases hr : ((readScored ks).run vis s).1 with
      | error err => simp [hx, hr, Except.map] at h
      | ok ys =>
        simp only [hx, run_map, hr, Except.map, Except.ok.injEq] at h
        rw [← h, List.length_cons, ih hr, List.length_cons]

omit [Numeric S] in
/-- Counting stops at the limit, and counts the same members in any order. -/
theorem countLoop_eq (others : List (Scored S)) {limit : ℤ} (l : List Bytes) {n : ℤ}
    (hn : 0 < limit → n < limit) :
    countLoop others limit l n =
      let total := n + (l.filter fun m => others.all fun y => decide (m ∈ y.dom)).length
      if 0 < limit then min limit total else total := by
  induction l generalizing n with
  | nil =>
    simp only [countLoop, List.filter_nil, List.length_nil]
    split_ifs with hl
    · have := hn hl
      omega
    · omega
  | cons m ms ih =>
    rw [countLoop, List.filter_cons]
    by_cases hm : others.all (fun y => decide (m ∈ y.dom)) = true
    · rw [if_pos hm, if_pos hm, List.length_cons]
      by_cases hstop : 0 < limit ∧ limit ≤ n + 1
      · have := hn hstop.1
        simp only [if_pos hstop, if_pos hstop.1]
        omega
      · rw [if_neg hstop, ih (by omega)]
        push_cast
        rw [add_comm ((List.length _ : ℕ) : ℤ) 1, ← add_assoc]
    · rw [if_neg hm, if_neg hm, ih hn]

theorem mem_foldl_meet (others : List (Scored S × S)) (acc : Scored S) (m : Bytes) :
    m ∈ (others.foldl (fun acc y => acc.meet agg (y.1.weigh y.2)) acc).dom ↔
      m ∈ acc.dom ∧ (others.map Prod.fst).all (fun y => decide (m ∈ y.dom)) = true := by
  induction others generalizing acc with
  | nil => simp
  | cons y others ih =>
    rw [List.foldl_cons, ih, List.map_cons, List.all_cons, Bool.and_eq_true, decide_eq_true_iff,
      ← and_assoc]
    exact and_congr_left' Finset.mem_inter

theorem toZSet_length (x : Scored S) : x.toZSet.nodes.length = x.dom.card := by
  simp [Scored.toZSet, ZSet.ofNodes, List.length_insertionSort]

theorem filter_length_eq (first : Scored S) (weight : S) (others : List (Scored S × S)) (i : ℕ) :
    ((rng.order i first.dom).filter fun m =>
      (others.map Prod.fst).all fun y => decide (m ∈ y.dom)).length =
      (Commands.zCombine .inter agg ((first, weight) :: others)).toZSet.nodes.length := by
  rw [toZSet_length, ← List.toFinset_card_of_nodup ((rng.nodup i first.dom).filter _)]
  congr 1
  ext m
  rw [List.mem_toFinset, List.mem_filter, rng.mem]
  exact (mem_foldl_meet agg others (first.weigh weight) m).symm

end Algebra

namespace Algebra

variable (rng : Ranging)

theorem unionLoop_spec (l : List Bytes) {r : Finset Bytes × List Bytes} (hr : r.2.Nodup)
    (hs : r.1 = r.2.toFinset) :
    (unionLoop l r).2.Nodup ∧ (unionLoop l r).1 = (unionLoop l r).2.toFinset ∧
      (unionLoop l r).1 = r.1 ∪ l.toFinset := by
  induction l generalizing r with
  | nil => exact ⟨hr, hs, by simp [unionLoop]⟩
  | cons m ms ih =>
    obtain ⟨seen, out⟩ := r
    rw [unionLoop]
    simp only at hs hr
    split_ifs with hm
    · obtain ⟨h₁, h₂, h₃⟩ := @ih (seen, out) hr hs
      refine ⟨h₁, h₂, h₃.trans ?_⟩
      rw [List.toFinset_cons, Finset.union_insert, Finset.insert_eq_self.mpr]
      exact Finset.mem_union_left _ hm
    · have hout : (out ++ [m]).Nodup := by
        rw [hs, List.mem_toFinset] at hm
        exact List.nodup_append.mpr ⟨hr, List.nodup_singleton m, by
          rintro a ha b hb rfl
          exact hm (List.mem_singleton.mp hb ▸ ha)⟩
      have hseen : insert m seen = (out ++ [m]).toFinset := by
        rw [List.toFinset_append, hs, Finset.union_comm]
        rfl
      obtain ⟨h₁, h₂, h₃⟩ := @ih (insert m seen, out ++ [m]) hout hseen
      refine ⟨h₁, h₂, h₃.trans ?_⟩
      rw [List.toFinset_cons, Finset.union_insert, Finset.insert_union]

theorem order_toFinset (i : ℕ) (d : Finset Bytes) : (rng.order i d).toFinset = d := by
  ext m
  rw [List.mem_toFinset, rng.mem]

theorem unionAll_spec (i : ℕ) (maps : List (Option (Finset Bytes))) {r : Finset Bytes × List Bytes}
    (hr : r.2.Nodup) (hs : r.1 = r.2.toFinset) :
    (unionAll rng i maps r).2.Nodup ∧
      (unionAll rng i maps r).2.toFinset = (maps.map (Option.getD · ∅)).foldl (· ∪ ·) r.1 := by
  induction maps generalizing i r with
  | nil => exact ⟨hr, hs.symm⟩
  | cons x maps ih =>
    obtain ⟨h₁, h₂, h₃⟩ := unionLoop_spec (rng.order i (x.getD ∅)) hr hs
    rw [order_toFinset] at h₃
    have := ih (i + 1) h₁ h₂
    rw [h₃] at this
    exact this

theorem pickLoop_eq (keep : Bytes → Bool) (l out : List Bytes) :
    pickLoop keep 0 l out = out ++ l.filter keep := by
  induction l generalizing out with
  | nil => simp [pickLoop]
  | cons m ms ih =>
    rw [pickLoop, List.filter_cons]
    split_ifs with hm hstop
    · exact absurd hstop.1 (lt_irrefl 0)
    · rw [ih, List.append_assoc, List.singleton_append]
    · exact ih out

theorem mem_foldl_inter (maps : List (Finset Bytes)) (d : Finset Bytes) (m : Bytes) :
    m ∈ maps.foldl (· ∩ ·) d ↔ m ∈ d ∧ ∀ y ∈ maps, m ∈ y := by
  induction maps generalizing d with
  | nil => simp
  | cons y maps ih => rw [List.foldl_cons, ih, Finset.mem_inter, List.forall_mem_cons, and_assoc]

theorem mem_foldl_diff (maps : List (Finset Bytes)) (d : Finset Bytes) (m : Bytes) :
    m ∈ maps.foldl (· \ ·) d ↔ m ∈ d ∧ ∀ y ∈ maps, m ∉ y := by
  induction maps generalizing d with
  | nil => simp
  | cons y maps ih => rw [List.foldl_cons, ih, Finset.mem_sdiff, List.forall_mem_cons, and_assoc]

/-- The loops over the maps list each member of the combination once. -/
theorem combineLocked_spec (op : SetOp) (first : Option (Finset Bytes))
    (others : List (Option (Finset Bytes))) :
    (combineLocked rng op 0 first others).Nodup ∧
      (combineLocked rng op 0 first others).toFinset =
        op.combine ((first :: others).map (Option.getD · ∅)) := by
  cases op with
  | union =>
    obtain ⟨h₁, h₂⟩ := unionAll_spec rng 0 (first :: others) (r := (∅, [])) List.nodup_nil rfl
    refine ⟨h₁, h₂.trans ?_⟩
    rw [List.map_cons, List.foldl_cons, Finset.empty_union]
    rfl
  | inter =>
    simp only [combineLocked, SetOp.combine, List.map_cons]
    cases first with
    | none =>
      refine ⟨List.nodup_nil, Finset.ext fun m => ?_⟩
      simp [mem_foldl_inter]
    | some d =>
      dsimp only
      split_ifs with hnil
      · obtain ⟨y, hy, hynone⟩ := List.any_eq_true.mp hnil
        refine ⟨List.nodup_nil, Finset.ext fun m => ?_⟩
        rw [mem_foldl_inter]
        refine iff_of_false (by simp) fun h => ?_
        have := h.2 _ (List.mem_map_of_mem hy)
        simp [Option.isNone_iff_eq_none.mp hynone] at this
      · rw [pickLoop_eq, List.nil_append]
        refine ⟨(rng.nodup 0 d).filter _, Finset.ext fun m => ?_⟩
        simp [mem_foldl_inter, rng.mem]
  | diff =>
    simp only [combineLocked, SetOp.combine, List.map_cons]
    cases first with
    | none =>
      refine ⟨List.nodup_nil, Finset.ext fun m => ?_⟩
      simp [mem_foldl_diff]
    | some d =>
      dsimp only
      rw [pickLoop_eq, List.nil_append]
      refine ⟨(rng.nodup 0 d).filter _, Finset.ext fun m => ?_⟩
      simp [mem_foldl_diff, rng.mem]

theorem combineMaps_spec (op : SetOp) (maps : List (Option (Finset Bytes))) :
    (combineMaps rng op 0 maps).Nodup ∧
      (combineMaps rng op 0 maps).toFinset = op.combine (maps.map (Option.getD · ∅)) := by
  cases maps with
  | nil => exact ⟨List.nodup_nil, by cases op <;> rfl⟩
  | cons first others => exact combineLocked_spec rng op first others

theorem readMaps_readOnly (keys : List Loc) :
    (readMaps keys : Op S (Except StoreErr (List (Option (Finset Bytes))))).ReadOnly := by
  induction keys with
  | nil => trivial
  | cons k ks ih =>
    intro e
    dsimp only
    cases setMap e with
    | error err => trivial
    | ok m => exact readOnly_map ih _

theorem run_readSets (vis : Entry S → Bool) (s : Store Loc (Entry S)) (keys : List Loc) :
    ((readSets keys).run vis s).1 =
      ((readMaps keys).run vis s).1.map fun maps => maps.map (Option.getD · ∅) := by
  induction keys with
  | nil => rfl
  | cons k ks ih =>
    simp only [readSets, readMaps, run_read]
    rcases seen vis s k with _ | ⟨_ | _ | _ | m | _ | _, d⟩ <;> simp only [setOf, setMap] <;>
      first
        | rfl
        | (rw [run_map, run_map, ih]
           cases ((readMaps ks).run vis s).1 <;> rfl)

theorem run_sCombineStore_eq (vis : Entry S → Bool) (s : Store Loc (Entry S)) (op : SetOp)
    (dst key : Loc) (keys : List Loc) :
    (sCombineStore rng op dst key keys).run vis s =
      (Commands.sCombineStore op dst (key :: keys)).run vis s := by
  rw [sCombineStore, Commands.sCombineStore, run_bind, run_bind,
    run_readOnly (readMaps_readOnly _), run_readOnly (readSets_readOnly _), run_readSets]
  cases ((readMaps (key :: keys)).run vis s).1 with
  | error err => rfl
  | ok maps =>
    obtain ⟨hnodup, hset⟩ := combineMaps_spec rng op maps
    simp only [Except.map, ← hset, List.toFinset_eq_empty_iff, run_edit]
    by_cases he : combineMaps rng op 0 maps = []
    · simp [he]
    · simp [he, List.toFinset_card_of_nodup hnodup]

end Algebra

namespace Algebra

/-- What a store leaves when the combination it stores is `l`: the destination holds
what `made` tells of `l` and has no deadline, or is absent when `l` is empty, and every
other key is as it was. -/
def Stores {α : Type} (made : List α → Value S → Prop) (s t : Store Loc (Entry S)) (dst : Loc)
    (l : List α) : Prop :=
  (if l = [] then t dst = none else ∃ v, made l v ∧ t dst = some ⟨v, none⟩) ∧
    ∀ k, k ≠ dst → t k = s k

/-- A storing call against what the call that only reads returns on the same dataset. -/
def Agrees {α : Type} (made : List α → Value S → Prop) (s : Store Loc (Entry S)) (dst : Loc)
    (returned : Except StoreErr (List α)) (left : Except StoreErr ℤ × Store Loc (Entry S)) : Prop :=
  match returned with
  | .error err => left = (.error err, s)
  | .ok l => left.1 = .ok l.length ∧ Stores made s left.2 dst l

/-- A sorted set that lists the given members. -/
def Lists (l : List (S × Bytes)) (v : Value S) : Prop := ∃ z : ZSet S, v = .zset z ∧ z.nodes = l

/-- A plain set of the given members, none of them listed twice. -/
def Holds (l : List Bytes) (v : Value S) : Prop := l.Nodup ∧ v = .set l.toFinset

theorem stores_update {α : Type} {made : List α → Value S → Prop} {s : Store Loc (Entry S)} {dst : Loc}
    {l : List α} {v : Value S} (hl : l ≠ []) (hv : made l v) :
    Stores made s (Function.update s dst (some ⟨v, none⟩)) dst l :=
  ⟨by rw [if_neg hl, Function.update_self]; exact ⟨v, hv, rfl⟩,
    fun _ hk => Function.update_of_ne hk _ _⟩

theorem stores_drop {α : Type} {made : List α → Value S → Prop} {s : Store Loc (Entry S)} {dst : Loc} :
    Stores made s (Function.update s dst none) dst [] :=
  ⟨by rw [if_pos rfl, Function.update_self], fun _ hk => Function.update_of_ne hk _ _⟩

variable (rng rng' : Ranging) (vis : Entry S → Bool) (s : Store Loc (Entry S))

theorem zCombineStore_agrees (dst : Loc) (kind : ZCombineKind) (agg : ZAggregate) (op : Loc × S)
    (ops : List (Loc × S)) :
    Agrees Lists s dst ((zCombine rng kind agg (op :: ops)).run vis s).1
      ((zCombineStore rng' dst kind agg (op :: ops)).run vis s) := by
  have hread := run_readOnly (readScored_readOnly ((op :: ops).map Prod.fst)) vis s
  simp only [zCombine, zCombineStore, List.isEmpty_cons, Bool.false_eq_true, if_false,
    run_map, run_bind, hread]
  cases ((readScored ((op :: ops).map Prod.fst)).run vis s).1 with
  | error err => rfl
  | ok inputs =>
    simp only [Except.map, Agrees, combined_eq rng, combined_eq rng', replaceZSetLocked_eq,
      run_map, replaceZSet]
    split_ifs with he
    · rw [List.isEmpty_iff.mp he]
      exact ⟨rfl, stores_drop⟩
    · exact ⟨rfl, stores_update (fun h => he (List.isEmpty_iff.mpr h)) ⟨_, rfl, rfl⟩⟩

theorem sCombineStore_agrees (op : SetOp) (dst key : Loc) (keys : List Loc) :
    Agrees Holds s dst ((sCombine rng op 0 (key :: keys)).run vis s).1
      ((Except.map Prod.fst <$> sCombineStore rng' op dst key keys).run vis s) := by
  have hread := run_readOnly (readMaps_readOnly (key :: keys)) vis s
  simp only [sCombine, sCombineStore, List.isEmpty_cons, Bool.false_eq_true, if_false,
    run_map, run_bind, hread]
  cases ((readMaps (key :: keys)).run vis s).1 with
  | error err => rfl
  | ok maps =>
    obtain ⟨hnodup, hset⟩ := combineMaps_spec rng op maps
    obtain ⟨hnodup', hset'⟩ := combineMaps_spec rng' op maps
    have hsame := hset'.trans hset.symm
    have hperm := List.perm_of_nodup_nodup_toFinset_eq hnodup' hnodup hsame
    simp only [Except.map, Agrees]
    split_ifs with he
    · have hnil : combineMaps rng op 0 maps = [] := by
        rw [List.isEmpty_iff] at he
        exact List.perm_nil.mp (he ▸ hperm.symm)
      rw [hnil]
      exact ⟨rfl, stores_drop⟩
    · refine ⟨congrArg (fun n : ℕ => Except.ok (n : ℤ)) hperm.length_eq, stores_update ?_ ?_⟩
      · intro hnil
        exact he (List.isEmpty_iff.mpr (List.perm_nil.mp (hnil ▸ hperm)))
      · exact ⟨hnodup, by rw [hsame]⟩

theorem zInterCard_eq (limit : ℤ) (agg : ZAggregate) (ops : List (Loc × S)) :
    ((zInterCard rng (ops.map Prod.fst) limit).run vis s).1 =
      ((zCombine rng' .inter agg ops).run vis s).1.map fun l =>
        if 0 < limit then min limit l.length else (l.length : ℤ) := by
  cases ops with
  | nil =>
    have h : (if 0 < limit then min limit 0 else 0) = 0 := by split_ifs <;> omega
    simp only [zInterCard, zCombine, List.isEmpty_nil, if_true, run_map]
    exact congrArg Except.ok h.symm
  | cons op ops =>
    simp only [zInterCard, zCombine, List.isEmpty_cons, Bool.false_eq_true, if_false, run_map]
    cases hr : ((readScored ((op :: ops).map Prod.fst)).run vis s).1 with
    | error err => rfl
    | ok inputs =>
      have hlen := readScored_length vis s hr
      cases inputs with
      | nil => simp at hlen
      | cons first others =>
        have hothers : others.length = ops.length := by simpa using hlen
        have hfst : (others.zip (ops.map Prod.snd)).map Prod.fst = others :=
          List.map_fst_zip (by simp [hothers])
        have hcount := filter_length_eq rng agg first op.2 (others.zip (ops.map Prod.snd)) 0
        rw [hfst] at hcount
        simp only [Except.map, combined_eq]
        rw [countLoop_eq others _ id, hcount]
        simp only [zero_add]
        rfl

/-- The store commands leave what the reading commands return of the dataset before, in
whatever orders both meet their maps; a type error leaves the dataset as it was. The
count of an intersection is its size, up to the limit. The commands give one input key
at least. -/
theorem combination_stored :
    (∀ (dst : Loc) (kind : ZCombineKind) (agg : ZAggregate) (op : Loc × S) (ops : List (Loc × S)),
      Agrees Lists s dst ((zCombine rng kind agg (op :: ops)).run vis s).1
        ((zCombineStore rng' dst kind agg (op :: ops)).run vis s)) ∧
    (∀ (dst : Loc) (op : SetOp) (key : Loc) (keys : List Loc),
      Agrees Holds s dst ((sCombine rng op 0 (key :: keys)).run vis s).1
        ((Except.map Prod.fst <$> sCombineStore rng' op dst key keys).run vis s)) ∧
    ∀ (limit : ℤ) (agg : ZAggregate) (ops : List (Loc × S)),
      ((zInterCard rng (ops.map Prod.fst) limit).run vis s).1 =
        ((zCombine rng' .inter agg ops).run vis s).1.map fun l =>
          if 0 < limit then min limit l.length else (l.length : ℤ) :=
  ⟨fun dst kind agg op ops => zCombineStore_agrees rng rng' vis s dst kind agg op ops,
    fun dst op key keys => sCombineStore_agrees rng rng' vis s op dst key keys,
    fun limit agg ops => zInterCard_eq rng rng' vis s limit agg ops⟩

/-- Every map met in the order of its keys. -/
def inOrder : Ranging where
  order _ d := d.sort bytesLE
  nodup _ d := d.sort_nodup bytesLE
  mem _ _ _ := Finset.mem_sort bytesLE

/-- Without an input, ZCombine returns nothing and ZCombineStore leaves the destination
where it is. -/
theorem nothing_combined_keeps_destination :
    ¬ ∀ (s : Store Loc (Entry ℤ)) (dst : Loc) (kind : ZCombineKind) (agg : ZAggregate)
        (ops : List (Loc × ℤ)),
      Agrees Lists s dst ((zCombine inOrder kind agg ops).run (fun _ => true) s).1
        ((zCombineStore inOrder dst kind agg ops).run (fun _ => true) s) := by
  intro h
  have hdst := (h (fun _ => some ⟨.str (ascii "v"), none⟩) (0, ascii "k") .union .sum []).2.1
  rw [if_pos rfl] at hdst
  exact absurd hdst (by simp [zCombineStore])

end Algebra

end ShardKV.Commands
