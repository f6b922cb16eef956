import ShardKV.Access.Machine
import ShardKV.Bytes.Checked
import ShardKV.Server.Operand

/-! The byte budget. Before a command runs, a server over its budget evicts keys one at
a time, each from the database that holds the most bytes at that moment, until it is
within the budget or that database yields no key. The victim is sampled: shards are
visited from a random one on, the keys of a shard in the order the map gives them. -/

namespace ShardKV.Server

open Access Checked

inductive EvictionPolicy
  | noEviction
  | allKeysLRU
  | allKeysLFU
  | allKeysRandom
  | volatileLRU
  | volatileLFU
  | volatileRandom
  | volatileTTL
  deriving DecidableEq

/-- A key as the sampler sees it: what it is charged, its deadline, its last access and
the packed word of its access counter. -/
structure Tracked where
  key : Bytes
  size : ℕ
  expireAt : Option ℤ
  atime : ℤ
  freq : ℕ
  charged : 0 < size
  atime_le : atime ≤ maxInt64

namespace EvictionPolicy

def evicts (p : EvictionPolicy) : Bool := p != noEviction

def volatileOnly : EvictionPolicy → Bool
  | volatileLRU | volatileLFU | volatileRandom | volatileTTL => true
  | _ => false

def random : EvictionPolicy → Bool
  | allKeysRandom | volatileRandom => true
  | _ => false

/-- Whether the policy ranks keys by their last access. -/
def lru : EvictionPolicy → Bool
  | allKeysLRU | volatileLRU => true
  | _ => false

/-- The keys a policy may evict. -/
def mayEvict (p : EvictionPolicy) (e : Tracked) : Bool := !p.volatileOnly || e.expireAt.isSome

end EvictionPolicy

/-- `lfuCounter`: the top bit says that the word was written, then come the minute of
the last decay and the counter. -/
def lfuCounter (v now : ℕ) (decayMinutes : ℤ) : ℤ :=
  if v < 2 ^ 31 then 5
  else
    let minute : ℤ := (v / 256 % 65536 : ℕ)
    let counter : ℤ := (v % 256 : ℕ)
    if decayMinutes ≤ 0 then counter
    else
      let elapsed := (now : ℤ) - minute
      if elapsed ≤ 0 then counter
      else
        let periods := elapsed / decayMinutes
        if periods ≤ 0 then counter else if counter ≤ periods then 0 else counter - periods

def lfuMinute (nowMs : ℤ) : ℕ := ((nowMs / 1000).tdiv 60 % 65536).toNat

/-- What the sampler ranks a key by; the least is evicted. Deadlines are compared in
nanoseconds, in a word. -/
def EvictionPolicy.rank (p : EvictionPolicy) (minute : ℕ) (decay : ℤ) (e : Tracked) : ℤ :=
  match p with
  | allKeysLFU | volatileLFU => lfuCounter e.freq minute decay
  | volatileTTL => wrap (e.expireAt.getD (-62135596800000) * 1000000)
  | _ => e.atime

def Tracked.expired (nowMs : ℤ) (e : Tracked) : Bool := e.expireAt.any fun d => decide (d ≤ nowMs)

/-- What a call of `EvictOne` does not decide itself: the clock, the shard it starts with
and the order in which a map is walked. -/
structure Draw where
  nowMs : ℤ
  start : ℕ
  order : List Tracked → List Tracked
  perm : ∀ l, (order l).Perm l

structure Sampler where
  samples : ℤ
  decay : ℤ

/-- The loop of `pickVictim`. -/
def pick (p : EvictionPolicy) (o : Sampler) (nowMs : ℤ) :
    ℤ → Option Tracked → ℤ → List Tracked → Option Tracked
  | _, victim, _, [] => victim
  | best, victim, sampled, e :: rest =>
    if p.volatileOnly && e.expireAt.isNone then pick p o nowMs best victim sampled rest
    else if e.expired nowMs || p.random then some e
    else
      let rank := p.rank (lfuMinute nowMs) o.decay e
      let found := if rank < best then (rank, some e) else (best, victim)
      if max o.samples 1 ≤ sampled + 1 then found.2
      else pick p o nowMs found.1 found.2 (sampled + 1) rest

/-- A shard is a map: no key is there twice. -/
structure Shard where
  items : List Tracked
  nodup : (items.map Tracked.key).Nodup

namespace Shard

def used (sh : Shard) : ℕ := (sh.items.map Tracked.size).sum

/-- The count of keys with a deadline that the accounting keeps. -/
def volatile (sh : Shard) : ℕ := sh.items.countP fun e => e.expireAt.isSome

def remove (sh : Shard) (key : Bytes) : Shard where
  items := sh.items.filter fun e => e.key ≠ key
  nodup := sh.nodup.sublist (List.filter_sublist.map _)

/-- `pickVictim`, with the accounting running. -/
def pickVictim (p : EvictionPolicy) (o : Sampler) (d : Draw) (sh : Shard) : Option Tracked :=
  if sh.items = [] then none
  else if p.volatileOnly && sh.volatile == 0 then none
  else pick p o d.nowMs maxInt64 none 0 (d.order sh.items)

end Shard

abbrev Database := List Shard

namespace Database

/-- `Store.UsedMemory`. -/
def used (db : Database) : ℕ := (db.map Shard.used).sum

/-- The loop of `EvictOne` over the shards in the order it visits them. -/
def evictFrom (p : EvictionPolicy) (o : Sampler) (d : Draw) (db : Database) : List ℕ → Option Database
  | [] => none
  | i :: rest =>
    match db[i]? with
    | none => evictFrom p o d db rest
    | some sh =>
      match sh.pickVictim p o d with
      | none => evictFrom p o d db rest
      | some e => some (db.set i (sh.remove e.key))

def evictOne (p : EvictionPolicy) (o : Sampler) (d : Draw) (db : Database) : Option Database :=
  if !p.evicts then none
  else evictFrom p o d db ((List.range db.length).map fun i => (d.start + i) % db.length)

end Database

section Pass

variable (p : EvictionPolicy) (o : Sampler) (budget : ℕ)

end Pass

section Victims

variable {p : EvictionPolicy} {o : Sampler} {d : Draw}

/-- The keys that the search passes over: it starts from the greatest word and looks for
less, which an access time can fail to be. -/
def EvictionPolicy.passesOver (p : EvictionPolicy) (e : Tracked) : Bool :=
  p.mayEvict e && (p.lru && e.atime == maxInt64)

theorem lfuCounter_lt (v now : ℕ) (decay : ℤ) : lfuCounter v now decay < maxInt64 := by
  have hcounter : ((v % 256 : ℕ) : ℤ) < 256 := by omega
  unfold lfuCounter maxInt64
  dsimp only
  split_ifs <;> omega

/-- Deadlines are whole milliseconds, so none of their words is the greatest one. -/
theorem wrap_even_lt (z : ℤ) : wrap (z * 1000000) < maxInt64 := by
  unfold wrap maxInt64
  omega

theorem rank_lt_iff {e : Tracked} (hmay : p.mayEvict e = true) (hp : p.random = false)
    (hev : p.evicts = true) (minute : ℕ) (decay : ℤ) :
    p.rank minute decay e < maxInt64 ↔ p.passesOver e = false := by
  unfold EvictionPolicy.passesOver
  rw [hmay, Bool.true_and]
  cases p with
  | noEviction => cases hev
  | allKeysLFU | volatileLFU => exact ⟨fun _ => rfl, fun _ => lfuCounter_lt _ _ _⟩
  | allKeysRandom | volatileRandom => cases hp
  | volatileTTL => exact ⟨fun _ => rfl, fun _ => wrap_even_lt _⟩
  | allKeysLRU | volatileLRU =>
    simp only [EvictionPolicy.rank, EvictionPolicy.lru, Bool.true_and, beq_eq_false_iff_ne]
    exact ⟨ne_of_lt, lt_of_le_of_ne e.atime_le⟩

theorem skip_eq (p : EvictionPolicy) (e : Tracked) :
    (p.volatileOnly && e.expireAt.isNone) = !p.mayEvict e := by
  rw [EvictionPolicy.mayEvict, Bool.not_or, Bool.not_not, Option.not_isSome]

/-- The search on a key that the policy may not evict, and on one that it may. -/
theorem pick_skip {nowMs best sampled : ℤ} {victim : Option Tracked} {e : Tracked} {rest : List Tracked}
    (h : p.mayEvict e = false) :
    pick p o nowMs best victim sampled (e :: rest) = pick p o nowMs best victim sampled rest := by
  rw [pick, skip_eq, h, if_pos (by simp)]

theorem pick_candidate {nowMs best sampled : ℤ} {victim : Option Tracked} {e : Tracked}
    {rest : List Tracked} (h : p.mayEvict e = true) :
    pick p o nowMs best victim sampled (e :: rest) =
      if e.expired nowMs || p.random then some e
      else if p.rank (lfuMinute nowMs) o.decay e < best then
        if max o.samples 1 ≤ sampled + 1 then some e
        else pick p o nowMs (p.rank (lfuMinute nowMs) o.decay e) (some e) (sampled + 1) rest
      else if max o.samples 1 ≤ sampled + 1 then victim
        else pick p o nowMs best victim (sampled + 1) rest := by
  rw [pick, skip_eq, h, if_neg (by simp)]
  dsimp only
  split_ifs <;> rfl

/-- With those it passes over in front, it finds nothing when they are all it looks at. -/
theorem pick_passed_first (hev : p.evicts = true) {nowMs sampled : ℤ} {l rest : List Tracked}
    (hl : ∀ e ∈ l, p.passesOver e = true ∧ e.expired nowMs = false)
    (hrest : (∀ e ∈ rest, p.mayEvict e = false) ∨ max o.samples 1 ≤ sampled + l.length)
    (hsampled : sampled < max o.samples 1) :
    pick p o nowMs maxInt64 none sampled (l ++ rest) = none := by
  induction l generalizing sampled with
  | nil =>
    have hnone : ∀ e ∈ rest, p.mayEvict e = false := by
      rcases hrest with hrest | hrest
      · exact hrest
      · simp at hrest
        omega
    clear hrest hl
    induction rest with
    | nil => rfl
    | cons e rest ih =>
      obtain ⟨he, hrest⟩ := List.forall_mem_cons.mp hnone
      rw [List.nil_append, pick_skip he]
      exact ih hrest
  | cons e l ih =>
    obtain ⟨⟨hpass, hexp⟩, hl⟩ := List.forall_mem_cons.mp hl
    obtain ⟨hmay, hover⟩ := Bool.and_eq_true_iff.mp hpass
    have hrandom : p.random = false := by
      cases p <;> first | rfl | cases (Bool.and_eq_true_iff.mp hover).1
    have hlt : ¬ p.rank (lfuMinute nowMs) o.decay e < maxInt64 := by
      rw [rank_lt_iff hmay hrandom hev, hpass]
      simp
    rw [List.cons_append, pick_candidate hmay, hexp, hrandom, if_neg (by simp), if_neg hlt]
    split_ifs with hfull
    · rfl
    · refine ih hl (hrest.imp_right fun h => ?_) (by omega)
      simp only [List.length_cons] at h
      push_cast at h
      omega

namespace Shard

variable {sh : Shard}

/-- The keys of a shard that the policy may evict, and those of them that are passed over. -/
def evictable (p : EvictionPolicy) (sh : Shard) : ℕ := sh.items.countP p.mayEvict

def passed (p : EvictionPolicy) (sh : Shard) : ℕ := sh.items.countP p.passesOver

/-- A shard with a key for the policy is ruled out by neither test before the search. -/
theorem pickVictim_eq_pick (h : 0 < sh.evictable p) :
    sh.pickVictim p o d = pick p o d.nowMs maxInt64 none 0 (d.order sh.items) := by
  obtain ⟨e, he, hmay⟩ := List.countP_pos_iff.mp h
  unfold pickVictim
  rw [if_neg (List.ne_nil_of_mem he), if_neg]
  intro hfast
  obtain ⟨hv, hzero⟩ := Bool.and_eq_true_iff.mp hfast
  have hnone := List.countP_eq_zero.mp (beq_iff_eq.mp hzero) e he
  rw [EvictionPolicy.mayEvict, hv, Bool.not_true, Bool.false_or] at hmay
  exact hnone hmay

theorem remove_length {e : Tracked} (h : e ∈ sh.items) :
    (sh.remove e.key).items.length < sh.items.length :=
  List.length_filter_lt_length_iff_exists.mpr ⟨e, h, by simp⟩

end Shard

end Victims

section Databases

variable {p : EvictionPolicy} {o : Sampler} {d : Draw} {db : Database}

namespace Database

theorem evictFrom_eq_none {visits : List ℕ} : evictFrom p o d db visits = none ↔
    ∀ i ∈ visits, ∀ sh, db[i]? = some sh → sh.pickVictim p o d = none := by
  induction visits with
  | nil => simp [evictFrom]
  | cons i rest ih =>
    rw [evictFrom, List.forall_mem_cons]
    cases hi : db[i]? with
    | none => simp [ih]
    | some sh =>
      cases hv : sh.pickVictim p o d with
      | none => simp [ih, hv]
      | some e => simp [hv]

theorem mem_visits {n start j : ℕ} (h : j < n) :
    j ∈ (List.range n).map fun i => (start + i) % n := by
  refine List.mem_map.mpr ⟨(j + n - start % n) % n, List.mem_range.mpr (Nat.mod_lt _ (by omega)), ?_⟩
  have hlt : start % n < n := Nat.mod_lt _ (by omega)
  calc (start + (j + n - start % n) % n) % n
      = (start % n + (j + n - start % n)) % n := by rw [Nat.add_mod, Nat.mod_mod, ← Nat.add_mod,
        ← Nat.mod_add_mod]
    _ = (j + n) % n := by rw [Nat.add_sub_cancel' (by omega)]
    _ = j := by rw [Nat.add_mod_right, Nat.mod_eq_of_lt h]

/-- `EvictOne` finds nothing only where no shard yields a victim. -/
theorem evictOne_eq_none (hev : p.evicts = true) :
    db.evictOne p o d = none ↔ ∀ sh ∈ db, sh.pickVictim p o d = none := by
  unfold evictOne
  rw [hev, if_neg (by simp), evictFrom_eq_none]
  constructor
  · intro h sh hsh
    obtain ⟨j, hj, rfl⟩ := List.getElem_of_mem hsh
    exact h j (mem_visits hj) _ (List.getElem?_eq_getElem hj)
  · intro h i _ sh hi
    exact h sh (List.mem_of_getElem? hi)

end Database

end Databases

/-! ### What giving up says -/

section Evidence

variable {p : EvictionPolicy} {o : Sampler} {budget : ℕ} {dbs : List Database}

end Evidence

end ShardKV.Server
