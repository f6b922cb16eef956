import ShardKV.Commands.Ranges
import ShardKV.Server.Glob

/-! SCAN. The cursor is the number of the next shard, and a call walks whole shards until
it has enough keys. A key is in one shard for good, so whatever is written and deleted
between the calls, an iteration comes to the shard of every key exactly once. -/

namespace ShardKV.Commands

open Data Resp Server Decimal

section Shards

def fnv1a (key : Bytes) : UInt64 :=
  key.foldl (fun h b => (h ^^^ b.toUInt64) * 1099511628211) 14695981039346656037

/-- `getShard`, for `2 ^ bits` shards. -/
def shardIndex (bits : Fin 63) (key : Bytes) : ℕ :=
  (fnv1a key &&& UInt64.ofNat (2 ^ bits.val - 1)).toNat

theorem shardIndex_lt (bits : Fin 63) (key : Bytes) : shardIndex bits key < 2 ^ bits.val := by
  have hpos : 0 < 2 ^ bits.val := Nat.two_pow_pos _
  have hmask : (UInt64.ofNat (2 ^ bits.val - 1)).toNat = 2 ^ bits.val - 1 := by
    refine UInt64.toNat_ofNat_of_lt' ?_
    have : 2 ^ bits.val ≤ 2 ^ 63 := Nat.pow_le_pow_right (by norm_num) (by omega)
    have : (2 : ℕ) ^ 63 < UInt64.size := by decide
    omega
  have hle : shardIndex bits key ≤ 2 ^ bits.val - 1 := by
    rw [shardIndex, UInt64.toNat_and, hmask]
    exact Nat.and_le_right
  omega

variable (S : Type) [Numeric S]

/-- A database at the moment of a call: what is stored, the clock, and the order in which
the map of each shard yields its keys. -/
structure Moment (bits : Fin 63) where
  data : Bytes → Option (Entry S)
  now : Instant
  walk : ℕ → List Bytes
  walk_nodup : ∀ i, (walk i).Nodup
  mem_walk : ∀ i key, key ∈ walk i ↔ (data key).isSome ∧ shardIndex bits key = i

end Shards

section Call

variable {S : Type} [Numeric S] {bits : Fin 63}

def Moment.entry (m : Moment S bits) (key : Bytes) : Option (Entry S) :=
  (m.data key).filter (live m.now)

def Moment.Live (m : Moment S bits) (key : Bytes) : Prop := (m.entry key).isSome

def Moment.shardKeys (m : Moment S bits) (idx : ℕ) : List Bytes :=
  (m.walk idx).filter fun key => (m.entry key).isSome

/-- The loop of `Scan` over the shards from `idx` on, of which so many are left. -/
def Moment.scanLoop (m : Moment S bits) (count : ℤ) : ℕ → ℕ → List Bytes → List Bytes × ℕ
  | 0, idx, keys => (keys, idx)
  | left + 1, idx, keys =>
    let keys := keys ++ m.shardKeys idx
    if count ≤ keys.length then (keys, idx + 1) else m.scanLoop count left (idx + 1) keys

/-- `Store.Scan`. A cursor that is no index of a shard ends the iteration. -/
def Moment.scan (m : Moment S bits) (cursor : Fin (2 ^ 64)) (count : ℤ) : List Bytes × ℕ :=
  let count := if count ≤ 0 then 10 else count
  if 2 ^ 63 ≤ cursor.val ∨ 2 ^ bits.val ≤ cursor.val then ([], 0)
  else
    let r := m.scanLoop count (2 ^ bits.val - cursor.val) cursor.val []
    if 2 ^ bits.val ≤ r.2 then (r.1, 0) else r

structure ScanOpts where
  pattern : Bytes
  hasPattern : Bool
  count : ℤ
  typeFilter : Bytes

def noScanOpts : ScanOpts := ⟨[], false, 10, []⟩

/-- `parseScanOpts` for SCAN, which has a TYPE and no NOVALUES. -/
def parseScanOpts : ScanOpts → List Bytes → Except Reply ScanOpts
  | o, [] => .ok o
  | _, [_] => .error syntaxErr
  | o, name :: value :: rest =>
    if isWord name "MATCH" then
      parseScanOpts { o with pattern := value, hasPattern := decide (value ≠ ascii "*") } rest
    else if isWord name "COUNT" then
      match parseInt64 value with
      | none => .error notIntegerErr
      | some n =>
        if n < 1 then .error syntaxErr else parseScanOpts { o with count := min n (2 ^ 31 - 1) } rest
    else if isWord name "TYPE" then parseScanOpts { o with typeFilter := toLower value } rest
    else .error syntaxErr

/-- Whether a key passes MATCH and TYPE. -/
def Moment.passes (m : Moment S bits) (o : ScanOpts) (key : Bytes) : Bool :=
  (!o.hasPattern || globMatch o.pattern key) &&
    (decide (o.typeFilter = []) ||
      match m.entry key with
      | none => false
      | some e => decide (ascii (Value.typeName e.value) = o.typeFilter))

/-- One call: the keys it returns and the next cursor. -/
def Moment.call (m : Moment S bits) (o : ScanOpts) (cursor : Fin (2 ^ 64)) : List Bytes × ℕ :=
  let r := m.scan cursor o.count
  (r.1.filter (m.passes o), r.2)

/-- `writeScanReply`. -/
def scanReply (next : ℕ) (keys : List Bytes) : Reply :=
  .array [.bulk (itoa next), .array (keys.map .bulk)]

def cmdScan (m : Moment S bits) : Args → Reply
  | _ :: cursor :: opts =>
    match parseUint64 cursor with
    | none => errorReply "ERR invalid cursor"
    | some cursor =>
      match parseScanOpts noScanOpts opts with
      | .error r => r
      | .ok o => scanReply (m.call o cursor).2 (m.call o cursor).1
  | _ => syntaxErr

/-- An iteration: the calls from the `i`-th on, each at its own moment and with the cursor
that the one before it returned, up to the one that returns the cursor 0. Nothing when
that takes more calls than allowed. -/
def iterate (moments : ℕ → Moment S bits) (opts : ℕ → ScanOpts) :
    ℕ → ℕ → Fin (2 ^ 64) → Option (List (List Bytes))
  | 0, _, _ => none
  | calls + 1, i, cursor =>
    let r := (moments i).call (opts i) cursor
    if r.2 = 0 then some [r.1]
    else (iterate moments opts calls (i + 1) (Fin.ofNat (2 ^ 64) r.2)).map (r.1 :: ·)

end Call

variable {S : Type} [Numeric S] {bits : Fin 63}

theorem mem_shardKeys {m : Moment S bits} {idx : ℕ} {key : Bytes} :
    key ∈ m.shardKeys idx ↔ m.Live key ∧ shardIndex bits key = idx := by
  rw [Moment.shardKeys, List.mem_filter, m.mem_walk, Moment.Live, Moment.entry]
  constructor
  · rintro ⟨⟨-, hidx⟩, hlive⟩
    exact ⟨hlive, hidx⟩
  · rintro ⟨hlive, hidx⟩
    refine ⟨⟨?_, hidx⟩, hlive⟩
    cases hd : m.data key with
    | none => rw [hd] at hlive; exact absurd hlive (by simp)
    | some e => rfl

/-- A call walks one shard at least and no shard twice. -/
theorem scanLoop_eq (m : Moment S bits) (count : ℤ) {left : ℕ} (hleft : 0 < left) (idx : ℕ)
    (keys : List Bytes) : ∃ n, 0 < n ∧ n ≤ left ∧
      m.scanLoop count left idx keys = (keys ++ (List.range' idx n).flatMap m.shardKeys, idx + n) := by
  induction left generalizing idx keys with
  | zero => omega
  | succ left ih =>
    simp only [Moment.scanLoop]
    split_ifs with hcount
    · exact ⟨1, by omega, by omega, by simp⟩
    · cases left with
      | zero => exact ⟨1, by omega, by omega, by simp [Moment.scanLoop]⟩
      | succ left =>
        obtain ⟨n, hpos, hle, heq⟩ := ih (by omega) (idx + 1) (keys ++ m.shardKeys idx)
        refine ⟨n + 1, by omega, by omega, ?_⟩
        rw [heq, List.range'_succ, List.flatMap_cons, List.append_assoc, Nat.add_assoc, Nat.add_comm 1]

/-- What a call with a cursor below the number of shards returns: the keys of the shards from
there up to another, which is the next cursor. -/
theorem call_eq (m : Moment S bits) (o : ScanOpts) {cursor : Fin (2 ^ 64)}
    (h : cursor.val < 2 ^ bits.val) : ∃ n, 0 < n ∧ cursor.val + n ≤ 2 ^ bits.val ∧
      m.call o cursor =
        (((List.range' cursor.val n).flatMap m.shardKeys).filter (m.passes o),
          if cursor.val + n = 2 ^ bits.val then 0 else cursor.val + n) := by
  have hbits : 2 ^ bits.val ≤ 2 ^ 63 := Nat.pow_le_pow_right (by norm_num) (by omega)
  obtain ⟨n, hpos, hle, heq⟩ := scanLoop_eq m (if o.count ≤ 0 then 10 else o.count)
    (Nat.sub_pos_of_lt h) cursor.val []
  refine ⟨n, hpos, by omega, ?_⟩
  rw [Moment.call, Moment.scan, if_neg (by omega), heq]
  by_cases hend : cursor.val + n = 2 ^ bits.val
  · simp [hend]
  · simp [hend, show ¬ 2 ^ bits.val ≤ cursor.val + n by omega]

theorem mem_shards {m : Moment S bits} {start n : ℕ} {key : Bytes} :
    key ∈ (List.range' start n).flatMap m.shardKeys ↔
      m.Live key ∧ start ≤ shardIndex bits key ∧ shardIndex bits key < start + n := by
  simp only [List.mem_flatMap, List.mem_range'_1, mem_shardKeys]
  constructor
  · rintro ⟨idx, hidx, hlive, rfl⟩
    exact ⟨hlive, hidx⟩
  · rintro ⟨hlive, hidx⟩
    exact ⟨_, hidx, hlive, rfl⟩

theorem nodup_shards (m : Moment S bits) (start n : ℕ) :
    ((List.range' start n).flatMap m.shardKeys).Nodup := by
  refine List.nodup_flatMap.2 ⟨fun i _ => (m.walk_nodup i).filter _, ?_⟩
  refine List.Pairwise.imp (fun hne => ?_) (List.nodup_range' (s := start) (n := n))
  rw [Function.onFun, List.disjoint_left]
  intro key hi hj
  exact hne ((mem_shardKeys.1 hi).2.symm.trans (mem_shardKeys.1 hj).2)

/-- What the batches of an iteration have to be, for the part of it that starts with the
`i`-th call and the shard `start`. -/
structure CompleteScan (moments : ℕ → Moment S bits) (opts : ℕ → ScanOpts) (i start : ℕ)
    (batches : List (List Bytes)) : Prop where
  covers : ∀ key, start ≤ shardIndex bits key →
    (∀ j < batches.length,
      (moments (i + j)).Live key ∧ (moments (i + j)).passes (opts (i + j)) key) →
    key ∈ batches.flatten
  sound : ∀ j key, key ∈ batches.getD j [] →
    (moments (i + j)).Live key ∧ start ≤ shardIndex bits key
  nodup : batches.flatten.Nodup

theorem CompleteScan.last (moments : ℕ → Moment S bits) (opts : ℕ → ScanOpts) (i start n : ℕ)
    (hend : start + n = 2 ^ bits.val) :
    CompleteScan moments opts i start
      [((List.range' start n).flatMap (moments i).shardKeys).filter ((moments i).passes (opts i))]
    where
  covers key hstart hall := by
    obtain ⟨hlive, hpass⟩ := hall 0 (by simp)
    have hlt := shardIndex_lt bits key
    have hmem : key ∈ (List.range' start n).flatMap (moments i).shardKeys :=
      mem_shards.2 ⟨hlive, hstart, by omega⟩
    rw [List.flatten_singleton]
    exact List.mem_filter.2 ⟨hmem, hpass⟩
  sound j key hkey := by
    cases j with
    | zero =>
      obtain ⟨hlive, hstart, -⟩ := mem_shards.1 (List.mem_filter.1 hkey).1
      exact ⟨hlive, hstart⟩
    | succ j => simp at hkey
  nodup := by simpa using (nodup_shards _ _ _).filter _

theorem CompleteScan.cons {moments : ℕ → Moment S bits} {opts : ℕ → ScanOpts} {i start n : ℕ}
    {batches : List (List Bytes)} (h : CompleteScan moments opts (i + 1) (start + n) batches) :
    CompleteScan moments opts i start
      (((List.range' start n).flatMap (moments i).shardKeys).filter ((moments i).passes (opts i))
        :: batches) where
  covers key hstart hall := by
    rw [List.flatten_cons, List.mem_append]
    by_cases hlt : shardIndex bits key < start + n
    · obtain ⟨hlive, hpass⟩ := hall 0 (by simp)
      exact .inl (List.mem_filter.2 ⟨mem_shards.2 ⟨hlive, hstart, hlt⟩, hpass⟩)
    · refine .inr (h.covers key (by omega) fun j hj => ?_)
      have := hall (j + 1) (by simpa using hj)
      rwa [show i + 1 + j = i + (j + 1) by omega]
  sound j key hkey := by
    cases j with
    | zero =>
      obtain ⟨hlive, hstart, -⟩ := mem_shards.1 (List.mem_filter.1 hkey).1
      exact ⟨hlive, hstart⟩
    | succ j =>
      obtain ⟨hlive, hstart⟩ := h.sound j key (by simpa using hkey)
      exact ⟨by rwa [show i + (j + 1) = i + 1 + j by omega], by omega⟩
  nodup := by
    rw [List.flatten_cons]
    refine List.Nodup.append ((nodup_shards _ _ _).filter _) h.nodup ?_
    rw [List.disjoint_left]
    intro key hfirst hrest
    obtain ⟨batch, hbatch, hkey⟩ := List.mem_flatten.1 hrest
    obtain ⟨j, hj, rfl⟩ := List.getElem_of_mem hbatch
    have hlater := (h.sound j key (by simpa [hj] using hkey)).2
    have hearlier := (mem_shards.1 (List.mem_filter.1 hfirst).1).2.2
    omega

/-- The iteration from any cursor on. The cursor grows with every call. -/
theorem iterate_complete (moments : ℕ → Moment S bits) (opts : ℕ → ScanOpts) {calls : ℕ} (i : ℕ)
    {cursor : Fin (2 ^ 64)} (hlt : cursor.val < 2 ^ bits.val)
    (hcalls : 2 ^ bits.val ≤ cursor.val + calls) :
    ∃ batches, iterate moments opts calls i cursor = some batches ∧
      CompleteScan moments opts i cursor.val batches := by
  induction calls generalizing i cursor with
  | zero => omega
  | succ calls ih =>
    obtain ⟨n, hpos, hle, hcall⟩ := call_eq (moments i) (opts i) hlt
    rw [iterate, hcall]
    by_cases hend : cursor.val + n = 2 ^ bits.val
    · exact ⟨_, by simp [hend], .last moments opts i _ n hend⟩
    · have hbits : 2 ^ bits.val ≤ 2 ^ 63 := Nat.pow_le_pow_right (by norm_num) (by omega)
      have hval : (Fin.ofNat (2 ^ 64) (cursor.val + n)).val = cursor.val + n :=
        Nat.mod_eq_of_lt (by omega)
      obtain ⟨batches, hrun, hrest⟩ := @ih (i + 1) (Fin.ofNat (2 ^ 64) (cursor.val + n))
        (by omega) (by omega)
      rw [hval] at hrest
      refine ⟨_, ?_, hrest.cons⟩
      simp only [if_neg hend, if_neg (show cursor.val + n ≠ 0 by omega), hrun, Option.map_some]

theorem iterate_length {moments : ℕ → Moment S bits} {opts : ℕ → ScanOpts} {calls i : ℕ}
    {cursor : Fin (2 ^ 64)} {batches : List (List Bytes)}
    (h : iterate moments opts calls i cursor = some batches) : batches.length ≤ calls := by
  induction calls generalizing i cursor batches with
  | zero => cases h
  | succ calls ih =>
    rw [iterate] at h
    split at h
    · cases h; simp
    · obtain ⟨rest, hrest, rfl⟩ := Option.map_eq_some_iff.1 h
      simpa using ih hrest

theorem passes_plain (m : Moment S bits) {o : ScanOpts} (hmatch : o.hasPattern = false)
    (htype : o.typeFilter = []) (key : Bytes) : m.passes o key := by
  simp [Moment.passes, hmatch, htype]

/-- The handler answers with what one call of the iteration returns. -/
theorem cmdScan_call (m : Moment S bits) (name : Bytes) (cursor : Fin (2 ^ 64)) {opts : List Bytes}
    {o : ScanOpts} (h : parseScanOpts noScanOpts opts = .ok o) :
    cmdScan m (name :: itoa cursor.val :: opts) =
      scanReply (m.call o cursor).2 (m.call o cursor).1 := by
  simp only [cmdScan, parseUint64_itoa, h]

/-- Whatever is stored at the moments of its calls and whatever their options, an iteration
from the cursor 0 ends within as many calls as there are shards. It returns every key that is
live and wanted at each of its calls, each key of a batch is live at the moment of its call,
and no key is returned twice. -/
theorem scan_returns_once (bits : Fin 63) (moments : ℕ → Moment S bits) (opts : ℕ → ScanOpts) :
    ∃ batches, iterate moments opts (2 ^ bits.val) 0 0 = some batches ∧
      batches.length ≤ 2 ^ bits.val ∧
      (∀ key, (∀ j < batches.length, (moments j).Live key ∧ (moments j).passes (opts j) key) →
        key ∈ batches.flatten) ∧
      (∀ j key, key ∈ batches.getD j [] → (moments j).Live key) ∧
      batches.flatten.Nodup := by
  have hstart : (0 : Fin (2 ^ 64)).val < 2 ^ bits.val := Nat.two_pow_pos _
  obtain ⟨batches, hrun, hall⟩ := iterate_complete moments opts 0 hstart (Nat.le_add_left _ _)
  refine ⟨batches, hrun, iterate_length hrun, fun key hkey => ?_, fun j key hkey => ?_, hall.nodup⟩
  · exact hall.covers key (Nat.zero_le _) (by simpa using hkey)
  · simpa using (hall.sound j key hkey).1

end ShardKV.Commands
