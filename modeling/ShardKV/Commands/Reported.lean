import ShardKV.Commands.Complete

/-! The whole table of write commands. Commands whose values are not modelled enter by
their footprint alone: any handler that writes the keys their operands name, and no
other. For SORT and GEORADIUS those operands are found by the option parser, while the
report scans for a keyword; the two agree on everything that parses. -/

namespace ShardKV.Commands

open Access Data Resp Server Prog

/-- `parseSort`, as far as the destination goes. -/
def parseSort : Option Bytes → List Bytes → Except Reply (Option Bytes)
  | d, [] => .ok d
  | d, a :: rest =>
    if isWord a "ASC" || isWord a "DESC" || isWord a "ALPHA" then parseSort d rest
    else if isWord a "BY" || isWord a "GET" then
      match rest with
      | [] => .error syntaxErr
      | _ :: rest => parseSort d rest
    else if isWord a "LIMIT" then
      match rest with
      | start :: count :: rest =>
        match parseInt64 start, parseInt64 count with
        | some _, some _ => parseSort d rest
        | _, _ => .error notIntegerErr
      | _ => .error syntaxErr
    else if isWord a "STORE" then
      match rest with
      | [] => .error syntaxErr
      | dst :: rest => parseSort (some dst) rest
    else .error syntaxErr

def sortTargets : Args → List Bytes
  | _ :: _ :: opts =>
    match parseSort none opts with
    | .error _ => []
    | .ok dst => dst.toList
  | _ => []

/-- The options of GEORADIUS and GEORADIUSBYMEMBER. -/
structure GeoTail where
  sawCount : Bool
  asc : Bool
  desc : Bool
  annotated : Bool
  storeKey : Bytes
  storeDistKey : Bytes

def noGeoTail : GeoTail := ⟨false, false, false, false, [], []⟩

def parseGeoRadiusTail : GeoTail → List Bytes → Except Reply GeoTail
  | t, [] => if t.asc && t.desc then .error syntaxErr else .ok t
  | t, a :: rest =>
    if isWord a "WITHCOORD" || isWord a "WITHDIST" || isWord a "WITHHASH" then
      parseGeoRadiusTail { t with annotated := true } rest
    else if isWord a "ASC" then parseGeoRadiusTail { t with asc := true } rest
    else if isWord a "DESC" then parseGeoRadiusTail { t with desc := true } rest
    else if isWord a "ANY" then
      if !t.sawCount then .error (errorReply "ERR the ANY argument requires COUNT argument")
      else parseGeoRadiusTail t rest
    else if isWord a "COUNT" then
      match rest with
      | [] => .error syntaxErr
      | n :: rest =>
        match parseInt64 n with
        | none => .error (errorReply "ERR COUNT must be > 0")
        | some n =>
          if n ≤ 0 then .error (errorReply "ERR COUNT must be > 0")
          else parseGeoRadiusTail { t with sawCount := true } rest
    else if isWord a "STORE" then
      match rest with
      | [] => .error syntaxErr
      | key :: rest => parseGeoRadiusTail { t with storeKey := key } rest
    else if isWord a "STOREDIST" then
      match rest with
      | [] => .error syntaxErr
      | key :: rest => parseGeoRadiusTail { t with storeDistKey := key } rest
    else .error syntaxErr

/-- The units of `geoUnits`. -/
def geoUnit (b : Bytes) : Bool := decide (fold b ∈ ["M", "KM", "MI", "FT"].map ascii)

/-- The key a radius search stores to, with its unit at `pos` and its options after
it. Whether the numbers before the unit parse makes no difference here. -/
def geoTargets (pos : ℕ) (args : Args) : List Bytes :=
  match args.drop pos with
  | [] => []
  | unit :: tail =>
    if !geoUnit unit then []
    else
      match parseGeoRadiusTail noGeoTail tail with
      | .error _ => []
      | .ok t =>
        if (t.storeKey ≠ [] ∨ t.storeDistKey ≠ []) ∧ t.annotated then []
        else if t.storeDistKey ≠ [] then [t.storeDistKey]
        else if t.storeKey ≠ [] then [t.storeKey]
        else []

theorem isWord_other {a : Bytes} {word : String} (h : isWord a word = true) (other : String)
    (hne : ascii word ≠ ascii other) : isWord a other = false := by
  simp only [isWord, isWord_eq h, beq_eq_false_iff_ne]
  exact hne

theorem digit_lt {b : UInt8} (h : (b - 48).toNat ≤ 9) : b < 58 := by
  rw [UInt8.toNat_sub] at h
  rw [UInt8.lt_iff_toNat_lt]
  have hb := b.toNat_lt
  simp at *
  omega

/-- What parses as an integer starts with a sign or a digit. -/
theorem parseInt64_head {b : Bytes} {z : ℤ} (h : parseInt64 b = some z) :
    ∃ c bs, b = c :: bs ∧ c < 58 := by
  unfold parseInt64 at h
  split at h
  · exact ⟨_, _, rfl, by decide⟩
  · exact ⟨_, _, rfl, by decide⟩
  · obtain ⟨n, hn, -⟩ := Option.map_eq_some_iff.mp h
    cases b with
    | nil => exact absurd hn (by simp [parseUint])
    | cons c bs =>
      refine ⟨c, bs, rfl, digit_lt ?_⟩
      rw [parseUint, if_neg (by simp), Decimal.readDigits] at hn
      by_contra hlt
      rw [if_pos (by omega)] at hn
      exact absurd hn (by simp)

theorem sortDestination_skip {a : Bytes} (hlimit : isWord a "LIMIT" = false)
    (hby : isWord a "BY" = false) (hget : isWord a "GET" = false)
    (hstore : isWord a "STORE" = false) (d : Option Bytes) (rest : List Bytes) :
    sortDestination d (a :: rest) = sortDestination d rest := by
  cases rest with
  | nil => rw [sortDestination, sortDestination]
  | cons b rest => simp [sortDestination, hlimit, hby, hget, hstore]

/-- The scan for the last STORE finds what the parser found. -/
theorem parseSort_destination {d d' : Option Bytes} {opts : List Bytes}
    (h : parseSort d opts = .ok d') : sortDestination d opts = d' := by
  fun_induction parseSort d opts with
  | case1 d => rw [sortDestination, Except.ok.inj h]
  | case2 d a rest hword ih =>
    rw [sortDestination_skip _ _ _ _ d rest]
    · exact ih h
    all_goals
      simp only [Bool.or_eq_true] at hword
      obtain (hword | hword) | hword := hword <;> exact isWord_other hword _ (by decide)
  | case4 d a _ hword b rest ih =>
    have hlimit : isWord a "LIMIT" = false := by
      obtain hword | hword := Bool.or_eq_true _ _ ▸ hword <;> exact isWord_other hword _ (by decide)
    rw [sortDestination, if_neg (by simp [hlimit]), if_pos hword]
    exact ih h
  | case5 d a _ _ hlimit start count rest _ _ _ _ ih =>
    rw [sortDestination, if_pos hlimit]
    exact ih h
  | case9 d a _ hby hlimit hstore dst rest ih =>
    rw [sortDestination, if_neg hlimit, if_neg hby, if_pos hstore]
    exact ih h
  | case3 | case6 | case7 | case8 | case10 => exact absurd h (by simp)

theorem sortTargets_subset (args : Args) : sortTargets args ⊆ sortKeys args := by
  intro key hkey
  unfold sortTargets at hkey
  split at hkey
  · rename_i name src opts
    cases hparse : parseSort none opts with
    | error e => simp [hparse] at hkey
    | ok dst =>
      rw [hparse] at hkey
      rw [sortKeys, parseSort_destination hparse]
      exact List.mem_cons_of_mem _ hkey
  · exact absurd hkey List.not_mem_nil

theorem storeOperands_cons {a : Bytes} (h : isWord a "STORE" = false ∧ isWord a "STOREDIST" = false)
    (rest : List Bytes) : storeOperands (a :: rest) = storeOperands rest := by
  cases rest with
  | nil => rfl
  | cons b rest => simp [storeOperands, h]

/-- The scan comes to the start of the options, since what stands before them ends in
a word that is none of its keywords. -/
theorem storeOperands_append {u : Bytes} (h : isWord u "STORE" = false ∧ isWord u "STOREDIST" = false)
    (pre tail : List Bytes) : storeOperands tail ⊆ storeOperands (pre ++ u :: tail) := by
  fun_induction storeOperands pre with
  | case1 a b rest hword ih =>
    simp only [List.cons_append, storeOperands, if_pos hword]
    exact List.Subset.trans ih (List.subset_cons_self _ _)
  | case2 a b rest hword ih =>
    simp only [List.cons_append, storeOperands, if_neg hword]
    exact ih
  | case3 pre hpre =>
    match pre, hpre with
    | [], _ => exact (storeOperands_cons h tail).symm ▸ List.Subset.refl _
    | [a], _ =>
      simp only [List.cons_append, List.nil_append, storeOperands]
      split
      · exact List.subset_cons_self _ _
      · exact (storeOperands_cons h tail).symm ▸ List.Subset.refl _
    | a :: b :: rest, hpre => exact absurd rfl (hpre a b rest)

/-- What upper-cases to an S folds to one. -/
theorem fold_head {b : Bytes} (h : (toUpper b).head? = some 83) : (fold b).head? = some 83 := by
  unfold toUpper at h
  split at h
  · simp at h
  · rw [fold]
    rfl
  · simp only [List.head?_cons, Option.some.injEq] at h
    rw [fold]
    · exact congrArg some h
    · rintro _ rfl
      exact absurd h (by decide)
    · rintro _ rfl
      exact absurd h (by decide)
  · simp at h

theorem not_store_of_head {b : Bytes} (h : (fold b).head? ≠ some 83) :
    isWord b "STORE" = false ∧ isWord b "STOREDIST" = false := by
  constructor <;>
  · rw [isWord, beq_eq_false_iff_ne]
    intro hw
    exact h (fold_head (by rw [hw]; decide))

theorem geoUnit_not_store {u : Bytes} (h : geoUnit u = true) :
    isWord u "STORE" = false ∧ isWord u "STOREDIST" = false := by
  refine not_store_of_head ?_
  have hu := of_decide_eq_true h
  simp only [List.map_cons, List.map_nil, List.mem_cons, List.not_mem_nil, or_false] at hu
  obtain hu | hu | hu | hu := hu <;> rw [hu] <;> decide

theorem upperByte_numeral : ∀ c : UInt8, c < 58 → upperByte c ≠ 83 := by
  decide +kernel

theorem numeral_not_store {b : Bytes} {z : ℤ} (h : parseInt64 b = some z) :
    isWord b "STORE" = false ∧ isWord b "STOREDIST" = false := by
  obtain ⟨c, bs, rfl, hc⟩ := parseInt64_head h
  refine not_store_of_head ?_
  rw [fold]
  · simpa using upperByte_numeral c hc
  · rintro _ rfl
    exact absurd hc (by decide)
  · rintro _ rfl
    exact absurd hc (by decide)

theorem word_not_store {a : Bytes} {word : String} (h : isWord a word = true)
    (hs : ascii word ≠ ascii "STORE") (hd : ascii word ≠ ascii "STOREDIST") :
    isWord a "STORE" = false ∧ isWord a "STOREDIST" = false :=
  ⟨isWord_other h _ hs, isWord_other h _ hd⟩

theorem parseGeoRadiusTail_stores {t t' : GeoTail} {opts : List Bytes}
    (h : parseGeoRadiusTail t opts = .ok t') :
    (t'.storeKey = t.storeKey ∨ t'.storeKey ∈ storeOperands opts) ∧
      (t'.storeDistKey = t.storeDistKey ∨ t'.storeDistKey ∈ storeOperands opts) := by
  fun_induction parseGeoRadiusTail t opts with
  | case2 t => cases h; exact ⟨.inl rfl, .inl rfl⟩
  | case3 t a rest hword ih =>
    rw [storeOperands_cons ?_]
    · exact ih h
    simp only [Bool.or_eq_true] at hword
    obtain (hword | hword) | hword := hword <;>
      exact word_not_store hword (by decide) (by decide)
  | case4 _ _ _ _ hword ih | case5 _ _ _ _ _ hword ih | case7 _ _ _ _ _ _ hword _ ih =>
    rw [storeOperands_cons (word_not_store hword (by decide) (by decide))]
    exact ih h
  | case11 t a _ _ _ _ hword n rest z hn _ ih =>
    rw [storeOperands_cons (word_not_store hword (by decide) (by decide)),
      storeOperands_cons (numeral_not_store hn)]
    exact ih h
  | case13 t a _ _ _ _ _ hword key rest ih =>
    rw [storeOperands, if_pos (by simp [hword])]
    obtain ⟨hkey, hdist⟩ := ih h
    refine ⟨.inr ?_, hdist.imp_right (List.mem_cons_of_mem _)⟩
    exact hkey.elim (fun hk => hk ▸ List.mem_cons_self) (List.mem_cons_of_mem _)
  | case15 t a _ _ _ _ _ _ hword key rest ih =>
    rw [storeOperands, if_pos (by simp [hword])]
    obtain ⟨hkey, hdist⟩ := ih h
    refine ⟨hkey.imp_right (List.mem_cons_of_mem _), .inr ?_⟩
    exact hdist.elim (fun hk => hk ▸ List.mem_cons_self) (List.mem_cons_of_mem _)
  | case1 | case6 | case8 | case9 | case10 | case12 | case14 | case16 => exact absurd h (by simp)

theorem geoTargets_subset {pos : ℕ} (hpos : 2 ≤ pos) (args : Args) :
    geoTargets pos args ⊆ georadiusKeys args := by
  intro key hkey
  unfold geoTargets at hkey
  split at hkey
  · exact absurd hkey List.not_mem_nil
  rename_i unit tail hdrop
  split_ifs at hkey with hunit
  · exact absurd hkey List.not_mem_nil
  have hu := geoUnit_not_store (u := unit) (by simpa using hunit)
  -- the operand that the parser chose is one that the scan finds
  have hmem : key ∈ storeOperands tail := by
    cases hparse : parseGeoRadiusTail noGeoTail tail with
    | error e => simp [hparse] at hkey
    | ok t =>
      rw [hparse] at hkey
      obtain ⟨hs, hd⟩ := parseGeoRadiusTail_stores hparse
      dsimp only at hkey
      split_ifs at hkey with _ hdist hstore
      · exact absurd hkey List.not_mem_nil
      · exact List.mem_singleton.mp hkey ▸ hd.resolve_left hdist
      · exact List.mem_singleton.mp hkey ▸ hs.resolve_left hstore
      · exact absurd hkey List.not_mem_nil
  match args, hdrop with
  | [], hdrop => simp at hdrop
  | [_], hdrop =>
    obtain ⟨p, rfl⟩ : ∃ p, pos = p + 1 := ⟨pos - 1, by omega⟩
    simp at hdrop
  | name :: src :: rest, hdrop =>
    obtain ⟨p, rfl⟩ : ∃ p, pos = p + 2 := ⟨pos - 2, by omega⟩
    rw [georadiusKeys]
    refine List.mem_cons_of_mem _ ?_
    have hrest : rest = rest.take p ++ unit :: tail := by
      conv_lhs => rw [← List.take_append_drop p rest]
      exact congrArg _ hdrop
    exact hrest ▸ storeOperands_append hu _ tail hmem

section Registry

variable {S : Type} [Numeric S]

def streamCommands : List (String × Command S) :=
  [("XADD", ⟨-5, .effect cmdXAdd⟩), ("XDEL", ⟨-3, .write cmdXDel⟩), ("XTRIM", ⟨-4, .write cmdXTrim⟩),
    ("XSETID", ⟨-3, .write cmdXSetID⟩), ("XACK", ⟨-4, .write cmdXAck⟩),
    ("XGROUP", ⟨-2, .effect cmdXGroup⟩), ("XCLAIM", ⟨-6, .effect cmdXClaim⟩),
    ("XAUTOCLAIM", ⟨-6, .effect cmdXAutoClaim⟩), ("XREADGROUP", ⟨-7, .block blockingXReadGroup⟩)]

/-- A write known by its name, its arity and the keys its operands have it write. -/
structure Confined where
  name : String
  arity : ℤ
  targets : Args → List Bytes

def operand (i : ℕ) (args : Args) : List Bytes := args[i]?.toList

def confinedCommands : List Confined :=
  [⟨"SETBIT", 4, operand 1⟩, ⟨"BITFIELD", -2, operand 1⟩, ⟨"BITOP", -4, operand 2⟩,
    ⟨"PFADD", -2, operand 1⟩, ⟨"PFMERGE", -2, operand 1⟩, ⟨"GEOADD", -5, operand 1⟩,
    ⟨"GEOSEARCHSTORE", -8, operand 1⟩, ⟨"GEORADIUS", -6, geoTargets 5⟩,
    ⟨"GEORADIUSBYMEMBER", -5, geoTargets 4⟩, ⟨"SORT", -2, sortTargets⟩,
    ⟨"RESTORE", -4, operand 1⟩, ⟨"MIGRATE", -6, migrateKeys⟩]

/-- The commands whose watchers `touchWatchers` finds without a list of keys. -/
def wholesale : List String := ["FLUSHALL", "FLUSHDB", "SWAPDB"]

/-- The write commands of the command table. -/
inductive WriteCommand (n : String) (c : Command S) : Prop
  | modelled (hmem : (n, c) ∈ dataCommands ++ streamCommands) (hw : c.isWrite = true)
      (hn : n ∉ wholesale)
  | confined (t : Confined) (ht : t ∈ confinedCommands) (hn : t.name = n) (ha : c.arity = t.arity)
      (hb : blocks c = false)
      (hf : ∀ v env args, (c.apply v env args).WritesIn (listedKeys v (t.targets args)))

/-- What the operands of the four commands that report too little have to satisfy. -/
structure ReportsAll (n : String) (v : View) (args : Args) : Prop where
  lmpop : n = "LMPOP" → NamedByCount "LEFT" "RIGHT" args
  zmpop : n = "ZMPOP" → NamedByCount "MIN" "MAX" args
  copy : n = "COPY" → OneTarget v args
  xreadgroup : n = "XREADGROUP" → RefusedUnread args

/-- The command is none of the four, and its keys are found in this way. -/
def regular (n : String) (shape : KeyShape) : Bool :=
  decide (keyShape (ascii n) = shape ∧
    ascii n ∉ ["LMPOP", "ZMPOP", "COPY", "XREADGROUP"].map ascii)

theorem reportsAll_of_regular {n : String} {shape : KeyShape} (h : regular n shape = true)
    (v : View) (args : Args) : ReportsAll n v args := by
  have hnot := (of_decide_eq_true h).2
  constructor <;> rintro rfl <;> exact absurd hnot (by decide)

/-- What a registered write has to satisfy. -/
def EntryComplete (p : String × Command S) : Prop :=
  p.2.isWrite = true → p.1 ∉ wholesale → ∀ (v : View) (args : Args),
    args.head?.map toUpper = some (ascii p.1) → arityOK p.2.arity args.length = true →
      (Complete p.2 v args ↔ ReportsAll p.1 v args)

/-- The writes that bring no key into being where cluster mode is on. -/
def barrenCommands : List String :=
  ["FLUSHALL", "FLUSHDB", "SWAPDB", "MOVE", "BLPOP", "BRPOP", "LMPOP", "BLMPOP", "ZMPOP",
    "BZPOPMIN", "BZPOPMAX", "BZMPOP", "XREADGROUP"]

/-- In cluster mode, a key of the caller's database that a registered write brings into
being is one that `affectedKeys` lists, and the write is none of those. -/
def EntryCreates (p : String × Command S) : Prop :=
  p.2.isWrite = true → ∀ (v : View) (env : Env) (args : Args), v.cluster = true →
    args.head?.map toUpper = some (ascii p.1) → arityOK p.2.arity args.length = true →
      ∀ (vis : Entry S → Bool) (s : Dataset S) (key : Bytes), seen vis s (v.loc key) = none →
        seen vis ((p.2.apply v env args).run vis s).2 (v.loc key) ≠ none →
          key ∈ affectedKeys (ascii p.1) args ∧ p.1 ∉ barrenCommands

structure EntryKnown (p : String × Command S) : Prop where
  complete : EntryComplete p
  creates : EntryCreates p

end Registry

section Entries

variable {S : Type} [Numeric S] {n : String} {arity : ℤ}

/-- The command writes nothing but the keys that `affectedKeys` lists. -/
def EntryConfined (n : String) (c : Command S) : Prop :=
  ∀ (v : View) (env : Env) (args : Args), arityOK c.arity args.length = true →
    (c.apply v env args).WritesIn (listedKeys v (affectedKeys (ascii n) args))

theorem entryCreates_confined {c : Command S} (hbar : n ∉ barrenCommands)
    (h : EntryConfined n c) : EntryCreates (n, c) := by
  intro _ v env args _ _ ha vis s key hnone hsome
  obtain ⟨key', hkey, heq⟩ := mem_of_created (h v env args ha) vis hnone hsome
  obtain rfl : key = key' := congrArg Prod.snd heq
  exact ⟨hkey, hbar⟩

theorem entryCreates_barren {c : Command S}
    (h : ∀ (v : View) (env : Env) (args : Args), v.cluster = true → (c.apply v env args).Barren) :
    EntryCreates (n, c) :=
  fun _ v env args hcl _ _ vis s key hnone hsome =>
    absurd (h v env args hcl vis s (v.loc key) hnone) hsome

/-- The name is regular, and a regular name of a command that may create keys. -/
def fertile (n : String) (shape : KeyShape) : Bool :=
  regular n shape && decide (n ∉ barrenCommands)

theorem entryComplete_regular {c : Command S} (shape : KeyShape) (hn : regular n shape = true)
    (h : ∀ (v : View) (args : Args), args.head?.map toUpper = some (ascii n) →
      arityOK c.arity args.length = true → Complete c v args) : EntryComplete (n, c) :=
  fun _ _ v args hname ha => iff_of_true (h v args hname ha) (reportsAll_of_regular hn v args)

theorem entryKnown_confined {c : Command S} (hb : blocks c = false) (shape : KeyShape)
    (hn : fertile n shape = true) (h : EntryConfined n c) : EntryKnown (n, c) := by
  obtain ⟨hreg, hbar⟩ := Bool.and_eq_true_iff.mp hn
  refine ⟨entryComplete_regular shape hreg fun v args hname ha => ?_,
    entryCreates_confined (of_decide_eq_true hbar) h⟩
  refine complete_of_writesIn hb fun env => (h v env args ha).mono ?_
  rintro k ⟨key, hkey, rfl⟩
  exact reports_of_affected hname hkey

theorem entryKnown_query {h : View → Env → Args → Op S Reply} :
    EntryKnown (n, ⟨arity, .query h⟩) :=
  ⟨fun hw => absurd hw (by simp [Command.isWrite]), fun hw => absurd hw (by simp [Command.isWrite])⟩

theorem shape_of_fertile {shape : KeyShape} (hn : fertile n shape = true) :
    keyShape (ascii n) = shape :=
  (of_decide_eq_true (Bool.and_eq_true_iff.mp hn).1).1

theorem firstKey_affected {v : View} {args : Args} (hn : keyShape (ascii n) = .first) :
    firstKey v args ⊆ listedKeys v (affectedKeys (ascii n) args) := by
  rintro k ⟨key, hkey, rfl⟩
  exact ⟨key, by simp [affectedKeys, hn, hkey], rfl⟩

theorem firstTwoKeys_affected {v : View} {args : Args} (hn : keyShape (ascii n) = .firstTwo)
    (hlen : 3 ≤ args.length) : firstTwoKeys v args ⊆ listedKeys v (affectedKeys (ascii n) args) := by
  rintro k ⟨key, hkey, rfl⟩
  match args, hlen with
  | name :: a :: b :: rest, _ =>
    refine ⟨key, ?_, rfl⟩
    simp only [affectedKeys, hn]
    simpa [eq_comm] using hkey

theorem entryKnown_write {h : View → Args → Op S (Reply × Bool)} (hn : fertile n .first = true)
    (hh : ∀ v args, (h v args).WritesIn (firstKey v args)) : EntryKnown (n, ⟨arity, .write h⟩) :=
  entryKnown_confined rfl _ hn fun v _ args _ =>
    writesIn_bind ((hh v args).mono (firstKey_affected (shape_of_fertile hn))) fun _ => writesIn_ret _

theorem entryKnown_effect {h : View → Env → Args → Op S (Reply × List Args)}
    (hn : fertile n .first = true) (hh : ∀ v env args, (h v env args).WritesIn (firstKey v args)) :
    EntryKnown (n, ⟨arity, .effect h⟩) :=
  entryKnown_confined rfl _ hn fun v env args _ =>
    writesIn_bind ((hh v env args).mono (firstKey_affected (shape_of_fertile hn))) fun _ => writesIn_ret _

theorem entryKnown_operands {h : View → Args → Op S (Reply × Bool)}
    (hn : fertile n .operands = true) (hh : ∀ v args, (h v args).WritesIn (operandKeys v args)) :
    EntryKnown (n, ⟨arity, .write h⟩) := by
  refine entryKnown_confined rfl _ hn fun v _ args _ =>
    writesIn_bind ((hh v args).mono ?_) fun _ => writesIn_ret _
  rintro k ⟨key, hkey, rfl⟩
  exact ⟨key, by simpa [affectedKeys, shape_of_fertile hn] using hkey, rfl⟩

theorem entryKnown_pairs {h : View → Args → Op S (Reply × Bool)}
    (hn : fertile n .pairs = true) (hh : ∀ v args, (h v args).WritesIn (pairKeys v args)) :
    EntryKnown (n, ⟨arity, .write h⟩) := by
  refine entryKnown_confined rfl _ hn fun v _ args _ =>
    writesIn_bind ((hh v args).mono ?_) fun _ => writesIn_ret _
  rintro k ⟨key, hkey, rfl⟩
  exact ⟨key, by simpa [affectedKeys, shape_of_fertile hn] using hkey, rfl⟩

theorem entryKnown_second {h : View → Env → Args → Op S (Reply × List Args)}
    (hn : fertile n .second = true) (hh : ∀ v env args, (h v env args).WritesIn (secondKey v args)) :
    EntryKnown (n, ⟨arity, .effect h⟩) := by
  refine entryKnown_confined rfl _ hn fun v env args _ =>
    writesIn_bind ((hh v env args).mono ?_) fun _ => writesIn_ret _
  rintro k ⟨key, hkey, rfl⟩
  exact ⟨key, by simp [affectedKeys, shape_of_fertile hn, hkey], rfl⟩

theorem entryKnown_firstTwo {h : View → Args → Op S (Reply × Bool)}
    (hn : fertile n .firstTwo = true) (ha : ∀ m, arityOK arity m = true → 3 ≤ m)
    (hh : ∀ v args, (h v args).WritesIn (firstTwoKeys v args)) :
    EntryKnown (n, ⟨arity, .write h⟩) :=
  entryKnown_confined rfl _ hn fun v _ args hlen =>
    writesIn_bind ((hh v args).mono (firstTwoKeys_affected (shape_of_fertile hn) (ha _ hlen)))
      fun _ => writesIn_ret _

/-- A blocking command that moves what it takes. -/
theorem entryKnown_blockMove {h : View → Env → Args → Op S (Option Reply × List Args)}
    (hn : fertile n .firstTwo = true) (ha : ∀ m, arityOK arity m = true → 3 ≤ m)
    (hh : ∀ v env args, EffectReports v (h v env args))
    (hw : ∀ v env args, (h v env args).WritesIn (firstTwoKeys v args)) :
    EntryKnown (n, ⟨arity, .block h⟩) := by
  obtain ⟨hreg, hbar⟩ := Bool.and_eq_true_iff.mp hn
  exact ⟨entryComplete_regular _ hreg fun v args _ _ => complete_block fun env => hh v env args,
    entryCreates_confined (of_decide_eq_true hbar) fun v env args hlen =>
      writesIn_bind ((hw v env args).mono (firstTwoKeys_affected (shape_of_fertile hn) (ha _ hlen)))
        fun _ => writesIn_ret _⟩

theorem entryKnown_blockPop {h : View → Env → Args → Op S (Option Reply × List Args)}
    (hn : regular n .first = true) (hh : ∀ v env args, EffectReports v (h v env args))
    (hb : ∀ v env args, (h v env args).Barren) : EntryKnown (n, ⟨arity, .block h⟩) :=
  ⟨entryComplete_regular _ hn fun v args _ _ => complete_block fun env => hh v env args,
    entryCreates_barren fun v env args _ => barren_bind (hb v env args) fun _ => barren_ret _⟩

/-- Of the four, each answers for its own operands only. -/
theorem reportsAll_lmpop {v : View} {args : Args} :
    ReportsAll "LMPOP" v args ↔ NamedByCount "LEFT" "RIGHT" args :=
  ⟨fun h => h.lmpop rfl, fun h => ⟨fun _ => h, by simp, by simp, by simp⟩⟩

theorem reportsAll_zmpop {v : View} {args : Args} :
    ReportsAll "ZMPOP" v args ↔ NamedByCount "MIN" "MAX" args :=
  ⟨fun h => h.zmpop rfl, fun h => ⟨by simp, fun _ => h, by simp, by simp⟩⟩

theorem reportsAll_copy {v : View} {args : Args} : ReportsAll "COPY" v args ↔ OneTarget v args :=
  ⟨fun h => h.copy rfl, fun h => ⟨by simp, by simp, fun _ => h, by simp⟩⟩

theorem reportsAll_xreadgroup {v : View} {args : Args} :
    ReportsAll "XREADGROUP" v args ↔ RefusedUnread args :=
  ⟨fun h => h.xreadgroup rfl, fun h => ⟨by simp, by simp, by simp, fun _ => h⟩⟩

theorem cmdCopy_created {v : View} {args : Args} :
    (cmdCopy v args : Op S _).WritesIn {k | k.2 ∈ affectedKeys (ascii "COPY") args} := by
  have hshape : keyShape (ascii "COPY") = .firstTwo := by decide
  unfold cmdCopy
  split
  · split
    · simp
    · split
      · split
        · exact copyAcrossDatabases_writesIn (by simp [View.loc, affectedKeys, hshape])
            (by simp [affectedKeys, hshape]) _
        · exact writesIn_map (transferKey_writesIn (by simp [affectedKeys, hshape]) (by simp) _) _
      · exact writesIn_map (copy_writesIn (by simp [View.loc, affectedKeys, hshape]) _ _) _
  · simp

theorem cmdCopy_known {arity : ℤ} : EntryKnown (S := S) ("COPY", ⟨arity, .write cmdCopy⟩) := by
  refine ⟨fun _ _ v args hname _ => (cmdCopy_complete_iff hname).trans reportsAll_copy.symm, ?_⟩
  intro _ v env args _ _ _ vis s key hnone hsome
  have hw : ((Command.mk arity (.write cmdCopy)).apply v env args : Op S _).WritesIn
      {k | k.2 ∈ affectedKeys (ascii "COPY") args} :=
    writesIn_bind cmdCopy_created fun _ => writesIn_ret _
  exact ⟨mem_of_created hw vis hnone hsome, (by decide : "COPY" ∉ barrenCommands)⟩

theorem cmdMove_known {arity : ℤ} : EntryKnown (S := S) ("MOVE", ⟨arity, .write cmdMove⟩) := by
  refine ⟨entryComplete_regular .first (by decide) fun v args hname _ => cmdMove_complete hname,
    entryCreates_barren fun v env args hcl => barren_bind ?_ fun _ => barren_ret _⟩
  unfold cmdMove
  split
  · rw [if_pos hcl]
    exact barren_ret _
  · exact barren_ret _

theorem entryKnown_wholesale {h : View → Args → Op S (Reply × Bool)} (hn : n ∈ wholesale)
    (hb : ∀ v args, v.cluster = true → (h v args).Barren) : EntryKnown (n, ⟨arity, .write h⟩) :=
  ⟨fun _ hout => absurd hn hout,
    entryCreates_barren fun v _ args hcl => barren_bind (hb v args hcl) fun _ => barren_ret _⟩

theorem cmdFlushDB_barren (v : View) (args : Args) : (cmdFlushDB v args : Op S _).Barren := by
  refine barren_map (barren_move fun k => ?_) _
  split_ifs
  · exact .inl rfl
  · exact .inr rfl

theorem cmdSwapDB_barren {v : View} (hcl : v.cluster = true) (args : Args) :
    (cmdSwapDB v args : Op S _).Barren := by
  unfold cmdSwapDB
  split
  · rw [if_pos hcl]
    exact barren_ret _
  · exact barren_ret _

theorem arityOK_exact {k m : ℕ} (h : arityOK k m = true) : m = k := by
  unfold arityOK at h
  rw [if_pos (by omega)] at h
  have := of_decide_eq_true h
  omega

end Entries

section Families

variable {S : Type} [Numeric S]

theorem stringCommands_known : ∀ p ∈ stringCommands (S := S), EntryKnown p := by
  simp only [stringCommands, List.forall_mem_cons]
  refine ⟨entryKnown_effect ?_ cmdSet_writesIn,
    entryKnown_query,
    entryKnown_effect ?_ cmdGetEx_writesIn,
    entryKnown_write ?_ cmdIncr_writesIn,
    entryKnown_write ?_ cmdDecr_writesIn,
    entryKnown_write ?_ cmdIncrBy_writesIn,
    entryKnown_write ?_ cmdDecrBy_writesIn,
    entryKnown_effect ?_ cmdIncrByFloat_writesIn,
    entryKnown_pairs ?_ cmdMSet_writesIn,
    entryKnown_pairs ?_ cmdMSetNX_writesIn,
    entryKnown_write ?_ cmdSetNX_writesIn,
    entryKnown_effect ?_ fun v env args => setex_writesIn v env args _ _,
    entryKnown_effect ?_ fun v env args => setex_writesIn v env args _ _,
    entryKnown_write ?_ cmdGetSet_writesIn,
    entryKnown_write ?_ cmdGetDel_writesIn,
    entryKnown_write ?_ cmdAppend_writesIn,
    entryKnown_query,
    entryKnown_write ?_ cmdSetRange_writesIn, by simp⟩ <;> decide

theorem keyCommands_known : ∀ p ∈ keyCommands (S := S), EntryKnown p := by
  simp only [keyCommands, List.forall_mem_cons]
  refine ⟨entryKnown_operands ?_ cmdDel_writesIn,
    entryKnown_operands ?_ cmdDel_writesIn,
    entryKnown_query,
    entryKnown_effect ?_ fun v env args => expire_writesIn v env args _ _ _,
    entryKnown_effect ?_ fun v env args => expire_writesIn v env args _ _ _,
    entryKnown_effect ?_ fun v env args => expire_writesIn v env args _ _ _,
    entryKnown_effect ?_ fun v env args => expire_writesIn v env args _ _ _,
    entryKnown_write ?_ cmdPersist_writesIn,
    entryKnown_query,
    entryKnown_firstTwo ?_ (fun m hm => (arityOK_exact hm).ge) cmdRename_writesIn,
    entryKnown_firstTwo ?_ (fun m hm => (arityOK_exact hm).ge) cmdRenameNX_writesIn,
    cmdCopy_known,
    entryKnown_wholesale (by simp [wholesale]) fun _ _ _ => barren_map (barren_move fun _ => .inl rfl) _,
    entryKnown_wholesale (by simp [wholesale]) fun v args _ => cmdFlushDB_barren v args,
    entryKnown_wholesale (by simp [wholesale]) fun _ args hcl => cmdSwapDB_barren hcl args,
    cmdMove_known, by simp⟩ <;> decide

theorem listCommands_known : ∀ p ∈ listCommands (S := S), EntryKnown p := by
  simp only [listCommands, List.forall_mem_cons]
  refine ⟨entryKnown_write ?_ fun v args => push_writesIn v args true,
    entryKnown_write ?_ fun v args => push_writesIn v args false,
    entryKnown_write ?_ fun v args => pushX_writesIn v args true,
    entryKnown_write ?_ fun v args => pushX_writesIn v args false,
    entryKnown_write ?_ fun v args => cmdPop_writesIn v args true,
    entryKnown_write ?_ fun v args => cmdPop_writesIn v args false,
    entryKnown_query,
    entryKnown_write ?_ cmdLSet_writesIn,
    entryKnown_write ?_ cmdLInsert_writesIn,
    entryKnown_write ?_ cmdLRem_writesIn,
    entryKnown_write ?_ cmdLTrim_writesIn,
    entryKnown_firstTwo ?_ (fun m hm => (arityOK_exact hm).ge) cmdRPopLPush_writesIn,
    entryKnown_firstTwo ?_ (fun m hm => by rw [arityOK_exact hm]; decide) cmdLMove_writesIn,
    entryKnown_blockPop ?_ (fun _ _ _ => blockingPops_reports true _)
      fun v _ _ => blockingPops_barren v true _,
    entryKnown_blockPop ?_ (fun _ _ _ => blockingPops_reports false _)
      fun v _ _ => blockingPops_barren v false _,
    entryKnown_blockMove ?_ (fun m hm => by rw [arityOK_exact hm]; decide)
      (fun _ env args => blockingLMove_reports env args) blockingLMove_writesIn,
    entryKnown_blockMove ?_ (fun m hm => by rw [arityOK_exact hm]; decide)
      (fun _ env args => blockingRPopLPush_reports env args) blockingRPopLPush_writesIn,
    ⟨fun _ _ v args hname _ => (cmdLMPop_complete_iff hname).trans reportsAll_lmpop.symm,
      entryCreates_barren fun v _ _ _ =>
        barren_bind (barren_map (listMPop_barren v _) _) fun _ => barren_ret _⟩,
    entryKnown_blockPop ?_ (fun _ _ _ => listMPop_reports _) fun v _ _ => listMPop_barren v _,
    by simp⟩ <;> decide

theorem hashCommands_known : ∀ p ∈ hashCommands (S := S), EntryKnown p := by
  simp only [hashCommands, List.forall_mem_cons]
  refine ⟨entryKnown_write ?_ cmdHSet_writesIn,
    entryKnown_query,
    entryKnown_write ?_ cmdHDel_writesIn,
    entryKnown_write ?_ cmdHSetNX_writesIn,
    entryKnown_write ?_ cmdHIncrBy_writesIn,
    entryKnown_effect ?_ cmdHIncrByFloat_writesIn,
    entryKnown_write ?_ cmdHMSet_writesIn, by simp⟩ <;> decide

theorem setCommands_known : ∀ p ∈ setCommands (S := S), EntryKnown p := by
  simp only [setCommands, List.forall_mem_cons]
  refine ⟨entryKnown_write ?_ cmdSAdd_writesIn,
    entryKnown_write ?_ cmdSRem_writesIn,
    entryKnown_query,
    entryKnown_effect ?_ cmdSPop_writesIn,
    entryKnown_firstTwo ?_ (fun m hm => by rw [arityOK_exact hm]; decide) cmdSMove_writesIn,
    entryKnown_write ?_ fun v args => setCombineStore_writesIn v args _,
    entryKnown_write ?_ fun v args => setCombineStore_writesIn v args _,
    entryKnown_write ?_ fun v args => setCombineStore_writesIn v args _, by simp⟩ <;> decide

theorem zsetCommands_known : ∀ p ∈ zsetCommands (S := S), EntryKnown p := by
  simp only [zsetCommands, List.forall_mem_cons]
  refine ⟨entryKnown_write ?_ cmdZAdd_writesIn,
    entryKnown_write ?_ cmdZIncrBy_writesIn,
    entryKnown_write ?_ cmdZRem_writesIn,
    entryKnown_query,
    entryKnown_write ?_ cmdZRemRangeByRank_writesIn,
    entryKnown_write ?_ cmdZRemRangeByScore_writesIn,
    entryKnown_write ?_ cmdZRemRangeByLex_writesIn,
    entryKnown_firstTwo ?_ (fun m hm => (by decide : 3 ≤ 5).trans
      (arityOK_le (by decide) hm)) fun v args =>
        (cmdZRangeStore_writesIn v args).mono (by
          rintro k ⟨key, hkey, hk⟩
          exact ⟨key, .inl hkey, hk⟩),
    entryKnown_write ?_ fun v args => cmdZCombineStore_writesIn v args _,
    entryKnown_write ?_ fun v args => cmdZCombineStore_writesIn v args _,
    entryKnown_write ?_ fun v args => cmdZCombineStore_writesIn v args _,
    entryKnown_effect ?_ fun v env args => cmdZPop_writesIn v env args _,
    entryKnown_effect ?_ fun v env args => cmdZPop_writesIn v env args _,
    ⟨fun _ _ v args hname _ => (cmdZMPop_complete_iff hname).trans reportsAll_zmpop.symm,
      entryCreates_barren fun v _ _ _ =>
        barren_bind (barren_map (zsetMPop_barren v _) _) fun _ => barren_ret _⟩,
    entryKnown_blockPop ?_ (fun _ _ _ => blockingZPops_reports _ _)
      fun v _ _ => blockingZPops_barren v _ _,
    entryKnown_blockPop ?_ (fun _ _ _ => blockingZPops_reports _ _)
      fun v _ _ => blockingZPops_barren v _ _,
    entryKnown_blockPop ?_ (fun _ _ _ => zsetMPop_reports _) fun v _ _ => zsetMPop_barren v _,
    by simp⟩ <;> decide

theorem streamCommands_known : ∀ p ∈ streamCommands (S := S), EntryKnown p := by
  simp only [streamCommands, List.forall_mem_cons]
  refine ⟨entryKnown_effect ?_ cmdXAdd_writesIn,
    entryKnown_write ?_ cmdXDel_writesIn,
    entryKnown_write ?_ cmdXTrim_writesIn,
    entryKnown_write ?_ cmdXSetID_writesIn,
    entryKnown_write ?_ cmdXAck_writesIn,
    entryKnown_second ?_ cmdXGroup_writesIn,
    entryKnown_effect ?_ cmdXClaim_writesIn,
    entryKnown_effect ?_ cmdXAutoClaim_writesIn,
    ⟨fun _ _ v args _ _ => blockingXReadGroup_complete_iff.trans reportsAll_xreadgroup.symm,
      entryCreates_barren fun v env args _ =>
        barren_bind (blockingXReadGroup_barren v env args) fun _ => barren_ret _⟩, by simp⟩ <;> decide

/-- The keys that a confined command writes are on its list. -/
theorem confined_targets {t : Confined} (ht : t ∈ confinedCommands) (args : Args) :
    t.targets args ⊆ affectedKeys (ascii t.name) args := by
  revert t
  simp only [confinedCommands, List.forall_mem_cons]
  exact ⟨List.Subset.refl _, List.Subset.refl _, List.Subset.refl _, List.Subset.refl _,
    List.Subset.refl _, List.Subset.refl _, List.Subset.refl _,
    geoTargets_subset (by decide) args, geoTargets_subset (by decide) args,
    sortTargets_subset args, List.Subset.refl _, List.Subset.refl _, by simp⟩

end Families

variable {S : Type} [Numeric S] {n : String} {c : Command S} {v : View} {args : Args}

theorem modelled_known (h : (n, c) ∈ dataCommands ++ streamCommands) : EntryKnown (n, c) := by
  simp only [dataCommands, List.mem_append] at h
  obtain (((((hm | hm) | hm) | hm) | hm) | hm) | hm := h
  · exact stringCommands_known _ hm
  · exact keyCommands_known _ hm
  · exact listCommands_known _ hm
  · exact hashCommands_known _ hm
  · exact setCommands_known _ hm
  · exact zsetCommands_known _ hm
  · exact streamCommands_known _ hm

end ShardKV.Commands
