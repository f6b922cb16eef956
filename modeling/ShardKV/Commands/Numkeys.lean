import ShardKV.Bytes.Checked
import ShardKV.Server.Exec

/-! Commands that carry their number of keys as an operand. Their handlers, the
queues a blocking form joins and the extraction behind COMMAND GETKEYS and cluster
routing each add the client's count to an index before they compare, in 64-bit
arithmetic. The parsers are written here index by index, with the faults a slice
expression can raise. -/

namespace ShardKV.Commands

open Data Resp Server Checked

/-- An argument vector as a process holds it: one allocation of slice headers. -/
structure Argv where
  args : Args
  fits : 24 * (args.length : ℤ) ≤ maxAlloc

section Parsers

variable {S : Type} [Numeric S]

def byteStrings (xs : List Bytes) : Comp (List Bytes) := do
  makeCap 16 xs.length
  pure xs

def numkeysKeys (args : Args) (idx : ℤ) : Comp (List Bytes) :=
  if args.length ≤ idx then pure []
  else do
    match parseInt64 (← index args idx) with
    | none => pure []
    | some n =>
      if n ≤ 0 ∨ args.length < wrap (idx + 1 + n) then pure []
      else do
        let keys ← slice args (idx + 1) (wrap (idx + 1 + n))
        byteStrings keys

def mpopKeysAfterTimeout (args : Args) : Comp (List Bytes) := do
  match parseInt64 (← index args 2) with
  | none => pure []
  | some n =>
    if n ≤ 0 ∨ args.length < wrap (3 + n) then pure []
    else do
      makeCap 16 n
      slice args 3 (wrap (3 + n))

/-- `parseMPop` on the whole vector. -/
def parseMPopAt (first second : String) (args : Args) (start : ℤ) :
    Comp (Except Reply MPopOpts) := do
  match parseInt64 (← index args start) with
  | none => pure (.error (errorReply "ERR numkeys should be greater than 0"))
  | some n =>
    if n ≤ 0 then pure (.error (errorReply "ERR numkeys should be greater than 0"))
    else
      let dirIdx := wrap (start + 1 + n)
      if args.length ≤ dirIdx then pure (.error syntaxErr)
      else do
        let keys ← slice args (start + 1) dirIdx
        let dir ← index args dirIdx
        let side : Option Bool :=
          if equalFold dir first then some true
          else if equalFold dir second then some false
          else none
        match side with
        | none => pure (.error syntaxErr)
        | some side =>
          match ← slice args (wrap (dirIdx + 1)) args.length with
          | [] => pure (.ok ⟨keys, side, 1⟩)
          | [word, count] =>
            if !equalFold word "COUNT" then pure (.error syntaxErr)
            else
              match parseInt64 count with
              | none => pure (.error (errorReply "ERR count should be greater than 0"))
              | some c =>
                if c ≤ 0 then pure (.error (errorReply "ERR count should be greater than 0"))
                else pure (.ok ⟨keys, side, c⟩)
          | _ => pure (.error syntaxErr)

/-- The inner loop of WEIGHTS: the weights from `args[i+1]` on, written into the
operands from the `j`-th on. -/
def readWeightsAt (args : Args) (i : ℤ) :
    ℕ → ℤ → List (Bytes × S) → Comp (Option (List (Bytes × S)))
  | 0, _, ops => pure (some ops)
  | left + 1, j, ops => do
    match Numeric.parseScore (← index args (wrap (wrap (i + 1) + j))) with
    | none => pure none
    | some w => do
      let op ← index ops j
      readWeightsAt args i left (wrap (j + 1)) (ops.set j.toNat (op.1, w))

/-- The loop over the options behind the keys. -/
def combineOptsAt (args : Args) (kind : ZCombineKind) (numkeys : ℤ) (allowWithScores : Bool) :
    ℕ → ℤ → List (Bytes × S) × ZAggregate → Comp (Except Reply (List (Bytes × S) × ZAggregate))
  | 0, _, _ => halt .steps
  | fuel + 1, i, (ops, agg) =>
    if args.length ≤ i then pure (.ok (ops, agg))
    else do
      let word ← index args i
      if isWord word "WEIGHTS" then
        if kind = .diff ∨ args.length ≤ wrap (i + numkeys) then pure (.error syntaxErr)
        else
          match ← readWeightsAt args i numkeys.toNat 0 ops with
          | none => pure (.error (errorReply "ERR weight value is not a float"))
          | some ops =>
            combineOptsAt args kind numkeys allowWithScores fuel (wrap (wrap (i + numkeys) + 1))
              (ops, agg)
      else if isWord word "AGGREGATE" then
        if kind = .diff ∨ args.length ≤ wrap (i + 1) then pure (.error syntaxErr)
        else do
          let how ← index args (wrap (i + 1))
          let next := wrap (wrap (i + 1) + 1)
          if isWord how "SUM" then
            combineOptsAt args kind numkeys allowWithScores fuel next (ops, .sum)
          else if isWord how "MIN" then
            combineOptsAt args kind numkeys allowWithScores fuel next (ops, .min)
          else if isWord how "MAX" then
            combineOptsAt args kind numkeys allowWithScores fuel next (ops, .max)
          else pure (.error syntaxErr)
      else if isWord word "WITHSCORES" then
        if !allowWithScores ∨ i ≠ args.length - 1 then pure (.error syntaxErr)
        else combineOptsAt args kind numkeys allowWithScores fuel (wrap (i + 1)) (ops, agg)
      else pure (.error syntaxErr)

/-- `parseZCombine` on the whole vector. -/
def parseZCombineAt (args : Args) (numkeysIdx : ℤ) (kind : ZCombineKind) (name : Bytes)
    (allowWithScores : Bool) : Comp (Except Reply (List (Bytes × S) × ZAggregate)) :=
  if args.length ≤ numkeysIdx then pure (.error syntaxErr)
  else do
    match parseInt64 (← index args numkeysIdx) with
    | none => pure (.error notIntegerErr)
    | some n =>
      if n < 1 then
        pure (.error (.error (ascii "ERR at least 1 input key is needed for '" ++ toLower name ++
          ascii "' command")))
      else if args.length < wrap (numkeysIdx + 1 + n) then pure (.error syntaxErr)
      else do
        makeCap 24 n
        let keys ← slice args (numkeysIdx + 1) (wrap (numkeysIdx + 1 + n))
        combineOptsAt args kind n allowWithScores (args.length + 1) (wrap (numkeysIdx + 1 + n))
          (keys.map fun key => (key, Numeric.one), .sum)

/-- The LIMIT behind the keys of ZINTERCARD and SINTERCARD. -/
def parseLimit : List Bytes → Except Reply ℤ
  | [] => .ok 0
  | [word, limit] =>
    if !equalFold word "LIMIT" then .error syntaxErr
    else
      match parseInt64 limit with
      | none => .error (errorReply "ERR LIMIT can't be negative")
      | some n =>
        if n < 0 then .error (errorReply "ERR LIMIT can't be negative") else .ok n
  | _ => .error syntaxErr

/-- The operands of `cmdZInterCard`: the keys and the limit. -/
def zInterCardOperands (args : Args) : Comp (Except Reply (List Bytes × ℤ)) := do
  match parseInt64 (← index args 1) with
  | none => pure (.error notIntegerErr)
  | some n =>
    if n < 1 then
      pure (.error (errorReply "ERR at least 1 input key is needed for 'zintercard' command"))
    else if args.length < wrap (2 + n) then pure (.error syntaxErr)
    else do
      let keys ← byteStrings (← slice args 2 (wrap (2 + n)))
      let rest ← slice args (wrap (2 + n)) args.length
      pure ((parseLimit rest).map fun limit => (keys, limit))

/-- The operands of `cmdSInterCard`, which compares the count before it adds. -/
def sInterCardOperands (args : Args) : Comp (Except Reply (List Bytes × ℤ)) := do
  match parseInt64 (← index args 1) with
  | none => pure (.error (errorReply "ERR numkeys should be greater than 0"))
  | some n =>
    if n ≤ 0 then pure (.error (errorReply "ERR numkeys should be greater than 0"))
    else if args.length - 2 < n then
      pure (.error (errorReply "ERR Number of keys can't be greater than number of args"))
    else do
      let keys ← byteStrings (← slice args 2 (wrap (2 + n)))
      let rest ← slice args (wrap (2 + n)) args.length
      pure ((parseLimit rest).map fun limit => (keys, limit))

end Parsers

inductive Counted
  | lmpop
  | blmpop
  | zmpop
  | bzmpop
  | combine (kind : ZCombineKind)
  | combineStore (kind : ZCombineKind)
  | zintercard
  | sintercard
  deriving DecidableEq

def Counted.arity : Counted → ℤ
  | .lmpop | .zmpop | .combineStore _ => -4
  | .blmpop | .bzmpop => -5
  | .combine _ | .zintercard | .sintercard => -3

def Counted.countAt : Counted → ℕ
  | .blmpop | .bzmpop | .combineStore _ => 2
  | .lmpop | .zmpop | .combine _ | .zintercard | .sintercard => 1

/-- What reads a count: the handler, the queues of a blocking form, and the key
extraction of COMMAND GETKEYS and cluster routing. -/
inductive Site
  | handler (c : Counted)
  | queues (zset : Bool)
  | routing (c : Counted)
  deriving DecidableEq

def Site.command : Site → Counted
  | .handler c | .routing c => c
  | .queues zset => if zset then .bzmpop else .blmpop

/-- The keys of a list that is empty when the operands were refused. -/
def listed (keys : List Bytes) : Option (List Bytes) := if keys = [] then none else some keys

section Sites

variable (S : Type) [Numeric S]

/-- The keys that follow the count, or `none` when the operands are refused. The
storing forms route on their destination as well, which stands before the count. -/
def Site.parse : Site → Args → Comp (Option (List Bytes))
  | .handler .lmpop, args => do
    pure ((← parseMPopAt "LEFT" "RIGHT" args 1).toOption.map MPopOpts.keys)
  | .handler .blmpop, args => do
    pure ((← parseMPopAt "LEFT" "RIGHT" args 2).toOption.map MPopOpts.keys)
  | .handler .zmpop, args => do
    pure ((← parseMPopAt "MIN" "MAX" args 1).toOption.map MPopOpts.keys)
  | .handler .bzmpop, args => do
    pure ((← parseMPopAt "MIN" "MAX" args 2).toOption.map MPopOpts.keys)
  | .handler (.combine kind), args => do
    let name ← index args 0
    let parsed ← parseZCombineAt (S := S) args 1 kind name true
    pure (parsed.toOption.map fun r => r.1.map Prod.fst)
  | .handler (.combineStore kind), args => do
    let name ← index args 0
    let parsed ← parseZCombineAt (S := S) args 2 kind name false
    pure (parsed.toOption.map fun r => r.1.map Prod.fst)
  | .handler .zintercard, args => do
    pure ((← zInterCardOperands args).toOption.map Prod.fst)
  | .handler .sintercard, args => do
    pure ((← sInterCardOperands args).toOption.map Prod.fst)
  | .queues _, args => do
    pure (listed (← mpopKeysAfterTimeout args))
  | .routing (.combineStore _), args => do
    let _dest ← index args 1
    pure (listed (← numkeysKeys args 2))
  | .routing c, args => do
    pure (listed (← numkeysKeys args c.countAt))

/-- Every path checks the command's arity before it parses. -/
def Site.run (site : Site) (args : Args) : Comp (Option (List Bytes)) :=
  if arityOK site.command.arity args.length then site.parse S args else pure none

end Sites

/-- The count at position `pos` is between one and the number of arguments after
it, and `keys` are that many arguments. -/
def CountedKeys (args : Args) (pos : ℕ) (keys : List Bytes) : Prop :=
  ∃ b n, args[pos]? = some b ∧ parseInt64 b = some n ∧ 1 ≤ n ∧ n ≤ args.length - (pos + 1) ∧
    keys = (args.drop (pos + 1)).take n.toNat

/-- No access outside the vector, no capacity beyond its length, and keys only as
counted. -/
def CountSafe (args : Args) (pos : ℕ) (c : Comp (Option (List Bytes))) : Prop :=
  Safe args.length (fun r => ∀ keys, r = some keys → CountedKeys args pos keys) c

/-- The index behind the keys that are counted at `pos` does not fit 64 bits. -/
def IndexOverflows (args : Args) (pos : ℕ) : Prop :=
  ∃ b n, args[pos]? = some b ∧ parseInt64 b = some n ∧ 2 ^ 63 ≤ pos + 1 + n

/-- The parser gets to add a count that overflows. SINTERCARD's own handler never
does. -/
def Site.Overflows (site : Site) (args : Args) : Prop :=
  arityOK site.command.arity args.length = true ∧ site ≠ .handler .sintercard ∧
    IndexOverflows args site.command.countAt

section Safety

variable {S : Type} [Numeric S] {args : Args} {pos : ℕ} {α β : Type}

theorem keys_between (args : Args) (lo : ℕ) {n : ℤ} (h : 0 ≤ n) :
    (args.take (lo + n).toNat).drop (lo : ℤ).toNat = (args.drop lo).take n.toNat := by
  have hsum : (lo + n).toNat = lo + n.toNat := by omega
  rw [hsum, Int.toNat_natCast, List.take_drop]

theorem safe_operand {len : ℕ} {R : β → Prop} {f : Bytes → Comp β} (h : pos < args.length)
    (hf : ∀ b, args[pos]? = some b → Safe len R (f b)) :
    Safe len R (index args (pos : ℤ) >>= f) :=
  safe_bind (safe_index (by omega) (by omega)) fun b hb => hf b (by simpa using hb)

/-- The index that follows `n` keys, when it does not overflow. -/
theorem wrap_after {b : Bytes} {n : ℤ} (hno : ¬ IndexOverflows args pos)
    (hb : args[pos]? = some b) (hn : parseInt64 b = some n) (hpos : 0 < n) :
    wrap (pos + 1 + n) = pos + 1 + n := by
  refine wrap_of_range (by omega) ?_
  by_contra hle
  exact hno ⟨b, n, hb, hn, by omega⟩

/-- Nothing wraps for an index within the vector. -/
theorem wrap_index (a : Argv) {i : ℤ} (h : 0 ≤ i) (h' : i ≤ 2 * a.args.length + 1) :
    wrap i = i := by
  have hfits : 24 * (a.args.length : ℤ) ≤ 2 ^ 48 := a.fits
  exact wrap_of_range (by omega) (by omega)

theorem safe_byteStrings (a : Argv) {xs : List Bytes} (h : xs.length ≤ a.args.length) :
    Safe a.args.length (fun ys => ys = xs) (byteStrings xs) := by
  have hfits := a.fits
  exact safe_bind (safe_makeCap (by omega) (by omega) (by omega)) fun _ _ => safe_pure rfl

theorem safe_counted {b : Bytes} {n : ℤ} (hb : args[pos]? = some b) (hn : parseInt64 b = some n)
    (hpos : 1 ≤ n) (hle : pos + 1 + n ≤ args.length) :
    Safe args.length (CountedKeys args pos) (slice args (pos + 1) (pos + 1 + n)) := by
  refine (safe_slice (by omega) (by omega) hle).mono fun keys hkeys => ?_
  refine ⟨b, n, hb, hn, hpos, by omega, ?_⟩
  rw [hkeys, ← keys_between args (pos + 1) (by omega)]
  rfl

theorem CountedKeys.length_le {keys : List Bytes} (h : CountedKeys args pos keys) :
    keys.length ≤ args.length := by
  obtain ⟨b, n, -, -, -, -, rfl⟩ := h
  simp

theorem counted_of_listed {keys : List Bytes} (h : keys = [] ∨ CountedKeys args pos keys) :
    ∀ ks, listed keys = some ks → CountedKeys args pos ks := by
  intro ks hks
  unfold listed at hks
  split_ifs at hks with hnil
  rw [← Option.some.inj hks]
  exact h.resolve_left hnil

theorem numkeysKeys_safe (a : Argv) (hno : ¬ IndexOverflows a.args pos) :
    Safe a.args.length (fun keys => keys = [] ∨ CountedKeys a.args pos keys)
      (numkeysKeys a.args pos) := by
  unfold numkeysKeys
  split_ifs with hlen
  · exact safe_pure (.inl rfl)
  refine safe_operand (by omega) fun b hb => ?_
  cases hn : parseInt64 b with
  | none => exact safe_pure (.inl rfl)
  | some n =>
    dsimp only
    split_ifs with hle
    · exact safe_pure (.inl rfl)
    rw [wrap_after hno hb hn (by omega)] at hle ⊢
    refine safe_bind (safe_counted hb hn (by omega) (by omega)) fun keys hkeys => ?_
    refine (safe_byteStrings a hkeys.length_le).mono fun ys hys => ?_
    rw [hys]
    exact .inr hkeys

theorem mpopKeysAfterTimeout_safe (a : Argv) (hlen : 2 < a.args.length)
    (hno : ¬ IndexOverflows a.args 2) :
    Safe a.args.length (fun keys => keys = [] ∨ CountedKeys a.args 2 keys)
      (mpopKeysAfterTimeout a.args) := by
  have hfits := a.fits
  refine safe_operand hlen fun b hb => ?_
  cases hn : parseInt64 b with
  | none => exact safe_pure (.inl rfl)
  | some n =>
    dsimp only
    split_ifs with hle
    · exact safe_pure (.inl rfl)
    have hwrap : wrap (3 + n) = 3 + n := wrap_after hno hb hn (by omega)
    rw [hwrap] at hle ⊢
    refine safe_bind (safe_makeCap (by omega) (by omega) (by omega)) fun _ _ => ?_
    have hrange : ((2 : ℕ) : ℤ) + 1 + n ≤ a.args.length := by
      push_cast
      omega
    exact (safe_counted hb hn (by omega) hrange).mono fun keys hkeys => .inr hkeys

/-- What an accepted parse must satisfy. -/
def Accepts (P : α → Prop) (r : Except Reply α) : Prop := ∀ x, r = .ok x → P x

theorem accepts_error {P : α → Prop} (r : Reply) : Accepts P (.error r) :=
  fun _ h => absurd h (by simp)

theorem accepts_ok {P : α → Prop} {x : α} (h : P x) : Accepts P (.ok x) := by
  intro y hy
  rw [← Except.ok.inj hy]
  exact h

theorem Accepts.toOption {P : List Bytes → Prop} {f : α → List Bytes} {r : Except Reply α}
    (h : Accepts (fun x => P (f x)) r) : ∀ keys, r.toOption.map f = some keys → P keys := by
  intro keys hkeys
  cases r with
  | error e => simp [Except.toOption] at hkeys
  | ok x =>
    have hx : f x = keys := by simpa [Except.toOption] using hkeys
    rw [← hx]
    exact h x rfl

theorem parseMPopAt_safe (first second : String) (a : Argv) (hlen : pos < a.args.length)
    (hno : ¬ IndexOverflows a.args pos) :
    Safe a.args.length (Accepts fun o => CountedKeys a.args pos o.keys)
      (parseMPopAt first second a.args pos) := by
  refine safe_operand hlen fun b hb => ?_
  cases hn : parseInt64 b with
  | none => exact safe_pure (accepts_error _)
  | some n =>
    dsimp only
    split_ifs with hpos hle
    · exact safe_pure (accepts_error _)
    · exact safe_pure (accepts_error _)
    rw [wrap_after hno hb hn (by omega)] at hle ⊢
    refine safe_bind (safe_counted hb hn (by omega) (by omega)) fun keys hkeys => ?_
    refine safe_bind (safe_index (by omega) (by omega)) fun dir _ => ?_
    split
    · exact safe_pure (accepts_error _)
    · rw [wrap_index a (by omega) (by omega)]
      refine safe_bind (safe_slice (by omega) (by omega) le_rfl) fun rest _ => ?_
      split
      · exact safe_pure (accepts_ok hkeys)
      · split_ifs
        · exact safe_pure (accepts_error _)
        split
        · exact safe_pure (accepts_error _)
        · split_ifs
          · exact safe_pure (accepts_error _)
          · exact safe_pure (accepts_ok hkeys)
      · exact safe_pure (accepts_error _)

/-- The weights change no key: `left` more are read, from the `j`-th on. -/
theorem readWeightsAt_safe (a : Argv) {i j : ℤ} {left : ℕ} {ops : List (Bytes × S)}
    (hi : 0 ≤ i) (hj : 0 ≤ j) (hargs : i + j + left < a.args.length)
    (hops : j + left ≤ ops.length) :
    Safe a.args.length (fun r => ∀ ops', r = some ops' → ops'.map Prod.fst = ops.map Prod.fst)
      (readWeightsAt a.args i left j ops) := by
  induction left generalizing j ops with
  | zero =>
    refine safe_pure fun ops' h => ?_
    rw [← Option.some.inj h]
  | succ left ih =>
    unfold readWeightsAt
    rw [wrap_index a (i := i + 1) (by omega) (by omega),
      wrap_index a (i := i + 1 + j) (by omega) (by omega)]
    refine safe_bind (safe_index (by omega) (by omega)) fun b _ => ?_
    split
    · exact safe_pure fun ops' h => absurd h (by simp)
    · rename_i w _
      refine safe_bind (safe_index hj (by omega)) fun op hop => ?_
      rw [wrap_index a (i := j + 1) (by omega) (by omega)]
      have hsame : (ops.set j.toNat (op.1, w)).map Prod.fst = ops.map Prod.fst := by
        obtain ⟨hlt, rfl⟩ := List.getElem?_eq_some_iff.mp hop
        refine List.ext_getElem (by simp) fun k hk hk' => ?_
        by_cases hkj : j.toNat = k
        · simp [hkj]
        · simp [List.getElem_set_ne hkj]
      refine (ih (by omega) (by omega) (by simp; omega)).mono fun r hr ops' h => ?_
      rw [hr ops' h, hsame]

/-- The option loop from index `i` on ends within the arguments that are left. -/
theorem combineOptsAt_safe (a : Argv) {kind : ZCombineKind} {n : ℤ} {allow : Bool} {fuel : ℕ}
    {i : ℤ} {ops : List (Bytes × S)} {agg : ZAggregate} (hn : 1 ≤ n) (hops : n = ops.length)
    (hlen : n ≤ a.args.length) (hi : 0 ≤ i) (hi' : i ≤ a.args.length)
    (hfuel : a.args.length - i < fuel) :
    Safe a.args.length (Accepts fun r => r.1.map Prod.fst = ops.map Prod.fst)
      (combineOptsAt a.args kind n allow fuel i (ops, agg)) := by
  induction fuel generalizing i ops agg with
  | zero => omega
  | succ fuel ih =>
    unfold combineOptsAt
    by_cases hend : (a.args.length : ℤ) ≤ i
    · rw [if_pos hend]
      exact safe_pure (accepts_ok rfl)
    rw [if_neg hend]
    refine safe_bind (safe_index hi (by omega)) fun word _ => ?_
    rw [wrap_index a (i := i + n) (by omega) (by omega),
      wrap_index a (i := i + 1) (by omega) (by omega),
      wrap_index a (i := i + 1 + 1) (by omega) (by omega)]
    split_ifs with hweights hrefused haggregate hrefused hwith hlast
    · exact safe_pure (accepts_error _)
    · have hroom : ¬ (a.args.length : ℤ) ≤ i + n := fun h => hrefused (.inr h)
      refine safe_bind (readWeightsAt_safe a hi le_rfl (by omega) (by omega)) fun r hr => ?_
      cases r with
      | none => exact safe_pure (accepts_error _)
      | some ops' =>
        have hkeys := hr ops' rfl
        have hlength : ops'.length = ops.length := by simpa using congrArg List.length hkeys
        rw [wrap_index a (i := i + n + 1) (by omega) (by omega)]
        refine (ih (by omega) (by omega) (by omega) (by omega)).mono fun r' h x hx => ?_
        exact (h x hx).trans hkeys
    · exact safe_pure (accepts_error _)
    · have hroom : ¬ (a.args.length : ℤ) ≤ i + 1 := fun h => hrefused (.inr h)
      refine safe_bind (safe_index (by omega) (by omega)) fun how _ => ?_
      split_ifs
      · exact ih hops (by omega) (by omega) (by omega)
      · exact ih hops (by omega) (by omega) (by omega)
      · exact ih hops (by omega) (by omega) (by omega)
      · exact safe_pure (accepts_error _)
    · exact safe_pure (accepts_error _)
    · exact ih hops (by omega) (by omega) (by omega)
    · exact safe_pure (accepts_error _)

theorem parseZCombineAt_safe (a : Argv) (kind : ZCombineKind) (name : Bytes) (allow : Bool)
    (hno : ¬ IndexOverflows a.args pos) :
    Safe a.args.length (Accepts fun r => CountedKeys a.args pos (r.1.map Prod.fst))
      (parseZCombineAt (S := S) a.args pos kind name allow) := by
  have hfits := a.fits
  unfold parseZCombineAt
  split_ifs with hlen
  · exact safe_pure (accepts_error _)
  refine safe_operand (by omega) fun b hb => ?_
  cases hn : parseInt64 b with
  | none => exact safe_pure (accepts_error _)
  | some n =>
    dsimp only
    split_ifs with hpos hle
    · exact safe_pure (accepts_error _)
    · exact safe_pure (accepts_error _)
    rw [wrap_after hno hb hn (by omega)] at hle ⊢
    refine safe_bind (safe_makeCap (by omega) (by omega) (by omega)) fun _ _ => ?_
    refine safe_bind (safe_counted hb hn (by omega) (by omega)) fun keys hkeys => ?_
    have hlength : n = (keys.map fun key => (key, (Numeric.one : S))).length := by
      obtain ⟨b', n', hb', hn', -, hle', rfl⟩ := hkeys
      rw [hb] at hb'
      obtain rfl := Option.some.inj hb'
      rw [hn] at hn'
      obtain rfl := Option.some.inj hn'
      simp
      omega
    refine (combineOptsAt_safe a (by omega) hlength (by omega) (by omega) (by omega)
      (by push_cast; omega)).mono fun r hr x hx => ?_
    have hfst : (keys.map fun key => (key, (Numeric.one : S))).map Prod.fst = keys := by
      simp [Function.comp_def]
    have hops : x.1.map Prod.fst = keys := (hr x hx).trans hfst
    show CountedKeys a.args pos (x.1.map Prod.fst)
    rw [hops]
    exact hkeys

/-- The operands of both INTERCARD forms, once the count is known to fit. -/
theorem interCard_safe (a : Argv) {b : Bytes} {n : ℤ} (hb : a.args[1]? = some b)
    (hn : parseInt64 b = some n) (hpos : 1 ≤ n) (hle : 2 + n ≤ a.args.length) :
    Safe a.args.length (Accepts fun r => CountedKeys a.args 1 r.1) (do
      let keys ← byteStrings (← slice a.args 2 (wrap (2 + n)))
      let rest ← slice a.args (wrap (2 + n)) a.args.length
      pure ((parseLimit rest).map fun limit => (keys, limit))) := by
  have hrange : ((1 : ℕ) : ℤ) + 1 + n ≤ a.args.length := by
    push_cast
    omega
  rw [wrap_index a (i := 2 + n) (by omega) (by omega)]
  refine safe_bind (safe_counted hb hn hpos hrange) fun keys hkeys => ?_
  refine safe_bind (safe_byteStrings a hkeys.length_le) fun ys hys => ?_
  refine safe_bind (safe_slice (by omega) (by omega) le_rfl) fun rest _ => safe_pure ?_
  cases parseLimit rest with
  | error r => exact accepts_error r
  | ok limit =>
    rw [hys]
    exact accepts_ok hkeys

theorem zInterCardOperands_safe (a : Argv) (hlen : 1 < a.args.length)
    (hno : ¬ IndexOverflows a.args 1) :
    Safe a.args.length (Accepts fun r => CountedKeys a.args 1 r.1) (zInterCardOperands a.args) := by
  refine safe_operand hlen fun b hb => ?_
  cases hn : parseInt64 b with
  | none => exact safe_pure (accepts_error _)
  | some n =>
    dsimp only
    split_ifs with hpos hle
    · exact safe_pure (accepts_error _)
    · exact safe_pure (accepts_error _)
    have hwrap : wrap (2 + n) = 2 + n := wrap_after hno hb hn (by omega)
    exact interCard_safe a hb hn (by omega) (by omega)

/-- SINTERCARD compares before it adds, so no count overflows. -/
theorem sInterCardOperands_safe (a : Argv) (hlen : 1 < a.args.length) :
    Safe a.args.length (Accepts fun r => CountedKeys a.args 1 r.1) (sInterCardOperands a.args) := by
  refine safe_operand hlen fun b hb => ?_
  cases hn : parseInt64 b with
  | none => exact safe_pure (accepts_error _)
  | some n =>
    dsimp only
    split_ifs with hpos hle
    · exact safe_pure (accepts_error _)
    · exact safe_pure (accepts_error _)
    exact interCard_safe a hb hn (by omega) (by omega)

end Safety

section Faults

variable {S : Type} [Numeric S] {args : Args} {pos : ℕ} {b : Bytes} {n : ℤ}

theorem operand_result {β : Type} {f : Bytes → Comp β} (hb : args[pos]? = some b) :
    (index args (pos : ℤ) >>= f).result = (f b).result :=
  bind_result (index_result hb) f

/-- A count whose index overflows: large, and with a negative index after it. -/
theorem overflow_facts (hpos : pos ≤ 2) (hn : parseInt64 b = some n)
    (h : 2 ^ 63 ≤ pos + 1 + n) : 2 ^ 62 < n ∧ wrap (pos + 1 + n) < 0 := by
  have hmax : n ≤ 2 ^ 63 - 1 := (parseInt64_range hn).2
  rw [wrap_of_overflow h (by omega)]
  omega

variable (hpos : pos ≤ 2) (hb : args[pos]? = some b) (hn : parseInt64 b = some n)
  (h : 2 ^ 63 ≤ pos + 1 + n)

include hpos hb hn h

theorem numkeysKeys_fault : (numkeysKeys args pos).result = .error .slice := by
  obtain ⟨hlarge, hneg⟩ := overflow_facts hpos hn h
  have hlen := (List.getElem?_eq_some_iff.mp hb).1
  unfold numkeysKeys
  rw [if_neg (by omega), operand_result hb, hn]
  dsimp only
  rw [if_neg (by omega)]
  exact bind_fault (slice_fault (by omega)) _

theorem parseMPopAt_fault (first second : String) :
    (parseMPopAt first second args pos).result = .error .slice := by
  obtain ⟨hlarge, hneg⟩ := overflow_facts hpos hn h
  unfold parseMPopAt
  rw [operand_result hb, hn]
  dsimp only
  rw [if_neg (by omega), if_neg (by omega)]
  exact bind_fault (slice_fault (by omega)) _

theorem parseZCombineAt_fault (kind : ZCombineKind) (name : Bytes) (allow : Bool) :
    (parseZCombineAt (S := S) args pos kind name allow).result = .error .capacity := by
  obtain ⟨hlarge, hneg⟩ := overflow_facts hpos hn h
  have hlen := (List.getElem?_eq_some_iff.mp hb).1
  unfold parseZCombineAt
  rw [if_neg (by omega), operand_result hb, hn]
  dsimp only
  rw [if_neg (by omega), if_neg (by omega)]
  exact bind_fault (makeCap_fault (by unfold maxAlloc; omega)) _

end Faults

section Intercard

variable {args : Args} {b : Bytes} {n : ℤ}

theorem mpopKeysAfterTimeout_fault (hb : args[2]? = some b) (hn : parseInt64 b = some n)
    (h : 2 ^ 63 ≤ 3 + n) : (mpopKeysAfterTimeout args).result = .error .capacity := by
  obtain ⟨hlarge, hneg⟩ : 2 ^ 62 < n ∧ wrap (3 + n) < 0 := overflow_facts le_rfl hn h
  unfold mpopKeysAfterTimeout
  refine (operand_result hb).trans ?_
  rw [hn]
  dsimp only
  rw [if_neg (by omega)]
  exact bind_fault (makeCap_fault (by unfold maxAlloc; omega)) _

theorem zInterCardOperands_fault (hb : args[1]? = some b) (hn : parseInt64 b = some n)
    (h : 2 ^ 63 ≤ 2 + n) : (zInterCardOperands args).result = .error .slice := by
  obtain ⟨hlarge, hneg⟩ : 2 ^ 62 < n ∧ wrap (2 + n) < 0 := overflow_facts (by omega) hn h
  unfold zInterCardOperands
  refine (operand_result hb).trans ?_
  rw [hn]
  dsimp only
  rw [if_neg (by omega), if_neg (by omega)]
  exact bind_fault (slice_fault (by omega)) _

end Intercard

variable (S : Type) [Numeric S]

theorem Counted.countAt_le (c : Counted) : c.countAt ≤ 2 := by
  cases c <;> simp [Counted.countAt]

/-- A vector of the right arity reaches past its count. -/
theorem Counted.countAt_lt (c : Counted) {n : ℕ} (h : arityOK c.arity n = true) :
    c.countAt + 1 < n := by
  cases c <;> simp [arityOK, Counted.arity, Counted.countAt] at h ⊢ <;> omega

theorem Site.parse_safe (site : Site) (a : Argv)
    (hlen : site.command.countAt + 1 < a.args.length)
    (h : site = .handler .sintercard ∨ ¬ IndexOverflows a.args site.command.countAt) :
    CountSafe a.args site.command.countAt (site.parse S a.args) := by
  have hone : 1 < a.args.length := by omega
  match site with
  | .handler .sintercard =>
    exact safe_bind (sInterCardOperands_safe a hone) fun r hr => safe_pure hr.toOption
  | .handler .lmpop | .handler .zmpop =>
    exact safe_bind (parseMPopAt_safe _ _ a hone (h.resolve_left (by simp))) fun r hr =>
      safe_pure hr.toOption
  | .handler .blmpop | .handler .bzmpop =>
    exact safe_bind (parseMPopAt_safe _ _ a (Nat.lt_of_succ_lt hlen) (h.resolve_left (by simp)))
      fun r hr => safe_pure hr.toOption
  | .handler (.combine kind) =>
    refine safe_bind (safe_index le_rfl (by omega)) fun name _ => ?_
    exact safe_bind (parseZCombineAt_safe a kind name true (h.resolve_left (by simp)))
      fun r hr => safe_pure hr.toOption
  | .handler (.combineStore kind) =>
    refine safe_bind (safe_index le_rfl (by omega)) fun name _ => ?_
    exact safe_bind (parseZCombineAt_safe a kind name false (h.resolve_left (by simp)))
      fun r hr => safe_pure hr.toOption
  | .handler .zintercard =>
    exact safe_bind (zInterCardOperands_safe a hone (h.resolve_left (by simp))) fun r hr =>
      safe_pure hr.toOption
  | .queues true | .queues false =>
    exact safe_bind (mpopKeysAfterTimeout_safe a (Nat.lt_of_succ_lt hlen)
      (h.resolve_left (by simp))) fun r hr => safe_pure (counted_of_listed hr)
  | .routing (.combineStore kind) =>
    refine safe_bind (safe_index (by omega) (by omega)) fun _ _ => ?_
    exact safe_bind (numkeysKeys_safe a (h.resolve_left (by simp))) fun r hr =>
      safe_pure (counted_of_listed hr)
  | .routing .lmpop | .routing .zmpop | .routing .blmpop | .routing .bzmpop
  | .routing (.combine _) | .routing .zintercard | .routing .sintercard =>
    exact safe_bind (numkeysKeys_safe a (h.resolve_left (by simp))) fun r hr =>
      safe_pure (counted_of_listed hr)

theorem Site.parse_fault (site : Site) {args : Args} (hsite : site ≠ .handler .sintercard)
    (h : IndexOverflows args site.command.countAt) :
    ∃ e, (site.parse S args).result = .error e := by
  have hle := site.command.countAt_le
  obtain ⟨b, n, hb, hn, hover⟩ := h
  have hlen := (List.getElem?_eq_some_iff.mp hb).1
  obtain ⟨name, hname⟩ : ∃ name, args[0]? = some name := 
    ⟨_, List.getElem?_eq_getElem (by omega)⟩
  match site with
  | .handler .sintercard => exact absurd rfl hsite
  | .handler .lmpop | .handler .zmpop | .handler .blmpop | .handler .bzmpop =>
    exact ⟨_, bind_fault (parseMPopAt_fault hle hb hn hover _ _) _⟩
  | .handler (.combine kind) | .handler (.combineStore kind) =>
    exact ⟨_, (operand_result hname).trans
      (bind_fault (parseZCombineAt_fault hle hb hn hover _ _ _) _)⟩
  | .handler .zintercard => exact ⟨_, bind_fault (zInterCardOperands_fault hb hn hover) _⟩
  | .queues true | .queues false =>
    exact ⟨_, bind_fault (mpopKeysAfterTimeout_fault hb hn hover) _⟩
  | .routing (.combineStore kind) =>
    obtain ⟨dest, hdest⟩ : ∃ dest, args[1]? = some dest :=
      ⟨_, List.getElem?_eq_getElem (Nat.lt_of_succ_lt hlen)⟩
    exact ⟨_, (operand_result hdest).trans
      (bind_fault (numkeysKeys_fault hle hb hn hover) _)⟩
  | .routing .lmpop | .routing .zmpop | .routing .blmpop | .routing .bzmpop
  | .routing (.combine _) | .routing .zintercard | .routing .sintercard =>
    exact ⟨_, bind_fault (numkeysKeys_fault hle hb hn hover) _⟩

/-- Parsing a counted command is safe, and accepts only a count that its arguments
cover, exactly when the count does not overflow the index behind its keys. -/
theorem numkeys_safe_iff (site : Site) (a : Argv) :
    CountSafe a.args site.command.countAt (site.run S a.args) ↔ ¬ site.Overflows a.args := by
  unfold Site.run
  by_cases harity : arityOK site.command.arity a.args.length = true
  · rw [if_pos harity]
    constructor
    · rintro hsafe ⟨-, hsite, hover⟩
      obtain ⟨e, he⟩ := site.parse_fault S hsite hover
      exact not_safe_of_fault he hsafe
    · intro hno
      refine site.parse_safe S a (site.command.countAt_lt harity) ?_
      by_contra hboth
      exact hno ⟨harity, not_or.mp hboth |>.1, not_not.mp (not_or.mp hboth).2⟩
  · rw [if_neg harity]
    refine ⟨fun _ hover => harity hover.1, fun _ => safe_pure fun keys hkeys => ?_⟩
    exact absurd hkeys (by simp)

/-- `LMPOP 9223372036854775807 k LEFT`. -/
def lmpopHuge : Argv where
  args := [ascii "LMPOP", ascii "9223372036854775807", ascii "k", ascii "LEFT"]
  fits := by decide

/-- The largest count makes LMPOP slice its arguments up to a negative index. -/
theorem lmpop_count_faults :
    ((Site.handler .lmpop).run ℤ lmpopHuge.args).result = .error .slice ∧
      ¬ ∀ (site : Site) (a : Argv),
        CountSafe a.args site.command.countAt (site.run ℤ a.args) := by
  have hfault : ((Site.handler .lmpop).run ℤ lmpopHuge.args).result = .error .slice := by
    decide +kernel
  exact ⟨hfault, fun h => not_safe_of_fault hfault (h (.handler .lmpop) lmpopHuge)⟩

end ShardKV.Commands
