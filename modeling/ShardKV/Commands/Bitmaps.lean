import ShardKV.Commands.BitField

/-! The commands that address a string bit by bit. SETBIT and BITFIELD edit the string
in place and grow it to what they write; BITOP computes a new one. Each of them reports
whether it changed anything by a rule of its own. A bit or a field that is written with
what is there already leaves the string as it is, so SETBIT is right about that in every
case. BITFIELD grows the string before it knows whether an operation will be refused,
and counts the growth only through a write that was not. -/

namespace ShardKV.Commands

open Access Data Resp Server Checked Prog

variable {S : Type} [Numeric S]

def maxBitOffset : ℤ := maxStringLen * 8 - 1

inductive BitErr
  | offset
  | store (err : StoreErr)

/-- `writeBitErr`. -/
def bitErrReply : BitErr → Reply
  | .offset => offsetErr
  | .store err => storeErrReply err

def maskOf (bit : ℤ) : UInt8 := UInt8.ofNat (0x80 >>> (bit % 8).toNat)

/-- A string extended to `n` bytes. -/
def padded (str : Bytes) (n : ℕ) : Bytes := str ++ List.replicate (n - str.length) 0

/-- The bits of a byte with those of the mask set or cleared. -/
def withBits (byte mask : UInt8) (on : Bool) : UInt8 := if on then byte ||| mask else byte &&& ~~~mask

def byteAt (str : Bytes) (i : ℕ) : UInt8 := str.getD i 0

/-- `SetBit`: the old bit, and whether anything changed. -/
def setBit (k : Loc) (offset : ℤ) (on : Bool) : Op S (Except BitErr (Bool × Bool)) :=
  if offset < 0 ∨ maxBitOffset < offset then pure (.error .offset)
  else
    edit k fun e =>
      let write (str : Bytes) (expireAt : Option ℤ) (created : Bool) :=
        let i := offset.toNat / 8
        let grown := padded str (i + 1)
        let grew := decide (str.length < i + 1)
        let old := byteAt grown i &&& maskOf offset != 0
        .put ⟨.str (grown.set i (withBits (byteAt grown i) (maskOf offset) on)), expireAt⟩
          (.ok (old, created || grew || old != on))
      match e with
      | some ⟨.str b, expireAt⟩ => write b expireAt false
      | some _ => .keep (.error (.store .wrongType))
      | none => write [] none true

inductive BitOpKind
  | and
  | or
  | xor
  | not
  deriving DecidableEq

/-- The strings of the source keys; a missing key is empty. -/
def readStrings : List Loc → Op S (Except StoreErr (List Bytes))
  | [] => pure (.ok [])
  | k :: ks => .read k fun
    | some ⟨.str b, _⟩ => do
      match ← readStrings ks with
      | .error err => pure (.error err)
      | .ok bs => pure (.ok (b :: bs))
    | some _ => pure (.error .wrongType)
    | none => do
      match ← readStrings ks with
      | .error err => pure (.error err)
      | .ok bs => pure (.ok ([] :: bs))

/-- One source more. -/
def BitOpKind.combine : BitOpKind → UInt8 → UInt8 → UInt8
  | .and, a, b => a &&& b
  | .or, a, b => a ||| b
  | .xor, a, b => a ^^^ b
  | .not, a, _ => a

/-- The result of BITOP, as long as the longest source. -/
def BitOpKind.result (op : BitOpKind) (values : List Bytes) : Bytes :=
  let maxLen := (values.map List.length).foldl max 0
  match op, values with
  | _, [] => []
  | .not, first :: _ => (List.range maxLen).map fun i => ~~~byteAt first i
  | op, first :: rest =>
    (List.range maxLen).map fun i => rest.foldl (fun acc v => op.combine acc (byteAt v i)) (byteAt first i)

def bitOp (op : BitOpKind) (dst : Loc) (srcs : List Loc) : Op S (Except StoreErr ℤ) := do
  match ← readStrings srcs with
  | .error err => pure (.error err)
  | .ok values =>
    if maxStringLen < (values.map List.length).foldl max 0 then pure (.error .stringTooLong)
    else
      let out := op.result values
      if out.isEmpty then do
        drop dst
        pure (.ok 0)
      else do
        put dst ⟨.str out, none⟩
        pure (.ok out.length)

/-- The operations served from the string at a key. Reading alone leaves the key as it is. -/
def serveBitField (ops : List BitFieldOp) (stored : Option Bytes) (expireAt : Option ℤ) :
    Edit (Entry S) (Except Fault (Except StoreErr (List (Option ℤ) × Bool))) :=
  match (bitField stored ops).result with
  | .error fault => .keep (.error fault)
  | .ok (results, after, changed) =>
    if ops.all fun op => !op.writes then .keep (.ok (.ok (results, changed)))
    else
      match after with
      | some str => .put ⟨.str str, expireAt⟩ (.ok (.ok (results, changed)))
      | none => .drop (.ok (.ok (results, changed)))

/-- `BitField`. -/
def editBitField (k : Loc) (ops : List BitFieldOp) :
    Op S (Except Fault (Except StoreErr (List (Option ℤ) × Bool))) :=
  edit k fun
    | some ⟨.str b, expireAt⟩ => serveBitField ops (some b) expireAt
    | some _ => .keep (.ok (.error .wrongType))
    | none => serveBitField ops none none

def bitReply (on : Bool) : Reply := .int (if on then 1 else 0)

def bitValueErr : Reply := errorReply "ERR bit is not an integer or out of range"

def cmdSetBit (v : View) : Args → Op S (Reply × Bool)
  | [_, key, offset, value] =>
    match parseInt64 offset with
    | none => pure (offsetErr, false)
    | some offset =>
      match parseInt64 value with
      | none => pure (bitValueErr, false)
      | some value =>
        if value ≠ 0 ∧ value ≠ 1 then pure (bitValueErr, false)
        else
          (fun
            | .error err => (bitErrReply err, false)
            | .ok (old, changed) => (bitReply old, changed)) <$>
            setBit (v.loc key) offset (decide (value = 1))
  | _ => pure (syntaxErr, false)

def cmdGetBit (v : View) (_ : Env) : Args → Op S Reply
  | [_, key, offset] =>
    match parseInt64 offset with
    | none => pure offsetErr
    | some offset =>
      if offset < 0 ∨ maxBitOffset < offset then pure offsetErr
      else .read (v.loc key) fun
        | some ⟨.str b, _⟩ => pure (bitReply (bitAt b offset))
        | some _ => pure (storeErrReply .wrongType)
        | none => pure (bitReply false)
  | _ => pure syntaxErr

def parseBitOp (name : Bytes) (sources : ℕ) : Except Reply BitOpKind :=
  if isWord name "AND" then .ok .and
  else if isWord name "OR" then .ok .or
  else if isWord name "XOR" then .ok .xor
  else if isWord name "NOT" then
    if sources ≠ 1 then .error (errorReply "ERR BITOP NOT must be called with a single source key.")
    else .ok .not
  else .error syntaxErr

def cmdBitOp (v : View) : Args → Op S (Reply × Bool)
  | _ :: name :: dst :: srcs =>
    match parseBitOp name srcs.length with
    | .error r => pure (r, false)
    | .ok op => intReply <$> bitOp op (v.loc dst) (srcs.map v.loc)
  | _ => pure (syntaxErr, false)

/-- The reply of BITFIELD: a null where OVERFLOW FAIL refused. -/
def fieldsReply (results : List (Option ℤ)) : Reply :=
  .array (results.map fun
    | some n => .int n
    | none => .null)

/-- BITFIELD and BITFIELD_RO. -/
def bitFieldCommand (readOnly : Bool) (v : View) (args : Args) : Op S (Except Fault (Reply × Bool)) :=
  match parseBitField args readOnly with
  | .error r => pure (.ok (r, false))
  | .ok [] => pure (.ok (.array [], false))
  | .ok ops =>
    (fun
      | .error fault => .error fault
      | .ok (.error err) => .ok (storeErrReply err, false)
      | .ok (.ok (results, changed)) => .ok (fieldsReply results, changed)) <$>
      editBitField (v.loc (args.getD 1 [])) ops

/-- What is left of a command that may end in a fault: the fault ends the process, and
with it the memory, so there is nothing to answer and nothing to ship. -/
def orNothing (r : Except Fault (Reply × Bool)) : Reply × Bool :=
  match r with
  | .error _ => (.null, false)
  | .ok r => r

def cmdBitField (v : View) (args : Args) : Op S (Reply × Bool) := orNothing <$> bitFieldCommand false v args

def cmdBitFieldRO (v : View) (_ : Env) (args : Args) : Op S Reply :=
  (fun r => (orNothing r).1) <$> bitFieldCommand true v args

/-- The registered bit commands, counting aside. -/
def bitCommands : List (String × Command S) :=
  [("SETBIT", ⟨4, .write cmdSetBit⟩), ("GETBIT", ⟨3, .query cmdGetBit⟩),
    ("BITOP", ⟨-4, .write cmdBitOp⟩), ("BITFIELD", ⟨-2, .write cmdBitField⟩),
    ("BITFIELD_RO", ⟨-2, .query cmdBitFieldRO⟩)]

theorem maskOf_single (bit : ℤ) : ∃ r < 8, maskOf bit = UInt8.ofNat (0x80 >>> r) :=
  ⟨(bit % 8).toNat, by omega, rfl⟩

theorem mask_eq_twoPow {r : ℕ} (hr : r < 8) : (UInt8.ofNat (0x80 >>> r)).toBitVec = BitVec.twoPow 8 (7 - r) := by
  interval_cases r <;> rfl

theorem and_mask_ne_zero (byte : UInt8) {r : ℕ} (hr : r < 8) :
    (byte &&& UInt8.ofNat (0x80 >>> r) != 0) = byte.toBitVec.getLsbD (7 - r) := by
  have hzero : BitVec.twoPow 8 (7 - r) ≠ 0#8 := by
    interval_cases r <;> decide
  have hmask : (byte &&& UInt8.ofNat (0x80 >>> r)).toBitVec =
      if byte.toBitVec.getLsbD (7 - r) then BitVec.twoPow 8 (7 - r) else 0#8 := by
    rw [UInt8.toBitVec_and, mask_eq_twoPow hr, BitVec.and_twoPow]
  cases hbit : byte.toBitVec.getLsbD (7 - r) with
  | false =>
    rw [hbit] at hmask
    have : byte &&& UInt8.ofNat (0x80 >>> r) = 0 := UInt8.toBitVec_inj.1 hmask
    simp [this]
  | true =>
    rw [hbit] at hmask
    refine bne_iff_ne.2 fun h => hzero ?_
    rw [h] at hmask
    exact hmask.symm

/-- The bits of a byte with one bit written. -/
theorem getLsbD_withBits (byte : UInt8) (on : Bool) {r q : ℕ} (hr : r < 8) (hq : q < 8) :
    (withBits byte (UInt8.ofNat (0x80 >>> r)) on).toBitVec.getLsbD (7 - q) =
      if q = r then on else byte.toBitVec.getLsbD (7 - q) := by
  have hplace : 7 - r = 7 - q ↔ q = r := by omega
  unfold withBits
  cases on with
  | true =>
    rw [if_pos rfl, UInt8.toBitVec_or, mask_eq_twoPow hr, BitVec.getLsbD_or, BitVec.getLsbD_twoPow]
    by_cases h : q = r
    · have hin : 7 - r < 8 := by omega
      simp [h, hin]
    · simp [h, hplace]
  | false =>
    rw [if_neg Bool.false_ne_true, UInt8.toBitVec_and, UInt8.toBitVec_not, mask_eq_twoPow hr, BitVec.getLsbD_and,
      BitVec.getLsbD_not, BitVec.getLsbD_twoPow]
    by_cases h : q = r
    · simp [h]
    · simp [h, hplace]
      omega

/-- A bit written with what is there already. -/
theorem withBits_same {mask : UInt8} (h : ∃ r < 8, mask = UInt8.ofNat (0x80 >>> r)) (byte : UInt8) :
    withBits byte mask (byte &&& mask != 0) = byte := by
  obtain ⟨r, hr, rfl⟩ := h
  refine UInt8.toBitVec_inj.1 (BitVec.eq_of_getLsbD_eq fun i hi => ?_)
  have hbit := getLsbD_withBits byte (byte &&& UInt8.ofNat (0x80 >>> r) != 0) hr (Nat.sub_lt_succ 7 i)
  rw [Nat.sub_sub_self (by omega), and_mask_ne_zero byte hr] at hbit
  rw [and_mask_ne_zero byte hr, hbit]
  split_ifs with hplace
  · rw [← hplace, Nat.sub_sub_self (by omega)]
  · rfl

theorem set_byteAt (str : Bytes) (i : ℕ) : str.set i (byteAt str i) = str := by
  unfold byteAt
  by_cases h : i < str.length
  · rw [List.getD_eq_getElem _ _ h, List.set_getElem_self]
  · exact List.set_eq_of_length_le (by omega)

theorem setBit_sound {ok : Data.Stream → Prop} (k : Loc) (offset : ℤ) (on : Bool) :
    (setBit k offset on : Op S _).Sound (Proper ok) fun
      | .error _ => false
      | .ok (_, changed) => changed := by
  unfold setBit
  split_ifs
  · exact sound_ret _
  · apply sound_edit
    rintro (_ | ⟨b | _ | _ | _ | _ | _, d⟩) _
    · exact ⟨proper_str _ _ _, .inl (by simp)⟩
    · refine ⟨proper_str _ _ _, ?_⟩
      by_cases hgrew : b.length < offset.toNat / 8 + 1
      · exact .inl (by simp [hgrew])
      · have hpad : padded b (offset.toNat / 8 + 1) = b := by simp [padded, Nat.not_lt.mp hgrew]
        rw [hpad]
        by_cases hold : (byteAt b (offset.toNat / 8) &&& maskOf offset != 0) = on
        · rw [← hold, withBits_same (maskOf_single offset), set_byteAt]
          exact .inr rfl
        · exact .inl (by simp [bne_iff_ne.mpr hold])
    all_goals exact trivial

theorem getLsbD_pushed (v : BitVec 64) (on : Bool) {p : ℕ} (hp : p < 64) :
    (if on then v <<< 1 ||| 1 else v <<< 1).getLsbD p = if p = 0 then on else v.getLsbD (p - 1) := by
  cases p with
  | zero => cases on <;> simp
  | succ p =>
    have hget : v[p] = v.getLsbD p := (BitVec.getLsbD_eq_getElem (by omega)).symm
    cases on <;> simp [hp, hget]

/-- The bits that were appended, the last of them lowest. -/
theorem getLsbD_appendBits (f : ℤ → Bool) {left : ℕ} {i : ℤ} (v : BitVec 64) {p : ℕ} (hp : p < 64) :
    (appendBits f left i v).getLsbD p =
      if p < left then f (i + (left - 1 - p : ℕ)) else v.getLsbD (p - left) := by
  induction left generalizing i v with
  | zero => simp [appendBits]
  | succ left ih =>
    rw [appendBits, ih]
    rcases Nat.lt_trichotomy p left with hlt | rfl | hgt
    · rw [if_pos hlt, if_pos (by omega)]
      congr 1
      omega
    · rw [getLsbD_pushed v (f i) (by omega), if_neg (lt_irrefl p), if_pos (by omega), if_pos (by omega)]
      congr 1
      omega
    · rw [getLsbD_pushed v (f i) (by omega), if_neg (by omega), if_neg (by omega), if_neg (by omega)]
      congr 1

theorem getLsbD_signExtend (op : BitFieldOp) (v : BitVec 64) {p : ℕ} (hp : p < op.bits) :
    (signExtend op v).getLsbD p = v.getLsbD p := by
  unfold signExtend
  split_ifs
  · simp [hp]
  · rfl

theorem and_bit_ne_zero (v : BitVec 64) {k : ℕ} (hk : k < 64) :
    v &&& (1 : BitVec 64) <<< k ≠ 0 ↔ v.getLsbD k = true := by
  have hpow : BitVec.twoPow 64 k ≠ 0#64 := by
    intro hzero
    have hbit := congrArg (fun w => w.getLsbD k) hzero
    simp [hk] at hbit
  show v &&& BitVec.twoPow 64 k ≠ 0#64 ↔ _
  rw [BitVec.and_twoPow]
  split_ifs with hv
  · exact iff_of_true hpow hv
  · exact iff_of_false (not_not.mpr rfl) hv

theorem setBits_step {offset i : ℤ} {left : ℕ} (v : BitVec 64) {str : Bytes} (h : 0 ≤ offset + i)
    (hin : offset + i < 8 * str.length) (h' : offset + i < 2 ^ 63) (hleft : left < 64) :
    (setBits offset v (left + 1) i str).result =
      (setBits offset v left (i + 1) (str.set ((offset + i) / 8).toNat
        (withBits (byteAt str ((offset + i) / 8).toNat) (maskOf (offset + i)) (v.getLsbD left)))).result := by
  have hdiv : (offset + i).tdiv 8 = (offset + i) / 8 := Int.tdiv_eq_ediv_of_nonneg h
  have hmod : (offset + i).tmod 8 = (offset + i) % 8 := Int.tmod_eq_emod_of_nonneg h
  have hget : str[((offset + i) / 8).toNat]? = some (byteAt str ((offset + i) / 8).toNat) := by
    have hlt : ((offset + i) / 8).toNat < str.length := by omega
    rw [byteAt, List.getElem?_eq_getElem hlt, List.getD_eq_getElem _ _ hlt]
  have hbyte : (index str ((offset + i) / 8)).result =
      .ok (byteAt str ((offset + i) / 8).toNat) := by
    have := index_result hget
    rwa [Int.toNat_of_nonneg (by omega)] at this
  have hmask : (bitMask ((offset + i) % 8)).result = .ok (maskOf (offset + i)) := by
    unfold bitMask
    rw [if_pos (by omega)]
    rfl
  rw [setBits, wrap_of_range (by omega) (by omega)]
  dsimp only
  rw [hdiv, hmod, bind_result hmask, bind_result hbyte, if_congr (and_bit_ne_zero v hleft) rfl rfl]
  rfl

theorem setBits_same {offset i : ℤ} {left : ℕ} {v : BitVec 64} {str : Bytes} (h : 0 ≤ offset + i)
    (hin : offset + i + left ≤ 8 * str.length) (h' : offset + i + left ≤ 2 ^ 63) (hleft : left ≤ 64)
    (hv : ∀ p < left, v.getLsbD p = bitAt str (offset + (i + (left - 1 - p : ℕ)))) :
    (setBits offset v left i str).result = .ok str := by
  induction left generalizing i with
  | zero => rfl
  | succ left ih =>
    have hbit := hv left (by omega)
    simp only [Nat.sub_self, Nat.add_sub_cancel, Nat.cast_zero, add_zero] at hbit
    have hold : v.getLsbD left =
        (byteAt str ((offset + i) / 8).toNat &&& maskOf (offset + i) != 0) := by
      have hlt : ((offset + i) / 8).toNat < str.length := by omega
      rw [hbit, bitAt, byteAt, List.getElem?_eq_getElem hlt, List.getD_eq_getElem _ _ hlt]
      rfl
    rw [setBits_step v h (by omega) (by omega) (by omega), hold, withBits_same (maskOf_single _), set_byteAt]
    refine ih (by omega) (by omega) (by omega) (by omega) fun p hp => ?_
    rw [hv p (by omega)]
    congr 1
    omega

theorem setBitField_same {str : Bytes} {op : BitFieldOp} (h : Served str.length op)
    (hw : op.writes = true) (hbits : op.bits ≤ 64) :
    (setBitField str op (fieldAt str op)).result = .ok str := by
  have hwithin := h.within hw
  have hstop := h.stop_le
  have hnonneg := h.nonneg
  unfold BitFieldOp.stop at hwithin hstop
  unfold setBitField fieldAt
  rw [BitVec.ofInt_toInt]
  refine setBits_same (by omega) (by omega) (by omega) hbits fun p hp => ?_
  rw [getLsbD_signExtend op _ hp, getLsbD_appendBits _ _ (by omega), if_pos hp]

/-- The value that an operation writes over a field, if it is a write and not refused. -/
def BitFieldOp.writesOver (op : BitFieldOp) (old : ℤ) : Option ℤ :=
  match op.kind with
  | .get => none
  | .set => clampBitField op op.value
  | .incrBy => incrBitField op old

theorem runOps_cons {widened : Bool} {op : BitFieldOp} {ops : List BitFieldOp} {str : Bytes}
    {r : List (Option ℤ) × Bytes × Bool} (h : (runOps widened (op :: ops) str).result = .ok r) :
    ∃ old str' rest, (getBitField str op).result = .ok old ∧
      (runOps widened ops str').result = .ok rest ∧ r.2.1 = rest.2.1 ∧
      ((op.writesOver old = none ∧ str' = str ∧ r.2.2 = rest.2.2) ∨
        ∃ v, op.writesOver old = some v ∧ op.writes = true ∧ (setBitField str op v).result = .ok str' ∧
          r.2.2 = (widened || decide (v ≠ old) || rest.2.2)) := by
  unfold runOps at h
  obtain ⟨old, hold, h⟩ := bind_ok h
  unfold BitFieldOp.writesOver BitFieldOp.writes
  cases hkind : op.kind with
  | get =>
    rw [hkind] at h
    obtain ⟨rest, hrest, h⟩ := bind_ok h
    cases h
    exact ⟨old, str, rest, hold, hrest, rfl, .inl ⟨rfl, rfl, rfl⟩⟩
  | set =>
    rw [hkind] at h
    dsimp only at h
    cases hv : clampBitField op op.value with
    | none =>
      rw [hv] at h
      obtain ⟨rest, hrest, h⟩ := bind_ok h
      cases h
      exact ⟨old, str, rest, hold, hrest, rfl, .inl ⟨rfl, rfl, rfl⟩⟩
    | some v =>
      rw [hv] at h
      obtain ⟨str', hset, h⟩ := bind_ok h
      obtain ⟨rest, hrest, h⟩ := bind_ok h
      cases h
      exact ⟨old, str', rest, hold, hrest, rfl, .inr ⟨v, rfl, rfl, hset, rfl⟩⟩
  | incrBy =>
    rw [hkind] at h
    dsimp only at h
    cases hv : incrBitField op old with
    | none =>
      rw [hv] at h
      obtain ⟨rest, hrest, h⟩ := bind_ok h
      cases h
      exact ⟨old, str, rest, hold, hrest, rfl, .inl ⟨hv, rfl, rfl⟩⟩
    | some v =>
      rw [hv] at h
      obtain ⟨str', hset, h⟩ := bind_ok h
      obtain ⟨rest, hrest, h⟩ := bind_ok h
      cases h
      exact ⟨old, str', rest, hold, hrest, rfl, .inr ⟨v, hv, rfl, hset, rfl⟩⟩
theorem setBits_length {offset i : ℤ} {left : ℕ} {v : BitVec 64} {str str' : Bytes}
    (h : (setBits offset v left i str).result = .ok str') : str'.length = str.length := by
  induction left generalizing i str with
  | zero =>
    cases h
    rfl
  | succ left ih =>
    unfold setBits at h
    obtain ⟨mask, -, h⟩ := bind_ok h
    obtain ⟨byte, -, h⟩ := bind_ok h
    rw [ih h, List.length_set]

theorem runOps_length {widened : Bool} {ops : List BitFieldOp} {str : Bytes}
    {r : List (Option ℤ) × Bytes × Bool} (h : (runOps widened ops str).result = .ok r) :
    r.2.1.length = str.length := by
  induction ops generalizing str r with
  | nil =>
    cases h
    rfl
  | cons op ops ih =>
    obtain ⟨old, str', rest, -, hrest, hstr, ⟨-, rfl, -⟩ | ⟨v, -, -, hset, -⟩⟩ := runOps_cons h
    · rw [hstr, ih hrest]
    · rw [hstr, ih hrest, setBits_length hset]

/-- A field that a command can name: of up to 64 bits, at an offset of 64 bits, with an
operand of 64 bits, and not ending where the parser refuses it. -/
structure Parsed (op : BitFieldOp) : Prop where
  bits_pos : 1 ≤ op.bits
  bits_le : op.bits ≤ 64
  offset_range : -2 ^ 63 ≤ op.offset ∧ op.offset < 2 ^ 63
  value_range : minInt64 ≤ op.value ∧ op.value ≤ maxInt64
  passes : op.writes = true → wrap op.stop ≤ maxBitFieldBit

/-- A field that starts at a bit and ends within 64 bits. -/
def InRange (op : BitFieldOp) : Prop := 0 ≤ op.offset ∧ op.stop ≤ 2 ^ 63

theorem getBit_low {str : Bytes} (hstr : str ≠ []) {bit : ℤ} (h : bit < 0) :
    ∃ e, (getBit str bit).result = .error e := by
  by_cases hfar : bit ≤ -8
  · exact ⟨_, getBit_negative str hfar⟩
  · have hdiv : bit.tdiv 8 = 0 := by
      have hneg : (-bit).tdiv 8 = -bit / 8 := Int.tdiv_eq_ediv_of_nonneg (by omega)
      rw [Int.neg_tdiv] at hneg
      omega
    have hmod : bit.tmod 8 < 0 := by
      have := Int.mul_tdiv_add_tmod bit 8
      rw [hdiv] at this
      omega
    obtain ⟨byte, rest, rfl⟩ := List.exists_cons_of_ne_nil hstr
    have hbyte : (index (byte :: rest) 0).result = .ok byte := rfl
    refine ⟨.shift, ?_⟩
    unfold getBit
    rw [hdiv, if_pos (by simp), bind_result hbyte]
    refine bind_fault ?_ _
    unfold bitMask
    rw [if_neg (by omega)]
    rfl

/-- Nothing else is read from a string that is not empty. -/
theorem getBitField_inRange {str : Bytes} (hstr : str ≠ []) {op : BitFieldOp} (hop : Parsed op) {v : ℤ}
    (h : (getBitField str op).result = .ok v) : InRange op := by
  by_contra hout
  have hfault : ∃ e, (getBitField str op).result = .error e := by
    by_cases hneg : op.offset < 0
    · obtain ⟨left, hleft⟩ := Nat.exists_eq_add_of_le' hop.bits_pos
      obtain ⟨e, he⟩ := getBit_low hstr hneg
      refine ⟨e, bind_fault ?_ _⟩
      rw [hleft, getBits, add_zero, wrap_of_range hop.offset_range.1 hop.offset_range.2]
      exact bind_fault he _
    · refine getBitField_fault str (by omega) hop.offset_range.2 ?_
      by_contra hstop
      exact hout ⟨by omega, by omega⟩
  obtain ⟨e, he⟩ := hfault
  rw [h] at he
  exact absurd he (by simp)

theorem runOps_inRange {widened : Bool} {ops : List BitFieldOp} {str : Bytes} (hstr : str ≠ [])
    (hops : ∀ op ∈ ops, Parsed op) {r : List (Option ℤ) × Bytes × Bool}
    (h : (runOps widened ops str).result = .ok r) : ∀ op ∈ ops, InRange op := by
  induction ops generalizing str r with
  | nil => exact fun op hop => absurd hop List.not_mem_nil
  | cons op ops ih =>
    obtain ⟨hfirst, hrest⟩ := List.forall_mem_cons.mp hops
    obtain ⟨old, str', rest, hold, hrun, -, hcase⟩ := runOps_cons h
    have hstr' : str' ≠ [] := by
      rcases hcase with ⟨-, rfl, -⟩ | ⟨v, -, -, hset, -⟩
      · exact hstr
      · rw [← List.length_pos_iff, setBits_length hset]
        exact List.length_pos_iff.mpr hstr
    exact List.forall_mem_cons.mpr ⟨getBitField_inRange hstr hfirst hold, ih hstr' hrest hrun⟩

theorem getBitField_fieldAt (str : Bytes) {op : BitFieldOp} (h : InRange op) :
    (getBitField str op).result = .ok (fieldAt str op) := by
  obtain ⟨-, v, hv, rfl⟩ : Safe 0 _ _ := getBitField_safe str h.1 h.2
  exact hv

theorem setBits_within {offset i : ℤ} {left : ℕ} {v : BitVec 64} {str str' : Bytes} (hleft : 1 ≤ left)
    (h : 0 ≤ offset + i) (h' : offset + i + left ≤ 2 ^ 63)
    (hset : (setBits offset v left i str).result = .ok str') : offset + i + left ≤ 8 * str.length := by
  induction left generalizing i str with
  | zero => omega
  | succ left ih =>
    unfold setBits at hset
    rw [wrap_of_range (by omega) (by omega)] at hset
    obtain ⟨mask, -, hset⟩ := bind_ok hset
    obtain ⟨byte, hbyte, hset⟩ := bind_ok hset
    rw [Int.tdiv_eq_ediv_of_nonneg h] at hbyte
    have hlt : (offset + i) / 8 < str.length := by
      by_contra hout
      have hnone : str[((offset + i) / 8).toNat]? = none := List.getElem?_eq_none (by omega)
      unfold index at hbyte
      rw [if_pos (by omega), hnone] at hbyte
      exact absurd hbyte (by simp [halt])
    cases left with
    | zero => omega
    | succ left =>
      have hrest := ih (by omega) (by omega) (by omega) hset
      rw [List.length_set] at hrest
      push_cast at hrest ⊢
      omega

/-- A run that reports no change leaves the string alone; after a growth that takes all
writes to be refused. -/
theorem runOps_unchanged {widened : Bool} {ops : List BitFieldOp} {str : Bytes}
    (hops : ∀ op ∈ ops, Parsed op ∧ InRange op) {r : List (Option ℤ) × Bytes × Bool}
    (h : (runOps widened ops str).result = .ok r) (hclean : r.2.2 = false) :
    r.2.1 = str ∧ (widened = true → ∀ op ∈ ops, op.writesOver (fieldAt str op) = none) := by
  induction ops generalizing r with
  | nil =>
    cases h
    exact ⟨rfl, fun _ op hop => absurd hop List.not_mem_nil⟩
  | cons op ops ih =>
    obtain ⟨⟨hparsed, hrange⟩, hrest⟩ := List.forall_mem_cons.mp hops
    obtain ⟨old, str', rest, hold, hrun, hstr, hcase⟩ := runOps_cons h
    rw [getBitField_fieldAt str hrange] at hold
    obtain rfl := Except.ok.inj hold
    rcases hcase with ⟨hrefused, rfl, hchanged⟩ | ⟨v, hv, hwrites, hset, hchanged⟩
    · obtain ⟨hsame, hall⟩ := ih hrest hrun (hchanged ▸ hclean)
      exact ⟨hstr.trans hsame, fun hw => List.forall_mem_cons.mpr ⟨hrefused, hall hw⟩⟩
    · -- a write that went through: the value was there, and nothing had been widened
      rw [hclean] at hchanged
      simp only [Bool.false_eq, Bool.or_eq_false_iff, decide_eq_false_iff_not, not_not] at hchanged
      obtain ⟨⟨hnot, rfl⟩, hrestClean⟩ := hchanged
      have hserved : Served str.length op := by
        obtain ⟨hnonneg, hstop⟩ := hrange
        refine ⟨hnonneg, hstop, fun _ => ?_⟩
        unfold BitFieldOp.stop at hstop ⊢
        have := setBits_within hparsed.bits_pos (by omega) (by omega) hset
        omega
      rw [setBitField_same hserved hwrites hparsed.bits_le] at hset
      obtain rfl := Except.ok.inj hset
      refine ⟨hstr.trans (ih hrest hrun hrestClean).1, fun hw => ?_⟩
      exact absurd hw (by simp [hnot])

/-- A run of operations that write nothing. -/
theorem runOps_refused (widened : Bool) {ops : List BitFieldOp} {str : Bytes}
    (hops : ∀ op ∈ ops, InRange op ∧ op.writesOver (fieldAt str op) = none) :
    ∃ results, (runOps widened ops str).result = .ok (results, str, false) := by
  induction ops with
  | nil => exact ⟨[], rfl⟩
  | cons op ops ih =>
    obtain ⟨⟨hrange, hnone⟩, hrest⟩ := List.forall_mem_cons.mp hops
    obtain ⟨results, hrun⟩ := ih hrest
    unfold BitFieldOp.writesOver at hnone
    unfold runOps
    rw [bind_result (getBitField_fieldAt str hrange)]
    cases hkind : op.kind with rw [hkind] at hnone
    | get =>
      dsimp only
      rw [bind_result hrun]
      exact ⟨_, rfl⟩
    | set | incrBy =>
      dsimp only at hnone ⊢
      rw [hnone]
      dsimp only
      rw [bind_result hrun]
      exact ⟨_, rfl⟩

theorem growString_ok {str str' : Bytes} {n : ℤ} (h : (growString str n).result = .ok str') :
    ∃ m, str' = str ++ List.replicate m 0 ∧ n ≤ str'.length ∧ (0 < m → str.length < n) := by
  unfold growString at h
  split_ifs at h with hle
  · cases h
    exact ⟨0, by simp, hle, fun hm => absurd hm (by omega)⟩
  · obtain ⟨-, -, h⟩ := bind_ok h
    cases h
    refine ⟨_, rfl, ?_, fun _ => by omega⟩
    simp only [List.length_append, List.length_replicate]
    omega

/-- Growing appends zeros, as far as the written fields reach. -/
theorem growAll_ok {ops : List BitFieldOp} {str grown : Bytes} (h : (growAll ops str).result = .ok grown) :
    ∃ m, grown = str ++ List.replicate m 0 ∧
      (∀ op ∈ ops, op.writes = true → bitFieldBytes op ≤ grown.length) ∧
      (0 < m → ∃ op ∈ ops, op.writes = true ∧ str.length < bitFieldBytes op) := by
  induction ops generalizing str with
  | nil =>
    cases h
    exact ⟨0, by simp, by simp, by simp⟩
  | cons op ops ih =>
    unfold growAll at h
    split_ifs at h with hw
    · obtain ⟨first, hfirst, h⟩ := bind_ok h
      obtain ⟨m, rfl, hn, hm⟩ := growString_ok hfirst
      obtain ⟨m', rfl, hall, hm'⟩ := ih h
      refine ⟨m + m', by simp [List.append_assoc], List.forall_mem_cons.mpr ⟨fun _ => ?_, hall⟩, fun hpos => ?_⟩
      · rw [List.length_append]
        push_cast
        omega
      · by_cases hm0 : 0 < m
        · exact ⟨op, List.mem_cons_self, hw, hm hm0⟩
        · obtain rfl : m = 0 := by omega
          obtain ⟨op', hop', hw', hlt⟩ := hm' (by omega)
          exact ⟨op', List.mem_cons_of_mem _ hop', hw', by simpa using hlt⟩
    · obtain ⟨m, hm, hall, hpos⟩ := ih h
      refine ⟨m, hm, List.forall_mem_cons.mpr ⟨fun hw' => absurd hw' hw, hall⟩, fun h0 => ?_⟩
      obtain ⟨op', hop', hrest⟩ := hpos h0
      exact ⟨op', List.mem_cons_of_mem _ hop', hrest⟩

theorem growAll_runs {ops : List BitFieldOp} (str : Bytes)
    (h : ∀ op ∈ ops, op.writes = true → bitFieldBytes op ≤ 2 ^ 29) :
    ∃ grown, (growAll ops str).result = .ok grown := by
  induction ops generalizing str with
  | nil => exact ⟨str, rfl⟩
  | cons op ops ih =>
    obtain ⟨hop, hrest⟩ := List.forall_mem_cons.mp h
    unfold growAll
    split_ifs with hw
    · obtain ⟨-, first, hfirst, -⟩ := @growString_safe str _ (hop hw)
      rw [bind_result hfirst]
      exact ih first hrest
    · exact ih str hrest

/-- The bytes that a written field asks for. A field that ends at the very last bit of
64 asks for none. -/
theorem lt_bitFieldBytes_iff {op : BitFieldOp} (hparsed : Parsed op) (hrange : InRange op)
    (hw : op.writes = true) (len : ℕ) :
    len < bitFieldBytes op ↔ 8 * len < op.stop ∧ op.stop ≤ maxBitFieldBit := by
  have hpass := hparsed.passes hw
  obtain ⟨hnonneg, hstop⟩ := hrange
  have hmax : maxBitFieldBit = 2 ^ 32 := by decide
  rw [hmax] at hpass ⊢
  unfold bitFieldBytes
  rw [wrap_wrap_add]
  change (len : ℤ) < (wrap (op.stop + 7)).tdiv 8 ↔ _
  have hpos : 0 ≤ op.stop := by
    unfold BitFieldOp.stop
    omega
  by_cases hlast : op.stop = 2 ^ 63
  · have hneg : (wrap (op.stop + 7)).tdiv 8 < 0 := by
      rw [hlast]
      decide
    omega
  · rw [wrap_of_range (by omega) (by omega)] at hpass
    rw [wrap_of_range (by omega) (by omega), Int.tdiv_eq_ediv_of_nonneg (by omega)]
    omega

theorem bitAt_append_zeros (str : Bytes) (m : ℕ) (bit : ℤ) :
    bitAt (str ++ List.replicate m 0) bit = bitAt str bit := by
  unfold bitAt
  by_cases hin : (bit / 8).toNat < str.length
  · rw [List.getElem?_append_left hin]
  · rw [List.getElem?_append_right (by omega), List.getElem?_eq_none (Nat.not_lt.mp hin)]
    cases hzero : (List.replicate m (0 : UInt8))[(bit / 8).toNat - str.length]? with
    | none => rfl
    | some byte =>
      obtain rfl : byte = 0 := List.eq_of_mem_replicate (List.mem_of_getElem? hzero)
      simp

theorem fieldAt_append_zeros (str : Bytes) (m : ℕ) (op : BitFieldOp) :
    fieldAt (str ++ List.replicate m 0) op = fieldAt str op := by
  unfold fieldAt
  simp only [bitAt_append_zeros]

/-- The value that a write means to store. -/
def BitFieldOp.target (op : BitFieldOp) (str : Bytes) : ℤ :=
  if op.kind = .incrBy then fieldAt str op + op.value else op.value

/-- OVERFLOW FAIL refuses a value that the type does not have. -/
def Refused (str : Bytes) (op : BitFieldOp) : Prop :=
  op.overflow = .fail ∧
    ¬ ((bitFieldBounds op).1 ≤ op.target str ∧ op.target str ≤ (bitFieldBounds op).2)

theorem bitFieldBounds_range {op : BitFieldOp} (h : Parsed op) :
    minInt64 ≤ (bitFieldBounds op).1 ∧ (bitFieldBounds op).2 ≤ maxInt64 := by
  have hle := h.bits_le
  unfold bitFieldBounds minInt64 maxInt64
  split_ifs with hsigned h64 h63
  · exact ⟨le_rfl, le_rfl⟩
  · have hpow : (2 : ℤ) ^ (op.bits - 1) ≤ 2 ^ 62 := pow_le_pow_right₀ (by norm_num) (by omega)
    dsimp only
    omega
  · exact ⟨by norm_num, le_rfl⟩
  · have hpow : (2 : ℤ) ^ op.bits ≤ 2 ^ 62 := pow_le_pow_right₀ (by norm_num) (by omega)
    dsimp only
    omega

theorem fieldAt_range (str : Bytes) (op : BitFieldOp) :
    -2 ^ 63 ≤ fieldAt str op ∧ fieldAt str op < 2 ^ 63 := by
  unfold fieldAt
  exact ⟨BitVec.le_toInt _, BitVec.toInt_lt⟩

theorem clampBitField_eq_none_iff (op : BitFieldOp) (v : ℤ) :
    clampBitField op v = none ↔
      op.overflow = .fail ∧ ¬ ((bitFieldBounds op).1 ≤ v ∧ v ≤ (bitFieldBounds op).2) := by
  unfold clampBitField
  dsimp only
  by_cases hin : (bitFieldBounds op).1 ≤ v ∧ v ≤ (bitFieldBounds op).2
  · rw [if_pos hin]
    simp [hin]
  · rw [if_neg hin]
    cases hover : op.overflow with
    | wrap => simp
    | sat =>
      dsimp only
      split_ifs <;> simp
    | fail => simp [hin]

/-- The 64-bit sum is tested so that exactly the sums outside the type are found. -/
theorem incrBitField_eq_none_iff {op : BitFieldOp} (h : Parsed op) {cur : ℤ}
    (hcur : -2 ^ 63 ≤ cur ∧ cur < 2 ^ 63) :
    incrBitField op cur = none ↔ op.overflow = .fail ∧
      ¬ ((bitFieldBounds op).1 ≤ cur + op.value ∧ cur + op.value ≤ (bitFieldBounds op).2) := by
  obtain ⟨hlo, hhi⟩ := bitFieldBounds_range h
  obtain ⟨hvlo, hvhi⟩ := h.value_range
  unfold minInt64 at hlo hvlo
  unfold maxInt64 at hhi hvhi
  have hflag : (0 < op.value ∧ wrap (cur + op.value) < cur ∨
      op.value < 0 ∧ cur < wrap (cur + op.value) ∨ wrap (cur + op.value) < (bitFieldBounds op).1 ∨
      (bitFieldBounds op).2 < wrap (cur + op.value)) ↔
        ¬ ((bitFieldBounds op).1 ≤ cur + op.value ∧ cur + op.value ≤ (bitFieldBounds op).2) := by
    unfold wrap
    omega
  unfold incrBitField
  dsimp only
  by_cases hin : (bitFieldBounds op).1 ≤ cur + op.value ∧ cur + op.value ≤ (bitFieldBounds op).2
  · rw [if_neg (fun hout => hflag.mp hout hin)]
    simp [hin]
  · rw [if_pos (hflag.mpr hin)]
    cases hover : op.overflow with
    | wrap => simp
    | sat =>
      dsimp only
      split_ifs <;> simp
    | fail => simp [hin]

theorem writesOver_eq_none_iff {op : BitFieldOp} (h : Parsed op) (hw : op.writes = true) (str : Bytes) :
    op.writesOver (fieldAt str op) = none ↔ Refused str op := by
  unfold BitFieldOp.writesOver Refused BitFieldOp.target
  cases hkind : op.kind with
  | get => simp [BitFieldOp.writes, hkind] at hw
  | set => exact clampBitField_eq_none_iff op op.value
  | incrBy => exact incrBitField_eq_none_iff h (fieldAt_range str op)

theorem writesOver_get {op : BitFieldOp} (hr : op.writes = false) (old : ℤ) : op.writesOver old = none := by
  have hkind : op.kind = .get := by simpa [BitFieldOp.writes] using hr
  rw [BitFieldOp.writesOver, hkind]

/-- A string is grown for operations all of which are refused. -/
structure GrownInVain (str : Bytes) (ops : List BitFieldOp) : Prop where
  inRange : ∀ op ∈ ops, InRange op
  refused : ∀ op ∈ ops, op.writes = true → Refused str op
  beyond : ∃ op ∈ ops, op.writes = true ∧ 8 * (str.length : ℤ) < op.stop ∧ op.stop ≤ maxBitFieldBit

/-- A BITFIELD that reports no change leaves the string alone, unless it was grown in vain. -/
theorem bitField_silent {str : Bytes} {ops : List BitFieldOp} (hops : ∀ op ∈ ops, Parsed op)
    {results : List (Option ℤ)} {after : Option Bytes}
    (h : (bitField (some str) ops).result = .ok (results, after, false)) :
    after = some str ∨ GrownInVain str ops := by
  unfold bitField at h
  dsimp only [Option.getD_some] at h
  split_ifs at h with hreads
  · obtain ⟨r, -, h⟩ := bind_ok h
    cases h
    exact .inl rfl
  · obtain ⟨grown, hgrown, h⟩ := bind_ok h
    obtain ⟨r, hr, h⟩ := bind_ok h
    have hclean : r.2.2 = false := congrArg (fun x => x.2.2) (Except.ok.inj h)
    have hafter : after = some r.2.1 := by
      have hr1 := congrArg (fun x => x.2.1) (Except.ok.inj h)
      simpa using hr1.symm
    obtain ⟨m, rfl, -, hgrew⟩ := growAll_ok hgrown
    by_cases hm : m = 0
    · -- nothing was grown: the string keeps its length, and its bytes if it has any
      subst hm
      rw [List.replicate_zero, List.append_nil] at hr
      left
      rw [hafter]
      by_cases hempty : str = []
      · subst hempty
        exact congrArg some (List.length_eq_zero_iff.mp (runOps_length hr))
      · have hrange := runOps_inRange hempty hops hr
        exact congrArg some (runOps_unchanged (fun op hop => ⟨hops op hop, hrange op hop⟩) hr hclean).1
    · right
      have hne : str ++ List.replicate m 0 ≠ [] := by
        simp [hm]
      have hrange := runOps_inRange hne hops hr
      have hrefused := (runOps_unchanged (fun op hop => ⟨hops op hop, hrange op hop⟩) hr hclean).2
        (by simp [Nat.pos_of_ne_zero hm])
      refine ⟨hrange, fun op hop hw => ?_, ?_⟩
      · rw [← writesOver_eq_none_iff (hops op hop) hw, ← fieldAt_append_zeros str m]
        exact hrefused op hop
      · obtain ⟨op, hop, hw, hlt⟩ := hgrew (Nat.pos_of_ne_zero hm)
        exact ⟨op, hop, hw, (lt_bitFieldBytes_iff (hops op hop) (hrange op hop) hw _).mp hlt⟩

/-- A string that was grown in vain is longer, and nothing is reported. -/
theorem bitField_inVain {str : Bytes} {ops : List BitFieldOp} (hops : ∀ op ∈ ops, Parsed op)
    (h : GrownInVain str ops) :
    ∃ results m, 0 < m ∧
      (bitField (some str) ops).result = .ok (results, some (str ++ List.replicate m 0), false) := by
  have hbytes : ∀ op ∈ ops, op.writes = true → bitFieldBytes op ≤ 2 ^ 29 := by
    intro op hop hw
    by_contra hfar
    have hlt := (lt_bitFieldBytes_iff (hops op hop) (h.inRange op hop) hw (2 ^ 29)).mp (by push_cast; omega)
    unfold maxBitFieldBit at hlt
    push_cast at hlt
    omega
  obtain ⟨grown, hgrown⟩ := growAll_runs str hbytes
  obtain ⟨m, rfl, hreach, -⟩ := growAll_ok hgrown
  obtain ⟨op, hop, hw, hbeyond⟩ := h.beyond
  have hpos : 0 < m := by
    have hlt := (lt_bitFieldBytes_iff (hops op hop) (h.inRange op hop) hw str.length).mpr hbeyond
    have hle := hreach op hop hw
    rw [List.length_append, List.length_replicate] at hle
    push_cast at hle
    omega
  have hnone : ∀ op ∈ ops, InRange op ∧
      op.writesOver (fieldAt (str ++ List.replicate m 0) op) = none := by
    intro op hop
    refine ⟨h.inRange op hop, ?_⟩
    cases hw : op.writes with
    | false => exact writesOver_get hw _
    | true =>
      rw [fieldAt_append_zeros, writesOver_eq_none_iff (hops op hop) hw]
      exact h.refused op hop hw
  obtain ⟨results, hrun⟩ := runOps_refused
    (decide (str.length < (str ++ List.replicate m 0).length)) hnone
  refine ⟨results, m, hpos, ?_⟩
  have hsome : ¬ (ops.all fun op => !op.writes) = true := by
    intro hall
    have := List.all_eq_true.mp hall op hop
    simp [hw] at this
  unfold bitField
  dsimp only [Option.getD_some]
  rw [if_neg hsome, bind_result hgrown]
  dsimp only [Option.isNone_some]
  rw [Bool.false_or, bind_result hrun]
  rfl

/-- A missing key stays missing when nothing is reported. -/
theorem bitField_missing {ops : List BitFieldOp} {results : List (Option ℤ)} {after : Option Bytes}
    (h : (bitField none ops).result = .ok (results, after, false)) : after = none := by
  unfold bitField at h
  dsimp only at h
  split_ifs at h
  · obtain ⟨r, -, h⟩ := bind_ok h
    cases h
    rfl
  · obtain ⟨grown, -, h⟩ := bind_ok h
    obtain ⟨r, -, h⟩ := bind_ok h
    have hclean : r.2.2 = false := congrArg (fun x => x.2.2) (Except.ok.inj h)
    have hafter := congrArg (fun x => x.2.1) (Except.ok.inj h)
    simpa [hclean] using hafter.symm

theorem parseBitFieldOffset_range {b : Bytes} {width : ℕ} {z : ℤ}
    (h : parseBitFieldOffset b width = some z) : -2 ^ 63 ≤ z ∧ z < 2 ^ 63 := by
  rw [parseBitFieldOffset_eq] at h
  obtain ⟨n, -, rfl⟩ := Option.map_eq_some_iff.mp h
  exact wrap_range n

theorem parseGet_parsed {type offset : Bytes} {op : BitFieldOp}
    (h : parseGet parseBitFieldOffset type offset = .ok op) : Parsed op := by
  unfold parseGet at h
  split at h
  · exact absurd h (by simp)
  · rename_i htype
    split at h
    · exact absurd h (by simp)
    · rename_i hoffset
      rw [← Except.ok.inj h]
      obtain ⟨hpos, hle⟩ := parseBitFieldType_range htype
      exact ⟨hpos, hle, parseBitFieldOffset_range hoffset,
        ⟨by norm_num [minInt64], by norm_num [maxInt64]⟩,
        fun hw => absurd hw (by simp [BitFieldOp.writes])⟩

theorem parseWrite_parsed {word type offset value : Bytes} {overflow : BitFieldOverflow} {op : BitFieldOp}
    (h : parseWrite parseBitFieldOffset refusesEnd word overflow type offset value = .ok op) :
    Parsed op := by
  unfold parseWrite at h
  split at h
  · exact absurd h (by simp)
  · rename_i htype
    split at h
    · exact absurd h (by simp)
    · rename_i hoffset
      split at h
      · exact absurd h (by simp)
      · rename_i hvalue
        split at h
        · exact absurd h (by simp)
        · rename_i hend
          rw [← Except.ok.inj h]
          obtain ⟨hpos, hle⟩ := parseBitFieldType_range htype
          refine ⟨hpos, hle, parseBitFieldOffset_range hoffset, parseInt64_range hvalue, fun _ => ?_⟩
          simpa [refusesEnd, BitFieldOp.stop] using hend

theorem parseBitField_parsed {args : Args} {readOnly : Bool} {ops : List BitFieldOp}
    (h : parseBitField args readOnly = .ok ops) : ∀ op ∈ ops, Parsed op :=
  parseOps_forall parseGet_parsed parseWrite_parsed h

variable (v : View) (args : Args) (vis : Entry S → Bool) (s : Dataset S)

/-- The command grows the string at its key for operations that are all refused. -/
def WastesGrowth : Prop :=
  ∃ ops str expireAt, parseBitField args false = .ok ops ∧
    seen vis s (v.loc (args.getD 1 [])) = some ⟨.str str, expireAt⟩ ∧ GrownInVain str ops

/-- What serving a string leaves there, if not what there was: a string that was grown in
vain, or one whose change is reported. -/
theorem serveBitField_cases {str : Bytes} {ops : List BitFieldOp} (hops : ∀ op ∈ ops, Parsed op)
    (expireAt : Option ℤ) :
    (∃ a, (serveBitField ops (some str) expireAt : Edit (Entry S) _) = .keep a ∧
        ¬ GrownInVain str ops) ∨
      ∃ after results changed, (serveBitField ops (some str) expireAt : Edit (Entry S) _) =
          .put ⟨.str after, expireAt⟩ (.ok (.ok (results, changed))) ∧
        ((GrownInVain str ops ∧ changed = false ∧ after ≠ str) ∨
          (¬ GrownInVain str ops ∧ (changed = true ∨ after = str))) := by
  unfold serveBitField
  by_cases hvain : GrownInVain str ops
  · obtain ⟨results, m, hm, hrun⟩ := bitField_inVain hops hvain
    obtain ⟨op, hop, hw, -⟩ := hvain.beyond
    have hwrites : ¬ (ops.all fun op => !op.writes) = true := by
      intro hall
      have := List.all_eq_true.mp hall op hop
      simp [hw] at this
    rw [hrun]
    dsimp only
    rw [if_neg hwrites]
    refine .inr ⟨_, results, false, rfl, .inl ⟨hvain, rfl, fun hsame => ?_⟩⟩
    have hlength := congrArg List.length hsame
    rw [List.length_append, List.length_replicate] at hlength
    omega
  · cases hrun : (bitField (some str) ops).result with
    | error fault => exact .inl ⟨_, rfl, hvain⟩
    | ok r =>
      obtain ⟨results, after, changed⟩ := r
      dsimp only
      split_ifs with hreads
      · exact .inl ⟨_, rfl, hvain⟩
      · obtain ⟨grown, rfl⟩ : ∃ grown, after = some grown := by
          unfold bitField at hrun
          dsimp only at hrun
          rw [if_neg hreads] at hrun
          obtain ⟨grown, -, hrun⟩ := bind_ok hrun
          obtain ⟨r, -, hrun⟩ := bind_ok hrun
          have hafter := congrArg (fun x => x.2.1) (Except.ok.inj hrun)
          exact ⟨r.2.1, by simpa using hafter.symm⟩
        refine .inr ⟨grown, results, changed, rfl, .inr ⟨hvain, ?_⟩⟩
        cases changed with
        | true => exact .inl rfl
        | false => exact .inr (Option.some.inj ((bitField_silent hops hrun).resolve_right hvain))

theorem serveBitField_missing (ops : List BitFieldOp) :
    (∃ a, (serveBitField ops none none : Edit (Entry S) _) = .keep a) ∨
      ∃ results changed, (serveBitField ops none none : Edit (Entry S) _) =
          .drop (.ok (.ok (results, changed))) ∨
        ∃ str, (serveBitField ops none none : Edit (Entry S) _) =
          .put ⟨.str str, none⟩ (.ok (.ok (results, changed))) ∧ changed = true := by
  unfold serveBitField
  cases hrun : (bitField none ops).result with
  | error fault => exact .inl ⟨_, rfl⟩
  | ok r =>
    obtain ⟨results, after, changed⟩ := r
    dsimp only
    split_ifs with hreads
    · exact .inl ⟨_, rfl⟩
    · refine .inr ⟨results, changed, ?_⟩
      cases after with
      | none => exact .inl rfl
      | some str =>
        refine .inr ⟨str, rfl, ?_⟩
        cases changed with
        | true => rfl
        | false => exact absurd (bitField_missing hrun) (by simp)

/-- BITFIELD is right about what it changed, except when it wastes growth. -/
theorem cmdBitField_honest_iff :
    (((cmdBitField v args).run vis s).1.2 = false → Alike vis ((cmdBitField v args).run vis s).2 s) ↔
      ¬ WastesGrowth v args vis s := by
  unfold cmdBitField bitFieldCommand WastesGrowth
  cases hparse : parseBitField args false with
  | error r => exact iff_of_true (fun _ => rfl) (by simp)
  | ok ops =>
    have hops := parseBitField_parsed hparse
    cases ops with
    | nil =>
      refine iff_of_true (fun _ => rfl) ?_
      rintro ⟨ops, str, d, hok, -, hvain⟩
      obtain rfl := Except.ok.inj hok
      obtain ⟨op, hop, -⟩ := hvain.beyond
      exact absurd hop List.not_mem_nil
    | cons first rest =>
      rw [run_map, run_map, editBitField, run_edit]
      cases hseen : seen vis s (v.loc (args.getD 1 [])) with
      | none =>
        refine iff_of_true ?_ (by simp)
        dsimp only
        rcases serveBitField_missing (S := S) (first :: rest) with
          ⟨a, ha⟩ | ⟨results, changed, ha | ⟨str, ha, rfl⟩⟩ <;> rw [ha]
        · exact fun _ => rfl
        · exact fun _ => alike_drop hseen
        · exact fun hclean => absurd hclean (by simp [orNothing])
      | some e =>
        obtain ⟨value, d⟩ := e
        cases value with
        | str b =>
          have hwaste : (∃ ops str expireAt, Except.ok (first :: rest) = (Except.ok ops : Except Reply _) ∧
              some (⟨.str b, d⟩ : Entry S) = some ⟨.str str, expireAt⟩ ∧ GrownInVain str ops) ↔
                GrownInVain b (first :: rest) := by
            constructor
            · rintro ⟨ops, str, d', hok, he, hvain⟩
              cases hok
              cases he
              exact hvain
            · exact fun hvain => ⟨_, b, d, rfl, rfl, hvain⟩
          rw [hwaste]
          dsimp only
          rcases serveBitField_cases (S := S) hops d with
            ⟨a, ha, hno⟩ | ⟨after, results, changed, ha, ⟨hvain, rfl, hne⟩ | ⟨hno, rfl | rfl⟩⟩ <;> rw [ha]
          · exact iff_of_true (fun _ => rfl) hno
          · refine iff_of_false (fun hsilent => ?_) (not_not.mpr hvain)
            have hsame := congrFun (hsilent rfl) (v.loc (args.getD 1 []))
            rw [seen_update, if_pos rfl, hseen] at hsame
            have := (Option.filter_eq_some_iff.mp hsame).1
            simp [hne] at this
          · exact iff_of_true (fun hclean => absurd hclean (by simp [orNothing])) hno
          · refine iff_of_true (fun _ => ?_) hno
            exact congrArg (seen vis) (update_seen hseen)
        | _ => exact iff_of_true (fun _ => rfl) (by simp)

end ShardKV.Commands
