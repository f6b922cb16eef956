import ShardKV.Bytes.Checked
import ShardKV.Server.Exec

/-! BITFIELD. A list of operands becomes a list of operations, each on an integer
field of up to 64 bits at a bit offset of a string. The offset `#n` is `n` field
widths, multiplied in 64 bits, and the end of a written field is compared with the
largest string in 64 bits. An operation list that passes is run bit by bit against
the string, which is first grown to the end of the furthest written field. -/

namespace ShardKV.Commands

open Data Resp Server Checked

inductive BitFieldOverflow
  | wrap
  | sat
  | fail
  deriving DecidableEq

inductive BitFieldOpKind
  | get
  | set
  | incrBy
  deriving DecidableEq

structure BitFieldOp where
  kind : BitFieldOpKind
  signed : Bool
  bits : ℕ
  offset : ℤ
  value : ℤ
  overflow : BitFieldOverflow
  deriving DecidableEq

/-- One past the last bit of the field. -/
def BitFieldOp.stop (op : BitFieldOp) : ℤ := op.offset + op.bits

def BitFieldOp.writes (op : BitFieldOp) : Bool := op.kind != .get

def parseBitFieldType : Bytes → Option (Bool × ℕ)
  | 117 :: ds =>
    match parseInt64 ds with
    | some n => if n < 1 ∨ 63 < n then none else some (false, n.toNat)
    | none => none
  | 105 :: ds =>
    match parseInt64 ds with
    | some n => if n < 1 ∨ 64 < n then none else some (true, n.toNat)
    | none => none
  | _ => none

/-- An operand that is a number, not negative. -/
def parseOffset (b : Bytes) : Option ℤ :=
  (parseInt64 b).bind fun n => if n < 0 then none else some n

def parseBitFieldOffset (b : Bytes) (width : ℕ) : Option ℤ :=
  match b with
  | 35 :: ds => (parseOffset ds).map fun n => wrap (n * width)
  | ds => parseOffset ds

/-- The bit offset that an operand means. -/
def writtenOffset (b : Bytes) (width : ℕ) : Option ℤ :=
  match b with
  | 35 :: ds => (parseOffset ds).map fun n => n * width
  | ds => parseOffset ds

def typeErr : Reply :=
  errorReply ("ERR Invalid bitfield type. Use something like i16 u8. " ++
    "Note that u64 is not supported but i64 is.")

def offsetErr : Reply := errorReply "ERR bit offset is not an integer or out of range"

section Operations

variable (readOffset : Bytes → ℕ → Option ℤ) (refuses : ℤ → ℕ → Bool)

/-- The operands of GET, for a reading of the offset. -/
def parseGet (type offset : Bytes) : Except Reply BitFieldOp :=
  match parseBitFieldType type with
  | none => .error typeErr
  | some (signed, width) =>
    match readOffset offset width with
    | none => .error offsetErr
    | some offset => .ok ⟨.get, signed, width, offset, 0, .wrap⟩

/-- The operands of SET and INCRBY, for a test of the end of the field as well. -/
def parseWrite (word : Bytes) (overflow : BitFieldOverflow) (type offset value : Bytes) :
    Except Reply BitFieldOp :=
  match parseBitFieldType type with
  | none => .error typeErr
  | some (signed, width) =>
    match readOffset offset width with
    | none => .error offsetErr
    | some offset =>
      match parseInt64 value with
      | none => .error notIntegerErr
      | some value =>
        if refuses offset width then .error offsetErr
        else
          .ok ⟨if equalFold word "INCRBY" then .incrBy else .set, signed, width, offset, value,
            overflow⟩

/-- BITFIELD_RO refuses the operations that write. -/
def writable (readOnly : Bool) : Except Reply Unit :=
  if readOnly then .error (errorReply "ERR BITFIELD_RO only supports the GET subcommand")
  else .ok ()

/-- The loop over the operands. -/
def parseOps (readOnly : Bool) :
    BitFieldOverflow → List Bytes → Except Reply (List BitFieldOp)
  | _, [] => .ok []
  | overflow, word :: rest =>
    if isWord word "OVERFLOW" then
      match rest with
      | [] => .error syntaxErr
      | how :: rest =>
        if isWord how "WRAP" then parseOps readOnly .wrap rest
        else if isWord how "SAT" then parseOps readOnly .sat rest
        else if isWord how "FAIL" then parseOps readOnly .fail rest
        else .error (errorReply "ERR Invalid OVERFLOW type specified")
    else if isWord word "GET" then
      match rest with
      | type :: offset :: rest => do
        let op ← parseGet readOffset type offset
        let ops ← parseOps readOnly overflow rest
        pure (op :: ops)
      | _ => .error syntaxErr
    else if isWord word "SET" || isWord word "INCRBY" then
      match writable readOnly with
      | .error r => .error r
      | .ok () =>
        match rest with
        | type :: offset :: value :: rest => do
          let op ← parseWrite readOffset refuses word overflow type offset value
          let ops ← parseOps readOnly overflow rest
          pure (op :: ops)
        | _ => .error syntaxErr
    else .error syntaxErr

end Operations

def maxBitFieldBit : ℤ := 512 * 2 ^ 20 * 8

/-- The 64-bit test of the end of a written field. -/
def refusesEnd (offset : ℤ) (width : ℕ) : Bool := decide (maxBitFieldBit < wrap (offset + width))

/-- `parseBitField`, on the whole argument vector. -/
def parseBitField (args : Args) (readOnly : Bool) : Except Reply (List BitFieldOp) :=
  parseOps parseBitFieldOffset refusesEnd readOnly .wrap (args.drop 2)

/-- The operations a client wrote, with the offsets their operands mean. -/
def writtenOps (args : Args) (readOnly : Bool) : Except Reply (List BitFieldOp) :=
  parseOps writtenOffset (fun _ _ => false) readOnly .wrap (args.drop 2)

/-- `byte(0x80 >> n)`; a negative shift is a fault. -/
def bitMask (n : ℤ) : Comp UInt8 :=
  if 0 ≤ n then pure (UInt8.ofNat (0x80 >>> n.toNat)) else halt .shift

/-- One bit of a string, zero past its end. -/
def getBit (str : Bytes) (bit : ℤ) : Comp Bool :=
  if bit.tdiv 8 < str.length then do
    let byte ← index str (bit.tdiv 8)
    let mask ← bitMask (bit.tmod 8)
    pure (byte &&& mask != 0)
  else pure false

/-- The loop of `getBitField`, with `left` bits to read. -/
def getBits (str : Bytes) (offset : ℤ) : ℕ → ℤ → BitVec 64 → Comp (BitVec 64)
  | 0, _, v => pure v
  | left + 1, i, v => do
    let on ← getBit str (wrap (offset + i))
    getBits str offset left (i + 1) (if on then v <<< 1 ||| 1 else v <<< 1)

/-- The bits above a field, set when the field is signed and its top bit is. -/
def signExtend (op : BitFieldOp) (v : BitVec 64) : BitVec 64 :=
  if op.signed ∧ op.bits < 64 ∧ v &&& (1 : BitVec 64) <<< (op.bits - 1) ≠ 0 then
    v ||| BitVec.allOnes 64 <<< op.bits
  else v

def getBitField (str : Bytes) (op : BitFieldOp) : Comp ℤ := do
  let v ← getBits str op.offset op.bits 0 0
  pure (signExtend op v).toInt

/-- The loop of `setBitField`. -/
def setBits (offset : ℤ) (v : BitVec 64) : ℕ → ℤ → Bytes → Comp Bytes
  | 0, _, str => pure str
  | left + 1, i, str => do
    let bit := wrap (offset + i)
    let mask ← bitMask (bit.tmod 8)
    let byte ← index str (bit.tdiv 8)
    let byte := if v &&& (1 : BitVec 64) <<< left ≠ 0 then byte ||| mask else byte &&& ~~~mask
    setBits offset v left (i + 1) (str.set (bit.tdiv 8).toNat byte)

def setBitField (str : Bytes) (op : BitFieldOp) (value : ℤ) : Comp Bytes :=
  setBits op.offset (BitVec.ofInt 64 value) op.bits 0 str

def bitFieldBounds (op : BitFieldOp) : ℤ × ℤ :=
  if op.signed then
    if op.bits = 64 then (minInt64, maxInt64) else (-2 ^ (op.bits - 1), 2 ^ (op.bits - 1) - 1)
  else if 63 ≤ op.bits then (0, maxInt64)
  else (0, 2 ^ op.bits - 1)

def wrapBitField (op : BitFieldOp) (v : ℤ) : ℤ :=
  if op.bits = 64 then v
  else (signExtend op (BitVec.ofInt 64 v &&& (1 <<< op.bits - 1))).toInt

def clampBitField (op : BitFieldOp) (v : ℤ) : Option ℤ :=
  let (lo, hi) := bitFieldBounds op
  if lo ≤ v ∧ v ≤ hi then some v
  else
    match op.overflow with
    | .fail => none
    | .sat => if v < lo then some lo else some hi
    | .wrap => some (wrapBitField op v)

def incrBitField (op : BitFieldOp) (cur : ℤ) : Option ℤ :=
  let (lo, hi) := bitFieldBounds op
  let sum := wrap (cur + op.value)
  if (0 < op.value ∧ sum < cur) ∨ (op.value < 0 ∧ cur < sum) ∨ sum < lo ∨ hi < sum then
    match op.overflow with
    | .fail => none
    | .sat => if 0 < op.value then some hi else some lo
    | .wrap => some (wrapBitField op sum)
  else some sum

def bitFieldBytes (op : BitFieldOp) : ℤ := (wrap (wrap (op.offset + op.bits) + 7)).tdiv 8

def growString (str : Bytes) (n : ℤ) : Comp Bytes :=
  if n ≤ str.length then pure str
  else do
    makeCap 1 n
    pure (str ++ List.replicate (n.toNat - str.length) 0)

/-- Growing to the end of the furthest written field. -/
def growAll : List BitFieldOp → Bytes → Comp Bytes
  | [], str => pure str
  | op :: ops, str =>
    if op.writes then do growAll ops (← growString str (bitFieldBytes op)) else growAll ops str

/-- The operations in order: their results (`none` where OVERFLOW FAIL refused),
the string, and whether any of them changed it. -/
def runOps (widened : Bool) :
    List BitFieldOp → Bytes → Comp (List (Option ℤ) × Bytes × Bool)
  | [], str => pure ([], str, false)
  | op :: ops, str => do
    let old ← getBitField str op
    match op.kind with
    | .get =>
      let r ← runOps widened ops str
      pure (some old :: r.1, r.2)
    | .set =>
      match clampBitField op op.value with
      | none =>
        let r ← runOps widened ops str
        pure (none :: r.1, r.2)
      | some v =>
        let r ← runOps widened ops (← setBitField str op v)
        pure (some old :: r.1, r.2.1, widened || decide (v ≠ old) || r.2.2)
    | .incrBy =>
      match incrBitField op old with
      | none =>
        let r ← runOps widened ops str
        pure (none :: r.1, r.2)
      | some v =>
        let r ← runOps widened ops (← setBitField str op v)
        pure (some v :: r.1, r.2.1, widened || decide (v ≠ old) || r.2.2)

/-- `Store.BitField` on the string stored at the key, if any. -/
def bitField (stored : Option Bytes) (ops : List BitFieldOp) :
    Comp (List (Option ℤ) × Option Bytes × Bool) :=
  let str := stored.getD []
  if ops.all fun op => !op.writes then do
    let r ← runOps false ops str
    pure (r.1, stored, false)
  else do
    let grown ← growAll ops str
    let widened := stored.isNone || decide (str.length < grown.length)
    let r ← runOps widened ops grown
    pure (r.1, if r.2.2 || stored.isSome then some r.2.1 else none, r.2.2)

section Reading

variable {len : ℕ}

/-- The bit of a string at a position, zero past its end. -/
def bitAt (str : Bytes) (bit : ℤ) : Bool :=
  match str[(bit / 8).toNat]? with
  | some byte => byte &&& UInt8.ofNat (0x80 >>> (bit % 8).toNat) != 0
  | none => false

/-- Bits appended to a word, the first of them in the highest place. -/
def appendBits (f : ℤ → Bool) : ℕ → ℤ → BitVec 64 → BitVec 64
  | 0, _, v => v
  | left + 1, i, v => appendBits f left (i + 1) (if f i then v <<< 1 ||| 1 else v <<< 1)

/-- The value of a field, whose bits past the end of the string are zero. -/
def fieldAt (str : Bytes) (op : BitFieldOp) : ℤ :=
  (signExtend op (appendBits (fun i => bitAt str (op.offset + i)) op.bits 0 0)).toInt

theorem safe_bitMask {n : ℤ} (h : 0 ≤ n) :
    Safe len (fun m => m = UInt8.ofNat (0x80 >>> n.toNat)) (bitMask n) := by
  unfold bitMask
  rw [if_pos h]
  exact safe_pure rfl

theorem getBit_safe (str : Bytes) {bit : ℤ} (h : 0 ≤ bit) :
    Safe len (fun on => on = bitAt str bit) (getBit str bit) := by
  have hdiv : bit.tdiv 8 = bit / 8 := Int.tdiv_eq_ediv_of_nonneg h
  have hmod : bit.tmod 8 = bit % 8 := Int.tmod_eq_emod_of_nonneg h
  unfold getBit bitAt
  rw [hdiv, hmod]
  split_ifs with hin
  · refine safe_bind (safe_index (by omega) hin) fun byte hbyte => ?_
    refine safe_bind (safe_bitMask (by omega)) fun mask hmask => safe_pure ?_
    rw [hbyte, hmask]
  · have hnone : str[(bit / 8).toNat]? = none := List.getElem?_eq_none (by omega)
    rw [hnone]
    exact safe_pure rfl

theorem getBits_safe (str : Bytes) {offset i : ℤ} {left : ℕ} (v : BitVec 64)
    (h : 0 ≤ offset + i) (h' : offset + i + left ≤ 2 ^ 63) :
    Safe len (fun r => r = appendBits (fun i => bitAt str (offset + i)) left i v)
      (getBits str offset left i v) := by
  induction left generalizing i v with
  | zero => exact safe_pure rfl
  | succ left ih =>
    unfold getBits
    rw [wrap_of_range (by omega) (by omega)]
    refine safe_bind (getBit_safe str h) fun on hon => ?_
    rw [hon]
    exact ih _ (by omega) (by omega)

/-- A field that ends within 64 bits is read without a fault. -/
theorem getBitField_safe (str : Bytes) {op : BitFieldOp} (h : 0 ≤ op.offset)
    (h' : op.stop ≤ 2 ^ 63) :
    Safe len (fun r => r = fieldAt str op) (getBitField str op) := by
  unfold BitFieldOp.stop at h'
  refine safe_bind (getBits_safe str 0 (by omega) (by omega)) fun v hv => safe_pure ?_
  rw [hv]
  rfl

theorem appendBits_false {f : ℤ → Bool} {left : ℕ} {i : ℤ} (h : ∀ j, i ≤ j → f j = false) :
    appendBits f left i 0 = 0 := by
  induction left generalizing i with
  | zero => rfl
  | succ left ih =>
    unfold appendBits
    rw [h i le_rfl]
    exact ih fun j hj => h j (by omega)

theorem fieldAt_past {str : Bytes} {op : BitFieldOp} (h : 8 * (str.length : ℤ) ≤ op.offset) :
    fieldAt str op = 0 := by
  have hbits : ∀ j, 0 ≤ j → bitAt str (op.offset + j) = false := by
    intro j hj
    unfold bitAt
    have hnone : str[((op.offset + j) / 8).toNat]? = none := List.getElem?_eq_none (by omega)
    rw [hnone]
  unfold fieldAt
  rw [appendBits_false hbits]
  unfold signExtend
  rw [if_neg (by simp)]
  rfl

theorem getBit_negative (str : Bytes) {bit : ℤ} (h : bit ≤ -8) :
    (getBit str bit).result = .error .index := by
  have hdiv : bit.tdiv 8 < 0 := by
    have hneg : (-bit).tdiv 8 = -bit / 8 := Int.tdiv_eq_ediv_of_nonneg (by omega)
    rw [Int.neg_tdiv] at hneg
    omega
  unfold getBit
  rw [if_pos (by omega)]
  refine bind_fault ?_ _
  unfold index
  rw [if_neg (by omega)]
  rfl

/-- A field that ends beyond 64 bits is never read. -/
theorem getBits_fault (str : Bytes) {offset i : ℤ} {left : ℕ} (v : BitVec 64)
    (h : 0 ≤ offset + i) (hlt : offset + i < 2 ^ 63 + 1) (h' : 2 ^ 63 < offset + i + left) :
    ∃ e, (getBits str offset left i v).result = .error e := by
  induction left generalizing i v with
  | zero => omega
  | succ left ih =>
    unfold getBits
    by_cases hedge : offset + i = 2 ^ 63
    · have hwrap : wrap (offset + i) = -2 ^ 63 := by
        rw [hedge]
        decide
      rw [hwrap]
      exact ⟨_, bind_fault (getBit_negative str (by norm_num)) _⟩
    · rw [wrap_of_range (by omega) (by omega)]
      obtain ⟨-, on, hon, -⟩ : Safe 0 _ _ := getBit_safe str h
      rw [bind_result hon]
      exact ih _ (by omega) (by omega) (by push_cast at h' ⊢; omega)

theorem getBitField_fault (str : Bytes) {op : BitFieldOp} (h : 0 ≤ op.offset)
    (hlt : op.offset < 2 ^ 63) (h' : 2 ^ 63 < op.stop) :
    ∃ e, (getBitField str op).result = .error e := by
  unfold BitFieldOp.stop at h'
  obtain ⟨e, he⟩ := getBits_fault str (i := 0) 0 (by simpa using h)
    (by omega) (by simpa using h')
  exact ⟨e, bind_fault he _⟩

end Reading

section Running

variable {len : ℕ}

theorem setBits_safe {offset i : ℤ} {left : ℕ} (v : BitVec 64) {str : Bytes}
    (h : 0 ≤ offset + i) (hin : offset + i + left ≤ 8 * str.length)
    (h' : offset + i + left ≤ 2 ^ 63) :
    Safe len (fun r => r.length = str.length) (setBits offset v left i str) := by
  induction left generalizing i str with
  | zero => exact safe_pure rfl
  | succ left ih =>
    unfold setBits
    have hdiv : (offset + i).tdiv 8 = (offset + i) / 8 := Int.tdiv_eq_ediv_of_nonneg h
    have hmod : (offset + i).tmod 8 = (offset + i) % 8 := Int.tmod_eq_emod_of_nonneg h
    rw [wrap_of_range (by omega) (by omega)]
    dsimp only
    rw [hdiv, hmod]
    refine safe_bind (safe_bitMask (by omega)) fun mask _ => ?_
    refine safe_bind (safe_index (by omega) (by omega)) fun byte _ => ?_
    refine (ih (by omega) ?_ (by omega)).mono fun r hr => ?_
    · rw [List.length_set]
      omega
    · rw [hr, List.length_set]

/-- A field that a string of `size` bytes can serve. -/
structure Served (size : ℕ) (op : BitFieldOp) : Prop where
  nonneg : 0 ≤ op.offset
  stop_le : op.stop ≤ 2 ^ 63
  within : op.writes = true → op.stop ≤ 8 * size

theorem setBitField_safe {str : Bytes} {op : BitFieldOp} (v : ℤ) (h : Served str.length op)
    (hw : op.writes = true) :
    Safe len (fun r => r.length = str.length) (setBitField str op v) := by
  have hwithin := h.within hw
  have hstop := h.stop_le
  have hnonneg := h.nonneg
  unfold BitFieldOp.stop at hwithin hstop
  exact setBits_safe _ (by omega) (by omega) (by omega)

theorem runOps_safe (widened : Bool) {ops : List BitFieldOp} {str : Bytes}
    (h : ∀ op ∈ ops, Served str.length op) :
    Safe len (fun _ => True) (runOps widened ops str) := by
  induction ops generalizing str with
  | nil => exact safe_pure trivial
  | cons op ops ih =>
    have hop := h op List.mem_cons_self
    have hrest : ∀ str', List.length str' = str.length →
        Safe len (fun _ => True) (runOps widened ops str') := by
      intro str' hlength
      refine ih fun op' hmem => ?_
      rw [hlength]
      exact h op' (List.mem_cons_of_mem _ hmem)
    unfold runOps
    refine safe_bind (getBitField_safe str hop.nonneg hop.stop_le) fun old _ => ?_
    split
    · exact safe_bind (hrest str rfl) fun r _ => safe_pure trivial
    all_goals
      rename_i hkind
      split
      · exact safe_bind (hrest str rfl) fun r _ => safe_pure trivial
      · refine safe_bind (setBitField_safe _ hop (by simp [BitFieldOp.writes, hkind]))
          fun str' hlength => ?_
        exact safe_bind (hrest str' hlength) fun r _ => safe_pure trivial

/-- Every operation of a run that ends without a fault has read its field. -/
theorem runOps_reads {widened : Bool} {ops : List BitFieldOp} {str : Bytes}
    {Q : List (Option ℤ) × Bytes × Bool → Prop} (h : Safe len Q (runOps widened ops str))
    {op : BitFieldOp} (hop : op ∈ ops) :
    ∃ str' v, (getBitField str' op).result = .ok v := by
  induction ops generalizing str Q with
  | nil => exact absurd hop List.not_mem_nil
  | cons first ops ih =>
    unfold runOps at h
    obtain ⟨old, ⟨-, v, hv, -⟩, h⟩ := h.of_bind
    rcases List.mem_cons.mp hop with rfl | hop
    · exact ⟨str, v, hv⟩
    split at h
    · obtain ⟨r, hr, -⟩ := h.of_bind
      exact ih hr hop
    all_goals
      split at h
      · obtain ⟨r, hr, -⟩ := h.of_bind
        exact ih hr hop
      · obtain ⟨str', -, h⟩ := h.of_bind
        obtain ⟨r, hr, -⟩ := h.of_bind
        exact ih hr hop

/-- A field whose end the parser compared in range. -/
structure Addressable (op : BitFieldOp) : Prop where
  nonneg : 0 ≤ op.offset
  stop_le : op.stop ≤ 2 ^ 63
  bounded : op.writes = true → op.stop ≤ maxBitFieldBit

theorem bitFieldBytes_eq {op : BitFieldOp} (h : Addressable op) (hw : op.writes = true) :
    bitFieldBytes op = (op.stop + 7) / 8 := by
  have hnonneg := h.nonneg
  have hbounded := h.bounded hw
  unfold maxBitFieldBit BitFieldOp.stop at hbounded
  unfold bitFieldBytes BitFieldOp.stop
  rw [wrap_wrap_add, wrap_of_range (by omega) (by omega)]
  exact Int.tdiv_eq_ediv_of_nonneg (by omega)

theorem growString_safe {str : Bytes} {n : ℤ} (h : n ≤ 2 ^ 29) :
    Safe (2 ^ 29) (fun r => str.length ≤ r.length ∧ n ≤ r.length) (growString str n) := by
  unfold growString
  split_ifs with hle
  · exact safe_pure ⟨le_rfl, hle⟩
  · refine safe_bind (safe_makeCap (by omega) (by push_cast; omega) ?_) fun _ _ => safe_pure ?_
    · unfold maxAlloc
      omega
    · simp only [List.length_append, List.length_replicate]
      omega

/-- Growing serves every addressable field. -/
theorem growAll_safe {ops : List BitFieldOp} (str : Bytes) (h : ∀ op ∈ ops, Addressable op) :
    Safe (2 ^ 29) (fun r => str.length ≤ r.length ∧ ∀ op ∈ ops, Served r.length op)
      (growAll ops str) := by
  induction ops generalizing str with
  | nil => exact safe_pure ⟨le_rfl, fun op hop => absurd hop List.not_mem_nil⟩
  | cons op ops ih =>
    have hop := h op List.mem_cons_self
    have hrest : ∀ op ∈ ops, Addressable op := fun op hmem => h op (List.mem_cons_of_mem _ hmem)
    unfold growAll
    split_ifs with hw
    · have hbytes := bitFieldBytes_eq hop hw
      have hbounded := hop.bounded hw
      unfold maxBitFieldBit at hbounded
      refine safe_bind (growString_safe (by omega)) fun grown hgrown => ?_
      refine (ih grown hrest).mono fun r hr => ⟨hgrown.1.trans hr.1, fun op' hmem => ?_⟩
      rcases List.mem_cons.mp hmem with rfl | hmem
      · exact ⟨hop.nonneg, hop.stop_le, fun _ => by omega⟩
      · exact hr.2 op' hmem
    · refine (ih str hrest).mono fun r hr => ⟨hr.1, fun op' hmem => ?_⟩
      rcases List.mem_cons.mp hmem with rfl | hmem
      · exact ⟨hop.nonneg, hop.stop_le, fun h => absurd h hw⟩
      · exact hr.2 op' hmem

theorem bitField_safe (stored : Option Bytes) {ops : List BitFieldOp}
    (h : ∀ op ∈ ops, Addressable op) :
    Safe (2 ^ 29) (fun _ => True) (bitField stored ops) := by
  unfold bitField
  dsimp only
  split_ifs with hreads
  · have hserved : ∀ op ∈ ops, Served (stored.getD []).length op := by
      intro op hop
      have hread : op.writes = false := by simpa using List.all_eq_true.mp hreads op hop
      exact ⟨(h op hop).nonneg, (h op hop).stop_le, fun hw => absurd hw (by simp [hread])⟩
    exact safe_bind (runOps_safe false hserved) fun r _ => safe_pure trivial
  · refine safe_bind (growAll_safe _ h) fun grown hgrown => ?_
    exact safe_bind (runOps_safe _ hgrown.2) fun r _ => safe_pure trivial

theorem bitField_reads {stored : Option Bytes} {ops : List BitFieldOp}
    {Q : List (Option ℤ) × Option Bytes × Bool → Prop} (h : Safe len Q (bitField stored ops))
    {op : BitFieldOp} (hop : op ∈ ops) : ∃ str v, (getBitField str op).result = .ok v := by
  unfold bitField at h
  dsimp only at h
  split_ifs at h
  · obtain ⟨r, hr, -⟩ := h.of_bind
    exact runOps_reads hr hop
  · obtain ⟨grown, -, h⟩ := h.of_bind
    obtain ⟨r, hr, -⟩ := h.of_bind
    exact runOps_reads hr hop

end Running

theorem parseOffset_range {b : Bytes} {n : ℤ} (h : parseOffset b = some n) :
    0 ≤ n ∧ n < 2 ^ 63 := by
  obtain ⟨m, hm, hn⟩ := Option.bind_eq_some_iff.mp h
  have hmax : m ≤ 2 ^ 63 - 1 := (parseInt64_range hm).2
  split_ifs at hn with hneg
  obtain rfl := Option.some.inj hn
  omega

/-- The parser reads the offset that is meant, modulo 64 bits. -/
theorem parseBitFieldOffset_eq (b : Bytes) (width : ℕ) :
    parseBitFieldOffset b width = (writtenOffset b width).map wrap := by
  unfold parseBitFieldOffset writtenOffset
  split
  · rw [Option.map_map]
    rfl
  · cases h : parseOffset b with
    | none => rfl
    | some n =>
      have hrange := parseOffset_range h
      rw [Option.map_some, wrap_of_range (by omega) (by omega)]

theorem writtenOffset_nonneg {b : Bytes} {width : ℕ} {z : ℤ} (h : writtenOffset b width = some z) :
    0 ≤ z := by
  unfold writtenOffset at h
  split at h
  · obtain ⟨n, hn, rfl⟩ := Option.map_eq_some_iff.mp h
    exact mul_nonneg (parseOffset_range hn).1 (by omega)
  · exact (parseOffset_range h).1

/-- The operation as the parser holds it. -/
def BitFieldOp.wrapped (op : BitFieldOp) : BitFieldOp := { op with offset := wrap op.offset }

/-- The 64-bit comparison lets the operation pass. -/
def BitFieldOp.passes (op : BitFieldOp) : Prop :=
  op.writes = true → wrap op.stop ≤ maxBitFieldBit

theorem cons_ok_iff {α : Type} {r : Except Reply α} {rs : Except Reply (List α)} {xs : List α} :
    (do let x ← r; let ys ← rs; pure (x :: ys)) = Except.ok xs ↔
      ∃ x ys, r = .ok x ∧ rs = .ok ys ∧ xs = x :: ys := by
  cases r with
  | error e => simp [bind, Except.bind]
  | ok x =>
    cases rs with
    | error e => simp [bind, Except.bind]
    | ok ys => simp [bind, Except.bind, pure, Except.pure, eq_comm]

theorem parseGet_ok_iff {type offset : Bytes} {op : BitFieldOp} :
    parseGet parseBitFieldOffset type offset = .ok op ↔
      ∃ w, parseGet writtenOffset type offset = .ok w ∧ op = w.wrapped ∧ w.passes := by
  unfold parseGet
  cases parseBitFieldType type with
  | none => simp
  | some t =>
    dsimp only
    rw [parseBitFieldOffset_eq]
    cases writtenOffset offset t.2 with
    | none => simp
    | some z => simp [BitFieldOp.wrapped, BitFieldOp.passes, BitFieldOp.writes, eq_comm (a := op)]

theorem parseWrite_ok_iff {word type offset value : Bytes} {overflow : BitFieldOverflow}
    {op : BitFieldOp} :
    parseWrite parseBitFieldOffset refusesEnd word overflow type offset value = .ok op ↔
      ∃ w, parseWrite writtenOffset (fun _ _ => false) word overflow type offset value = .ok w ∧
        op = w.wrapped ∧ w.passes := by
  unfold parseWrite
  cases parseBitFieldType type with
  | none => simp
  | some t =>
    dsimp only
    rw [parseBitFieldOffset_eq]
    cases writtenOffset offset t.2 with
    | none => simp
    | some z =>
      cases parseInt64 value with
      | none => simp
      | some v =>
        simp only [Option.map_some, refusesEnd, wrap_wrap_add]
        have hwrites : (if equalFold word "INCRBY" then BitFieldOpKind.incrBy else .set) ≠ .get := by
          split_ifs <;> simp
        by_cases hend : maxBitFieldBit < wrap (z + t.2)
        · simp [hend, BitFieldOp.passes, BitFieldOp.writes, BitFieldOp.stop, hwrites]
        · simp [hend, BitFieldOp.wrapped, BitFieldOp.passes, BitFieldOp.writes, BitFieldOp.stop,
            hwrites, eq_comm (a := op), not_lt.mp hend]

/-- Two parses that agree operation by operation agree on a list of them. -/
theorem ops_ok_iff {r w : Except Reply BitFieldOp} {rs ws : Except Reply (List BitFieldOp)}
    (h : ∀ op, r = .ok op ↔ ∃ v, w = .ok v ∧ op = v.wrapped ∧ v.passes)
    (hs : ∀ ops, rs = .ok ops ↔ ∃ vs, ws = .ok vs ∧ ops = vs.map BitFieldOp.wrapped ∧
      ∀ v ∈ vs, v.passes) (ops : List BitFieldOp) :
    (do let x ← r; let ys ← rs; pure (x :: ys)) = Except.ok ops ↔
      ∃ vs, (do let x ← w; let ys ← ws; pure (x :: ys)) = Except.ok vs ∧
        ops = vs.map BitFieldOp.wrapped ∧ ∀ v ∈ vs, v.passes := by
  constructor
  · intro hops
    obtain ⟨x, ys, hx, hys, rfl⟩ := cons_ok_iff.mp hops
    obtain ⟨v, hv, rfl, hpass⟩ := (h x).mp hx
    obtain ⟨vs, hvs, rfl, hall⟩ := (hs ys).mp hys
    refine ⟨v :: vs, cons_ok_iff.mpr ⟨v, vs, hv, hvs, rfl⟩, rfl, ?_⟩
    exact List.forall_mem_cons.mpr ⟨hpass, hall⟩
  · rintro ⟨all, hall, rfl, hpasses⟩
    obtain ⟨v, vs, hv, hvs, rfl⟩ := cons_ok_iff.mp hall
    obtain ⟨hpass, hrest⟩ := List.forall_mem_cons.mp hpasses
    exact cons_ok_iff.mpr ⟨v.wrapped, vs.map BitFieldOp.wrapped, (h _).mpr ⟨v, hv, rfl, hpass⟩,
      (hs _).mpr ⟨vs, hvs, rfl, hrest⟩, rfl⟩

/-- What the parser accepts, in terms of what was written. -/
theorem parseOps_ok_iff (readOnly : Bool) (overflow : BitFieldOverflow) (rest : List Bytes)
    (ops : List BitFieldOp) :
    parseOps parseBitFieldOffset refusesEnd readOnly overflow rest = .ok ops ↔
      ∃ w, parseOps writtenOffset (fun _ _ => false) readOnly overflow rest = .ok w ∧
        ops = w.map BitFieldOp.wrapped ∧ ∀ op ∈ w, op.passes := by
  fun_induction parseOps writtenOffset (fun _ _ => false) readOnly overflow rest generalizing ops
  case case1 =>
    rw [parseOps]
    constructor
    · intro h
      exact ⟨[], rfl, (Except.ok.inj h).symm, fun op hop => absurd hop List.not_mem_nil⟩
    · rintro ⟨w, hw, rfl, -⟩
      rw [← Except.ok.inj hw]
      rfl
  case case7 hover hget _ _ _ ih =>
    rw [parseOps.eq_def]
    simp only [hover, hget, if_true]
    exact ops_ok_iff (fun _ => parseGet_ok_iff) ih ops
  case case10 hover hget hset hwritable _ _ _ _ ih =>
    rw [parseOps.eq_def]
    simp only [hover, hget, hset, hwritable, if_true]
    exact ops_ok_iff (fun _ => parseWrite_ok_iff) ih ops
  all_goals
    rw [parseOps.eq_def]
    simp [*]

theorem parseBitFieldType_range {b : Bytes} {signed : Bool} {width : ℕ}
    (h : parseBitFieldType b = some (signed, width)) : 1 ≤ width ∧ width ≤ 64 := by
  unfold parseBitFieldType at h
  split at h
  · split at h
    · split_ifs at h
      obtain ⟨-, rfl⟩ := Prod.mk.inj (Option.some.inj h)
      omega
    · exact absurd h (by simp)
  · split at h
    · split_ifs at h
      obtain ⟨-, rfl⟩ := Prod.mk.inj (Option.some.inj h)
      omega
    · exact absurd h (by simp)
  · exact absurd h (by simp)

/-- A field of at least one bit at an offset that is not negative. -/
def BitFieldOp.sensible (op : BitFieldOp) : Prop := 0 ≤ op.offset ∧ 1 ≤ op.bits

theorem parseGet_sensible {type offset : Bytes} {op : BitFieldOp}
    (h : parseGet writtenOffset type offset = .ok op) : op.sensible := by
  unfold parseGet at h
  split at h
  · exact absurd h (by simp)
  · rename_i htype
    split at h
    · exact absurd h (by simp)
    · rename_i hoffset
      rw [← Except.ok.inj h]
      exact ⟨writtenOffset_nonneg hoffset, (parseBitFieldType_range htype).1⟩

theorem parseWrite_sensible {refuses : ℤ → ℕ → Bool} {word type offset value : Bytes}
    {overflow : BitFieldOverflow} {op : BitFieldOp}
    (h : parseWrite writtenOffset refuses word overflow type offset value = .ok op) :
    op.sensible := by
  unfold parseWrite at h
  split at h
  · exact absurd h (by simp)
  · rename_i htype
    split at h
    · exact absurd h (by simp)
    · rename_i hoffset
      split at h
      · exact absurd h (by simp)
      · split at h
        · exact absurd h (by simp)
        · rw [← Except.ok.inj h]
          exact ⟨writtenOffset_nonneg hoffset, (parseBitFieldType_range htype).1⟩

/-- What holds of each operation that is parsed holds of all of them. -/
theorem parseOps_forall {readOffset : Bytes → ℕ → Option ℤ} {refuses : ℤ → ℕ → Bool}
    {P : BitFieldOp → Prop}
    (hget : ∀ {type offset op}, parseGet readOffset type offset = .ok op → P op)
    (hwrite : ∀ {word overflow type offset value op},
      parseWrite readOffset refuses word overflow type offset value = .ok op → P op)
    {readOnly : Bool} {overflow : BitFieldOverflow} {rest : List Bytes} {ops : List BitFieldOp}
    (h : parseOps readOffset refuses readOnly overflow rest = .ok ops) : ∀ op ∈ ops, P op := by
  fun_induction parseOps readOffset refuses readOnly overflow rest generalizing ops
  case case1 =>
    rw [← Except.ok.inj h]
    exact fun op hop => absurd hop List.not_mem_nil
  case case7 ih =>
    obtain ⟨x, ys, hx, hys, rfl⟩ := cons_ok_iff.mp h
    exact List.forall_mem_cons.mpr ⟨hget hx, ih hys⟩
  case case10 ih =>
    obtain ⟨x, ys, hx, hys, rfl⟩ := cons_ok_iff.mp h
    exact List.forall_mem_cons.mpr ⟨hwrite hx, ih hys⟩
  case case3 ih => exact ih h
  case case4 ih => exact ih h
  case case5 ih => exact ih h
  all_goals exact absurd h (by simp)

theorem parseOps_sensible {refuses : ℤ → ℕ → Bool} {readOnly : Bool} {overflow : BitFieldOverflow}
    {rest : List Bytes} {ops : List BitFieldOp}
    (h : parseOps writtenOffset refuses readOnly overflow rest = .ok ops) :
    ∀ op ∈ ops, op.sensible :=
  parseOps_forall parseGet_sensible parseWrite_sensible h

/-- What holds of the operations accepted from `args`, run on a stored string. -/
structure Addressed (args : Args) (readOnly : Bool) (stored : Option Bytes)
    (ops : List BitFieldOp) : Prop where
  exact : writtenOps args readOnly = .ok ops
  bounded : ∀ op ∈ ops, op.writes = true → 0 ≤ op.offset ∧ op.stop ≤ 2 ^ 32
  safe : Safe (2 ^ 29) (fun _ => True) (bitField stored ops)
  past : ∀ op ∈ ops, ∀ str : Bytes, 8 * (str.length : ℤ) ≤ op.offset →
    (getBitField str op).result = .ok 0

/-- The written operations pass the 64-bit tests although one of their fields ends
where no string reaches. -/
def Overreaches (args : Args) (readOnly : Bool) : Prop :=
  ∃ ops, writtenOps args readOnly = .ok ops ∧ (∀ op ∈ ops, op.passes) ∧
    ∃ op ∈ ops, 2 ^ 63 < op.stop ∨ op.writes = true ∧ 2 ^ 32 < op.stop

theorem wrapped_eq_self {op : BitFieldOp} (h : op.sensible) (h' : op.stop ≤ 2 ^ 63) :
    op.wrapped = op := by
  obtain ⟨hnonneg, hbits⟩ := h
  unfold BitFieldOp.stop at h'
  unfold BitFieldOp.wrapped
  rw [wrap_of_range (by omega) (by omega)]

theorem addressable_of_bounds {op : BitFieldOp} (h : op.sensible) (h' : op.stop ≤ 2 ^ 63)
    (hw : op.writes = true → op.stop ≤ 2 ^ 32) : Addressable op where
  nonneg := h.1
  stop_le := h'
  bounded := by
    intro hwrites
    have hstop := hw hwrites
    unfold maxBitFieldBit
    omega

/-- Addressing is exact and safe exactly for the operand lists that do not overreach. -/
theorem bitField_addressing_iff (args : Args) (readOnly : Bool) (stored : Option Bytes) :
    (∀ ops, parseBitField args readOnly = .ok ops → Addressed args readOnly stored ops) ↔
      ¬ Overreaches args readOnly := by
  constructor
  · rintro hsafe ⟨w, hw, hpass, op, hop, hfar⟩
    have hparse : parseBitField args readOnly = .ok (w.map BitFieldOp.wrapped) :=
      (parseOps_ok_iff _ _ _ _).mpr ⟨w, hw, rfl, hpass⟩
    have haddr := hsafe _ hparse
    have hself : w.map BitFieldOp.wrapped = w := Except.ok.inj (haddr.exact.symm.trans hw)
    rw [hself] at haddr
    rcases hfar with hfar | ⟨hwrites, hfar⟩
    · have hfix : op.wrapped = op := 
        List.map_inj_left.mp (hself.trans (List.map_id w).symm) op hop
      have hrange : op.offset < 2 ^ 63 := by
        rw [← hfix]
        exact (wrap_range op.offset).2
      obtain ⟨str, v, hv⟩ := bitField_reads haddr.safe hop
      obtain ⟨e, he⟩ := getBitField_fault str (parseOps_sensible hw op hop).1 hrange hfar
      rw [hv] at he
      exact absurd he (by simp)
    · have hbounded := (haddr.bounded op hop hwrites).2
      omega
  · intro hno ops hops
    obtain ⟨w, hw, rfl, hpass⟩ := (parseOps_ok_iff _ _ _ _).mp hops
    have hsensible := parseOps_sensible hw
    have hnear : ∀ op ∈ w, op.stop ≤ 2 ^ 63 ∧ (op.writes = true → op.stop ≤ 2 ^ 32) := by
      intro op hop
      constructor
      · by_contra hfar
        exact hno ⟨w, hw, hpass, op, hop, .inl (by omega)⟩
      · intro hwrites
        by_contra hfar
        exact hno ⟨w, hw, hpass, op, hop, .inr ⟨hwrites, by omega⟩⟩
    have hself : w.map BitFieldOp.wrapped = w := by
      refine (List.map_inj_left.mpr fun op hop => ?_).trans (List.map_id w)
      exact wrapped_eq_self (hsensible op hop) (hnear op hop).1
    rw [hself]
    have haddr : ∀ op ∈ w, Addressable op := fun op hop =>
      addressable_of_bounds (hsensible op hop) (hnear op hop).1 (hnear op hop).2
    refine ⟨hw, fun op hop hwrites => ⟨(hsensible op hop).1, (hnear op hop).2 hwrites⟩,
      bitField_safe stored haddr, fun op hop str hpast => ?_⟩
    obtain ⟨-, v, hv, hval⟩ : Safe 0 _ _ := getBitField_safe str (haddr op hop).nonneg
      (haddr op hop).stop_le
    rw [hv, hval, fieldAt_past hpast]

/-- `BITFIELD k SET u8 9223372036854775807 1`. -/
def setFarField : Args :=
  [ascii "BITFIELD", ascii "k", ascii "SET", ascii "u8", ascii "9223372036854775807", ascii "1"]

/-- The end of the last byte of all wraps below the limit, and the accepted write
then indexes the string at a negative position. -/
theorem bitField_accepts_far_field :
    (∃ ops, parseBitField setFarField false = .ok ops ∧ ops.map BitFieldOp.offset = [2 ^ 63 - 1] ∧
      (bitField none ops).result = .error .index) ∧
      ¬ ∀ (args : Args) (readOnly : Bool) (stored : Option Bytes) (ops : List BitFieldOp),
        parseBitField args readOnly = .ok ops → Addressed args readOnly stored ops := by
  have hparse : parseBitField setFarField false =
      .ok [⟨.set, false, 8, 2 ^ 63 - 1, 1, .wrap⟩] := by
    have hsome : (parseBitField setFarField false).toOption =
        some [⟨.set, false, 8, 2 ^ 63 - 1, 1, .wrap⟩] := by decide +kernel
    cases h : parseBitField setFarField false with
    | error r => simp [h, Except.toOption] at hsome
    | ok ops => simpa [h, Except.toOption] using hsome
  have hfault : (bitField none [⟨.set, false, 8, 2 ^ 63 - 1, 1, .wrap⟩]).result =
      .error .index := by decide +kernel
  refine ⟨⟨_, hparse, rfl, hfault⟩, fun h => ?_⟩
  exact not_safe_of_fault hfault (h setFarField false none _ hparse).safe

end ShardKV.Commands
