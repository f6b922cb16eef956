import ShardKV.Bytes.Checked
import ShardKV.Bytes.Framing
import ShardKV.Bytes.Literal
import ShardKV.Resp.Roundtrip

/-! The snapshot file: a header line, three counters, a body of commands in their wire
form, and a checksum of the body. The counters are what lets a file say that it is
incomplete. Whatever the checksum function is, a file that reads is as long as its own
counters tell, so no file reads after it was cut short. -/

namespace ShardKV.Snapshot

open Checked Decimal Framing Resp

/-- An instant in nanoseconds from the epoch. -/
abbrev Time := ℤ

/-- `Time.UnixMilli`: whole milliseconds, in a signed 64-bit word. -/
def unixMilli (t : Time) : ℤ := wrap (t / 1000000)

/-- `time.UnixMilli`. -/
def ofUnixMilli (ms : ℤ) : Time := ms * 1000000

def magic : Bytes := ascii "SHARDKV-SNAPSHOT v1"

/-- The first line of every snapshot, without its newline. -/
def headerText : Bytes :=
  ascii "SHARDKV-SNAPSHOT v1 -- shardkv native format. NOT an RDB file: Redis cannot read this."

def maxHeaderLine : ℕ := 256
def fixedFields : ℕ := 3 * 8
def trailerLen : ℕ := 8

/-- Why a file was refused, with what the message names. The first four are files of
another format, the others damaged ones. -/
inductive FileError
  | noHeader (err : ReadError)
  | longHeader
  | redisFile
  | otherHeader (line : Bytes)
  | shortHeader (err : ReadError)
  | declared (bodyLen avail : ℕ)
  | shortBody (missing bodyLen : ℕ) (err : ReadError)
  | noChecksum (err : ReadError)
  | checksum (got want : ℕ)
  | command (i : ℕ) (err : ReadError)
  | count (got want : ℕ)
  deriving DecidableEq

section Encoder

variable (crc : Bytes → UInt64)

def writeTo (cmds : List Args) (savedAt : Time) : Bytes :=
  headerText ++ 10 ::
    (bigEndian 8 (unixMilli savedAt % 2 ^ 64).toNat ++ bigEndian 8 cmds.length ++
      bigEndian 8 (cmds.map commandSize).sum) ++
    (cmds.map writeCommand).flatten ++ bigEndian 8 (crc (cmds.map writeCommand).flatten).toNat

/-- `Encode`: nothing when the bytes do not fit a slice. -/
def encode (cmds : List Args) (savedAt : Time) : Option Bytes :=
  if (writeTo crc cmds savedAt).length ≤ maxInt then some (writeTo crc cmds savedAt) else none

end Encoder

section Decoder

variable (crc : Bytes → UInt64)

/-- The error of a read that found fewer bytes than it asked for. -/
def shortRead (rest : Bytes) : ReadError := if rest = [] then .eof else .unexpectedEOF

/-- `readHeaderLine`, with the room left for the line. -/
def readHeaderLine : ℕ → Bytes → Bytes → Except FileError (Bytes × Bytes)
  | 0, _, _ => .error .longHeader
  | _ + 1, _, [] => .error (.noHeader .eof)
  | room + 1, line, c :: src =>
    if c = 10 then .ok (line, src) else readHeaderLine room (line ++ [c]) src

/-- What precedes the body. -/
structure Header where
  line : Bytes
  savedMs : ℕ
  wantCmds : ℕ
  bodyLen : ℕ

/-- The header whose three counters are `fields`. -/
def Header.ofFields (line fields : Bytes) : Header where
  line := line
  savedMs := ofBigEndian (fields.take 8)
  wantCmds := ofBigEndian ((fields.drop 8).take 8)
  bodyLen := ofBigEndian (fields.drop 16)

def readHeader (src : Bytes) : Except FileError (Header × Bytes) :=
  match readHeaderLine maxHeaderLine [] src with
  | .error err => .error err
  | .ok (line, rest) =>
    if magic.isPrefixOf line then
      match takeExact fixedFields rest with
      | none => .error (.shortHeader (shortRead rest))
      | some (fields, rest) => .ok (.ofFields line fields, rest)
    else if (ascii "REDIS").isPrefixOf line then .error .redisFile
    else .error (.otherHeader (line.take 40))

/-- The bytes that can be body, given how many there are in all. -/
def Header.avail (h : Header) (limit : ℕ) : ℕ := limit - (h.line.length + 1 + fixedFields) - trailerLen

/-- The body, its length and its checksum verified. -/
def readBody (h : Header) (limit : Option ℕ) (rest : Bytes) : Except FileError Bytes :=
  if limit.any (fun limit => h.avail limit < h.bodyLen) then
    .error (.declared h.bodyLen (h.avail (limit.getD 0)))
  else
    match takeExact h.bodyLen rest with
    | none => .error (.shortBody (h.bodyLen - rest.length) h.bodyLen (shortRead rest))
    | some (body, rest) =>
      match takeExact trailerLen rest with
      | none => .error (.noChecksum (shortRead rest))
      | some (trailer, _) =>
        if (crc body).toNat = ofBigEndian trailer then .ok body
        else .error (.checksum (crc body).toNat (ofBigEndian trailer))

/-- The commands of a body, read until it ends. -/
def parseCommands : ℕ → Reader → List Args → Except FileError (List Args)
  | 0, _, cmds => .ok cmds
  | fuel + 1, r, cmds =>
    match r.readCommand with
    | (.error .eof, _) => .ok cmds
    | (.error err, _) => .error (.command (cmds.length + 1) err)
    | (.ok args, r') => parseCommands fuel r' (cmds ++ [args])

/-- `parseBody`. Every command takes a byte of the body. -/
def parseBody (body : Bytes) (want : ℕ) : Except FileError (List Args) :=
  match parseCommands (body.length + 1) (newReader [body]) [] with
  | .error err => .error err
  | .ok cmds => if cmds.length = want then .ok cmds else .error (.count cmds.length want)

def readFrom (src : Bytes) (limit : Option ℕ) : Except FileError (List Args × Time) :=
  match readHeader src with
  | .error err => .error err
  | .ok (h, rest) =>
    match readBody crc h limit rest with
    | .error err => .error err
    | .ok body =>
      match parseBody body h.wantCmds with
      | .error err => .error err
      | .ok cmds => .ok (cmds, ofUnixMilli (wrap h.savedMs))

def decode (b : Bytes) : Except FileError (List Args × Time) := readFrom crc b (some b.length)

end Decoder

section Framing

variable {crc : Bytes → UInt64}

theorem readHeaderLine_ok {room : ℕ} {acc src line rest : Bytes}
    (h : readHeaderLine room acc src = .ok (line, rest)) :
    ∃ l, line = acc ++ l ∧ src = l ++ 10 :: rest ∧ (10 : UInt8) ∉ l ∧ l.length < room := by
  induction room generalizing acc src with
  | zero => cases h
  | succ room ih =>
    cases src with
    | nil => cases h
    | cons c src =>
      rw [readHeaderLine] at h
      split_ifs at h with hc
      · obtain ⟨rfl, rfl⟩ := Prod.mk.inj (Except.ok.inj h)
        exact ⟨[], by simp, by rw [hc]; rfl, by simp, by simp⟩
      · obtain ⟨l, rfl, rfl, hl, hlen⟩ := ih h
        refine ⟨c :: l, by simp, rfl, ?_, by simpa using hlen⟩
        rw [List.mem_cons, not_or]
        exact ⟨fun he => hc he.symm, hl⟩

theorem readHeaderLine_line {room : ℕ} {l : Bytes} (hl : (10 : UInt8) ∉ l) (hlen : l.length < room)
    (acc rest : Bytes) : readHeaderLine room acc (l ++ 10 :: rest) = .ok (acc ++ l, rest) := by
  induction l generalizing room acc with
  | nil =>
    obtain ⟨room, rfl⟩ := Nat.exists_eq_add_one_of_ne_zero (Nat.ne_of_gt hlen)
    simp [readHeaderLine]
  | cons c l ih =>
    obtain ⟨room, rfl⟩ := Nat.exists_eq_add_one_of_ne_zero (Nat.ne_of_gt (Nat.zero_lt_of_lt hlen))
    rw [List.mem_cons, not_or] at hl
    rw [List.cons_append, readHeaderLine, if_neg (Ne.symm hl.1),
      ih hl.2 (by simpa using hlen), List.append_assoc, List.singleton_append]

/-- A byte string that begins with a whole header, body and checksum. -/
structure Framed (crc : Bytes → UInt64) (src line fields body : Bytes) : Prop where
  line_length : line.length < maxHeaderLine
  no_newline : (10 : UInt8) ∉ line
  named : magic <+: line
  fields_length : fields.length = fixedFields
  body_length : body.length = (Header.ofFields line fields).bodyLen
  framed : ∃ trailer rest, src = line ++ 10 :: fields ++ body ++ trailer ++ rest ∧
    trailer.length = trailerLen ∧ (crc body).toNat = ofBigEndian trailer

theorem readHeader_ok {src rest : Bytes} {h : Header} (hr : readHeader src = .ok (h, rest)) :
    ∃ line fields, h = .ofFields line fields ∧ src = line ++ 10 :: fields ++ rest ∧
      line.length < maxHeaderLine ∧ (10 : UInt8) ∉ line ∧ magic <+: line ∧
      fields.length = fixedFields := by
  unfold readHeader at hr
  split at hr
  · cases hr
  · rename_i line rest' hline
    obtain ⟨l, rfl, rfl, hl, hlen⟩ := readHeaderLine_ok hline
    split_ifs at hr with hmagic
    split at hr
    · cases hr
    · rename_i fields rest'' hfields
      obtain ⟨rfl, rfl⟩ := Prod.mk.inj (Except.ok.inj hr)
      obtain ⟨rfl, hflen⟩ := takeExact_eq_some hfields
      exact ⟨line, fields, rfl, by simp, hlen, hl, List.isPrefixOf_iff_prefix.mp hmagic, hflen⟩

theorem readHeader_line {line fields : Bytes} (hlen : line.length < maxHeaderLine)
    (hl : (10 : UInt8) ∉ line) (hmagic : magic <+: line) (hf : fields.length = fixedFields)
    (rest : Bytes) :
    readHeader (line ++ 10 :: fields ++ rest) = .ok (.ofFields line fields, rest) := by
  rw [readHeader, List.append_assoc, List.cons_append, readHeaderLine_line hl hlen]
  dsimp only
  rw [List.nil_append, if_pos (List.isPrefixOf_iff_prefix.mpr hmagic), ← hf, takeExact_append]

/-- What reads up to its checksum is framed. -/
theorem framed_of_read {src rest body : Bytes} {h : Header} {limit : Option ℕ}
    (hh : readHeader src = .ok (h, rest)) (hb : readBody crc h limit rest = .ok body) :
    ∃ line fields, h = .ofFields line fields ∧ Framed crc src line fields body := by
  obtain ⟨line, fields, rfl, rfl, hlen, hl, hmagic, hf⟩ := readHeader_ok hh
  refine ⟨line, fields, rfl, hlen, hl, hmagic, hf, ?_, ?_⟩ <;>
  · unfold readBody at hb
    split_ifs at hb with hlimit
    split at hb
    · cases hb
    · rename_i body' rest' hbody
      obtain ⟨rfl, hblen⟩ := takeExact_eq_some hbody
      split at hb
      · cases hb
      · rename_i trailer rest'' htrailer
        obtain ⟨rfl, htlen⟩ := takeExact_eq_some htrailer
        split_ifs at hb with hcrc
        cases hb
        first
          | exact hblen
          | exact ⟨trailer, rest'', by simp, htlen, hcrc⟩

/-- A framed byte string reads up to its checksum, and its length is no obstacle. -/
theorem Framed.read {src line fields body : Bytes} (hs : Framed crc src line fields body) :
    ∃ rest, readHeader src = .ok (.ofFields line fields, rest) ∧
      readBody crc (.ofFields line fields) (some src.length) rest = .ok body := by
  obtain ⟨hlen, hl, hmagic, hf, hb, trailer, rest, rfl, ht, hcrc⟩ := hs
  have happ : line ++ 10 :: fields ++ body ++ trailer ++ rest =
      line ++ 10 :: fields ++ (body ++ (trailer ++ rest)) := by simp
  refine ⟨body ++ (trailer ++ rest), ?_, ?_⟩
  · rw [happ]
    exact readHeader_line hlen hl hmagic hf _
  · have hfits : ¬ (Header.ofFields line fields).avail
        (line ++ 10 :: fields ++ body ++ trailer ++ rest).length < body.length := by
      simp only [Header.avail, Header.ofFields, List.length_append, List.length_cons, hf, ht]
      omega
    rw [readBody, ← hb]
    simp only [Option.any_some, decide_eq_true_eq]
    rw [if_neg hfits, takeExact_append]
    dsimp only
    rw [← ht, takeExact_append]
    exact if_pos hcrc

/-- Both the line and the counters of a framed byte string are fixed by its front. -/
theorem Framed.front_unique {p q line line' fields fields' body body' : Bytes} {crc' : Bytes → UInt64}
    (hp : Framed crc p line fields body) (hq : Framed crc' q line' fields' body') (h : p <+: q) :
    line = line' ∧ fields = fields' := by
  obtain ⟨d, rfl⟩ := h
  obtain ⟨trailer, rest, hsrc, -⟩ := hp.framed
  obtain ⟨trailer', rest', hsrc', -⟩ := hq.framed
  have hlines : splitLine (line ++ 10 :: (fields ++ (body ++ trailer ++ rest ++ d))) =
      splitLine (line' ++ 10 :: (fields' ++ (body' ++ trailer' ++ rest'))) := by
    congr 1
    rw [hsrc] at hsrc'
    simpa using hsrc'
  rw [splitLine_of_not_mem hp.no_newline, splitLine_of_not_mem hq.no_newline] at hlines
  obtain ⟨hline, hrest⟩ := Prod.mk.inj (Option.some.inj hlines)
  refine ⟨List.append_cancel_right hline, ?_⟩
  exact (List.append_inj hrest (hp.fields_length.trans hq.fields_length.symm)).1

/-- A framed byte string is no shorter than its counters tell. -/
theorem Framed.length_le {src line fields body : Bytes} (hs : Framed crc src line fields body) :
    line.length + 1 + fixedFields + (Header.ofFields line fields).bodyLen + trailerLen ≤
      src.length := by
  obtain ⟨trailer, rest, rfl, ht, -⟩ := hs.framed
  simp only [List.length_append, List.length_cons, hs.fields_length, hs.body_length, ht]
  omega

end Framing

/-- A reader in front of the wire forms of commands reads them all. -/
theorem parseCommands_writeCommand {cmds : List Args} (h : ∀ args ∈ cmds, WellFormed args)
    {fuel : ℕ} {r : Reader} (hr : r.r.rest = (cmds.map writeCommand).flatten)
    (hf : cmds.length < fuel) (acc : List Args) :
    parseCommands fuel r acc = .ok (acc ++ cmds) := by
  induction cmds generalizing fuel r acc with
  | nil =>
    obtain ⟨fuel, rfl⟩ := Nat.exists_eq_add_one_of_ne_zero (Nat.ne_of_gt hf)
    have hread := r.readCommand_view
    rw [Reader.view, hr, List.map_nil, List.flatten_nil, parse, parseFuel_nil] at hread
    rcases hc : r.readCommand with ⟨res, r'⟩
    rw [hc] at hread
    obtain rfl : Except.error ReadError.eof = res := congrArg Prod.fst hread
    rw [parseCommands, hc, List.append_nil]
  | cons args cmds ih =>
    obtain ⟨fuel, rfl⟩ := Nat.exists_eq_add_one_of_ne_zero (Nat.ne_of_gt (Nat.zero_lt_of_lt hf))
    obtain ⟨hargs, hcmds⟩ := List.forall_mem_cons.mp h
    have hread := r.readCommand_view
    rw [Reader.view, hr, List.map_cons, List.flatten_cons, parse_writeCommand hargs] at hread
    rcases hc : r.readCommand with ⟨res, r'⟩
    rw [hc] at hread
    obtain rfl : Except.ok args = res := congrArg Prod.fst hread
    have hrest : (cmds.map writeCommand).flatten = r'.r.rest := congrArg (fun p => p.2.rest) hread
    rw [parseCommands, hc]
    dsimp only
    rw [ih hcmds hrest.symm (by simpa using hf), List.append_assoc, List.singleton_append]

theorem sum_commandSize (cmds : List Args) :
    (cmds.map commandSize).sum = (cmds.map writeCommand).flatten.length := by
  rw [List.length_flatten, List.map_map]
  congr 2
  funext args
  exact (writeCommand_length args).symm

theorem length_le_flatten (cmds : List Args) :
    cmds.length ≤ (cmds.map writeCommand).flatten.length := by
  rw [← sum_commandSize]
  induction cmds with
  | nil => simp
  | cons args cmds ih =>
    have := commandSize_pos args
    simp only [List.length_cons, List.map_cons, List.sum_cons]
    omega

theorem parseBody_writeCommand {cmds : List Args} (h : ∀ args ∈ cmds, WellFormed args) :
    parseBody (cmds.map writeCommand).flatten cmds.length = .ok cmds := by
  have hlen := length_le_flatten cmds
  rw [parseBody, parseCommands_writeCommand h (by simp [newReader, Buffered.rest]) (by omega)]
  simp

variable {crc : Bytes → UInt64}

/-- The counters of a written file. -/
def writtenFields (cmds : List Args) (savedAt : Time) : Bytes :=
  bigEndian 8 (unixMilli savedAt % 2 ^ 64).toNat ++ bigEndian 8 cmds.length ++
    bigEndian 8 (cmds.map commandSize).sum

theorem ofFields_append {a b : Bytes} (ha : a.length = 8) (hb : b.length = 8) (line c : Bytes) :
    Header.ofFields line (a ++ b ++ c) = ⟨line, ofBigEndian a, ofBigEndian b, ofBigEndian c⟩ := by
  have hab : (a ++ b).length = 16 := by rw [List.length_append, ha, hb]
  rw [Header.ofFields, ← hab, List.drop_left, List.append_assoc, ← ha, List.take_left, List.drop_left,
    ha, ← hb, List.take_left]

theorem ofBigEndian_word {n : ℕ} (h : n < 2 ^ 64) : ofBigEndian (bigEndian 8 n) = n := by
  rw [ofBigEndian_bigEndian]
  exact Nat.mod_eq_of_lt h

theorem ofFields_writtenFields {cmds : List Args} (hlen : (cmds.map commandSize).sum < 2 ^ 64)
    (line : Bytes) (savedAt : Time) :
    Header.ofFields line (writtenFields cmds savedAt) =
      ⟨line, (unixMilli savedAt % 2 ^ 64).toNat, cmds.length, (cmds.map commandSize).sum⟩ := by
  have hcount : cmds.length < 2 ^ 64 := by
    have := length_le_flatten cmds
    rw [← sum_commandSize] at this
    omega
  have hms : (unixMilli savedAt % 2 ^ 64).toNat < 2 ^ 64 := by omega
  rw [writtenFields, ofFields_append (bigEndian_length _ _) (bigEndian_length _ _),
    ofBigEndian_word hms, ofBigEndian_word hcount, ofBigEndian_word hlen]

theorem wrap_mod (z : ℤ) : wrap ((wrap z % 2 ^ 64).toNat : ℤ) = wrap z := by
  unfold wrap
  omega

/-- The encoder's own length counter fits its field. -/
theorem sum_lt_of_encode {cmds : List Args} {savedAt : Time} {file : Bytes}
    (h : encode crc cmds savedAt = some file) :
    file = writeTo crc cmds savedAt ∧ (cmds.map commandSize).sum < 2 ^ 64 := by
  unfold encode at h
  split_ifs at h with hlen
  refine ⟨(Option.some.inj h).symm, ?_⟩
  rw [sum_commandSize]
  have hbody : (cmds.map writeCommand).flatten.length ≤ (writeTo crc cmds savedAt).length := by
    simp only [writeTo, List.length_append, List.length_cons]
    omega
  exact lt_of_le_of_lt (hbody.trans hlen) (by decide)

theorem headerText_spec : headerText.length = 86 ∧ (10 : UInt8) ∉ headerText ∧ magic <+: headerText := by
  rw [headerText, ascii_eq_utf8]
  · decide +kernel
  · decide +kernel

theorem writeTo_length (cmds : List Args) (savedAt : Time) : (writeTo crc cmds savedAt).length =
    headerText.length + 1 + fixedFields + (cmds.map commandSize).sum + trailerLen := by
  simp [writeTo, sum_commandSize, fixedFields, trailerLen]
  omega

theorem framed_writeTo {cmds : List Args} (hlen : (cmds.map commandSize).sum < 2 ^ 64)
    (savedAt : Time) :
    Framed crc (writeTo crc cmds savedAt) headerText (writtenFields cmds savedAt)
      (cmds.map writeCommand).flatten where
  line_length := headerText_spec.1 ▸ by decide
  no_newline := headerText_spec.2.1
  named := headerText_spec.2.2
  fields_length := by simp [writtenFields, fixedFields]
  body_length := by rw [ofFields_writtenFields hlen, sum_commandSize]
  framed := by
    refine ⟨bigEndian 8 (crc (cmds.map writeCommand).flatten).toNat, [], ?_, bigEndian_length _ _, ?_⟩
    · simp [writeTo, writtenFields]
    · rw [ofBigEndian_word (UInt64.toNat_lt _)]

theorem decode_writeTo {cmds : List Args} (h : ∀ args ∈ cmds, WellFormed args)
    (hlen : (cmds.map commandSize).sum < 2 ^ 64) (savedAt : Time) :
    decode crc (writeTo crc cmds savedAt) = .ok (cmds, ofUnixMilli (unixMilli savedAt)) := by
  obtain ⟨rest, hheader, hbody⟩ := (@framed_writeTo crc cmds hlen savedAt).read
  rw [decode, readFrom, hheader]
  dsimp only
  rw [hbody]
  dsimp only
  rw [ofFields_writtenFields hlen, parseBody_writeCommand h]
  dsimp only
  rw [unixMilli, wrap_mod]

/-- A file cut short anywhere is refused. -/
theorem decode_prefix {cmds : List Args} (hlen : (cmds.map commandSize).sum < 2 ^ 64)
    (savedAt : Time) {p : Bytes} (hp : p <+: writeTo crc cmds savedAt)
    (hne : p ≠ writeTo crc cmds savedAt) : ∃ err, decode crc p = .error err := by
  cases hd : decode crc p with
  | error err => exact ⟨err, rfl⟩
  | ok r =>
    exfalso
    unfold decode readFrom at hd
    split at hd
    · cases hd
    · rename_i h rest hheader
      split at hd
      · cases hd
      · rename_i body hbody
        obtain ⟨line, fields, rfl, hframed⟩ := framed_of_read hheader hbody
        have hfile := @framed_writeTo crc cmds hlen savedAt
        obtain ⟨rfl, rfl⟩ := hframed.front_unique hfile hp
        have hle := hframed.length_le
        have hfull := @writeTo_length crc cmds savedAt
        rw [ofFields_writtenFields hlen] at hle
        dsimp only at hle
        exact hne (hp.eq_of_length_le (by omega))

/-- The bytes the encoder writes decode to the commands and the time it was given, to
the millisecond, and no proper prefix of them decodes. -/
theorem snapshot_roundtrip {cmds : List Args} (h : ∀ args ∈ cmds, WellFormed args) (savedAt : Time)
    {file : Bytes} (hfile : encode crc cmds savedAt = some file) :
    decode crc file = .ok (cmds, ofUnixMilli (unixMilli savedAt)) ∧
      (-2 ^ 63 ≤ savedAt / 1000000 → savedAt / 1000000 < 2 ^ 63 →
        ofUnixMilli (unixMilli savedAt) ≤ savedAt ∧
          savedAt < ofUnixMilli (unixMilli savedAt) + 1000000) ∧
      ∀ p, p <+: file → p ≠ file → ∃ err, decode crc p = .error err := by
  obtain ⟨rfl, hlen⟩ := sum_lt_of_encode hfile
  refine ⟨decode_writeTo h hlen savedAt, fun hlo hhi => ?_, fun p => decode_prefix hlen savedAt⟩
  rw [unixMilli, wrap_of_range hlo hhi, ofUnixMilli]
  refine ⟨Int.ediv_mul_le savedAt (by norm_num), ?_⟩
  have := Int.lt_ediv_add_one_mul_self savedAt (show (0 : ℤ) < 1000000 by norm_num)
  linarith

/-- One command, saved half a millisecond after the epoch. -/
theorem oneCommand_roundtrip :
    decode (fun _ => 0) (writeTo (fun _ => 0) [[ascii "PING"]] 500000) =
        .ok ([[ascii "PING"]], ofUnixMilli (unixMilli 500000)) ∧
      (-2 ^ 63 ≤ (500000 : Time) / 1000000 → (500000 : Time) / 1000000 < 2 ^ 63 →
        ofUnixMilli (unixMilli 500000) ≤ 500000 ∧
          (500000 : Time) < ofUnixMilli (unixMilli 500000) + 1000000) ∧
      ∀ p, p <+: writeTo (fun _ => 0) [[ascii "PING"]] 500000 →
        p ≠ writeTo (fun _ => 0) [[ascii "PING"]] 500000 → ∃ err, decode (fun _ => 0) p = .error err :=
  snapshot_roundtrip (by decide +kernel) 500000
    (if_pos (by rw [writeTo_length, headerText_spec.1]; decide +kernel))

end ShardKV.Snapshot
