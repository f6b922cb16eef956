import ShardKV.Bytes.Checked
import ShardKV.Bytes.Fields
import ShardKV.Resp.Limits
import ShardKV.Server.Operand

/-! The offset of a replica. The master counts the bytes of the commands that it ships to
all replicas. A replica counts what it reads from its own connection, where probes stand
between those commands, and moves the base of its count past each probe. So the two agree
after every command, whichever way the connection was opened and wherever it breaks. -/

namespace ShardKV.Replication

open Checked Decimal Resp Server

def keepalive : Args := [ascii "PING"]

def getack : Args := [ascii "REPLCONF", ascii "GETACK", ascii "*"]

def endSnapshot : Args := [ascii "REPLCONF", ascii "ENDSNAPSHOT"]

def isKeepalive : Args → Bool
  | [name] => equalFold name "PING"
  | _ => false

def isGetAck : Args → Bool
  | name :: option :: _ => equalFold name "REPLCONF" && equalFold option "GETACK"
  | _ => false

def isEndSnapshot : Args → Bool
  | [name, option] => equalFold name "REPLCONF" && equalFold option "ENDSNAPSHOT"
  | _ => false

/-- A command of the stream. It ships writes, the markers of transactions, SELECT and
PUBLISH, never a PING or a REPLCONF. -/
structure Shipped where
  name : Bytes
  operands : List Bytes
  named : equalFold name "PING" = false ∧ equalFold name "REPLCONF" = false

def Shipped.args (c : Shipped) : Args := c.name :: c.operands

/-- What a feed writes to its replica between two commands of the stream. -/
inductive Probe
  | ping
  | getack
  deriving DecidableEq

def Probe.args : Probe → Args
  | ping => keepalive
  | getack => Replication.getack

/-- What a feed carries. -/
inductive Sent
  | command (c : Shipped)
  | probe (p : Probe)

def Sent.args : Sent → Args
  | command c => c.args
  | probe p => p.args

def commands (frames : List Sent) : List Shipped :=
  frames.filterMap fun
    | .command c => some c
    | .probe _ => none

/-- A feed of commands, with probes where the schedule has them. -/
def feedOf : List Shipped → List (Option Probe) → List Sent
  | _, [] => []
  | cmds, some p :: schedule => .probe p :: feedOf cmds schedule
  | [], none :: schedule => feedOf [] schedule
  | c :: cmds, none :: schedule => .command c :: feedOf cmds schedule

theorem Sent.args_ne_nil (f : Sent) : f.args ≠ [] := by
  rcases f with c | p | p <;> exact List.cons_ne_nil _ _

theorem Sent.probed (p : Probe) :
    (isKeepalive (Sent.probe p).args || isGetAck (Sent.probe p).args) = true := by
  cases p <;> decide

theorem Sent.inBand (c : Shipped) :
    (isKeepalive (Sent.command c).args || isGetAck (Sent.command c).args) = false := by
  obtain ⟨name, operands, hping, hreplconf⟩ := c
  rcases operands with _ | ⟨option, rest⟩
  · simp [Sent.args, Shipped.args, isKeepalive, isGetAck, hping]
  · simp [Sent.args, Shipped.args, isKeepalive, isGetAck, hreplconf]

/-- The commands of a feed are those of the stream, in order. -/
theorem commands_take (cmds : List Shipped) (schedule : List (Option Probe)) (k : ℕ) :
    commands ((feedOf cmds schedule).take k) =
      cmds.take (commands ((feedOf cmds schedule).take k)).length := by
  induction schedule generalizing cmds k with
  | nil => cases cmds <;> simp [feedOf, commands]
  | cons slot schedule ih =>
    cases k with
    | zero => simp [commands]
    | succ k =>
      rcases slot with _ | p
      · rcases cmds with _ | ⟨c, cmds⟩
        · exact ih [] (k + 1)
        · simpa [feedOf, commands] using ih cmds k
      · simpa [feedOf, commands] using ih cmds k

/-- `replOffset` after some commands were shipped. -/
def replOffset (cmds : List Shipped) : ℤ :=
  cmds.foldl (fun offset c => wrap (offset + (encodeCommand c.args).length)) 0

theorem replOffset_concat (cmds : List Shipped) (c : Shipped) :
    replOffset (cmds ++ [c]) = wrap (replOffset cmds + (encodeCommand c.args).length) := by
  rw [replOffset, List.foldl_append]
  rfl

theorem replOffset_range (cmds : List Shipped) :
    minInt64 ≤ replOffset cmds ∧ replOffset cmds ≤ maxInt64 := by
  rcases List.eq_nil_or_concat cmds with rfl | ⟨cmds, c, rfl⟩
  · exact ⟨by decide, by decide⟩
  · rw [List.concat_eq_append, replOffset_concat]
    have := wrap_range (replOffset cmds + (encodeCommand c.args).length)
    simp only [minInt64, maxInt64]
    omega

/-- What the master writes before the feed: to continue, or a full resync with its id, its
offset and a snapshot. -/
def answer (offset : ℤ) : Option (Bytes × List Args) → Bytes
  | none => ascii "+CONTINUE" ++ crlf
  | some (id, snapshot) => ascii "+FULLRESYNC " ++ id ++ [32] ++ formatInt offset ++ crlf ++
      (snapshot ++ [endSnapshot]).flatMap encodeCommand

def readStatus (r : Reader) : Option Bytes × Reader :=
  match r.readLine with
  | (.ok (c :: line), r) => (if c = 43 then some line else none, r)
  | (_, r) => (none, r)

/-- The commands of a snapshot, up to the one that ends it. -/
def readSnapshot : ℕ → Reader → Option Reader
  | 0, _ => none
  | fuel + 1, r =>
    match r.readCommand with
    | (.error _, _) => none
    | (.ok args, r) => if isEndSnapshot args then some r else readSnapshot fuel r

/-- How a handshake ends: the offset that the live stream starts at, the history that was
adopted, if any, and the connection. -/
structure Opened where
  offset : ℤ
  adopted : Option (Bytes × ℤ)
  reader : Reader

/-- The answer to PSYNC in `handshake`, for a replica that asked to continue from an offset.
A command takes a byte at least, so the snapshot ends before the budget does. -/
def handshake (r : Reader) (wanted : ℤ) : Option Opened :=
  match readStatus r with
  | (none, _) => none
  | (some status, r) =>
    match fields status with
    | [] => none
    | word :: rest =>
      if equalFold word "CONTINUE" then some ⟨wanted, none, r⟩
      else
        match rest with
        | [id, start] =>
          if equalFold word "FULLRESYNC" then
            match parseInt64 start with
            | none => none
            | some start =>
              (readSnapshot (r.r.rest.length + 1) r).map fun r => ⟨start, some (id, start), r⟩
          else none
        | _ => none

/-- A link in the loop of `runReplicationLink`. It has read so many frames, and sent
acknowledgements, each noted with the frames read by then. -/
structure Link where
  reader : Reader
  offset : ℤ
  base : ℤ
  slaveOffset : ℤ
  read : ℕ
  acked : List (ℕ × ℤ)

/-- The offset that a link has come to. -/
def Link.processed (l : Link) : ℤ := wrap (l.offset + l.reader.n - l.base)

/-- The link once the handshake is done. A full resync records its offset, and a replica that
continues goes on from the one it has. -/
def Link.start (o : Opened) : Link := ⟨o.reader, o.offset, o.reader.n, o.offset, 0, []⟩

def Link.sendAck (l : Link) : Link := { l with acked := l.acked ++ [(l.read, l.processed)] }

/-- One command of the loop, after which an acknowledgement may be due. -/
def Link.step (l : Link) (due : Bool) : Option Link :=
  match l.reader.readCommand with
  | (.error _, _) => none
  | (.ok args, r) =>
    if isKeepalive args || isGetAck args then
      some (Link.sendAck { l with
        reader := r
        base := wrap (l.base + ((r.n : ℤ) - l.reader.n))
        read := l.read + 1 })
    else
      let l := { l with reader := r, read := l.read + 1 }
      let l := { l with slaveOffset := l.processed }
      some (if due then l.sendAck else l)

/-- The loop, up to an error or for so many commands. -/
def Link.run : List Bool → Link → Link
  | [], l => l
  | due :: rest, l =>
    match l.step due with
    | none => l
    | some l => Link.run rest l

/-- The next command of a connection, of which some bytes have come in. -/
theorem readCommand_arrived {args : Args} (hne : args ≠ []) {r : Reader} {more : Bytes}
    (h : r.r.rest <+: encodeCommand args ++ more) :
    (∃ r', r.readCommand = (.ok args, r') ∧ r'.r.rest <+: more ∧
      r'.n = r.n + (encodeCommand args).length) ∨
    ∃ err r', r.readCommand = (.error err, r') := by
  rw [encodeCommand_eq] at h ⊢
  have hview := r.readCommand_view
  rcases hr : r.readCommand with ⟨res, r'⟩
  rw [hr] at hview
  rcases parse_arrived hne h r.n with ⟨rest, -, hrest, hparse⟩ | ⟨err, s', hparse⟩
  · have heq := hview.symm.trans hparse
    have hres : res = .ok args := congrArg Prod.fst heq
    have hleft : r'.r.rest = rest := congrArg (fun p => p.2.rest) heq
    have hn : r'.n = r.n + commandSize args := congrArg (fun p => p.2.n) heq
    exact .inl ⟨r', by rw [hres], hleft ▸ hrest, by rw [hn, writeCommand_length]⟩
  · have hres : res = .error err := congrArg Prod.fst (hview.symm.trans hparse)
    exact .inr ⟨err, r', by rw [hres]⟩

/-- Once a snapshot is read, the live stream is next. -/
theorem readSnapshot_rest {snapshot : List Args}
    (h : ∀ args ∈ snapshot, args ≠ [] ∧ isEndSnapshot args = false) {fuel : ℕ} {r r' : Reader}
    {live : Bytes} (hr : r.r.rest <+: (snapshot ++ [endSnapshot]).flatMap encodeCommand ++ live)
    (hread : readSnapshot fuel r = some r') : r'.r.rest <+: live := by
  induction snapshot generalizing fuel r with
  | nil =>
    cases fuel with
    | zero => cases hread
    | succ fuel =>
      rw [List.nil_append, List.flatMap_singleton] at hr
      rcases readCommand_arrived (List.cons_ne_nil _ _) hr with ⟨r₁, hcmd, hrest, -⟩ | ⟨err, r₁, hcmd⟩
      · rw [readSnapshot, hcmd] at hread
        dsimp only at hread
        rw [if_pos (by decide)] at hread
        exact Option.some.inj hread ▸ hrest
      · rw [readSnapshot, hcmd] at hread
        cases hread
  | cons args snapshot ih =>
    obtain ⟨⟨hne, hend⟩, hsnapshot⟩ := List.forall_mem_cons.1 h
    cases fuel with
    | zero => cases hread
    | succ fuel =>
      rw [List.cons_append, List.flatMap_cons, List.append_assoc] at hr
      rcases readCommand_arrived hne hr with ⟨r₁, hcmd, hrest, -⟩ | ⟨err, r₁, hcmd⟩
      · rw [readSnapshot, hcmd] at hread
        dsimp only at hread
        rw [if_neg (by simp [hend])] at hread
        exact ih hsnapshot hrest hread
      · rw [readSnapshot, hcmd] at hread
        cases hread

theorem trimCRLF_line {line : Bytes} (h : ∀ b ∈ line, isCRLF b = false) :
    trimCRLF (line ++ crlf) = line := by
  rw [trimCRLF, crlf, show ([13, 10] : Bytes) = [13] ++ [10] from rfl, ← List.append_assoc,
    List.rdropWhile_concat_pos _ _ _ (by decide), List.rdropWhile_concat_pos _ _ _ (by decide),
    List.rdropWhile_eq_self_iff]
  intro hne
  rw [h _ (List.getLast_mem hne)]
  exact Bool.false_ne_true

/-- A status line is read once all of it is there. -/
theorem readStatus_arrived {line : Bytes} (hline : ∀ b ∈ line, isCRLF b = false) {r : Reader}
    {more : Bytes} (h : r.r.rest <+: (43 :: line) ++ crlf ++ more) :
    (∃ r', readStatus r = (some line, r') ∧ r'.r.rest <+: more) ∨ ∃ r', readStatus r = (none, r') := by
  have hview : ByteStream.readLine r.view = Prod.map id Reader.view r.readLine :=
    Reader.input_hom.readLine r
  rcases hr : r.readLine with ⟨res, r'⟩
  rw [hr] at hview
  unfold ByteStream.readLine at hview
  cases hsplit : splitLine r.view.rest with
  | none =>
    rw [hsplit] at hview
    obtain rfl : res = .error .eof := (congrArg Prod.fst hview).symm
    exact .inr ⟨r', by rw [readStatus, hr]⟩
  | some p =>
    obtain ⟨l, rest⟩ := p
    rw [hsplit] at hview
    obtain rfl : res = .ok (trimCRLF l) := (congrArg Prod.fst hview).symm
    have hrest : r'.r.rest = rest := (congrArg (fun p => p.2.rest) hview).symm
    have hclean : ∀ b ∈ 43 :: line, isCRLF b = false :=
      List.forall_mem_cons.2 ⟨by decide, hline⟩
    -- the first line of what came in is the first line of all
    obtain ⟨d, hd⟩ := h
    have hall := splitLine_append (b := d) hsplit
    have hwhole : splitLine ((43 :: line) ++ crlf ++ more) = some ((43 :: line) ++ crlf, more) := by
      have hnot : (10 : UInt8) ∉ (43 :: line) ++ [13] := by
        intro hmem
        rcases List.mem_append.1 hmem with hmem | hmem
        · exact absurd (hclean 10 hmem) (by decide)
        · exact absurd hmem (by decide)
      simpa [crlf] using splitLine_of_not_mem (b := more) hnot
    rw [show r.view.rest = r.r.rest from rfl, hd, hwhole] at hall
    obtain ⟨rfl, rfl⟩ := Prod.mk.inj (Option.some.inj hall)
    rw [trimCRLF_line hclean] at hr
    exact .inl ⟨r', by rw [readStatus, hr]; simp, hrest ▸ List.prefix_append _ _⟩

theorem isCRLF_of_isBlank {b : UInt8} (h : isBlank b = false) : isCRLF b = false := by
  simp only [isBlank, isCRLF, Bool.or_eq_false_iff] at h ⊢
  exact ⟨h.1.1.1.1.2, h.1.2⟩

/-- The handshake leaves the connection at the live stream, with the offset of the master in
a full resync and the one that was asked for otherwise. -/
theorem handshake_arrived {full : Option (Bytes × List Args)} {offset wanted : ℤ}
    (hoffset : minInt64 ≤ offset ∧ offset ≤ maxInt64)
    (hfull : ∀ id snapshot, full = some (id, snapshot) →
      IsField id ∧ ∀ args ∈ snapshot, args ≠ [] ∧ isEndSnapshot args = false)
    {r : Reader} {live : Bytes} (h : r.r.rest <+: answer offset full ++ live) {o : Opened}
    (ho : handshake r wanted = some o) :
    o.offset = (if full.isSome then offset else wanted) ∧ o.reader.r.rest <+: live := by
  rcases full with _ | ⟨id, snapshot⟩
  · have hline : ∀ b ∈ ascii "CONTINUE", isCRLF b = false := by decide +kernel
    rcases readStatus_arrived hline h with ⟨r₁, hread, hrest⟩ | ⟨r₁, hread⟩
    · have hfields : fields (ascii "CONTINUE") = [ascii "CONTINUE"] := by decide +kernel
      rw [handshake, hread] at ho
      dsimp only at ho
      rw [hfields] at ho
      obtain rfl := Option.some.inj ho
      exact ⟨rfl, hrest⟩
    · rw [handshake, hread] at ho
      cases ho
  · obtain ⟨hid, hsnapshot⟩ := hfull id snapshot rfl
    have hnum := isField_formatInt offset
    have hword : IsField (ascii "FULLRESYNC") := ⟨by decide, by decide +kernel⟩
    have hfields : fields (ascii "FULLRESYNC" ++ 32 :: (id ++ 32 :: formatInt offset)) =
        [ascii "FULLRESYNC", id, formatInt offset] := by
      rw [fields_cons hword (by decide), fields_cons hid (by decide), fields_single hnum]
    have hline : ∀ b ∈ ascii "FULLRESYNC" ++ 32 :: (id ++ 32 :: formatInt offset), isCRLF b = false := by
      intro b hb
      rcases List.mem_append.1 hb with hb | hb
      · exact isCRLF_of_isBlank (hword.solid b hb)
      rcases List.mem_cons.1 hb with rfl | hb
      · decide
      rcases List.mem_append.1 hb with hb | hb
      · exact isCRLF_of_isBlank (hid.solid b hb)
      rcases List.mem_cons.1 hb with rfl | hb
      · decide
      · exact isCRLF_of_isBlank (hnum.solid b hb)
    have hbytes : answer offset (some (id, snapshot)) ++ live =
        (43 :: (ascii "FULLRESYNC" ++ 32 :: (id ++ 32 :: formatInt offset))) ++ crlf ++
          ((snapshot ++ [endSnapshot]).flatMap encodeCommand ++ live) := by
      rw [answer, show ascii "+FULLRESYNC " = 43 :: ascii "FULLRESYNC" ++ [32] by decide +kernel]
      simp only [List.append_assoc, List.cons_append, List.nil_append]
    rw [hbytes] at h
    rcases readStatus_arrived hline h with ⟨r₁, hread, hrest⟩ | ⟨r₁, hread⟩
    · have hcont : equalFold (ascii "FULLRESYNC") "CONTINUE" = false := by decide +kernel
      have hresync : equalFold (ascii "FULLRESYNC") "FULLRESYNC" = true := by decide +kernel
      rw [handshake, hread] at ho
      dsimp only at ho
      rw [hfields] at ho
      dsimp only at ho
      rw [hcont, if_neg Bool.false_ne_true, hresync, if_pos rfl,
        parseInt64_formatInt hoffset.1 hoffset.2] at ho
      obtain ⟨r₂, hsnap, rfl⟩ := Option.map_eq_some_iff.1 ho
      exact ⟨rfl, readSnapshot_rest hsnapshot hrest hsnap⟩
    · rw [handshake, hread] at ho
      cases ho

section Agreement

variable {before : List Shipped} {frames : List Sent}

/-- The stream up to the end of some frames of a feed, which starts behind some commands. -/
def streamAfter (before : List Shipped) (frames : List Sent) (read : ℕ) : List Shipped :=
  before ++ commands (frames.take read)

/-- A link agrees with the master: it has the rest of its feed to read, and all it has
counted, recorded and acknowledged are offsets of the master. -/
structure Link.Agrees (before : List Shipped) (frames : List Sent) (l : Link) : Prop where
  rest : l.reader.r.rest <+: (frames.drop l.read).flatMap fun f => encodeCommand f.args
  processed : l.processed = replOffset (streamAfter before frames l.read)
  recorded : l.slaveOffset = replOffset (streamAfter before frames l.read)
  acked : ∀ a ∈ l.acked, a.1 ≤ l.read ∧ a.2 = replOffset (streamAfter before frames a.1)

theorem Link.Agrees.sendAck {l : Link} (h : l.Agrees before frames) : l.sendAck.Agrees before frames := by
  refine ⟨h.rest, h.processed, h.recorded, fun a ha => ?_⟩
  rcases List.mem_append.1 ha with ha | ha
  · exact h.acked a ha
  · obtain rfl := List.mem_singleton.1 ha
    exact ⟨le_rfl, h.processed⟩

theorem readCommand_nil {r : Reader} (h : r.r.rest = []) : ∃ err r', r.readCommand = (.error err, r') := by
  have hview := r.readCommand_view
  rw [show r.view = ⟨[], r.n⟩ by rw [Reader.view, h], parse, parseFuel_nil] at hview
  exact ⟨.eof, r.readCommand.2, Prod.ext (congrArg Prod.fst hview).symm rfl⟩

theorem streamAfter_command {read : ℕ} {c : Shipped} {tail : List Sent}
    (h : frames.drop read = .command c :: tail) :
    streamAfter before frames (read + 1) = streamAfter before frames read ++ [c] := by
  rw [streamAfter, List.take_add, h]
  simp [commands, streamAfter]

theorem streamAfter_probe {read : ℕ} {p : Probe} {tail : List Sent}
    (h : frames.drop read = .probe p :: tail) :
    streamAfter before frames (read + 1) = streamAfter before frames read := by
  rw [streamAfter, List.take_add, h]
  simp [commands, streamAfter]

/-- A probe moves the base by what it takes. -/
theorem processed_probe (offset base : ℤ) (n len : ℕ) :
    wrap (offset + (n + len : ℕ) - wrap (base + ((n + len : ℕ) - (n : ℤ)))) = wrap (offset + n - base) := by
  unfold wrap
  push_cast
  omega

theorem processed_command (offset base : ℤ) (n len : ℕ) :
    wrap (offset + (n + len : ℕ) - base) = wrap (wrap (offset + n - base) + len) := by
  rw [wrap_wrap_add]
  push_cast
  congr 1
  ring

theorem Link.Agrees.step {l l' : Link} (h : l.Agrees before frames) {due : Bool}
    (hstep : l.step due = some l') : l'.Agrees before frames := by
  unfold Link.step at hstep
  cases hframes : frames.drop l.read with
  | nil =>
    have hnil : l.reader.r.rest = [] := by simpa [hframes] using h.rest
    obtain ⟨err, r, hread⟩ := readCommand_nil hnil
    rw [hread] at hstep
    cases hstep
  | cons f tail =>
    have hrest := h.rest
    rw [hframes, List.flatMap_cons] at hrest
    rcases readCommand_arrived f.args_ne_nil hrest with ⟨r, hread, htail, hn⟩ | ⟨err, r, hread⟩
    swap
    · rw [hread] at hstep
      cases hstep
    have hdrop : frames.drop (l.read + 1) = tail := by
      rw [← List.drop_drop, hframes, List.drop_succ_cons, List.drop_zero]
    rw [hread] at hstep
    dsimp only at hstep
    cases f with
    | probe p =>
      rw [if_pos (Sent.probed p)] at hstep
      obtain rfl := Option.some.inj hstep
      have hsame : streamAfter before frames (l.read + 1) = streamAfter before frames l.read :=
        streamAfter_probe hframes
      refine Link.Agrees.sendAck ⟨hdrop.symm ▸ htail, ?_, hsame.symm ▸ h.recorded, fun a ha => ?_⟩
      · rw [hsame, ← h.processed, Link.processed, Link.processed, hn, processed_probe]
      · exact ⟨(h.acked a ha).1.trans (Nat.le_succ _), (h.acked a ha).2⟩
    | command c =>
      rw [Sent.inBand c, if_neg Bool.false_ne_true] at hstep
      have hnext : streamAfter before frames (l.read + 1) = streamAfter before frames l.read ++ [c] :=
        streamAfter_command hframes
      have hprocessed : wrap (l.offset + r.n - l.base) =
          replOffset (streamAfter before frames (l.read + 1)) := by
        rw [hnext, replOffset_concat, ← h.processed, Link.processed, hn, processed_command]
        rfl
      have hagrees : Link.Agrees before frames { l with
          reader := r, read := l.read + 1, slaveOffset := wrap (l.offset + r.n - l.base) } :=
        ⟨hdrop.symm ▸ htail, hprocessed, hprocessed, fun a ha =>
          ⟨(h.acked a ha).1.trans (Nat.le_succ _), (h.acked a ha).2⟩⟩
      obtain rfl := Option.some.inj hstep
      cases due with
      | true => exact hagrees.sendAck
      | false => exact hagrees

theorem Link.Agrees.run {l : Link} (h : l.Agrees before frames) (due : List Bool) :
    (l.run due).Agrees before frames := by
  induction due generalizing l with
  | nil => exact h
  | cons d due ih =>
    rw [Link.run]
    cases hstep : l.step d with
    | none => exact h
    | some l' => exact ih (h.step hstep)

end Agreement

/-- A connection to the master. It is opened by a full resync after some commands of the
stream, with an id and a snapshot, or by continuing; its feed has probes between the commands,
and may break at any byte. -/
structure Session where
  full : Option (ℕ × Bytes × List Args)
  schedule : List (Option Probe)
  reader : Reader
  due : List Bool

namespace Session

variable (s : Session) (shipped : List Shipped) (n : ℕ)

/-- The commands that are not on the feed, for a replica that has processed some. -/
def start : ℕ :=
  match s.full with
  | none => n
  | some full => full.1

def frames : List Sent := feedOf (shipped.drop (s.start n)) s.schedule

/-- All that the master writes. -/
def bytes : Bytes :=
  answer (replOffset (shipped.take (s.start n))) (s.full.map Prod.snd) ++
    (s.frames shipped n).flatMap fun f => encodeCommand f.args

/-- What comes in is what the master writes, as far as it comes. -/
structure Carried : Prop where
  arrived : s.reader.r.rest <+: s.bytes shipped n
  snapshot : ∀ m id cmds, s.full = some (m, id, cmds) →
    IsField id ∧ ∀ args ∈ cmds, args ≠ [] ∧ isEndSnapshot args = false

/-- The replica's side, which asks to continue from its offset. Nothing when the handshake
fails. -/
def run (slaveOffset : ℤ) : Option Link :=
  (handshake s.reader slaveOffset).map fun o => (Link.start o).run s.due

/-- How many commands of the stream the replica has processed after some frames. -/
def processed (read : ℕ) : ℕ :=
  s.start n + (commands ((s.frames shipped n).take read)).length

end Session

/-- A replica has processed so many commands of the stream and recorded an offset: it is new,
or it had a session after which this is so. -/
inductive Follows (shipped : List Shipped) : ℕ → ℤ → Prop
  | new : Follows shipped 0 0
  | session {n : ℕ} {slaveOffset : ℤ} {s : Session} {l : Link} (h : Follows shipped n slaveOffset)
      (hs : s.Carried shipped n) (hrun : s.run slaveOffset = some l) :
      Follows shipped (s.processed shipped n l.read) l.slaveOffset

variable {s : Session} {shipped : List Shipped} {n : ℕ} {slaveOffset : ℤ} {l : Link}

theorem streamAfter_eq (read : ℕ) :
    streamAfter (shipped.take (s.start n)) (s.frames shipped n) read =
      shipped.take (s.processed shipped n read) := by
  rw [streamAfter, Session.processed, List.take_add, Session.frames, ← commands_take]

theorem Session.agrees (hs : s.Carried shipped n) (hoffset : slaveOffset = replOffset (shipped.take n))
    (hrun : s.run slaveOffset = some l) :
    l.Agrees (shipped.take (s.start n)) (s.frames shipped n) := by
  obtain ⟨o, hopen, rfl⟩ := Option.map_eq_some_iff.1 hrun
  have hfull : ∀ id cmds, s.full.map Prod.snd = some (id, cmds) →
      IsField id ∧ ∀ args ∈ cmds, args ≠ [] ∧ isEndSnapshot args = false := by
    intro id cmds heq
    obtain ⟨⟨m, full⟩, hsome, rfl⟩ := Option.map_eq_some_iff.1 heq
    exact hs.snapshot m id cmds hsome
  obtain ⟨hstart, hrest⟩ := handshake_arrived (replOffset_range _) hfull hs.arrived hopen
  have hvalue : o.offset = replOffset (shipped.take (s.start n)) := by
    rw [hstart, hoffset]
    unfold Session.start
    cases s.full <;> rfl
  have hzero : streamAfter (shipped.take (s.start n)) (s.frames shipped n) 0 = shipped.take (s.start n) := by
    simp [streamAfter, commands]
  refine Link.Agrees.run ⟨hrest, ?_, ?_, fun a ha => absurd ha List.not_mem_nil⟩ s.due
  · have hrange := replOffset_range (shipped.take (s.start n))
    simp only [minInt64, maxInt64] at hrange
    simp only [Link.processed, Link.start, hzero, hvalue, add_sub_cancel_right]
    exact wrap_of_range (by omega) (by omega)
  · exact hvalue.trans (congrArg replOffset hzero.symm)

theorem Follows.offset (h : Follows shipped n slaveOffset) : slaveOffset = replOffset (shipped.take n) := by
  induction h with
  | new => rfl
  | session _ hs hrun ih => rw [(Session.agrees hs ih hrun).recorded, streamAfter_eq]

/-- Whatever sessions a replica had, however each was opened, however probes stood in its feed
and wherever it broke: the offset that a replica has recorded in a session is that of the
master at the end of the last command that it has processed, and so was each one that it
acknowledged at the time. -/
theorem offsets_agree (h : Follows shipped n slaveOffset) (hs : s.Carried shipped n)
    (hrun : s.run slaveOffset = some l) :
    l.slaveOffset = replOffset (shipped.take (s.processed shipped n l.read)) ∧
      ∀ read offset, (read, offset) ∈ l.acked →
        read ≤ l.read ∧ offset = replOffset (shipped.take (s.processed shipped n read)) := by
  have hagrees := Session.agrees hs h.offset hrun
  refine ⟨by rw [hagrees.recorded, streamAfter_eq], fun read offset hack => ?_⟩
  rw [← streamAfter_eq]
  exact hagrees.acked _ hack

def twoShipped : List Shipped :=
  [⟨ascii "SELECT", [ascii "0"], by decide⟩, ⟨ascii "SET", [ascii "a", ascii "1"], by decide⟩]

/-- A full resync before the stream, and a feed with a probe in front of each command. -/
def probedSession (reads : List Bytes) : Session :=
  ⟨some (0, ascii "d41d8cd9", [[ascii "SELECT", ascii "0"]]), [some .ping, none, some .getack, none],
    newReader reads, [false, true, false, true]⟩

theorem offsets_agree_probed : ∃ l : Link,
    (probedSession [(probedSession []).bytes twoShipped 0]).run 0 = some l ∧ l.read = 4 ∧
      l.slaveOffset = replOffset (twoShipped.take 2) ∧ l.acked.map Prod.fst = [1, 2, 3, 4] := by
  generalize hsession : probedSession [(probedSession []).bytes twoShipped 0] = s
  have heval : (s.run 0).map (fun l => (l.read, l.acked.map Prod.fst)) = some (4, [1, 2, 3, 4]) := by
    subst hsession
    decide +kernel
  obtain ⟨l, hrun, hread⟩ := Option.map_eq_some_iff.1 heval
  obtain ⟨hread, hacked⟩ := Prod.mk.inj hread
  have hs : s.Carried twoShipped 0 := by
    subst hsession
    refine ⟨?_, fun m id cmds hfull => ?_⟩
    · have hrest : (newReader [(probedSession []).bytes twoShipped 0]).r.rest =
          (probedSession []).bytes twoShipped 0 := by simp [newReader, Buffered.rest]
      exact hrest ▸ List.prefix_refl _
    · obtain ⟨rfl, rfl, rfl⟩ : 0 = m ∧ ascii "d41d8cd9" = id ∧ [[ascii "SELECT", ascii "0"]] = cmds := by
        simpa [probedSession] using hfull
      exact ⟨⟨by decide, by decide +kernel⟩, by decide +kernel⟩
  refine ⟨l, hrun, hread, ?_, hacked⟩
  have hagree := (offsets_agree .new hs hrun).1
  rwa [hread, show s.processed twoShipped 0 4 = 2 by subst hsession; decide +kernel] at hagree

end ShardKV.Replication
