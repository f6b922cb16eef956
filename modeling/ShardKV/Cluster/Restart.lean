import ShardKV.Access.Machine
import ShardKV.Bytes.Checked
import ShardKV.Cluster.Config

/-! The commands that change the configuration of a cluster node. A node is enabled with an
announced address, meets peers, takes, gives up and opens slots, forgets nodes and resets; each
command keeps the configuration well formed, so a restart brings it back exactly when the file
can hold it. The file can hold no epoch: the line that has it is passed over. -/

namespace ShardKV.Cluster.Config

open Access Checked Decimal Server Text

section Commands

/-- Random bytes, at least one. -/
abbrev Entropy := { b : Bytes // b ≠ [] }

/-- What a command takes from outside: the peer's answer to CLUSTER NODES or the error of the
exchange, random bytes for an id, the slots that hold a key, and the number of keys. -/
structure World where
  peer : Except Bytes Bytes
  entropy : Entropy
  holdsKeys : ℕ → Bool
  keys : ℕ

def hexDigit (n : ℕ) : UInt8 := UInt8.ofNat (if n < 10 then 48 + n else 87 + n)

/-- `newReplID`, from what it encodes. -/
def newReplID (entropy : Entropy) : Bytes :=
  entropy.1.flatMap fun b => [hexDigit (b.toNat / 16), hexDigit (b.toNat % 16)]

/-- The entry of this node. -/
def State.me (cs : State) : Option Node := cs.find cs.myID

def Slot.map (f : Option Node → Option Node) (s : Slot) : Slot :=
  ⟨f s.owner, f s.migrating, f s.importing⟩

/-- `putNodeLocked`. -/
def State.putNode (cs : State) (n : Node) : State :=
  match cs.find n.id with
  | none => { cs with nodes := setNode cs.nodes n }
  | some prev =>
    { cs with
      nodes := setNode cs.nodes n
      slots := fun i => (cs.slots i).map fun o => if o = some prev then some n else o }

def clusterArity (args : List Bytes) : Bytes :=
  ascii "ERR wrong number of arguments for 'cluster|" ++ toLower (args.getD 1 []) ++ ascii "' command"

def slotOperand (b : Bytes) : Except Bytes ℕ :=
  match parseInt64 b with
  | none => .error (ascii "ERR Invalid or out of range slot")
  | some n =>
    if n < 0 ∨ numSlots ≤ n then .error (ascii "ERR Invalid or out of range slot") else .ok n.toNat

def parseSlotArg (args : List Bytes) (i : ℕ) : Except Bytes ℕ :=
  match args[i]? with
  | none => .error (clusterArity args)
  | some b => slotOperand b

/-- The first slot that stops ADDSLOTS or DELSLOTS, behind those it has seen. -/
def State.slotRefusal (cs : State) (add : Bool) : List ℕ → List ℕ → Option Bytes
  | _, [] => none
  | seen, slot :: slots =>
    if slot ∈ seen then some (ascii "ERR Slot " ++ itoa slot ++ ascii " specified multiple times")
    else if add && (cs.slots slot).owner.isSome then
      some (ascii "ERR Slot " ++ itoa slot ++ ascii " is already busy")
    else if !add && (cs.slots slot).owner.isNone then
      some (ascii "ERR Slot " ++ itoa slot ++ ascii " is already unassigned")
    else cs.slotRefusal add (slot :: seen) slots

def State.applySlotChange (cs : State) (add : Bool) (slots : List ℕ) : Except Bytes State :=
  match cs.slotRefusal add [] slots with
  | some e => .error e
  | none =>
    .ok { cs with
      slots := fun i =>
        if i ∈ slots then if add then (cs.slots i).ownedBy cs.me else .unassigned else cs.slots i
      currentEpoch := wrap (cs.currentEpoch + 1) }

def slotOperands : List Bytes → Except Bytes (List ℕ)
  | [] => .ok []
  | b :: rest =>
    match slotOperand b with
    | .error e => .error e
    | .ok slot => (slotOperands rest).map (slot :: ·)

def State.clusterAddDelSlots (cs : State) (add : Bool) (args : List Bytes) : Except Bytes State :=
  if args.length < 3 then .error (clusterArity args)
  else
    match slotOperands (args.drop 2) with
    | .error e => .error e
    | .ok slots => cs.applySlotChange add slots

def slotRangeOperands : List Bytes → Except Bytes (List ℕ)
  | first :: last :: rest =>
    match slotOperand first with
    | .error e => .error e
    | .ok start =>
      match slotOperand last with
      | .error e => .error e
      | .ok stop =>
        if stop < start then
          .error (ascii "ERR start slot number " ++ itoa start ++ ascii " is greater than end slot number " ++
            itoa stop)
        else (slotRangeOperands rest).map (List.range' start (stop + 1 - start) ++ ·)
  | _ => .ok []

def State.clusterAddDelSlotsRange (cs : State) (add : Bool) (args : List Bytes) : Except Bytes State :=
  if args.length < 4 ∨ (args.length - 2) % 2 ≠ 0 then .error (clusterArity args)
  else
    match slotRangeOperands (args.drop 2) with
    | .error e => .error e
    | .ok slots => cs.applySlotChange add slots

/-- One entry of the slot map. -/
def State.setSlot (cs : State) (slot : ℕ) (info : Slot) : State :=
  { cs with slots := Function.update cs.slots slot info }

/-- The forms of SETSLOT that name a node. -/
def State.setSlotTo (cs : State) (world : World) (slot : ℕ) (action : Bytes) (target : Node) :
    Except Bytes State :=
  let info := cs.slots slot
  if action = ascii "MIGRATING" then
    if info.owner ≠ cs.me then .error (ascii "ERR I'm not the owner of hash slot " ++ itoa slot)
    else if some target = cs.me then .error (ascii "ERR Target node is myself")
    else .ok (cs.setSlot slot { info with migrating := some target })
  else if action = ascii "IMPORTING" then
    if info.owner = cs.me then .error (ascii "ERR I'm already the owner of hash slot " ++ itoa slot)
    else if some target = cs.me then .error (ascii "ERR Target node is myself")
    else .ok (cs.setSlot slot { info with importing := some target })
  else if action = ascii "NODE" then
    if info.owner = cs.me ∧ some target ≠ cs.me ∧ world.holdsKeys slot then
      .error (ascii "ERR Can't assign hashslot " ++ itoa slot ++
        ascii " to a different node while I still hold keys for this hash slot.")
    else
      .ok { cs.setSlot slot ⟨some target, none, none⟩ with currentEpoch := wrap (cs.currentEpoch + 1) }
  else .error (ascii "ERR Invalid CLUSTER SETSLOT action or number of arguments. Try CLUSTER HELP")

def State.clusterSetSlot (cs : State) (world : World) (args : List Bytes) : Except Bytes State :=
  if args.length < 4 then .error (clusterArity args)
  else
    match parseSlotArg args 2 with
    | .error e => .error e
    | .ok slot =>
      let action := toUpper (args.getD 3 [])
      if action = ascii "STABLE" then
        if args.length ≠ 4 then .error (clusterArity args)
        else .ok (cs.setSlot slot { cs.slots slot with migrating := none, importing := none })
      else if args.length ≠ 5 then .error (clusterArity args)
      else
        match cs.find (args.getD 4 []) with
        | none => .error (ascii "ERR Unknown node " ++ args.getD 4 [])
        | some target => cs.setSlotTo world slot action target

-- the rendering of `%q`
variable (quote : Bytes → Bytes)

/-- The slots that a peer claims; migration markers are passed over. -/
def meetRanges : List Bytes → Except Bytes (List (ℕ × ℕ))
  | [] => .ok []
  | spec :: specs =>
    if spec.head? = some 91 then meetRanges specs
    else
      match parseSlotRange quote spec with
      | .error e => .error e
      | .ok r => (meetRanges specs).map (r :: ·)

/-- `parseMeetReply`, on the lines of the answer. -/
def parseMeetReply : List Bytes → Except Bytes (Node × List (ℕ × ℕ))
  | [] => .error (ascii "the node did not identify itself; is it running with cluster mode enabled?")
  | line :: lines =>
    match words line with
    | id :: addr :: flags :: master :: _ :: _ :: _ :: _ :: specs =>
      if contains flags (ascii "myself") then
        match parseNodeAddr quote addr with
        | .error e => .error e
        | .ok (ip, port, cport) =>
          (meetRanges quote specs).map fun ranges =>
            (⟨id, ip, port, cport, if master = ascii "-" then [] else master, 0, false⟩, ranges)
      else parseMeetReply lines
    | _ => parseMeetReply lines

/-- A claimed slot is taken over if it has no owner. -/
def adopt (n : Option Node) (slots : ℕ → Slot) (r : ℕ × ℕ) (i : ℕ) : Slot :=
  if r.1 ≤ i ∧ i ≤ r.2 ∧ (slots i).owner = none then (slots i).ownedBy n else slots i

/-- `meet`, from the peer's answer on. -/
def State.meet (cs : State) (ip : Bytes) (port : ℤ) (answer : Bytes) : Except Bytes State :=
  match parseMeetReply quote (answer.splitOn 10) with
  | .error e => .error e
  | .ok (found, ranges) =>
    let peer := if found.ip = [] then { found with ip := ip, port := port, cport := port + 10000 } else found
    if peer.id = cs.myID then .error (ascii "Can't meet myself")
    else
      let met := cs.putNode peer
      .ok { met with slots := ranges.foldl (adopt (met.find peer.id)) met.slots }

def State.clusterMeet (cs : State) (world : World) (args : List Bytes) : Except Bytes State :=
  if args.length ≠ 4 ∧ args.length ≠ 5 then .error (clusterArity args)
  else
    match parseInt64 (args.getD 3 []) with
    | none => .error (ascii "ERR Invalid base port specified")
    | some port =>
      if port ≤ 0 ∨ 65535 < port then .error (ascii "ERR Invalid base port specified")
      else
        match world.peer with
        | .error e => .error (ascii "ERR " ++ e)
        | .ok answer => (cs.meet quote (args.getD 2 []) port answer).mapError (ascii "ERR " ++ ·)

def State.clusterForget (cs : State) (args : List Bytes) : Except Bytes State :=
  if args.length ≠ 3 then .error (clusterArity args)
  else if args.getD 2 [] = cs.myID then
    .error (ascii "ERR I tried hard but I can't forget myself...")
  else
    match cs.find (args.getD 2 []) with
    | none => .error (ascii "ERR Unknown node " ++ args.getD 2 [])
    | some node =>
      .ok { cs with
        slots := fun i => (cs.slots i).map fun o => if o = some node then none else o
        nodes := cs.nodes.filter (·.id ≠ args.getD 2 []) }

def State.clusterReplicate (cs : State) (world : World) (args : List Bytes) : Except Bytes State :=
  if args.length ≠ 3 then .error (clusterArity args)
  else if args.getD 2 [] = cs.myID then .error (ascii "ERR Can't replicate myself")
  else
    match cs.find (args.getD 2 []), cs.me with
    | none, _ => .error (ascii "ERR Unknown node " ++ args.getD 2 [])
    | some master, some me =>
      if master.isReplica then .error (ascii "ERR I can only replicate a master, not a replica.")
      else if cs.ownedSlots me ≠ [] ∨ 0 < world.keys then
        .error (ascii "ERR To set a master the node must be empty and without assigned slots.")
      else .ok (cs.putNode { me with replicaOf := args.getD 2 [] })
    -- a node in cluster mode has an entry of its own
    | some _, none => .error []

def resetHard (args : List Bytes) : Except Bytes Bool :=
  if args.length = 2 then .ok false
  else if args.length = 3 then
    if equalFold (args.getD 2 []) "HARD" then .ok true
    else if equalFold (args.getD 2 []) "SOFT" then .ok false
    else .error (ascii "ERR syntax error")
  else .error (clusterArity args)

def State.clusterReset (cs : State) (world : World) (args : List Bytes) : Except Bytes State :=
  match resetHard args with
  | .error e => .error e
  | .ok hard =>
    if 0 < world.keys then
      .error (ascii "ERR CLUSTER RESET can't be called with master nodes containing keys")
    else
      match cs.me with
      -- a node in cluster mode has an entry of its own
      | none => .error []
      | some me =>
        let id := if hard then newReplID world.entropy else me.id
        .ok ⟨id, [⟨id, me.ip, me.port, me.cport, [], if hard then 0 else me.configEpoch, true⟩],
          fun _ => .unassigned, if hard then 0 else cs.currentEpoch⟩

/-- `clusterSubcommand`, as far as it changes the configuration. -/
def State.clusterSubcommand (cs : State) (world : World) (args : List Bytes) : Except Bytes State :=
  let sub := toUpper (args.getD 1 [])
  if sub = ascii "ADDSLOTS" then cs.clusterAddDelSlots true args
  else if sub = ascii "DELSLOTS" then cs.clusterAddDelSlots false args
  else if sub = ascii "ADDSLOTSRANGE" then cs.clusterAddDelSlotsRange true args
  else if sub = ascii "DELSLOTSRANGE" then cs.clusterAddDelSlotsRange false args
  else if sub = ascii "SETSLOT" then cs.clusterSetSlot world args
  else if sub = ascii "MEET" then cs.clusterMeet quote world args
  else if sub = ascii "FORGET" then cs.clusterForget args
  else if sub = ascii "REPLICATE" then cs.clusterReplicate world args
  else if sub = ascii "RESET" then cs.clusterReset world args
  else .ok cs

/-- The slots that ADDSLOTS or ADDSLOTSRANGE names; none for another command. -/
def addedSlots (args : List Bytes) : List ℕ :=
  let sub := toUpper (args.getD 1 [])
  if sub = ascii "ADDSLOTS" then (slotOperands (args.drop 2)).toOption.getD []
  else if sub = ascii "ADDSLOTSRANGE" then (slotRangeOperands (args.drop 2)).toOption.getD []
  else []

/-- The configuration after a command. A refused one leaves it as it is. -/
def State.step (cs : State) (call : World × List Bytes) : Option State :=
  match cs.clusterSubcommand quote call.1 call.2 with
  | .ok t => some t
  | .error _ => some cs

/-- `ClusterOptions`: the address to announce. -/
structure Options where
  announceIP : Bytes
  announcePort : ℤ
  fits : minInt64 ≤ announcePort ∧ announcePort ≤ maxInt64

/-- `EnableCluster`, where there is no file yet. -/
def enableCluster (opts : Options) (listeningPort : Bytes) (entropy : Entropy) : Option State :=
  let ip := if opts.announceIP = [] then ascii "127.0.0.1" else opts.announceIP
  (if opts.announcePort = 0 then parseInt64 listeningPort else some opts.announcePort).map fun port =>
    let id := newReplID entropy
    State.putNode { State.new with myID := id } ⟨id, ip, port, wrap (port + 10000), [], 0, true⟩

end Commands

section Keeping

variable {quote : Bytes → Bytes} {cs t : State}

theorem isWord_newReplID (entropy : Entropy) : IsWord (newReplID entropy) := by
  have hdigit : ∀ d < 16, isGraphic (hexDigit d) = true := by decide +kernel
  refine isWord_of_graphic ?_ fun c hc => ?_
  · obtain ⟨b, hb⟩ := List.exists_mem_of_ne_nil _ entropy.2
    exact List.ne_nil_of_mem (List.mem_flatMap.2 ⟨b, hb, List.mem_cons_self⟩)
  · obtain ⟨b, -, hc⟩ := List.mem_flatMap.1 hc
    simp only [List.mem_cons, List.not_mem_nil, or_false] at hc
    have hbyte := b.toNat_lt
    rcases hc with rfl | rfl <;> exact hdigit _ (by omega)

theorem mem_of_find {id : Bytes} {n : Node} (h : cs.find id = some n) : n ∈ cs.nodes ∧ n.id = id :=
  ⟨List.mem_of_find?_eq_some h, by simpa using List.find?_some h⟩

theorem mem_setNode {nodes : List Node} {n m : Node} :
    m ∈ setNode nodes n ↔ (m ∈ nodes ∧ m.id ≠ n.id) ∨ m = n := by
  simp [setNode]

theorem nodup_setNode {nodes : List Node} (h : (nodes.map Node.id).Nodup) (n : Node) :
    ((setNode nodes n).map Node.id).Nodup := by
  rw [setNode, List.map_append, List.nodup_append]
  refine ⟨h.sublist (List.filter_sublist.map _), by simp, ?_⟩
  intro a ha b hb
  obtain ⟨m, hm, rfl⟩ := List.mem_map.1 ha
  obtain rfl : b = n.id := by simpa using hb
  simpa using List.of_mem_filter hm

/-- The slot map may be changed as long as it names nodes of the table. -/
theorem State.WellFormed.withSlots (h : cs.WellFormed) {slots : ℕ → Slot} {epoch : ℤ}
    (hslots : ∀ i n, (slots i).Names n → n ∈ cs.nodes) :
    State.WellFormed { cs with slots := slots, currentEpoch := epoch } where
  distinct := h.distinct
  own := h.own
  myself := h.myself
  known := hslots
  fits := h.fits
  word := h.word
  master := h.master

theorem State.WellFormed.setSlot (h : cs.WellFormed) {slot : ℕ} {info : Slot} {epoch : ℤ}
    (hinfo : ∀ n, info.Names n → n ∈ cs.nodes) :
    State.WellFormed { cs.setSlot slot info with currentEpoch := epoch } := by
  refine h.withSlots fun i n hn => ?_
  change (Function.update cs.slots slot info i).Names n at hn
  by_cases hi : i = slot
  · subst hi
    rw [Function.update_self] at hn
    exact hinfo n hn
  · rw [Function.update_of_ne hi] at hn
    exact h.known i n hn

theorem not_names_unassigned (n : Node) : ¬ Slot.unassigned.Names n := by
  simp [Slot.unassigned, Slot.Names]

/-- A new owner is all that `ownedBy` brings in. -/
theorem names_ownedBy {s : Slot} {o : Option Node} {n : Node} (h : (s.ownedBy o).Names n) :
    o = some n ∨ s.Names n := by
  rcases h with h | h | h
  · exact .inl h
  · exact .inr (.inr (.inl h))
  · exact .inr (.inr (.inr h))

theorem names_map {f : Option Node → Option Node} {s : Slot} {n : Node} (h : (s.map f).Names n) :
    ∃ o, f o = some n ∧ ∀ m, o = some m → s.Names m := by
  rcases h with h | h | h
  · exact ⟨s.owner, h, fun m hm => .inl hm⟩
  · exact ⟨s.migrating, h, fun m hm => .inr (.inl hm)⟩
  · exact ⟨s.importing, h, fun m hm => .inr (.inr hm)⟩

theorem State.WellFormed.ext_id (h : cs.WellFormed) {n m : Node} (hn : n ∈ cs.nodes) (hm : m ∈ cs.nodes)
    (hid : n.id = m.id) : n = m := by
  have hfind := find_of_mem h.distinct hn
  rw [hid, find_of_mem h.distinct hm] at hfind
  exact (Option.some.inj hfind).symm

/-- What a node must be like to be written into the table. -/
structure Node.Entered (n : Node) (cs : State) : Prop where
  fits : n.Fits
  word : IsWord n.id
  master : n.replicaOf = [] ∨ IsWord n.replicaOf
  myself : n.myself = true ↔ n.id = cs.myID

theorem State.WellFormed.entered (h : cs.WellFormed) {n : Node} (hn : n ∈ cs.nodes) : n.Entered cs :=
  ⟨h.fits n hn, h.word n hn, h.master n hn, h.myself n hn⟩

theorem State.WellFormed.setNode (h : cs.WellFormed) {n : Node} (hn : n.Entered cs) {slots : ℕ → Slot}
    (hslots : ∀ i m, (slots i).Names m → m ∈ Config.setNode cs.nodes n) :
    State.WellFormed { cs with nodes := Config.setNode cs.nodes n, slots := slots } := by
  have hall : ∀ m ∈ Config.setNode cs.nodes n, m.Entered cs := by
    intro m hm
    rcases mem_setNode.1 hm with ⟨hm, -⟩ | rfl
    · exact h.entered hm
    · exact hn
  refine ⟨nodup_setNode h.distinct n, ?_, fun m hm => (hall m hm).myself, hslots,
    fun m hm => (hall m hm).fits, fun m hm => (hall m hm).word, fun m hm => (hall m hm).master⟩
  obtain ⟨me, hme, hid⟩ := List.mem_map.1 h.own
  by_cases hnew : me.id = n.id
  · exact List.mem_map.2 ⟨n, mem_setNode.2 (.inr rfl), hnew.symm.trans hid⟩
  · exact List.mem_map.2 ⟨me, mem_setNode.2 (.inl ⟨hme, hnew⟩), hid⟩

theorem State.WellFormed.putNode (h : cs.WellFormed) {n : Node} (hn : n.Entered cs) :
    (cs.putNode n).WellFormed := by
  unfold State.putNode
  cases hfind : cs.find n.id with
  | none =>
    refine h.setNode hn fun i m hm => mem_setNode.2 (.inl ⟨h.known i m hm, fun hid => ?_⟩)
    have := find_of_mem h.distinct (h.known i m hm)
    rw [hid] at this
    simp [State.find, this] at hfind
  | some prev =>
    obtain ⟨hprev, hid⟩ := mem_of_find hfind
    refine h.setNode hn fun i m hm => mem_setNode.2 ?_
    obtain ⟨o, ho, hnames⟩ := names_map hm
    split_ifs at ho with heq
    · exact .inr (Option.some.inj ho).symm
    · have hmem := h.known i m (hnames m ho)
      exact .inl ⟨hmem, fun hm => heq (ho.trans (congrArg some (h.ext_id hmem hprev (hm.trans hid.symm))))⟩

theorem State.WellFormed.applySlotChange (h : cs.WellFormed) {add : Bool} {slots : List ℕ}
    (ht : cs.applySlotChange add slots = .ok t) : t.WellFormed := by
  unfold State.applySlotChange at ht
  split at ht
  · cases ht
  · cases ht
    refine h.withSlots fun i n hn => ?_
    split_ifs at hn
    · rcases names_ownedBy hn with hme | hn
      · exact (mem_of_find hme).1
      · exact h.known i n hn
    · exact absurd hn (not_names_unassigned n)
    · exact h.known i n hn

theorem State.WellFormed.setSlotTo (h : cs.WellFormed) {world : World} {slot : ℕ} {action : Bytes}
    {target : Node} (htarget : target ∈ cs.nodes)
    (ht : cs.setSlotTo world slot action target = .ok t) : t.WellFormed := by
  unfold State.setSlotTo at ht
  dsimp only at ht
  split_ifs at ht
  · cases ht
    refine h.setSlot fun n hn => ?_
    rcases hn with hn | hn | hn
    · exact h.known slot n (.inl hn)
    · exact Option.some.inj hn ▸ htarget
    · exact h.known slot n (.inr (.inr hn))
  · cases ht
    refine h.setSlot fun n hn => ?_
    rcases hn with hn | hn | hn
    · exact h.known slot n (.inl hn)
    · exact h.known slot n (.inr (.inl hn))
    · exact Option.some.inj hn ▸ htarget
  · cases ht
    refine h.setSlot fun n hn => ?_
    rcases hn with hn | hn | hn
    · exact Option.some.inj hn ▸ htarget
    · cases hn
    · cases hn

theorem State.WellFormed.clusterSetSlot (h : cs.WellFormed) {world : World} {args : List Bytes}
    (ht : cs.clusterSetSlot world args = .ok t) : t.WellFormed := by
  unfold State.clusterSetSlot at ht
  by_cases hlen : args.length < 4
  · rw [if_pos hlen] at ht
    cases ht
  rw [if_neg hlen] at ht
  cases hslot : parseSlotArg args 2 with
  | error e =>
    rw [hslot] at ht
    cases ht
  | ok slot =>
    simp only [hslot] at ht
    split_ifs at ht
    · cases ht
      refine h.setSlot fun n hn => ?_
      rcases hn with hn | hn | hn
      · exact h.known slot n (.inl hn)
      · cases hn
      · cases hn
    · split at ht
      · cases ht
      · rename_i target hfind
        exact h.setSlotTo (mem_of_find hfind).1 ht

theorem parseNodeAddr_range {field ip : Bytes} {port cport : ℤ}
    (h : parseNodeAddr quote field = .ok (ip, port, cport)) :
    (minInt64 ≤ port ∧ port ≤ maxInt64) ∧ minInt64 ≤ cport ∧ cport ≤ maxInt64 := by
  unfold parseNodeAddr at h
  dsimp only at h
  split at h
  · cases h
  · split at h
    · cases h
    · rename_i hbus
      split at h
      · cases h
      · split at h
        · cases h
        · rename_i hport
          cases h
          exact ⟨parseInt64_range hport, parseInt64_range hbus⟩

/-- A peer's line gives a node that can be written. -/
theorem of_parseMeetReply {lines : List Bytes} {n : Node} {ranges : List (ℕ × ℕ)}
    (h : parseMeetReply quote lines = .ok (n, ranges)) :
    n.Fits ∧ IsWord n.id ∧ (n.replicaOf = [] ∨ IsWord n.replicaOf) ∧ n.myself = false := by
  induction lines with
  | nil => cases h
  | cons line lines ih =>
    rw [parseMeetReply] at h
    split at h
    · rename_i id addr flags master _ _ _ _ specs hwords
      have hword {w : Bytes} (hw : w ∈ words line) : IsWord w := isWord_of_mem_words hw
      rw [hwords] at hword
      by_cases hmyself : contains flags (ascii "myself") = true
      · rw [if_pos hmyself] at h
        split at h
        · cases h
        · rename_i ip port cport haddr
          obtain ⟨hport, hcport⟩ := parseNodeAddr_range haddr
          cases hranges : meetRanges quote specs with
          | error e => simp [hranges, Except.map] at h
          | ok rs =>
            simp only [hranges, Except.map, Except.ok.injEq, Prod.mk.injEq] at h
            obtain ⟨rfl, rfl⟩ := h
            refine ⟨⟨hport, hcport, (by decide : minInt64 ≤ 0 ∧ 0 ≤ maxInt64)⟩, hword (by simp), ?_, rfl⟩
            dsimp only
            split_ifs
            · exact .inl rfl
            · exact .inr (hword (by simp))
      · rw [if_neg hmyself] at h
        exact ih h
    · exact ih h

theorem foldl_adopt_names {o : Option Node} {ranges : List (ℕ × ℕ)} {slots : ℕ → Slot} {i : ℕ} {n : Node}
    (h : (ranges.foldl (adopt o) slots i).Names n) : o = some n ∨ (slots i).Names n := by
  induction ranges generalizing slots with
  | nil => exact .inr h
  | cons r ranges ih =>
    rcases ih h with h | h
    · exact .inl h
    · unfold adopt at h
      split_ifs at h
      · exact names_ownedBy h
      · exact .inr h

theorem State.WellFormed.adopt (h : cs.WellFormed) {id : Bytes} {ranges : List (ℕ × ℕ)} :
    State.WellFormed { cs with slots := ranges.foldl (Config.adopt (cs.find id)) cs.slots } := by
  refine h.withSlots fun i n hn => ?_
  rcases foldl_adopt_names hn with hn | hn
  · exact (mem_of_find hn).1
  · exact h.known i n hn

theorem State.WellFormed.meet (h : cs.WellFormed) {ip answer : Bytes} {port : ℤ}
    (hport : 0 < port ∧ port ≤ 65535) (ht : cs.meet quote ip port answer = .ok t) : t.WellFormed := by
  unfold State.meet at ht
  split at ht
  · cases ht
  · rename_i found ranges hreply
    obtain ⟨hfits, hword, hmaster, hmyself⟩ := of_parseMeetReply hreply
    have hnot {id : Bytes} (hid : id ≠ cs.myID) : found.myself = true ↔ id = cs.myID :=
      iff_of_false (by simp [hmyself]) hid
    dsimp only at ht
    split_ifs at ht with hnil hme hme
    · cases ht
      have hfits' : Node.Fits { found with ip := ip, port := port, cport := port + 10000 } := by
        refine ⟨?_, ?_, hfits.configEpoch⟩ <;> unfold minInt64 maxInt64 <;> dsimp only <;> omega
      exact (h.putNode ⟨hfits', hword, hmaster, hnot hme⟩).adopt
    · cases ht
      exact (h.putNode ⟨hfits, hword, hmaster, hnot hme⟩).adopt

theorem State.WellFormed.clusterMeet (h : cs.WellFormed) {world : World} {args : List Bytes}
    (ht : cs.clusterMeet quote world args = .ok t) : t.WellFormed := by
  unfold State.clusterMeet at ht
  split at ht
  · cases ht
  · split at ht
    · cases ht
    · rename_i port _
      split_ifs at ht with hport
      split at ht
      · cases ht
      · rename_i answer _
        cases hmeet : cs.meet quote (args.getD 2 []) port answer with
        | error e =>
          rw [hmeet] at ht
          cases ht
        | ok u =>
          simp only [hmeet, Except.mapError, Except.ok.injEq] at ht
          exact ht ▸ h.meet (by omega) hmeet

theorem State.WellFormed.clusterForget (h : cs.WellFormed) {args : List Bytes}
    (ht : cs.clusterForget args = .ok t) : t.WellFormed := by
  unfold State.clusterForget at ht
  split_ifs at ht with hlen hme
  split at ht
  · cases ht
  · rename_i node hfind
    cases ht
    obtain ⟨hnode, hid⟩ := mem_of_find hfind
    have hold : ∀ n ∈ cs.nodes.filter (·.id ≠ args.getD 2 []), n ∈ cs.nodes :=
      fun n hn => List.mem_of_mem_filter hn
    have hkeep {n : Node} (hn : n ∈ cs.nodes) (hne : n.id ≠ args.getD 2 []) :
        n ∈ cs.nodes.filter (·.id ≠ args.getD 2 []) := List.mem_filter.2 ⟨hn, by simpa using hne⟩
    refine ⟨h.distinct.sublist (List.filter_sublist.map _), ?_, fun n hn => h.myself n (hold n hn), ?_,
      fun n hn => h.fits n (hold n hn), fun n hn => h.word n (hold n hn), fun n hn => h.master n (hold n hn)⟩
    · obtain ⟨me, hmem, hmid⟩ := List.mem_map.1 h.own
      exact List.mem_map.2 ⟨me, hkeep hmem fun heq => hme (heq.symm.trans hmid), hmid⟩
    · intro i n hn
      obtain ⟨o, ho, hnames⟩ := names_map hn
      split_ifs at ho with heq
      have hmem := h.known i n (hnames n ho)
      exact hkeep hmem fun hnid => heq (ho.trans (congrArg some (h.ext_id hmem hnode (hnid.trans hid.symm))))

theorem State.WellFormed.clusterReplicate (h : cs.WellFormed) {world : World} {args : List Bytes}
    (ht : cs.clusterReplicate world args = .ok t) : t.WellFormed := by
  unfold State.clusterReplicate at ht
  split_ifs at ht
  split at ht
  · cases ht
  · rename_i master me hmaster hme
    split_ifs at ht
    cases ht
    obtain ⟨hmem, -⟩ := mem_of_find hme
    obtain ⟨hfound, hid⟩ := mem_of_find hmaster
    exact h.putNode ⟨⟨(h.fits me hmem).port, (h.fits me hmem).cport, (h.fits me hmem).configEpoch⟩,
      h.word me hmem, .inr (hid ▸ h.word master hfound), h.myself me hmem⟩
  · cases ht

theorem wellFormed_alone {id ip : Bytes} {port cport configEpoch epoch : ℤ} (hword : IsWord id)
    (hfits : Node.Fits ⟨id, ip, port, cport, [], configEpoch, true⟩) :
    State.WellFormed ⟨id, [⟨id, ip, port, cport, [], configEpoch, true⟩], fun _ => .unassigned, epoch⟩ where
  distinct := by simp
  own := by simp
  myself := by simp
  known := fun _ n hn => absurd hn (not_names_unassigned n)
  fits := by simpa using hfits
  word := by simpa using hword
  master := by simp

theorem State.WellFormed.clusterReset (h : cs.WellFormed) {world : World} {args : List Bytes}
    (ht : cs.clusterReset world args = .ok t) : t.WellFormed := by
  unfold State.clusterReset at ht
  split at ht
  · cases ht
  · rename_i hard _
    by_cases hkeys : 0 < world.keys
    · rw [if_pos hkeys] at ht
      cases ht
    rw [if_neg hkeys] at ht
    split at ht
    · cases ht
    · rename_i me hme
      cases ht
      obtain ⟨hmem, -⟩ := mem_of_find hme
      have hfits := h.fits me hmem
      refine wellFormed_alone ?_ ⟨hfits.port, hfits.cport, ?_⟩
      · split_ifs
        · exact isWord_newReplID _
        · exact h.word me hmem
      · dsimp only
        split_ifs
        · decide
        · exact hfits.configEpoch

theorem addDelSlots_ok {add : Bool} {args : List Bytes} (h : cs.clusterAddDelSlots add args = .ok t) :
    ∃ slots, slotOperands (args.drop 2) = .ok slots ∧ cs.applySlotChange add slots = .ok t := by
  unfold State.clusterAddDelSlots at h
  split_ifs at h
  cases hslots : slotOperands (args.drop 2) with
  | error e => simp [hslots] at h
  | ok slots => exact ⟨slots, rfl, by simpa [hslots] using h⟩

theorem addDelSlotsRange_ok {add : Bool} {args : List Bytes}
    (h : cs.clusterAddDelSlotsRange add args = .ok t) :
    ∃ slots, slotRangeOperands (args.drop 2) = .ok slots ∧ cs.applySlotChange add slots = .ok t := by
  unfold State.clusterAddDelSlotsRange at h
  split_ifs at h
  cases hslots : slotRangeOperands (args.drop 2) with
  | error e => simp [hslots] at h
  | ok slots => exact ⟨slots, rfl, by simpa [hslots] using h⟩

theorem subcommand_cases {world : World} {args : List Bytes}
    (h : cs.clusterSubcommand quote world args = .ok t) :
    (∃ add slots, (add = true → slots = addedSlots args) ∧ cs.applySlotChange add slots = .ok t) ∨
      cs.clusterSetSlot world args = .ok t ∨ cs.clusterMeet quote world args = .ok t ∨
      cs.clusterForget args = .ok t ∨ cs.clusterReplicate world args = .ok t ∨
      cs.clusterReset world args = .ok t ∨ t = cs := by
  unfold State.clusterSubcommand at h
  dsimp only at h
  split_ifs at h with hadd hdel haddRange hdelRange
  · obtain ⟨slots, hslots, h⟩ := addDelSlots_ok h
    exact .inl ⟨true, slots, fun _ => by rw [addedSlots, if_pos hadd, hslots]; rfl, h⟩
  · obtain ⟨slots, -, h⟩ := addDelSlots_ok h
    exact .inl ⟨false, slots, by simp, h⟩
  · obtain ⟨slots, hslots, h⟩ := addDelSlotsRange_ok h
    exact .inl ⟨true, slots, fun _ => by rw [addedSlots, if_neg hadd, if_pos haddRange, hslots]; rfl, h⟩
  · obtain ⟨slots, -, h⟩ := addDelSlotsRange_ok h
    exact .inl ⟨false, slots, by simp, h⟩
  · exact .inr (.inl h)
  · exact .inr (.inr (.inl h))
  · exact .inr (.inr (.inr (.inl h)))
  · exact .inr (.inr (.inr (.inr (.inl h))))
  · exact .inr (.inr (.inr (.inr (.inr (.inl h)))))
  · exact .inr (.inr (.inr (.inr (.inr (.inr (Except.ok.inj h).symm)))))

/-- A step is a command that is not refused, or nothing. -/
theorem step_cases {call : World × List Bytes} (h : cs.step quote call = some t) :
    t = cs ∨ cs.clusterSubcommand quote call.1 call.2 = .ok t := by
  unfold State.step at h
  cases hsub : cs.clusterSubcommand quote call.1 call.2 with
  | error e => simp only [hsub, Option.some.injEq] at h; exact .inl h.symm
  | ok u => simp only [hsub, Option.some.injEq] at h; exact .inr (h ▸ rfl)

theorem State.WellFormed.step (h : cs.WellFormed) {call : World × List Bytes}
    (ht : cs.step quote call = some t) : t.WellFormed := by
  rcases step_cases ht with rfl | hsub
  · exact h
  rcases subcommand_cases hsub with ⟨add, slots, -, ht⟩ | ht | ht | ht | ht | ht | rfl
  · exact h.applySlotChange ht
  · exact h.clusterSetSlot ht
  · exact h.clusterMeet ht
  · exact h.clusterForget ht
  · exact h.clusterReplicate ht
  · exact h.clusterReset ht
  · exact h

theorem wellFormed_enabled {opts : Options} {listeningPort : Bytes} {entropy : Entropy}
    (h : enableCluster opts listeningPort entropy = some cs) : cs.WellFormed := by
  unfold enableCluster at h
  obtain ⟨port, hport, rfl⟩ := Option.map_eq_some_iff.1 h
  have hfits : minInt64 ≤ port ∧ port ≤ maxInt64 := by
    split_ifs at hport
    · exact parseInt64_range hport
    · exact Option.some.inj hport ▸ opts.fits
  have hbus : minInt64 ≤ wrap (port + 10000) ∧ wrap (port + 10000) ≤ maxInt64 := by
    have := wrap_range (port + 10000)
    unfold minInt64 maxInt64
    omega
  exact wellFormed_alone (isWord_newReplID entropy)
    ⟨hfits, hbus, (by decide : minInt64 ≤ 0 ∧ 0 ≤ maxInt64)⟩

/-- From an enabled node on, a restart brings the configuration back exactly when the file can
hold it. -/
theorem config_survives_iff {opts : Options} {listeningPort : Bytes} {entropy : Entropy} {start : State}
    (hstart : enableCluster opts listeningPort entropy = some start)
    (h : Reachable (State.step quote) start cs) : cs.Survives quote ↔ cs.Storable := by
  have hcs : cs.WellFormed := by
    refine Reaches.invariant (fun s c u hs _ hstep => ?_) h (wellFormed_enabled hstart)
    exact hs.step hstep
  exact ⟨fun hback => hback.storable hcs, fun hstorable => hstorable.survives hcs⟩

/-- From an enabled node on, whatever its commands and whatever its peers answer, the node table
is well formed. -/
theorem node_table_wellFormed {opts : Options} {listeningPort : Bytes} {entropy : Entropy}
    {start : State} (hstart : enableCluster opts listeningPort entropy = some start)
    (h : Reachable (State.step quote) start cs) : cs.WellFormed :=
  h.invariant (fun _ _ _ hs _ hstep => hs.step hstep) (wellFormed_enabled hstart)

end Keeping

theorem ownedSlots_unassigned {cs : State} (h : ∀ i, cs.slots i = .unassigned) (n : Node) :
    cs.ownedSlots n = [] := by
  refine List.eq_nil_iff_forall_not_mem.2 fun r hr => ?_
  obtain ⟨hle, hlt⟩ := ownedSlots_bounds r hr
  have howner := (mem_ownedSlots (lt_of_le_of_lt hle hlt)).1 ⟨r, hr, le_rfl, hle⟩
  rw [h] at howner
  cases howner

theorem markers_unassigned {cs : State} (h : ∀ i, cs.slots i = .unassigned) : cs.markers = [] := by
  refine List.flatMap_eq_nil_iff.2 fun i _ => ?_
  rw [h]
  rfl

/-- An address to announce, with a port. -/
def plainOptions : Options := ⟨ascii "10.0.0.1", 7000, by decide⟩

/-- A node with the id `ab` that has just been enabled. -/
def newcomer : State :=
  ⟨ascii "ab", [⟨ascii "ab", ascii "10.0.0.1", 7000, 17000, [], 0, true⟩], fun _ => .unassigned, 0⟩

theorem enable_newcomer : enableCluster plainOptions [] ⟨[0xAB], by decide⟩ = some newcomer := by
  rfl

/-- A node that has just been enabled is brought back. -/
theorem newcomer_survives : newcomer.Survives id := by
  refine (config_survives_iff enable_newcomer .refl).2 ⟨rfl, by decide, by decide, ?_, ?_, ?_⟩
  · simp only [newcomer, List.mem_singleton, forall_eq]
    exact solid_of_graphic (graphic_literal (by decide))
  · simp only [newcomer, List.mem_singleton, forall_eq]
    exact ⟨by decide, by decide, by decide, by decide⟩
  · have hslots : ∀ i, newcomer.slots i = .unassigned := fun _ => rfl
    intro n hn
    obtain rfl := List.mem_singleton.1 hn
    rw [State.nodeLine, ownedSlots_unassigned hslots, markers_unassigned hslots]
    decide +kernel

/-- A command that reaches no peer, on a node without keys. -/
def quietWorld : World := ⟨.error [], ⟨[0], by decide⟩, fun _ => false, 0⟩

theorem newcomer_wellFormed : ∃ cs, Reachable (State.step id) newcomer cs ∧ cs.WellFormed := by
  have hstep : newcomer.step id (quietWorld, [ascii "CLUSTER", ascii "ADDSLOTS", ascii "0"]) = some _ := rfl
  exact ⟨_, .tail _ .refl trivial hstep,
    node_table_wellFormed enable_newcomer (.tail _ .refl trivial hstep)⟩

/-- A node that takes a slot is not brought back: its epoch is lost. -/
theorem addslots_epoch_lost : ∃ start cs, enableCluster plainOptions [] ⟨[0xAB], by decide⟩ = some start ∧
    Reachable (State.step id) start cs ∧ ¬ cs.Survives id := by
  have hstep : newcomer.step id (quietWorld, [ascii "CLUSTER", ascii "ADDSLOTS", ascii "0"]) = some _ := rfl
  refine ⟨newcomer, _, enable_newcomer, .tail _ .refl trivial hstep, fun hback => ?_⟩
  have hzero := (hback.storable ((wellFormed_enabled enable_newcomer).step hstep)).epoch
  exact absurd hzero (by decide)

end ShardKV.Cluster.Config
