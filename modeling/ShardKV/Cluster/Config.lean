import ShardKV.Bytes.Text
import ShardKV.Server.Operand

/-! The configuration file of a cluster node. The node table is written one line per node, in
the format of CLUSTER NODES, and read back line by line; the slots of a line give their owners.
What is written is read back when every word of a line is one word, every address has the
grammar of `net.SplitHostPort` without brackets, and every line fits the scanner. -/

namespace ShardKV.Cluster.Config

open Decimal Server Text

section File

/-- `clusterNode`. -/
structure Node where
  id : Bytes
  ip : Bytes
  port : ℤ
  cport : ℤ
  replicaOf : Bytes
  configEpoch : ℤ
  myself : Bool
  deriving DecidableEq

def Node.isReplica (n : Node) : Bool := !n.replicaOf.isEmpty

/-- `slotInfo`. -/
structure Slot where
  owner : Option Node
  migrating : Option Node
  importing : Option Node
  deriving DecidableEq

def Slot.unassigned : Slot := ⟨none, none, none⟩

/-- The slot refers to the node. -/
def Slot.Names (s : Slot) (n : Node) : Prop :=
  s.owner = some n ∨ s.migrating = some n ∨ s.importing = some n

def Slot.ownedBy (s : Slot) (n : Option Node) : Slot := { s with owner := n }

def numSlots : ℕ := 16384

/-- `clusterState`: the node map is a list of nodes with different ids. -/
structure State where
  myID : Bytes
  nodes : List Node
  slots : ℕ → Slot
  currentEpoch : ℤ

/-- `newClusterState`. -/
def State.new : State := ⟨[], [], fun _ => .unassigned, 0⟩

def State.find (cs : State) (id : Bytes) : Option Node := cs.nodes.find? (·.id = id)

/-- An assignment to an entry of the node map. -/
def setNode (nodes : List Node) (n : Node) : List Node := nodes.filter (·.id ≠ n.id) ++ [n]

/-- `sortedNodesLocked`: this node first, then by id. -/
def State.sortedNodes (cs : State) : List Node :=
  cs.nodes.mergeSort fun a b => !(if b.myself ≠ a.myself then b.myself else decide (b.id < a.id))

/-- The loop of `ownedSlots`: the slots left, the slot it is at and the start of the open run. -/
def runs (owned : ℕ → Bool) : ℕ → ℕ → Option ℕ → List (ℕ × ℕ)
  | 0, i, some start => [(start, i - 1)]
  | 0, _, none => []
  | k + 1, i, some start =>
    if owned i then runs owned k (i + 1) (some start) else (start, i - 1) :: runs owned k (i + 1) none
  | k + 1, i, none => runs owned k (i + 1) (if owned i then some i else none)

def State.ownedSlots (cs : State) (n : Node) : List (ℕ × ℕ) :=
  runs (fun i => (cs.slots i).owner = some n) numSlots 0 none

def Node.flags (n : Node) : Bytes :=
  (if n.myself then ascii "myself," else []) ++ if n.isReplica then ascii "slave" else ascii "master"

def Node.master (n : Node) : Bytes := if n.replicaOf = [] then ascii "-" else n.replicaOf

def Node.address (n : Node) : Bytes :=
  n.ip ++ ascii ":" ++ formatInt n.port ++ ascii "@" ++ formatInt n.cport

def rangeText (r : ℕ × ℕ) : Bytes := if r.1 = r.2 then itoa r.1 else itoa r.1 ++ ascii "-" ++ itoa r.2

def Slot.markers (s : Slot) (i : ℕ) : List Bytes :=
  (s.migrating.map fun target => ascii "[" ++ itoa i ++ ascii "->-" ++ target.id ++ ascii "]").toList ++
    (s.importing.map fun source => ascii "[" ++ itoa i ++ ascii "-<-" ++ source.id ++ ascii "]").toList

def State.markers (cs : State) : List Bytes :=
  (List.range numSlots).flatMap fun i => (cs.slots i).markers i

/-- `nodeLineLocked`. -/
def State.nodeLine (cs : State) (n : Node) : Bytes :=
  n.id ++ ascii " " ++ n.address ++ ascii " " ++ n.flags ++ ascii " " ++ n.master ++ ascii " 0 0 " ++
    formatInt n.configEpoch ++ ascii " connected" ++
    (cs.ownedSlots n).flatMap (fun r => ascii " " ++ rangeText r) ++
    if n.myself then cs.markers.flatMap (fun marker => ascii " " ++ marker) else []

def State.varsLine (cs : State) : Bytes :=
  ascii "vars currentEpoch " ++ formatInt cs.currentEpoch ++ ascii " lastVoteEpoch 0"

/-- The text that `saveLocked` writes. -/
def State.save (cs : State) : Bytes :=
  cs.sortedNodes.flatMap (fun n => cs.nodeLine n ++ ascii "\n") ++ cs.varsLine ++ ascii "\n"

def contains (text part : Bytes) : Bool := text.tails.any part.isPrefixOf

def splitHostPort (hostport : Bytes) : Option (Bytes × Bytes) :=
  match cutLast 58 hostport with
  | none => none
  | some (front, port) =>
    if hostport.head? = some 91 then
      match cut 93 hostport with
      | none => none
      | some (host, behind) =>
        if host.length + 1 = front.length ∧ 91 ∉ hostport.tail ∧ 93 ∉ behind then some (host.tail, port)
        else none
    else if 58 ∉ front ∧ 91 ∉ hostport ∧ 93 ∉ hostport then some (front, port)
    else none

-- the rendering of `%q`
variable (quote : Bytes → Bytes)

def parseNodeAddr (operand : Bytes) : Except Bytes (Bytes × ℤ × ℤ) :=
  let field := operand.takeWhile (· ≠ 44)
  match cutLast 64 field with
  | none => .error (ascii "malformed node address " ++ quote field)
  | some (front, bus) =>
    match parseInt64 bus with
    | none => .error (ascii "malformed cluster-bus port in " ++ quote field)
    | some cport =>
      match splitHostPort front with
      | none => .error (ascii "malformed node address " ++ quote field)
      | some (host, portText) =>
        match parseInt64 portText with
        | none => .error (ascii "malformed port in " ++ quote field)
        | some port => .ok (host, port, cport)

/-- The two numbers of a slot specification. -/
def rangeBounds (spec : Bytes) : Option (ℤ × ℤ) :=
  match cut 45 spec with
  | some (l, r) => (parseInt64 l).bind fun lo => (parseInt64 r).map fun hi => (lo, hi)
  | none => (parseInt64 spec).map fun lo => (lo, lo)

def parseSlotRange (spec : Bytes) : Except Bytes (ℕ × ℕ) :=
  match rangeBounds spec with
  | none => .error (ascii "malformed slot specification " ++ quote spec)
  | some (lo, hi) =>
    if lo < 0 ∨ numSlots ≤ hi ∨ hi < lo then
      .error (ascii "malformed slot specification " ++ quote spec)
    else .ok (lo.toNat, hi.toNat)

/-- The node of a line, with the rest of its words. -/
def parseNode (line : Bytes) : List Bytes → Except Bytes (Node × List Bytes)
  | id :: addr :: flags :: master :: _ :: _ :: epoch :: _ :: specs =>
    match parseNodeAddr quote addr with
    | .error e => .error e
    | .ok (ip, port, cport) =>
      match parseInt64 epoch with
      | none => .error (ascii "malformed config epoch " ++ quote epoch)
      | some configEpoch =>
        .ok (⟨id, ip, port, cport, if master = ascii "-" then [] else master, configEpoch,
          contains flags (ascii "myself")⟩, specs)
  | _ => .error (ascii "malformed node line " ++ quote line)

/-- The first loop of `loadLocked`. -/
def loadLines : List Bytes → Except Bytes (List (Node × List Bytes))
  | [] => .ok []
  | line :: lines =>
    if words line = [] ∨ (words line).head? = some (ascii "vars") then loadLines lines
    else
      match parseNode quote line (words line) with
      | .error e => .error e
      | .ok parsed => (loadLines lines).map (parsed :: ·)

/-- A run of slots gets an owner. -/
def assign (slots : ℕ → Slot) (n : Node) (r : ℕ × ℕ) (i : ℕ) : Slot :=
  if r.1 ≤ i ∧ i ≤ r.2 then (slots i).ownedBy (some n) else slots i

/-- The slots of one line; migration markers are passed over. -/
def loadSpecs (n : Node) : (ℕ → Slot) → List Bytes → Except Bytes (ℕ → Slot)
  | slots, [] => .ok slots
  | slots, spec :: specs =>
    if spec.head? = some 91 then loadSpecs n slots specs
    else
      match parseSlotRange quote spec with
      | .error e => .error e
      | .ok r => loadSpecs n (assign slots n r) specs

/-- The last loop of `loadLocked`. -/
def loadSlots : (ℕ → Slot) → List (Node × List Bytes) → Except Bytes (ℕ → Slot)
  | slots, [] => .ok slots
  | slots, (n, specs) :: rest =>
    match loadSpecs quote n slots specs with
    | .error e => .error e
    | .ok slots => loadSlots slots rest

/-- `loadLocked`, on the text of the file. -/
def State.load (cs : State) (text : Bytes) : Except Bytes State :=
  match loadLines quote (scanLines text).1 with
  | .error e => .error e
  | .ok parsed =>
    if (scanLines text).2 then .error (ascii "bufio.Scanner: token too long")
    else
      match loadSlots quote (fun _ => .unassigned) parsed with
      | .error e => .error e
      | .ok slots =>
        .ok { cs with
          myID := parsed.foldl (fun id p => if p.1.myself then p.1.id else id) cs.myID
          nodes := parsed.foldl (fun nodes p => setNode nodes p.1) cs.nodes
          slots := slots }

end File

section Runs

variable {owned : ℕ → Bool}

/-- The runs cover the open run and the owned slots from there on. -/
theorem mem_runs (k i : ℕ) {o : Option ℕ} (ho : ∀ s ∈ o, s < i) (j : ℕ) :
    (∃ r ∈ runs owned k i o, r.1 ≤ j ∧ j ≤ r.2) ↔
      (∃ s ∈ o, s ≤ j ∧ j < i) ∨ (i ≤ j ∧ j < i + k ∧ owned j = true) := by
  induction k generalizing i o with
  | zero =>
    cases o with
    | none => simp [runs]; omega
    | some s =>
      have := ho s rfl
      simp [runs]
      omega
  | succ k ih =>
    have hnone := ih (i + 1) (o := none) (by simp)
    cases o with
    | none =>
      have hsome := ih (i + 1) (o := some i) (by simp)
      rw [runs]
      by_cases hi : owned i = true
      · rw [if_pos hi, hsome]
        grind
      · rw [if_neg hi, hnone]
        grind
    | some s =>
      have hs := ho s rfl
      have hsome := ih (i + 1) (o := some s) (by simp; omega)
      rw [runs]
      by_cases hi : owned i = true
      · rw [if_pos hi, hsome]
        grind
      · simp only [if_neg hi, List.mem_cons, exists_eq_or_imp, hnone]
        grind

theorem runs_bounds (k i : ℕ) {o : Option ℕ} (ho : ∀ s ∈ o, s < i) :
    ∀ r ∈ runs owned k i o, r.1 ≤ r.2 ∧ r.2 < i + k := by
  induction k generalizing i o with
  | zero =>
    cases o with
    | none => simp [runs]
    | some s =>
      have := ho s rfl
      simp [runs]
      omega
  | succ k ih =>
    intro r hr
    cases o with
    | none =>
      rw [runs] at hr
      have := ih (i + 1) (o := if owned i then some i else none) (by split_ifs <;> simp) r hr
      omega
    | some s =>
      have hs := ho s rfl
      rw [runs] at hr
      split_ifs at hr
      · have := ih (i + 1) (by simp; omega) r hr
        omega
      · rcases List.mem_cons.1 hr with rfl | hr
        · constructor <;> dsimp only <;> omega
        · have := ih (i + 1) (by simp) r hr
          omega

theorem mem_ownedSlots {cs : State} {n : Node} {i : ℕ} (hi : i < numSlots) :
    (∃ r ∈ cs.ownedSlots n, r.1 ≤ i ∧ i ≤ r.2) ↔ (cs.slots i).owner = some n := by
  rw [State.ownedSlots, mem_runs numSlots 0 (by simp)]
  simp [hi]

theorem ownedSlots_bounds {cs : State} {n : Node} :
    ∀ r ∈ cs.ownedSlots n, r.1 ≤ r.2 ∧ r.2 < numSlots := by
  intro r hr
  simpa using runs_bounds numSlots 0 (by simp) r hr

end Runs

section Address

theorem isGraphic_of_mem_itoa {n : ℕ} {b : UInt8} (h : b ∈ itoa n) : isGraphic b = true := by
  have hdigit := isDigit_of_mem_itoa h
  have hlt : b < 128 := by
    simp only [isDigit, decide_eq_true_eq] at hdigit
    rw [UInt8.lt_iff_toNat_lt]
    rw [UInt8.toNat_sub] at hdigit
    have := b.toNat_lt
    change b.toNat < 128
    change (256 - 48 + b.toNat) % 256 ≤ 9 at hdigit
    omega
  simp [isGraphic, hlt, isBlank_of_isDigit hdigit]

theorem isGraphic_of_mem_formatInt {z : ℤ} {b : UInt8} (h : b ∈ formatInt z) : isGraphic b = true := by
  unfold formatInt at h
  split_ifs at h
  · rcases List.mem_cons.1 h with rfl | h
    · decide
    · exact isGraphic_of_mem_itoa h
  · exact isGraphic_of_mem_itoa h

theorem notMem_formatInt {c : UInt8} (hdigit : isDigit c = false) (hsign : c ≠ 45) (z : ℤ) :
    c ∉ formatInt z := by
  intro h
  unfold formatInt at h
  split_ifs at h
  · rcases List.mem_cons.1 h with h | h
    · exact hsign h
    · simp [isDigit_of_mem_itoa h] at hdigit
  · simp [isDigit_of_mem_itoa h] at hdigit

/-- A host that stands in an address as it is. -/
structure PlainHost (host : Bytes) : Prop where
  comma : 44 ∉ host
  colon : 58 ∉ host
  opening : 91 ∉ host
  closing : 93 ∉ host

theorem splitHostPort_plain {host port : Bytes} (h : PlainHost host) (hport : 58 ∉ port)
    (h91 : 91 ∉ port) (h93 : 93 ∉ port) : splitHostPort (host ++ 58 :: port) = some (host, port) := by
  have hopening : 91 ∉ host ++ 58 :: port := by simpa [h.opening] using h91
  have hclosing : 93 ∉ host ++ 58 :: port := by simpa [h.closing] using h93
  unfold splitHostPort
  rw [cutLast_append hport]
  dsimp only
  rw [if_neg fun hhead => hopening (List.mem_of_head? hhead), if_pos ⟨h.colon, hopening, hclosing⟩]

/-- A host that is found as it stands has no colon and no bracket. -/
theorem plain_of_splitHostPort {host port portText : Bytes} (hport : 58 ∉ port)
    (h : splitHostPort (host ++ 58 :: port) = some (host, portText)) :
    58 ∉ host ∧ 91 ∉ host ∧ 93 ∉ host := by
  unfold splitHostPort at h
  rw [cutLast_append hport] at h
  dsimp only at h
  split_ifs at h with hhead hplain
  · cases hclose : cut 93 (host ++ 58 :: port) with
    | none => simp [hclose] at h
    | some r =>
      -- the brackets around a host are not part of it
      obtain ⟨inner, behind⟩ := r
      simp only [hclose, Option.ite_none_right_eq_some, Option.some.injEq, Prod.mk.injEq] at h
      have hlen := congrArg List.length h.2.1
      simp only [List.length_tail] at hlen
      omega
  · simp only [List.mem_append, not_or] at hplain
    exact ⟨hplain.1, hplain.2.1.1, hplain.2.2.1⟩

theorem splitHostPort_within {hostport host port : Bytes} (h : splitHostPort hostport = some (host, port)) :
    host <:+: hostport ∧ host.length < hostport.length := by
  unfold splitHostPort at h
  cases hlast : cutLast 58 hostport with
  | none => simp [hlast] at h
  | some r =>
    obtain ⟨front, rest⟩ := r
    have hfront := cutLast_eq hlast
    simp only [hlast] at h
    split_ifs at h with hhead
    · cases hclose : cut 93 hostport with
      | none => simp [hclose] at h
      | some r =>
        obtain ⟨inner, behind⟩ := r
        simp only [hclose, Option.ite_none_right_eq_some, Option.some.injEq, Prod.mk.injEq] at h
        obtain ⟨-, rfl, -⟩ := h
        have hinner : inner <:+: hostport := by
          rw [cut_eq hclose]
          exact (List.prefix_append _ _).isInfix
        refine ⟨(List.tail_suffix inner).isInfix.trans hinner, ?_⟩
        rw [cut_eq hclose]
        simp
        omega
    · simp only [Option.some.injEq, Prod.mk.injEq] at h
      obtain ⟨rfl, -⟩ := h
      rw [hfront]
      exact ⟨(List.prefix_append _ _).isInfix, by simp⟩

variable {quote : Bytes → Bytes}

theorem parseNodeAddr_within {field ip : Bytes} {port cport : ℤ}
    (h : parseNodeAddr quote field = .ok (ip, port, cport)) :
    ip <:+: field.takeWhile (· ≠ 44) ∧ ip.length < (field.takeWhile (· ≠ 44)).length := by
  unfold parseNodeAddr at h
  dsimp only at h
  split at h
  · cases h
  · rename_i front bus hat
    split at h
    · cases h
    · split at h
      · cases h
      · rename_i host portText hsplit
        split at h
        · cases h
        · cases h
          obtain ⟨hin, hlen⟩ := splitHostPort_within hsplit
          rw [cutLast_eq hat]
          exact ⟨hin.trans (List.prefix_append _ _).isInfix, by simp; omega⟩

/-- The numbers of a node fit their types. -/
structure Node.Fits (n : Node) : Prop where
  port : minInt64 ≤ n.port ∧ n.port ≤ maxInt64
  cport : minInt64 ≤ n.cport ∧ n.cport ≤ maxInt64
  configEpoch : minInt64 ≤ n.configEpoch ∧ n.configEpoch ≤ maxInt64

theorem takeWhile_address {n : Node} (h : 44 ∉ n.ip) :
    n.address.takeWhile (· ≠ 44) = n.address := by
  refine List.takeWhile_eq_self_iff.2 fun b hb => ?_
  have h44 (z : ℤ) : 44 ∉ formatInt z := notMem_formatInt (by decide) (by decide) z
  have : 44 ∉ n.address := by
    simp only [Node.address, List.mem_append, not_or]
    exact ⟨⟨⟨⟨h, by decide⟩, h44 _⟩, by decide⟩, h44 _⟩
  exact decide_eq_true fun heq : b = 44 => this (heq ▸ hb)

theorem cutLast_address (n : Node) :
    cutLast 64 n.address = some (n.ip ++ 58 :: formatInt n.port, formatInt n.cport) := by
  have := cutLast_append (notMem_formatInt (by decide) (by decide) n.cport : 64 ∉ formatInt n.cport)
    (n.ip ++ 58 :: formatInt n.port)
  rw [← this, Node.address]
  congr 1
  simp [ascii]

theorem parseNodeAddr_address {n : Node} (hfits : n.Fits) (h : PlainHost n.ip) :
    parseNodeAddr quote n.address = .ok (n.ip, n.port, n.cport) := by
  have hnot {c : UInt8} (hdigit : isDigit c = false) (hsign : c ≠ 45) : c ∉ formatInt n.port :=
    notMem_formatInt hdigit hsign n.port
  have hsplit := splitHostPort_plain h (hnot (by decide) (by decide)) (hnot (by decide) (by decide))
    (hnot (by decide) (by decide))
  unfold parseNodeAddr
  simp only [takeWhile_address h.comma, cutLast_address, hsplit,
    parseInt64_formatInt hfits.port.1 hfits.port.2, parseInt64_formatInt hfits.cport.1 hfits.cport.2]

theorem plainHost_of_parseNodeAddr {n : Node} {port cport : ℤ}
    (h : parseNodeAddr quote n.address = .ok (n.ip, port, cport)) : PlainHost n.ip := by
  have hcomma : 44 ∉ n.ip := by
    intro hmem
    -- the address is cut inside the host
    have hlen := (parseNodeAddr_within h).2
    have hcut : n.address.takeWhile (· ≠ 44) = n.ip.takeWhile (· ≠ 44) := by
      obtain ⟨front, back, hip⟩ := List.append_of_mem hmem
      simp [Node.address, hip, List.takeWhile_append]
    rw [hcut] at hlen
    exact absurd (List.takeWhile_prefix (l := n.ip) (p := (· ≠ 44))).length_le (by omega)
  unfold parseNodeAddr at h
  simp only [takeWhile_address hcomma, cutLast_address] at h
  split at h
  · cases h
  · split at h
    · cases h
    · rename_i host portText hsplit
      split at h
      · cases h
      · cases h
        obtain ⟨hcolon, hopening, hclosing⟩ :=
          plain_of_splitHostPort (notMem_formatInt (by decide) (by decide) n.port) hsplit
        exact ⟨hcomma, hcolon, hopening, hclosing⟩

end Address

section Words

theorem isWord_of_graphic {word : Bytes} (hne : word ≠ []) (h : ∀ b ∈ word, isGraphic b = true) :
    IsWord word :=
  ⟨hne, solid_of_graphic h⟩

theorem isWord_formatInt (z : ℤ) : IsWord (formatInt z) :=
  isWord_of_graphic (isField_formatInt z).ne_nil fun _ => isGraphic_of_mem_formatInt

theorem isWord_flags (n : Node) : IsWord n.flags := by
  unfold Node.flags
  refine isWord_of_graphic (by split_ifs <;> simp [ascii]) (List.forall_mem_append.2 ⟨?_, ?_⟩)
  · split_ifs
    exacts [graphic_literal (by decide), by simp]
  · split_ifs <;> exact graphic_literal (by decide)

theorem isWord_address {n : Node} (h : Solid n.ip) : IsWord n.address := by
  have hport : ∀ b ∈ ascii ":" ++ formatInt n.port ++ ascii "@" ++ formatInt n.cport, isGraphic b = true := by
    intro b hb
    simp only [List.mem_append] at hb
    rcases hb with ((hb | hb) | hb) | hb
    · exact graphic_literal (by decide) b hb
    · exact isGraphic_of_mem_formatInt hb
    · exact graphic_literal (by decide) b hb
    · exact isGraphic_of_mem_formatInt hb
  refine ⟨by simp [Node.address, ascii], ?_⟩
  simp only [Node.address, List.append_assoc] at hport ⊢
  exact h.append (solid_of_graphic hport) (.inr ⟨58, rfl, by decide⟩)

theorem isWord_rangeText (r : ℕ × ℕ) : IsWord (rangeText r) := by
  unfold rangeText
  split_ifs
  · exact isWord_of_graphic (itoa_ne_nil _) fun _ => isGraphic_of_mem_itoa
  · refine isWord_of_graphic (by simp [ascii]) fun b hb => ?_
    simp only [List.mem_append] at hb
    rcases hb with (hb | hb) | hb
    · exact isGraphic_of_mem_itoa hb
    · exact graphic_literal (by decide) b hb
    · exact isGraphic_of_mem_itoa hb

theorem isWord_marker {arrow : Bytes} (harrow : ∀ b ∈ arrow, isGraphic b = true)
    (hlast : ∃ b ∈ arrow.getLast?, b < 128) {id : Bytes} (h : IsWord id) (i : ℕ) :
    IsWord (ascii "[" ++ itoa i ++ arrow ++ id ++ ascii "]") := by
  have hne : arrow ≠ [] := by
    rintro rfl
    simp at hlast
  have hfront : Solid (ascii "[" ++ itoa i ++ arrow) := by
    refine solid_of_graphic fun b hb => ?_
    simp only [List.mem_append] at hb
    rcases hb with (hb | hb) | hb
    · exact graphic_literal (by decide) b hb
    · exact isGraphic_of_mem_itoa hb
    · exact harrow b hb
  have hinner : Solid (ascii "[" ++ itoa i ++ arrow ++ id) := by
    refine hfront.append h.solid (.inl ?_)
    rw [List.getLast?_append_of_ne_nil _ hne]
    exact hlast
  exact ⟨by simp [ascii], hinner.append (solid_of_graphic (graphic_literal (by decide))) (.inr ⟨93, rfl, by decide⟩)⟩

/-- The words of a line from the ninth on. -/
def State.specs (cs : State) (n : Node) : List Bytes :=
  (cs.ownedSlots n).map rangeText ++ if n.myself then cs.markers else []

/-- The words of a line behind the id. -/
def State.fields (cs : State) (n : Node) : List Bytes :=
  n.address :: n.flags :: n.master :: ascii "0" :: ascii "0" :: formatInt n.configEpoch ::
    ascii "connected" :: cs.specs n

theorem nodeLine_eq (cs : State) (n : Node) :
    cs.nodeLine n = n.id ++ (cs.fields n).flatMap (32 :: ·) := by
  have hzeros : ascii " 0 0 " = 32 :: ascii "0" ++ 32 :: ascii "0" ++ [32] := by decide
  have hconnected : ascii " connected" = 32 :: ascii "connected" := by decide
  have hspace : ascii " " = [32] := by decide
  unfold State.nodeLine State.fields State.specs
  rw [hzeros, hconnected, hspace]
  split_ifs <;>
    simp only [List.flatMap_cons, List.flatMap_append, List.flatMap_map, List.append_assoc,
      List.cons_append, List.nil_append, List.append_nil]

/-- What holds of every configuration: the ids are different, there is an entry for this node and
it alone is marked, the slots name nodes of the table, and ids and numbers can be written. -/
structure State.WellFormed (cs : State) : Prop where
  distinct : (cs.nodes.map Node.id).Nodup
  own : cs.myID ∈ cs.nodes.map Node.id
  myself : ∀ n ∈ cs.nodes, n.myself = true ↔ n.id = cs.myID
  known : ∀ i n, (cs.slots i).Names n → n ∈ cs.nodes
  fits : ∀ n ∈ cs.nodes, n.Fits
  word : ∀ n ∈ cs.nodes, IsWord n.id
  master : ∀ n ∈ cs.nodes, n.replicaOf = [] ∨ IsWord n.replicaOf

variable {cs : State}

theorem State.WellFormed.isWord_markers (h : cs.WellFormed) : ∀ w ∈ cs.markers, IsWord w := by
  intro w hw
  obtain ⟨i, -, hw⟩ := List.mem_flatMap.1 hw
  rcases List.mem_append.1 hw with hw | hw
  all_goals
    obtain ⟨n, hn, rfl⟩ := Option.map_eq_some_iff.1 (Option.mem_toList.1 hw)
  · exact isWord_marker (graphic_literal (by decide)) ⟨45, rfl, by decide⟩ (h.word n (h.known i n (.inr (.inl hn)))) i
  · exact isWord_marker (graphic_literal (by decide)) ⟨45, rfl, by decide⟩ (h.word n (h.known i n (.inr (.inr hn)))) i

theorem State.WellFormed.isWord_fields (h : cs.WellFormed) {n : Node} (hn : n ∈ cs.nodes)
    (hip : Solid n.ip) : ∀ w ∈ cs.fields n, IsWord w := by
  have hmaster : IsWord n.master := by
    unfold Node.master
    split_ifs with hnil
    · exact isWord_of_graphic (by decide) (graphic_literal (by decide))
    · exact (h.master n hn).resolve_left hnil
  have hspecs : ∀ w ∈ cs.specs n, IsWord w := by
    intro w hw
    rcases List.mem_append.1 hw with hw | hw
    · obtain ⟨r, -, rfl⟩ := List.mem_map.1 hw
      exact isWord_rangeText r
    · split_ifs at hw
      · exact h.isWord_markers w hw
      · cases hw
  have hzero : IsWord (ascii "0") := isWord_of_graphic (by decide) (graphic_literal (by decide))
  have hconnected : IsWord (ascii "connected") := isWord_of_graphic (by decide) (graphic_literal (by decide))
  simp only [State.fields, List.forall_mem_cons]
  exact ⟨isWord_address hip, isWord_flags n, hmaster, hzero, hzero, isWord_formatInt _, hconnected, hspecs⟩

theorem State.WellFormed.words_nodeLine (h : cs.WellFormed) {n : Node} (hn : n ∈ cs.nodes)
    (hip : Solid n.ip) : words (cs.nodeLine n) = n.id :: cs.fields n := by
  rw [nodeLine_eq]
  exact words_join (h.word n hn) (h.isWord_fields hn hip)

theorem State.WellFormed.nodeLine_plain (h : cs.WellFormed) {n : Node} (hn : n ∈ cs.nodes)
    (hip : Solid n.ip) : 10 ∉ cs.nodeLine n ∧ 13 ∉ cs.nodeLine n := by
  have hsolid : ∀ w ∈ cs.fields n, Solid w := fun w hw => (h.isWord_fields hn hip w hw).solid
  rw [nodeLine_eq]
  exact ⟨notMem_join (by decide) (by decide) (h.word n hn).solid hsolid,
    notMem_join (by decide) (by decide) (h.word n hn).solid hsolid⟩

theorem varsLine_plain (cs : State) : 10 ∉ cs.varsLine ∧ 13 ∉ cs.varsLine := by
  have hnot {c : UInt8} (hdigit : isDigit c = false) (hsign : c ≠ 45) :
      c ∉ formatInt cs.currentEpoch := notMem_formatInt hdigit hsign _
  simp only [State.varsLine, List.mem_append, not_or]
  exact ⟨⟨⟨by simp [ascii], hnot (by decide) (by decide)⟩, by simp [ascii]⟩,
    ⟨⟨by simp [ascii], hnot (by decide) (by decide)⟩, by simp [ascii]⟩⟩

theorem head_words_varsLine (cs : State) : (words cs.varsLine).head? = some (ascii "vars") := by
  have hline : cs.varsLine = ascii "vars" ++ 32 :: (ascii "currentEpoch " ++
      formatInt cs.currentEpoch ++ ascii " lastVoteEpoch 0") := by
    simp [State.varsLine, ascii]
  rw [hline, words_cons (isWord_of_graphic (by decide) (graphic_literal (by decide)))]
  rfl

end Words

section Lines

variable {quote : Bytes → Bytes} {cs : State}

theorem contains_flags (n : Node) : contains n.flags (ascii "myself") = n.myself := by
  unfold Node.flags
  cases n.myself <;> cases n.isReplica <;> decide

/-- A line of the file gives its node back, as far as the address does. -/
theorem parseNode_fields {n : Node} (hfits : n.Fits) (hmaster : n.replicaOf ≠ ascii "-") (line : Bytes) :
    parseNode quote line (n.id :: cs.fields n) = (parseNodeAddr quote n.address).map fun a =>
      ({ n with ip := a.1, port := a.2.1, cport := a.2.2 }, cs.specs n) := by
  have hback : (if n.master = ascii "-" then [] else n.master) = n.replicaOf := by
    unfold Node.master
    by_cases hnil : n.replicaOf = []
    · rw [if_pos hnil, if_pos rfl, hnil]
    · rw [if_neg hnil, if_neg hmaster]
  simp only [State.fields, parseNode, parseInt64_formatInt hfits.configEpoch.1 hfits.configEpoch.2, hback,
    contains_flags]
  cases parseNodeAddr quote n.address <;> rfl

theorem loadLines_nodes {nodes : List Node} {parsed : List (Node × List Bytes)}
    (hwords : ∀ n ∈ nodes, words (cs.nodeLine n) = n.id :: cs.fields n ∧ n.id ≠ ascii "vars") :
    loadLines quote (nodes.map cs.nodeLine ++ [cs.varsLine]) = .ok parsed ↔
      List.Forall₂ (fun n p => parseNode quote (cs.nodeLine n) (n.id :: cs.fields n) = .ok p)
        nodes parsed := by
  induction nodes generalizing parsed with
  | nil =>
    rw [List.map_nil, List.nil_append, loadLines, if_pos (.inr (head_words_varsLine cs)), loadLines,
      List.forall₂_nil_left_iff, Except.ok.injEq, eq_comm]
  | cons n nodes ih =>
    obtain ⟨⟨hline, hid⟩, hrest⟩ := List.forall_mem_cons.1 hwords
    rw [List.map_cons, List.cons_append, loadLines, hline, if_neg (by simpa using hid),
      List.forall₂_cons_left_iff]
    cases hparse : parseNode quote (cs.nodeLine n) (n.id :: cs.fields n) with
    | error e => simp
    | ok p =>
      cases hload : loadLines quote (nodes.map cs.nodeLine ++ [cs.varsLine]) with
      | error e =>
        simp only [Except.map, reduceCtorEq, Except.ok.injEq, false_iff, not_exists, not_and]
        rintro _ ps - hps -
        simp [(ih hrest).2 hps] at hload
      | ok ps =>
        simp only [Except.map, Except.ok.injEq]
        constructor
        · rintro rfl
          exact ⟨p, ps, rfl, (ih hrest).1 hload, rfl⟩
        · rintro ⟨_, us, rfl, hus, rfl⟩
          have := (ih hrest).2 hus
          rw [hload, Except.ok.injEq] at this
          rw [this]

theorem of_parseNode {line : Bytes} {fields : List Bytes} {p : Node × List Bytes}
    (hvars : fields.head? ≠ some (ascii "vars")) (hwords : ∀ w ∈ fields, IsWord w)
    (h : parseNode quote line fields = .ok p) :
    p.1.id ≠ ascii "vars" ∧ Solid p.1.ip ∧ p.1.replicaOf ≠ ascii "-" := by
  unfold parseNode at h
  split at h
  · rename_i id addr flags master _ _ epoch _ specs
    split at h
    · cases h
    · rename_i ip port cport haddr
      split at h
      · cases h
      · cases h
        have hip := (parseNodeAddr_within haddr).1.trans (List.takeWhile_prefix _).isInfix
        refine ⟨fun hid => hvars (by rw [List.head?_cons, ← hid]), ?_, ?_⟩
        · exact (hwords addr (by simp)).solid.within hip
        · dsimp only
          split_ifs with hdash
          · decide
          · exact hdash
  · cases h

/-- What a file can give: no id `vars`, no host with white space, and no master `-`. -/
theorem of_mem_loadLines {lines : List Bytes} {parsed : List (Node × List Bytes)}
    (h : loadLines quote lines = .ok parsed) {p : Node × List Bytes} (hp : p ∈ parsed) :
    p.1.id ≠ ascii "vars" ∧ Solid p.1.ip ∧ p.1.replicaOf ≠ ascii "-" := by
  induction lines generalizing parsed with
  | nil =>
    cases h
    cases hp
  | cons line lines ih =>
    rw [loadLines] at h
    split_ifs at h with hskip
    · exact ih h hp
    · cases hparse : parseNode quote line (words line) with
      | error e => simp [hparse] at h
      | ok q =>
        cases hrest : loadLines quote lines with
        | error e => simp [hparse, hrest, Except.map] at h
        | ok qs =>
          simp only [hparse, hrest, Except.map, Except.ok.injEq] at h
          subst h
          rcases List.mem_cons.1 hp with rfl | hp
          · exact of_parseNode (fun heq => hskip (.inr heq)) (fun w hw => isWord_of_mem_words hw) hparse
          · exact ih hrest hp

end Lines

section Slots

variable {quote : Bytes → Bytes} {cs : State}

theorem notMem_rangeText {c : UInt8} (hdigit : isDigit c = false) (hsign : c ≠ 45) (r : ℕ × ℕ) :
    c ∉ rangeText r := by
  have hnot (n : ℕ) : c ∉ itoa n := fun h => by simp [isDigit_of_mem_itoa h] at hdigit
  unfold rangeText
  split_ifs
  · exact hnot _
  · simp only [List.mem_append, not_or]
    exact ⟨⟨hnot _, by simpa [ascii] using hsign⟩, hnot _⟩

theorem parseSlotRange_rangeText {r : ℕ × ℕ} (hle : r.1 ≤ r.2) (hlt : r.2 < numSlots) :
    parseSlotRange quote (rangeText r) = .ok r := by
  have hdash (n : ℕ) : 45 ∉ itoa n := fun h => absurd (isDigit_of_mem_itoa h) (by decide)
  have hparse {n : ℕ} (hn : n < numSlots) : parseInt64 (itoa n) = some (n : ℤ) :=
    parseInt64_itoa (by unfold numSlots at hn; omega)
  have hbounds : rangeBounds (rangeText r) = some (↑r.1, ↑r.2) := by
    unfold rangeBounds rangeText
    split_ifs with heq
    · rw [cut_none (hdash _), ← heq, hparse (by omega)]
      rfl
    · have hcut := cut_append (hdash r.1) (itoa r.2)
      have happ : itoa r.1 ++ ascii "-" ++ itoa r.2 = itoa r.1 ++ 45 :: itoa r.2 := by simp [ascii]
      rw [happ, hcut]
      simp [hparse (by omega : r.1 < numSlots), hparse hlt]
  unfold parseSlotRange
  rw [hbounds]
  simp only
  rw [if_neg (by omega)]
  simp

theorem loadSpecs_ranges {n : Node} {ranges : List (ℕ × ℕ)}
    (h : ∀ r ∈ ranges, r.1 ≤ r.2 ∧ r.2 < numSlots) (slots : ℕ → Slot) (rest : List Bytes) :
    loadSpecs quote n slots (ranges.map rangeText ++ rest) =
      loadSpecs quote n (ranges.foldl (fun slots r => assign slots n r) slots) rest := by
  induction ranges generalizing slots with
  | nil => rfl
  | cons r ranges ih =>
    obtain ⟨hr, hranges⟩ := List.forall_mem_cons.1 h
    have hhead : (rangeText r).head? ≠ some 91 := fun hhead =>
      notMem_rangeText (by decide) (by decide) r (List.mem_of_head? hhead)
    rw [List.map_cons, List.cons_append, loadSpecs, if_neg hhead, parseSlotRange_rangeText hr.1 hr.2,
      List.foldl_cons]
    exact ih hranges _

theorem loadSpecs_markers (n : Node) (slots : ℕ → Slot) {specs : List Bytes}
    (h : ∀ w ∈ specs, w.head? = some 91) : loadSpecs quote n slots specs = .ok slots := by
  induction specs with
  | nil => rfl
  | cons spec specs ih =>
    obtain ⟨hspec, hspecs⟩ := List.forall_mem_cons.1 h
    rw [loadSpecs, if_pos hspec, ih hspecs]

theorem head_marker (cs : State) : ∀ w ∈ cs.markers, w.head? = some 91 := by
  intro w hw
  obtain ⟨i, -, hw⟩ := List.mem_flatMap.1 hw
  rcases List.mem_append.1 hw with hw | hw
  all_goals
    obtain ⟨n, -, rfl⟩ := Option.map_eq_some_iff.1 (Option.mem_toList.1 hw)
    rfl

theorem foldl_assign (n : Node) (ranges : List (ℕ × ℕ)) (slots : ℕ → Slot) (i : ℕ) :
    ranges.foldl (fun slots r => assign slots n r) slots i =
      if ∃ r ∈ ranges, r.1 ≤ i ∧ i ≤ r.2 then (slots i).ownedBy (some n) else slots i := by
  induction ranges generalizing slots with
  | nil => simp
  | cons r ranges ih =>
    rw [List.foldl_cons, ih]
    simp only [assign, List.mem_cons, exists_eq_or_imp]
    by_cases hr : r.1 ≤ i ∧ i ≤ r.2
    · rw [if_pos hr, if_pos (Or.inl hr), Slot.ownedBy, Slot.ownedBy, ite_self]
    · rw [if_neg hr]
      simp only [hr, false_or]

/-- The slots of a line are those that the node owns. -/
theorem loadSpecs_specs (quote : Bytes → Bytes) (cs : State) (n : Node) (slots : ℕ → Slot) :
    ∃ slots', loadSpecs quote n slots (cs.specs n) = .ok slots' ∧ ∀ i < numSlots, slots' i =
      if (cs.slots i).owner = some n then (slots i).ownedBy (some n) else slots i := by
  refine ⟨(cs.ownedSlots n).foldl (fun slots r => assign slots n r) slots, ?_, fun i hi => ?_⟩
  · rw [State.specs, loadSpecs_ranges ownedSlots_bounds]
    refine loadSpecs_markers n _ fun w hw => ?_
    split_ifs at hw
    · exact head_marker cs w hw
    · cases hw
  · rw [foldl_assign]
    exact if_congr (mem_ownedSlots hi) rfl rfl

theorem loadSlots_nodes (quote : Bytes → Bytes) (cs : State) (nodes : List Node) (slots : ℕ → Slot) :
    ∃ slots', loadSlots quote slots (nodes.map fun n => (n, cs.specs n)) = .ok slots' ∧
      ∀ i < numSlots, slots' i = if ∃ n ∈ nodes, (cs.slots i).owner = some n then
        (slots i).ownedBy (cs.slots i).owner else slots i := by
  induction nodes generalizing slots with
  | nil => exact ⟨slots, rfl, by simp⟩
  | cons n nodes ih =>
    obtain ⟨slots₁, hspecs, h₁⟩ := loadSpecs_specs quote cs n slots
    obtain ⟨slots₂, hrest, h₂⟩ := ih slots₁
    refine ⟨slots₂, ?_, fun i hi => ?_⟩
    · rw [List.map_cons, loadSlots, hspecs]
      exact hrest
    · rw [h₂ i hi, h₁ i hi]
      simp only [List.mem_cons, exists_eq_or_imp]
      by_cases hn : (cs.slots i).owner = some n
      · simp [hn, Slot.ownedBy]
      · simp [hn]

end Slots

variable {quote : Bytes → Bytes} {cs : State}

theorem find_of_mem {nodes : List Node} (h : (nodes.map Node.id).Nodup) {n : Node} (hn : n ∈ nodes) :
    nodes.find? (·.id = n.id) = some n := by
  induction nodes with
  | nil => cases hn
  | cons m nodes ih =>
    rw [List.map_cons, List.nodup_cons] at h
    rcases List.mem_cons.1 hn with rfl | hn
    · simp
    · have hne : m.id ≠ n.id := fun heq => h.1 (heq ▸ List.mem_map_of_mem hn)
      rw [List.find?_cons_of_neg (by simpa using hne)]
      exact ih h.2 hn

theorem find_perm {nodes nodes' : List Node} (h : (nodes.map Node.id).Nodup) (hperm : nodes'.Perm nodes)
    (id : Bytes) : nodes'.find? (·.id = id) = nodes.find? (·.id = id) := by
  have h' : (nodes'.map Node.id).Nodup := (hperm.map Node.id).nodup_iff.2 h
  cases hfind : nodes.find? (·.id = id) with
  | none =>
    rw [List.find?_eq_none] at hfind ⊢
    exact fun n hn => hfind n (hperm.mem_iff.1 hn)
  | some n =>
    have hid : n.id = id := by simpa using List.find?_some hfind
    rw [← hid]
    exact find_of_mem h' (hperm.mem_iff.2 (List.mem_of_find?_eq_some hfind))

theorem foldl_setNode {nodes front : List Node} (h : ((front ++ nodes).map Node.id).Nodup) :
    nodes.foldl setNode front = front ++ nodes := by
  induction nodes generalizing front with
  | nil => simp
  | cons n nodes ih =>
    have hset : setNode front n = front ++ [n] := by
      rw [setNode, List.filter_eq_self.2]
      intro m hm
      rw [List.map_append, List.map_cons] at h
      have := List.disjoint_of_nodup_append h (List.mem_map_of_mem hm)
      exact decide_eq_true fun heq => this (heq ▸ List.mem_cons_self)
    rw [List.foldl_cons, hset, ih (by simpa using h)]
    simp

theorem mem_foldl_setNode {nodes front : List Node} {n : Node} (h : n ∈ nodes.foldl setNode front) :
    n ∈ front ∨ n ∈ nodes := by
  induction nodes generalizing front with
  | nil => exact .inl h
  | cons m nodes ih =>
    rcases ih h with h | h
    · rcases List.mem_append.1 h with h | h
      · exact .inl (List.mem_of_mem_filter h)
      · exact .inr (List.mem_cons.2 (.inl (List.mem_singleton.1 h)))
    · exact .inr (List.mem_cons_of_mem m h)

theorem foldl_myself {nodes : List Node} {id own : Bytes} (h : ∀ n ∈ nodes, n.myself = true → n.id = own)
    (hown : id = own ∨ ∃ n ∈ nodes, n.myself = true) :
    nodes.foldl (fun id n => if n.myself then n.id else id) id = own := by
  induction nodes generalizing id with
  | nil => simpa using hown
  | cons n nodes ih =>
    obtain ⟨hn, hnodes⟩ := List.forall_mem_cons.1 h
    rw [List.foldl_cons]
    refine ih hnodes ?_
    cases hmy : n.myself with
    | true => exact .inl (by simpa using hn hmy)
    | false => simpa [hmy] using hown

/-- What a restart is to bring back. Migration markers are not kept. -/
structure Restored (cs t : State) : Prop where
  myID : t.myID = cs.myID
  nodes : ∀ id, t.find id = cs.find id
  slots : ∀ i < numSlots, t.slots i = ⟨(cs.slots i).owner, none, none⟩
  epoch : t.currentEpoch = cs.currentEpoch

/-- The file that is written is read into a new state, and brings everything back. -/
def State.Survives (quote : Bytes → Bytes) (cs : State) : Prop :=
  ∃ t, State.new.load quote cs.save = .ok t ∧ Restored cs t

/-- What the file can hold: no epoch but zero, no node with the id `vars` or the master `-`,
hosts without white space, commas, colons and brackets, and lines that fit the scanner. -/
structure State.Storable (cs : State) : Prop where
  epoch : cs.currentEpoch = 0
  ids : ∀ n ∈ cs.nodes, n.id ≠ ascii "vars"
  masters : ∀ n ∈ cs.nodes, n.replicaOf ≠ ascii "-"
  solid : ∀ n ∈ cs.nodes, Solid n.ip
  plain : ∀ n ∈ cs.nodes, PlainHost n.ip
  lines : ∀ n ∈ cs.nodes, (cs.nodeLine n).length < maxScanTokenSize

theorem sortedNodes_perm (cs : State) : cs.sortedNodes.Perm cs.nodes := List.mergeSort_perm _ _

theorem mem_sortedNodes {n : Node} : n ∈ cs.sortedNodes ↔ n ∈ cs.nodes := (sortedNodes_perm cs).mem_iff

theorem save_eq (cs : State) :
    cs.save = (cs.sortedNodes.map cs.nodeLine ++ [cs.varsLine]).flatMap (· ++ [10]) := by
  have hnewline : ascii "\n" = [10] := by decide
  rw [State.save, hnewline, List.flatMap_append, List.flatMap_map, List.flatMap_singleton, List.append_assoc]

theorem State.WellFormed.lines_plain (h : cs.WellFormed) (hsolid : ∀ n ∈ cs.nodes, Solid n.ip) :
    ∀ l ∈ cs.sortedNodes.map cs.nodeLine ++ [cs.varsLine], 10 ∉ l ∧ 13 ∉ l := by
  intro l hl
  rcases List.mem_append.1 hl with hl | hl
  · obtain ⟨n, hn, rfl⟩ := List.mem_map.1 hl
    have hn := mem_sortedNodes.1 hn
    exact h.nodeLine_plain hn (hsolid n hn)
  · obtain rfl := List.mem_singleton.1 hl
    exact varsLine_plain cs

theorem State.WellFormed.words_sorted (h : cs.WellFormed) (hsolid : ∀ n ∈ cs.nodes, Solid n.ip)
    (hids : ∀ n ∈ cs.nodes, n.id ≠ ascii "vars") : ∀ n ∈ cs.sortedNodes,
      words (cs.nodeLine n) = n.id :: cs.fields n ∧ n.id ≠ ascii "vars" := by
  intro n hn
  have hn := mem_sortedNodes.1 hn
  exact ⟨h.words_nodeLine hn (hsolid n hn), hids n hn⟩

/-- A configuration that the file can hold is brought back. -/
theorem State.Storable.survives (h : cs.Storable) (hcs : cs.WellFormed) : cs.Survives quote := by
  have hvars : cs.varsLine.length < maxScanTokenSize := by
    rw [State.varsLine, h.epoch]
    decide +kernel
  have hfit : ∀ l ∈ cs.sortedNodes.map cs.nodeLine ++ [cs.varsLine], l.length < maxScanTokenSize := by
    intro l hl
    rcases List.mem_append.1 hl with hl | hl
    · obtain ⟨n, hn, rfl⟩ := List.mem_map.1 hl
      exact h.lines n (mem_sortedNodes.1 hn)
    · exact List.mem_singleton.1 hl ▸ hvars
  have hscan : scanLines cs.save = (cs.sortedNodes.map cs.nodeLine ++ [cs.varsLine], false) := by
    rw [save_eq]
    exact ((scanLines_lines (hcs.lines_plain h.solid)).resolve_right fun hlong => hlong.2 hfit).1
  have hparsed : loadLines quote (cs.sortedNodes.map cs.nodeLine ++ [cs.varsLine]) =
      .ok (cs.sortedNodes.map fun n => (n, cs.specs n)) := by
    refine (loadLines_nodes (hcs.words_sorted h.solid h.ids)).2 (List.forall₂_map_right_iff.2 ?_)
    refine List.forall₂_same.2 fun n hn => ?_
    have hn := mem_sortedNodes.1 hn
    rw [parseNode_fields (hcs.fits n hn) (h.masters n hn),
      parseNodeAddr_address (hcs.fits n hn) (h.plain n hn)]
    rfl
  obtain ⟨slots, hslots, howner⟩ := loadSlots_nodes quote cs cs.sortedNodes fun _ => .unassigned
  have hnodup : (cs.sortedNodes.map Node.id).Nodup :=
    ((sortedNodes_perm cs).map Node.id).nodup_iff.2 hcs.distinct
  refine ⟨⟨cs.myID, cs.sortedNodes, slots, 0⟩, ?_, ?_⟩
  · have hnodes : cs.sortedNodes.foldl setNode [] = cs.sortedNodes := foldl_setNode hnodup
    have hmyID : cs.sortedNodes.foldl (fun id n => if n.myself then n.id else id) [] = cs.myID := by
      refine foldl_myself (fun n hn => (hcs.myself n (mem_sortedNodes.1 hn)).1) (.inr ?_)
      obtain ⟨me, hme, hid⟩ := List.mem_map.1 hcs.own
      exact ⟨me, mem_sortedNodes.2 hme, (hcs.myself me hme).2 hid⟩
    unfold State.load
    simp only [hscan, hparsed, hslots, List.foldl_map, State.new, hnodes, hmyID, Bool.false_eq_true,
      if_false]
  · refine ⟨rfl, fun id => find_perm hcs.distinct (sortedNodes_perm cs) id, fun i hi => ?_, h.epoch.symm⟩
    change slots i = _
    rw [howner i hi]
    cases hown : (cs.slots i).owner with
    | none => simp [Slot.unassigned]
    | some n =>
      have hn : n ∈ cs.sortedNodes := mem_sortedNodes.2 (hcs.known i n (.inl hown))
      rw [if_pos ⟨n, hn, rfl⟩]
      rfl

/-- The nodes of a file, each with the address that was read. -/
theorem parsed_nodes {nodes : List Node} {parsed : List (Node × List Bytes)}
    (hnodes : ∀ n ∈ nodes, n.Fits ∧ n.replicaOf ≠ ascii "-")
    (h : List.Forall₂ (fun n p => parseNode quote (cs.nodeLine n) (n.id :: cs.fields n) = .ok p)
      nodes parsed) :
    (parsed.map Prod.fst).map Node.id = nodes.map Node.id ∧ ∀ n ∈ nodes, ∃ m ∈ parsed.map Prod.fst,
      m.id = n.id ∧ parseNodeAddr quote n.address = .ok (m.ip, m.port, m.cport) := by
  induction h with
  | nil => simp
  | @cons n p nodes parsed hp _ ih =>
    obtain ⟨⟨hfits, hmaster⟩, hrest⟩ := List.forall_mem_cons.1 hnodes
    obtain ⟨hids, hmem⟩ := ih hrest
    rw [parseNode_fields hfits hmaster] at hp
    cases haddr : parseNodeAddr quote n.address with
    | error e => simp [haddr, Except.map] at hp
    | ok a =>
      simp only [haddr, Except.map, Except.ok.injEq] at hp
      subst hp
      refine ⟨by simp [hids], fun m hm => ?_⟩
      rcases List.mem_cons.1 hm with rfl | hm
      · exact ⟨_, List.mem_cons_self, rfl, haddr⟩
      · obtain ⟨m', hm', hid, haddr'⟩ := hmem m hm
        exact ⟨m', List.mem_cons_of_mem _ hm', hid, haddr'⟩

/-- What is brought back, the file could hold. -/
theorem State.Survives.storable (h : cs.Survives quote) (hcs : cs.WellFormed) : cs.Storable := by
  obtain ⟨t, hload, hback⟩ := h
  unfold State.load at hload
  cases hparsed : loadLines quote (scanLines cs.save).1 with
  | error e => simp [hparsed] at hload
  | ok parsed =>
    simp only [hparsed] at hload
    split_ifs at hload with hlong
    cases hslots : loadSlots quote (fun _ => .unassigned) parsed with
    | error e => simp [hslots] at hload
    | ok slots =>
      simp only [hslots, Except.ok.injEq] at hload
      have hnodes : t.nodes = (parsed.map Prod.fst).foldl setNode [] := by
        rw [← hload, List.foldl_map]
        rfl
      -- every node is one that the file gave
      have hfound : ∀ n ∈ cs.nodes, t.find n.id = some n := fun n hn => by
        rw [hback.nodes, State.find, find_of_mem hcs.distinct hn]
      have hgiven : ∀ n ∈ cs.nodes, n.id ≠ ascii "vars" ∧ Solid n.ip ∧ n.replicaOf ≠ ascii "-" := by
        intro n hn
        have hmem := List.mem_of_find?_eq_some (hfound n hn)
        rw [hnodes] at hmem
        obtain ⟨p, hp, rfl⟩ := List.mem_map.1 ((mem_foldl_setNode hmem).resolve_left (by simp))
        exact of_mem_loadLines hparsed hp
      have hsolid : ∀ n ∈ cs.nodes, Solid n.ip := fun n hn => (hgiven n hn).2.1
      -- so the lines are those of the nodes
      obtain ⟨hscan, hfit⟩ := (scanLines_lines (hcs.lines_plain hsolid)).resolve_right fun h => by
        rw [← save_eq] at h
        exact hlong h.1
      rw [← save_eq] at hscan
      rw [hscan] at hparsed
      have hall := (loadLines_nodes (hcs.words_sorted hsolid fun n hn => (hgiven n hn).1)).1 hparsed
      obtain ⟨hids, hread⟩ := parsed_nodes (fun n hn =>
        ⟨hcs.fits n (mem_sortedNodes.1 hn), (hgiven n (mem_sortedNodes.1 hn)).2.2⟩) hall
      have hnodup : ((parsed.map Prod.fst).map Node.id).Nodup :=
        hids ▸ ((sortedNodes_perm cs).map Node.id).nodup_iff.2 hcs.distinct
      have htable : t.nodes = parsed.map Prod.fst := hnodes.trans (foldl_setNode hnodup)
      refine ⟨?_, fun n hn => (hgiven n hn).1, fun n hn => (hgiven n hn).2.2, hsolid, fun n hn => ?_,
        fun n hn => ?_⟩
      · rw [← hback.epoch, ← hload]
        rfl
      · obtain ⟨m, hm, hid, haddr⟩ := hread n (mem_sortedNodes.2 hn)
        have hfind := find_of_mem hnodup hm
        rw [hid, ← htable] at hfind
        obtain rfl : m = n := Option.some.inj (hfind.symm.trans (hfound n hn))
        exact plainHost_of_parseNodeAddr haddr
      · exact hfit _ (List.mem_append_left _ (List.mem_map_of_mem (mem_sortedNodes.2 hn)))

end ShardKV.Cluster.Config
