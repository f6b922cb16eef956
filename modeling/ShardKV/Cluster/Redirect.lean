import ShardKV.Server.Command

/-! Cluster mode: the slot of a key, and the decision whether this node serves a
command. The decision reads the slot table, the keys that the command was found to
name, which of them are here, and two flags of the session. -/

namespace ShardKV.Cluster

open Data Resp Server

/-- One bit of `makeCRC16Table`. -/
def crcShift (crc : UInt16) : UInt16 :=
  if crc &&& 0x8000 ≠ 0 then (crc <<< 1) ^^^ 0x1021 else crc <<< 1

def crc16Table (i : UInt8) : UInt16 := Nat.iterate crcShift 8 (i.toUInt16 <<< 8)

def crc16 (b : Bytes) : UInt16 :=
  b.foldl (fun crc c => (crc <<< 8) ^^^ crc16Table ((crc >>> 8).toUInt8 ^^^ c)) 0

/-- What of a key is hashed: the text between its first brace and the next closing one,
if there is any, and else the whole key. -/
def hashTag (key : Bytes) : Bytes :=
  match key.dropWhile (· ≠ 0x7b) with
  | [] => key
  | _ :: rest =>
    if 0x7d ∉ rest then key
    else
      match rest.takeWhile (· ≠ 0x7d) with
      | [] => key
      | tag => tag

def keySlot (key : Bytes) : ℕ := (crc16 (hashTag key)).toNat % 16384

structure ClusterNode where
  id : Bytes
  ip : Bytes
  port : ℕ
  replicaOf : Bytes
  deriving DecidableEq

/-- `net.JoinHostPort`. -/
def ClusterNode.addr (n : ClusterNode) : Bytes :=
  (if n.ip.contains 58 then [91] ++ n.ip ++ [93] else n.ip) ++ [58] ++ Decimal.itoa n.port

def ClusterNode.isReplica (n : ClusterNode) : Bool := !n.replicaOf.isEmpty

structure SlotInfo where
  owner : Option ClusterNode
  migrating : Option ClusterNode
  importing : Option ClusterNode
  deriving DecidableEq

/-- The slot map as this node has it. -/
structure ClusterState where
  me : ClusterNode
  slots : ℕ → SlotInfo

/-- What the decision reads of a session. -/
structure Flags where
  asking : Bool
  readReplica : Bool

/-- The refusals. -/
inductive Redirect
  | crossSlot
  | slotUnbound
  | tryAgain
  | ask (slot : ℕ) (node : ClusterNode)
  | moved (slot : ℕ) (node : ClusterNode)
  deriving DecidableEq

def Redirect.text : Redirect → Bytes
  | .crossSlot => ascii "CROSSSLOT Keys in request don't hash to the same slot"
  | .slotUnbound => ascii "CLUSTERDOWN Hash slot not served"
  | .tryAgain => ascii "TRYAGAIN Multiple keys request during rehashing of slot"
  | .ask slot node => ascii "ASK " ++ Decimal.itoa slot ++ [32] ++ node.addr
  | .moved slot node => ascii "MOVED " ++ Decimal.itoa slot ++ [32] ++ node.addr

/-- `clusterRedirect`, on the keys that the command was found to name: `here` is
`Exists`, `write` whether the table has the command as a write. -/
def clusterRedirect (cs : ClusterState) (here : Bytes → Bool) (sess : Flags) (write : Bool)
    (name : Bytes) (keys : List Bytes) : Option Redirect :=
  match keys with
  | [] => none
  | key :: rest =>
    let slot := keySlot key
    if rest.any fun k => keySlot k ≠ slot then some .crossSlot
    else
      let info := cs.slots slot
      let moving := info.migrating.isSome || info.importing.isSome
      if decide (name = ascii "MIGRATE") && moving then none
      else
        match info.owner with
        | none => some .slotUnbound
        | some owner =>
          let missing := if moving then keys.countP fun k => !here k else 0
          let existing := if moving then keys.countP here else 0
          let multipleKeys := decide (1 < keys.length)
          match info.migrating with
          | some target =>
            if owner = cs.me ∧ 0 < missing then
              if multipleKeys ∧ 0 < existing then some .tryAgain else some (.ask slot target)
            else answer cs info sess write slot owner multipleKeys missing
          | none => answer cs info sess write slot owner multipleKeys missing
where
  /-- What is left once the source of a migration has been dealt with. -/
  answer (cs : ClusterState) (info : SlotInfo) (sess : Flags) (write : Bool) (slot : ℕ)
      (owner : ClusterNode) (multipleKeys : Bool) (missing : ℕ) : Option Redirect :=
    if info.importing.isSome && sess.asking then
      if multipleKeys ∧ 0 < missing then some .tryAgain else none
    else if owner = cs.me then none
    else if sess.readReplica && cs.me.isReplica && decide (cs.me.replicaOf = owner.id) && !write then
      none
    else some (.moved slot owner)

variable {cs : ClusterState} {here : Bytes → Bool} {sess : Flags} {write : Bool} {name : Bytes}
  {keys : List Bytes}

/-- The grounds on which a node may serve keys of a slot. -/
inductive Serves (cs : ClusterState) (here : Bytes → Bool) (sess : Flags) (write : Bool)
    (name : Bytes) (slot : ℕ) (keys : List Bytes) : Prop
  | owned (h : (cs.slots slot).owner = some cs.me)
      (hkeys : (cs.slots slot).migrating.isSome → ∀ k ∈ keys, here k = true)
  | migration (h : name = ascii "MIGRATE")
      (hmoving : (cs.slots slot).migrating.isSome ∨ (cs.slots slot).importing.isSome)
  | imported (h : (cs.slots slot).importing.isSome) (hask : sess.asking = true)
  | replica (owner : ClusterNode) (h : (cs.slots slot).owner = some owner)
      (hsess : sess.readReplica = true) (hof : cs.me.replicaOf = owner.id) (hread : write = false)

theorem answer_none {info : SlotInfo} {slot : ℕ} {owner : ClusterNode} {multipleKeys : Bool}
    {missing : ℕ}
    (h : clusterRedirect.answer cs info sess write slot owner multipleKeys missing = none) :
    (info.importing.isSome ∧ sess.asking = true) ∨ owner = cs.me ∨
      (sess.readReplica = true ∧ cs.me.replicaOf = owner.id ∧ write = false) := by
  unfold clusterRedirect.answer at h
  split_ifs at h with himp _ hme hrep
  · exact .inl (by simpa using himp)
  · exact .inr (.inl hme)
  · simp only [Bool.and_eq_true, decide_eq_true_eq, Bool.not_eq_true'] at hrep
    exact .inr (.inr ⟨hrep.1.1.1, hrep.1.2, hrep.2⟩)

theorem clusterRedirect_none (h : clusterRedirect cs here sess write name keys = none) :
    keys = [] ∨ ∃ slot, (∀ k ∈ keys, keySlot k = slot) ∧
      Serves cs here sess write name slot keys := by
  unfold clusterRedirect at h
  cases keys with
  | nil => exact .inl rfl
  | cons key rest =>
    dsimp only at h
    by_cases hcross : (rest.any fun k => decide (keySlot k ≠ keySlot key)) = true
    · rw [if_pos hcross] at h
      exact absurd h (Option.some_ne_none _)
    rw [if_neg hcross] at h
    refine .inr ⟨keySlot key, ?_, ?_⟩
    · intro k hk
      obtain rfl | hk := List.mem_cons.mp hk
      · rfl
      · by_contra hne
        exact hcross (List.any_eq_true.mpr ⟨k, hk, decide_eq_true hne⟩)
    by_cases hmig : (decide (name = ascii "MIGRATE") &&
        ((cs.slots (keySlot key)).migrating.isSome || (cs.slots (keySlot key)).importing.isSome)) = true
    · obtain ⟨hname, hmoving⟩ := Bool.and_eq_true_iff.mp hmig
      exact .migration (of_decide_eq_true hname) (Bool.or_eq_true_iff.mp hmoving)
    rw [if_neg hmig] at h
    cases howner : (cs.slots (keySlot key)).owner with
    | none => simp [howner] at h
    | some owner =>
      rw [howner] at h
      dsimp only at h
      have hanswer {missing : ℕ} (hkeys : owner = cs.me →
          (cs.slots (keySlot key)).migrating.isSome → ∀ k ∈ key :: rest, here k = true)
          (hans : clusterRedirect.answer cs (cs.slots (keySlot key)) sess write (keySlot key) owner
            (decide (1 < (key :: rest).length)) missing = none) :
          Serves cs here sess write name (keySlot key) (key :: rest) := by
        obtain ⟨himp, hask⟩ | hme | ⟨hsess, hof, hread⟩ := answer_none hans
        · exact .imported himp hask
        · exact .owned (hme ▸ howner) (hkeys hme)
        · exact .replica owner howner hsess hof hread
      cases hmigr : (cs.slots (keySlot key)).migrating with
      | none =>
        rw [hmigr] at h
        refine hanswer ?_ h
        intro _ hsome
        rw [hmigr] at hsome
        exact absurd hsome (by simp)
      | some target =>
        rw [hmigr] at h
        simp only [Option.isSome_some, Bool.true_or, ↓reduceIte] at h
        by_cases hmiss : owner = cs.me ∧ 0 < (key :: rest).countP fun k => !here k
        · rw [if_pos hmiss] at h
          split_ifs at h
        · rw [if_neg hmiss] at h
          refine hanswer ?_ h
          intro hme _ k hk
          -- nothing is missing
          have hzero : (key :: rest).countP (fun k => !here k) = 0 := by
            by_contra hpos
            exact hmiss ⟨hme, Nat.pos_of_ne_zero hpos⟩
          simpa using List.countP_eq_zero.mp hzero k hk

end ShardKV.Cluster
