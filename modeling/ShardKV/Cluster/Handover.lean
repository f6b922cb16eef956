import ShardKV.Cluster.Routing

/-! Handing a slot to another node. CLUSTER SETSLOT NODE looks through the shards for a
key of the slot and, having found none, replaces the entry of the slot table. A client
command passes the gate first and runs its handler later. Nothing orders the two: a
write that has passed the gate may land after the look. -/

namespace ShardKV.Cluster

open Access Data Resp Server Commands Prog

variable {S : Type} [Numeric S]

/-- The key is live. Cluster mode has the one database. -/
def Holds (now : Instant) (s : Dataset S) (key : Bytes) : Prop :=
  seen (live now) s (0, key) ≠ none

/-- A command of a client: what the gate knows of it, and its handler. A key that it
brings into being is one that the gate saw, and the command is a write other than
MIGRATE. -/
structure Call (S : Type) [Numeric S] where
  name : Bytes
  write : Bool
  keys : List Bytes
  program : Env → Op S Outcome
  creates : ∀ (env : Env) (s : Dataset S) (key : Bytes), ¬ Holds env.now s key →
    Holds env.now ((program env).run (live env.now) s).2 key →
      write = true ∧ name ≠ ascii "MIGRATE" ∧ key ∈ keys

/-- How keys are spread over shards. -/
structure Sharding where
  count : ℕ
  shard : Bytes → ℕ
  lt : ∀ key, shard key < count

/-- A SETSLOT NODE that holds the cluster lock: its slot and target, the clock reading
of its look, and the shard it looks at next. -/
structure Handing where
  slot : ℕ
  target : ClusterNode
  clock : Instant
  next : ℕ

structure Node (S : Type) [Numeric S] where
  now : Instant
  table : ClusterState
  data : Dataset S
  flying : List (Call S)
  handing : Option Handing

inductive Event (S : Type) [Numeric S]
  | gate (call : Call S) (sess : Flags)
  | run (i : ℕ) (env : Env)
  | start (slot : ℕ) (target : ClusterNode)
  | look
  | swap
  | tick (t : Instant)

/-- The entry that SETSLOT NODE writes. -/
def ClusterState.assign (cs : ClusterState) (slot : ℕ) (target : ClusterNode) : ClusterState :=
  { cs with slots := Function.update cs.slots slot ⟨some target, none, none⟩ }

/-- `keysInSlot` finds something in the shard. -/
def Found (sh : Sharding) (n : Node S) (h : Handing) : Prop :=
  ∃ key, keySlot key = h.slot ∧ sh.shard key = h.next ∧ Holds h.clock n.data key

open Classical in
/-- One step of the node. A refused command leaves nothing behind; neither does a
SETSLOT that found a key. -/
noncomputable def Node.step (sh : Sharding) (n : Node S) : Event S → Option (Node S)
  | .gate call sess =>
    if clusterRedirect n.table (fun key => (seen (live n.now) n.data (0, key)).isSome) sess
        call.write call.name call.keys = none then
      some { n with flying := n.flying ++ [call] }
    else none
  | .run i env =>
    if env.now = n.now then
      n.flying[i]?.map fun call =>
        { n with data := ((call.program env).run (live n.now) n.data).2, flying := n.flying.eraseIdx i }
    else none
  | .start slot target =>
    if n.handing.isNone ∧ (n.table.slots slot).owner = some n.table.me ∧ target ≠ n.table.me then
      some { n with handing := some ⟨slot, target, n.now, 0⟩ }
    else none
  | .look =>
    n.handing.bind fun h =>
      if sh.count ≤ h.next then none
      else if Found sh n h then some { n with handing := none }
      else some { n with handing := some { h with next := h.next + 1 } }
  | .swap =>
    n.handing.bind fun h =>
      if h.next < sh.count then none
      else some { n with table := n.table.assign h.slot h.target, handing := none }
  | .tick t => if n.now ≤ t then some { n with now := t } else none

/-- The slot is this node's, or on its way here. -/
def ClusterState.keeps (cs : ClusterState) (slot : ℕ) : Prop :=
  (cs.slots slot).owner = some cs.me ∨ (cs.slots slot).importing ≠ none

/-- Nothing is half done, and a key is live whose slot is neither here nor coming. -/
def Node.Stranded (n : Node S) : Prop :=
  n.flying = [] ∧ n.handing = none ∧ ∃ key, Holds n.now n.data key ∧ ¬ n.table.keeps (keySlot key)

/-- Nothing is half done, and every live key is in a slot of this node. -/
structure Node.Settled (n : Node S) : Prop where
  flying : n.flying = []
  handing : n.handing = none
  kept : ∀ key, Holds n.now n.data key → n.table.keeps (keySlot key)

/-- The call is a write that names a key of the slot. -/
def Call.writesTo (call : Call S) (slot : ℕ) : Prop :=
  call.write = true ∧ ∃ key ∈ call.keys, keySlot key = slot

/-- No write to the slot is between its gate and its handler when a SETSLOT for the slot
starts, and none passes the gate until the SETSLOT is done. -/
def Undisturbed (n : Node S) : Event S → Prop
  | .start slot _ => ∀ call ∈ n.flying, ¬ call.writesTo slot
  | .gate call _ => ∀ h, n.handing = some h → ¬ call.writesTo h.slot
  | _ => True

section Invariant

/-- The call may bring keys into being. -/
def Call.creator (call : Call S) : Prop := call.write = true ∧ call.name ≠ ascii "MIGRATE"

/-- What a SETSLOT in progress can rely on: no creator for its slot is under way, and
the keys of its slot are in shards that it has yet to look at. -/
structure Cleared (sh : Sharding) (n : Node S) (h : Handing) : Prop where
  clock : h.clock ≤ n.now
  flying : ∀ call ∈ n.flying, call.creator → ∀ key ∈ call.keys, keySlot key ≠ h.slot
  ahead : ∀ key, Holds n.now n.data key → keySlot key = h.slot → h.next ≤ sh.shard key

structure Inv (sh : Sharding) (n : Node S) : Prop where
  kept : ∀ key, Holds n.now n.data key → n.table.keeps (keySlot key)
  flying : ∀ call ∈ n.flying, call.creator → ∀ key ∈ call.keys, n.table.keeps (keySlot key)
  handing : ∀ h, n.handing = some h → Cleared sh n h

variable {sh : Sharding} {n t : Node S}

theorem Node.Settled.inv (h : n.Settled) : Inv sh n where
  kept := h.kept
  flying := by
    rw [h.flying]
    exact fun _ hc => absurd hc List.not_mem_nil
  handing := by
    rw [h.handing]
    exact fun _ hc => absurd hc (by simp)

theorem Holds.earlier {now later : Instant} {s : Dataset S} {key : Bytes} (hle : now ≤ later)
    (h : Holds later s key) : Holds now s key := by
  intro hnone
  apply h
  cases he : s (0, key) with
  | none => simp [seen, he]
  | some e =>
    have hdead : live now e = false := by simpa [seen, he, Option.filter] using hnone
    have hlater : live later e = false := by
      by_contra hlive
      exact absurd (live_mono hle e (by simpa using hlive)) (by simp [hdead])
    simp [seen, he, Option.filter, hlater]

/-- A creator that the gate lets through is for slots that the node keeps. -/
theorem keeps_of_gate {cs : ClusterState} {here : Bytes → Bool} {sess : Flags} {call : Call S}
    (h : clusterRedirect cs here sess call.write call.name call.keys = none) (hc : call.creator) :
    ∀ key ∈ call.keys, cs.keeps (keySlot key) := by
  intro key hkey
  obtain hnil | ⟨slot, hslot, hserves⟩ := clusterRedirect_none h
  · exact absurd hkey (hnil ▸ List.not_mem_nil)
  rw [hslot key hkey]
  cases hserves with
  | owned howner _ => exact .inl howner
  | migration hname _ => exact absurd hname hc.2
  | imported himp _ => exact .inr (Option.isSome_iff_ne_none.mp himp)
  | replica _ _ _ _ hread => exact absurd (hread.symm.trans hc.1) Bool.false_ne_true

theorem keeps_assign {cs : ClusterState} {slot other : ℕ} {target : ClusterNode} (hne : other ≠ slot) :
    (cs.assign slot target).keeps other ↔ cs.keeps other := by
  simp only [ClusterState.keeps, ClusterState.assign, Function.update_of_ne hne]

theorem Inv.gate (h : Inv sh n) {call : Call S} {here : Bytes → Bool} {sess : Flags}
    (hgate : clusterRedirect n.table here sess call.write call.name call.keys = none)
    (hok : ∀ g, n.handing = some g → ¬ call.writesTo g.slot) :
    Inv sh { n with flying := n.flying ++ [call] } where
  kept := h.kept
  flying := by
    intro c hc hcreator
    obtain hc | hc := List.mem_append.mp hc
    · exact h.flying c hc hcreator
    · obtain rfl := List.mem_singleton.mp hc
      exact keeps_of_gate hgate hcreator
  handing := by
    intro g hg
    have hold := h.handing g hg
    refine ⟨hold.clock, ?_, hold.ahead⟩
    intro c hc hcreator key hkey hslot
    obtain hc | hc := List.mem_append.mp hc
    · exact hold.flying c hc hcreator key hkey hslot
    · obtain rfl := List.mem_singleton.mp hc
      exact hok g hg ⟨hcreator.1, key, hkey, hslot⟩

theorem Inv.run (h : Inv sh n) {i : ℕ} {call : Call S} {env : Env} (hcall : n.flying[i]? = some call)
    (hnow : env.now = n.now) :
    Inv sh { n with
      data := ((call.program env).run (live n.now) n.data).2, flying := n.flying.eraseIdx i } := by
  have hmem : call ∈ n.flying := List.mem_of_getElem? hcall
  -- a key that is live now was live before, or a creator brought it
  have hfrom (key : Bytes) (hk : Holds n.now ((call.program env).run (live n.now) n.data).2 key) :
      Holds n.now n.data key ∨ call.creator ∧ key ∈ call.keys := by
    by_cases hold : Holds n.now n.data key
    · exact .inl hold
    · rw [← hnow] at hk hold
      obtain ⟨hwrite, hname, hkey⟩ := call.creates env n.data key hold hk
      exact .inr ⟨⟨hwrite, hname⟩, hkey⟩
  refine ⟨?_, ?_, ?_⟩
  · intro key hk
    obtain hold | ⟨hcreator, hkey⟩ := hfrom key hk
    · exact h.kept key hold
    · exact h.flying call hmem hcreator key hkey
  · intro c hc
    exact h.flying c (List.mem_of_mem_eraseIdx hc)
  · intro g hg
    have hold := h.handing g hg
    refine ⟨hold.clock, fun c hc => hold.flying c (List.mem_of_mem_eraseIdx hc), ?_⟩
    intro key hk hslot
    obtain hlive | ⟨hcreator, hkey⟩ := hfrom key hk
    · exact hold.ahead key hlive hslot
    · exact absurd hslot (hold.flying call hmem hcreator key hkey)

theorem Inv.start (h : Inv sh n) {slot : ℕ} {target : ClusterNode}
    (hok : ∀ call ∈ n.flying, ¬ call.writesTo slot) :
    Inv sh { n with handing := some ⟨slot, target, n.now, 0⟩ } where
  kept := h.kept
  flying := h.flying
  handing := by
    rintro g ⟨⟩
    refine ⟨le_refl _, ?_, fun _ _ _ => Nat.zero_le _⟩
    intro c hc hcreator key hkey hslot
    exact hok c hc ⟨hcreator.1, key, hkey, hslot⟩

theorem Inv.look (h : Inv sh n) {g : Handing} (hg : n.handing = some g) (hnone : ¬ Found sh n g) :
    Inv sh { n with handing := some { g with next := g.next + 1 } } where
  kept := h.kept
  flying := h.flying
  handing := by
    rintro _ ⟨⟩
    have hold := h.handing g hg
    refine ⟨hold.clock, hold.flying, ?_⟩
    intro key hk hslot
    have hne : sh.shard key ≠ g.next := fun hshard =>
      hnone ⟨key, hslot, hshard, hk.earlier hold.clock⟩
    exact lt_of_le_of_ne (hold.ahead key hk hslot) hne.symm

theorem Inv.swap (h : Inv sh n) {g : Handing} (hg : n.handing = some g) (hdone : sh.count ≤ g.next) :
    Inv sh { n with table := n.table.assign g.slot g.target, handing := none } := by
  have hold := h.handing g hg
  have hclear (key : Bytes) (hk : Holds n.now n.data key) : keySlot key ≠ g.slot := fun hslot =>
    absurd (sh.lt key) (not_lt.mpr (hdone.trans (hold.ahead key hk hslot)))
  refine ⟨?_, ?_, fun _ hnone => absurd hnone (by simp)⟩
  · intro key hk
    exact (keeps_assign (hclear key hk)).mpr (h.kept key hk)
  · intro c hc hcreator key hkey
    exact (keeps_assign (hold.flying c hc hcreator key hkey)).mpr (h.flying c hc hcreator key hkey)

theorem Inv.tick (h : Inv sh n) {now : Instant} (hle : n.now ≤ now) : Inv sh { n with now := now } where
  kept key hk := h.kept key (hk.earlier hle)
  flying := h.flying
  handing g hg :=
    have hold := h.handing g hg
    ⟨hold.clock.trans hle, hold.flying, fun key hk => hold.ahead key (hk.earlier hle)⟩

theorem Inv.refused (h : Inv sh n) : Inv sh { n with handing := none } :=
  ⟨h.kept, h.flying, fun _ hnone => absurd hnone (by simp)⟩

theorem step_inv (h : Inv sh n) {e : Event S} (hok : Undisturbed n e) (hstep : n.step sh e = some t) :
    Inv sh t := by
  cases e with
  | gate call sess =>
    rw [Node.step] at hstep
    split_ifs at hstep with hgate
    exact Option.some.inj hstep ▸ h.gate hgate hok
  | run i env =>
    rw [Node.step] at hstep
    split_ifs at hstep with hnow
    obtain ⟨call, hcall, rfl⟩ := Option.map_eq_some_iff.mp hstep
    exact h.run hcall hnow
  | start slot target =>
    rw [Node.step] at hstep
    split_ifs at hstep
    exact Option.some.inj hstep ▸ h.start hok
  | look =>
    obtain ⟨g, hg, hstep⟩ := Option.bind_eq_some_iff.mp hstep
    split_ifs at hstep with _ hfound
    · exact Option.some.inj hstep ▸ h.refused
    · exact Option.some.inj hstep ▸ h.look hg hfound
  | swap =>
    obtain ⟨g, hg, hstep⟩ := Option.bind_eq_some_iff.mp hstep
    split_ifs at hstep with hdone
    exact Option.some.inj hstep ▸ h.swap hg (not_lt.mp hdone)
  | tick now =>
    rw [Node.step] at hstep
    split_ifs at hstep with hle
    exact Option.some.inj hstep ▸ h.tick hle

end Invariant

section Table

variable {n : String} {c : Command S} {v : View} {args : Args} {keys : List Bytes}

/-- The gate sees the keys that the command writes. -/
def Registered.routesWrites (c : Registered) : Bool :=
  match routeShape (ascii c.name), keyShape (ascii c.name) with
  | .affected, _ => true
  | .operands, .first => true
  | .intoCounted, .first => true
  | .fromSecond, .second => decide (4 ≤ c.arity.natAbs)
  | .firstTwo, .first => decide (3 ≤ c.arity.natAbs)
  | .second, .second => true
  | _, _ => false

theorem commandTable_routesWrites : ∀ c ∈ commandTable, c.write = true →
    c.name ∉ barrenCommands → c.routesWrites = true := by
  intro c hc
  have hascii := commandTable_ascii c hc
  have hroute := routeShape.eq_1 (ascii c.name)
  have hkey := keyShape.eq_1 (ascii c.name)
  simp +singlePass (disch := first | exact hascii | decide +kernel) only
    [ascii_mem_iff, ascii_eq_iff] at hroute hkey
  unfold Registered.routesWrites
  rw [hroute, hkey, ← List.mem_map_of_injective literalCode_injective]
  clear hroute hkey hascii
  revert c
  decide +kernel

theorem operand_subset_drop (args : Args) {i j : ℕ} (h : j ≤ i) : args[i]?.toList ⊆ args.drop j := by
  intro key hkey
  have hget : (args.drop j)[i - j]? = some key := by
    rw [List.getElem?_drop, Nat.add_sub_cancel' h]
    exact Option.mem_toList.mp hkey
  exact List.mem_of_getElem? hget

theorem affectedKeys_routed {c : Registered} (hc : c.routesWrites = true)
    (ha : arityOK c.arity args.length = true)
    (h : (commandKeys (ascii c.name) args).result = .ok keys) :
    affectedKeys (ascii c.name) args ⊆ keys := by
  have hlen := natAbs_le_of_arityOK ha
  unfold commandKeys at h
  unfold Registered.routesWrites at hc
  split at hc
  case h_1 hroute =>
    rw [hroute] at h
    rw [pure_ok h]
    exact List.Subset.refl _
  case h_2 hroute hshape =>
    rw [hroute] at h
    rw [slice_rest_ok h, affectedKeys_eq hshape]
    exact operand_subset_drop args (le_refl 1)
  case h_3 hroute hshape =>
    rw [hroute] at h
    obtain ⟨dest, hdest, h⟩ := Checked.bind_ok h
    obtain ⟨counted, -, h⟩ := Checked.bind_ok h
    have hget : args[1]? = some dest := index_ok hdest
    rw [pure_ok h, affectedKeys_eq hshape, shapeKeys, hget]
    simp
  case h_4 hroute hshape =>
    rw [hroute, RouteShape.keys, if_neg (by have := of_decide_eq_true hc; omega)] at h
    rw [slice_rest_ok h, affectedKeys_eq hshape]
    exact operand_subset_drop args (le_refl 2)
  case h_5 hroute hshape =>
    rw [hroute] at h
    rw [pure_ok h, affectedKeys_eq hshape]
    have hthree : 3 ≤ args.length := (of_decide_eq_true hc).trans hlen
    rcases args with _ | ⟨_, _ | ⟨a, _ | ⟨b, _⟩⟩⟩
    · simp at hthree
    · simp at hthree
    · simp at hthree
    · simp [shapeKeys, leadingTwo]
  case h_6 hroute hshape =>
    rw [hroute] at h
    rw [pure_ok h, affectedKeys_eq hshape]
    exact List.Subset.refl _
  case h_7 => exact absurd hc Bool.false_ne_true

set_option maxRecDepth 20000 in
theorem streamCommands_registered :
    ∀ p ∈ (streamCommands : List (String × Command S)),
      ∃ c ∈ commandTable, c.name = p.1 ∧ c.arity = p.2.arity ∧ c.write = p.2.isWrite := by
  have hall : (streamCommands : List (String × Command S)).all (fun p => commandTable.any fun c =>
      decide (c.name = p.1) && decide (c.arity = p.2.arity) &&
        decide (c.write = p.2.isWrite)) = true := rfl
  intro p hp
  obtain ⟨c, hc, h⟩ := List.any_eq_true.mp (List.all_eq_true.mp hall p hp)
  simp only [Bool.and_eq_true, decide_eq_true_eq] at h
  exact ⟨c, hc, h.1.1, h.1.2, h.2⟩

theorem confinedCommands_registered : ∀ t ∈ confinedCommands,
    ∃ c ∈ commandTable, c.name = t.name ∧ c.arity = t.arity ∧ c.write = true ∧
      c.name ∉ barrenCommands := by
  decide +kernel

/-- A key that a write of the table brings into being is one that the gate saw. -/
theorem created_routed (hc : WriteCommand n c) (hcl : v.cluster = true)
    (hname : args.head?.map toUpper = some (ascii n)) (ha : arityOK c.arity args.length = true)
    (hkeys : (commandKeys (ascii n) args).result = .ok keys) (env : Env) (s : Dataset S) {key : Bytes}
    (hnone : seen (live env.now) s (v.loc key) = none)
    (hsome : seen (live env.now) ((c.apply v env args).run (live env.now) s).2 (v.loc key) ≠ none) :
    key ∈ keys := by
  cases hc with
  | modelled hmem hw hn =>
    obtain ⟨hkey, hbar⟩ := (modelled_known hmem).creates hw v env args hcl hname ha _ s key hnone hsome
    obtain ⟨row, hrow, rfl, harity, hwrite⟩ : ∃ row ∈ commandTable,
        row.name = n ∧ row.arity = c.arity ∧ row.write = c.isWrite := by
      obtain hmem | hmem := List.mem_append.mp hmem
      · exact dataCommands_registered (n, c) hmem
      · exact streamCommands_registered (n, c) hmem
    exact affectedKeys_routed (commandTable_routesWrites row hrow (hwrite.trans hw) hbar)
      (harity ▸ ha) hkeys hkey
  | confined t ht hn har hb hf =>
    subst hn
    obtain ⟨key', hkey, heq⟩ := mem_of_created (hf v env args) _ hnone hsome
    obtain rfl : key = key' := congrArg Prod.snd heq
    obtain ⟨row, hrow, hrn, harity, hwrite, hbar⟩ := confinedCommands_registered t ht
    rw [← hrn] at hkeys
    have hsub := affectedKeys_routed (commandTable_routesWrites row hrow hwrite hbar)
      (by rw [harity, ← har]; exact ha) hkeys
    rw [hrn] at hsub
    exact hsub (confined_targets ht args hkey)

/-- Every write of the table other than MIGRATE, as a client of cluster mode sends it. -/
def Call.ofWrite (hc : WriteCommand n c) (hn : ascii n ≠ ascii "MIGRATE") (hdb : v.db = 0)
    (hcl : v.cluster = true) (hname : args.head?.map toUpper = some (ascii n))
    (ha : arityOK c.arity args.length = true)
    (hkeys : (commandKeys (ascii n) args).result = .ok keys) : Call S where
  name := ascii n
  write := true
  keys := keys
  program env := c.apply v env args
  creates env s key hno hyes := by
    have hloc : v.loc key = (0, key) := by rw [View.loc, hdb]
    have hnone : seen (live env.now) s (v.loc key) = none := by
      rw [hloc]
      exact not_not.mp hno
    refine ⟨rfl, hn, created_routed hc hcl hname ha hkeys env s hnone ?_⟩
    rw [hloc]
    exact hyes

end Table

/-- Handing slots away strands no key, as long as no write to the slot is under way
during the handover. -/
theorem setslot_strands_nothing (sh : Sharding) {n t : Node S} (hn : n.Settled)
    (h : Reaches (Node.step sh) Undisturbed n t) : ¬ t.Stranded := by
  rintro ⟨-, -, key, hlive, hlost⟩
  have hinv : Inv sh t := h.invariant (fun _ _ _ hs hok hstep => step_inv hs hok hstep) hn.inv
  exact hlost (hinv.kept key hlive)

def nodeA : ClusterNode := ⟨ascii "a", ascii "h", 1, []⟩

def nodeB : ClusterNode := ⟨ascii "b", ascii "h", 2, []⟩

/-- A node that owns every slot and holds nothing. -/
def idleNode : Node ℤ where
  now := 0
  table := ⟨nodeA, fun _ => ⟨some nodeA, none, none⟩⟩
  data := emptyDataset
  flying := []
  handing := none

theorem idleNode_settled : idleNode.Settled where
  flying := rfl
  handing := rfl
  kept _ h := absurd rfl h

def oneShard : Sharding := ⟨1, fun _ => 0, fun _ => Nat.one_pos⟩

@[simp] theorem oneShard_count : oneShard.count = 1 := rfl

/-- What is left of a node after it has given the slot away. -/
def handedOver (n : Node ℤ) (slot : ℕ) : Node ℤ :=
  { n with table := n.table.assign slot nodeB }

/-- A node that holds nothing gives a slot away, whatever is under way. -/
theorem hands_over {m n : Node ℤ} {ok : Node ℤ → Event ℤ → Prop} (h : Reaches (Node.step oneShard) ok m n)
    (hh : n.handing = none) (hd : n.data = emptyDataset) (slot : ℕ)
    (howner : (n.table.slots slot).owner = some n.table.me) (hne : nodeB ≠ n.table.me)
    (hstart : ok n (.start slot nodeB)) (hlook : ∀ k, ok k .look) (hswap : ∀ k, ok k .swap) :
    Reaches (Node.step oneShard) ok m (handedOver n slot) := by
  have hstarted : Reaches (Node.step oneShard) ok m
      { n with handing := some ⟨slot, nodeB, n.now, 0⟩ } :=
    .tail (.start slot nodeB) h hstart (if_pos ⟨by rw [hh]; rfl, howner, hne⟩)
  have hfound : ¬ Found oneShard { n with handing := some ⟨slot, nodeB, n.now, 0⟩ }
      ⟨slot, nodeB, n.now, 0⟩ := by
    rintro ⟨key, -, -, hkey⟩
    rw [hd] at hkey
    exact hkey rfl
  have hlooked : Reaches (Node.step oneShard) ok m
      { n with handing := some ⟨slot, nodeB, n.now, 1⟩ } :=
    .tail .look hstarted (hlook _) (by simp [Node.step, hfound])
  exact .tail .swap hlooked (hswap _) (by simp [Node.step, handedOver, hh])

/-- A node with nothing under way gives a slot away. -/
theorem setslot_strands_nothing_idle : ¬ (handedOver idleNode 7).Stranded :=
  setslot_strands_nothing oneShard idleNode_settled
    (hands_over .refl rfl rfl 7 rfl (by decide) (fun _ h => absurd h List.not_mem_nil)
      (fun _ => trivial) fun _ => trivial)

/-- SET k 1, sent to a node in cluster mode. -/
def lateSet : Call ℤ :=
  @Call.ofWrite ℤ _ "SET" ⟨-3, .effect cmdSet⟩ ⟨0, 1, true⟩ (["SET", "k", "1"].map ascii) [ascii "k"]
    (.modelled (by simp [dataCommands, stringCommands]) rfl (by simp [wholesale])) (by decide) rfl rfl
    rfl rfl rfl

/-- The SET passes the gate, the slot is looked through and given away, and the SET
runs. -/
theorem setslot_strands_late_write :
    ∃ (sh : Sharding) (n t : Node ℤ), n.Settled ∧ Reachable (Node.step sh) n t ∧ t.Stranded := by
  have hpass : clusterRedirect idleNode.table
      (fun key => (seen (live idleNode.now) idleNode.data (0, key)).isSome) ⟨false, false⟩
      lateSet.write lateSet.name lateSet.keys = none := rfl
  have hgate : Reachable (Node.step oneShard) idleNode { idleNode with flying := [lateSet] } :=
    .tail (.gate lateSet ⟨false, false⟩) .refl trivial (by rw [Node.step, if_pos hpass]; rfl)
  have hover := hands_over hgate rfl rfl (keySlot (ascii "k")) rfl (by decide) trivial
    (fun _ => trivial) fun _ => trivial
  have hnow : (Env.at 0).now =
      (handedOver { idleNode with flying := [lateSet] } (keySlot (ascii "k"))).now := rfl
  have hrun := Reaches.tail (.run 0 (Env.at 0)) hover trivial (by rw [Node.step, if_pos hnow]; rfl)
  refine ⟨oneShard, idleNode, _, idleNode_settled, hrun, rfl, rfl, ascii "k", ?_, ?_⟩
  · exact Option.isSome_iff_ne_none.mp (by decide +kernel)
  · rintro (howner | himp)
    · exact absurd howner (by decide +kernel)
    · exact absurd himp (by decide +kernel)

end ShardKV.Cluster
