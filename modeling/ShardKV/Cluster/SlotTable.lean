import ShardKV.Cluster.Restart

/-! The slot table of a node over its life. A slot that is open in one direction lies on the matching
side: one that is given away is owned by this node, one that is taken over is not. The commands
check this when they open a slot, and those that move the owner close the slot, but for ADDSLOTS:
it takes a slot without an owner and leaves it open for import. -/

namespace ShardKV.Cluster.Config

open Access Server Text

section Sides

/-- A slot that is given away is owned by `me`, one that is taken over is not. -/
structure Slot.Sided (me : Option Node) (s : Slot) : Prop where
  leaving : s.migrating ≠ none → s.owner = me
  arriving : s.importing ≠ none → s.owner ≠ me

/-- What is asked of the slot table: it names the current nodes, and no slot is open in both directions
or on the wrong side. -/
structure State.Tidy (cs : State) : Prop where
  current : ∀ i n, (cs.slots i).Names n → cs.find n.id = some n
  single : ∀ i, (cs.slots i).migrating = none ∨ (cs.slots i).importing = none
  leaving : ∀ i, (cs.slots i).migrating ≠ none → (cs.slots i).owner = cs.me
  arriving : ∀ i, (cs.slots i).importing ≠ none → (cs.slots i).owner ≠ cs.me

variable {me : Option Node} {s : Slot} {cs t : State}

theorem Slot.Sided.single (h : s.Sided me) : s.migrating = none ∨ s.importing = none := by
  by_contra hboth
  rw [not_or] at hboth
  exact h.arriving hboth.2 (h.leaving hboth.1)

theorem State.WellFormed.tidy (h : cs.WellFormed) (hsides : ∀ i, (cs.slots i).Sided cs.me) : cs.Tidy where
  current := fun i n hn => find_of_mem h.distinct (h.known i n hn)
  single := fun i => (hsides i).single
  leaving := fun i => (hsides i).leaving
  arriving := fun i => (hsides i).arriving

theorem sided_closed (me o : Option Node) : Slot.Sided me ⟨o, none, none⟩ :=
  ⟨fun h => absurd rfl h, fun h => absurd rfl h⟩

/-- A new owner for a slot without one: only an import can be open. -/
theorem Slot.Sided.ownedBy {o : Option Node} (h : s.Sided me) (hme : me ≠ none) (hfree : s.owner = none)
    (ho : s.importing ≠ none → o ≠ me) : (s.ownedBy o).Sided me :=
  ⟨fun hm => absurd ((h.leaving hm).symm.trans hfree) hme, ho⟩

/-- Renaming the nodes keeps the sides, as long as it keeps apart what was apart from `me`. -/
theorem Slot.Sided.map {f : Option Node → Option Node} (h : s.Sided me) (hnone : f none = none)
    (hapart : s.owner ≠ me → f s.owner ≠ f me) : (s.map f).Sided (f me) where
  leaving := fun hm => congrArg f (h.leaving fun heq => hm (by rw [Slot.map, heq]; exact hnone))
  arriving := fun hi => hapart (h.arriving fun heq => hi (by rw [Slot.map, heq]; exact hnone))

end Sides

section Commands

variable {quote : Bytes → Bytes} {cs t : State}

theorem State.WellFormed.exists_me (h : cs.WellFormed) : ∃ me ∈ cs.nodes, cs.me = some me := by
  obtain ⟨me, hme, hid⟩ := List.mem_map.1 h.own
  refine ⟨me, hme, ?_⟩
  rw [State.me, State.find, ← hid]
  exact find_of_mem h.distinct hme

theorem State.WellFormed.me_ne_none (h : cs.WellFormed) : cs.me ≠ none := by
  obtain ⟨me, -, hme⟩ := h.exists_me
  simp [hme]

theorem State.WellFormed.id_of_me (h : cs.WellFormed) {n : Node} (hn : n ∈ cs.nodes) :
    cs.me = some n ↔ n.id = cs.myID := by
  constructor
  · exact fun hme => (mem_of_find hme).2
  · intro hid
    rw [State.me, State.find, ← hid]
    exact find_of_mem h.distinct hn

theorem find_filter_ne (nodes : List Node) {dropped id : Bytes} (h : id ≠ dropped) :
    (nodes.filter (·.id ≠ dropped)).find? (·.id = id) = nodes.find? (·.id = id) := by
  rw [List.find?_filter]
  congr 1
  funext m
  by_cases hm : m.id = id
  · simp [hm, h]
  · simp [hm]

theorem myID_putNode (cs : State) (n : Node) : (cs.putNode n).myID = cs.myID := by
  unfold State.putNode
  cases cs.find n.id <;> rfl

theorem find_putNode (cs : State) (n : Node) (id : Bytes) :
    (cs.putNode n).find id = if n.id = id then some n else cs.find id := by
  have hnodes : (cs.putNode n).nodes = setNode cs.nodes n := by
    unfold State.putNode
    cases cs.find n.id <;> rfl
  rw [State.find, State.find, hnodes, setNode, List.find?_append]
  split_ifs with hid
  · have hgone : (cs.nodes.filter (·.id ≠ n.id)).find? (·.id = id) = none := by
      refine List.find?_eq_none.2 fun m hm => ?_
      simpa [← hid] using List.of_mem_filter hm
    rw [hgone]
    simp [hid]
  · rw [find_filter_ne _ (Ne.symm hid)]
    simp [hid]

theorem me_putNode (cs : State) (n : Node) :
    (cs.putNode n).me = if n.id = cs.myID then some n else cs.me := by
  rw [State.me, myID_putNode, find_putNode]
  rfl

/-- Replacing a node repoints the slots, and no two nodes become one. -/
theorem sided_putNode (h : cs.WellFormed) (hsides : ∀ i, (cs.slots i).Sided cs.me) (n : Node) (i : ℕ) :
    ((cs.putNode n).slots i).Sided (cs.putNode n).me := by
  rw [me_putNode]
  unfold State.putNode
  cases hprev : cs.find n.id with
  | none =>
    rw [if_neg fun hid => h.me_ne_none (by rw [State.me, ← hid]; exact hprev)]
    exact hsides i
  | some prev =>
    obtain ⟨hmem, hpid⟩ := mem_of_find hprev
    have hnew : (if n.id = cs.myID then some n else cs.me) =
        if cs.me = some prev then some n else cs.me :=
      if_congr (by rw [h.id_of_me hmem, hpid]) rfl rfl
    rw [hnew]
    refine (hsides i).map (f := fun o => if o = some prev then some n else o) rfl fun hne heq => ?_
    obtain ⟨me, hmeMem, hme⟩ := h.exists_me
    -- an entry of the old table that is the new node is the one it replaces
    have hold {m : Node} (hm : m ∈ cs.nodes) (heq : m = n) : m = prev :=
      h.ext_id hm hmem (heq ▸ hpid.symm)
    split_ifs at heq with howner hmine hmine
    · exact hne (howner.trans hmine.symm)
    · rw [hme] at heq hmine
      exact hmine (congrArg some (hold hmeMem (Option.some.inj heq).symm))
    · exact howner (heq.trans (congrArg some (hold (h.known i n (.inl heq)) rfl)))
    · exact hne heq

theorem mem_of_slotRefusal {slots seen : List ℕ} {add : Bool} (h : cs.slotRefusal add seen slots = none)
    {i : ℕ} (hi : i ∈ slots) : add = true → (cs.slots i).owner = none := by
  induction slots generalizing seen with
  | nil => cases hi
  | cons slot slots ih =>
    rw [State.slotRefusal] at h
    split_ifs at h with hseen hbusy hfree
    rintro rfl
    rcases List.mem_cons.1 hi with rfl | hi
    · simpa using hbusy
    · exact ih h hi rfl

theorem sided_applySlotChange (h : cs.WellFormed) (hsides : ∀ i, (cs.slots i).Sided cs.me) {add : Bool}
    {slots : List ℕ} (hopen : add = true → ∀ i ∈ slots, (cs.slots i).importing = none)
    (ht : cs.applySlotChange add slots = .ok t) (i : ℕ) : (t.slots i).Sided t.me := by
  unfold State.applySlotChange at ht
  split at ht
  · cases ht
  · rename_i hrefusal
    cases ht
    change (ite _ _ _ : Slot).Sided cs.me
    split_ifs with hi hadd
    · exact (hsides i).ownedBy h.me_ne_none (mem_of_slotRefusal hrefusal hi hadd)
        fun hne => absurd (hopen hadd i hi) hne
    · exact sided_closed _ _
    · exact hsides i

theorem sided_setSlot (hsides : ∀ i, (cs.slots i).Sided cs.me) {slot : ℕ} {info : Slot}
    (hinfo : info.Sided cs.me) (i : ℕ) : ((cs.setSlot slot info).slots i).Sided cs.me := by
  change (Function.update cs.slots slot info i).Sided cs.me
  by_cases hi : i = slot
  · subst hi
    rwa [Function.update_self]
  · rw [Function.update_of_ne hi]
    exact hsides i

theorem sided_setSlotTo (hsides : ∀ i, (cs.slots i).Sided cs.me) {world : World} {slot : ℕ} {action : Bytes}
    {target : Node} (ht : cs.setSlotTo world slot action target = .ok t) (i : ℕ) :
    (t.slots i).Sided t.me := by
  unfold State.setSlotTo at ht
  dsimp only at ht
  split_ifs at ht with _ howner _ _ howner
  · cases ht
    rw [not_not] at howner
    have hinfo : Slot.Sided cs.me { cs.slots slot with migrating := some target } :=
      ⟨fun _ => howner, (hsides slot).arriving⟩
    exact sided_setSlot hsides hinfo i
  · cases ht
    have hinfo : Slot.Sided cs.me { cs.slots slot with importing := some target } :=
      ⟨(hsides slot).leaving, fun _ => howner⟩
    exact sided_setSlot hsides hinfo i
  · cases ht
    exact sided_setSlot hsides (sided_closed _ _) i

theorem sided_clusterSetSlot (hsides : ∀ i, (cs.slots i).Sided cs.me) {world : World} {args : List Bytes}
    (ht : cs.clusterSetSlot world args = .ok t) (i : ℕ) : (t.slots i).Sided t.me := by
  unfold State.clusterSetSlot at ht
  by_cases hlen : args.length < 4
  · rw [if_pos hlen] at ht
    cases ht
  rw [if_neg hlen] at ht
  cases hslot : parseSlotArg args 2 with
  | error e =>
    rw [hslot] at ht
    cases ht
  | ok slot =>
    simp only [hslot] at ht
    split_ifs at ht
    · cases ht
      exact sided_setSlot hsides (sided_closed _ _) i
    · split at ht
      · cases ht
      · exact sided_setSlotTo hsides ht i

theorem sided_adopt {me o : Option Node} (hme : me ≠ none) (ho : o ≠ me) {slots : ℕ → Slot}
    (hsides : ∀ i, (slots i).Sided me) (ranges : List (ℕ × ℕ)) (i : ℕ) :
    (ranges.foldl (adopt o) slots i).Sided me := by
  induction ranges generalizing slots with
  | nil => exact hsides i
  | cons r ranges ih =>
    refine ih fun j => ?_
    unfold adopt
    split_ifs with hfree
    · exact (hsides j).ownedBy hme hfree.2.2 fun _ => ho
    · exact hsides j

theorem sided_meet (h : cs.WellFormed) (hsides : ∀ i, (cs.slots i).Sided cs.me) {ip answer : Bytes} {port : ℤ}
    (ht : cs.meet quote ip port answer = .ok t) (i : ℕ) : (t.slots i).Sided t.me := by
  unfold State.meet at ht
  split at ht
  · cases ht
  · rename_i found ranges hreply
    dsimp only at ht
    generalize hpeer : (if found.ip = [] then { found with ip := ip, port := port, cport := port + 10000 }
      else found) = peer at ht
    split_ifs at ht with hid
    cases ht
    have hme : (cs.putNode peer).me = cs.me := by
      rw [me_putNode, if_neg hid]
    have hpeer : (cs.putNode peer).find peer.id = some peer := by
      rw [find_putNode, if_pos rfl]
    rw [hpeer]
    change (_ : Slot).Sided (cs.putNode peer).me
    refine sided_adopt (hme ▸ h.me_ne_none) (fun heq => hid ?_) (sided_putNode h hsides peer) ranges i
    rw [hme] at heq
    exact (mem_of_find heq.symm).2

theorem sided_clusterMeet (h : cs.WellFormed) (hsides : ∀ i, (cs.slots i).Sided cs.me) {world : World}
    {args : List Bytes} (ht : cs.clusterMeet quote world args = .ok t) (i : ℕ) : (t.slots i).Sided t.me := by
  unfold State.clusterMeet at ht
  split at ht
  · cases ht
  · split at ht
    · cases ht
    · rename_i port _
      split_ifs at ht
      split at ht
      · cases ht
      · rename_i answer _
        cases hmeet : cs.meet quote (args.getD 2 []) port answer with
        | error e =>
          rw [hmeet] at ht
          cases ht
        | ok u =>
          simp only [hmeet, Except.mapError, Except.ok.injEq] at ht
          exact ht ▸ sided_meet h hsides hmeet i

theorem sided_clusterForget (h : cs.WellFormed) (hsides : ∀ i, (cs.slots i).Sided cs.me) {args : List Bytes}
    (ht : cs.clusterForget args = .ok t) (i : ℕ) : (t.slots i).Sided t.me := by
  unfold State.clusterForget at ht
  split_ifs at ht with hlen hmyID
  split at ht
  · cases ht
  · rename_i node hfind
    cases ht
    obtain ⟨hnode, hid⟩ := mem_of_find hfind
    have hother : cs.me ≠ some node := fun hme => hmyID (hid.symm.trans ((h.id_of_me hnode).1 hme))
    have hme : (cs.nodes.filter (·.id ≠ args.getD 2 [])).find? (·.id = cs.myID) = cs.me :=
      find_filter_ne _ (Ne.symm hmyID)
    change (_ : Slot).Sided ((cs.nodes.filter (·.id ≠ args.getD 2 [])).find? (·.id = cs.myID))
    rw [hme]
    have hmap := (hsides i).map (f := fun o => if o = some node then none else o) rfl ?_
    · rwa [if_neg hother] at hmap
    · intro hne
      rw [if_neg hother]
      split_ifs
      · exact h.me_ne_none.symm
      · exact hne

theorem sided_clusterReplicate (h : cs.WellFormed) (hsides : ∀ i, (cs.slots i).Sided cs.me) {world : World}
    {args : List Bytes} (ht : cs.clusterReplicate world args = .ok t) (i : ℕ) : (t.slots i).Sided t.me := by
  unfold State.clusterReplicate at ht
  split_ifs at ht
  split at ht
  · cases ht
  · split_ifs at ht
    cases ht
    exact sided_putNode h hsides _ i
  · cases ht

theorem sided_clusterReset {world : World} {args : List Bytes}
    (ht : cs.clusterReset world args = .ok t) (i : ℕ) : (t.slots i).Sided t.me := by
  unfold State.clusterReset at ht
  split at ht
  · cases ht
  · by_cases hkeys : 0 < world.keys
    · rw [if_pos hkeys] at ht
      cases ht
    rw [if_neg hkeys] at ht
    split at ht
    · cases ht
    · cases ht
      exact sided_closed _ _

end Commands

variable {quote : Bytes → Bytes} {cs t : State}

/-- The command takes no slot that is open for import. -/
def State.Unopened (cs : State) (call : World × List Bytes) : Prop :=
  ∀ i ∈ addedSlots call.2, (cs.slots i).importing = none

instance State.decidableUnopened (cs : State) (call : World × List Bytes) : Decidable (cs.Unopened call) :=
  inferInstanceAs (Decidable (∀ i ∈ addedSlots call.2, (cs.slots i).importing = none))

/-- The sides are kept by every command but an ADDSLOTS of a slot that is open for import. -/
theorem sided_step (h : cs.WellFormed) (hsides : ∀ i, (cs.slots i).Sided cs.me)
    {call : World × List Bytes} (hopen : cs.Unopened call) (ht : cs.step quote call = some t) (i : ℕ) :
    (t.slots i).Sided t.me := by
  rcases step_cases ht with rfl | hsub
  · exact hsides i
  rcases subcommand_cases hsub with ⟨add, slots, hadded, ht⟩ | ht | ht | ht | ht | ht | rfl
  · exact sided_applySlotChange h hsides (fun hadd => hadded hadd ▸ hopen) ht i
  · exact sided_clusterSetSlot hsides ht i
  · exact sided_clusterMeet h hsides ht i
  · exact sided_clusterForget h hsides ht i
  · exact sided_clusterReplicate h hsides ht i
  · exact sided_clusterReset ht i
  · exact hsides i

theorem sided_enabled {opts : Options} {listeningPort : Bytes} {entropy : Entropy}
    (h : enableCluster opts listeningPort entropy = some cs) (i : ℕ) : (cs.slots i).Sided cs.me := by
  unfold enableCluster at h
  obtain ⟨port, -, rfl⟩ := Option.map_eq_some_iff.1 h
  exact sided_closed _ _

/-- From an enabled node on, the slot table stays tidy as long as no ADDSLOTS takes a slot that is
open for import, and a command that is refused changes nothing. -/
theorem slot_table_tidy {opts : Options} {listeningPort : Bytes} {entropy : Entropy} {start : State}
    (hstart : enableCluster opts listeningPort entropy = some start)
    (h : Reaches (State.step quote) State.Unopened start cs) :
    cs.Tidy ∧ ∀ world args e, cs.clusterSubcommand quote world args = .error e →
      cs.step quote (world, args) = some cs := by
  have hkeep : ∀ (s : State) c u, (s.WellFormed ∧ ∀ i, (s.slots i).Sided s.me) → s.Unopened c →
      s.step quote c = some u → u.WellFormed ∧ ∀ i, (u.slots i).Sided u.me :=
    fun s c u hs hopen hstep => ⟨hs.1.step hstep, sided_step hs.1 hs.2 hopen hstep⟩
  have hcs := h.invariant hkeep ⟨wellFormed_enabled hstart, sided_enabled hstart⟩
  refine ⟨hcs.1.tidy hcs.2, fun world args e he => ?_⟩
  rw [State.step, he]

/-- A peer with the id `cd` that owns no slot answers. -/
def peerWorld : World :=
  ⟨.ok (ascii "cd 10.0.0.2:7001@17001 myself,master - 0 0 0 connected"), quietWorld.entropy, fun _ => false, 0⟩

/-- A node meets a peer and opens slot 5 for import from it. -/
def openImport : List (World × List Bytes) :=
  [(peerWorld, [ascii "CLUSTER", ascii "MEET", ascii "10.0.0.2", ascii "7001"]),
    (quietWorld, [ascii "CLUSTER", ascii "SETSLOT", ascii "5", ascii "IMPORTING", ascii "cd"])]

/-- The same slot is then taken and opened for export. -/
def takeOpened : List (World × List Bytes) :=
  openImport ++ [(quietWorld, [ascii "CLUSTER", ascii "ADDSLOTS", ascii "5"]),
    (quietWorld, [ascii "CLUSTER", ascii "SETSLOT", ascii "5", ascii "MIGRATING", ascii "cd"])]

/-- The next slot is taken instead and opened for export. -/
def takeNext : List (World × List Bytes) :=
  openImport ++ [(quietWorld, [ascii "CLUSTER", ascii "ADDSLOTS", ascii "6"]),
    (quietWorld, [ascii "CLUSTER", ascii "SETSLOT", ascii "6", ascii "MIGRATING", ascii "cd"])]

def importer : State :=
  (play (fun cs call => if decide (State.Unopened cs call) then cs.step id call else none)
    newcomer takeNext).get (by decide +kernel)

def doublyOpened : State := (play (State.step id) newcomer takeOpened).get (by decide +kernel)

/-- One slot is open for import and another for export. -/
theorem importer_tidy : (importer.slots 5).importing ≠ none ∧ (importer.slots 6).migrating ≠ none ∧
    importer.Tidy := by
  have hreach : Reaches (State.step id) State.Unopened newcomer importer :=
    reaches_of_checked (fun _ _ => of_decide_eq_true) (Option.some_get _).symm
  exact ⟨by decide +kernel, by decide +kernel, (slot_table_tidy enable_newcomer hreach).1⟩

/-- A slot that was opened for import before it is taken ends up open in both directions. -/
theorem addslots_keeps_import : ∃ start cs,
    enableCluster plainOptions [] ⟨[0xAB], by decide⟩ = some start ∧ Reachable (State.step id) start cs ∧
      (cs.slots 5).owner = cs.me ∧ (cs.slots 5).importing ≠ none ∧ (cs.slots 5).migrating ≠ none ∧
      ¬ cs.Tidy := by
  have hreach : Reachable (State.step id) newcomer doublyOpened :=
    reachable_of_play (Option.some_get _).symm
  have howner : (doublyOpened.slots 5).owner = doublyOpened.me := by decide +kernel
  have himport : (doublyOpened.slots 5).importing ≠ none := by decide +kernel
  exact ⟨newcomer, doublyOpened, enable_newcomer, hreach, howner, himport, by decide +kernel,
    fun htidy => htidy.arriving 5 himport howner⟩

end ShardKV.Cluster.Config
