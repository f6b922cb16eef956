import ShardKV.Blocking.Requests

/-! No wakeup is lost as long as three things hold. A client does not join the empty
queue of a key that it could have been served from, unless a wakeup for that key is
still on its way; the clients queued on one key wait for one type; and a signal that
finds the count of blocked clients at zero finds their queues empty. Then whoever
heads the queue of a key that can serve it has a wakeup coming. -/

namespace ShardKV.Blocking

open Access Data Resp Server Commands Prog

variable {S : Type} [Numeric S] {s : State S} {id : ℕ} {k : Loc}

/-- What is asked of a step in the state it starts from. -/
def Calm (s : State S) : Label S → Prop
  | .enqueue id => ∀ c, s.clients id = some c → ∀ k ∈ c.request.keys,
      (∀ j ∈ s.queues k, ∀ d, s.clients j = some d → d.request.want = c.request.want) ∧
      (s.queues k = [] → kindAt s.now s.data k = some c.request.want →
        ∃ job ∈ s.jobs, job.covers k)
  | .write w =>
      let r := (w.command.apply w.view w.env w.args).run (live s.now) s.data
      ∀ k, kindAt s.now r.2 k ≠ kindAt s.now s.data k →
        r.1.dirty = true ∧ (Job.signal w.view (observed w.command w.args r.1)).covers k
  | .work i => ∀ v commands, s.jobs[i]? = some (.signal v commands) → s.blocked = 0 →
      ∀ k, (Job.signal v commands).covers k → s.queues k = []
  | _ => True

/-- How often the client stands in the queue of the key. -/
def State.tickets (s : State S) (id : ℕ) (k : Loc) : ℕ :=
  match s.clients id with
  | some c => if c.phase.inQueue then c.request.keys.count k else 0
  | none => 0

/-- The head of a queue is going to look at the key, or somebody is going to wake it. -/
inductive Owed (s : State S) (k : Loc) (id : ℕ) (c : Client S) : Prop
  | job (job : Job) (hmem : job ∈ s.jobs) (hk : job.covers k)
  | send (h : Job.send id ∈ s.jobs)
  | ready (h : c.ready = true)
  | busy (h : c.phase = .retrying ∨ c.phase = .attempting ∨ c.phase = .leaving)
  | handing (j : ℕ) (d : Client S) (h : s.clients j = some d) (hp : d.phase = .handing)
      (hk : k ∈ d.request.keys)

structure Inv (s : State S) : Prop where
  stored : Prog.All Stored s.data
  tickets : ∀ k id, (s.queues k).count id = s.tickets id k
  present : ∀ id c, s.clients id = some c → id ∈ s.ids
  alike : ∀ k i j c d, i ∈ s.queues k → j ∈ s.queues k → s.clients i = some c →
    s.clients j = some d → c.request.want = d.request.want
  owed : ∀ k id rest c, s.queues k = id :: rest → s.clients id = some c →
    kindAt s.now s.data k = some c.request.want → Owed s k id c

theorem start_inv (now : Instant) {data : Dataset S} (h : Prog.All Stored data) :
    Inv (State.start now data) := by
  refine ⟨h, fun k id => rfl, ?_, ?_, ?_⟩
  · intro id c hc
    exact absurd hc (by simp [State.start])
  · intro k i j c d hi
    exact absurd hi (by simp [State.start])
  · intro k id rest c hq
    exact absurd hq (by simp [State.start])

theorem bind_inPhase {p : Phase} {f : Client S → Option (State S)} {t : State S}
    (h : (s.inPhase id p).bind f = some t) :
    ∃ c, s.clients id = some c ∧ c.phase = p ∧ f c = some t := by
  obtain ⟨c, hc, hf⟩ := Option.bind_eq_some_iff.mp h
  simp only [State.inPhase, Option.filter_eq_some_iff, decide_eq_true_eq] at hc
  exact ⟨c, hc.1, hc.2, hf⟩

theorem Inv.mem_queue (h : Inv s) (hmem : id ∈ s.queues k) :
    ∃ c, s.clients id = some c ∧ c.phase.inQueue = true ∧ k ∈ c.request.keys := by
  have hpos : 0 < s.tickets id k := h.tickets k id ▸ List.count_pos_iff.mpr hmem
  unfold State.tickets at hpos
  split at hpos
  · rename_i c hc
    split_ifs at hpos with hp
    · exact ⟨c, hc, hp, List.count_pos_iff.mp hpos⟩
    · exact absurd hpos (by simp)
  · exact absurd hpos (by simp)

theorem Inv.queued (h : Inv s) {c : Client S} (hc : s.clients id = some c)
    (hp : c.phase.inQueue = true) (hk : k ∈ c.request.keys) : id ∈ s.queues k := by
  rw [← List.count_pos_iff, h.tickets k id, State.tickets, hc]
  simpa [hp] using List.count_pos_iff.mpr hk

/-- The key of a queue that is not empty is one that somebody waits on. -/
theorem Inv.mem_scopeKeys (h : Inv s) {scope : Scope} (hk : scope.covers k)
    (hmem : id ∈ s.queues k) : k ∈ s.scopeKeys scope := by
  obtain ⟨c, hc, -, hkey⟩ := h.mem_queue hmem
  have hwaited : k ∈ s.waited := by
    refine List.mem_flatMap.mpr ⟨id, h.present id c hc, ?_⟩
    simpa [hc] using hkey
  cases scope with
  | keys l => exact hk
  | database n => exact List.mem_filter.mpr ⟨hwaited, decide_eq_true hk⟩
  | all => exact hwaited

/-- More wakeups do no harm. -/
theorem Owed.weaken {t : State S} {c : Client S} (h : Owed s k id c) (hjobs : s.jobs ⊆ t.jobs)
    (hhand : ∀ j d, s.clients j = some d → d.phase = .handing → k ∈ d.request.keys →
      (∃ d', t.clients j = some d' ∧ d'.phase = .handing ∧ k ∈ d'.request.keys) ∨
        ∃ job ∈ t.jobs, job.covers k) : Owed t k id c := by
  cases h with
  | job job hmem hk => exact .job job (hjobs hmem) hk
  | send h => exact .send (hjobs h)
  | ready h => exact .ready h
  | busy h => exact .busy h
  | handing j d hd hp hk =>
    obtain ⟨d', hd', hp', hk'⟩ | ⟨job, hmem, hcov⟩ := hhand j d hd hp hk
    · exact .handing j d' hd' hp' hk'
    · exact .job job hmem hcov

section Frames

variable (h : Inv s)
include h

/-- A change of the dataset or the clock that is signalled. -/
theorem Inv.refresh {t : Instant} {data : Dataset S} {js : List Job} (hst : Prog.All Stored data)
    (hk : ∀ k x, kindAt t data k = some x →
      kindAt s.now s.data k = some x ∨ ∃ job ∈ js, job.covers k) :
    Inv { s with now := t, data := data, jobs := s.jobs ++ js } := by
  refine ⟨hst, h.tickets, h.present, h.alike, ?_⟩
  intro k id rest c hq hc hkind
  obtain hold | ⟨job, hmem, hcov⟩ := hk k _ hkind
  · refine (h.owed k id rest c hq hc hold).weaken (List.subset_append_left _ _) ?_
    intro j d hd hp hkd
    exact .inl ⟨d, hd, hp, hkd⟩
  · exact .job job (List.mem_append_right _ hmem) hcov

/-- A client that moves on within its phase of being queued, or of not being queued. -/
theorem Inv.put {c c' : Client S} (hc : s.clients id = some c) (hreq : c'.request = c.request)
    (hq : c'.phase.inQueue = c.phase.inQueue) (hhand : c.phase = .handing → c'.phase = .handing)
    (howed : ∀ k rest, s.queues k = id :: rest → kindAt s.now s.data k = some c.request.want →
      Owed s k id c → Owed (s.put id c') k id c') : Inv (s.put id c') := by
  have hclient (j : ℕ) (d : Client S) (hd : (s.put id c').clients j = some d) :
      ∃ d', s.clients j = some d' ∧ d'.request = d.request ∧ (j ≠ id → d' = d) := by
    by_cases hj : j = id
    · subst hj
      have : c' = d := by simpa [State.put] using hd
      exact ⟨c, hc, this ▸ hreq.symm, fun hne => absurd rfl hne⟩
    · exact ⟨d, by simpa [State.put, hj] using hd, rfl, fun _ => rfl⟩
  refine ⟨h.stored, ?_, ?_, ?_, ?_⟩
  · intro k j
    rw [show (s.put id c').queues k = s.queues k from rfl, h.tickets k j]
    by_cases hj : j = id
    · subst hj
      simp [State.tickets, State.put, hc, hreq, hq]
    · simp [State.tickets, State.put, hj]
  · intro j d hd
    obtain ⟨d', hd', -⟩ := hclient j d hd
    exact h.present j d' hd'
  · intro k i j d e hi hj hd he
    obtain ⟨d', hd', hdr, -⟩ := hclient i d hd
    obtain ⟨e', he', her, -⟩ := hclient j e he
    rw [← hdr, ← her]
    exact h.alike k i j d' e' hi hj hd' he'
  · intro k j rest d hqk hd hkind
    obtain ⟨d', hd', hdr, hsame⟩ := hclient j d hd
    have hold := h.owed k j rest d' hqk hd' (hdr ▸ hkind)
    by_cases hj : j = id
    · subst hj
      obtain rfl : c = d' := Option.some.inj (hc.symm.trans hd')
      obtain rfl : c' = d := by simpa [State.put] using hd
      exact howed k rest hqk (hdr ▸ hkind) hold
    · obtain rfl := hsame hj
      refine hold.weaken (List.Subset.refl _) ?_
      intro i e he hp hk
      by_cases hi : i = id
      · subst hi
        obtain rfl : c = e := Option.some.inj (hc.symm.trans he)
        exact .inl ⟨c', by simp [State.put], hhand hp, hreq ▸ hk⟩
      · exact .inl ⟨e, by simpa [State.put, hi] using he, hp, hk⟩

/-- A client outside the queues goes away; what it had to hand on is a wakeup. -/
theorem Inv.drop {c : Client S} (hc : s.clients id = some c) (hq : c.phase.inQueue = false)
    {b : ℤ} {js : List Job}
    (hhand : c.phase = .handing → ∀ k ∈ c.request.keys, ∃ job ∈ js, job.covers k) :
    Inv { s with
      clients := Function.update s.clients id none, blocked := b, jobs := s.jobs ++ js } := by
  have hclient (j : ℕ) (d : Client S) (hd : Function.update s.clients id none j = some d) :
      s.clients j = some d := by
    by_cases hj : j = id
    · exact absurd hd (by simp [hj])
    · simpa [hj] using hd
  refine ⟨h.stored, ?_, fun j d hd => h.present j d (hclient j d hd), ?_, ?_⟩
  · intro k j
    dsimp only
    rw [h.tickets k j]
    by_cases hj : j = id
    · subst hj
      simp [State.tickets, hc, hq]
    · simp [State.tickets, hj]
  · intro k i j d e hi hj hd he
    exact h.alike k i j d e hi hj (hclient i d hd) (hclient j e he)
  · intro k j rest d hqk hd hkind
    refine (h.owed k j rest d hqk (hclient j d hd) hkind).weaken (List.subset_append_left _ _) ?_
    intro i e he hp hk
    by_cases hi : i = id
    · subst hi
      obtain rfl : c = e := Option.some.inj (hc.symm.trans he)
      obtain ⟨job, hmem, hcov⟩ := hhand hp k hk
      exact .inr ⟨job, List.mem_append_right _ hmem, hcov⟩
    · exact .inl ⟨e, by simpa [hi] using he, hp, hk⟩

theorem Inv.ne_of_mem (hnone : s.clients id = none) {j : ℕ} (hj : j ∈ s.queues k) : j ≠ id := by
  rintro rfl
  obtain ⟨c, hc, -⟩ := h.mem_queue hj
  exact absurd (hc.symm.trans hnone) (Option.some_ne_none c)

theorem Inv.arrive (hnone : s.clients id = none) (r : Request S) :
    Inv { s.put id ⟨r, .arrived, false⟩ with ids := id :: s.ids } := by
  have hother {j : ℕ} (hj : j ≠ id) :
      (s.put id ⟨r, .arrived, false⟩).clients j = s.clients j := by
    simp [State.put, hj]
  refine ⟨h.stored, ?_, ?_, ?_, ?_⟩
  · intro k j
    refine (h.tickets k j).trans ?_
    by_cases hj : j = id
    · subst hj
      simp [State.tickets, State.put, hnone, Phase.inQueue]
    · simp [State.tickets, State.put, hj]
  · intro j d hd
    by_cases hj : j = id
    · exact hj ▸ List.mem_cons_self
    · exact List.mem_cons_of_mem _ (h.present j d ((hother hj).symm.trans hd))
  · intro k i j d e hi hj hd he
    exact h.alike k i j d e hi hj ((hother (h.ne_of_mem hnone hi)).symm.trans hd)
      ((hother (h.ne_of_mem hnone hj)).symm.trans he)
  · intro k j rest d hq hd hkind
    have hmem : j ∈ s.queues k := by
      rw [show s.queues k = j :: rest from hq]
      exact List.mem_cons_self
    have hold := h.owed k j rest d hq ((hother (h.ne_of_mem hnone hmem)).symm.trans hd) hkind
    refine hold.weaken (List.Subset.refl _) ?_
    intro i e he hp hk
    have hi : i ≠ id := by
      rintro rfl
      exact absurd (he.symm.trans hnone) (Option.some_ne_none e)
    exact .inl ⟨e, (hother hi).trans he, hp, hk⟩

theorem Inv.enqueue {c : Client S} (hc : s.clients id = some c) (hp : c.phase = .unserved)
    (hcalm : Calm s (.enqueue id)) :
    Inv { s.put id { c with phase := .queued } with
      queues := fun k => s.queues k ++ List.replicate (c.request.keys.count k) id } := by
  have hout (k : Loc) : id ∉ s.queues k := by
    rw [← List.count_eq_zero, h.tickets k id, State.tickets, hc]
    simp [hp, Phase.inQueue]
  have hother {j : ℕ} (hj : j ≠ id) :
      (s.put id { c with phase := .queued }).clients j = s.clients j := by
    simp [State.put, hj]
  have hself {d : Client S} (hd : (s.put id { c with phase := .queued }).clients id = some d) :
      d.request = c.request := by
    simp [State.put] at hd
    rw [← hd]
  have hkeys {k : Loc} {j : ℕ} (hj : j ∈ List.replicate (c.request.keys.count k) id) :
      j = id ∧ k ∈ c.request.keys := by
    obtain ⟨hne, rfl⟩ := List.mem_replicate.mp hj
    exact ⟨rfl, List.count_pos_iff.mp (Nat.pos_of_ne_zero hne)⟩
  refine ⟨h.stored, ?_, ?_, ?_, ?_⟩
  · intro k j
    dsimp only
    rw [List.count_append, h.tickets k j]
    by_cases hj : j = id
    · subst hj
      simp [State.tickets, State.put, hc, hp, Phase.inQueue]
    · simp [State.tickets, State.put, hj, List.count_replicate, Ne.symm hj]
  · intro j d hd
    by_cases hj : j = id
    · exact h.present j c (hj ▸ hc)
    · exact h.present j d ((hother hj).symm.trans hd)
  · intro k i j d e hi hj hd he
    -- what an old member of the queue wants
    have hwant {i : ℕ} {d : Client S} (hi : i ∈ s.queues k) (hk : k ∈ c.request.keys)
        (hd : (s.put id { c with phase := .queued }).clients i = some d) :
        d.request.want = c.request.want :=
      (hcalm c hc k hk).1 i hi d ((hother (fun heq => hout k (heq ▸ hi))).symm.trans hd)
    obtain hiold | hinew := List.mem_append.mp hi <;> obtain hjold | hjnew := List.mem_append.mp hj
    · exact h.alike k i j d e hiold hjold
        ((hother fun heq => hout k (heq ▸ hiold)).symm.trans hd)
        ((hother fun heq => hout k (heq ▸ hjold)).symm.trans he)
    · obtain ⟨rfl, hk⟩ := hkeys hjnew
      rw [hself he]
      exact hwant hiold hk hd
    · obtain ⟨rfl, hk⟩ := hkeys hinew
      rw [hself hd]
      exact (hwant hjold hk he).symm
    · obtain ⟨rfl, -⟩ := hkeys hinew
      obtain ⟨rfl, -⟩ := hkeys hjnew
      rw [hself hd, hself he]
  · intro k j rest d hq hd hkind
    have hweaken {j : ℕ} {d : Client S} (hold : Owed s k j d) :
        Owed { s.put id { c with phase := .queued } with
          queues := fun k => s.queues k ++ List.replicate (c.request.keys.count k) id } k j d := by
      refine hold.weaken (List.Subset.refl _) ?_
      intro i e he hpe hk
      have hi : i ≠ id := by
        rintro rfl
        exact absurd hpe (by rw [← Option.some.inj (hc.symm.trans he), hp]; decide)
      exact .inl ⟨e, (hother hi).trans he, hpe, hk⟩
    cases hold : s.queues k with
    | nil =>
      -- it is the first in the queue, so the value it finds must be announced
      have hmem : j ∈ List.replicate (c.request.keys.count k) id := by
        rw [show List.replicate (c.request.keys.count k) id = j :: rest by simpa [hold] using hq]
        exact List.mem_cons_self
      obtain ⟨rfl, hk⟩ := hkeys hmem
      obtain ⟨job, hjob, hcov⟩ := (hcalm c hc k hk).2 hold (hself hd ▸ hkind)
      exact .job job hjob hcov
    | cons j' rest' =>
      obtain rfl : j' = j := by
        have hcons : j' :: (rest' ++ List.replicate (c.request.keys.count k) id) = j :: rest := by
          rw [← List.cons_append, ← hold]
          exact hq
        exact (List.cons.inj hcons).1
      have hne : j' ≠ id := fun heq => hout k (by rw [hold, heq]; exact List.mem_cons_self)
      exact hweaken (h.owed k j' rest' d hold ((hother hne).symm.trans hd) hkind)

theorem Inv.leave {c : Client S} (hc : s.clients id = some c) (hp : c.phase = .leaving) :
    Inv { s.put id { c with phase := .handing } with
      queues := fun k => (s.queues k).diff (List.replicate (c.request.keys.count k) id) } := by
  have hother {j : ℕ} (hj : j ≠ id) :
      (s.put id { c with phase := .handing }).clients j = s.clients j := by
    simp [State.put, hj]
  have hcount (k : Loc) : (s.queues k).count id = c.request.keys.count k := by
    rw [h.tickets k id, State.tickets, hc]
    simp [hp, Phase.inQueue]
  have hgone {k : Loc} {j : ℕ}
      (hj : j ∈ (s.queues k).diff (List.replicate (c.request.keys.count k) id)) :
      j ∈ s.queues k ∧ j ≠ id := by
    refine ⟨List.diff_subset _ _ hj, ?_⟩
    rintro rfl
    have hpos := List.count_pos_iff.mpr hj
    rw [List.count_diff, hcount, List.count_replicate_self, Nat.sub_self] at hpos
    exact absurd hpos (by decide)
  refine ⟨h.stored, ?_, ?_, ?_, ?_⟩
  · intro k j
    dsimp only
    rw [List.count_diff, h.tickets k j]
    by_cases hj : j = id
    · subst hj
      simp [State.tickets, State.put, hc, hp, Phase.inQueue]
    · simp [State.tickets, State.put, hj, List.count_replicate, Ne.symm hj]
  · intro j d hd
    by_cases hj : j = id
    · exact h.present j c (hj ▸ hc)
    · exact h.present j d ((hother hj).symm.trans hd)
  · intro k i j d e hi hj hd he
    obtain ⟨hi, hid⟩ := hgone hi
    obtain ⟨hj, hjd⟩ := hgone hj
    exact h.alike k i j d e hi hj ((hother hid).symm.trans hd) ((hother hjd).symm.trans he)
  · intro k j rest d hq hd hkind
    by_cases hk : k ∈ c.request.keys
    · exact .handing id { c with phase := .handing } (by simp [State.put]) rfl hk
    · dsimp only at hq
      rw [List.count_eq_zero.mpr hk, List.replicate_zero, List.diff_nil] at hq
      have hj : j ≠ id := by
        rintro rfl
        refine hk (List.count_pos_iff.mp ?_)
        rw [← hcount, hq]
        exact List.count_pos_iff.mpr List.mem_cons_self
      refine (h.owed k j rest d hq ((hother hj).symm.trans hd) hkind).weaken (List.Subset.refl _) ?_
      intro i e he hpe hki
      have hi : i ≠ id := by
        rintro rfl
        exact absurd hpe (by rw [← Option.some.inj (hc.symm.trans he), hp]; decide)
      exact .inl ⟨e, (hother hi).trans he, hpe, hki⟩

/-- A wakeup goes on to the next of its steps. -/
theorem Inv.exchange {job : Job} {rest js : List Job} (hmem : ∀ j ∈ s.jobs, j = job ∨ j ∈ rest)
    (hsend : ∀ id, job ≠ .send id)
    (hcov : ∀ k id tail, s.queues k = id :: tail → job.covers k →
      (∃ j ∈ js, j.covers k) ∨ Job.send id ∈ js) : Inv { s with jobs := rest ++ js } := by
  refine ⟨h.stored, h.tickets, h.present, h.alike, ?_⟩
  intro k id tail c hq hc hkind
  cases h.owed k id tail c hq hc hkind with
  | job j hj hk =>
    obtain rfl | hrest := hmem j hj
    · obtain ⟨j', hj', hk'⟩ | hid := hcov k id tail hq hk
      · exact .job j' (List.mem_append_right _ hj') hk'
      · exact .send (List.mem_append_right _ hid)
    · exact .job j (List.mem_append_left _ hrest) hk
  | send hj => exact .send (List.mem_append_left _ ((hmem _ hj).resolve_left (hsend id).symm))
  | ready hr => exact .ready hr
  | busy hb => exact .busy hb
  | handing j d hd hp hk => exact .handing j d hd hp hk

/-- A send is done once its client has the signal. -/
theorem Inv.sent {rest : List Job} (hmem : ∀ j ∈ s.jobs, j = .send id ∨ j ∈ rest)
    (hready : ∀ c, s.clients id = some c → c.ready = true) : Inv { s with jobs := rest } := by
  refine ⟨h.stored, h.tickets, h.present, h.alike, ?_⟩
  intro k j tail c hq hc hkind
  cases h.owed k j tail c hq hc hkind with
  | job j hj hk =>
    obtain rfl | hrest := hmem j hj
    · exact hk.elim
    · exact .job j hrest hk
  | send hj =>
    obtain hid | hrest := hmem _ hj
    · obtain rfl := Job.send.inj hid
      exact .ready (hready c hc)
    · exact .send hrest
  | ready hr => exact .ready hr
  | busy hb => exact .busy hb
  | handing j d hd hp hk => exact .handing j d hd hp hk

end Frames

section Steps

theorem signals_covers {v : View} {commands : List Args} (hk : (Job.signal v commands).covers k) :
    ∃ job ∈ State.signals v commands, job.covers k := by
  obtain ⟨args, hmem, hcov⟩ := hk
  refine ⟨.signal v commands, ?_, args, hmem, hcov⟩
  rw [State.signals, if_neg (by simp [List.ne_nil_of_mem hmem])]
  exact List.mem_singleton_self _

/-- The clock only takes entries away. -/
theorem kindAt_later {now t : Instant} (hle : now ≤ t) {data : Dataset S} {x : Kind}
    (hx : kindAt t data k = some x) : kindAt now data k = some x := by
  obtain ⟨e, he, hkind⟩ := Option.map_eq_some_iff.mp hx
  obtain ⟨hdata, hlive⟩ := Option.filter_eq_some_iff.mp he
  refine Option.map_eq_some_iff.mpr ⟨e, Option.filter_eq_some_iff.mpr ⟨hdata, ?_⟩, hkind⟩
  exact live_mono hle e hlive

/-- A report reaches the queues of the keys it names. -/
theorem signal_covers_of_reports {v : View} {commands : List Args} (h : Reports v commands k) :
    (Job.signal v commands).covers k := by
  obtain ⟨args, hmem, hk⟩ := h
  refine ⟨args, hmem, ?_⟩
  unfold scopeOf
  dsimp only
  split_ifs with hall hdb
  · trivial
  · -- FLUSHDB names no key of another database
    rw [affectedDBKeys, hdb, crossDBTarget_none (by decide) (by decide) args, Option.toList_none,
      List.append_nil] at hk
    obtain ⟨key, -, hkey⟩ := List.mem_map.mp hk
    exact (Int.ofNat.inj (congrArg Prod.fst hkey)).symm
  · exact List.mem_filterMap.mpr ⟨_, hk, by simp [toLoc]⟩

variable (h : Inv s)
include h

/-- An attempt that changed a key is signalled. -/
theorem Inv.attempt_kind (r : Request S) {k : Loc} {x : Kind}
    (hx : kindAt s.now (s.attempt r).2 k = some x) :
    kindAt s.now s.data k = some x ∨
      ∃ job ∈ State.signals r.view (s.attempt r).1.2, job.covers k := by
  by_cases hsame : seen (live s.now) (s.attempt r).2 k = seen (live s.now) s.data k
  · rw [kindAt, hsame] at hx
    exact .inl hx
  · exact .inr (signals_covers (signal_covers_of_reports (r.reports _ _ h.stored k hsame)))

theorem Inv.attempt_stored (r : Request S) : Prog.All Stored (s.attempt r).2 :=
  r.keeps _ _ h.stored

/-- What an attempt leaves when it asks to wait: no key that could serve it. -/
theorem Inv.attempt_waits {r : Request S} (hr : unserved (s.attempt r).1 = true) :
    (∀ k ∈ r.keys, kindAt s.now s.data k ≠ some r.want) ∧
      State.signals r.view (s.attempt r).1.2 = [] := by
  rw [unserved, Bool.and_eq_true, Option.isNone_iff_eq_none, List.isEmpty_iff] at hr
  exact ⟨r.waits s.now s.data h.stored hr.1, by rw [State.signals, hr.2]; rfl⟩

theorem Inv.attempted (r : Request S) :
    Inv { s with
      data := (s.attempt r).2, jobs := s.jobs ++ State.signals r.view (s.attempt r).1.2 } :=
  h.refresh (h.attempt_stored r) fun _ _ hx => h.attempt_kind r hx

/-- An attempt that asks to wait leaves no key that could serve it. -/
theorem Inv.attempted_wait {r : Request S} (hr : unserved (s.attempt r).1 = true) :
    Inv { s with data := (s.attempt r).2 } ∧
      ∀ k ∈ r.keys, kindAt s.now (s.attempt r).2 k ≠ some r.want := by
  obtain ⟨hidle, hnone⟩ := h.attempt_waits hr
  constructor
  · have hdata := h.attempted r
    rw [hnone, List.append_nil] at hdata
    exact hdata
  · intro k hk hkind
    obtain hold | ⟨job, hmem, -⟩ := h.attempt_kind r hkind
    · exact hidle k hk hold
    · exact absurd hmem (by simp [hnone])

theorem Inv.recount (b : ℤ) : Inv { s with blocked := b } := by
  refine ⟨h.stored, h.tickets, h.present, h.alike, ?_⟩
  intro k id rest c hq hc hkind
  exact (h.owed k id rest c hq hc hkind).weaken (List.Subset.refl _)
    fun j d hd hp hk => .inl ⟨d, hd, hp, hk⟩

/-- A signal may reach a client before it is counted, and is still there after. -/
theorem Inv.counted {c : Client S} (hc : s.clients id = some c) (hp : c.phase = .queued) :
    Inv (s.put id { c with phase := .parked }) := by
  have hne {d : Client S} (hd : s.clients id = some d) : d.phase ≠ .handing := by
    rw [← Option.some.inj (hc.symm.trans hd), hp]
    decide
  refine h.put hc rfl (by rw [hp]; rfl) (fun hpp => absurd hpp (hne hc)) ?_
  intro k rest _ _ hold
  cases hold with
  | job job hmem hk => exact .job job hmem hk
  | send hsend => exact .send hsend
  | ready hready => exact .ready hready
  | busy hbusy => exact absurd hbusy (by rw [hp]; decide)
  | handing j d hd hpd hk =>
    have hj : j ≠ id := by
      rintro rfl
      exact hne hd hpd
    exact .handing j d (by simpa [State.put, hj] using hd) hpd hk

/-- Whoever moves on while it is going to look anyway. -/
theorem Inv.put_busy {c c' : Client S} (hc : s.clients id = some c) (hreq : c'.request = c.request)
    (hq : c'.phase.inQueue = c.phase.inQueue) (hne : c.phase ≠ .handing)
    (hbusy : c'.phase = .retrying ∨ c'.phase = .attempting ∨ c'.phase = .leaving) :
    Inv (s.put id c') :=
  h.put hc hreq hq (fun hp => absurd hp hne) fun _ _ _ _ _ => .busy hbusy

/-- Whoever parks where no key can serve it. -/
theorem Inv.put_idle {c c' : Client S} (hc : s.clients id = some c) (hreq : c'.request = c.request)
    (hq : c'.phase.inQueue = c.phase.inQueue) (hne : c.phase ≠ .handing)
    (hidle : ∀ k ∈ c.request.keys, kindAt s.now s.data k ≠ some c.request.want) :
    Inv (s.put id c') := by
  refine h.put hc hreq hq (fun hp => absurd hp hne) ?_
  intro k rest hqk hkind
  have hmem : id ∈ s.queues k := by
    rw [hqk]
    exact List.mem_cons_self
  obtain ⟨d, hd, -, hk⟩ := h.mem_queue hmem
  obtain rfl : c = d := Option.some.inj (hc.symm.trans hd)
  exact absurd hkind (hidle k hk)

/-- A client outside the queues may do as it likes. -/
theorem Inv.put_out {c c' : Client S} (hc : s.clients id = some c) (hreq : c'.request = c.request)
    (hout : c.phase.inQueue = false) (hout' : c'.phase.inQueue = false)
    (hne : c.phase ≠ .handing) : Inv (s.put id c') := by
  refine h.put hc hreq (hout'.trans hout.symm) (fun hp => absurd hp hne) ?_
  intro k rest hqk
  have hmem : id ∈ s.queues k := by
    rw [hqk]
    exact List.mem_cons_self
  obtain ⟨d, hd, hp, -⟩ := h.mem_queue hmem
  obtain rfl : c = d := Option.some.inj (hc.symm.trans hd)
  exact absurd (hout.symm.trans hp) (by decide)

theorem Inv.perform {i : ℕ} {job : Job} (hi : s.jobs[i]? = some job)
    (hcalm : Calm s (.work i)) : Inv (s.perform job (s.jobs.eraseIdx i)) := by
  have hmem : ∀ j ∈ s.jobs, j = job ∨ j ∈ s.jobs.eraseIdx i := by
    intro j hj
    obtain ⟨hlt, rfl⟩ := List.getElem?_eq_some_iff.mp hi
    exact List.mem_cons.mp ((List.getElem_cons_eraseIdx_perm hlt).mem_iff.mpr hj)
  cases job with
  | signal v commands =>
    rw [State.perform]
    split_ifs with hb
    · have hnil : Inv { s with jobs := s.jobs.eraseIdx i ++ [] } := by
        refine h.exchange hmem (fun _ => Job.noConfusion) ?_
        intro k id tail hq hk
        exact absurd ((hcalm v commands hi hb k hk).symm.trans hq) (List.cons_ne_nil _ _).symm
      simpa using hnil
    · refine h.exchange hmem (fun _ => Job.noConfusion) ?_
      rintro k id tail - ⟨args, hargs, hk⟩
      exact .inl ⟨.wake (scopeOf v args), List.mem_map_of_mem hargs, hk⟩
  | wake scope =>
    refine h.exchange hmem (fun _ => Job.noConfusion) ?_
    intro k id tail hq hk
    have hhead : id ∈ s.queues k := by
      rw [hq]
      exact List.mem_cons_self
    refine .inr (List.mem_map_of_mem (List.mem_filterMap.mpr ⟨k, h.mem_scopeKeys hk hhead, ?_⟩))
    rw [hq]
    rfl
  | send id =>
    rw [State.perform]
    cases hc : s.clients id with
    | none =>
      have hsame : Function.update s.clients id none = s.clients := by
        rw [← hc]
        exact Function.update_eq_self id s.clients
      rw [Option.map_none, hsame]
      exact h.sent hmem fun c hc' => absurd (hc'.symm.trans hc) (Option.some_ne_none c)
    | some c =>
      have hput : Inv (s.put id { c with ready := true }) :=
        h.put hc rfl rfl (fun hp => hp) fun _ _ _ _ _ => .ready rfl
      refine hput.sent hmem ?_
      intro d hd
      rw [← Option.some.inj ((Function.update_self id _ s.clients).symm.trans hd)]

theorem step_inv {l : Label S} {t : State S} (hcalm : Calm s l) (hstep : step s l = some t) :
    Inv t := by
  cases l with
  | arrive id r =>
    rw [step] at hstep
    split_ifs at hstep with hnone
    rw [← Option.some.inj hstep]
    exact h.arrive (by simpa using hnone) r
  | look id =>
    obtain ⟨c, hc, hp, hstep⟩ := bind_inPhase hstep
    rw [← Option.some.inj hstep]
    refine h.put_out hc rfl (by rw [hp]; rfl) ?_ (by rw [hp]; decide)
    dsimp only
    split <;> rfl
  | tryFirst id =>
    obtain ⟨c, hc, hp, hstep⟩ := bind_inPhase hstep
    dsimp only at hstep
    split_ifs at hstep with hr
    · rw [← Option.some.inj hstep]
      exact (h.attempted_wait hr).1.put_out hc rfl (by rw [hp]; rfl) rfl (by rw [hp]; decide)
    · rw [← Option.some.inj hstep]
      have hnone : c.phase = .handing → ∀ k ∈ c.request.keys, ∃ job ∈ ([] : List Job), job.covers k := by
        rw [hp]
        exact fun hpp => absurd hpp (by decide)
      simpa using (h.attempted c.request).drop (b := s.blocked) hc (by rw [hp]; rfl) hnone
  | enqueue id =>
    obtain ⟨c, hc, hp, hstep⟩ := bind_inPhase hstep
    rw [← Option.some.inj hstep]
    exact h.enqueue hc hp hcalm
  | count id =>
    obtain ⟨c, hc, hp, hstep⟩ := bind_inPhase hstep
    rw [← Option.some.inj hstep]
    exact (h.counted hc hp).recount _
  | wakeup id =>
    obtain ⟨c, hc, hp, hstep⟩ := bind_inPhase hstep
    split_ifs at hstep with hready
    rw [← Option.some.inj hstep]
    exact h.put_busy hc rfl (by rw [hp]; rfl) (by rw [hp]; decide) (.inl rfl)
  | check id =>
    obtain ⟨c, hc, hp, hstep⟩ := bind_inPhase hstep
    rw [← Option.some.inj hstep]
    split_ifs with hserve
    · exact h.put_busy hc rfl (by rw [hp]; rfl) (by rw [hp]; decide) (.inr (.inl rfl))
    · refine h.put_idle hc rfl (by rw [hp]; rfl) (by rw [hp]; decide) ?_
      simpa [State.serviceable] using hserve
  | retry id =>
    obtain ⟨c, hc, hp, hstep⟩ := bind_inPhase hstep
    dsimp only at hstep
    split_ifs at hstep with hr
    · rw [← Option.some.inj hstep]
      obtain ⟨hdata, hidle⟩ := h.attempted_wait hr
      exact hdata.put_idle hc rfl (by rw [hp]; rfl) (by rw [hp]; decide) hidle
    · rw [← Option.some.inj hstep]
      exact (h.attempted c.request).put_busy hc rfl (by rw [hp]; rfl) (by rw [hp]; decide)
        (.inr (.inr rfl))
  | giveUp id =>
    obtain ⟨c, hc, hp, hstep⟩ := bind_inPhase hstep
    rw [← Option.some.inj hstep]
    exact h.put_busy hc rfl (by rw [hp]; rfl) (by rw [hp]; decide) (.inr (.inr rfl))
  | leave id =>
    obtain ⟨c, hc, hp, hstep⟩ := bind_inPhase hstep
    rw [← Option.some.inj hstep]
    exact h.leave hc hp
  | handOn id =>
    obtain ⟨c, hc, hp, hstep⟩ := bind_inPhase hstep
    rw [← Option.some.inj hstep]
    refine h.drop hc (by rw [hp]; rfl) ?_
    intro _ k hk
    exact ⟨_, List.mem_singleton_self _, hk⟩
  | write w =>
    rw [step] at hstep
    split_ifs at hstep with hnow
    rw [← Option.some.inj hstep]
    refine h.refresh (w.sound.keeps _ _ h.stored) ?_
    intro k x hx
    by_cases hsame : kindAt s.now ((w.command.apply w.view w.env w.args).run (live s.now) s.data).2 k =
        kindAt s.now s.data k
    · exact .inl (hsame.symm.trans hx)
    · obtain ⟨hdirty, hk⟩ := hcalm k hsame
      rw [if_pos hdirty]
      exact .inr (signals_covers hk)
  | work i =>
    obtain ⟨job, hi, rfl⟩ := Option.map_eq_some_iff.mp hstep
    exact h.perform hi hcalm
  | tick t =>
    rw [step] at hstep
    split_ifs at hstep with hle
    rw [← Option.some.inj hstep]
    have hlater : Inv { s with now := t, data := s.data, jobs := s.jobs ++ [] } :=
      h.refresh h.stored fun k x hx => .inl (kindAt_later hle hx)
    simpa using hlater

end Steps

/-- A command that reports every key it changes keeps to the condition on writes. -/
theorem calm_of_complete {w : WriteCall S} (h : Inv s) (hnow : w.env.now = s.now)
    (hc : Complete w.command w.view w.args) : Calm s (.write w) := by
  intro k hk
  have hne : seen (live s.now) ((w.command.apply w.view w.env w.args).run (live s.now) s.data).2 k ≠
      seen (live s.now) s.data k := by
    intro heq
    exact hk (congrArg (Option.map fun e : Entry S => kind e.value) heq)
  constructor
  · by_contra hdirty
    have hsame : seen (live s.now)
        ((w.command.apply w.view w.env w.args).run (live s.now) s.data).2 =
          seen (live s.now) s.data :=
      w.sound.honest (live s.now) s.data h.stored (by simpa using hdirty)
    exact hne (congrFun hsame k)
  · have hreport := hc w.env s.data h.stored k
    rw [hnow] at hreport
    exact signal_covers_of_reports (hreport hne)

theorem Inv.not_lost (h : Inv s) : ¬ Lost s := by
  rintro ⟨hjobs, hparked, id, c, hc, k, hk, hkind⟩
  have hmem : id ∈ s.queues k := h.queued hc (by rw [(hparked id c hc).1]; rfl) hk
  obtain ⟨j, rest, hq⟩ := List.exists_cons_of_ne_nil (List.ne_nil_of_mem hmem)
  have hhead : j ∈ s.queues k := by
    rw [hq]
    exact List.mem_cons_self
  obtain ⟨d, hd, -, -⟩ := h.mem_queue hhead
  obtain ⟨hpd, hrd⟩ := hparked j d hd
  rw [h.alike k id j c d hmem hhead hc hd] at hkind
  cases h.owed k j rest d hq hd hkind with
  | job job hmem => exact absurd hmem (by simp [hjobs])
  | send hsend => exact absurd hsend (by simp [hjobs])
  | ready hready => exact absurd (hrd.symm.trans hready) (by decide)
  | busy hbusy => exact absurd hbusy (by rw [hpd]; decide)
  | handing i e he hpe => exact absurd ((hparked i e he).1.symm.trans hpe) (by decide)

/-- In every run whose steps meet the condition, no wakeup is lost. -/
theorem no_lost_wakeup (now : Instant) {data : Dataset S} (hdata : Prog.All Stored data)
    {t : State S} (h : Reaches step Calm (State.start now data) t) : ¬ Lost t :=
  (h.invariant (fun _ _ _ hs hcalm hstep => step_inv hs hcalm hstep)
    (start_inv now hdata)).not_lost

def standalone : View := ⟨0, 16, false⟩

/-- BLPOP a 0. -/
def waitForA : Request ℤ := bPop standalone (Env.at 0) (["BLPOP", "a", "0"].map ascii) true

/-- BLPOP a b 0. -/
def waitForAB : Request ℤ := bPop standalone (Env.at 0) (["BLPOP", "a", "b", "0"].map ascii) true

/-- RPUSH b x. -/
def pushB : WriteCall ℤ :=
  dataWrite standalone (Env.at 0) (["RPUSH", "b", "x"].map ascii)
    (show dataTable.resolve _ = some ⟨-3, .write cmdRPush⟩ from rfl)

/-- A client that parks on an empty key has missed nothing. -/
theorem no_lost_wakeup_parked :
    ∃ t : State ℤ, Reaches step Calm (State.start 0 emptyDataset) t ∧
      (t.clients 1).map (fun c => c.phase) = some .parked ∧ ¬ Lost t := by
  have hcalm (t : State ℤ) (ht : play step (State.start 0 emptyDataset)
      [.arrive 1 waitForA, .look 1, .tryFirst 1] = some t) : Calm t (.enqueue 1) := by
    intro c hc k hk
    obtain rfl := Option.some.inj ht
    obtain rfl := Option.some.inj hc
    obtain rfl := List.mem_singleton.mp hk
    exact ⟨fun j hj => absurd hj List.not_mem_nil, fun _ h => absurd h (by decide)⟩
  have hrun : Reaches step Calm (State.start 0 (emptyDataset : Dataset ℤ)) _ :=
    .head (.arrive 1 waitForA) trivial rfl <| .head (.look 1) trivial rfl <|
      .head (.tryFirst 1) trivial rfl <| .head (.enqueue 1) (hcalm _ rfl) rfl <|
        .head (.count 1) trivial rfl .refl
  exact ⟨_, hrun, rfl, no_lost_wakeup 0 (fun _ _ h => absurd h (by simp [emptyDataset])) hrun⟩

/-- Client 2 finds client 1 queued on `a`, makes no attempt, and parks on `b`, which
holds an element that was signalled before it came. -/
def declinedAttempt : List (Label ℤ) :=
  [.arrive 1 waitForA, .look 1, .tryFirst 1, .enqueue 1, .count 1,
    .write pushB, .work 0, .work 0,
    .arrive 2 waitForAB, .look 2, .enqueue 2, .count 2]

theorem blpop_parks_on_full_list :
    ∃ t, Reachable step (State.start 0 (emptyDataset : Dataset ℤ)) t ∧ Lost t := by
  refine ⟨_, reachable_of_play
    (show play step (State.start 0 emptyDataset) declinedAttempt = some _ from rfl),
    rfl, ?_, 2, _, rfl, (0, ascii "b"), List.mem_cons_of_mem _ List.mem_cons_self, rfl⟩
  intro id c hc
  by_cases h2 : id = 2
  · subst h2
    obtain rfl := Option.some.inj hc
    exact ⟨rfl, rfl⟩
  · by_cases h1 : id = 1
    · subst h1
      obtain rfl := Option.some.inj hc
      exact ⟨rfl, rfl⟩
    · simp [State.put, State.start, State.perform, h1, h2] at hc

end ShardKV.Blocking
