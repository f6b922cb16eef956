import ShardKV.Access.Machine
import ShardKV.Replication.Offset

/-! Replacing a replication link. REPLICAOF cancels the context of the link that is there and
returns; the goroutine of the link learns of it where it next looks at its context or at its
connection, which a third goroutine closes. Between two such places it goes on with what it
has read. -/

namespace ShardKV.Replication

open Access Checked Resp Server

section System

/-- Where the goroutine of a link is. -/
inductive Place
  | top
  | dialing
  | opened
  | asking (wanted : ℤ)
  | flushing (id : Bytes) (start : ℤ)
  | flushed (id : Bytes) (start : ℤ)
  | snapshotTop (id : Bytes) (start : ℤ)
  | snapshotReading (id : Bytes) (start : ℤ)
  | snapshotApplying (id : Bytes) (start : ℤ) (args : Args)
  | adopting (id : Bytes) (start : ℤ)
  | streamTop (offset : ℤ)
  | streamReading (offset : ℤ)
  | applying (args : Args) (offset : ℤ)
  | forwarding (args : Args) (offset : ℤ)
  | recording (offset : ℤ)
  | closing
  | sleeping
  | done
  deriving DecidableEq

/-- The goroutine of a link: its place, whether its context is cancelled, whether it has an open
connection, the commands that are buffered there, and its applier. -/
structure Worker (A : Type) where
  place : Place
  cancelled : Bool
  connected : Bool
  buffered : List Args
  applier : A

/-- What the goroutines of a server share. -/
structure Shared (D : Type) where
  dataset : D
  masterReplID : Bytes
  slaveOffset : ℤ
  masterAddr : Bytes
  forwarded : List Args

structure Node (D A : Type) where
  shared : Shared D
  workers : List (Worker A)

/-- What comes from outside into a step of a link. -/
inductive Outcome
  | go
  | fail
  | dialled
  | answer (full : Option (Bytes × ℤ)) (buffered : List Args)
  | arrive (args : Args) (buffered : List Args)
  deriving DecidableEq

/-- The steps: REPLICAOF, with no address for NO ONE, a step of a link, the close of its
connection after its context was cancelled, and a change of the dataset by someone else. -/
inductive Action (D : Type)
  | replicaOf (addr : Bytes)
  | work (i : ℕ) (outcome : Outcome)
  | close (i : ℕ)
  | write (dataset : D)

variable {D A : Type} (flush : D → D) (feed : A → D → Args → A × D) (fresh : A)

/-- The next command: a buffered one, or the first of what arrives on an open connection. -/
def Worker.next (w : Worker A) : Outcome → Option (Args × List Args)
  | .go =>
    match w.buffered with
    | [] => none
    | args :: rest => some (args, rest)
  | .arrive args rest => if w.buffered = [] ∧ w.connected then some (args, rest) else none
  | _ => none

/-- A step of a link: the goroutine afterwards, and what is shared. -/
def Worker.step (w : Worker A) (s : Shared D) (outcome : Outcome) : Option (Worker A × Shared D) :=
  match w.place with
  | .top => some ({ w with place := if w.cancelled then .done else .dialing }, s)
  | .dialing =>
    match outcome with
    | .dialled => some (⟨.opened, w.cancelled, true, [], fresh⟩, s)
    | .fail => some ({ w with place := .sleeping }, s)
    | _ => none
  | .opened =>
    -- `SetReadDeadline` fails on a closed connection, and the first exchanges may fail
    if w.connected ∧ outcome ≠ .fail then
      some ({ w with place := .asking (if s.masterReplID = [] then -1 else s.slaveOffset) }, s)
    else some ({ w with place := .closing }, s)
  | .asking wanted =>
    match outcome with
    | .answer full buffered =>
      if w.connected then
        some ({ w with
          place := match full with
            | none => .streamTop wanted
            | some (id, start) => .flushing id start
          buffered := buffered }, s)
      else none
    | .fail => some ({ w with place := .closing }, s)
    | _ => none
  | .flushing id start => some ({ w with place := .flushed id start }, { s with dataset := flush s.dataset })
  | .flushed id start =>
    let r := feed w.applier s.dataset [ascii "FLUSHALL"]
    some ({ w with place := .snapshotTop id start, applier := r.1 },
      { s with dataset := r.2, forwarded := s.forwarded ++ [[ascii "FLUSHALL"]] })
  | .snapshotTop id start =>
    some ({ w with place := if w.connected then .snapshotReading id start else .closing }, s)
  | .snapshotReading id start =>
    match outcome with
    | .fail => if w.buffered = [] then some ({ w with place := .closing }, s) else none
    | outcome =>
      match w.next outcome with
      | none => none
      | some (args, rest) =>
        some ({ w with
          place := if isEndSnapshot args then .adopting id start
            else if isKeepalive args then .snapshotTop id start
            else .snapshotApplying id start args
          buffered := rest }, s)
  | .snapshotApplying id start args =>
    let r := feed w.applier s.dataset args
    some ({ w with place := .snapshotTop id start, applier := r.1 },
      { s with dataset := r.2, forwarded := s.forwarded ++ [args] })
  | .adopting id start =>
    some ({ w with place := .streamTop start }, { s with masterReplID := id, slaveOffset := start })
  | .streamTop offset =>
    some ({ w with place := if w.connected then .streamReading offset else .closing }, s)
  | .streamReading offset =>
    match outcome with
    | .fail => if w.buffered = [] then some ({ w with place := .closing }, s) else none
    | outcome =>
      match w.next outcome with
      | none => none
      | some (args, rest) =>
        some ({ w with
          place := if isKeepalive args || isGetAck args then .streamTop offset
            else .applying args (wrap (offset + (encodeCommand args).length))
          buffered := rest }, s)
  | .applying args offset =>
    let r := feed w.applier s.dataset args
    some ({ w with place := .forwarding args offset, applier := r.1 }, { s with dataset := r.2 })
  | .forwarding args offset =>
    some ({ w with place := .recording offset }, { s with forwarded := s.forwarded ++ [args] })
  | .recording offset => some ({ w with place := .streamTop offset }, { s with slaveOffset := offset })
  | .closing => some ({ w with place := .sleeping, connected := false }, s)
  | .sleeping => some ({ w with place := if w.cancelled ∧ outcome ≠ .go then .done else .top }, s)
  | .done => none

/-- `ReplicaOf`: what it leaves, with a link to the new master if there is one. -/
def Node.replicaOf (n : Node D A) (addr : Bytes) : Node D A :=
  let s := n.shared
  let s := if addr = s.masterAddr then s else { s with masterReplID := [], slaveOffset := 0 }
  let cancelled := n.workers.map fun w => { w with cancelled := true }
  ⟨{ s with masterAddr := addr },
    if addr = [] then cancelled else cancelled ++ [⟨.top, false, false, [], fresh⟩]⟩

def Node.step (n : Node D A) : Action D → Option (Node D A)
  | .replicaOf addr => some (n.replicaOf fresh addr)
  | .work i outcome =>
    match n.workers[i]? with
    | none => none
    | some w => (w.step flush feed fresh n.shared outcome).map fun r =>
        ⟨r.2, n.workers.set i r.1⟩
  | .close i =>
    match n.workers[i]? with
    | none => none
    | some w => if w.cancelled ∧ w.connected then
        some { n with workers := n.workers.set i { w with connected := false } } else none
  | .write dataset => some { n with shared := { n.shared with dataset := dataset } }

/-- A server that has had no master. -/
def Node.start (dataset : D) : Node D A := ⟨⟨dataset, [], 0, [], []⟩, []⟩

/-- What a replaced link must not change. -/
def Shared.record (s : Shared D) : D × Bytes × ℤ := (s.dataset, s.masterReplID, s.slaveOffset)

end System

section Replacing

variable {D A : Type} {flush : D → D} {feed : A → D → Args → A × D} {fresh : A}

/-- A link that holds nothing it has read: it looks at its context or its connection before it
does anything else. -/
def Worker.Quiet (w : Worker A) : Prop :=
  match w.place with
  | .snapshotReading _ _ | .streamReading _ => w.buffered = []
  | .flushing _ _ | .flushed _ _ | .snapshotApplying _ _ _ | .adopting _ _ => False
  | .applying _ _ | .forwarding _ _ | .recording _ => False
  | _ => True

/-- A link is replaced where it is quiet, and once it is, its connection is closed before it
takes another step on it. -/
def Orderly (n : Node D A) : Action D → Prop
  | .replicaOf _ => ∀ w ∈ n.workers, w.cancelled = false → w.Quiet
  | .work i _ => ∀ w, n.workers[i]? = some w → w.cancelled = true → w.connected = false
  | _ => True

/-- A quiet link without a connection stays quiet, and shares nothing. -/
theorem Worker.Quiet.step {w w' : Worker A} (h : w.Quiet) (hcancelled : w.cancelled = true)
    (hconn : w.connected = false) {s s' : Shared D} {outcome : Outcome}
    (hstep : w.step flush feed fresh s outcome = some (w', s')) :
    w'.Quiet ∧ w'.cancelled = true ∧ s' = s := by
  obtain ⟨place, cancelled, connected, buffered, applier⟩ := w
  obtain rfl : cancelled = true := hcancelled
  obtain rfl : connected = false := hconn
  cases place with
  | top => cases hstep; exact ⟨trivial, rfl, rfl⟩
  | dialing =>
    cases outcome with
    | dialled => cases hstep; exact ⟨trivial, rfl, rfl⟩
    | fail => cases hstep; exact ⟨trivial, rfl, rfl⟩
    | _ => cases hstep
  | opened =>
    simp [Worker.step] at hstep
    obtain ⟨rfl, rfl⟩ := hstep
    exact ⟨trivial, rfl, rfl⟩
  | asking wanted =>
    cases outcome with
    | fail => cases hstep; exact ⟨trivial, rfl, rfl⟩
    | _ => cases hstep
  | flushing id start => exact h.elim
  | flushed id start => exact h.elim
  | snapshotTop id start => cases hstep; exact ⟨trivial, rfl, rfl⟩
  | snapshotApplying id start args => exact h.elim
  | adopting id start => exact h.elim
  | streamTop offset => cases hstep; exact ⟨trivial, rfl, rfl⟩
  | snapshotReading | streamReading =>
    obtain rfl : buffered = [] := h
    cases outcome with
    | fail => cases hstep; exact ⟨trivial, rfl, rfl⟩
    | arrive args rest => simp [Worker.step, Worker.next] at hstep
    | _ => cases hstep
  | applying args offset => exact h.elim
  | forwarding args offset => exact h.elim
  | recording offset => exact h.elim
  | closing => cases hstep; exact ⟨trivial, rfl, rfl⟩
  | sleeping =>
    simp only [Worker.step, Option.some.injEq, Prod.mk.injEq] at hstep
    obtain ⟨rfl, rfl⟩ := hstep
    refine ⟨?_, rfl, rfl⟩
    unfold Worker.Quiet
    dsimp only
    split_ifs <;> trivial
  | done => cases hstep

theorem Worker.step_cancelled {w w' : Worker A} {s s' : Shared D} {outcome : Outcome}
    (hstep : w.step flush feed fresh s outcome = some (w', s')) : w'.cancelled = w.cancelled := by
  unfold Worker.step at hstep
  grind

/-- Every link that was replaced is quiet. -/
def Replaced (n : Node D A) : Prop := ∀ w ∈ n.workers, w.cancelled = true → w.Quiet

theorem Replaced.set {n : Node D A} (h : Replaced n) (i : ℕ) {w : Worker A} (s : Shared D)
    (hw : w.cancelled = true → w.Quiet) : Replaced ⟨s, n.workers.set i w⟩ := by
  intro v hv hcancelled
  rcases List.mem_or_eq_of_mem_set hv with hv | rfl
  · exact h v hv hcancelled
  · exact hw hcancelled

theorem Replaced.step {n n' : Node D A} {a : Action D} (h : Replaced n) (hok : Orderly n a)
    (hstep : n.step flush feed fresh a = some n') : Replaced n' := by
  cases a with
  | replicaOf addr =>
    obtain rfl := Option.some.inj hstep
    have hall : ∀ w ∈ n.workers.map fun w => { w with cancelled := true }, w.Quiet := by
      intro w hw
      obtain ⟨v, hv, rfl⟩ := List.mem_map.1 hw
      change v.Quiet
      cases hc : v.cancelled with
      | true => exact h v hv hc
      | false => exact hok v hv hc
    intro w hw hcancelled
    simp only [Node.replicaOf] at hw
    split_ifs at hw
    · exact hall w hw
    · rcases List.mem_append.1 hw with hw | hw
      · exact hall w hw
      · obtain rfl := List.mem_singleton.1 hw
        trivial
  | work i outcome =>
    simp only [Node.step] at hstep
    split at hstep
    · cases hstep
    · rename_i w hw
      obtain ⟨⟨w', s'⟩, hwork, rfl⟩ := Option.map_eq_some_iff.1 hstep
      refine h.set i s' fun hcancelled => ?_
      have hold : w.cancelled = true := (Worker.step_cancelled hwork).symm.trans hcancelled
      exact ((h w (List.mem_of_getElem? hw) hold).step hold (hok w hw hold) hwork).1
  | close i =>
    simp only [Node.step] at hstep
    split at hstep
    · cases hstep
    · rename_i w hw
      split_ifs at hstep with hopen
      obtain rfl := Option.some.inj hstep
      exact h.set i n.shared fun _ => h w (List.mem_of_getElem? hw) hopen.1
  | write dataset =>
    obtain rfl := Option.some.inj hstep
    exact h

/-- In a run where links are replaced in order, a step of a replaced link leaves the dataset,
the recorded master id and the recorded offset as they are. -/
theorem replaced_link_dead {dataset : D} {n n' : Node D A}
    (h : Reaches (Node.step flush feed fresh) Orderly (Node.start dataset) n) {i : ℕ} {w : Worker A}
    (hw : n.workers[i]? = some w) (hreplaced : w.cancelled = true) {outcome : Outcome}
    (hok : Orderly n (.work i outcome))
    (hstep : n.step flush feed fresh (.work i outcome) = some n') :
    n'.shared.record = n.shared.record := by
  have hquiet : Replaced n := by
    refine Reaches.invariant (fun m a m' hm ha hs => ?_) h fun w hw => ?_
    · exact hm.step ha hs
    · cases hw
  simp only [Node.step, hw] at hstep
  obtain ⟨⟨w', s'⟩, hwork, rfl⟩ := Option.map_eq_some_iff.1 hstep
  obtain ⟨-, -, rfl⟩ := (hquiet w (List.mem_of_getElem? hw) hreplaced).step hreplaced
    (hok w hw hreplaced) hwork
  rfl

end Replacing

/-- A server whose dataset is the list of the commands that were applied. -/
abbrev LogNode := Node (List Args) Unit

def logStep (n : LogNode) (a : Action (List Args)) : Option LogNode :=
  n.step (fun _ => []) (fun _ d args => ((), d ++ [args])) () a

/-- A server that waits for the next command of its master. -/
def waiting : LogNode :=
  ⟨⟨[], [], 0, ascii "m:1", []⟩, [⟨.streamReading (-1), false, true, [], ()⟩]⟩

theorem reaches_waiting : Reaches logStep Orderly (Node.start []) waiting := by
  have hcurrent {n : LogNode} (hn : ∀ w ∈ n.workers, w.cancelled = false) (outcome : Outcome) :
      Orderly n (.work 0 outcome) := fun w hw hc =>
    absurd (hn w (List.mem_of_getElem? hw)) (by simp [hc])
  have h₀ : Reaches logStep Orderly (Node.start []) (Node.start []) := .refl
  have h₁ := Reaches.tail (.replicaOf (ascii "m:1")) h₀ (by simp [Orderly, Node.start]) rfl
  have h₂ := Reaches.tail (.work 0 .go) h₁ (hcurrent (by decide) _) rfl
  have h₃ := Reaches.tail (.work 0 .dialled) h₂ (hcurrent (by decide) _) rfl
  have h₄ := Reaches.tail (.work 0 .go) h₃ (hcurrent (by decide) _) rfl
  have h₅ := Reaches.tail (.work 0 (.answer none [])) h₄ (hcurrent (by decide) _) rfl
  exact Reaches.tail (.work 0 .go) h₅ (hcurrent (by decide) _) rfl

/-- The same server after REPLICAOF NO ONE and the close of the link's connection. -/
def severed : LogNode :=
  ⟨⟨[], [], 0, [], []⟩, [⟨.streamReading (-1), true, false, [], ()⟩]⟩

/-- A link that waits is replaced, and its connection is closed: its read fails. -/
theorem waiting_link_dead : ∃ n n' : LogNode,
    Reaches logStep Orderly (Node.start []) n ∧ (∃ w, n.workers[0]? = some w ∧ w.cancelled = true) ∧
      logStep n (.work 0 .fail) = some n' ∧ n'.shared.record = n.shared.record := by
  have hreplaced : Reaches logStep Orderly (Node.start []) severed :=
    .tail (.close 0) (.tail (.replicaOf []) reaches_waiting
      (by simp [Orderly, waiting, Worker.Quiet]) rfl) trivial rfl
  have hok : Orderly severed (.work 0 .fail) := by
    intro w hw _
    obtain rfl := Option.some.inj hw
    rfl
  exact ⟨_, _, hreplaced, ⟨_, rfl, rfl⟩, rfl, replaced_link_dead hreplaced rfl rfl hok rfl⟩

/-- A link that has read a command when it is replaced goes on to apply it. -/
theorem read_command_applied : ∃ n n' : LogNode,
    Reachable logStep (Node.start []) n ∧ (∃ w, n.workers[0]? = some w ∧ w.cancelled = true) ∧
      logStep n (.work 0 .go) = some n' ∧ n'.shared.record ≠ n.shared.record := by
  have hplay : play logStep (Node.start []) [.replicaOf (ascii "m:1"), .work 0 .go, .work 0 .dialled,
      .work 0 .go, .work 0 (.answer none []), .work 0 .go, .work 0 (.arrive [ascii "SAVE"] []),
      .replicaOf []] = some _ := rfl
  exact ⟨_, _, reachable_of_play hplay, ⟨_, rfl, rfl⟩, rfl, by decide⟩

end ShardKV.Replication
