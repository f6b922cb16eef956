import ShardKV.Access.Machine
import ShardKV.Bytes.Ring
import ShardKV.Resp.Roundtrip

/-! The feeds of a master. Whatever goes on the replication stream is counted, kept in
the backlog and queued for every listed replica in one critical section; a PSYNC is
answered and listed in one as well. A feed then writes at its own pace, first what the
backlog had for it and then its queue, and a replica whose queue is full is taken off
the list instead of being skipped. -/

namespace ShardKV.Replication

open Access Resp

/-- `newReplBacklog`: a size of zero or less disables it. -/
def newReplBacklog (size : ℤ) : Ring UInt8 := if size ≤ 0 then ⟨[], 0, 0, 0⟩ else Ring.new 0 size.toNat 0

def histLen (b : Ring UInt8) : ℕ := b.stop - b.start

def backlogAfter (size : ℤ) (feeds : List Bytes) : Ring UInt8 :=
  feeds.foldl Ring.feed (newReplBacklog size)

theorem newReplBacklog_eq (size : ℤ) : newReplBacklog size = Ring.new 0 size.toNat 0 := by
  unfold newReplBacklog
  split_ifs with hsize
  · rw [Int.toNat_of_nonpos hsize]
    rfl
  · rfl

/-- After every feed, the backlog has seen all of the stream and retains as much of its end as
the ring has room for. -/
theorem backlogAfter_holds (size : ℤ) (feeds : List Bytes) :
    (backlogAfter size feeds).Holds feeds.flatten ∧
      (backlogAfter size feeds).cells.length = size.toNat ∧
      (backlogAfter size feeds).start =
        (backlogAfter size feeds).stop - min size.toNat (backlogAfter size feeds).stop := by
  induction feeds using List.reverseRecOn with
  | nil =>
    unfold backlogAfter
    rw [List.foldl_nil, newReplBacklog_eq]
    exact ⟨Ring.holds_new 0 _ [], List.length_replicate, (Nat.zero_sub _).symm⟩
  | append_singleton feeds p ih =>
    obtain ⟨hholds, hlen, hstart⟩ := ih
    have hlast : backlogAfter size (feeds ++ [p]) = (backlogAfter size feeds).feed p := by
      rw [backlogAfter, List.foldl_append]
      rfl
    rw [← hlen] at hstart ⊢
    rw [hlast, List.flatten_append, List.flatten_singleton]
    exact ⟨hholds.feed p, Ring.length_cells_feed hholds p, Ring.start_feed hholds hstart p⟩

/-- The backlog is the tail of the stream: it ends where the stream does, retains as many of the
last bytes as there is room for, and a read serves exactly the offsets of those, with everything
from there on. -/
theorem backlog_is_tail (size : ℤ) (feeds : List Bytes) :
    (backlogAfter size feeds).stop = feeds.flatten.length ∧
      histLen (backlogAfter size feeds) = min size.toNat feeds.flatten.length ∧
      (backlogAfter size feeds).read (backlogAfter size feeds).start =
        some (feeds.flatten.drop (feeds.flatten.length - min size.toNat feeds.flatten.length)) ∧
      ∀ offset : ℤ, (backlogAfter size feeds).read offset =
        if ((backlogAfter size feeds).start : ℤ) ≤ offset ∧ offset ≤ (backlogAfter size feeds).stop
        then some (feeds.flatten.drop offset.toNat) else none := by
  obtain ⟨hholds, -, hstart⟩ := backlogAfter_holds size feeds
  have hread := hholds.read
  rw [hholds.stop_eq] at hstart
  refine ⟨hholds.stop_eq, ?_, ?_, hread⟩
  · rw [histLen, hstart, hholds.stop_eq]
    omega
  · have hle : (backlogAfter size feeds).start ≤ (backlogAfter size feeds).stop := hholds.start_le
    rw [hread, if_pos ⟨le_rfl, Int.ofNat_le.mpr hle⟩, Int.toNat_natCast, hstart]

/-- How many commands a replica may be behind. -/
def replFeedBuffer : ℕ := 1024

/-- What a queue holds: commands of the stream, and requests to report the offset, which
are no part of it. -/
inductive Frame
  | command (args : Args)
  | getack

/-- The bytes of the stream that a frame carries. -/
def Frame.bytes : Frame → Bytes
  | command args => encodeCommand args
  | getack => []

/-- The answer to a PSYNC, with the offset that the feed starts from. -/
inductive Answer
  | fullResync (offset : ℕ)
  | resume (offset : ℕ)

def Answer.offset : Answer → ℕ
  | fullResync offset | resume offset => offset

/-- A connection that feeds a replica: what it still has to write before its queue, and
what of the stream it has written. -/
structure Feed where
  answer : Answer
  preface : Option Bytes
  queue : List Frame
  listed : Bool
  running : Bool
  sent : Bytes

/-- The master's side of replication. -/
structure Hub where
  shipped : List Args
  replOffset : ℕ
  backlog : Ring UInt8
  replID : Bytes
  feeds : List Feed

def Hub.stream (h : Hub) : Bytes := h.shipped.flatMap encodeCommand

/-- A server before its first replica, with a backlog of some size. -/
def Hub.start (size : ℕ) (replID : Bytes) : Hub := ⟨[], 0, Ring.new 0 size 0, replID, []⟩

/-- The atomic steps. A write of a feed can fail at any byte; `fail i 0` is also how a
feed ends that was dropped or cancelled. -/
inductive Event
  | shipReplicas (args : Args)
  | psync (wantID : Bytes) (wantOffset : ℤ)
  | requestAcks
  | preface (i : ℕ)
  | send (i : ℕ)
  | ping (i : ℕ)
  | fail (i k : ℕ)
  | removeReplica (i : ℕ)
  | setBacklogSize (size : ℕ)
  | changeReplID (id : Bytes)

/-- Queue a command, or drop a feed that has no room for it. -/
def Feed.ship (f : Feed) (args : Args) : Feed :=
  if f.listed then
    if f.queue.length < replFeedBuffer then { f with queue := f.queue ++ [.command args] }
    else { f with listed := false }
  else f

/-- Ask for the offset where there is room to ask. -/
def Feed.ask (f : Feed) : Feed :=
  if f.listed ∧ f.queue.length < replFeedBuffer then { f with queue := f.queue ++ [.getack] } else f

def Feed.pending (f : Feed) : Bytes :=
  match f.preface with
  | some p => p
  | none => (f.queue.head?.map Frame.bytes).getD []

/-- The step of one running feed. -/
def Feed.act (f : Feed) : Event → Option Feed
  | .preface _ => if f.running then
      f.preface.map fun p => { f with preface := none, sent := f.sent ++ p } else none
  | .send _ =>
    match f.running, f.preface, f.queue with
    | true, none, c :: queue => some { f with queue := queue, sent := f.sent ++ c.bytes }
    | _, _, _ => none
  | .ping _ => if f.running ∧ f.preface = none then some f else none
  | .fail _ k => if f.running then some { f with running := false, sent := f.sent ++ f.pending.take k } else none
  | .removeReplica _ => if f.running then none else some { f with listed := false }
  | _ => none

/-- The feed that `handleSync` registers. -/
def Hub.enlist (h : Hub) (wantID : Bytes) (wantOffset : ℤ) : Feed :=
  let cont := if wantID ≠ [] ∧ wantID = h.replID then h.backlog.read wantOffset else none
  match cont with
  | some bytes => ⟨.resume wantOffset.toNat, some bytes, [], true, true, []⟩
  | none => ⟨.fullResync h.replOffset, some [], [], true, true, []⟩

/-- One step of one feed. -/
def Hub.feedStep (h : Hub) (i : ℕ) (e : Event) : Option Hub :=
  (h.feeds[i]?).bind fun f => (f.act e).map fun f => { h with feeds := h.feeds.set i f }

def Hub.step (h : Hub) (e : Event) : Option Hub :=
  match e with
  | .shipReplicas args =>
    let enc := encodeCommand args
    some { h with
      shipped := h.shipped ++ [args]
      replOffset := h.replOffset + enc.length
      backlog := h.backlog.feed enc
      feeds := h.feeds.map (·.ship args) }
  | .psync wantID wantOffset => some { h with feeds := h.feeds ++ [h.enlist wantID wantOffset] }
  | .requestAcks => some { h with feeds := h.feeds.map Feed.ask }
  | .setBacklogSize size => some { h with backlog := Ring.new 0 size h.replOffset }
  | .changeReplID id => some { h with replID := id }
  | .preface i | .send i | .ping i | .fail i _ | .removeReplica i => h.feedStep i e

/-- What a feed has written and what it is going to write. -/
def Feed.due (f : Feed) : Bytes := f.sent ++ f.preface.getD [] ++ f.queue.flatMap Frame.bytes

/-- A feed against the stream: what it has sent is where it should be; while it runs the
rest of its work follows without a gap, and while it is listed that work is complete. -/
structure Feed.Fits (f : Feed) (stream : Bytes) : Prop where
  opened : f.answer.offset ≤ stream.length
  sent : f.sent <+: stream.drop f.answer.offset
  due : f.running = true → f.due <+: stream.drop f.answer.offset
  complete : f.running = true → f.listed = true → f.due = stream.drop f.answer.offset

theorem Feed.Fits.ship {f : Feed} {stream : Bytes} (h : f.Fits stream) (args : Args) :
    (f.ship args).Fits (stream ++ encodeCommand args) := by
  obtain ⟨hopen, hsent, hdue, hcomplete⟩ := h
  have hdrop : (stream ++ encodeCommand args).drop f.answer.offset =
      stream.drop f.answer.offset ++ encodeCommand args := List.drop_append_of_le_length hopen
  have hgrow : stream.drop f.answer.offset <+: (stream ++ encodeCommand args).drop f.answer.offset :=
    hdrop ▸ List.prefix_append _ _
  have hlen : f.answer.offset ≤ (stream ++ encodeCommand args).length := by
    rw [List.length_append]
    omega
  unfold Feed.ship
  split_ifs with hlisted hroom
  · have hall : f.running = true → { f with queue := f.queue ++ [Frame.command args] }.due =
        (stream ++ encodeCommand args).drop f.answer.offset := by
      intro hrun
      rw [hdrop, ← hcomplete hrun hlisted]
      simp [Feed.due, Frame.bytes]
    exact ⟨hlen, hsent.trans hgrow, fun hrun => hall hrun ▸ List.prefix_refl _, fun hrun _ => hall hrun⟩
  · exact ⟨hlen, hsent.trans hgrow, fun hrun => (hdue hrun).trans hgrow, fun _ hl => absurd hl Bool.false_ne_true⟩
  · exact ⟨hlen, hsent.trans hgrow, fun hrun => (hdue hrun).trans hgrow, fun _ hl => absurd hl hlisted⟩

theorem Feed.Fits.ask {f : Feed} {stream : Bytes} (h : f.Fits stream) : f.ask.Fits stream := by
  unfold Feed.ask
  split_ifs
  · have hdue : { f with queue := f.queue ++ [Frame.getack] }.due = f.due := by simp [Feed.due, Frame.bytes]
    exact ⟨h.opened, h.sent, fun hrun => hdue ▸ h.due hrun, fun hrun hl => hdue ▸ h.complete hrun hl⟩
  · exact h

theorem Feed.sent_prefix_due (f : Feed) : f.sent <+: f.due := by
  rw [Feed.due, List.append_assoc]
  exact List.prefix_append _ _

theorem Feed.pending_prefix_due (f : Feed) : f.sent ++ f.pending <+: f.due := by
  unfold Feed.pending Feed.due
  cases hp : f.preface with
  | some p => exact List.prefix_append _ _
  | none =>
    rw [Option.getD_none, List.append_nil, List.prefix_append_right_inj]
    cases f.queue with
    | nil => exact List.prefix_refl _
    | cons c queue => exact List.prefix_append _ _

/-- A feed whose due bytes stay the same fits as before. -/
theorem Feed.Fits.same_due {f f' : Feed} {stream : Bytes} (h : f.Fits stream) (hrun : f.running = true)
    (hanswer : f'.answer = f.answer) (hdue : f'.due = f.due) (hlisted : f'.listed = f.listed) :
    f'.Fits stream := by
  have hall := h.due hrun
  refine ⟨hanswer ▸ h.opened, ?_, ?_, ?_⟩
  · rw [hanswer]
    exact (f'.sent_prefix_due.trans (hdue ▸ List.prefix_refl _)).trans hall
  · rw [hanswer, hdue]
    exact fun _ => hall
  · rw [hanswer, hdue, hlisted]
    exact fun _ hl => h.complete hrun hl

/-- A step of the feed itself moves bytes from due to sent, or ends it. -/
theorem Feed.Fits.act {f f' : Feed} {stream : Bytes} (h : f.Fits stream) {e : Event}
    (hact : f.act e = some f') : f'.Fits stream := by
  have hover : ∀ {f' : Feed}, f'.running = false → f'.answer = f.answer →
      f'.sent <+: stream.drop f.answer.offset → f'.Fits stream := by
    intro f' hrun hanswer hsent
    refine ⟨hanswer ▸ h.opened, hanswer ▸ hsent, ?_, ?_⟩ <;> rw [hrun] <;> intro hcon <;> cases hcon
  cases e with
  | preface i =>
    simp only [Feed.act] at hact
    split_ifs at hact with hrun
    obtain ⟨p, hp, rfl⟩ := Option.map_eq_some_iff.mp hact
    exact h.same_due hrun rfl (by simp [Feed.due, hp]) rfl
  | send i =>
    simp only [Feed.act] at hact
    split at hact
    · rename_i c queue hrun hpre hqueue
      cases hact
      exact h.same_due hrun rfl (by simp [Feed.due, hpre, hqueue]) rfl
    · cases hact
  | ping i =>
    simp only [Feed.act] at hact
    split_ifs at hact
    exact Option.some.inj hact ▸ h
  | fail i k =>
    simp only [Feed.act] at hact
    split_ifs at hact with hrun
    cases hact
    refine hover rfl rfl (List.IsPrefix.trans ?_ (h.due hrun))
    refine List.IsPrefix.trans ?_ f.pending_prefix_due
    exact (List.prefix_append_right_inj _).mpr (List.take_prefix _ _)
  | removeReplica i =>
    simp only [Feed.act] at hact
    split_ifs at hact with hrun
    cases hact
    exact hover (Bool.eq_false_of_not_eq_true hrun) rfl h.sent
  | _ => cases hact

/-- The counters, the backlog and every feed agree with the stream. -/
structure Hub.Inv (h : Hub) : Prop where
  offset : h.replOffset = h.stream.length
  backlog : h.backlog.Holds h.stream
  feeds : ∀ f ∈ h.feeds, f.Fits h.stream

theorem Hub.Inv.start (size : ℕ) (id : Bytes) : (Hub.start size id).Inv :=
  ⟨rfl, Ring.holds_new 0 size [], fun _ hf => absurd hf List.not_mem_nil⟩

/-- A feed starts where its answer says. -/
theorem Hub.Inv.enlist {h : Hub} (hinv : h.Inv) (wantID : Bytes) (wantOffset : ℤ) :
    (h.enlist wantID wantOffset).Fits h.stream := by
  unfold Hub.enlist
  dsimp only
  have hfull : (⟨.fullResync h.replOffset, some [], [], true, true, []⟩ : Feed).Fits h.stream := by
    have hdrop : h.stream.drop h.replOffset = [] := List.drop_eq_nil_of_le (hinv.offset ▸ le_refl _)
    exact ⟨hinv.offset ▸ le_refl _, List.nil_prefix, fun _ => List.nil_prefix, fun _ _ => hdrop.symm⟩
  split_ifs with hid
  · rw [hinv.backlog.read]
    split_ifs with hrange
    · have hdue : (⟨.resume wantOffset.toNat, some (h.stream.drop wantOffset.toNat), [], true, true, []⟩ :
          Feed).due = h.stream.drop wantOffset.toNat := by simp [Feed.due]
      have hstop := hinv.backlog.stop_eq
      refine ⟨?_, List.nil_prefix, fun _ => ⟨[], (List.append_nil _).trans hdue⟩, fun _ _ => hdue⟩
      show wantOffset.toNat ≤ _
      omega
    · exact hfull
  · exact hfull

theorem Hub.Inv.step {h h' : Hub} (hinv : h.Inv) {e : Event} (hstep : h.step e = some h') : h'.Inv := by
  have hfeed : ∀ {i}, h.feedStep i e = some h' → h'.Inv := by
    intro i hi
    obtain ⟨f, hf, hmap⟩ := Option.bind_eq_some_iff.mp hi
    obtain ⟨f', hf', rfl⟩ := Option.map_eq_some_iff.mp hmap
    refine ⟨hinv.offset, hinv.backlog, fun g hg => ?_⟩
    rcases List.mem_or_eq_of_mem_set hg with hg | rfl
    · exact hinv.feeds g hg
    · exact (hinv.feeds f (List.mem_of_getElem? hf)).act hf'
  cases e with
  | shipReplicas args =>
    cases hstep
    have hstream : (h.shipped ++ [args]).flatMap encodeCommand = h.stream ++ encodeCommand args := by
      simp [Hub.stream]
    refine ⟨?_, ?_, ?_⟩
    · show h.replOffset + _ = ((h.shipped ++ [args]).flatMap encodeCommand).length
      rw [hstream, List.length_append, hinv.offset]
    · show (h.backlog.feed _).Holds ((h.shipped ++ [args]).flatMap encodeCommand)
      rw [hstream]
      exact hinv.backlog.feed _
    · intro f hf
      obtain ⟨g, hg, rfl⟩ := List.mem_map.mp hf
      show (g.ship args).Fits ((h.shipped ++ [args]).flatMap encodeCommand)
      rw [hstream]
      exact (hinv.feeds g hg).ship args
  | psync wantID wantOffset =>
    cases hstep
    refine ⟨hinv.offset, hinv.backlog, fun f hf => ?_⟩
    rcases List.mem_append.mp hf with hf | hf
    · exact hinv.feeds f hf
    · obtain rfl := List.mem_singleton.mp hf
      exact hinv.enlist wantID wantOffset
  | requestAcks =>
    cases hstep
    refine ⟨hinv.offset, hinv.backlog, fun f hf => ?_⟩
    obtain ⟨g, hg, rfl⟩ := List.mem_map.mp hf
    exact (hinv.feeds g hg).ask
  | setBacklogSize size =>
    cases hstep
    refine ⟨hinv.offset, ?_, hinv.feeds⟩
    show (Ring.new 0 size h.replOffset).Holds h.stream
    rw [hinv.offset]
    exact Ring.holds_new 0 size h.stream
  | changeReplID id =>
    cases hstep
    exact ⟨hinv.offset, hinv.backlog, hinv.feeds⟩
  | preface i => exact hfeed hstep
  | send i => exact hfeed hstep
  | ping i => exact hfeed hstep
  | fail i k => exact hfeed hstep
  | removeReplica i => exact hfeed hstep

/-- Whatever interleaving led here, what a feed has sent after its answer is a piece of
the stream that begins at exactly the offset of the answer. -/
theorem feed_contiguous {size : ℕ} {id : Bytes} {h : Hub} (hr : Reachable Hub.step (Hub.start size id) h) :
    ∀ f ∈ h.feeds, f.answer.offset ≤ h.stream.length ∧ f.sent <+: h.stream.drop f.answer.offset := by
  have hinv : h.Inv := hr.invariant (fun _ _ _ hs _ hstep => hs.step hstep) (Hub.Inv.start size id)
  exact fun f hf => ⟨(hinv.feeds f hf).opened, (hinv.feeds f hf).sent⟩

/-- A replica continues from offset 0 in a backlog of 64 bytes, and one more command is
shipped to it. -/
def continuedRun : List Event :=
  [.shipReplicas [[83]], .psync [105] 0, .preface 0, .shipReplicas [[84]], .send 0]

def continuedHub : Hub := (play Hub.step (Hub.start 64 [105]) continuedRun).get (by decide)

theorem continuedHub_contiguous : continuedHub.feeds.length = 1 ∧ ∀ f ∈ continuedHub.feeds,
    f.answer.offset ≤ continuedHub.stream.length ∧ f.sent <+: continuedHub.stream.drop f.answer.offset :=
  ⟨by decide, feed_contiguous (reachable_of_play (Option.some_get (by decide)).symm)⟩

end ShardKV.Replication
