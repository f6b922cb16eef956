import ShardKV.Data.Streams

/-! The standing of a consumer group: what it has delivered, how much it has read, who
its consumers are and what they owe. Every operation on a group acts on the standing
alone, apart from the times at which a consumer was seen and the copy of its pending
entries that each consumer keeps. -/

namespace ShardKV.Data

open Checked

/-- A group without what a consumer keeps for itself. -/
structure Standing where
  lastDelivered : StreamID
  entriesRead : ℤ
  hasEntriesRead : Bool
  consumers : Finset Bytes
  pel : Finmap fun _ : StreamID => Nack
  deriving DecidableEq

namespace Group

variable (g : Group)

def standing : Standing := ⟨g.lastDelivered, g.entriesRead, g.hasEntriesRead, g.consumers.keys, g.pel⟩

theorem keys_insert {K V : Type} [DecidableEq K] (m : Finmap fun _ : K => V) (k : K) (v : V) :
    (m.insert k v).keys = insert k m.keys := by
  ext x
  rw [Finmap.mem_keys, Finmap.mem_insert, Finset.mem_insert, Finmap.mem_keys]

theorem keys_insert_of_lookup {K V : Type} [DecidableEq K] {m : Finmap fun _ : K => V} {k : K} {w : V}
    (h : m.lookup k = some w) (v : V) : (m.insert k v).keys = m.keys := by
  rw [keys_insert, Finset.insert_eq_self, Finmap.mem_keys]
  exact Finmap.mem_of_lookup_eq_some h

@[simp] theorem standing_modifyConsumer (name : Bytes) (f : Consumer → Consumer) :
    (g.modifyConsumer name f).standing = g.standing := by
  unfold modifyConsumer
  split
  · rfl
  · rename_i c hc
    simp only [standing, keys_insert_of_lookup hc]

@[simp] theorem standing_consumerFor (name : Bytes) (nowMs : ℤ) :
    (g.consumerFor name nowMs).1.standing =
      { g.standing with consumers := insert name g.standing.consumers } := by
  unfold consumerFor
  split <;> simp only [standing, keys_insert]

@[simp] theorem standing_forget (id : StreamID) (owner : Bytes) :
    (g.forget id owner).standing = { g.standing with pel := g.standing.pel.erase id } := by
  rw [forget, standing_modifyConsumer]
  rfl

@[simp] theorem standing_assign (id : StreamID) (owner : Bytes) (nack : Nack) (nowMs : ℤ) :
    (g.assign id owner nack nowMs).standing =
      { g.standing with pel := g.standing.pel.insert id nack } := by
  unfold assign
  dsimp only
  rw [standing_modifyConsumer]
  split_ifs
  · rfl
  · rw [standing_modifyConsumer]
    rfl

end Group

/-- The pending entries with some more ids under one record. -/
def insertAll (pel : Finmap fun _ : StreamID => Nack) (ids : List StreamID) (nack : Nack) :
    Finmap fun _ : StreamID => Nack := ids.foldl (fun pel id => pel.insert id nack) pel

/-- The standing after entries were delivered, out of `fresh` ones. A counter that is
not known is taken from the place of the first of them in the stream. -/
def Standing.deliver (s : Standing) (added fresh : ℕ) (noack : Bool) (nack : Nack)
    (ids : List StreamID) : Standing :=
  match ids.getLast? with
  | none => s
  | some last =>
    { s with
      lastDelivered := last
      entriesRead := wrap ((if s.hasEntriesRead then s.entriesRead else (added : ℤ) - fresh) + ids.length)
      hasEntriesRead := true
      pel := if noack then s.pel else insertAll s.pel ids nack }

theorem Standing.deliver_nil (s : Standing) (added fresh : ℕ) (noack : Bool) (nack : Nack) :
    s.deliver added fresh noack nack [] = s := rfl

theorem Standing.deliver_cons (s : Standing) (added fresh : ℕ) (noack : Bool) (nack : Nack)
    (id : StreamID) (ids : List StreamID) :
    s.deliver added (fresh + 1) noack nack (id :: ids) =
      (s.deliver added (fresh + 1) noack nack [id]).deliver added fresh noack nack ids := by
  cases ids with
  | nil => rfl
  | cons next ids =>
    have hlast : (id :: next :: ids).getLast? = (next :: ids).getLast? := List.getLast?_cons_cons
    obtain ⟨last, hl⟩ : ∃ last, (next :: ids).getLast? = some last :=
      ⟨_, List.getLast?_eq_some_getLast (List.cons_ne_nil next ids)⟩
    unfold deliver
    rw [hlast, hl]
    simp only [List.getLast?_singleton, if_true, Standing.mk.injEq, true_and]
    constructor
    · rw [wrap_wrap_add]
      congr 1
      simp only [List.length_cons, List.length_nil]
      push_cast
      ring
    · cases noack <;> rfl

/-- What XREADGROUP takes of the entries that are new. -/
def within {α : Type} (limit : ℕ) (fresh : List α) : List α :=
  if limit = 0 then fresh else fresh.take limit

namespace Group

variable {g : Group} {st : Stream} {consumer : Bytes} {noack : Bool} {nowMs : ℤ}

theorem standing_deliver (ent : StreamEntry) (behind : ℕ) :
    (g.deliver st consumer noack nowMs ent behind).standing =
      g.standing.deliver st.added (behind + 1) noack ⟨consumer, nowMs, 1⟩ [ent.id] := by
  have hcount : (if g.hasEntriesRead then wrap (g.entriesRead + 1) else wrap ((st.added : ℤ) - behind)) =
      wrap ((if g.hasEntriesRead then g.entriesRead else (st.added : ℤ) - (behind + 1 : ℕ)) + 1) := by
    split_ifs
    · rfl
    · congr 1
      push_cast
      ring
  unfold deliver
  dsimp only
  cases noack with
  | true =>
    rw [if_pos rfl, standing_modifyConsumer, hcount]
    rfl
  | false =>
    rw [if_neg Bool.false_ne_true, standing_modifyConsumer, hcount]
    rfl

/-- How many entries the loop takes does not depend on the group. -/
theorem deliverAll_entries (limit taken : ℕ) (h : limit = 0 ∨ taken ≤ limit) (fresh : List StreamEntry) :
    (deliverAll st consumer noack nowMs limit g taken fresh).2 =
      if limit = 0 then fresh else fresh.take (limit - taken) := by
  induction fresh generalizing g taken with
  | nil => simp [deliverAll]
  | cons ent rest ih =>
    rw [deliverAll]
    by_cases hfull : 0 < limit ∧ taken = limit
    · rw [if_pos hfull, if_neg (by omega), hfull.2, Nat.sub_self, List.take_zero]
    · rw [if_neg hfull]
      dsimp only
      rw [ih (taken + 1) (by omega)]
      by_cases hzero : limit = 0
      · rw [if_pos hzero, if_pos hzero]
      · rw [if_neg hzero, if_neg hzero, show limit - taken = (limit - (taken + 1)) + 1 by omega,
          List.take_succ_cons]

theorem standing_deliverAll (limit taken : ℕ) (fresh : List StreamEntry) :
    (deliverAll st consumer noack nowMs limit g taken fresh).1.standing =
      g.standing.deliver st.added fresh.length noack ⟨consumer, nowMs, 1⟩
        ((deliverAll st consumer noack nowMs limit g taken fresh).2.map StreamEntry.id) := by
  induction fresh generalizing g taken with
  | nil => rfl
  | cons ent rest ih =>
    rw [deliverAll]
    split_ifs with hfull
    · rfl
    · dsimp only
      rw [ih, standing_deliver, List.map_cons, List.length_cons, ← Standing.deliver_cons]

end Group

/-- The entries that a group which is at an id has not been given. -/
def Stream.fresh (st : Stream) (lastDelivered : StreamID) : List StreamEntry :=
  st.entries.drop (st.firstIndexAtOrAfter (idNext lastDelivered))

/-- The ids that a read for new entries delivers. -/
def Stream.delivery (st : Stream) (lastDelivered : StreamID) (count : ℕ) : List StreamID :=
  (within count (st.fresh lastDelivered)).map StreamEntry.id

def Standing.read (s : Standing) (st : Stream) (consumer : Bytes) (after : Option StreamID) (count : ℕ)
    (noack : Bool) (nowMs : ℤ) : Standing :=
  let s := { s with consumers := insert consumer s.consumers }
  match after with
  | some _ => s
  | none => s.deliver st.added (st.fresh s.lastDelivered).length noack ⟨consumer, nowMs, 1⟩
      (st.delivery s.lastDelivered count)

theorem Group.standing_read (g : Group) (st : Stream) (consumer : Bytes) (after : Option StreamID)
    (count : ℕ) (noack : Bool) (nowMs : ℤ) :
    (g.read st consumer after count noack nowMs).1.standing =
      g.standing.read st consumer after count noack nowMs := by
  have hlast : (g.consumerFor consumer nowMs).1.lastDelivered = g.lastDelivered :=
    congrArg Standing.lastDelivered (g.standing_consumerFor consumer nowMs)
  unfold Group.read Standing.read
  cases after with
  | some after => exact g.standing_consumerFor consumer nowMs
  | none =>
    dsimp only
    rw [Group.standing_deliverAll, Group.deliverAll_entries count 0 (.inr (Nat.zero_le _)),
      g.standing_consumerFor consumer nowMs, hlast, Nat.sub_zero]
    rfl

/-- The entries that a read for new ones returns. -/
theorem Group.read_entries (g : Group) (st : Stream) (consumer : Bytes) (count : ℕ) (noack : Bool)
    (nowMs : ℤ) : (g.read st consumer none count noack nowMs).2.entries =
      (within count (st.fresh g.lastDelivered)).map fun e => (e.id, some e.fields) := by
  have hlast : (g.consumerFor consumer nowMs).1.lastDelivered = g.lastDelivered :=
    congrArg Standing.lastDelivered (g.standing_consumerFor consumer nowMs)
  unfold Group.read
  dsimp only
  rw [Group.deliverAll_entries count 0 (.inr (Nat.zero_le _)), hlast, Nat.sub_zero]
  rfl

theorem le_maxStreamID (id : StreamID) : id ≤ maxStreamID := by
  rw [Prod.Lex.le_iff]
  rcases lt_or_eq_of_le (Fin.le_last (ofLex id).1) with h | h
  · exact .inl h
  · exact .inr ⟨h, Fin.le_last _⟩

theorem idNext_max : idNext maxStreamID = maxStreamID := by
  simp [idNext, maxStreamID, streamID]

theorem lt_idNext {id : StreamID} (h : id ≠ maxStreamID) : id < idNext id := by
  unfold idNext
  split_ifs with hseq hms
  · exact absurd (Prod.ext hms hseq : ofLex id = ofLex maxStreamID) fun hid => h (ofLex.injective hid)
  · refine Prod.Lex.lt_iff.mpr (.inl ?_)
    exact Fin.lt_add_one_iff.mpr (lt_of_le_of_ne (Fin.le_last _) hms)
  · refine Prod.Lex.lt_iff.mpr (.inr ⟨rfl, ?_⟩)
    exact Fin.lt_add_one_iff.mpr (lt_of_le_of_ne (Fin.le_last _) hseq)

/-- The ids of the entries ascend, which is what the binary search rests on. -/
def Stream.Ascending (st : Stream) : Prop := st.entries.Pairwise fun a b => a.id < b.id

/-- Where no miss follows a hit, the hits are what comes from the first one on. -/
theorem drop_findIdx {α : Type} {p : α → Bool} {l : List α}
    (h : l.Pairwise fun a b => p a = true → p b = true) :
    l.drop (l.findIdx p) = l.filter p := by
  induction l with
  | nil => rfl
  | cons a l ih =>
    obtain ⟨hhead, htail⟩ := List.pairwise_cons.mp h
    rw [List.findIdx_cons]
    cases ha : p a with
    | true =>
      rw [cond_true, List.drop_zero, List.filter_cons_of_pos ha,
        List.filter_eq_self.mpr fun b hb => hhead b hb ha]
    | false =>
      rw [cond_false, List.drop_succ_cons, ih htail, List.filter_cons_of_neg (by simp [ha])]

variable {st : Stream} (h : st.Ascending) {last : StreamID} {count : ℕ}

include h

theorem Stream.Ascending.monotone (id : StreamID) : st.entries.Pairwise fun a b =>
    decide (id ≤ a.id) = true → decide (id ≤ b.id) = true :=
  h.imp fun hab ha => decide_eq_true (le_trans (of_decide_eq_true ha) (le_of_lt hab))

theorem Stream.drop_firstIndex (id : StreamID) :
    st.entries.drop (st.firstIndexAtOrAfter id) = st.entries.filter fun e => decide (id ≤ e.id) :=
  drop_findIdx (h.monotone id)

/-- A fresh entry is one at or after the next id. -/
theorem mem_fresh {e : StreamEntry} : e ∈ st.fresh last ↔ e ∈ st.entries ∧ idNext last ≤ e.id := by
  rw [Stream.fresh, Stream.drop_firstIndex h, List.mem_filter, decide_eq_true_iff]

theorem fresh_nodup : ((st.fresh last).map StreamEntry.id).Nodup := by
  have hsub : (st.fresh last).Pairwise fun a b => a.id < b.id := h.sublist (List.drop_sublist _ _)
  exact List.pairwise_map.mpr (hsub.imp fun hab => ne_of_lt hab)

theorem le_of_mem_delivery {id : StreamID} (hid : id ∈ st.delivery last count) : idNext last ≤ id := by
  obtain ⟨e, he, rfl⟩ := List.mem_map.mp hid
  have hmem : e ∈ st.fresh last := by
    unfold within at he
    split_ifs at he
    · exact he
    · exact List.mem_of_mem_take he
  exact ((mem_fresh h).mp hmem).2

/-- At the greatest id there is one entry at most to deliver, the one at that id. -/
theorem delivery_max (hne : st.delivery maxStreamID count ≠ []) :
    st.delivery maxStreamID count = [maxStreamID] := by
  have hall : ∀ id ∈ st.delivery maxStreamID count, id = maxStreamID := fun id hid =>
    le_antisymm (le_maxStreamID id) (idNext_max ▸ le_of_mem_delivery h hid)
  have hnodup : (st.delivery maxStreamID count).Nodup := by
    have hsub : (st.delivery maxStreamID count).Sublist
        ((st.fresh maxStreamID).map StreamEntry.id) := by
      unfold Stream.delivery within
      split_ifs
      · exact List.Sublist.refl _
      · exact (List.take_sublist _ _).map _
    exact hsub.nodup (fresh_nodup h)
  cases hd : st.delivery maxStreamID count with
  | nil => exact absurd hd hne
  | cons a l =>
    rw [hd] at hall hnodup
    obtain ⟨hnot, -⟩ := List.nodup_cons.mp hnodup
    cases l with
    | nil => rw [hall a (by simp)]
    | cons b l => exact absurd ((hall a (by simp)).trans (hall b (by simp)).symm) fun hab => hnot (by simp [hab])

end ShardKV.Data
