import Mathlib.Data.Int.ModEq
import ShardKV.Data.Ranges

/-! The lag of a consumer group. It is read off the position of the group where that is
enough, and else off two counters, of the entries that were ever added and of those that
the group has read. The counters differ by the entries ahead of the group as long as no
entry ahead of it is taken away. -/

namespace ShardKV.Data

open Checked

namespace Stream

/-- `groupLag`: nothing when the lag is not known. -/
def groupLag (st : Stream) (g : Group) : Option ℤ :=
  match st.entries with
  | [] => some 0
  | first :: _ =>
    if st.last ≤ g.lastDelivered then some 0
    else if (st.maxDeleted = zeroID ∨ st.maxDeleted < first.id) ∧ g.lastDelivered < first.id then
      some st.entries.length
    else if g.hasEntriesRead ∧ (st.maxDeleted = zeroID ∨ st.maxDeleted < g.lastDelivered) ∧
        0 ≤ wrap ((st.added : ℤ) - g.entriesRead) then
      some (wrap ((st.added : ℤ) - g.entriesRead))
    else none

/-- The entries that a group at an id has ahead of it. -/
def ahead (st : Stream) (last : StreamID) : List StreamEntry :=
  st.entries.filter fun e => decide (last < e.id)

/-- The counters of a group whose read counter is known differ by what it has ahead of it. A
group at the greatest id is given the entry there again and again. -/
structure Counted (st : Stream) (g : Group) : Prop where
  reached : g.hasEntriesRead = true → g.lastDelivered ≤ st.last
  counters : g.hasEntriesRead = true → g.lastDelivered ≠ maxStreamID →
    (st.added : ℤ) - g.entriesRead ≡ (st.ahead g.lastDelivered).length [ZMOD 2 ^ 64]

theorem mem_ahead {st : Stream} {last : StreamID} {e : StreamEntry} :
    e ∈ st.ahead last ↔ e ∈ st.entries ∧ last < e.id := by
  rw [ahead, List.mem_filter, decide_eq_true_iff]

theorem wrap_eq_of_modEq {z : ℤ} {n : ℕ} (h : z ≡ n [ZMOD 2 ^ 64]) (hn : n < 2 ^ 63) : wrap z = n := by
  unfold Int.ModEq at h
  unfold wrap
  omega

/-- Where the counters are in step, a lag that is known is right. -/
theorem groupLag_exact {st : Stream} {g : Group} (hord : st.Ordered) (hcount : st.Counted g)
    (hlen : st.entries.length < 2 ^ 63) {n : ℤ} (h : st.groupLag g = some n) :
    n = (st.ahead g.lastDelivered).length := by
  unfold groupLag at h
  split at h
  · rename_i hnil
    cases h
    simp [ahead, hnil]
  · rename_i first rest hentries
    split_ifs at h with hlast hfirst hread
    · cases h
      have hnone : st.ahead g.lastDelivered = [] := by
        refine List.filter_eq_nil_iff.2 fun e he => ?_
        simpa using (hord.below e he).trans hlast
      rw [hnone]
      rfl
    · cases h
      have hall : st.ahead g.lastDelivered = st.entries := by
        refine List.filter_eq_self.2 fun e he => decide_eq_true ?_
        have hasc := hord.ascending
        rw [Ascending, hentries, List.pairwise_cons] at hasc
        rw [hentries] at he
        rcases List.mem_cons.1 he with rfl | he
        · exact hfirst.2
        · exact hfirst.2.trans (hasc.1 e he)
      rw [hall]
    · cases h
      have hne : g.lastDelivered ≠ maxStreamID := fun heq => hlast (heq ▸ le_maxStreamID _)
      have hle : (st.ahead g.lastDelivered).length ≤ st.entries.length := List.length_filter_le _ _
      exact wrap_eq_of_modEq (hcount.counters hread.1 hne) (by omega)

end Stream

/-- A trimming takes nothing that a group at an id has ahead of it. -/
def TrimStrategy.Spares (t : TrimStrategy) (st : Stream) (last : StreamID) : Prop :=
  match t with
  | .none => True
  | .maxLen n => n < 0 ∨ ((st.ahead last).length : ℤ) ≤ n
  | .minID id => ∀ e ∈ st.ahead last, id ≤ e.id

namespace Stream

variable {st : Stream} {last : StreamID}

theorem Ascending.split (h : st.Ascending) (last : StreamID) :
    st.entries = (st.entries.filter fun e => decide (e.id ≤ last)) ++ st.ahead last := by
  have hmono : st.entries.Pairwise fun a b => decide (last < a.id) = true → decide (last < b.id) = true :=
    h.imp fun hab ha => decide_eq_true ((of_decide_eq_true ha).trans hab)
  have hread : (st.entries.filter fun e => decide (e.id ≤ last)) =
      st.entries.filter fun e => !decide (last < e.id) :=
    List.filter_congr fun e _ => by rw [← decide_not, decide_eq_decide.2 not_lt]
  rw [hread, ahead, ← take_findIdx hmono, ← drop_findIdx hmono, List.take_append_drop]

theorem ahead_drop (h : st.Ascending) {n : ℕ}
    (hn : n + (st.ahead last).length ≤ st.entries.length) :
    (st.entries.drop n).filter (fun e => decide (last < e.id)) = st.ahead last := by
  have hsplit := h.split last
  generalize hread : (st.entries.filter fun e => decide (e.id ≤ last)) = read at hsplit
  have hlen : n ≤ read.length := by
    have := congrArg List.length hsplit
    rw [List.length_append] at this
    omega
  have hnone : (read.drop n).filter (fun e => decide (last < e.id)) = [] := by
    refine List.filter_eq_nil_iff.2 fun e he => ?_
    have hmem : e ∈ st.entries.filter fun e => decide (e.id ≤ last) :=
      hread ▸ List.mem_of_mem_drop he
    simpa using (List.mem_filter.1 hmem).2
  have hself : (st.ahead last).filter (fun e => decide (last < e.id)) = st.ahead last :=
    List.filter_eq_self.2 fun e he => (List.mem_filter.1 he).2
  conv_lhs => rw [hsplit]
  rw [List.drop_append_of_le_length hlen, List.filter_append, hnone, hself, List.nil_append]

theorem ahead_trim (h : st.Ascending) {t : TrimStrategy} (hspares : t.Spares st last) :
    (st.trim t).1.ahead last = st.ahead last := by
  cases t with
  | none => rfl
  | maxLen n =>
    unfold Stream.trim
    dsimp only
    split_ifs with hkeep
    · rfl
    · have hle : ((st.ahead last).length : ℤ) ≤ n := hspares.resolve_left fun hneg => hkeep (.inl hneg)
      exact ahead_drop h (by omega)
  | minID id =>
    have hdrop : (st.trim (.minID id)).1.entries = st.entries.filter fun e => decide (id ≤ e.id) :=
      drop_firstIndex h id
    rw [ahead, hdrop, List.filter_filter]
    refine List.filter_congr fun e he => ?_
    by_cases hlt : last < e.id
    · simp [hlt, hspares e (mem_ahead.2 ⟨he, hlt⟩)]
    · simp [hlt]

theorem ahead_delete {id : StreamID} (hid : ∀ e ∈ st.ahead last, e.id ≠ id) :
    (st.delete id).1.ahead last = st.ahead last := by
  unfold delete
  split
  · rfl
  · rename_i ent hfind
    obtain ⟨hget, hent⟩ := Option.filter_eq_some_iff.1 hfind
    obtain ⟨hlt, hget⟩ := List.getElem?_eq_some_iff.1 hget
    have hbehind : decide (last < ent.id) = false := by
      refine decide_eq_false fun hahead => ?_
      exact hid ent (mem_ahead.2 ⟨hget ▸ List.getElem_mem hlt, hahead⟩) (of_decide_eq_true hent)
    conv_rhs =>
      rw [ahead, ← List.take_append_drop (st.firstIndexAtOrAfter id) st.entries,
        List.drop_eq_getElem_cons hlt, hget]
    rw [ahead, List.eraseIdx_eq_take_drop_succ, List.filter_append, List.filter_append,
      List.filter_cons_of_neg (by simpa using hbehind)]

theorem ahead_deleteAll {ids : List StreamID} (hids : ∀ e ∈ st.ahead last, e.id ∉ ids) :
    (st.deleteAll ids).1.ahead last = st.ahead last := by
  induction ids generalizing st with
  | nil => rfl
  | cons id ids ih =>
    have hsame : (st.delete id).1.ahead last = st.ahead last :=
      ahead_delete fun e he heq => hids e he (heq ▸ List.mem_cons_self)
    have hrest := @ih (st.delete id).1 fun e he hmem =>
      hids e (hsame ▸ he) (List.mem_cons_of_mem _ hmem)
    exact hrest.trans hsame

theorem trim_added (t : TrimStrategy) : (st.trim t).1.added = st.added := by
  cases t with
  | none => rfl
  | maxLen n =>
    unfold Stream.trim
    dsimp only
    split_ifs <;> rfl
  | minID id => rfl

theorem trim_groups (t : TrimStrategy) : (st.trim t).1.groups = st.groups := by
  cases t with
  | none => rfl
  | maxLen n =>
    unfold Stream.trim
    dsimp only
    split_ifs <;> rfl
  | minID id => rfl

theorem deleteAll_groups (ids : List StreamID) : (st.deleteAll ids).1.groups = st.groups := by
  induction ids generalizing st with
  | nil => rfl
  | cons id ids ih =>
    have hone : (st.delete id).1.groups = st.groups := by
      unfold delete
      split <;> rfl
    exact ih.trans hone

theorem deleteAll_counters (ids : List StreamID) :
    (st.deleteAll ids).1.added = st.added ∧ (st.deleteAll ids).1.last = st.last := by
  induction ids generalizing st with
  | nil => exact ⟨rfl, rfl⟩
  | cons id ids ih =>
    have hone : (st.delete id).1.added = st.added := by
      unfold delete
      split <;> rfl
    exact ⟨ih.1.trans hone, ih.2.trans (delete_entries id).2⟩

theorem ahead_concat {ent : StreamEntry} (h : last < ent.id) :
    { st with entries := st.entries ++ [ent] }.ahead last = st.ahead last ++ [ent] := by
  simp [ahead, h]

end Stream

namespace Stream

variable {st : Stream} {g : Group}

/-- A change that takes nothing from ahead of the group. -/
theorem Counted.congr (h : st.Counted g) {st' : Stream} (hlast : st'.last = st.last)
    (hadded : st'.added = st.added) (hahead : st'.ahead g.lastDelivered = st.ahead g.lastDelivered) :
    st'.Counted g where
  reached hread := hlast ▸ h.reached hread
  counters hread hne := by
    rw [hadded, hahead]
    exact h.counters hread hne

/-- A change of the group that leaves its position and its counter alone. -/
theorem Counted.of_standing (h : st.Counted g) {g' : Group}
    (hlast : g'.lastDelivered = g.lastDelivered) (hread : g'.entriesRead = g.entriesRead)
    (hhas : g'.hasEntriesRead = g.hasEntriesRead) : st.Counted g' where
  reached := by
    rw [hlast, hhas]
    exact h.reached
  counters := by
    rw [hlast, hhas, hread]
    exact h.counters

theorem Counted.unknown (h : g.hasEntriesRead = false) : st.Counted g where
  reached hread := absurd hread (by simp [h])
  counters hread := absurd hread (by simp [h])

theorem Counted.trim (h : st.Counted g) (hasc : st.Ascending) {t : TrimStrategy}
    (hspares : g.hasEntriesRead = true → t.Spares st g.lastDelivered) : (st.trim t).1.Counted g := by
  cases hread : g.hasEntriesRead with
  | false => exact .unknown hread
  | true => exact h.congr (trim_entries t).2 (trim_added t) (ahead_trim hasc (hspares hread))

theorem Counted.deleteAll (h : st.Counted g) {ids : List StreamID}
    (hids : g.hasEntriesRead = true → ∀ e ∈ st.ahead g.lastDelivered, e.id ∉ ids) :
    (st.deleteAll ids).1.Counted g := by
  cases hread : g.hasEntriesRead with
  | false => exact .unknown hread
  | true =>
    exact h.congr (deleteAll_counters ids).2 (deleteAll_counters ids).1 (ahead_deleteAll (hids hread))

/-- The stream with a new entry, before it is trimmed. -/
def concat (st : Stream) (id : StreamID) (fields : List Bytes) : Stream :=
  { st with
    entries := st.entries ++ [⟨id, fields⟩]
    last := id
    added := (st.added + 1) % 2 ^ 64 }

theorem Ordered.concat (h : st.Ordered) {id : StreamID} (hid : st.last < id) (fields : List Bytes) :
    (st.concat id fields).Ordered := h.append hid fields .none

theorem Counted.concat (h : st.Counted g) {id : StreamID} (hid : st.last < id) (fields : List Bytes) :
    (st.concat id fields).Counted g where
  reached hread := (h.reached hread).trans hid.le
  counters hread hne := by
    have hahead : (st.concat id fields).ahead g.lastDelivered =
        st.ahead g.lastDelivered ++ [⟨id, fields⟩] :=
      ahead_concat (lt_of_le_of_lt (h.reached hread) hid)
    have hold := h.counters hread hne
    rw [hahead, List.length_append]
    unfold Int.ModEq at hold ⊢
    simp only [Stream.concat, List.length_singleton]
    push_cast
    omega

/-- What a group has ahead of it that is at an entry. -/
theorem ahead_at (h : st.Ascending) {pre post : List StreamEntry} {ent : StreamEntry}
    (hentries : st.entries = pre ++ ent :: post) : st.ahead ent.id = post := by
  rw [Ascending, hentries, List.pairwise_append, List.pairwise_cons] at h
  obtain ⟨-, ⟨hpost, -⟩, hpre⟩ := h
  have hbefore : (pre.filter fun e => decide (ent.id < e.id)) = [] :=
    List.filter_eq_nil_iff.2 fun e he => by
      simpa using (hpre e he ent List.mem_cons_self).le
  have hafter : (post.filter fun e => decide (ent.id < e.id)) = post :=
    List.filter_eq_self.2 fun e he => decide_eq_true (hpost e he)
  rw [ahead, hentries, List.filter_append, hbefore, List.filter_cons_of_neg (by simp), hafter,
    List.nil_append]

theorem fresh_eq_ahead (h : st.Ascending) {last : StreamID} (hne : last ≠ maxStreamID) :
    st.fresh last = st.ahead last := by
  rw [fresh, drop_firstIndex h, ahead]
  exact List.filter_congr fun e _ => decide_eq_decide.2 (idNext_le_iff hne)

theorem within_split {α : Type} (count : ℕ) (l : List α) : ∃ rest, l = within count l ++ rest := by
  unfold within
  split_ifs
  · exact ⟨[], (List.append_nil l).symm⟩
  · exact ⟨l.drop count, (List.take_append_drop count l).symm⟩

theorem deliver_counters (s : Standing) (added fresh : ℕ) (noack : Bool) (nack : Nack)
    (ids : List StreamID) (id : StreamID) :
    (s.deliver added fresh noack nack (ids ++ [id])).lastDelivered = id ∧
      (s.deliver added fresh noack nack (ids ++ [id])).entriesRead =
        wrap ((if s.hasEntriesRead then s.entriesRead else (added : ℤ) - fresh) + (ids.length + 1)) := by
  unfold Standing.deliver
  rw [List.getLast?_concat]
  exact ⟨rfl, by simp⟩

theorem Counted.deliver (h : st.Counted g) (hord : st.Ordered) {g' : Group} {count : ℕ} {noack : Bool}
    {nack : Nack} {s : Standing} (hlast : s.lastDelivered = g.lastDelivered)
    (hread : s.entriesRead = g.entriesRead) (hhas : s.hasEntriesRead = g.hasEntriesRead)
    (hg' : g'.standing = s.deliver st.added (st.fresh g.lastDelivered).length noack nack
      (st.delivery g.lastDelivered count)) : st.Counted g' := by
  obtain ⟨rest, hrest⟩ := within_split count (st.fresh g.lastDelivered)
  rcases List.eq_nil_or_concat (within count (st.fresh g.lastDelivered)) with hnil | ⟨pre, ent, hpre⟩
  · -- nothing was delivered
    rw [delivery, hnil, List.map_nil, Standing.deliver_nil] at hg'
    exact h.of_standing ((congrArg Standing.lastDelivered hg').trans hlast)
      ((congrArg Standing.entriesRead hg').trans hread)
      ((congrArg Standing.hasEntriesRead hg').trans hhas)
  rw [List.concat_eq_append] at hpre
  rw [delivery, hpre, List.map_append, List.map_singleton] at hg'
  obtain ⟨hl, hr⟩ := deliver_counters s st.added (st.fresh g.lastDelivered).length noack nack
    (pre.map StreamEntry.id) ent.id
  rw [← hg'] at hl hr
  change g'.lastDelivered = ent.id at hl
  change g'.entriesRead = _ at hr
  rw [hpre] at hrest
  have hmem : ent ∈ st.entries := (mem_fresh hord.ascending).1 (by rw [hrest]; simp) |>.1
  refine ⟨fun _ => hl ▸ hord.below ent hmem, fun _ hne => ?_⟩
  rw [hl] at hne ⊢
  have hgne : g.lastDelivered ≠ maxStreamID := by
    intro heq
    have hle := ((mem_fresh hord.ascending).1 (show ent ∈ st.fresh g.lastDelivered by
      rw [hrest]; simp)).2
    rw [heq, idNext_max] at hle
    exact hne (le_antisymm (le_maxStreamID _) hle)
  have hahead := fresh_eq_ahead hord.ascending hgne
  have hafter : st.ahead ent.id = rest := by
    have hsplit := hord.ascending.split g.lastDelivered
    rw [← hahead, hrest, List.append_assoc, ← List.append_assoc] at hsplit
    exact ahead_at hord.ascending hsplit
  have hlen : (st.fresh g.lastDelivered).length = pre.length + 1 + rest.length := by
    rw [hrest, List.length_append, List.length_append, List.length_singleton]
  rw [hafter, hr, hhas, hread, hlen, List.length_map]
  cases hknown : g.hasEntriesRead with
  | false =>
    unfold Int.ModEq wrap
    simp only [Bool.false_eq_true, if_false]
    push_cast
    omega
  | true =>
    have hold := h.counters hknown hgne
    rw [← hahead, hlen] at hold
    unfold Int.ModEq wrap at *
    simp only [if_true]
    push_cast at *
    omega

theorem Counted.read (h : st.Counted g) (hord : st.Ordered) (consumer : Bytes) (after : Option StreamID)
    (count : ℕ) (noack : Bool) (nowMs : ℤ) :
    st.Counted (g.read st consumer after count noack nowMs).1 := by
  have hread := g.standing_read st consumer after count noack nowMs
  cases after with
  | some after =>
    exact h.of_standing (congrArg Standing.lastDelivered hread)
      (congrArg Standing.entriesRead hread) (congrArg Standing.hasEntriesRead hread)
  | none => exact h.deliver hord rfl rfl rfl hread

end Stream

end ShardKV.Data
