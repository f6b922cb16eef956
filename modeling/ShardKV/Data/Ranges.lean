import ShardKV.Access.Machine
import ShardKV.Data.Groups

/-! Reads of a stream by id. The entries ascend, so a range is what lies between two
searches, and the step from an inclusive end to the place behind it is the successor of
an id. The greatest id is its own successor, which is where a search for the place
behind it finds the entry itself. -/

namespace ShardKV.Data

open Access

section Search

variable {α : Type} {p : α → Bool} {l : List α}

/-- Where no miss follows a hit, the misses are what comes before the first one. -/
theorem take_findIdx (h : l.Pairwise fun a b => p a = true → p b = true) :
    l.take (l.findIdx p) = l.filter fun a => !p a := by
  induction l with
  | nil => rfl
  | cons a l ih =>
    obtain ⟨hhead, htail⟩ := List.pairwise_cons.mp h
    rw [List.findIdx_cons]
    cases ha : p a with
    | true =>
      have hnone : l.filter (fun b => !p b) = [] :=
        List.filter_eq_nil_iff.mpr fun b hb => by simp [hhead b hb ha]
      rw [cond_true, List.take_zero, List.filter_cons_of_neg (by simp [ha]), hnone]
    | false =>
      rw [cond_false, List.take_succ_cons, ih htail, List.filter_cons_of_pos (by simp [ha])]

/-- Between two searches lie the hits of the first that are misses of the second. -/
theorem slice_findIdx {q : α → Bool} (hp : l.Pairwise fun a b => p a = true → p b = true)
    (hq : l.Pairwise fun a b => q a = true → q b = true) :
    (l.take (l.findIdx q)).drop (l.findIdx p) = l.filter fun a => p a && !q a := by
  induction l with
  | nil => rfl
  | cons a l ih =>
    obtain ⟨hphead, hptail⟩ := List.pairwise_cons.mp hp
    obtain ⟨hqhead, hqtail⟩ := List.pairwise_cons.mp hq
    rw [List.findIdx_cons, List.findIdx_cons]
    cases hqa : q a with
    | true =>
      have hnone : l.filter (fun b => p b && !q b) = [] :=
        List.filter_eq_nil_iff.mpr fun b hb => by simp [hqhead b hb hqa]
      rw [cond_true, List.take_zero, List.drop_nil, List.filter_cons_of_neg (by simp [hqa]), hnone]
    | false =>
      rw [cond_false, List.take_succ_cons]
      cases hpa : p a with
      | true =>
        rw [cond_true, List.drop_zero, List.filter_cons_of_pos (by simp [hpa, hqa]), take_findIdx hqtail]
        refine congrArg (a :: ·) (List.filter_congr fun b hb => ?_)
        rw [hphead b hb hpa, Bool.true_and]
      | false =>
        rw [cond_false, List.drop_succ_cons, ih hptail hqtail, List.filter_cons_of_neg (by simp [hpa])]

end Search

section Ids

variable {id other : StreamID}

theorem zeroID_le (id : StreamID) : zeroID ≤ id := by
  rw [Prod.Lex.le_iff]
  rcases lt_or_eq_of_le (Fin.zero_le (ofLex id).1) with h | h
  · exact .inl h
  · exact .inr ⟨h, Fin.zero_le _⟩

/-- Below the greatest id, the successor is the next id. -/
theorem idNext_le_iff (h : id ≠ maxStreamID) : idNext id ≤ other ↔ id < other := by
  constructor
  · exact fun hle => lt_of_lt_of_le (lt_idNext h) hle
  · intro hlt
    unfold idNext
    rw [Prod.Lex.lt_iff] at hlt
    split_ifs with hseq hms
    · exact absurd (Prod.ext hms hseq : ofLex id = ofLex maxStreamID) fun hid => h (ofLex.injective hid)
    · rcases hlt with hlt | ⟨-, hlt⟩
      · rw [Prod.Lex.le_iff]
        have hms' : (ofLex id).1 + 1 ≤ (ofLex other).1 := Fin.add_one_le_of_lt hlt
        rcases lt_or_eq_of_le hms' with h' | h'
        · exact .inl h'
        · exact .inr ⟨h', Fin.zero_le _⟩
      · exact absurd (Fin.le_last _) (not_le.mpr (hseq ▸ hlt))
    · rw [Prod.Lex.le_iff]
      rcases hlt with hlt | ⟨heq, hlt⟩
      · exact .inl hlt
      · exact .inr ⟨heq, Fin.add_one_le_of_lt hlt⟩

theorem lt_idNext_iff (h : id ≠ maxStreamID) : other < idNext id ↔ other ≤ id := by
  rw [← not_le, idNext_le_iff h, not_lt]

/-- For ids below the greatest one, the successor of any end is the place behind it. -/
theorem lt_idNext_of_ne (h : other ≠ maxStreamID) : other < idNext id ↔ other ≤ id := by
  by_cases hid : id = maxStreamID
  · rw [hid, idNext_max]
    exact ⟨le_of_lt, fun hle => lt_of_le_of_ne hle h⟩
  · exact lt_idNext_iff hid

theorem idNext_le_of_ne (h : other ≠ maxStreamID) : idNext id ≤ other ↔ id < other := by
  rw [← not_lt, lt_idNext_of_ne h, not_le]

theorem sub_one_ne_max {n : Fin (2 ^ 64)} (h : n ≠ 0) : n - 1 ≠ maxUint64 := by
  intro heq
  refine h ?_
  rw [sub_eq_iff_eq_add.mp heq]
  rfl

theorem idNext_idPrev (h : id ≠ zeroID) : idNext (idPrev id) = id := by
  unfold idPrev
  split_ifs with hseq hms
  · exact absurd (Prod.ext hms hseq : ofLex id = ofLex zeroID) fun hid => h (ofLex.injective hid)
  · simp only [idNext, streamID, ofLex_toLex, if_true, if_neg (sub_one_ne_max hms), sub_add_cancel,
      ← hseq]
    rfl
  · simp only [idNext, streamID, ofLex_toLex, if_neg (sub_one_ne_max hseq), sub_add_cancel]
    rfl

theorem idPrev_ne_max (h : id ≠ zeroID) : idPrev id ≠ maxStreamID := by
  unfold idPrev
  split_ifs with hseq hms
  · exact absurd (Prod.ext hms hseq : ofLex id = ofLex zeroID) fun hid => h (ofLex.injective hid)
  · exact fun heq => sub_one_ne_max hms (congrArg (fun i => (ofLex i).1) heq)
  · exact fun heq => sub_one_ne_max hseq (congrArg (fun i => (ofLex i).2) heq)

/-- Above the least id, the predecessor is the id before. -/
theorem le_idPrev_iff (h : id ≠ zeroID) : other ≤ idPrev id ↔ other < id := by
  rw [← lt_idNext_iff (idPrev_ne_max h), idNext_idPrev h]

end Ids

/-- At most so many of the entries, or all of them. -/
def cut {α : Type} (limit : Option ℕ) (l : List α) : List α :=
  match limit with
  | none => l
  | some n => l.take n

/-- A count that is not positive is no limit. -/
def limitOf (count : ℤ) : Option ℕ := if 0 < count then some count.toNat else none

/-- The order in which a range is walked. -/
def oriented {α : Type} (rev : Bool) (l : List α) : List α := if rev then l.reverse else l

namespace Stream

/-- The loop of `XRange` over the entries it found; `taken` counts what was copied. -/
def collect (count : ℤ) : ℤ → List StreamEntry → List StreamEntry
  | _, [] => []
  | taken, e :: rest => if 0 < count ∧ taken = count then [] else e :: collect count (taken + 1) rest

/-- `XRange` on a stream. -/
def range (st : Stream) (start stop : StreamID) (count : ℤ) (rev : Bool) : List StreamEntry :=
  if stop < start then []
  else
    let lo := st.firstIndexAtOrAfter start
    let hi := st.firstIndexAtOrAfter (idNext stop)
    if hi ≤ lo then []
    else collect count 0 (oriented rev ((st.entries.take hi).drop lo))

theorem collect_eq_take {count taken : ℤ} (hcount : 0 < count) (htaken : 0 ≤ taken) (hle : taken ≤ count)
    (l : List StreamEntry) : collect count taken l = l.take (count - taken).toNat := by
  induction l generalizing taken with
  | nil => simp [collect]
  | cons e rest ih =>
    rw [collect]
    by_cases hfull : taken = count
    · rw [if_pos ⟨hcount, hfull⟩, hfull, sub_self, Int.toNat_zero, List.take_zero]
    · have hstep : (count - taken).toNat = (count - (taken + 1)).toNat + 1 := by omega
      rw [if_neg fun h => hfull h.2, ih (by omega) (by omega), hstep, List.take_succ_cons]

theorem collect_eq_self {count : ℤ} (hcount : ¬ 0 < count) (taken : ℤ) (l : List StreamEntry) :
    collect count taken l = l := by
  induction l generalizing taken with
  | nil => rfl
  | cons e rest ih => rw [collect, if_neg fun h => hcount h.1, ih]

theorem collect_eq (count : ℤ) (l : List StreamEntry) : collect count 0 l = cut (limitOf count) l := by
  unfold limitOf
  split_ifs with hcount
  · rw [collect_eq_take hcount le_rfl hcount.le, sub_zero, cut]
  · rw [collect_eq_self hcount, cut]

section Ascending

variable {st : Stream} (h : st.Ascending)

include h

/-- What `XRange` returns: the entries from the start on and before the successor of
the end. -/
theorem range_eq (start stop : StreamID) (count : ℤ) (rev : Bool) :
    st.range start stop count rev = cut (limitOf count) (oriented rev
      (st.entries.filter fun e => decide (start ≤ e.id ∧ e.id < idNext stop))) := by
  have hslice : (st.entries.take (st.firstIndexAtOrAfter (idNext stop))).drop
      (st.firstIndexAtOrAfter start) =
        st.entries.filter fun e => decide (start ≤ e.id ∧ e.id < idNext stop) := by
    rw [firstIndexAtOrAfter, firstIndexAtOrAfter,
      slice_findIdx (h.monotone start) (h.monotone (idNext stop))]
    refine List.filter_congr fun e _ => ?_
    rw [Bool.decide_and, ← decide_not, decide_eq_decide.mpr not_le]
  have hnil : cut (limitOf count) (oriented rev ([] : List StreamEntry)) = [] := by
    cases rev <;> cases limitOf count <;> simp [cut, oriented]
  unfold range
  dsimp only
  split_ifs with hempty hnone
  · have hstop : stop ≠ maxStreamID := fun heq => not_le.mpr (heq ▸ hempty) (le_maxStreamID start)
    have hout : (st.entries.filter fun e => decide (start ≤ e.id ∧ e.id < idNext stop)) = [] := by
      refine List.filter_eq_nil_iff.mpr fun e _ => ?_
      rw [decide_eq_true_iff, lt_idNext_iff hstop]
      exact fun he => not_le.mpr hempty (he.1.trans he.2)
    rw [hout, hnil]
  · rw [← hslice, List.drop_eq_nil_of_le ((List.length_take_le _ _).trans hnone), hnil]
  · rw [collect_eq, hslice]

end Ascending

/-! ### The streams there are -/

/-- The entries ascend from above the zero id up to the last id that was given out. -/
structure Ordered (st : Stream) : Prop where
  ascending : st.Ascending
  nonzero : ∀ e ∈ st.entries, e.id ≠ zeroID
  below : ∀ e ∈ st.entries, e.id ≤ st.last

/-- What the store does to a stream. -/
inductive Op
  | add (now : Instant) (id : AddID) (fields : List Bytes) (trim : TrimStrategy)
  | trim (t : TrimStrategy)
  | delete (ids : List StreamID)
  | setID (id : StreamID) (entriesAdded : Option ℤ) (maxDeleted : Option StreamID)
  | regroup (groups : Finmap fun _ : Bytes => Group)

/-- One operation, unless it is refused. -/
def perform (st : Stream) : Op → Option Stream
  | .add now id fields t => (st.addID now id).toOption.map fun id => (st.append id fields t).1
  | .trim t => some (st.trim t).1
  | .delete ids => some (st.deleteAll ids).1
  | .setID id entriesAdded maxDeleted => (st.setID id entriesAdded maxDeleted).toOption
  | .regroup groups => some { st with groups := groups }

/-- The streams that operations build. -/
def Built (st : Stream) : Prop := Reachable perform new st

section Invariant

variable {st : Stream}

theorem Ordered.sublist (h : st.Ordered) {entries : List StreamEntry} (hsub : entries.Sublist st.entries)
    {st' : Stream} (hentries : st'.entries = entries) (hlast : st'.last = st.last) : st'.Ordered where
  ascending := by
    rw [Ascending, hentries]
    exact h.ascending.sublist hsub
  nonzero e he := h.nonzero e (hsub.subset (hentries ▸ he))
  below e he := hlast ▸ h.below e (hsub.subset (hentries ▸ he))

/-- The id of a new entry is above all that went before. -/
theorem lt_of_addID {now : Instant} {a : AddID} {id : StreamID} (h : st.addID now a = .ok id) :
    st.last < id := by
  have hms {ms : Fin (2 ^ 64)} (hlt : (ofLex st.last).1 < ms) : st.last < streamID ms 0 :=
    Prod.Lex.lt_iff.mpr (.inl hlt)
  have hseq (hne : (ofLex st.last).2 ≠ maxUint64) :
      st.last < streamID (ofLex st.last).1 ((ofLex st.last).2 + 1) :=
    Prod.Lex.lt_iff.mpr (.inr ⟨rfl, Fin.lt_add_one_iff.mpr (lt_of_le_of_ne (Fin.le_last _) hne)⟩)
  cases a with
  | auto =>
    simp only [addID, nextID] at h
    split_ifs at h with hclock hfull hlast
    · exact Except.ok.inj h ▸ hms hclock
    · exact Except.ok.inj h ▸ hms (Fin.lt_add_one_iff.mpr (lt_of_le_of_ne (Fin.le_last _) hlast))
    · exact Except.ok.inj h ▸ hseq hfull
  | autoSeq ms =>
    simp only [addID, seqForMs] at h
    split_ifs at h with habove hbelow hfull
    · exact Except.ok.inj h ▸ hms habove
    · have heq : ms = (ofLex st.last).1 := le_antisymm (not_lt.mp habove) (not_lt.mp hbelow)
      exact Except.ok.inj h ▸ heq ▸ hseq hfull
  | explicit i =>
    simp only [addID] at h
    split_ifs at h with hzero hsmall
    obtain rfl := Except.ok.inj h
    by_contra hle
    -- an id that is not above the last one passes only where the stream is as new
    have hlast : st.last = zeroID := by
      by_contra hne
      exact hsmall ⟨.inr (.inr hne), not_lt.mp hle⟩
    exact hle (hlast ▸ lt_of_le_of_ne (zeroID_le i) (Ne.symm hzero))

theorem trim_entries (t : TrimStrategy) :
    (st.trim t).1.entries.Sublist st.entries ∧ (st.trim t).1.last = st.last := by
  cases t with
  | none => exact ⟨List.Sublist.refl _, rfl⟩
  | maxLen n =>
    unfold Stream.trim
    dsimp only
    split_ifs
    · exact ⟨List.Sublist.refl _, rfl⟩
    · exact ⟨List.drop_sublist _ _, rfl⟩
  | minID id => exact ⟨List.drop_sublist _ _, rfl⟩

theorem delete_entries (id : StreamID) :
    (st.delete id).1.entries.Sublist st.entries ∧ (st.delete id).1.last = st.last := by
  unfold delete
  split
  · exact ⟨List.Sublist.refl _, rfl⟩
  · exact ⟨List.eraseIdx_sublist _ _, rfl⟩

theorem Ordered.trim (h : st.Ordered) (t : TrimStrategy) : (st.trim t).1.Ordered :=
  h.sublist (trim_entries t).1 rfl (trim_entries t).2

theorem Ordered.deleteAll (h : st.Ordered) (ids : List StreamID) : (st.deleteAll ids).1.Ordered := by
  induction ids generalizing st with
  | nil => exact h
  | cons id ids ih => exact ih (h.sublist (delete_entries id).1 rfl (delete_entries id).2)

theorem Ordered.append (h : st.Ordered) {id : StreamID} (hid : st.last < id) (fields : List Bytes)
    (t : TrimStrategy) : (st.append id fields t).1.Ordered := by
  refine Ordered.trim ⟨?_, ?_, ?_⟩ t
  · refine List.pairwise_append.mpr ⟨h.ascending, List.pairwise_singleton _ _, fun e he f hf => ?_⟩
    rw [List.mem_singleton.mp hf]
    exact lt_of_le_of_lt (h.below e he) hid
  · intro e he
    rcases List.mem_append.mp he with he | he
    · exact h.nonzero e he
    · rw [List.mem_singleton.mp he]
      exact ne_of_gt (lt_of_le_of_lt (zeroID_le _) hid)
  · intro e he
    rcases List.mem_append.mp he with he | he
    · exact (h.below e he).trans hid.le
    · exact (congrArg StreamEntry.id (List.mem_singleton.mp he)).le

theorem Ordered.setID (h : st.Ordered) {id : StreamID} {entriesAdded : Option ℤ}
    {maxDeleted : Option StreamID} {st' : Stream}
    (hset : st.setID id entriesAdded maxDeleted = .ok st') : st'.Ordered := by
  unfold Stream.setID at hset
  split_ifs at hset with hsmall
  obtain rfl := Except.ok.inj hset
  refine ⟨h.ascending, h.nonzero, fun e he => ?_⟩
  -- the last entry is the greatest
  obtain ⟨init, top, hentries⟩ :=
    (List.eq_nil_or_concat st.entries).resolve_left (List.ne_nil_of_mem he)
  rw [List.concat_eq_append] at hentries
  have htop : top.id ≤ id := by simpa [hentries] using hsmall
  have hasc := h.ascending
  rw [Ascending, hentries, List.pairwise_append] at hasc
  change e ∈ st.entries at he
  rw [hentries] at he
  rcases List.mem_append.mp he with he | he
  · exact (hasc.2.2 e he top (List.mem_singleton_self top)).le.trans htop
  · rw [List.mem_singleton.mp he]
    exact htop

theorem Ordered.perform (h : st.Ordered) {op : Op} {st' : Stream} (hop : st.perform op = some st') :
    st'.Ordered := by
  cases op with
  | add now id fields t =>
    cases hid : st.addID now id with
    | error e => simp [Stream.perform, hid, Except.toOption] at hop
    | ok i =>
      simp only [Stream.perform, hid, Except.toOption, Option.map_some, Option.some.injEq] at hop
      exact hop ▸ h.append (lt_of_addID hid) fields t
  | trim t => exact Option.some.inj hop ▸ h.trim t
  | delete ids => exact Option.some.inj hop ▸ h.deleteAll ids
  | setID id entriesAdded maxDeleted =>
    cases hset : st.setID id entriesAdded maxDeleted with
    | error e => simp [Stream.perform, hset, Except.toOption] at hop
    | ok st'' =>
      simp only [Stream.perform, hset, Except.toOption, Option.some.injEq] at hop
      exact hop ▸ h.setID hset
  | regroup groups => exact Option.some.inj hop ▸ ⟨h.ascending, h.nonzero, h.below⟩

/-- Every stream the store can build is in order. -/
theorem Built.ordered (h : st.Built) : st.Ordered :=
  Reaches.invariant (fun _ _ _ hs _ hop => hs.perform hop) h ⟨List.Pairwise.nil, by simp [new], by simp [new]⟩

end Invariant

/-! ### What a read asks for -/

/-- The entries with the ids asked for, in the order asked for, up to the limit. -/
def asked (st : Stream) (p : StreamID → Bool) (limit : Option ℕ) (rev : Bool) : List StreamEntry :=
  cut limit (oriented rev (st.entries.filter fun e => p e.id))

/-- There is an entry at the greatest id. -/
def HasLast (st : Stream) : Prop := ∃ e ∈ st.entries, e.id = maxStreamID
  deriving Decidable

/-- The limit is used up before the greatest id. -/
def UsedUp (st : Stream) (p : StreamID → Bool) (limit : Option ℕ) (rev : Bool) : Prop :=
  ∃ n, limit = some n ∧ (n = 0 ∨ rev = false ∧
    n ≤ (st.entries.filter fun e => p e.id && decide (e.id ≠ maxStreamID)).length)

/-- An entry at the greatest id is not there, not asked for, or behind the limit. -/
def SparesLast (st : Stream) (p : StreamID → Bool) (limit : Option ℕ) (rev : Bool) : Prop :=
  st.HasLast → p maxStreamID = true → st.UsedUp p limit rev

section Last

variable {st : Stream}

/-- An entry at the greatest id is the last one. -/
theorem HasLast.concat (h : st.Ascending) (hlast : st.HasLast) :
    ∃ init top, st.entries = init ++ [top] ∧ top.id = maxStreamID ∧ ∀ e ∈ init, e.id ≠ maxStreamID := by
  obtain ⟨e, he, hmax⟩ := hlast
  obtain ⟨init, top, hentries⟩ :=
    (List.eq_nil_or_concat st.entries).resolve_left (List.ne_nil_of_mem he)
  rw [List.concat_eq_append] at hentries
  rw [Ascending, hentries, List.pairwise_append] at h
  have hlt : ∀ e ∈ init, e.id < top.id := fun e he => h.2.2 e he top (List.mem_singleton_self top)
  have htop : top.id = maxStreamID := by
    rw [hentries] at he
    rcases List.mem_append.mp he with he | he
    · exact absurd (le_maxStreamID top.id) (not_le.mpr (hmax ▸ hlt e he))
    · rw [← hmax, List.mem_singleton.mp he]
  exact ⟨init, top, hentries, htop, fun e he => ne_of_lt (htop ▸ hlt e he)⟩

theorem cut_concat_eq_iff {α : Type} {limit : Option ℕ} {l : List α} {x : α} :
    cut limit l = cut limit (l ++ [x]) ↔ ∃ n, limit = some n ∧ n ≤ l.length := by
  cases limit with
  | none => simp [cut]
  | some n =>
    rw [cut, cut, List.take_append]
    constructor
    · intro h
      have hlen := congrArg List.length h
      simp only [List.length_append, List.length_take, List.length_singleton] at hlen
      exact ⟨n, rfl, by omega⟩
    · rintro ⟨m, hm, hle⟩
      obtain rfl := Option.some.inj hm
      rw [Nat.sub_eq_zero_of_le hle, List.take_zero, List.append_nil]

theorem cut_cons_eq_iff {α : Type} {limit : Option ℕ} {l : List α} {x : α} (hx : x ∉ l) :
    cut limit l = cut limit (x :: l) ↔ limit = some 0 := by
  cases limit with
  | none => simp [cut]
  | some n =>
    cases n with
    | zero => simp [cut]
    | succ n =>
      rw [cut, cut, List.take_succ_cons]
      constructor
      · intro h
        exact absurd (List.mem_of_mem_take (h ▸ List.mem_cons_self)) hx
      · simp

/-- Leaving out an entry at the greatest id makes no difference just when it is spared. -/
theorem asked_without_last (h : st.Ascending) (p : StreamID → Bool) (limit : Option ℕ) (rev : Bool) :
    cut limit (oriented rev (st.entries.filter fun e => p e.id && decide (e.id ≠ maxStreamID))) =
        st.asked p limit rev ↔ st.SparesLast p limit rev := by
  unfold asked SparesLast UsedUp
  by_cases hlast : st.HasLast
  swap
  · have hall : ∀ e ∈ st.entries, e.id ≠ maxStreamID := fun e he hmax => hlast ⟨e, he, hmax⟩
    have hsame : (st.entries.filter fun e => p e.id && decide (e.id ≠ maxStreamID)) =
        st.entries.filter fun e => p e.id :=
      List.filter_congr fun e he => by rw [decide_eq_true (hall e he), Bool.and_true]
    rw [hsame]
    exact ⟨fun _ hl => absurd hl hlast, fun _ => rfl⟩
  obtain ⟨init, top, hentries, htop, hinit⟩ := hlast.concat h
  have hleft : (st.entries.filter fun e => p e.id && decide (e.id ≠ maxStreamID)) =
      init.filter fun e => p e.id := by
    rw [hentries, List.filter_append, List.filter_cons_of_neg (by simp [htop]), List.filter_nil,
      List.append_nil]
    exact List.filter_congr fun e he => by rw [decide_eq_true (hinit e he), Bool.and_true]
  have hright : (st.entries.filter fun e => p e.id) =
      (init.filter fun e => p e.id) ++ if p maxStreamID then [top] else [] := by
    rw [hentries, List.filter_append, List.filter_cons, htop, List.filter_nil]
  rw [hleft, hright]
  cases hp : p maxStreamID with
  | false => simp
  | true =>
    have hnot : top ∉ (init.filter fun e => p e.id).reverse := fun hmem =>
      hinit top (List.mem_filter.mp (List.mem_reverse.mp hmem)).1 htop
    rw [if_pos rfl]
    cases rev with
    | false =>
      rw [oriented, oriented, if_neg Bool.false_ne_true, if_neg Bool.false_ne_true, cut_concat_eq_iff]
      constructor
      · rintro ⟨n, hn, hle⟩ - -
        exact ⟨n, hn, .inr ⟨rfl, hle⟩⟩
      · intro hused
        obtain ⟨n, hn, rfl | ⟨-, hle⟩⟩ := hused hlast rfl
        · exact ⟨0, hn, Nat.zero_le _⟩
        · exact ⟨n, hn, hle⟩
    | true =>
      rw [oriented, oriented, if_pos rfl, if_pos rfl, List.reverse_append, List.reverse_singleton,
        List.singleton_append, cut_cons_eq_iff hnot]
      constructor
      · exact fun hn _ _ => ⟨0, hn, .inl rfl⟩
      · intro hused
        obtain ⟨n, hn, rfl | ⟨hrev, -⟩⟩ := hused hlast rfl
        · exact hn
        · exact absurd hrev (by simp)

/-- `XRange` leaves out the entry at the greatest id, whatever its bounds are. -/
theorem range_without_last (h : st.Ascending) {p : StreamID → Bool} {start stop : StreamID}
    (hp : ∀ e ∈ st.entries, e.id ≠ maxStreamID → (p e.id = true ↔ start ≤ e.id ∧ e.id < idNext stop))
    (count : ℤ) (rev : Bool) :
    st.range start stop count rev = cut (limitOf count) (oriented rev
      (st.entries.filter fun e => p e.id && decide (e.id ≠ maxStreamID))) := by
  rw [range_eq h]
  congr 2
  refine List.filter_congr fun e he => ?_
  by_cases hmax : e.id = maxStreamID
  · have hnext : ¬ e.id < idNext stop := not_lt.mpr (hmax ▸ le_maxStreamID _)
    rw [decide_eq_false fun h => hnext h.2, decide_eq_false (not_not_intro hmax), Bool.and_false]
  · rw [decide_eq_true hmax, Bool.and_true]
    exact Bool.eq_iff_iff.mpr (decide_eq_true_iff.trans (hp e he hmax).symm)

/-- A range is what was asked for just when an entry at the greatest id is spared. -/
theorem range_exact_iff (h : st.Ascending) {p : StreamID → Bool} {start stop : StreamID}
    (hp : ∀ e ∈ st.entries, e.id ≠ maxStreamID → (p e.id = true ↔ start ≤ e.id ∧ e.id < idNext stop))
    (count : ℤ) (rev : Bool) :
    st.range start stop count rev = st.asked p (limitOf count) rev ↔
      st.SparesLast p (limitOf count) rev := by
  rw [range_without_last h hp, asked_without_last h]

/-- The new entries of a group are those after the last one it was given, unless that is
at the greatest id. -/
theorem fresh_exact_iff (h : st.Ascending) (last : StreamID) (count : ℤ) :
    within count.toNat (st.fresh last) = st.asked (fun id => decide (last < id)) (limitOf count) false ↔
      ¬ (last = maxStreamID ∧ st.HasLast) := by
  have hcut : ∀ l : List StreamEntry, within count.toNat l = cut (limitOf count) l := by
    intro l
    unfold within limitOf
    split_ifs with hzero hpos
    · omega
    · rfl
    · rfl
    · omega
  rw [hcut, fresh, drop_firstIndex h, asked, oriented, if_neg Bool.false_ne_true]
  by_cases hlast : last = maxStreamID
  swap
  · have hsame : (st.entries.filter fun e => decide (idNext last ≤ e.id)) =
        st.entries.filter fun e => decide (last < e.id) :=
      List.filter_congr fun e _ => decide_eq_decide.mpr (idNext_le_iff hlast)
    rw [hsame]
    exact ⟨fun _ hmax => hlast hmax.1, fun _ => rfl⟩
  have hnone : (st.entries.filter fun e => decide (last < e.id)) = [] :=
    List.filter_eq_nil_iff.mpr fun e _ => by simpa [hlast] using le_maxStreamID e.id
  have hnil : cut (limitOf count) ([] : List StreamEntry) = [] := by cases limitOf count <;> simp [cut]
  have hempty : ∀ l : List StreamEntry, cut (limitOf count) l = [] ↔ l = [] := by
    intro l
    unfold limitOf
    split_ifs with hpos
    · have hne : count.toNat ≠ 0 := by omega
      simp [cut, List.take_eq_nil_iff, hne]
    · rfl
  rw [hnone, hnil, hempty, List.filter_eq_nil_iff, hlast, idNext_max]
  constructor
  · rintro hall ⟨-, e, he, hmax⟩
    exact hall e he (decide_eq_true hmax.ge)
  · intro hnot e he hle
    exact hnot ⟨rfl, e, he, le_antisymm (le_maxStreamID _) (of_decide_eq_true hle)⟩

end Last

end Stream

end ShardKV.Data
