import ShardKV.Data.Ranges
import ShardKV.Commands.Refused

/-! The commands that read a stream by id: XRANGE and XREVRANGE between two ends, XREAD
after an id, XREADGROUP after the last id its group was given. An exclusive end is
folded into an inclusive one by the handler, and an inclusive one into a half-open
index range by the store, both with the successor and the predecessor of an id. -/

namespace ShardKV.Commands

open Access Data Resp Server Decimal

variable {S : Type} [Numeric S]

def xRange (k : Loc) (start stop : StreamID) (count : ℤ) (rev : Bool) :
    Op S (Except StreamErr (List StreamEntry)) :=
  .read k fun
    | none => pure (.ok [])
    | some ⟨.stream st, _⟩ => pure (.ok (st.range start stop count rev))
    | some _ => pure (.error .wrongType)

def xReadAfter (k : Loc) (after : StreamID) (count : ℤ) : Op S (Except StreamErr (List StreamEntry)) :=
  xRange k (idNext after) maxStreamID count false

/-- The COUNT of XRANGE. -/
def rangeLimit : List Bytes → Except Reply (Option ℤ)
  | [] => .ok none
  | [word, n] =>
    if equalFold word "COUNT" then
      match parseInt64 n with
      | none => .error notIntegerErr
      | some n => .ok (some n)
    else .error syntaxErr
  | _ => .error syntaxErr

/-- `writeStreamEntries`. -/
def streamEntriesReply (entries : List StreamEntry) : Reply :=
  .array (entries.map fun e => streamEntryReply e.id (some e.fields))

def rangeReply : Except StreamErr (List StreamEntry) → Reply
  | .error _ => storeErrReply .wrongType
  | .ok entries => streamEntriesReply entries

/-- `xrange`: XREVRANGE names the end of the range first. -/
def xrange (v : View) (rev : Bool) : Args → Op S Reply
  | _ :: key :: first :: second :: opts =>
    match parseRangeBound (if rev then second else first) true,
      parseRangeBound (if rev then first else second) false with
    | some start, some stop =>
      match rangeLimit opts with
      | .error r => pure r
      | .ok none => rangeReply <$> xRange (v.loc key) start stop 0 rev
      | .ok (some n) =>
        if n ≤ 0 then pure (.array []) else rangeReply <$> xRange (v.loc key) start stop n rev
    | _, _ => pure invalidStreamIDErr
  | _ => pure syntaxErr

def cmdXRange (v : View) (args : Args) : Op S Reply := xrange v false args

def cmdXRevRange (v : View) (args : Args) : Op S Reply := xrange v true args

theorem dash_not_mem_itoa (n : ℕ) : (45 : UInt8) ∉ itoa n := fun h =>
  absurd (isDigit_of_mem_itoa h) (by decide)

theorem parseUint64_itoa (n : Fin (2 ^ 64)) : parseUint64 (itoa n.val) = some n := by
  rw [parseUint64, parseUint_itoa (by have := n.isLt; omega), Option.map_some, Fin.ofNat_val_eq_self]

theorem cutDash_append {a b : Bytes} (h : (45 : UInt8) ∉ a) : cutDash (a ++ 45 :: b) = (a, some b) := by
  have hall : ∀ x ∈ a, (x != 45) = true := fun x hx => by
    rw [bne_iff_ne]
    rintro rfl
    exact h hx
  unfold cutDash
  rw [List.takeWhile_append_of_pos hall, List.dropWhile_append_of_pos hall]
  simp

/-- A printed id is read back, whatever the missing sequence number stands for. -/
theorem parseStreamID_idString (id : StreamID) (seqDefault : Fin (2 ^ 64)) :
    parseStreamID (idString id) seqDefault = some id := by
  unfold parseStreamID idString
  rw [cutDash_append (dash_not_mem_itoa _)]
  simp only [parseUint64_itoa, Option.map_some]
  rfl

theorem idString_injective : Function.Injective idString := by
  intro a b h
  have ha := parseStreamID_idString a 0
  rw [h, parseStreamID_idString b 0] at ha
  exact (Option.some.inj ha).symm

theorem streamEntriesReply_injective : Function.Injective streamEntriesReply := by
  have hentry : Function.Injective fun e : StreamEntry => streamEntryReply e.id (some e.fields) := by
    rintro ⟨i, fs⟩ ⟨j, gs⟩ h
    simp only [streamEntryReply, Reply.array.injEq, List.cons.injEq, Reply.bulk.injEq, and_true] at h
    obtain ⟨hid, hfields⟩ := h
    have hbulk : Function.Injective Reply.bulk := fun _ _ => Reply.bulk.inj
    rw [idString_injective hid, List.map_injective_iff.mpr hbulk hfields]
  exact fun a b h => List.map_injective_iff.mpr hentry (Reply.array.inj h)

/-- An operand that spells an id in full, the sequence number included. -/
def FullID (b : Bytes) (id : StreamID) : Prop :=
  (cutDash b).2 ≠ none ∧ parseStreamID b 0 = some id
  deriving Decidable

/-- An end of a range as an operand spells it. -/
structure Endpoint where
  text : Bytes
  id : StreamID
  full : FullID text id
  exclusive : Bool

namespace Endpoint

variable (e : Endpoint)

def operand : Bytes := if e.exclusive then 40 :: e.text else e.text

def after (id : StreamID) : Bool := if e.exclusive then decide (e.id < id) else decide (e.id ≤ id)

def before (id : StreamID) : Bool := if e.exclusive then decide (id < e.id) else decide (id ≤ e.id)

theorem parse_text (seqDefault : Fin (2 ^ 64)) : parseStreamID e.text seqDefault = some e.id := by
  obtain ⟨hseq, hparse⟩ := e.full
  unfold parseStreamID at hparse ⊢
  cases hcut : (cutDash e.text).2 with
  | none => exact absurd hcut hseq
  | some seq =>
    rw [hcut] at hparse
    cases hms : parseUint64 (cutDash e.text).1 with
    | none => simp [hms] at hparse
    | some ms => simpa [hms] using hparse

theorem text_ne {b : Bytes} (h : parseStreamID b 0 = none) : e.text ≠ b := by
  rintro rfl
  rw [e.full.2] at h
  cases h

theorem text_head (s : Bytes) : e.text ≠ 40 :: s := by
  refine e.text_ne ?_
  have hnone : parseUint64 (cutDash (40 :: s)).1 = none := by
    have hcut : (cutDash (40 :: s)).1 = 40 :: s.takeWhile (· != 45) := by
      rw [cutDash, List.takeWhile_cons_of_pos (by decide)]
    rw [hcut, parseUint64, parseUint, if_neg (List.cons_ne_nil _ _),
      readDigits_none_of_mem _ _ _ 40 (by decide) List.mem_cons_self, Option.map_none]
  rw [parseStreamID, hnone]

theorem parse_operand (isStart : Bool) : parseRangeBound e.operand isStart =
    some (if e.exclusive then (if isStart then idNext e.id else idPrev e.id) else e.id) := by
  have hnil : e.text ≠ [] := e.text_ne (by decide)
  have hminus : e.text ≠ ascii "-" := e.text_ne (by decide)
  have hplus : e.text ≠ ascii "+" := e.text_ne (by decide)
  unfold operand
  cases e.exclusive with
  | true =>
    simp only [if_true, parseRangeBound, hnil, hminus, hplus, or_self, if_false, e.parse_text,
      Option.map_some]
  | false =>
    simp only [Bool.false_eq_true, if_false]
    unfold parseRangeBound
    split
    · rename_i s hs
      exact absurd hs (e.text_head s)
    · rw [if_neg hminus, if_neg hplus, e.parse_text]

end Endpoint

section Exact

variable {now : Instant} {s : Dataset S} {k : Loc} {st : Stream}

theorem run_xRange (h : streamAt now s k = some st) (start stop : StreamID) (count : ℤ) (rev : Bool) :
    (xRange k start stop count rev).run (live now) s = (.ok (st.range start stop count rev), s) := by
  obtain ⟨d, hk⟩ := streamAt_eq_some.mp h
  unfold liveAt at hk
  rw [xRange, Prog.run_read, hk]
  rfl

theorem run_xrange {v : View} {key : Bytes} (h : streamAt now s (v.loc key) = some st) (name : Bytes)
    (lo hi : Endpoint) {opts : List Bytes} {limit : Option ℤ} (hopts : rangeLimit opts = .ok limit)
    (rev : Bool) {start stop : StreamID} (hstart : parseRangeBound lo.operand true = some start)
    (hstop : parseRangeBound hi.operand false = some stop) :
    ((xrange v rev (name :: key :: (if rev then hi else lo).operand ::
        (if rev then lo else hi).operand :: opts)).run (live now) s).1 =
      streamEntriesReply (if limit.any (· ≤ 0) then [] else st.range start stop (limit.getD 0) rev) := by
  have hlo : (if rev then (if rev then lo else hi).operand else (if rev then hi else lo).operand) =
      lo.operand := by cases rev <;> rfl
  have hhi : (if rev then (if rev then hi else lo).operand else (if rev then lo else hi).operand) =
      hi.operand := by cases rev <;> rfl
  unfold xrange
  simp only [hlo, hhi, hstart, hstop, hopts]
  cases limit with
  | none => rw [Prog.run_map, run_xRange h]; rfl
  | some n =>
    by_cases hn : n ≤ 0
    · simp only [if_pos hn, Option.any_some, decide_eq_true hn, if_true]
      rfl
    · simp only [if_neg hn, Option.any_some, decide_eq_false hn, Bool.false_eq_true, if_false,
        Option.getD_some]
      rw [Prog.run_map, run_xRange h]
      rfl

variable (h : streamAt now s k = some st) (hst : st.Ordered)

include h hst

theorem xRange_exact_iff (start stop : StreamID) (count : ℤ) (rev : Bool) :
    ((xRange k start stop count rev).run (live now) s).1 =
        .ok (st.asked (fun id => decide (start ≤ id ∧ id ≤ stop)) (limitOf count) rev) ↔
      st.SparesLast (fun id => decide (start ≤ id ∧ id ≤ stop)) (limitOf count) rev := by
  rw [run_xRange h, Except.ok.injEq, Stream.range_exact_iff hst.ascending]
  intro e _ hmax
  rw [decide_eq_true_iff, lt_idNext_of_ne hmax]

theorem xReadAfter_exact_iff (after : StreamID) (count : ℤ) :
    ((xReadAfter k after count).run (live now) s).1 =
        .ok (st.asked (fun id => decide (after < id)) (limitOf count) false) ↔
      st.SparesLast (fun id => decide (after < id)) (limitOf count) false := by
  rw [xReadAfter, run_xRange h, Except.ok.injEq, Stream.range_exact_iff hst.ascending]
  intro e _ hmax
  rw [decide_eq_true_iff, lt_idNext_of_ne hmax, idNext_le_of_ne hmax]
  exact ⟨fun hlt => ⟨hlt, le_maxStreamID _⟩, And.left⟩

omit h in
/-- The ends that the handler folds into inclusive ones admit the ids they should. -/
theorem endpoints_admit (lo hi : Endpoint) {e : StreamEntry} (he : e ∈ st.entries)
    (hmax : e.id ≠ maxStreamID) : (lo.after e.id && hi.before e.id) = true ↔
      (if lo.exclusive then idNext lo.id else lo.id) ≤ e.id ∧
        e.id < idNext (if hi.exclusive then idPrev hi.id else hi.id) := by
  have hlo : lo.after e.id = true ↔ (if lo.exclusive then idNext lo.id else lo.id) ≤ e.id := by
    unfold Endpoint.after
    split_ifs
    · rw [decide_eq_true_iff, idNext_le_of_ne hmax]
    · rw [decide_eq_true_iff]
  have hhi : hi.before e.id = true ↔ e.id ≤ if hi.exclusive then idPrev hi.id else hi.id := by
    unfold Endpoint.before
    split_ifs
    · rw [decide_eq_true_iff]
      by_cases hzero : hi.id = zeroID
      · -- nothing is before the zero id, and no entry is at it
        have hprev : idPrev zeroID = zeroID := by decide
        rw [hzero, hprev]
        exact ⟨le_of_lt, fun hle => absurd (le_antisymm hle (zeroID_le _)) (hst.nonzero e he)⟩
      · exact (le_idPrev_iff hzero).symm
    · rw [decide_eq_true_iff]
  rw [Bool.and_eq_true, hlo, hhi, lt_idNext_of_ne hmax]

omit h in
theorem xrange_exact_iff {v : View} {key : Bytes} (h : streamAt now s (v.loc key) = some st)
    (name : Bytes) (lo hi : Endpoint) {opts : List Bytes} {limit : Option ℤ}
    (hopts : rangeLimit opts = .ok limit) (rev : Bool) :
    ((xrange v rev (name :: key :: (if rev then hi else lo).operand ::
        (if rev then lo else hi).operand :: opts)).run (live now) s).1 =
        streamEntriesReply
          (st.asked (fun id => lo.after id && hi.before id) (limit.map Int.toNat) rev) ↔
      st.SparesLast (fun id => lo.after id && hi.before id) (limit.map Int.toNat) rev := by
  rw [run_xrange h name lo hi hopts rev (lo.parse_operand true) (hi.parse_operand false),
    streamEntriesReply_injective.eq_iff]
  simp only [if_true, Bool.false_eq_true, if_false]
  have hexact := Stream.range_exact_iff hst.ascending (p := fun id => lo.after id && hi.before id)
    (fun _ he hmax => endpoints_admit hst lo hi he hmax) (limit.getD 0) rev
  cases limit with
  | none => exact hexact
  | some n =>
    by_cases hn : n ≤ 0
    · have hzero : (some n).map Int.toNat = some 0 := by
        rw [Option.map_some, Int.toNat_of_nonpos hn]
      rw [Option.any_some, decide_eq_true hn, if_pos rfl, hzero]
      exact ⟨fun _ _ _ => ⟨0, rfl, .inl rfl⟩, fun _ => by rw [Stream.asked, cut, List.take_zero]⟩
    · have hlimit : limitOf n = (some n).map Int.toNat := by
        rw [limitOf, if_pos (not_le.mp hn), Option.map_some]
      rw [Option.any_some, decide_eq_false hn, if_neg Bool.false_ne_true, ← hlimit]
      exact hexact

theorem xReadGroup_exact_iff {group : Bytes} {g : Group} (hg : st.groups.lookup group = some g)
    (consumer : Bytes) (count : ℤ) (noack : Bool) :
    (((xReadGroup k group consumer none count.toNat noack now).run (live now) s).1.map
        ReadResult.entries = .ok ((st.asked (fun id => decide (g.lastDelivered < id))
          (limitOf count) false).map fun e => (e.id, some e.fields))) ↔
      ¬ (g.lastDelivered = maxStreamID ∧ st.HasLast) := by
  obtain ⟨d, hk⟩ := streamAt_eq_some.mp h
  unfold liveAt at hk
  have hrun : ((xReadGroup k group consumer none count.toNat noack now).run (live now) s).1 =
      .ok (g.read st consumer none count.toNat noack now.val).2 := by
    unfold xReadGroup groupEdit streamEdit
    rw [Prog.run_edit, hk]
    simp only [hg]
  have hpair : Function.Injective fun e : StreamEntry => (e.id, some e.fields) := by
    rintro ⟨i, fs⟩ ⟨j, gs⟩ heq
    simpa using heq
  rw [hrun, Except.map, Except.ok.injEq, Group.read_entries, (List.map_injective_iff.mpr hpair).eq_iff,
    Stream.fresh_exact_iff hst.ascending]

end Exact

/-- The four ways of reading a stream by id return the entries asked for just when none
of them is the one at the greatest id; and a group gets its new entries just when the
last one it was given is not that one. -/
theorem stream_reads_exact_iff {v : View} {now : Instant} {s : Dataset S} {key : Bytes} {st : Stream}
    (h : streamAt now s (v.loc key) = some st) (hst : st.Built) :
    (∀ start stop count rev,
      ((xRange (v.loc key) start stop count rev).run (live now) s).1 =
          .ok (st.asked (fun id => decide (start ≤ id ∧ id ≤ stop)) (limitOf count) rev) ↔
        st.SparesLast (fun id => decide (start ≤ id ∧ id ≤ stop)) (limitOf count) rev) ∧
    (∀ (name : Bytes) (lo hi : Endpoint) (opts : List Bytes) (limit : Option ℤ) (rev : Bool),
      rangeLimit opts = .ok limit →
        (((xrange v rev (name :: key :: (if rev then hi else lo).operand ::
            (if rev then lo else hi).operand :: opts)).run (live now) s).1 =
          streamEntriesReply
            (st.asked (fun id => lo.after id && hi.before id) (limit.map Int.toNat) rev) ↔
        st.SparesLast (fun id => lo.after id && hi.before id) (limit.map Int.toNat) rev)) ∧
    (∀ after count,
      ((xReadAfter (v.loc key) after count).run (live now) s).1 =
          .ok (st.asked (fun id => decide (after < id)) (limitOf count) false) ↔
        st.SparesLast (fun id => decide (after < id)) (limitOf count) false) ∧
    (∀ group g consumer count noack, st.groups.lookup group = some g →
      (((xReadGroup (v.loc key) group consumer none count.toNat noack now).run (live now) s).1.map
          ReadResult.entries = .ok ((st.asked (fun id => decide (g.lastDelivered < id))
            (limitOf count) false).map fun e => (e.id, some e.fields)) ↔
        ¬ (g.lastDelivered = maxStreamID ∧ st.HasLast))) :=
  ⟨xRange_exact_iff h hst.ordered,
    fun name lo hi _ _ rev hopts => xrange_exact_iff hst.ordered h name lo hi hopts rev,
    xReadAfter_exact_iff h hst.ordered,
    fun _ _ consumer count noack hg => xReadGroup_exact_iff h hst.ordered hg consumer count noack⟩

/-- A stream of one entry, added under an id. -/
def soleEntry (id : StreamID) : Stream := (Stream.new.append id [ascii "f", ascii "v"] .none).1

theorem soleEntry_built {id : StreamID} (h : id ≠ zeroID) : (soleEntry id).Built := by
  refine .tail (.add 0 (.explicit id) [ascii "f", ascii "v"] .none) .refl trivial ?_
  have hid : Stream.new.addID 0 (.explicit id) = .ok id := by
    simp [Stream.addID, Stream.new, h]
  simp only [Stream.perform, hid, Except.toOption, Option.map_some, soleEntry]

def soleStream (id : StreamID) : Dataset ℤ :=
  Function.update emptyDataset (0, ascii "s") (some ⟨.stream (soleEntry id), none⟩)

theorem streamAt_soleStream (id : StreamID) :
    streamAt 0 (soleStream id) ((Config.default.view 0).loc (ascii "s")) = some (soleEntry id) := rfl

/-- `XRANGE s (5-0 5-1` on a stream with one entry, at 5-1. -/
theorem soleEntry_read :
    ((xrange (Config.default.view 0) false
        [ascii "XRANGE", ascii "s", ascii "(5-0", ascii "5-1"]).run (live 0)
          (soleStream (streamID 5 1))).1 =
      streamEntriesReply [⟨streamID 5 1, [ascii "f", ascii "v"]⟩] :=
  ((stream_reads_exact_iff (streamAt_soleStream (streamID 5 1)) (soleEntry_built (by decide))).2.1
    (ascii "XRANGE") ⟨ascii "5-0", streamID 5 0, by decide, true⟩
    ⟨ascii "5-1", streamID 5 1, by decide, false⟩ [] none false rfl).mpr
      fun hlast => absurd hlast (by decide)

/-- Everything from the least id to the greatest is asked for, and an entry at the
greatest is not returned. -/
theorem lastEntry_unread : ¬ ∀ (s : Dataset ℤ) (key : Bytes) (st : Stream),
    streamAt 0 s ((Config.default.view 0).loc key) = some st → st.Built →
      ∀ start stop count rev,
        ((xRange ((Config.default.view 0).loc key) start stop count rev).run (live 0) s).1 =
          .ok (st.asked (fun id => decide (start ≤ id ∧ id ≤ stop)) (limitOf count) rev) := by
  intro hall
  have hread := hall (soleStream maxStreamID) (ascii "s") (soleEntry maxStreamID)
    (streamAt_soleStream _) (soleEntry_built (by decide)) zeroID maxStreamID 0 false
  rw [run_xRange (streamAt_soleStream maxStreamID)] at hread
  exact absurd hread (by decide)

end ShardKV.Commands
