import ShardKV.Server.Exec

/-! What an applier makes of a stream. A stream that the shipping side produced from
whole batches can be cut anywhere: the applier then has performed a number of batches
completely and nothing else. A stream with SELECTs at arbitrary places is another
matter: the applier follows a SELECT at once and performs a transaction at its EXEC,
so the database that counts is the one of the EXEC. -/

namespace ShardKV.Server

open Access Data Resp Commands

section Batches

/-- A batch of writes in propagation form, with the database it was issued in. -/
structure Batch where
  db : ℕ
  cmds : List Args

def Batch.calls (b : Batch) : List Call := b.cmds.map fun c => (b.db, c)

/-- What the shipping side makes of batches, from the believed stream position. -/
def shipBatches : ℕ → List Batch → ℕ × List Args :=
  transduce fun pos b => propagateBatch b.db pos b.cmds

/-- The state after executing batches one after the other, whatever a call does to a
state. -/
def executed {σ : Type} (apply : σ → Call → σ) (bs : List Batch) (s : σ) : σ :=
  bs.foldl (fun s b => b.calls.foldl apply s) s

theorem executed_eq {σ : Type} (apply : σ → Call → σ) (bs : List Batch) (s : σ) :
    executed apply bs s = (bs.flatMap Batch.calls).foldl apply s := by
  induction bs generalizing s with
  | nil => rfl
  | cons b bs ih =>
    rw [List.flatMap_cons, List.foldl_append, ← ih]
    rfl

variable {cfg : Config} {b : Batch} {bs : List Batch} {pos : ℕ}

/-- A frame that is not complete makes no call. -/
theorem feedAll_frame_take (h : ∀ c ∈ b.cmds, ordinary c = true) {k : ℕ}
    (hk : k < (frame b.cmds).length) (db : ℕ) :
    (cfg.feedAll (Applier.idle db) ((frame b.cmds).take k)).2 = [] := by
  match hcmds : b.cmds with
  | [] => simp [frame, Config.feedAll]
  | [c] =>
    rw [hcmds] at hk
    obtain rfl : k = 0 := by simpa [frame] using hk
    rfl
  | c :: d :: cs =>
    rw [hcmds] at hk h
    cases k with
    | zero => rfl
    | succ k =>
      -- the EXEC is what is missing
      have htake : (frame (c :: d :: cs)).take (k + 1) = multiCommand :: (c :: d :: cs).take k := by
        have hlen : k ≤ (c :: d :: cs).length := by simpa [frame] using hk
        rw [show frame (c :: d :: cs) = multiCommand :: ((c :: d :: cs) ++ [execCommand]) from rfl,
          List.take_succ_cons, List.take_append_of_le_length hlen]
      rw [htake, feedAll_cons, feed_multi]
      show [] ++ (cfg.feedAll ⟨db, true, []⟩ _).2 = []
      rw [feedAll_open cfg db [] fun x hx => h x (List.mem_of_mem_take hx)]
      rfl

/-- A shipped batch that is cut off makes no call. -/
theorem feedAll_batch_take (hdb : b.db < cfg.databases) (h : ∀ c ∈ b.cmds, ordinary c = true) {k : ℕ}
    (hk : k < (propagateBatch b.db pos b.cmds).2.length) :
    (cfg.feedAll (Applier.idle pos) ((propagateBatch b.db pos b.cmds).2.take k)).2 = [] := by
  by_cases hne : b.cmds = []
  · rw [hne, propagateBatch_nil] at hk
    exact absurd hk (by simp)
  rw [propagateBatch_eq b.db pos hne] at hk ⊢
  unfold marker at hk ⊢
  by_cases hpos : pos = b.db
  · rw [if_pos hpos] at hk ⊢
    exact feedAll_frame_take h hk pos
  · rw [if_neg hpos, List.cons_append, List.nil_append] at hk ⊢
    cases k with
    | zero => rfl
    | succ k =>
      rw [List.take_succ_cons, feedAll_cons, feed_select cfg _ hdb]
      exact feedAll_frame_take h (by simpa using hk) b.db

/-- A whole one makes its calls and leaves the applier where the stream is believed to
be. -/
theorem feedAll_batch (hdb : b.db < cfg.databases) (h : ∀ c ∈ b.cmds, ordinary c = true) :
    cfg.feedAll (Applier.idle pos) (propagateBatch b.db pos b.cmds).2 =
      (Applier.idle (propagateBatch b.db pos b.cmds).1, b.calls) := by
  by_cases hne : b.cmds = []
  · rw [Batch.calls, hne, propagateBatch_nil]
    rfl
  · have hland : landing b.db pos pos = b.db := by
      unfold landing
      split_ifs with heq
      · exact heq
      · rfl
    rw [feedAll_propagateBatch cfg hdb pos pos hne h, propagateBatch_eq b.db pos hne, hland]
    rfl

/-- From any position that the applier and the stream agree on. -/
theorem feedAll_shipBatches_take (hdb : ∀ b ∈ bs, b.db < cfg.databases)
    (h : ∀ b ∈ bs, ∀ c ∈ b.cmds, ordinary c = true) (pos k : ℕ) :
    ∃ m, (cfg.feedAll (Applier.idle pos) ((shipBatches pos bs).2.take k)).2 =
        (bs.take m).flatMap Batch.calls ∧ ((shipBatches pos bs).2.length ≤ k → bs.length ≤ m) := by
  induction bs generalizing pos k with
  | nil => exact ⟨0, by simp [shipBatches, Config.feedAll], fun _ => le_refl _⟩
  | cons b bs ih =>
    obtain ⟨hb, hbs⟩ := List.forall_mem_cons.mp hdb
    obtain ⟨hc, hcs⟩ := List.forall_mem_cons.mp h
    have hship : (shipBatches pos (b :: bs)).2 = (propagateBatch b.db pos b.cmds).2 ++
        (shipBatches (propagateBatch b.db pos b.cmds).1 bs).2 := rfl
    rw [hship]
    by_cases hk : k < (propagateBatch b.db pos b.cmds).2.length
    · -- the cut is inside this batch
      refine ⟨0, ?_, fun hle => ?_⟩
      · rw [List.take_append_of_le_length (le_of_lt hk), feedAll_batch_take hb hc hk]
        rfl
      · rw [List.length_append] at hle
        omega
    · rw [not_lt] at hk
      obtain ⟨m, hm, hall⟩ := ih hbs hcs (propagateBatch b.db pos b.cmds).1
        (k - (propagateBatch b.db pos b.cmds).2.length)
      refine ⟨m + 1, ?_, fun hle => ?_⟩
      · rw [List.take_append, List.take_of_length_le hk, feedAll_append, feedAll_batch hb hc, hm,
          List.take_succ_cons, List.flatMap_cons]
      · rw [List.length_append] at hle
        have := hall (by omega)
        simpa using this

/-- Wherever the stream is cut, some of the batches have been executed completely, in
order and in their own databases, and nothing else; all of them at its end. -/
theorem batches_reach_stream_atomically (hdb : ∀ b ∈ bs, b.db < cfg.databases)
    (h : ∀ b ∈ bs, ∀ c ∈ b.cmds, ordinary c = true) (k : ℕ) :
    ∃ m ≤ bs.length, ((shipBatches 0 bs).2.length ≤ k → m = bs.length) ∧
      ∀ (σ : Type) (apply : σ → Call → σ) (s : σ),
        (cfg.feedAll (Applier.idle 0) ((shipBatches 0 bs).2.take k)).2.foldl apply s =
          executed apply (bs.take m) s := by
  obtain ⟨m, hm, hall⟩ := feedAll_shipBatches_take hdb h 0 k
  refine ⟨min m bs.length, min_le_right _ _, fun hle => min_eq_right (hall hle), fun σ apply s => ?_⟩
  have htake : bs.take (min m bs.length) = bs.take m := by
    rw [List.take_eq_take_iff]
    omega
  rw [executed_eq, hm, htake]

/-- A batch of two in database 1, then a single write in database 0. -/
def sampleBatches : List Batch :=
  [⟨1, [[ascii "SET", ascii "k", ascii "1"], [ascii "INCR", ascii "k"]]⟩, ⟨0, [[ascii "DEL", ascii "k"]]⟩]

/-- The stream of these, cut before the EXEC. -/
theorem sampleBatches_cut :
    ∃ m ≤ sampleBatches.length,
      ((shipBatches 0 sampleBatches).2.length ≤ 4 → m = sampleBatches.length) ∧
      ∀ (σ : Type) (apply : σ → Call → σ) (s : σ),
        (Config.default.feedAll (Applier.idle 0) ((shipBatches 0 sampleBatches).2.take 4)).2.foldl
          apply s = executed apply (sampleBatches.take m) s :=
  batches_reach_stream_atomically (by decide) (by decide) 4

end Batches

variable (cfg : Config)

/-- The word that the applier looks at. -/
def verb (args : Args) : Bytes := toUpper (args.headD [])

/-- The words that begin or end a transaction. -/
def bounds (args : Args) : Bool :=
  decide (verb args = ascii "MULTI") || decide (verb args = ascii "EXEC") ||
    decide (verb args = ascii "DISCARD")

/-- The database that one command of the stream leaves the reader in. -/
def Config.follow (cfg : Config) (db : ℕ) (args : Args) : ℕ :=
  if verb args = ascii "SELECT" then (cfg.selected args.tail).getD db else db

/-- The database that the last SELECT of a stream names, 0 where there is none. -/
def Config.position (cfg : Config) (stream : List Args) : ℕ := stream.foldl cfg.follow 0

/-- An applier that remembers with each buffered command where it was read. -/
structure Tagged where
  db : ℕ
  inMulti : Bool
  buf : List Call

def Tagged.idle (db : ℕ) : Tagged := ⟨db, false, []⟩

/-- What a stream means: a command goes to the database that was selected when it was
read, and a transaction takes place at its EXEC. -/
def Config.tag (cfg : Config) (t : Tagged) (args : Args) : Tagged × List Call :=
  match args with
  | [] => (t, [])
  | name :: rest =>
    if toUpper name = ascii "SELECT" then ({ t with db := (cfg.selected rest).getD t.db }, [])
    else if toUpper name = ascii "MULTI" then ({ t with inMulti := true, buf := [] }, [])
    else if toUpper name = ascii "EXEC" then (Tagged.idle t.db, t.buf)
    else if toUpper name = ascii "DISCARD" then (Tagged.idle t.db, [])
    else if toUpper name = ascii "PUBLISH" then (t, [(t.db, args)])
    else if toUpper name = ascii "PING" then (t, [])
    else if t.inMulti then ({ t with buf := t.buf ++ [(t.db, args)] }, [])
    else (t, [(t.db, args)])

/-- The calls that a stream means. -/
def Config.intended (cfg : Config) (stream : List Args) : List Call :=
  (transduce cfg.tag (Tagged.idle 0) stream).2

/-- Every write goes where it was selected to go, transactions at their EXEC. -/
def HonoursSelects (cfg : Config) (stream : List Args) : Prop :=
  (cfg.feedAll (Applier.idle 0) stream).2 = cfg.intended stream

/-- In a transaction that is executed, the selected database is the same at the EXEC as
at each of its writes. -/
def Undivided (cfg : Config) (stream : List Args) : Prop :=
  ∀ pre m mid w rest e post, stream = (pre ++ m :: (mid ++ w :: rest)) ++ e :: post →
    verb m = ascii "MULTI" → verb e = ascii "EXEC" → (∀ x ∈ mid, bounds x = false) →
    (∀ x ∈ rest, bounds x = false) → ordinary w = true →
      cfg.position (pre ++ m :: mid) = cfg.position (pre ++ m :: (mid ++ w :: rest))

/-- What the applier has of a tagged state. -/
def Tagged.untag (t : Tagged) : Applier := ⟨t.db, t.inMulti, t.buf.map Prod.snd⟩

/-- The applier's next state and the tagged one's; they answer alike except that an
EXEC goes to the database it is read in. -/
theorem feed_untag (t : Tagged) (x : Args) :
    (cfg.feed t.untag x).1 = (cfg.tag t x).1.untag ∧
      (cfg.feed t.untag x).2 =
        if verb x = ascii "EXEC" then t.buf.map fun c => (t.db, c.2) else (cfg.tag t x).2 := by
  cases x with
  | nil => exact ⟨rfl, rfl⟩
  | cons name rest =>
    have hverb : verb (name :: rest) = toUpper name := rfl
    rw [hverb]
    unfold Config.feed Config.tag
    by_cases hsel : toUpper name = ascii "SELECT"
    · have hne : ascii "SELECT" ≠ ascii "EXEC" := by decide
      simp [hsel, hne, Tagged.untag]
    by_cases hmulti : toUpper name = ascii "MULTI"
    · have hne : ascii "MULTI" ≠ ascii "EXEC" := by decide
      have hne' : ascii "MULTI" ≠ ascii "SELECT" := by decide
      simp [hmulti, hne, hne', Tagged.untag]
    by_cases hexec : toUpper name = ascii "EXEC"
    · have hne : ascii "EXEC" ≠ ascii "SELECT" := by decide
      have hne' : ascii "EXEC" ≠ ascii "MULTI" := by decide
      simp [hexec, hne, hne', Tagged.untag, Applier.idle, Tagged.idle, Function.comp_def]
    have hin : t.untag.inMulti = t.inMulti := rfl
    simp only [hsel, hmulti, hexec, hin, if_false]
    split_ifs <;> simp [Tagged.untag, Applier.idle, Tagged.idle]

theorem tag_exec {t : Tagged} {x : Args} (h : verb x = ascii "EXEC") : (cfg.tag t x).2 = t.buf := by
  cases x with
  | nil => exact absurd h (by decide)
  | cons name rest =>
    have hname : toUpper name = ascii "EXEC" := h
    have hne : ascii "EXEC" ≠ ascii "SELECT" ∧ ascii "EXEC" ≠ ascii "MULTI" := by decide
    simp only [Config.tag, hname, if_neg hne.1, if_neg hne.2, if_true]

theorem map_retag_iff (db : ℕ) (calls : List Call) :
    (calls.map fun c => (db, c.2)) = calls ↔ ∀ c ∈ calls, c.1 = db := by
  induction calls with
  | nil => simp
  | cons c cs ih =>
    rw [List.map_cons, List.cons.injEq, ih, List.forall_mem_cons, Prod.ext_iff]
    simp [eq_comm]

/-- The calls agree exactly when at every EXEC what is buffered was read where the EXEC
is. -/
theorem feedAll_eq_tag_iff (t : Tagged) (stream : List Args) :
    (cfg.feedAll t.untag stream).2 = (transduce cfg.tag t stream).2 ↔
      Guarded (fun t x => (cfg.tag t x).1)
        (fun t x => verb x = ascii "EXEC" → ∀ c ∈ t.buf, c.1 = t.db) t stream := by
  induction stream generalizing t with
  | nil => simp [Guarded, Config.feedAll]
  | cons x xs ih =>
    obtain ⟨hstate, hout⟩ := feed_untag cfg t x
    have hlen : (cfg.feed t.untag x).2.length = (cfg.tag t x).2.length := by
      rw [hout]
      split_ifs with hexec
      · rw [tag_exec cfg hexec, List.length_map]
      · rfl
    have hhere : (cfg.feed t.untag x).2 = (cfg.tag t x).2 ↔
        (verb x = ascii "EXEC" → ∀ c ∈ t.buf, c.1 = t.db) := by
      rw [hout]
      split_ifs with hexec
      · rw [tag_exec cfg hexec, map_retag_iff]
        exact ⟨fun h _ => h, fun h => h hexec⟩
      · exact iff_of_true rfl fun h => absurd h hexec
    rw [feedAll_cons, transduce_cons, hstate, Guarded, ← ih, ← hhere]
    constructor
    · intro h
      exact List.append_inj h hlen
    · rintro ⟨h1, h2⟩
      rw [h1, h2]

/-- The state after a stream. -/
def Config.tagged (cfg : Config) (stream : List Args) : Tagged :=
  stream.foldl (fun t x => (cfg.tag t x).1) (Tagged.idle 0)

theorem tag_db (t : Tagged) (x : Args) : (cfg.tag t x).1.db = cfg.follow t.db x := by
  cases x with
  | nil => rfl
  | cons name rest =>
    have hverb : verb (name :: rest) = toUpper name := rfl
    unfold Config.tag Config.follow
    rw [hverb]
    dsimp only
    split_ifs <;> rfl

theorem tagged_db (stream : List Args) : (cfg.tagged stream).db = cfg.position stream := by
  induction stream using List.reverseRecOn with
  | nil => rfl
  | append_singleton xs x ih =>
    rw [Config.tagged, Config.position, List.foldl_concat, List.foldl_concat, tag_db]
    exact congrArg (cfg.follow · x) ih

/-- A transaction is open at the end of the stream. -/
def Opened (stream : List Args) : Prop :=
  ∃ pre m mid, stream = pre ++ m :: mid ∧ verb m = ascii "MULTI" ∧ ∀ x ∈ mid, bounds x = false

/-- The stream ends with an open transaction that holds the write, read in the
database. -/
def Pending (cfg : Config) (stream : List Args) (c : Call) : Prop :=
  ∃ pre m mid rest, stream = pre ++ m :: (mid ++ c.2 :: rest) ∧ verb m = ascii "MULTI" ∧
    (∀ x ∈ mid, bounds x = false) ∧ (∀ x ∈ rest, bounds x = false) ∧ ordinary c.2 = true ∧
      c.1 = cfg.position (pre ++ m :: mid)

theorem not_bounds_of_ordinary {x : Args} (h : ordinary x = true) : bounds x = false := by
  cases x with
  | nil => exact absurd h (by simp [ordinary])
  | cons name rest =>
    simp only [ordinary, streamWords, List.contains_cons, List.contains_nil, Bool.or_false,
      Bool.not_eq_true', Bool.or_eq_false_iff, beq_eq_false_iff_ne, ne_eq] at h
    simp [bounds, verb, h]

theorem concat_inj {xs ys : List Args} {x y : Args} (h : xs ++ [x] = ys ++ [y]) : xs = ys ∧ x = y := by
  obtain ⟨h1, h2⟩ := List.append_inj' h rfl
  exact ⟨h1, List.singleton_inj.mp h2⟩

theorem opened_concat {xs : List Args} {x : Args} :
    Opened (xs ++ [x]) ↔ verb x = ascii "MULTI" ∨ Opened xs ∧ bounds x = false := by
  constructor
  · rintro ⟨pre, m, mid, heq, hm, hmid⟩
    obtain rfl | ⟨mid, y, rfl⟩ := List.eq_nil_or_concat mid
    · obtain ⟨-, rfl⟩ := concat_inj heq
      exact .inl hm
    · rw [List.concat_eq_append, ← List.cons_append, ← List.append_assoc] at heq
      obtain ⟨rfl, rfl⟩ := concat_inj heq
      exact .inr ⟨⟨pre, m, mid, rfl, hm, fun z hz => hmid z (by simp [hz])⟩, hmid x (by simp)⟩
  · rintro (hm | ⟨⟨pre, m, mid, rfl, hm, hmid⟩, hx⟩)
    · exact ⟨xs, x, [], rfl, hm, fun _ h => absurd h List.not_mem_nil⟩
    · refine ⟨pre, m, mid ++ [x], by simp, hm, ?_⟩
      rw [List.forall_mem_append, List.forall_mem_singleton]
      exact ⟨hmid, hx⟩

theorem pending_concat {xs : List Args} {x : Args} {c : Call} :
    Pending cfg (xs ++ [x]) c ↔ Pending cfg xs c ∧ bounds x = false ∨
      Opened xs ∧ ordinary x = true ∧ c = (cfg.position xs, x) := by
  constructor
  · rintro ⟨pre, m, mid, rest, heq, hm, hmid, hrest, hw, hpos⟩
    obtain rfl | ⟨rest, y, rfl⟩ := List.eq_nil_or_concat rest
    · rw [← List.cons_append, ← List.append_assoc] at heq
      obtain ⟨rfl, rfl⟩ := concat_inj heq
      exact .inr ⟨⟨pre, m, mid, rfl, hm, hmid⟩, hw, Prod.ext hpos rfl⟩
    · have heq' : xs ++ [x] = (pre ++ m :: (mid ++ c.2 :: rest)) ++ [y] := by
        rw [heq]
        simp
      obtain ⟨rfl, rfl⟩ := concat_inj heq'
      refine .inl ⟨⟨pre, m, mid, rest, rfl, hm, hmid, fun z hz => hrest z (by simp [hz]), hw, hpos⟩, ?_⟩
      exact hrest x (by simp)
  · rintro (⟨⟨pre, m, mid, rest, rfl, hm, hmid, hrest, hw, hpos⟩, hx⟩ | ⟨⟨pre, m, mid, rfl, hm, hmid⟩, hx, rfl⟩)
    · refine ⟨pre, m, mid, rest ++ [x], by simp, hm, hmid, ?_, hw, hpos⟩
      rw [List.forall_mem_append, List.forall_mem_singleton]
      exact ⟨hrest, hx⟩
    · exact ⟨pre, m, mid, [], by simp, hm, hmid, fun _ h => absurd h List.not_mem_nil, hx, rfl⟩

theorem tag_open (t : Tagged) (x : Args) :
    ((cfg.tag t x).1.inMulti ↔ verb x = ascii "MULTI" ∨ t.inMulti ∧ bounds x = false) ∧
      (cfg.tag t x).1.buf =
        if bounds x then [] else if t.inMulti && ordinary x then t.buf ++ [(t.db, x)] else t.buf := by
  have hwords : streamWords.Pairwise fun a b => a ≠ b ∧ b ≠ a := by decide
  simp only [streamWords, List.pairwise_cons, List.forall_mem_cons] at hwords
  cases x with
  | nil =>
    have hnil : verb [] ≠ ascii "MULTI" ∧ bounds [] = false ∧ ordinary [] = false := by decide
    simp [Config.tag, hnil]
  | cons name rest =>
    have hverb : verb (name :: rest) = toUpper name := rfl
    have hord : ordinary (name :: rest) = !streamWords.contains (toUpper name) := rfl
    unfold Config.tag bounds
    rw [hverb, hord]
    dsimp only
    generalize toUpper name = word
    by_cases hword : word ∈ streamWords
    · fin_cases hword <;> simp [Tagged.idle, streamWords, hwords]
    · simp only [streamWords, List.mem_cons, List.not_mem_nil, or_false, not_or] at hword
      by_cases hin : t.inMulti <;> simp [hword, streamWords, hin]

theorem tagged_concat (xs : List Args) (x : Args) :
    cfg.tagged (xs ++ [x]) = (cfg.tag (cfg.tagged xs) x).1 := List.foldl_concat ..

/-- The applier's buffer holds the writes of the transaction that is open. -/
theorem tagged_open (stream : List Args) :
    ((cfg.tagged stream).inMulti ↔ Opened stream) ∧
      ∀ c, c ∈ (cfg.tagged stream).buf ↔ Pending cfg stream c := by
  induction stream using List.reverseRecOn with
  | nil => exact ⟨by simp [Config.tagged, Tagged.idle, Opened], by simp [Config.tagged, Tagged.idle, Pending]⟩
  | append_singleton xs x ih =>
    obtain ⟨hin, hbuf⟩ := tag_open cfg (cfg.tagged xs) x
    rw [tagged_concat, opened_concat, hin, ih.1, hbuf]
    refine ⟨Iff.rfl, fun c => ?_⟩
    rw [pending_concat, ← ih.1, ← ih.2]
    by_cases hb : bounds x
    · have hord : ordinary x = false := by
        by_contra h
        exact absurd (not_bounds_of_ordinary (Bool.eq_true_of_not_eq_false h)) (by simp [hb])
      simp [hb, hord]
    · split_ifs with h
      · simp_all [tagged_db]
      · simp_all

/-- The applier takes every write of a stream to the database that the stream selected
for it exactly when no executed transaction changes its database after a write. -/
theorem feed_honours_selects_iff (stream : List Args) :
    HonoursSelects cfg stream ↔ Undivided cfg stream := by
  have hrun := feedAll_eq_tag_iff cfg (Tagged.idle 0) stream
  rw [guarded_iff_forall] at hrun
  refine hrun.trans ⟨?_, ?_⟩
  · intro h pre m mid w rest e post heq hm he hmid hrest hw
    have hmem := (tagged_open cfg (pre ++ m :: (mid ++ w :: rest))).2 (cfg.position (pre ++ m :: mid), w)
    have hhere := h _ e post heq he _ (hmem.mpr ⟨pre, m, mid, rest, rfl, hm, hmid, hrest, hw, rfl⟩)
    exact hhere.trans (tagged_db cfg _)
  · intro h pre e post heq he c hc
    obtain ⟨pre', m, mid, rest, rfl, hm, hmid, hrest, hw, hpos⟩ := ((tagged_open cfg pre).2 c).mp hc
    rw [hpos, h pre' m mid c.2 rest e post heq hm he hmid hrest hw, ← tagged_db]
    rfl

/-- The write is read in database 0 and runs in database 1. -/
def dividedTransaction : List Args :=
  [[ascii "MULTI"], [ascii "SET", ascii "k", ascii "1"], [ascii "SELECT", ascii "1"], [ascii "EXEC"]]

theorem dividedTransaction_misplaced : ¬ HonoursSelects Config.default dividedTransaction := by
  unfold HonoursSelects
  decide

end ShardKV.Server
