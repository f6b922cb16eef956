import ShardKV.Commands.Algebra
import ShardKV.Server.Snapshot
import ShardKV.Snapshot.File

/-! What a snapshot is for: performing its commands on empty databases makes every entry
that was live when it was dumped, with its value and its deadline, and nothing else. The
order in which keys and maps are walked, the pieces that collections come in and the clock
of the loading side make no difference. -/

namespace ShardKV.Server

open Access Data Resp Commands Prog

variable {S : Type} [Numeric S] {cfg : Config} {db : ℕ} {key : Bytes}

/-- On a free key, the commands leave the entry, and all else as it was. -/
def Builds (cfg : Config) (db : ℕ) (key : Bytes) (cmds : List Args) (e : Entry S) : Prop :=
  ∀ (env : Env) (s : Dataset S), s (db, key) = none →
    cfg.performed env (cmds.map fun c => (db, c)) s = Function.update s (db, key) (some e)

section Pieces

variable {α : Type}

/-- The command with a piece of the elements adds them to those that are there. -/
def Grows (cfg : Config) (db : ℕ) (key : Bytes) (cmd : List α → Args) (items : List α)
    (V : List α → Value S) : Prop :=
  ∀ env part, 0 < part.length → (∀ x ∈ part, x ∈ items) → ∀ done e,
    (e = some ⟨V done, none⟩ ∨ e = none ∧ done = []) →
      (dataTable.applyCommand (cfg.view db) env (cmd part)).Assigns (db, key) e
        (some ⟨V (done ++ part), none⟩)

variable {cmd : List α → Args} {items : List α} {V : List α → Value S}

theorem Grows.performed (h : Grows cfg db key cmd items V) (env : Env) {parts : List (List α)}
    (hne : parts ≠ []) (hparts : ∀ p ∈ parts, 0 < p.length ∧ ∀ x ∈ p, x ∈ items) {done : List α}
    {s : Dataset S} (hs : seen (live env.now) s (db, key) = some ⟨V done, none⟩ ∨
      seen (live env.now) s (db, key) = none ∧ done = []) :
    cfg.performed env ((parts.map cmd).map fun c => (db, c)) s =
      Function.update s (db, key) (some ⟨V (done ++ parts.flatten), none⟩) := by
  induction parts generalizing done s with
  | nil => exact absurd rfl hne
  | cons p parts ih =>
    obtain ⟨⟨hp, hmem⟩, hparts⟩ := List.forall_mem_cons.mp hparts
    rw [List.map_cons, List.map_cons, performed_cons, h env p hp hmem done _ hs _ s rfl,
      List.flatten_cons, ← List.append_assoc]
    by_cases hnil : parts = []
    · simp [hnil, performed_nil]
    · rw [ih hnil hparts (.inl (by simp [seen, live]; rfl)), Function.update_idem]

theorem Grows.builds (h : Grows cfg db key cmd items V) (hne : items ≠ []) {per : ℕ} (hper : 0 < per) :
    Builds cfg db key ((chunks per items).map cmd) ⟨V items, none⟩ := by
  intro env s hs
  have hrun : ∀ j, ((List.range j).map fun i => (items.drop (i * per)).take per).flatten =
      items.take (j * per) := by
    intro j
    induction j with
    | zero => simp
    | succ j ih => simp [List.range_succ, ih, Nat.succ_mul, List.take_add]
  have hlast := Nat.lt_div_mul_add (a := items.length + per - 1) hper
  have hflat : (chunks per items).flatten = items :=
    (hrun _).trans (List.take_of_length_le (by omega))
  rw [h.performed env (fun hnil => hne (by rw [← hflat, hnil]; rfl)) (fun p hp => ?_)
    (.inr ⟨by simp [seen, hs], rfl⟩), hflat, List.nil_append]
  obtain ⟨i, hi, rfl⟩ := List.mem_map.mp hp
  have hlt := (Nat.le_div_iff_mul_le hper).mp (List.mem_range.mp hi)
  rw [Nat.succ_mul] at hlt
  exact ⟨by simp; omega, fun x hx => List.mem_of_mem_drop (List.mem_of_mem_take hx)⟩

/-- Elements of two arguments each are dumped in pieces of 128. -/
theorem appendChunks_two {f : α → List Bytes} (hf : ∀ x, (f x).length = 2) (name : String) (l : List α) :
    appendChunks name key (l.flatMap f) 2 =
      (chunks 128 l).map fun part => ascii name :: key :: part.flatMap f := by
  have hcut : ∀ (k : ℕ) (l : List α), (l.flatMap f).drop (2 * k) = (l.drop k).flatMap f ∧
      (l.flatMap f).take (2 * k) = (l.take k).flatMap f := by
    intro k l
    induction l generalizing k with
    | nil => simp
    | cons x l ih => cases k <;> simp [Nat.mul_succ, List.drop_append, List.take_append, hf, ih]
  have hcount : (l.length * 2 + 256 - 1) / 256 = (l.length + 128 - 1) / 128 := by omega
  simp only [appendChunks, chunks, dumpChunkElems, List.map_map, Nat.reduceMod, Nat.sub_zero,
    List.length_flatMap, hf, List.map_const', List.sum_replicate, smul_eq_mul, hcount]
  refine List.map_congr_left fun i _ => ?_
  rw [Function.comp_apply, Function.comp_apply, show i * 256 = 2 * (i * 128) by ring, (hcut _ _).1,
    show 256 = 2 * 128 from rfl, (hcut _ _).2]

theorem pairs_flatMap (f g : α → Bytes) (l : List α) :
    pairs (l.flatMap fun x => [f x, g x]) = l.map fun x => (f x, g x) := by
  induction l with
  | nil => rfl
  | cons x l ih => simp [pairs, ih]

end Pieces

theorem foldl_pushTo (l c : List Bytes) : l.foldl (pushTo false) c = c ++ l := by
  induction l generalizing c with
  | nil => simp
  | cons x l ih => simp [ih, pushTo]

theorem rpush_grows (l : List Bytes) :
    Grows cfg db key (fun part => ascii "RPUSH" :: key :: part) l (.list : _ → Value S) := by
  intro env part hpart _ done e he
  refine assigns_write (h := cmdRPush)
    (dataTable_of_mem (n := "RPUSH") (by simp [dataCommands, listCommands]))
    (show arityOK (-3) _ = true by simp [arityOK]; omega) env (assigns_map ?_ _)
  rw [← foldl_pushTo]
  obtain rfl | ⟨rfl, rfl⟩ := he <;> exact assigns_put rfl

theorem setPutAll_fst (m : Finset Bytes) (n : ℤ) (xs : List Bytes) :
    (setPutAll (m, n) xs).1 = m ∪ xs.toFinset := by
  induction xs generalizing m n with
  | nil => simp [setPutAll]
  | cons x xs ih => simp [setPutAll, ih]

theorem sadd_grows (l : List Bytes) :
    Grows cfg db key (fun part => ascii "SADD" :: key :: part) l
      fun l => (.set l.toFinset : Value S) := by
  intro env part hpart _ done e he
  refine assigns_write (h := cmdSAdd)
    (dataTable_of_mem (n := "SADD") (by simp [dataCommands, setCommands]))
    (show arityOK (-3) _ = true by simp [arityOK]; omega) env (assigns_map ?_ _)
  beta_reduce
  rw [List.toFinset_append, ← setPutAll_fst _ 0]
  obtain rfl | ⟨rfl, rfl⟩ := he <;> exact assigns_put rfl

def enter (h : Hash) (p : Bytes × Bytes) : Hash := h.insert p.1 p.2

theorem hashPutAll_fst (h : Hash) (n : ℤ) (ps : List (Bytes × Bytes)) :
    (hashPutAll (h, n) ps).1 = ps.foldl enter h := by
  induction ps generalizing h n with
  | nil => rfl
  | cons p ps ih => exact ih _ _

theorem hset_grows (ps : List (Bytes × Bytes)) :
    Grows cfg db key (fun part => ascii "HSET" :: key :: part.flatMap fun p => [p.1, p.2]) ps
      fun ps => (.hash (ps.foldl enter ∅) : Value S) := by
  intro env part hpart _ done e he
  refine assigns_write (h := cmdHSet)
    (dataTable_of_mem (n := "HSET") (by simp [dataCommands, hashCommands]))
    (show arityOK (-4) _ = true by simp [arityOK]; omega) env ?_
  simp only [cmdHSet, pairs_flatMap]
  rw [if_neg (by simp; omega), List.map_id', List.foldl_append, ← hashPutAll_fst _ 0]
  apply assigns_map
  obtain rfl | ⟨rfl, rfl⟩ := he <;> exact assigns_put rfl

/-- Fields of a hash entered into one that has the others. -/
theorem foldl_enter {h m : Hash} {ps : List (Bytes × Bytes)} (hps : ∀ p ∈ ps, h.lookup p.1 = some p.2)
    {k : Bytes} (hk : k ∈ ps.map Prod.fst ∨ m.lookup k = h.lookup k) :
    (ps.foldl enter m).lookup k = h.lookup k := by
  induction ps generalizing m with
  | nil => simpa using hk
  | cons p ps ih =>
    obtain ⟨hp, hps⟩ := List.forall_mem_cons.mp hps
    refine ih hps ?_
    by_cases hkp : k = p.1
    · exact .inr (by rw [hkp, hp, enter, Finmap.lookup_insert])
    · exact hk.imp (by simp [hkp]) (by simp [enter, Finmap.lookup_insert_of_ne _ hkp])

/-- A hash entered field by field, in any order. -/
theorem foldl_inOrder (env : Env) (h : Hash) : (inOrder h (env.order h.keys)).foldl enter ∅ = h := by
  refine Finmap.ext_lookup fun k => foldl_enter (by simp [inOrder]; grind) ?_
  cases hk : h.lookup k with
  | none => exact .inr (by simp)
  | some v =>
    refine .inl (List.mem_map.mpr ⟨(k, v), List.mem_filterMap.mpr ⟨k, ?_, by simp [hk]⟩, rfl⟩)
    exact (env.mem_order _ _).mpr (Finmap.mem_keys.mpr (Finmap.mem_of_lookup_eq_some hk))

/-- The text of the score reads back, and ZADD takes it for no option. -/
def ScoreReads (x : S) : Prop :=
  Numeric.parseScore (Numeric.formatScore x) = some x ∧
    ∀ w ∈ ["NX", "XX", "GT", "LT", "CH", "INCR"], isWord (Numeric.formatScore x) w = false

theorem zAddAll_fst (z : ZSet S) (a b : ℤ) (ms : List (S × Bytes)) :
    (zAddAll noZAddOptions (z, a, b) ms).1 = ms.foldl (fun z n => (z.add n.2 n.1).1) z := by
  induction ms generalizing z a b with
  | nil => rfl
  | cons n ms ih =>
    have hgate : noZAddOptions.gate n.1 (z.score n.2) = true := by
      unfold ZAddOptions.gate
      split <;> rfl
    simp [zAddAll, hgate, show ∀ b, noZAddOptions.allows b = true from fun _ => rfl, ih]

theorem parse_texts {l : List (S × Bytes)} (h : ∀ n ∈ l, ScoreReads n.1) :
    parseMembers (l.map fun n => (Numeric.formatScore n.1, n.2)) = .ok l ∧
      (0 < l.length → parseZAddOpts (l.flatMap fun n => [Numeric.formatScore n.1, n.2]) =
        .ok (noZAddOptions, l.flatMap fun n => [Numeric.formatScore n.1, n.2])) := by
  induction l with
  | nil => exact ⟨rfl, by simp⟩
  | cons n l ih =>
    obtain ⟨⟨hn, hwords⟩, hl⟩ := List.forall_mem_cons.mp h
    simp only [List.forall_mem_cons] at hwords
    refine ⟨by simp [parseMembers, hn, ih hl], fun _ => ?_⟩
    simp [parseZAddOpts, takeZAddOpts, hwords, noZAddOptions]
    omega

theorem zadd_grows {nodes : List (S × Bytes)} (hz : ∀ n ∈ nodes, ScoreReads n.1) :
    Grows cfg db key
      (fun part => ascii "ZADD" :: key :: part.flatMap fun n => [Numeric.formatScore n.1, n.2])
      nodes fun l => .zset (ofSelection l) := by
  intro env part hpart hmem done e he
  obtain ⟨hmembers, hopts⟩ := parse_texts fun n h => hz n (hmem n h)
  refine assigns_write (h := cmdZAdd)
    (dataTable_of_mem (n := "ZADD") (by simp [dataCommands, zsetCommands]))
    (show arityOK (-4) _ = true by simp [arityOK]; omega) env ?_
  simp only [cmdZAdd, hopts hpart, pairs_flatMap, hmembers]
  apply assigns_map
  have hnodes : (zAddAll noZAddOptions (ofSelection done, 0, 0) part).1.nodes.isEmpty = false := by
    obtain ⟨l, n, rfl⟩ := (List.eq_nil_or_concat part).resolve_left (List.ne_nil_of_length_pos hpart)
    simpa [zAddAll_fst] using add_nodes_ne_nil _ n.2 n.1
  rw [ofSelection, List.foldl_append, ← ofSelection, ← zAddAll_fst _ 0 0]
  obtain rfl | ⟨rfl, rfl⟩ := he <;> exact assigns_put (if_neg (hnodes ▸ Bool.false_ne_true))

/-- What a dump carries: no stream, scores whose texts read back, a deadline of 64 bits. -/
def Dumpable (e : Entry S) : Prop :=
  Plain e ∧ (∀ z, e.value = .zset z → ∀ n ∈ z.nodes, ScoreReads n.1) ∧
    ∀ d, e.expireAt = some d → d ≤ maxInt64

theorem value_builds (env : Env) {e : Entry S} (h : Dumpable e) :
    Builds cfg db key (appendValueCommands env key e.value) { e with expireAt := none } := by
  obtain ⟨value, d⟩ := e
  obtain ⟨hplain, hscores, -⟩ := h
  cases value with
  | str b =>
    intro r s _
    rw [appendValueCommands, List.map_singleton, performed_cons, performed_nil]
    exact setWireForm_assigns dataTable_set rfl key b (o := noSetOpts) (by simp [noSetOpts]) r _ _ s rfl
  | list l => exact (rpush_grows l).builds hplain (show 0 < 256 by decide)
  | hash h =>
    have hbuilds : Builds cfg db key _ (_ : Entry S) :=
      (hset_grows (inOrder h (env.order h.keys))).builds
        (fun hnil => hplain (by rw [← foldl_inOrder env h, hnil]; rfl)) (show 0 < 128 by decide)
    rwa [foldl_inOrder, ← appendChunks_two fun _ => rfl] at hbuilds
  | set m =>
    have hm : (env.order m).toFinset = m := by
      ext x
      simp [env.mem_order]
    have hbuilds : Builds cfg db key _ (_ : Entry S) := (sadd_grows (env.order m)).builds
      (fun hnil => hplain (by rw [← hm, hnil]; rfl)) (show 0 < 256 by decide)
    rwa [hm] at hbuilds
  | zset z =>
    have hsel : ofSelection z.nodes = z :=
      (ZSet.mk.injEq ..).mpr (Algebra.ofSelection_nodes z.sorted z.nodup)
    have hbuilds : Builds cfg db key _ _ :=
      (zadd_grows (hscores z rfl)).builds hplain (show 0 < 128 by decide)
    rwa [hsel, ← appendChunks_two fun _ => rfl] at hbuilds
  | stream st => exact hplain.elim

theorem entry_builds (env : Env) {e : Entry S} (h : Dumpable e) (hl : live env.now e = true) :
    Builds cfg db key (entryCommands env key e) e := by
  intro r s hs
  rw [entryCommands, if_pos hl, List.map_append, performed_append, value_builds env h r s hs]
  obtain ⟨value, _ | d⟩ := e
  · rfl
  · have hd : (env.now.val : ℤ) < d := by simpa [live] using hl
    have hset := pexpireatForm_assigns (v := cfg.view db) dataTable_pexpireat key
      (show minInt64 ≤ d by unfold minInt64; omega) (h.2.2 d rfl) r (⟨value, none⟩ : Entry S)
    show cfg.performed r [(db, pexpireatForm key d)] _ = _
    rw [performed_cons, performed_nil, hset _ _ (by simp [seen, live, View.loc, Config.view])]
    rw [unixMilli, if_neg (by omega)]
    exact Function.update_idem _ _ _

variable {s : Dataset S}

theorem performed_keys (env r : Env) (hs : All Dumpable s) {keys : List Bytes} (hn : keys.Nodup)
    {t : Dataset S} (ht : ∀ k ∈ keys, t (db, k) = none) :
    cfg.performed r ((keys.flatMap fun key => (s (db, key)).elim [] (entryCommands env key)).map
      fun c => (db, c)) t =
        fun k => if k.1 = db ∧ k.2 ∈ keys then seen (live env.now) s k else t k := by
  induction keys generalizing t with
  | nil => simp [performed_nil]
  | cons key keys ih =>
    obtain ⟨hkey, hn⟩ := List.nodup_cons.mp hn
    obtain ⟨hfree, ht⟩ := List.forall_mem_cons.mp ht
    have hfirst : cfg.performed r (((s (db, key)).elim [] (entryCommands env key)).map
        fun c => (db, c)) t = Function.update t (db, key) (seen (live env.now) s (db, key)) := by
      have hnone : Function.update t (db, key) none = t := by rw [← hfree, Function.update_eq_self]
      unfold seen
      cases he : s (db, key) with
      | none => exact hnone.symm
      | some e =>
        cases hl : live env.now e with
        | false => simp [Option.filter, hl, entryCommands, performed_nil, hnone]
        | true =>
          rw [Option.elim_some, entry_builds env (hs _ _ he) hl r t hfree, Option.filter_some_pos hl]
    rw [List.flatMap_cons, List.map_append, performed_append, hfirst, ih hn]
    · funext k
      by_cases hk : k = (db, key)
      · simp [hk, hkey]
      · grind
    · intro x hx
      rw [Function.update_of_ne (by grind), ht x hx]

/-- A saved file loads, and into empty databases it brings back every entry that was live when
its database was dumped, and nothing else. -/
theorem saved_file_restores (hs : All Dumpable s) (w : Walk s) (env : ℕ → Env) {crc : Bytes → UInt64}
    (hcut : ∀ c ∈ snapshotCut cfg w env, WellFormed c) (savedAt : Snapshot.Time) {file : Bytes}
    (hfile : Snapshot.encode crc (snapshotCut cfg w env) savedAt = some file) (r : Env) :
    ∃ cmds t, Snapshot.decode crc file = .ok (cmds, t) ∧ ∀ k,
      cfg.performed r (cfg.feedAll (Applier.idle 0) cmds).2 emptyDataset k =
        if k.1 < cfg.databases then seen (live (env k.1).now) s k else none := by
  obtain ⟨rfl, hlen⟩ := Snapshot.sum_lt_of_encode hfile
  refine ⟨_, _, Snapshot.decode_writeTo hcut hlen savedAt, fun k => ?_⟩
  have hcalls : (cfg.feedAll (Applier.idle 0) (snapshotCut cfg w env)).2 = dumpedCalls cfg w env :=
    congrArg Prod.snd (feedAll_snapshot (fun db hdb => List.mem_range.mp hdb)
      (fun db => dump_ordinary w (env db) db) 0)
  have hdbs : ∀ n, cfg.performed r ((List.range n).flatMap fun db =>
      (w.dump (env db) db).map fun c => (db, c)) emptyDataset =
        fun k => if k.1 < n then seen (live (env k.1).now) s k else none := by
    intro n
    induction n with
    | zero => rfl
    | succ n ih =>
      rw [List.range_succ, List.flatMap_append, performed_append, ih, List.flatMap_singleton]
      refine (performed_keys (env n) r hs (w.nodup n) (by simp)).trans (funext fun k => ?_)
      have hmem := w.mem_keys n k.2
      by_cases hn : k.1 = n
      · subst hn
        cases hk : s k <;> simp_all [seen]
      · simp [hn]
        grind
  rw [hcalls, dumpedCalls, hdbs]

theorem soleString_restored : ∃ cmds t, Snapshot.decode (fun _ => 0) (Snapshot.writeTo (fun _ => 0)
      (snapshotCut Config.default soleWalk fun _ => Env.at 0) 0) = .ok (cmds, t) ∧ ∀ k,
    Config.default.performed (Env.at 5) (Config.default.feedAll (Applier.idle 0) cmds).2 emptyDataset k =
      if k.1 < Config.default.databases then seen (live 0) soleString k else none := by
  refine saved_file_restores (fun k e he => ?_) soleWalk (fun _ => Env.at 0) (by decide +kernel) 0
    (if_pos (by rw [Snapshot.writeTo_length, Snapshot.headerText_spec.1]; decide +kernel)) _
  unfold soleString at he
  split_ifs at he
  cases he
  exact ⟨trivial, by simp, by simp⟩

end ShardKV.Server
