import ShardKV.Blocking.Queue

/-! The blocking commands that wait for lists and sorted sets. Each of them tries its
keys in turn; it asks to wait only after it has seen that none of them holds a value
of its type. -/

namespace ShardKV.Blocking

open Access Data Resp Server Commands Prog

variable {S : Type} [Numeric S] {v : View}

section Attempts

/-- The program asks to wait only where no key holds the type. -/
def WaitsFor (want : Kind) (keys : List Loc) (p : Op S (Option Reply × List Args)) : Prop :=
  ∀ (now : Instant) (s : Dataset S), Prog.All Stored s → (p.run (live now) s).1.1 = none →
    ∀ k ∈ keys, kindAt now s k ≠ some want

/-- The program always replies. -/
def Answers (p : Op S (Option Reply × List Args)) : Prop :=
  ∀ (vis : Entry S → Bool) (s : Dataset S), (p.run vis s).1.1 ≠ none

variable {want : Kind} {keys : List Loc}

theorem answers_ret (r : Reply) (effect : List Args) :
    Answers (.ret (some r, effect) : Op S (Option Reply × List Args)) :=
  fun _ _ => Option.some_ne_none r

theorem Answers.waitsFor {p : Op S (Option Reply × List Args)} (h : Answers p) :
    WaitsFor want keys p :=
  fun now s _ hnone => absurd hnone (h (live now) s)

/-- What an attempt on one key has to satisfy: it goes on past a key of another type, or
none, or it answers. -/
def AttemptWaits {α : Type} (want : Kind) (keys : List Loc)
    (next : α → Op S (Option Reply × List Args)) (e : Option (Entry S)) :
    Prog.Edit (Entry S) α → Prop
  | .keep a => (e.map (fun x => kind x.value) ≠ some want ∧ WaitsFor want keys (next a)) ∨
      Answers (next a)
  | .put _ a | .drop a => Answers (next a)

theorem waitsFor_attempt {α : Type} {k : Loc} {f : Option (Entry S) → Prog.Edit (Entry S) α}
    {next : α → Op S (Option Reply × List Args)}
    (hf : ∀ e, (∀ x, e = some x → Stored x) → AttemptWaits want keys next e (f e)) :
    WaitsFor want (k :: keys) (Prog.edit k f >>= next) := by
  intro now s hs hnone j hj
  have hfe := hf (seen (live now) s k) fun x hx => all_seen hs (live now) k hx
  rw [run_bind, run_edit] at hnone
  cases hcase : f (seen (live now) s k) with
  | keep a =>
    rw [hcase] at hfe hnone
    obtain ⟨hkind, hnext⟩ | hans := hfe
    · obtain rfl | hj := List.mem_cons.mp hj
      · exact hkind
      · exact hnext now s hs hnone j hj
    · exact absurd hnone (hans _ _)
  | put w a =>
    rw [hcase] at hfe hnone
    exact absurd hnone (hfe _ _)
  | drop a =>
    rw [hcase] at hfe hnone
    exact absurd hnone (hfe _ _)

theorem blockingPops_waits (left : Bool) (keys : List Bytes) :
    WaitsFor .list (keys.map v.loc) (blockingPops left v keys : Op S _) := by
  induction keys with
  | nil => exact fun _ _ _ _ k hk => absurd hk List.not_mem_nil
  | cons key keys ih =>
    apply waitsFor_attempt
    rintro (_ | ⟨_ | l | _ | _ | _ | _, d⟩) he
    · exact .inl ⟨by simp, ih⟩
    · exact .inr (answers_ret _ _)
    · dsimp only
      cases hp : popFrom left l with
      | none => exact absurd hp (popFrom_ne_none (he _ rfl))
      | some p =>
        unfold listEdit
        dsimp only
        split_ifs <;> exact answers_ret _ _
    all_goals exact .inr (answers_ret _ _)

theorem popMany_ne_nil {left : Bool} {n : ℕ} {l : List Bytes} (hn : 0 < n) (hl : l ≠ []) :
    (popMany left n l).1 ≠ [] := by
  obtain ⟨m, rfl⟩ : ∃ m, n = m + 1 := ⟨n - 1, by omega⟩
  unfold popMany
  split_ifs <;> simp [hl]

theorem mPopLists_waits {o : MPopOpts} (ho : 0 < o.count) (keys : List Bytes) :
    WaitsFor .list (keys.map v.loc) (mPopLists o v keys : Op S _) := by
  induction keys with
  | nil => exact fun _ _ _ _ k hk => absurd hk List.not_mem_nil
  | cons key keys ih =>
    apply waitsFor_attempt
    rintro (_ | ⟨_ | l | _ | _ | _ | _, d⟩) he
    · exact .inl ⟨by simp, ih⟩
    · exact .inr (answers_ret _ _)
    · have hvals : (popMany o.first o.count.toNat l).1 ≠ [] :=
        popMany_ne_nil (by omega) (he _ rfl)
      unfold listEdit
      dsimp only
      split_ifs
      all_goals
        simp only [AttemptWaits]
        rw [if_neg (by simpa using hvals)]
        exact answers_ret _ _
    all_goals exact .inr (answers_ret _ _)

theorem zPop_waits {key : Bytes} {count : ℤ} {fromMin : Bool} (hcount : 0 < count)
    {next : Except StoreErr (List (S × Bytes)) → Op S (Option Reply × List Args)}
    (herr : ∀ err, Answers (next (.error err))) (hnil : WaitsFor .zset keys (next (.ok [])))
    (hcons : ∀ m ms, Answers (next (.ok (m :: ms)))) :
    WaitsFor .zset (v.loc key :: keys) (zPop (v.loc key) count fromMin >>= next) := by
  apply waitsFor_attempt
  rintro (_ | ⟨_ | _ | _ | _ | z | _, d⟩) he
  · exact .inl ⟨by simp, hnil⟩
  · exact .inr (herr _)
  · exact .inr (herr _)
  · exact .inr (herr _)
  · exact .inr (herr _)
  · have hz : z.nodes ≠ [] := he _ rfl
    obtain ⟨c, hc⟩ : ∃ c, count.toNat = c + 1 := ⟨count.toNat - 1, by omega⟩
    have hpopped : (if fromMin then z.nodes else z.nodes.reverse).take count.toNat ≠ [] := by
      rw [hc]
      split_ifs <;> simp [hz]
    unfold zsetEdit
    dsimp only
    generalize (if fromMin then z.nodes else z.nodes.reverse).take count.toNat = popped at hpopped ⊢
    obtain ⟨m, ms, rfl⟩ := List.exists_cons_of_ne_nil hpopped
    split_ifs <;> exact hcons m ms
  · exact .inr (herr _)

theorem blockingZPops_waits (fromMin : Bool) (keys : List Bytes) :
    WaitsFor .zset (keys.map v.loc) (blockingZPops fromMin v keys : Op S _) := by
  induction keys with
  | nil => exact fun _ _ _ _ k hk => absurd hk List.not_mem_nil
  | cons key keys ih =>
    exact zPop_waits (by decide) (fun _ => answers_ret _ _) ih fun _ _ => answers_ret _ _

theorem mPopZSets_waits {o : MPopOpts} (ho : 0 < o.count) (keys : List Bytes) :
    WaitsFor .zset (keys.map v.loc) (mPopZSets o v keys : Op S _) := by
  induction keys with
  | nil => exact fun _ _ _ _ k hk => absurd hk List.not_mem_nil
  | cons key keys ih =>
    exact zPop_waits ho (fun _ => answers_ret _ _) ih fun _ _ => answers_ret _ _

/-- A move waits for its source only. -/
theorem blockingMove_waits (src dst : Bytes) (srcLeft dstLeft : Bool) (effect : Args) :
    WaitsFor .list [v.loc src] (blockingMove v src dst srcLeft dstLeft effect : Op S _) := by
  intro now s hs hnone k hk hkind
  obtain rfl := List.mem_singleton.mp hk
  obtain ⟨⟨value, d⟩, hseen, hvalue⟩ := Option.map_eq_some_iff.mp hkind
  obtain ⟨l, rfl⟩ : ∃ l, value = .list l := by
    cases value with
    | list l => exact ⟨l, rfl⟩
    | _ => exact absurd hvalue (by simp [kind])
  have hl : l ≠ [] := all_seen hs (live now) _ hseen
  have hne : popFrom srcLeft l ≠ none := popFrom_ne_none hl
  obtain ⟨⟨x, l'⟩, hpop⟩ := Option.ne_none_iff_exists'.mp hne
  rw [blockingMove, run_map, lMove] at hnone
  split_ifs at hnone with heq
  · rw [run_edit, hseen] at hnone
    simp [hpop] at hnone
  · rw [run_read, hseen] at hnone
    dsimp only at hnone
    rw [run_read] at hnone
    cases hdst : listOf (seen (live now) s (v.loc dst)) with
    | error err => simp [hdst] at hnone
    | ok r => simp [hdst, hpop] at hnone

end Attempts

def keysBeforeTimeout (args : Args) : List Bytes := args.tail.dropLast

def firstKeyOnly (args : Args) : List Bytes := args[1]?.toList

/-- `mpopKeysAfterTimeout`, which parses the count and leaves the direction to the
handler. -/
def mpopKeys (operands : List Bytes) : List Bytes :=
  match operands with
  | [] => []
  | numkeys :: rest =>
    match parseInt64 numkeys with
    | none => []
    | some n => if n ≤ 0 ∨ (rest.length : ℤ) < n then [] else rest.take n.toNat

theorem parseMPop_keys {first second : String} {operands : List Bytes} {o : MPopOpts}
    (h : parseMPop first second operands = .ok o) : mpopKeys operands = o.keys := by
  cases operands with
  | nil => exact absurd h (by simp [parseMPop])
  | cons numkeys rest =>
    rw [parseMPop] at h
    rw [mpopKeys]
    cases hn : parseInt64 numkeys with
    | none => simp [hn] at h
    | some n =>
      rw [hn] at h
      dsimp only at h ⊢
      split_ifs at h with hpos
      cases hdrop : rest.drop n.toNat with
      | nil => simp [hdrop] at h
      | cons dir tail =>
        have hlen : n.toNat < rest.length := by
          by_contra hge
          exact List.cons_ne_nil dir tail (hdrop.symm.trans (List.drop_eq_nil_of_le (by omega)))
        rw [if_neg (by omega)]
        simp only [hdrop] at h
        repeat' split at h
        all_goals first | exact congrArg MPopOpts.keys (Except.ok.inj h) | exact absurd h (by simp)

theorem blockingLMove_waits (env : Env) (args : Args) :
    WaitsFor .list ((firstKeyOnly args).map v.loc) (blockingLMove v env args : Op S _) := by
  unfold blockingLMove
  split
  · split
    · exact blockingMove_waits _ _ _ _ _
    · exact (answers_ret _ _).waitsFor
  · exact (answers_ret _ _).waitsFor

theorem blockingRPopLPush_waits (env : Env) (args : Args) :
    WaitsFor .list ((firstKeyOnly args).map v.loc) (blockingRPopLPush v env args : Op S _) := by
  unfold blockingRPopLPush
  split
  · exact blockingMove_waits _ _ _ _ _
  · exact (answers_ret _ _).waitsFor

theorem listMPop_waits (operands : List Bytes) :
    WaitsFor .list ((mpopKeys operands).map v.loc) (listMPop v operands : Op S _) := by
  unfold listMPop
  split
  · exact (answers_ret _ _).waitsFor
  · rename_i o ho
    rw [parseMPop_keys ho]
    exact mPopLists_waits (parseMPop_count ho).1 _

theorem zsetMPop_waits (operands : List Bytes) :
    WaitsFor .zset ((mpopKeys operands).map v.loc) (zsetMPop v operands : Op S _) := by
  unfold zsetMPop
  split
  · exact (answers_ret _ _).waitsFor
  · rename_i o ho
    rw [parseMPop_keys ho]
    exact mPopZSets_waits (parseMPop_count ho).1 _

variable (v : View) (env : Env) (args : Args)

/-- BLPOP and BRPOP. -/
def bPop (left : Bool) : Request S where
  view := v
  keys := (keysBeforeTimeout args).map v.loc
  want := .list
  attempt := blockingListPop left v env args
  keeps := (blockingPops_reproduces dataTable_lpop dataTable_rpop _ _).keeps
  reports := blockingPops_reports left _
  waits := blockingPops_waits left _

def bLMove : Request S where
  view := v
  keys := (firstKeyOnly args).map v.loc
  want := .list
  attempt := blockingLMove v env args
  keeps := (blockingLMove_reproduces dataTable_lmove env args).keeps
  reports := blockingLMove_reports env args
  waits := blockingLMove_waits env args

def bRPopLPush : Request S where
  view := v
  keys := (firstKeyOnly args).map v.loc
  want := .list
  attempt := blockingRPopLPush v env args
  keeps := (blockingRPopLPush_reproduces dataTable_rpoplpush env args).keeps
  reports := blockingRPopLPush_reports env args
  waits := blockingRPopLPush_waits env args

def bLMPop : Request S where
  view := v
  keys := (mpopKeys args.tail.tail).map v.loc
  want := .list
  attempt := blockingLMPop v env args
  keeps := (listMPop_reproduces dataTable_lpop dataTable_rpop _).keeps
  reports := listMPop_reports _
  waits := listMPop_waits _

/-- BZPOPMIN and BZPOPMAX. -/
def bZPop (fromMin : Bool) : Request S where
  view := v
  keys := (keysBeforeTimeout args).map v.loc
  want := .zset
  attempt := blockingZPop fromMin v env args
  keeps := (blockingZPops_reproduces dataTable_zrem _ _).keeps
  reports := blockingZPops_reports fromMin _
  waits := blockingZPops_waits fromMin _

def bZMPop : Request S where
  view := v
  keys := (mpopKeys args.tail.tail).map v.loc
  want := .zset
  attempt := blockingZMPop v env args
  keeps := (zsetMPop_reproduces dataTable_zrem _).keeps
  reports := zsetMPop_reports _
  waits := zsetMPop_waits _

/-- A data command as a write of another client. -/
def dataWrite {c : Command S} (h : dataTable.resolve args = some c) : WriteCall S where
  command := c
  view := v
  env := env
  args := args
  sound := (dataTable_faithful h).sound v env

end ShardKV.Blocking
