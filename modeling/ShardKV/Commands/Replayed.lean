import ShardKV.Commands.Bitmaps

/-! String and bit writes replayed. A command that reports no change has to leave the
live dataset alone. One that reports a change ships a command, and whoever holds an equal
dataset gets from it what is in memory, at any clock between which and the clock of the
execution no deadline lies. The lookups of these commands all come before their writes,
so two such clocks make no difference to a run. -/

namespace ShardKV.Commands

open Access Data Resp Server Prog

variable {S : Type} [Numeric S]

/-- The databases of a server. No collection in them is empty. -/
structure Databases (S : Type) [LinearOrder S] where
  contents : Dataset S
  proper : All (Proper fun _ => True) contents

/-- The data commands and the bit commands. -/
def stringTable : Table S := fun name =>
  (dataTable name).or ((bitCommands.find? fun p => ascii p.1 == name).map Prod.snd)

/-- No deadline of the dataset lies between two clocks. -/
def Uncrossed (t t' : Instant) (s : Dataset S) : Prop := ∀ k e, s k = some e → live t e = live t' e

/-- What `applyCommand` makes of shipped commands, one after the other. -/
def replay (v : View) (env : Env) : List Args → Dataset S → Dataset S
  | [], s => s
  | a :: as, s => replay v env as ((stringTable.applyCommand v env a).run (live env.now) s).2

/-- The verdict of a command on what it changed can be relied on, and what it ships
makes the same of an equal dataset. -/
structure Accounted (c : Command S) (v : View) (env : Env) (args : Args) (d : Databases S) : Prop where
  silent : ((c.apply v env args).run (live env.now) d.contents).1.dirty = false →
    liveAt env.now ((c.apply v env args).run (live env.now) d.contents).2 = liveAt env.now d.contents
  shipped : ((c.apply v env args).run (live env.now) d.contents).1.dirty = true →
    ∀ (env' : Env) (d' : Databases S), liveAt env.now d'.contents = liveAt env.now d.contents →
      Uncrossed env.now env'.now d'.contents →
      liveAt env.now (replay v env'
          (wireForm args ((c.apply v env args).run (live env.now) d.contents).1.effect) d'.contents) =
        liveAt env.now ((c.apply v env args).run (live env.now) d.contents).2

section Shipping

variable {args : Args} {arity : ℤ} {v : View} {env : Env} {d : Databases S}

theorem seen_of_uncrossed {t t' : Instant} {s : Dataset S} (h : Uncrossed t t' s) :
    seen (live t) s = seen (live t') s := by
  funext k
  cases hk : s k with
  | none => simp [seen, hk]
  | some e => simp [seen, hk, Option.filter, h k e hk]

/-- A prompt command that ships one command of the same effect. -/
theorem shipped_of_prompt {c : Command S} (hp : (c.apply v env args).Prompt)
    (hs : ∀ (vis : Entry S → Bool) (s : Dataset S), All (Proper fun _ => True) s →
      ((c.apply v env args).run vis s).1.dirty = true →
      ∃ a, wireForm args ((c.apply v env args).run vis s).1.effect = [a] ∧
        ∀ env', ((stringTable.applyCommand v env' a).run vis s).2 = ((c.apply v env args).run vis s).2)
    (hdirty : ((c.apply v env args).run (live env.now) d.contents).1.dirty = true) (env' : Env)
    (d' : Databases S) (heq : liveAt env.now d'.contents = liveAt env.now d.contents)
    (hclock : Uncrossed env.now env'.now d'.contents) :
    liveAt env.now (replay v env'
        (wireForm args ((c.apply v env args).run (live env.now) d.contents).1.effect) d'.contents) =
      liveAt env.now ((c.apply v env args).run (live env.now) d.contents).2 := by
  have hsame := hp _ _ _ (seen_of_uncrossed hclock).symm
  obtain ⟨hout, halike⟩ := run_alike (c.apply v env args) heq
  obtain ⟨a, ha, happly⟩ := hs (live env'.now) d'.contents d'.proper (by rw [hsame, hout, hdirty])
  rw [hsame, hout] at ha
  rw [ha]
  show liveAt env.now ((stringTable.applyCommand v env' a).run (live env'.now) d'.contents).2 = _
  rw [happly env', hsame]
  exact halike

theorem accounted_of_faithful {c : Command S} (hf : Faithful (fun _ => True) stringTable c args)
    (hp : (c.apply v env args).Prompt) : Accounted c v env args d where
  silent hd := (hf.sound v env).honest _ _ d.proper hd
  shipped := by
    refine shipped_of_prompt hp fun vis s hs hdirty => ?_
    obtain ⟨-, a, ha, -, -, happly⟩ := hf.ships v env vis s hs hdirty
    exact ⟨a, ha, happly⟩

/-- A plain write needs only to be right about what it changed. -/
theorem accounted_write_iff {h : View → Args → Op S (Reply × Bool)}
    (hT : (stringTable (S := S)).resolve args = some ⟨arity, .write h⟩) (hp : (h v args).Prompt) :
    Accounted ⟨arity, .write h⟩ v env args d ↔
      (((h v args).run (live env.now) d.contents).1.2 = false →
        Alike (live env.now) ((h v args).run (live env.now) d.contents).2 d.contents) := by
  constructor
  · intro hacc
    have hsilent := hacc.silent
    rw [run_apply_write] at hsilent
    exact hsilent
  · intro hsilent
    refine ⟨?_, shipped_of_prompt (prompt_map hp _) fun vis s _ _ => ⟨args, ?_, fun env' => ?_⟩⟩
    · rw [run_apply_write]
      exact hsilent
    · rw [run_apply_write]
      rfl
    · rw [run_applyCommand hT, run_apply_write, run_apply_write]

end Shipping

section Lookups

variable (v : View) (env : Env) (args : Args)

theorem cmdSet_prompt : (cmdSet v env args : Op S _).Prompt := by
  unfold cmdSet
  split
  · split <;> simp [setWithOptions]
  · simp

theorem setex_prompt (name : String) (unitMs : ℤ) : (setex name unitMs v env args : Op S _).Prompt := by
  unfold setex
  split
  · split
    · simp
    · exact prompt_map (fun _ _ _ _ => rfl) _
  · simp

theorem cmdGetEx_prompt : (cmdGetEx v env args : Op S _).Prompt := by
  unfold cmdGetEx
  split
  · split <;> simp [getEx]
  · simp

theorem cmdIncrByFloat_prompt : (cmdIncrByFloat v env args : Op S _).Prompt := by
  unfold cmdIncrByFloat
  split
  · split <;> simp [incrByFloat]
  · simp

theorem cmdIncr_prompt : (cmdIncr v args : Op S _).Prompt := by
  unfold cmdIncr
  split <;> simp [incr]

theorem cmdDecr_prompt : (cmdDecr v args : Op S _).Prompt := by
  unfold cmdDecr
  split <;> simp [incr]

theorem cmdIncrBy_prompt : (cmdIncrBy v args : Op S _).Prompt := by
  unfold cmdIncrBy
  split
  · split <;> simp [incr]
  · simp

theorem cmdDecrBy_prompt : (cmdDecrBy v args : Op S _).Prompt := by
  unfold cmdDecrBy
  split
  · split
    · simp
    · split <;> simp [incr]
  · simp

/-- Plain writes do not depend on who runs them. -/
theorem run_setAll (ps : List (Loc × Bytes)) (vis vis' : Entry S → Bool) (s : Dataset S) :
    (setAll ps).run vis s = (setAll ps).run vis' s := by
  induction ps generalizing s with
  | nil => rfl
  | cons p ps ih => exact ih _

theorem cmdMSet_prompt : (cmdMSet v args : Op S _).Prompt := by
  unfold cmdMSet
  split_ifs
  · simp
  · exact prompt_map (fun vis vis' s _ => run_setAll _ vis vis' s) _

theorem cmdMSetNX_prompt : (cmdMSetNX v args : Op S _).Prompt := by
  unfold cmdMSetNX
  split_ifs
  · simp
  · refine prompt_map (prompt_bind_readOnly (anyLive_readOnly _) fun found => ?_) _
    cases found with
    | true => exact prompt_ret _
    | false => exact prompt_map (fun vis vis' s _ => run_setAll _ vis vis' s) _

theorem cmdSetNX_prompt : (cmdSetNX v args : Op S _).Prompt := by
  unfold cmdSetNX
  split <;> simp [setNX]

theorem cmdGetSet_prompt : (cmdGetSet v args : Op S _).Prompt := by
  unfold cmdGetSet
  split <;> simp [getSet]

theorem cmdGetDel_prompt : (cmdGetDel v args : Op S _).Prompt := by
  unfold cmdGetDel
  split <;> simp [getDel]

theorem cmdAppend_prompt : (cmdAppend v args : Op S _).Prompt := by
  unfold cmdAppend
  split <;> simp [append]

theorem cmdSetRange_prompt : (cmdSetRange v args : Op S _).Prompt := by
  unfold cmdSetRange setRange
  split
  · split
    · simp
    · refine prompt_map ?_ _
      split
      · simp
      · split <;> simp
  · simp

theorem cmdSetBit_prompt : (cmdSetBit v args : Op S _).Prompt := by
  unfold cmdSetBit setBit
  split
  · split
    · simp
    · split
      · simp
      · split_ifs <;> simp
  · simp

theorem readStrings_readOnly (ks : List Loc) : (readStrings ks : Op S _).ReadOnly := by
  induction ks with
  | nil => trivial
  | cons k ks ih =>
    rintro (_ | ⟨b | _ | _ | _ | _ | _, d⟩)
    · exact readOnly_bind ih fun r => by cases r <;> trivial
    · exact readOnly_bind ih fun r => by cases r <;> trivial
    all_goals trivial

theorem cmdBitOp_prompt : (cmdBitOp v args : Op S _).Prompt := by
  unfold cmdBitOp bitOp
  split
  · split
    · exact prompt_ret _
    · refine prompt_map (prompt_bind_readOnly (readStrings_readOnly _) fun r => ?_) _
      cases r with
      | error err => exact prompt_ret _
      | ok values =>
        dsimp only
        split_ifs
        · exact prompt_ret _
        · exact fun _ _ _ _ => rfl
        · exact fun _ _ _ _ => rfl
  · exact prompt_ret _

theorem cmdBitField_prompt : (cmdBitField v args : Op S _).Prompt := by
  unfold cmdBitField bitFieldCommand
  refine prompt_map ?_ _
  split
  · exact prompt_ret _
  · exact prompt_ret _
  · exact prompt_map (prompt_edit _ _) _

end Lookups

theorem bitCommands_names :
    (bitCommands (S := S)).map Prod.fst = ["SETBIT", "GETBIT", "BITOP", "BITFIELD", "BITFIELD_RO"] := rfl

theorem stringTable_of_data {n : String} {c : Command S} (h : (n, c) ∈ dataCommands) :
    stringTable (ascii n) = some c := by
  rw [stringTable, dataTable_of_mem h]
  rfl

theorem stringTable_of_bit {n : String} {c : Command S} (h : (n, c) ∈ bitCommands) :
    stringTable (ascii n) = some c := by
  have hname : n ∈ ["SETBIT", "GETBIT", "BITOP", "BITFIELD", "BITFIELD_RO"] :=
    bitCommands_names (S := S) ▸ List.mem_map_of_mem h
  have hfresh : ∀ n ∈ ["SETBIT", "GETBIT", "BITOP", "BITFIELD", "BITFIELD_RO"], isAscii n = true ∧
      (dataNames.any fun m => (literalCode n).beq (literalCode m)) = false := by decide +kernel
  have hnodup : ((bitCommands (S := S)).map fun p => ascii p.1).Nodup := by
    have hnames : (["SETBIT", "GETBIT", "BITOP", "BITFIELD", "BITFIELD_RO"].map ascii).Nodup := by
      decide +kernel
    rw [← bitCommands_names (S := S), List.map_map] at hnames
    exact hnames
  rw [stringTable, dataTable_eq_none (hfresh n hname).1 (hfresh n hname).2, find_of_mem hnodup h]
  rfl

theorem stringTable_resolve {p : String × Command S} (hp : p ∈ stringCommands ++ bitCommands) {args : Args}
    (hname : args.head?.map toUpper = some (ascii p.1)) (ha : arityOK p.2.arity args.length = true) :
    stringTable.resolve args = some p.2 := by
  cases args with
  | nil => exact absurd hname (by simp)
  | cons name rest =>
    have hT : stringTable (toUpper name) = some p.2 := by
      rw [show toUpper name = ascii p.1 by simpa using hname]
      rcases List.mem_append.mp hp with hp | hp
      · exact stringTable_of_data (by simp [dataCommands, hp])
      · exact stringTable_of_bit hp
    exact resolve_cons hT ha

theorem stringTable_set : stringTable (ascii "SET") = some (⟨-3, .effect cmdSet⟩ : Command S) :=
  stringTable_of_data (by simp [dataCommands, stringCommands])

theorem stringTable_pexpireat :
    stringTable (ascii "PEXPIREAT") = some (⟨-3, .effect cmdPExpireAt⟩ : Command S) :=
  stringTable_of_data (by simp [dataCommands, keyCommands])

theorem stringTable_persist : stringTable (ascii "PERSIST") = some (⟨2, .write cmdPersist⟩ : Command S) :=
  stringTable_of_data (by simp [dataCommands, keyCommands])

/-- Every call of a registered command that passes the arity check is accounted for. -/
def EntryAccounted (p : String × Command S) : Prop :=
  ∀ args : Args, args.head?.map toUpper = some (ascii p.1) → stringTable.resolve args = some p.2 →
    ∀ (v : View) (env : Env) (d : Databases S), Accounted p.2 v env args d

variable {n : String} {arity : ℤ}

theorem account_query {h : View → Env → Args → Op S Reply} (hh : ∀ v args env, (h v env args).ReadOnly) :
    EntryAccounted (n, ⟨arity, .query h⟩) :=
  fun args _ _ v env _ => accounted_of_faithful (faithful_query fun v env => hh v args env)
    (prompt_map (prompt_readOnly (hh v args env)) _)

theorem account_write {h : View → Args → Op S (Reply × Bool)}
    (hh : ∀ v args, (h v args).Sound (Proper fun _ => True) Prod.snd)
    (hp : ∀ v args, (h v args).Prompt) : EntryAccounted (n, ⟨arity, .write h⟩) :=
  fun args _ hT v _ d => (accounted_write_iff hT (hp v args)).mpr ((hh v args).honest _ _ d.proper)

theorem account_effect {h : View → Env → Args → Op S (Reply × List Args)}
    (hh : ∀ v env args, args.head?.map toUpper = some (ascii n) →
      Reproduces (fun _ => True) stringTable v (h v env args))
    (hp : ∀ v env args, (h v env args).Prompt) : EntryAccounted (n, ⟨arity, .effect h⟩) :=
  fun args hname _ v env _ => accounted_of_faithful (faithful_effect fun v env => hh v env args hname)
    (prompt_map (hp v env args) _)

theorem stringCommands_accounted : ∀ p ∈ stringCommands (S := S), EntryAccounted p := by
  simp only [stringCommands, List.forall_mem_cons]
  exact ⟨account_effect (fun _ env _ hname => cmdSet_reproduces stringTable_set env hname) cmdSet_prompt,
    account_query cmdGet_readOnly,
    account_effect (fun _ env args _ =>
      cmdGetEx_reproduces stringTable_pexpireat stringTable_persist env args) cmdGetEx_prompt,
    account_write cmdIncr_sound cmdIncr_prompt,
    account_write cmdDecr_sound cmdDecr_prompt,
    account_write cmdIncrBy_sound cmdIncrBy_prompt,
    account_write cmdDecrBy_sound cmdDecrBy_prompt,
    account_effect (fun _ env args _ => cmdIncrByFloat_reproduces stringTable_set env args)
      cmdIncrByFloat_prompt,
    account_write cmdMSet_sound cmdMSet_prompt,
    account_write cmdMSetNX_sound cmdMSetNX_prompt,
    account_write cmdSetNX_sound cmdSetNX_prompt,
    account_effect (fun _ env args _ => setex_reproduces stringTable_set _ (by decide) env args)
      fun v env args => setex_prompt v env args _ _,
    account_effect (fun _ env args _ => setex_reproduces stringTable_set _ (by decide) env args)
      fun v env args => setex_prompt v env args _ _,
    account_write cmdGetSet_sound cmdGetSet_prompt,
    account_write cmdGetDel_sound cmdGetDel_prompt,
    account_write cmdAppend_sound cmdAppend_prompt,
    account_query cmdStrLen_readOnly,
    account_write cmdSetRange_sound cmdSetRange_prompt, by simp⟩

theorem cmdSetBit_sound (v : View) (args : Args) :
    (cmdSetBit v args : Op S _).Sound (Proper fun _ => True) Prod.snd := by
  unfold cmdSetBit
  split
  · split
    · exact sound_ret _
    · split
      · exact sound_ret _
      · split_ifs
        · exact sound_ret _
        · apply sound_map
          convert setBit_sound (S := S) _ _ _ using 2
          rename_i r
          cases r <;> rfl
  · exact sound_ret _

theorem cmdBitOp_sound (v : View) (args : Args) :
    (cmdBitOp v args : Op S _).Sound (Proper fun _ => True) Prod.snd := by
  unfold cmdBitOp bitOp
  split
  · split
    · exact sound_ret _
    · refine sound_map (sound_bind_readOnly (readStrings_readOnly _) fun r => ?_)
      cases r with
      | error err => exact sound_ret _
      | ok values =>
        dsimp only
        split_ifs
        · exact sound_ret _
        · exact sound_of_dirty (keeps_drop (keeps_ret _)) fun _ _ => rfl
        · exact sound_of_dirty (keeps_put (proper_str _ _ _) (keeps_ret _)) fun _ _ => rfl
  · exact sound_ret _

theorem cmdGetBit_readOnly (v : View) (args : Args) (env : Env) :
    (cmdGetBit v env args : Op S Reply).ReadOnly := by
  unfold cmdGetBit
  split
  · split
    · trivial
    · split_ifs
      · trivial
      · rintro (_ | ⟨_ | _ | _ | _ | _ | _, d⟩) <;> trivial
  · trivial

/-- BITFIELD_RO accepts nothing that writes. -/
theorem parseOps_readOnly {readOffset : Bytes → ℕ → Option ℤ} {refuses : ℤ → ℕ → Bool}
    {overflow : BitFieldOverflow} {rest : List Bytes} {ops : List BitFieldOp}
    (h : parseOps readOffset refuses true overflow rest = .ok ops) : ∀ op ∈ ops, op.writes = false := by
  fun_induction parseOps readOffset refuses true overflow rest generalizing ops
  case case1 =>
    rw [← Except.ok.inj h]
    exact fun op hop => absurd hop List.not_mem_nil
  case case7 ih =>
    obtain ⟨x, ys, hx, hys, rfl⟩ := cons_ok_iff.mp h
    refine List.forall_mem_cons.mpr ⟨?_, ih hys⟩
    unfold parseGet at hx
    split at hx
    · exact absurd hx (by simp)
    · split at hx
      · exact absurd hx (by simp)
      · rw [← Except.ok.inj hx]
        rfl
  case case10 hwritable _ _ _ _ ih => exact absurd hwritable (by simp [writable])
  case case3 ih => exact ih h
  case case4 ih => exact ih h
  case case5 ih => exact ih h
  all_goals exact absurd h (by simp)

theorem cmdBitFieldRO_readOnly (v : View) (args : Args) (env : Env) :
    (cmdBitFieldRO v env args : Op S Reply).ReadOnly := by
  unfold cmdBitFieldRO bitFieldCommand
  apply readOnly_map
  split
  · trivial
  · trivial
  · rename_i ops _ hparse
    have hreads : (ops.all fun op => !op.writes) = true := by
      rw [List.all_eq_true]
      intro op hop
      rw [parseOps_readOnly hparse op hop]
      rfl
    apply readOnly_map
    have hkeeps (stored : Option Bytes) (d : Option ℤ) :
        ∃ a, (serveBitField ops stored d : Edit (Entry S) _) = .keep a := by
      unfold serveBitField
      cases (bitField stored ops).result with
      | error fault => exact ⟨_, rfl⟩
      | ok r =>
        dsimp only
        rw [if_pos hreads]
        exact ⟨_, rfl⟩
    rintro (_ | ⟨b | _ | _ | _ | _ | _, d⟩)
    · obtain ⟨a, ha⟩ := hkeeps none none
      dsimp only
      rw [ha]
      trivial
    · obtain ⟨a, ha⟩ := hkeeps (some b) d
      dsimp only
      rw [ha]
      trivial
    all_goals trivial

/-- Every call of a string or bit command is accounted for, except a BITFIELD that grows
a string for operations that are all refused. -/
theorem string_writes_accounted_iff {p : String × Command S} (hp : p ∈ stringCommands ++ bitCommands)
    {args : Args} (hname : args.head?.map toUpper = some (ascii p.1))
    (harity : arityOK p.2.arity args.length = true) (v : View) (env : Env) (d : Databases S) :
    Accounted p.2 v env args d ↔
      ¬ (p.1 = "BITFIELD" ∧ WastesGrowth v args (live env.now) d.contents) := by
  have hT := stringTable_resolve hp hname harity
  rcases List.mem_append.mp hp with hp | hp
  · refine iff_of_true (stringCommands_accounted p hp args hname hT v env d) ?_
    rintro ⟨hbit, -⟩
    have hnames : ∀ n ∈ (stringCommands (S := S)).map Prod.fst, n ≠ "BITFIELD" := by
      simp [stringCommands]
    exact hnames p.1 (List.mem_map_of_mem hp) hbit
  · have others (hne : p.1 ≠ "BITFIELD") (hacc : EntryAccounted p) :
        Accounted p.2 v env args d ↔
          ¬ (p.1 = "BITFIELD" ∧ WastesGrowth v args (live env.now) d.contents) :=
      iff_of_true (hacc args hname hT v env d) fun h => hne h.1
    simp only [bitCommands, List.mem_cons, List.not_mem_nil, or_false] at hp
    obtain rfl | rfl | rfl | rfl | rfl := hp
    · exact others (by simp) (account_write cmdSetBit_sound cmdSetBit_prompt)
    · exact others (by simp) (account_query cmdGetBit_readOnly)
    · exact others (by simp) (account_write cmdBitOp_sound cmdBitOp_prompt)
    · rw [accounted_write_iff hT (cmdBitField_prompt v args), cmdBitField_honest_iff]
      simp
    · exact others (by simp) (account_query cmdBitFieldRO_readOnly)

/-- One string, `k` holding `a`. -/
def holdingA : Databases ℤ where
  contents := Function.update emptyDataset (0, ascii "k") (some ⟨.str (ascii "a"), none⟩)
  proper := all_update emptyDataset_proper _ fun _ hx => Option.some.inj hx ▸ proper_str _ _ _

/-- `SETBIT k 7 0` clears the lowest bit of the `a`. -/
theorem setBit_accounted :
    Accounted ⟨4, .write cmdSetBit⟩ ⟨0, 16, false⟩ (Env.at 0)
      [ascii "SETBIT", ascii "k", ascii "7", ascii "0"] holdingA :=
  (string_writes_accounted_iff (p := ("SETBIT", ⟨4, .write cmdSetBit⟩)) (by simp [bitCommands]) rfl rfl
    _ _ _).mpr fun h => absurd h.1 (by simp)

/-- `BITFIELD k OVERFLOW FAIL SET u8 8 256`. -/
def refusedByte : Args :=
  [ascii "BITFIELD", ascii "k", ascii "OVERFLOW", ascii "FAIL", ascii "SET", ascii "u8", ascii "8",
    ascii "256"]

/-- The refused write leaves a zero byte behind the `a`, which nobody hears of. -/
theorem refusedByte_unaccounted :
    ¬ ∀ (p : String × Command ℤ), p ∈ stringCommands ++ bitCommands → ∀ args : Args,
      args.head?.map toUpper = some (ascii p.1) → arityOK p.2.arity args.length = true →
      ∀ (v : View) (env : Env) (d : Databases ℤ), Accounted p.2 v env args d := by
  intro hall
  have hacc := hall ("BITFIELD", ⟨-2, .write cmdBitField⟩) (by simp [bitCommands]) refusedByte rfl rfl
    ⟨0, 16, false⟩ (Env.at 0) holdingA
  have hsame := congrFun (hacc.silent (by decide +kernel)) (0, ascii "k")
  exact absurd hsame (by decide +kernel)

end ShardKV.Commands
