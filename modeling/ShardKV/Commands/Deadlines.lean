import ShardKV.Server.Exec

/-! What the expiry commands make of their operand. The deadline is exact integer
arithmetic where it is not refused; it is stored as a time whose zero value means that
there is none. Clock readings are Unix milliseconds here, before the epoch as well as
after it. -/

namespace ShardKV.Commands

open Access Data Resp Server Decimal

variable {S : Type} [Numeric S]

/-- The complement of `entry.expired` at any reading of the clock. -/
def liveMs (t : ℤ) (e : Entry S) : Bool :=
  match e.expireAt with
  | none => true
  | some d => decide (t < d)

inductive Expiry
  | expire
  | pexpire
  | expireat
  | pexpireat
  deriving DecidableEq

namespace Expiry

def name : Expiry → String
  | expire => "expire"
  | pexpire => "pexpire"
  | expireat => "expireat"
  | pexpireat => "pexpireat"

def unitMs : Expiry → ℤ
  | expire | expireat => 1000
  | pexpire | pexpireat => 1

def rel : Expiry → Bool
  | expire | pexpire => true
  | expireat | pexpireat => false

def handler : Expiry → View → Env → Args → Op S (Reply × List Args)
  | expire => cmdExpire
  | pexpire => cmdPExpire
  | expireat => cmdExpireAt
  | pexpireat => cmdPExpireAt

def serve (c : Expiry) (v : View) (nowMs : ℤ) (args : Args) : Op S (Reply × List Args) :=
  expireFrom c.name c.unitMs c.rel v nowMs args

/-- The handlers are served from the reading of their clock. -/
theorem handler_eq_serve (c : Expiry) (v : View) (env : Env) (args : Args) :
    (c.handler v env args : Op S _) = c.serve v env.now.val args := by
  cases c <;> rfl

/-- The reply to a deadline out of range. -/
def invalid (c : Expiry) : Reply :=
  errorReply ("ERR invalid expire time in '" ++ c.name ++ "' command")

/-- The deadline an operand names, as an integer. -/
def deadline (c : Expiry) (nowMs n : ℤ) : ℤ := n * c.unitMs + if c.rel then nowMs else 0

end Expiry

/-- `expireTime`: EXPIRETIME rounds toward zero. -/
def expireTime (seconds : Bool) (v : View) : Args → Op S Reply
  | [_, key] => .read (v.loc key) fun
    | none => pure (.int (-2))
    | some ⟨_, none⟩ => pure (.int (-1))
    | some ⟨_, some ms⟩ => pure (.int (if seconds then ms.tdiv 1000 else ms))
  | _ => pure syntaxErr

def cmdExpireTime (v : View) (args : Args) : Op S Reply := expireTime true v args

def cmdPExpireTime (v : View) (args : Args) : Op S Reply := expireTime false v args

/-- What a signed 64-bit word holds. -/
def Fits (z : ℤ) : Prop := minInt64 ≤ z ∧ z ≤ maxInt64
  deriving Decidable

/-- The Unix time of the zero instant. -/
def zeroInstantMs : ℤ := -62135596800000

/-- A deadline is refused when its operand overflows as it is scaled, or it does itself. -/
theorem deadlineMs_eq (c : Expiry) {nowMs n : ℤ} (hnow : Fits nowMs) (hn : Fits n) :
    deadlineMs nowMs n c.unitMs c.rel =
      if Fits (n * c.unitMs) ∧ Fits (c.deadline nowMs n) then some (c.deadline nowMs n) else none := by
  have hmax : maxInt64.tdiv 1000 = 9223372036854775 := by decide
  have hmin : minInt64.tdiv 1000 = -9223372036854775 := by decide
  unfold Fits at *
  unfold deadlineMs Expiry.deadline
  cases c with
  | expire =>
    simp only [Expiry.unitMs, Expiry.rel, hmax, hmin, ne_eq, OfNat.ofNat_ne_one, not_false_eq_true,
      if_true, Bool.not_true, Bool.false_eq_true, if_false]
    unfold minInt64 maxInt64 at *
    split_ifs <;> simp <;> omega
  | pexpire =>
    simp only [Expiry.unitMs, Expiry.rel, ne_eq, not_true_eq_false, if_true, Bool.not_true,
      Bool.false_eq_true, if_false, Option.bind_some, mul_one]
    unfold minInt64 maxInt64 at *
    split_ifs
    · omega
    · rfl
    · rw [add_comm]
    · omega
  | expireat =>
    simp only [Expiry.unitMs, Expiry.rel, hmax, hmin, ne_eq, OfNat.ofNat_ne_one, not_false_eq_true,
      if_true, Bool.not_false, Bool.false_eq_true, if_false, add_zero, and_self]
    unfold minInt64 maxInt64 at *
    split_ifs
    · omega
    · rfl
    · rfl
    · omega
  | pexpireat =>
    simp only [Expiry.unitMs, Expiry.rel, ne_eq, not_true_eq_false, if_true, Bool.not_false,
      Bool.false_eq_true, if_false, Option.bind_some, mul_one, add_zero, if_pos hn, and_self]

section Meaning

variable {v : View} {nowMs n : ℤ} {s : Dataset S} {key operand : Bytes} {e : Entry S}

/-- What the operand of an expiry command should mean to a key. -/
def MeansDeadline (c : Expiry) (v : View) (nowMs : ℤ) (s : Dataset S) (word key operand : Bytes)
    (n : ℤ) : Prop :=
  let r := (c.serve v nowMs [word, key, operand]).run (liveMs nowMs) s
  let d := c.deadline nowMs n
  (¬ Fits d ∧ r = ((c.invalid, []), s)) ∨
    r.1.1 = .int 1 ∧
      (∀ t, (seen (liveMs t) r.2 (v.loc key)).isSome ↔ t < d) ∧
      (∀ t word, t < d → ((cmdPExpireTime v [word, key]).run (liveMs t) r.2).1 = .int d) ∧
      ∃ shipped, r.1.2 = [shipped] ∧ ∀ u, (seen (liveMs u) s (v.loc key)).isSome →
        ∀ t, (seen (liveMs t) ((Expiry.pexpireat.serve v u shipped).run (liveMs u) s).2
          (v.loc key)).isSome ↔ (seen (liveMs t) r.2 (v.loc key)).isSome

theorem serve_refused (c : Expiry) (hn : parseInt64 operand = some n)
    (hnone : deadlineMs nowMs n c.unitMs c.rel = none) (word : Bytes) :
    (c.serve v nowMs [word, key, operand]).run (liveMs nowMs) s = ((c.invalid, []), s) := by
  unfold Expiry.serve expireFrom
  simp only [hn, hnone]
  rfl

/-- A deadline that is not refused is stored, whatever the clock read. -/
theorem serve_stored (c : Expiry) {t : ℤ} (hkey : seen (liveMs t) s (v.loc key) = some e)
    (hn : parseInt64 operand = some n) {d : ℤ} (hsome : deadlineMs nowMs n c.unitMs c.rel = some d)
    (word : Bytes) : (c.serve v nowMs [word, key, operand]).run (liveMs t) s =
      ((.int 1, [pexpireatForm key d]),
        Function.update s (v.loc key) (some { e with expireAt := unixMilli d })) := by
  unfold Expiry.serve expireFrom
  have hcond : parseExpireCond expireAlways [] = .ok expireAlways := rfl
  simp only [hn, hcond, hsome]
  rw [Prog.run_map, expireAtCond, Prog.run_edit, hkey]
  rfl

/-- When an entry with a stored deadline is live. -/
theorem seen_deadline (t d : ℤ) :
    (seen (liveMs t) (Function.update s (v.loc key) (some { e with expireAt := unixMilli d }))
      (v.loc key)).isSome ↔ d = zeroInstantMs ∨ t < d := by
  rw [seen, Function.update_self]
  unfold unixMilli zeroInstantMs
  split_ifs with hd
  · simp [liveMs, hd]
  · simp [liveMs, Option.isSome_filter, hd]

theorem pexpireTime_stored {t d : ℤ} (hd : d ≠ zeroInstantMs) (ht : t < d) (word : Bytes) :
    ((cmdPExpireTime v [word, key]).run (liveMs t)
      (Function.update s (v.loc key) (some { e with expireAt := unixMilli d }))).1 = .int d := by
  have hunix : unixMilli d = some d := if_neg hd
  have hseen : seen (liveMs t) (Function.update s (v.loc key) (some { e with expireAt := some d }))
      (v.loc key) = some { e with expireAt := some d } := by
    rw [seen, Function.update_self, Option.filter_some]
    simp [liveMs, ht]
  rw [hunix, cmdPExpireTime, expireTime, Prog.run_read, hseen]
  rfl

/-- The operand means what it should just when a deadline in range is not that of the
zero instant, and the operand does not overflow before the clock is added. -/
theorem expiry_means_deadline_iff (c : Expiry) (hkey : seen (liveMs nowMs) s (v.loc key) = some e)
    (hnow : Fits nowMs) (hn : parseInt64 operand = some n) (word : Bytes) :
    MeansDeadline c v nowMs s word key operand n ↔
      (Fits (c.deadline nowMs n) → Fits (n * c.unitMs) ∧ c.deadline nowMs n ≠ zeroInstantMs) := by
  have hdeadline := deadlineMs_eq c hnow (parseInt64_range hn)
  unfold MeansDeadline
  dsimp only
  generalize c.deadline nowMs n = d at hdeadline ⊢
  by_cases hok : Fits (n * c.unitMs) ∧ Fits d
  · rw [if_pos hok] at hdeadline
    rw [serve_stored c hkey hn hdeadline]
    constructor
    · rintro (⟨hnot, -⟩ | ⟨-, hlive, -⟩) -
      · exact absurd hok.2 hnot
      · refine ⟨hok.1, fun hzero => ?_⟩
        exact lt_irrefl d ((hlive d).mp ((seen_deadline d d).mpr (.inl hzero)))
    · intro hcond
      have hzero := (hcond hok.2).2
      refine .inr ⟨rfl, fun t => ?_, fun t word ht => pexpireTime_stored hzero ht word,
        _, rfl, fun u hu t => ?_⟩
      · rw [seen_deadline]
        exact or_iff_right hzero
      · obtain ⟨e', he'⟩ := Option.isSome_iff_exists.mp hu
        have hparse : parseInt64 (formatInt d) = some d := parseInt64_formatInt hok.2.1 hok.2.2
        rw [pexpireatForm, serve_stored .pexpireat he' hparse (deadlineMs_absolute u d), seen_deadline,
          seen_deadline]
  · rw [if_neg hok] at hdeadline
    rw [serve_refused c hn hdeadline]
    constructor
    · rintro (⟨hnot, -⟩ | ⟨hone, -⟩) hfits
      · exact absurd hfits hnot
      · exact absurd hone (by simp [Expiry.invalid, errorReply])
    · intro hcond
      exact .inl ⟨fun hfits => hok ⟨(hcond hfits).1, hfits⟩, rfl⟩

end Meaning

/-- A key without a deadline. -/
def oneKey : Dataset ℤ := Function.update emptyDataset (0, ascii "k") (some ⟨.str (ascii "v"), none⟩)

theorem pexpire_means_deadline :
    MeansDeadline .pexpire (Config.default.view 0) 5 oneKey (ascii "PEXPIRE") (ascii "k") (ascii "100")
      100 :=
  (expiry_means_deadline_iff (e := ⟨.str (ascii "v"), none⟩) .pexpire rfl (by decide) (by decide)
    (ascii "PEXPIRE")).mpr fun _ => by decide

/-- A deadline long ago that leaves the key without one. -/
theorem pexpireat_persists_key :
    ¬ ∀ (c : Expiry) (nowMs n : ℤ) (operand : Bytes), Fits nowMs → parseInt64 operand = some n →
      MeansDeadline c (Config.default.view 0) nowMs oneKey (ascii "PEXPIREAT") (ascii "k") operand n := by
  intro hall
  have hzero := hall .pexpireat 0 zeroInstantMs (ascii "-62135596800000") (by decide) (by decide)
  rcases hzero with ⟨hnot, -⟩ | ⟨-, hlive, -⟩
  · exact hnot (by decide)
  · exact absurd ((hlive 0).mp (by decide)) (by decide)

end ShardKV.Commands
