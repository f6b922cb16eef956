import ShardKV.Bytes.Wildcard
import ShardKV.Server.Operand

/-! The glob matcher. It walks pattern and subject side by side and keeps one place to
return to, behind the last star it met. A return is charged with the pattern that the
abandoned attempt scanned, and the charges have a budget. Positions are kept as what is
left of the pattern and of the subject from there. -/

namespace ShardKV.Server

open Wildcard

def globMaxStarGroups : ℕ := 1000

def globWorkFactor : ℕ := 1024

def globMaxWork : ℕ := 2 ^ 24

def eqByteFold (a b : UInt8) (fold : Bool) : Bool := a == b || (fold && lowerByte a == lowerByte b)

/-- One byte of a range, its ends in either order. -/
def inByteRange (lo hi c : UInt8) (fold : Bool) : Bool :=
  let (lo, hi) := if hi < lo then (hi, lo) else (lo, hi)
  let (lo, hi, b) := if fold then (lowerByte lo, lowerByte hi, lowerByte c) else (lo, hi, c)
  decide (lo ≤ b ∧ b ≤ hi)

/-- The loop of `globClass`: what is left behind the class, and whether a member matched. -/
def globClassLoop (c : UInt8) (fold : Bool) : Bool → Bytes → Bytes × Bool
  | found, [] => ([], found)
  | found, [a] => if a = 93 then ([], found) else ([], found || eqByteFold a c fold)
  | found, [a, b] =>
    if a = 92 then ([], found || eqByteFold b c fold)
    else if a = 93 then ([b], found)
    else globClassLoop c fold (found || eqByteFold a c fold) [b]
  | found, a :: b :: hi :: rest =>
    if a = 92 then globClassLoop c fold (found || eqByteFold b c fold) (hi :: rest)
    else if a = 93 then (b :: hi :: rest, found)
    else if b = 45 then globClassLoop c fold (found || inByteRange a hi c fold) rest
    else globClassLoop c fold (found || eqByteFold a c fold) (b :: hi :: rest)

/-- `globClass`, on what follows the opening bracket. -/
def globClass (pat : Bytes) (c : UInt8) (fold : Bool) : Bytes × Bool :=
  let neg := pat.head? == some 94
  let r := globClassLoop c fold false (if neg then pat.tail else pat)
  (r.1, r.2 != neg)

/-- `globToken`, on a pattern that starts with `p`. -/
def globToken (p : UInt8) (pat : Bytes) (c : UInt8) (fold : Bool) : Bytes × Bool :=
  if p = 63 then (pat, true)
  else if p = 91 then globClass pat c fold
  else if p = 92 then
    match pat with
    | x :: rest => (rest, eqByteFold x c fold)
    | [] => ([], eqByteFold p c fold)
  else (pat, eqByteFold p c fold)

def globMeta (p : UInt8) : Bool := p == 42 || p == 63 || p == 91 || p == 92

/-- The variables of the loop: the pattern and the subject from here on, the pattern from
the last star on with the subject from where that star's run ends, and the budget. -/
structure GlobState where
  pat : Bytes
  sub : Bytes
  star : Option (Bytes × Bytes)
  budget : ℤ

/-- What an iteration of the loop comes to. -/
inductive GlobNext
  | more (st : GlobState)
  | answer (matched : Bool) (budget : ℤ)

/-- Return to the last star, whose run takes one byte more. `stop` is the pattern behind
what the attempt scanned. -/
def GlobState.backtrack (st : GlobState) (stop : Bytes) : GlobNext :=
  match st.star with
  | none => .answer false st.budget
  | some (starPat, starSub) =>
    let budget := st.budget - (starPat.length - stop.length : ℤ)
    if budget < 0 then .answer false budget
    else .more ⟨starPat.tail, starSub.tail, some (starPat, starSub.tail), budget⟩

/-- One iteration of the loop of `globMatchCase`, and what comes behind the loop. -/
def GlobState.step (fold : Bool) (st : GlobState) : GlobNext :=
  match st.sub with
  | [] => .answer (st.pat.dropWhile (· == 42)).isEmpty st.budget
  | c :: sub =>
    match st.pat with
    | [] => st.backtrack []
    | p :: pat =>
      if p = c ∧ globMeta p = false then .more { st with pat := pat, sub := sub }
      else if p = 63 then .more { st with pat := pat, sub := sub }
      else if p = 42 then
        if pat = [] then .answer true st.budget
        else .more { st with pat := pat, star := some (p :: pat, c :: sub) }
      else if p = 91 ∨ p = 92 then
        let r := globToken p pat c fold
        if r.2 then .more { st with pat := r.1, sub := sub } else st.backtrack r.1
      else if fold ∧ lowerByte p = lowerByte c then .more { st with pat := pat, sub := sub }
      else st.backtrack pat

/-- The loop, for at most so many iterations. -/
def globLoop (fold : Bool) : ℕ → GlobState → Bool × ℤ
  | 0, st => (false, st.budget)
  | fuel + 1, st =>
    match st.step fold with
    | .answer matched budget => (matched, budget)
    | .more st => globLoop fold fuel st

/-- The loop of `globStarGroupsExceeded`. Every token takes a byte of the pattern. -/
def exceedsLoop : ℕ → ℕ → Bool → Bytes → Bool
  | 0, _, _, _ => false
  | _, _, _, [] => false
  | fuel + 1, groups, prevStar, p :: pat =>
    if p = 42 then
      if prevStar then exceedsLoop fuel groups true pat
      else if globMaxStarGroups < groups + 1 then true
      else exceedsLoop fuel (groups + 1) true pat
    else exceedsLoop fuel groups false (globToken p pat 0 false).1

def globStarGroupsExceeded (pattern : Bytes) : Bool := exceedsLoop pattern.length 0 false pattern

def globBudget (pattern s : Bytes) : ℕ :=
  min (globWorkFactor * (pattern.length + s.length)) globMaxWork

/-- How many iterations the loop can take. -/
def globFuel (pattern s : Bytes) : ℕ := (s.length + 2) * (pattern.length + 1)

/-- `globMatchCase`: the answer and the work charged for it. -/
def globMatchCase (pattern s : Bytes) (fold : Bool) : Bool × ℤ :=
  if globMaxStarGroups < pattern.length ∧ globStarGroupsExceeded pattern then (false, 0)
  else if s = [] then (decide (pattern = []), 0)
  else
    let granted : ℤ := globBudget pattern s
    let r := globLoop fold (globFuel pattern s) ⟨pattern, s, none, granted⟩
    (r.1, granted - r.2)

def globMatch (pattern s : Bytes) : Bool := (globMatchCase pattern s false).1

def globMatchFold (pattern s : Bytes) : Bool := (globMatchCase pattern s true).1

/-- A member of a class. -/
inductive Member
  | single (b : UInt8)
  | range (lo hi : UInt8)
  deriving DecidableEq

/-- A token that stands for one byte. -/
inductive GlobTok
  | any
  | lit (b : UInt8)
  | cls (neg : Bool) (members : List Member)
  deriving DecidableEq

def Member.accepts (fold : Bool) (c : UInt8) : Member → Bool
  | single b => eqByteFold b c fold
  | range lo hi => inByteRange lo hi c fold

def GlobTok.accepts (fold : Bool) : GlobTok → UInt8 → Bool
  | any, _ => true
  | lit b, c => eqByteFold b c fold
  | cls neg members, c => members.any (Member.accepts fold c) != neg

/-- The members of a class up to the first closing bracket that is not escaped, or up to
the end of the pattern, and what follows. A range takes three bytes whatever they are. -/
def classMembers : Bytes → List Member × Bytes
  | [] => ([], [])
  | [a] => if a = 93 then ([], []) else ([.single a], [])
  | [a, b] =>
    if a = 92 then ([.single b], [])
    else if a = 93 then ([], [b])
    else ((.single a :: (classMembers [b]).1, (classMembers [b]).2))
  | a :: b :: hi :: rest =>
    if a = 92 then (.single b :: (classMembers (hi :: rest)).1, (classMembers (hi :: rest)).2)
    else if a = 93 then ([], b :: hi :: rest)
    else if b = 45 then (.range a hi :: (classMembers rest).1, (classMembers rest).2)
    else (.single a :: (classMembers (b :: hi :: rest)).1, (classMembers (b :: hi :: rest)).2)

/-- The token at the front of a pattern that does not start with a star, and what follows. -/
def firstToken (p : UInt8) (pat : Bytes) : GlobTok × Bytes :=
  if p = 63 then (.any, pat)
  else if p = 91 then
    let neg := pat.head? == some 94
    let r := classMembers (if neg then pat.tail else pat)
    (.cls neg r.1, r.2)
  else if p = 92 then
    match pat with
    | x :: rest => (.lit x, rest)
    | [] => (.lit p, [])
  else (.lit p, pat)

/-- The items of a pattern. Each takes a byte of it. -/
def itemsFuel : ℕ → Bytes → List (Item GlobTok)
  | 0, _ => []
  | _, [] => []
  | fuel + 1, p :: pat =>
    if p = 42 then .star :: itemsFuel fuel pat
    else .one (firstToken p pat).1 :: itemsFuel fuel (firstToken p pat).2

def globItems (pattern : Bytes) : List (Item GlobTok) := itemsFuel pattern.length pattern

/-- The subject is in the language of the pattern. -/
def InGlob (fold : Bool) (pattern s : Bytes) : Prop :=
  Matches (fun t c => GlobTok.accepts fold t c = true) (globItems pattern) s

section Tokens

variable {fold : Bool} {c p : UInt8} {pat : Bytes}

theorem globClassLoop_eq (c : UInt8) (fold found : Bool) (b : Bytes) :
    globClassLoop c fold found b =
      ((classMembers b).2, found || (classMembers b).1.any (Member.accepts fold c)) := by
  fun_induction globClassLoop c fold found b with
  | case1 found => simp [classMembers]
  | case2 found => simp [classMembers]
  | case3 found a h => simp [classMembers, h, Member.accepts]
  | case4 found b => simp [classMembers, Member.accepts]
  | case5 found b => simp [classMembers]
  | case6 found a b h h' ih => simp [classMembers, h, h', ih, Member.accepts, Bool.or_assoc]
  | case7 found b hi rest ih => simp [classMembers, ih, Member.accepts, Bool.or_assoc]
  | case8 found b hi rest => simp [classMembers]
  | case9 found a hi rest h h' ih => simp [classMembers, h, h', ih, Member.accepts, Bool.or_assoc]
  | case10 found a b hi rest h h' hb ih =>
    simp [classMembers, h, h', hb, ih, Member.accepts, Bool.or_assoc]

theorem classMembers_length (b : Bytes) : (classMembers b).2.length ≤ b.length := by
  fun_induction classMembers b <;> simp at * <;> omega

theorem globToken_eq (p : UInt8) (pat : Bytes) (c : UInt8) (fold : Bool) :
    globToken p pat c fold = ((firstToken p pat).2, (firstToken p pat).1.accepts fold c) := by
  unfold globToken firstToken
  split_ifs with h63 h91 h92
  · rfl
  · simp [globClass, globClassLoop_eq, GlobTok.accepts]
  · cases pat <;> rfl
  · rfl

theorem firstToken_length (p : UInt8) (pat : Bytes) : (firstToken p pat).2.length ≤ pat.length := by
  unfold firstToken
  split_ifs with h63 h91 h92
  · exact le_rfl
  · dsimp only
    refine (classMembers_length _).trans ?_
    split_ifs
    · simp
    · exact le_rfl
  · cases pat <;> simp
  · exact le_rfl

theorem itemsFuel_eq {n : ℕ} {b : Bytes} (h : b.length ≤ n) : itemsFuel n b = globItems b := by
  have key : ∀ (n m : ℕ) (b : Bytes), b.length ≤ n → b.length ≤ m → itemsFuel n b = itemsFuel m b := by
    intro n
    induction n with
    | zero =>
      intro m b hn _
      obtain rfl := List.length_eq_zero_iff.mp (Nat.le_zero.mp hn)
      cases m <;> rfl
    | succ n ih =>
      intro m b hn hm
      cases b with
      | nil => cases m <;> rfl
      | cons p pat =>
        rw [List.length_cons] at hn hm
        obtain ⟨m, rfl⟩ : ∃ k, m = k + 1 := ⟨m - 1, by omega⟩
        have hrest := firstToken_length p pat
        rw [itemsFuel, itemsFuel, ih m pat (by omega) (by omega), ih m _ (by omega) (by omega)]
  exact key n b.length b h le_rfl

@[simp] theorem globItems_nil : globItems [] = [] := rfl

@[simp] theorem globItems_star : globItems (42 :: pat) = .star :: globItems pat := by
  rw [globItems, List.length_cons, itemsFuel, if_pos rfl, itemsFuel_eq le_rfl]

theorem globItems_one (h : p ≠ 42) :
    globItems (p :: pat) = .one (firstToken p pat).1 :: globItems (firstToken p pat).2 := by
  rw [globItems, List.length_cons, itemsFuel, if_neg h, itemsFuel_eq (firstToken_length p pat)]

/-- Nothing is left of a pattern behind its leading stars when it has only stars. -/
theorem only_stars_iff {pattern : Bytes} :
    (pattern.dropWhile (· == 42)).isEmpty = true ↔ ∀ i ∈ globItems pattern, i = .star := by
  induction pattern with
  | nil => simp
  | cons p pat ih =>
    by_cases hp : p = 42
    · subst hp
      simpa [List.dropWhile_cons] using ih
    · rw [globItems_one hp, List.dropWhile_cons_of_neg (by simpa using hp)]
      simp

theorem exceedsLoop_eq {n groups : ℕ} {prev : Bool} {b : Bytes} (hn : b.length ≤ n)
    (hg : groups ≤ globMaxStarGroups) :
    exceedsLoop n groups prev b =
      decide (globMaxStarGroups < groups + starGroups prev (globItems b)) := by
  induction n generalizing groups prev b with
  | zero =>
    obtain rfl := List.length_eq_zero_iff.mp (Nat.le_zero.mp hn)
    simp [exceedsLoop, starGroups, hg]
  | succ n ih =>
    cases b with
    | nil => simp [exceedsLoop, starGroups, hg]
    | cons p pat =>
      rw [List.length_cons] at hn
      by_cases hp : p = 42
      · subst hp
        rw [exceedsLoop, if_pos rfl, globItems_star, starGroups]
        cases prev with
        | true => rw [if_pos rfl, if_pos rfl, ih (by omega) hg, Nat.zero_add]
        | false =>
          simp only [Bool.false_eq_true, if_false]
          by_cases hmax : globMaxStarGroups < groups + 1
          · rw [if_pos hmax, eq_comm, decide_eq_true_eq]
            omega
          · rw [if_neg hmax, ih (by omega) (by omega), Nat.add_assoc]
      · have hrest := firstToken_length p pat
        rw [exceedsLoop, if_neg hp, globItems_one hp, starGroups, globToken_eq]
        exact ih (hrest.trans (by omega)) hg

theorem globStarGroupsExceeded_iff (pattern : Bytes) :
    globStarGroupsExceeded pattern = true ↔ globMaxStarGroups < starGroups false (globItems pattern) := by
  rw [globStarGroupsExceeded, exceedsLoop_eq le_rfl (Nat.zero_le _), decide_eq_true_eq, Nat.zero_add]

end Tokens

variable {fold : Bool}

/-- What an iteration can do. -/
inductive Stepped (fold : Bool) : GlobState → GlobNext → Prop
  | done (pat : Bytes) (star : Option (Bytes × Bytes)) (budget : ℤ) :
      Stepped fold ⟨pat, [], star, budget⟩ (.answer (pat.dropWhile (· == 42)).isEmpty budget)
  | token {p c : UInt8} {pat sub : Bytes} {star : Option (Bytes × Bytes)} {budget : ℤ} (hp : p ≠ 42)
      (h : (firstToken p pat).1.accepts fold c = true) :
      Stepped fold ⟨p :: pat, c :: sub, star, budget⟩ (.more ⟨(firstToken p pat).2, sub, star, budget⟩)
  | final (c : UInt8) (sub : Bytes) (star : Option (Bytes × Bytes)) (budget : ℤ) :
      Stepped fold ⟨[42], c :: sub, star, budget⟩ (.answer true budget)
  | star {c : UInt8} {pat sub : Bytes} {star : Option (Bytes × Bytes)} {budget : ℤ} (h : pat ≠ []) :
      Stepped fold ⟨42 :: pat, c :: sub, star, budget⟩
        (.more ⟨pat, c :: sub, some (42 :: pat, c :: sub), budget⟩)
  | fail {c : UInt8} {pat sub : Bytes} {star : Option (Bytes × Bytes)} {budget : ℤ}
      (h : ¬ InGlob fold pat (c :: sub)) (stop : Bytes) :
      Stepped fold ⟨pat, c :: sub, star, budget⟩
        (GlobState.backtrack ⟨pat, c :: sub, star, budget⟩ stop)

theorem inGlob_one {p c : UInt8} {pat sub : Bytes} (hp : p ≠ 42) :
    InGlob fold (p :: pat) (c :: sub) ↔
      (firstToken p pat).1.accepts fold c = true ∧ InGlob fold (firstToken p pat).2 sub := by
  rw [InGlob, globItems_one hp, matches_one_cons, InGlob]

/-- A token that is written out in the loop does what `globToken` would do. -/
theorem step_token {p c : UInt8} {pat sub : Bytes} {star : Option (Bytes × Bytes)} {budget : ℤ}
    (hp : p ≠ 42) :
    GlobState.step fold ⟨p :: pat, c :: sub, star, budget⟩ =
      if (firstToken p pat).1.accepts fold c then .more ⟨(firstToken p pat).2, sub, star, budget⟩
      else GlobState.backtrack ⟨p :: pat, c :: sub, star, budget⟩ (firstToken p pat).2 := by
  by_cases h63 : p = 63
  · subst h63
    simp [GlobState.step, globMeta, firstToken, GlobTok.accepts]
  by_cases hlook : p = 91 ∨ p = 92
  · have hmeta : ¬ (p = c ∧ globMeta p = false) := by
      rintro ⟨-, hm⟩
      rcases hlook with rfl | rfl <;> simp [globMeta] at hm
    simp only [GlobState.step, if_neg hmeta, if_neg h63, if_neg hp, if_pos hlook, globToken_eq]
  · rw [not_or] at hlook
    have hlit : firstToken p pat = (.lit p, pat) := by
      simp only [firstToken, if_neg h63, if_neg hlook.1, if_neg hlook.2]
    have hmeta : globMeta p = false := by simp [globMeta, hp, h63, hlook]
    simp only [GlobState.step, hmeta, if_neg h63, if_neg hp, hlook, or_self, if_false, hlit,
      GlobTok.accepts, eqByteFold, Bool.or_eq_true, Bool.and_eq_true, beq_iff_eq, and_true]
    by_cases heq : p = c
    · simp [heq]
    · simp only [heq, if_false, false_or]

theorem stepped (fold : Bool) (st : GlobState) : Stepped fold st (st.step fold) := by
  obtain ⟨pat, sub, star, budget⟩ := st
  cases sub with
  | nil => exact .done pat star budget
  | cons c sub =>
    cases pat with
    | nil =>
      refine .fail (fun hin => ?_) []
      exact absurd (matches_nil.mp hin) (List.cons_ne_nil c sub)
    | cons p pat =>
      by_cases h42 : p = 42
      · subst h42
        by_cases hpat : pat = []
        · subst hpat
          have hstep : GlobState.step fold ⟨[42], c :: sub, star, budget⟩ = .answer true budget := by
            simp [GlobState.step, globMeta]
          rw [hstep]
          exact .final c sub star budget
        · have hstep : GlobState.step fold ⟨42 :: pat, c :: sub, star, budget⟩ =
              .more ⟨pat, c :: sub, some (42 :: pat, c :: sub), budget⟩ := by
            simp [GlobState.step, globMeta, hpat]
          rw [hstep]
          exact .star hpat
      · rw [step_token h42]
        split_ifs with h
        · exact .token h42 h
        · exact .fail (fun hin => h ((inGlob_one h42).mp hin).1) _

/-- What holds between the iterations. Behind a star, `w` is what the attempt has taken for
the tokens `seg`; the subject is in the language of the pattern when the rest of the attempt
succeeds, or another attempt further on. -/
inductive GlobInv (fold : Bool) (pattern s : Bytes) (granted : ℤ) : GlobState → Prop
  | free {pat sub : Bytes} (hpat : pat.length ≤ pattern.length) (hsub : sub <:+ s)
      (h : InGlob fold pattern s ↔ InGlob fold pat sub) :
      GlobInv fold pattern s granted ⟨pat, sub, none, granted⟩
  | starred {pat sub pat₀ w starSub : Bytes} {seg : List GlobTok} {budget : ℤ}
      (hitems : globItems pat₀ = seg.map .one ++ globItems pat) (hstar : starSub = w ++ sub)
      (hw : w.length = seg.length) (hpat₀ : pat₀.length < pattern.length)
      (hpat : pat.length ≤ pat₀.length) (hsub : starSub <:+ s)
      (h : InGlob fold pattern s ↔
        InGlob fold pat sub ∨ ∃ c rest, starSub = c :: rest ∧ InGlob fold (42 :: pat₀) rest)
      (hspent : granted - budget ≤ pattern.length * (s.length - starSub.length : ℤ)) :
      GlobInv fold pattern s granted ⟨pat, sub, some (42 :: pat₀, starSub), budget⟩

/-- What an answer says. -/
structure Answered (fold : Bool) (pattern s : Bytes) (granted : ℤ) (matched : Bool) (budget : ℤ) :
    Prop where
  sound : matched = true → InGlob fold pattern s
  spent : granted - budget ≤ (pattern.length * s.length : ℤ)
  complete : (pattern.length * s.length : ℤ) ≤ granted → InGlob fold pattern s → matched = true

/-- Every iteration brings the loop nearer to its end. -/
def GlobState.remaining (pattern s : Bytes) (st : GlobState) : ℕ :=
  (match st.star with
    | none => s.length + 1
    | some (_, starSub) => starSub.length) * (pattern.length + 1) + st.pat.length

/-- What an iteration that starts with `bound` iterations to go has to come to. -/
def GlobNext.Good (fold : Bool) (pattern s : Bytes) (granted : ℤ) (bound : ℕ) : GlobNext → Prop
  | .more st => GlobInv fold pattern s granted st ∧ st.remaining pattern s < bound
  | .answer matched budget => Answered fold pattern s granted matched budget

variable {pattern s : Bytes} {granted budget : ℤ} {last : Option (Bytes × Bytes)}

theorem GlobInv.spent {st : GlobState} (h : GlobInv fold pattern s granted st) :
    granted - st.budget ≤ (pattern.length * s.length : ℤ) := by
  cases h with
  | free => simp; positivity
  | starred _ _ _ _ _ _ _ hspent =>
    refine hspent.trans ?_
    gcongr
    omega

/-- With the subject used up, another attempt further on has too little of it. -/
theorem GlobInv.done {pat : Bytes} (h : GlobInv fold pattern s granted ⟨pat, [], last, budget⟩) :
    Answered fold pattern s granted (pat.dropWhile (· == 42)).isEmpty budget := by
  have hstars : InGlob fold pat [] ↔ (pat.dropWhile (· == 42)).isEmpty = true :=
    matches_nil_right.trans only_stars_iff.symm
  have hiff : InGlob fold pattern s ↔ InGlob fold pat [] := by
    cases h with
    | free _ _ h => exact h
    | starred hitems hstar hw _ _ _ h _ =>
      rw [h]
      refine or_iff_left ?_
      rintro ⟨c, rest, hcons, hin⟩
      rw [InGlob, globItems_star, hitems] at hin
      obtain ⟨r, hr, hm⟩ := matches_star_iff.mp hin
      obtain ⟨w', r', rfl, hw', -⟩ := matches_segment hm
      have hlen := congrArg List.length (hstar.symm.trans hcons)
      have hle := hr.length_le
      rw [List.append_nil, List.length_cons] at hlen
      rw [List.length_append] at hle
      omega
  exact ⟨fun hm => hiff.mpr (hstars.mpr hm), h.spent, fun _ hin => hstars.mp (hiff.mp hin)⟩

theorem GlobInv.token {p c : UInt8} {pat sub : Bytes} (hp : p ≠ 42)
    (hacc : (firstToken p pat).1.accepts fold c = true)
    (h : GlobInv fold pattern s granted ⟨p :: pat, c :: sub, last, budget⟩) :
    GlobInv fold pattern s granted ⟨(firstToken p pat).2, sub, last, budget⟩ := by
  have hlen := firstToken_length p pat
  have hone : InGlob fold (p :: pat) (c :: sub) ↔ InGlob fold (firstToken p pat).2 sub := by
    rw [inGlob_one hp, and_iff_right hacc]
  cases h with
  | free hpat hsub h =>
    rw [List.length_cons] at hpat
    exact .free (by omega) ((List.suffix_cons c sub).trans hsub) (h.trans hone)
  | @starred _ _ pat₀ w starSub seg _ hitems hstar hw hpat₀ hpat hsub h hspent =>
    rw [List.length_cons] at hpat
    have hitems' : globItems pat₀ =
        (seg ++ [(firstToken p pat).1]).map .one ++ globItems (firstToken p pat).2 := by
      rw [hitems, globItems_one hp]
      simp
    have hstar' : starSub = (w ++ [c]) ++ sub := by simp [hstar]
    exact .starred hitems' hstar' (by simp [hw]) hpat₀ (by omega) hsub
      (h.trans (or_congr hone Iff.rfl)) hspent

theorem GlobInv.final {c : UInt8} {sub : Bytes}
    (h : GlobInv fold pattern s granted ⟨[42], c :: sub, last, budget⟩) :
    Answered fold pattern s granted true budget := by
  have hin : InGlob fold [42] (c :: sub) := matches_star_end
  refine ⟨fun _ => ?_, h.spent, fun _ _ => rfl⟩
  cases h with
  | free _ _ h => exact h.mpr hin
  | starred _ _ _ _ _ _ h _ => exact h.mpr (.inl hin)

theorem inGlob_star {pat sub : Bytes} :
    InGlob fold (42 :: pat) sub ↔
      InGlob fold pat sub ∨ ∃ c rest, sub = c :: rest ∧ InGlob fold (42 :: pat) rest := by
  simp only [InGlob, globItems_star]
  cases sub with
  | nil => simp
  | cons c sub => simp [matches_star_cons]

/-- An attempt that has taken nothing yet. -/
theorem GlobInv.fresh {pat₀ sub : Bytes} (hpat₀ : pat₀.length < pattern.length) (hsub : sub <:+ s)
    (h : InGlob fold pattern s ↔ InGlob fold (42 :: pat₀) sub)
    (hspent : granted - budget ≤ pattern.length * (s.length - sub.length : ℤ)) :
    GlobInv fold pattern s granted ⟨pat₀, sub, some (42 :: pat₀, sub), budget⟩ :=
  have hitems : globItems pat₀ = ([] : List GlobTok).map .one ++ globItems pat₀ := rfl
  .starred hitems (List.nil_append sub).symm rfl hpat₀ le_rfl hsub (h.trans inGlob_star) hspent

/-- A new star takes the place of the last one: whatever the last one could still reach, the
new one reaches. -/
theorem GlobInv.star {c : UInt8} {pat sub : Bytes}
    (h : GlobInv fold pattern s granted ⟨42 :: pat, c :: sub, last, budget⟩) :
    GlobInv fold pattern s granted ⟨pat, c :: sub, some (42 :: pat, c :: sub), budget⟩ := by
  cases h with
  | free hpat hsub h =>
    rw [List.length_cons] at hpat
    refine .fresh (by omega) hsub h ?_
    have hle : ((c :: sub).length : ℤ) ≤ s.length := by exact_mod_cast hsub.length_le
    rw [sub_self]
    exact mul_nonneg (by positivity) (sub_nonneg.mpr hle)
  | @starred _ _ pat₀ w starSub seg _ hitems hstar hw hpat₀ hpat hsub h hspent =>
    rw [List.length_cons] at hpat
    have hsuf : c :: sub <:+ starSub := hstar ▸ List.suffix_append w (c :: sub)
    have hlater : (∃ c' rest, starSub = c' :: rest ∧ InGlob fold (42 :: pat₀) rest) →
        InGlob fold (42 :: pat) (c :: sub) := by
      rintro ⟨c', rest, hcons, hin⟩
      rw [InGlob, globItems_star, hitems] at hin
      obtain ⟨r, hr, hm⟩ := matches_star_iff.mp hin
      rw [globItems_star] at hm
      rw [InGlob, globItems_star]
      refine matches_star_of_later hw ?_ hm
      rw [← hstar, hcons]
      exact hr.trans (List.suffix_cons c' rest)
    refine .fresh (by omega) (hsuf.trans hsub) (h.trans (or_iff_left_of_imp hlater)) ?_
    have hle : ((c :: sub).length : ℤ) ≤ starSub.length := by exact_mod_cast hsuf.length_le
    exact hspent.trans (mul_le_mul_of_nonneg_left (by linarith) (by positivity))

/-- The last star's run takes one byte more. -/
theorem GlobInv.backtrack {c : UInt8} {pat sub stop : Bytes} (hfail : ¬ InGlob fold pat (c :: sub))
    (h : GlobInv fold pattern s granted ⟨pat, c :: sub, last, budget⟩) :
    (GlobState.backtrack ⟨pat, c :: sub, last, budget⟩ stop).Good fold pattern s granted
      (GlobState.remaining pattern s ⟨pat, c :: sub, last, budget⟩) := by
  cases h with
  | free hpat hsub h =>
    refine ⟨fun hm => Bool.noConfusion hm, ?_, fun _ hin => absurd (h.mp hin) hfail⟩
    rw [sub_self]
    positivity
  | @starred _ _ pat₀ w starSub seg _ hitems hstar hw hpat₀ hpat hsub h hspent =>
    obtain ⟨x, y, rfl⟩ : ∃ x y, starSub = x :: y := by
      rw [hstar]
      cases w <;> simp
    have hy : y <:+ s := (List.suffix_cons x y).trans hsub
    have hle : ((x :: y).length : ℤ) ≤ s.length := by exact_mod_cast hsub.length_le
    have hnext : InGlob fold pattern s ↔ InGlob fold (42 :: pat₀) y := by
      rw [h, or_iff_right hfail]
      constructor
      · rintro ⟨c', rest, heq, hin⟩
        cases heq
        exact hin
      · exact fun hin => ⟨x, y, rfl, hin⟩
    -- the charge is at most the pattern's length, and the run has grown by one
    have hcharge : granted - (budget - ((42 :: pat₀ : Bytes).length - stop.length : ℤ)) ≤
        pattern.length * (s.length - y.length : ℤ) := by
      rw [List.length_cons, Nat.cast_add, Nat.cast_one] at hspent ⊢
      have hp : (pat₀.length : ℤ) + 1 ≤ pattern.length := by exact_mod_cast hpat₀
      have hexp : (pattern.length : ℤ) * (s.length - y.length) =
          pattern.length * (s.length - (y.length + 1)) + pattern.length := by ring
      rw [hexp]
      omega
    have hall : (pattern.length : ℤ) * (s.length - y.length) ≤ pattern.length * s.length :=
      mul_le_mul_of_nonneg_left (by omega) (by positivity)
    simp only [GlobState.backtrack]
    split_ifs with hneg
    · refine ⟨fun hm => Bool.noConfusion hm, hcharge.trans hall, fun hfits _ => ?_⟩
      omega
    · refine ⟨.fresh hpat₀ hy hnext hcharge, ?_⟩
      simp only [GlobState.remaining, List.tail_cons, List.length_cons]
      have : (y.length + 1) * (pattern.length + 1) =
          y.length * (pattern.length + 1) + (pattern.length + 1) := by ring
      omega

theorem GlobInv.step {st : GlobState} (h : GlobInv fold pattern s granted st) :
    (st.step fold).Good fold pattern s granted (st.remaining pattern s) := by
  generalize hn : st.step fold = next
  have hs : Stepped fold st next := hn ▸ stepped fold st
  cases hs with
  | done pat star budget => exact h.done
  | @token p c pat sub star budget hp hacc =>
    refine ⟨h.token hp hacc, ?_⟩
    have := firstToken_length p pat
    simp only [GlobState.remaining, List.length_cons]
    omega
  | final c sub star budget => exact h.final
  | @star c pat sub star budget hpat =>
    refine ⟨h.star, ?_⟩
    cases h with
    | free _ hsub _ =>
      have hle := Nat.mul_le_mul_right (pattern.length + 1) (hsub.length_le.trans (Nat.le_add_right _ 1))
      simp only [GlobState.remaining, List.length_cons] at hle ⊢
      omega
    | @starred _ _ _ w _ _ _ _ hstar =>
      have hsuf := hstar ▸ (List.suffix_append w (c :: sub)).length_le
      have hle := Nat.mul_le_mul_right (pattern.length + 1) hsuf
      simp only [GlobState.remaining, List.length_cons] at hle ⊢
      omega
  | fail hfail stop => exact h.backtrack hfail

/-- The loop answers, and what it answers is so. -/
theorem GlobInv.loop {fuel : ℕ} {st : GlobState} (h : GlobInv fold pattern s granted st)
    (hf : st.remaining pattern s < fuel) :
    Answered fold pattern s granted (globLoop fold fuel st).1 (globLoop fold fuel st).2 := by
  induction fuel generalizing st with
  | zero => omega
  | succ fuel ih =>
    have hstep := h.step
    rw [globLoop]
    cases hn : st.step fold with rw [hn] at hstep
    | answer matched budget => exact hstep
    | more st' => exact ih hstep.1 (by have := hstep.2; omega)

theorem globLoop_answered (fold : Bool) (pattern s : Bytes) :
    let r := globLoop fold (globFuel pattern s) ⟨pattern, s, none, globBudget pattern s⟩
    Answered fold pattern s (globBudget pattern s) r.1 r.2 := by
  have hinit : GlobInv fold pattern s (globBudget pattern s)
      ⟨pattern, s, none, globBudget pattern s⟩ := .free le_rfl (List.suffix_refl s) Iff.rfl
  refine hinit.loop ?_
  have : (s.length + 2) * (pattern.length + 1) =
      (s.length + 1) * (pattern.length + 1) + (pattern.length + 1) := by ring
  simp only [GlobState.remaining, globFuel]
  omega

theorem globMatchCase_work (pattern s : Bytes) (fold : Bool) :
    (globMatchCase pattern s fold).2 ≤ (pattern.length * s.length : ℤ) := by
  unfold globMatchCase
  split_ifs
  · positivity
  · positivity
  · exact (globLoop_answered fold pattern s).spent

theorem globMatch_eq_loop {pattern s : Bytes}
    (hg : starGroups false (globItems pattern) ≤ globMaxStarGroups) (hs : s ≠ []) :
    globMatch pattern s =
      (globLoop false (globFuel pattern s) ⟨pattern, s, none, globBudget pattern s⟩).1 := by
  have hexceeds : ¬ (globMaxStarGroups < pattern.length ∧ globStarGroupsExceeded pattern = true) := by
    rintro ⟨-, h⟩
    exact absurd ((globStarGroupsExceeded_iff pattern).mp h) (not_lt.mpr hg)
  simp only [globMatch, globMatchCase, if_neg hexceeds, if_neg hs]

/-- Within its bound on stars, the matcher accepts subjects of the pattern's language only;
it accepts all of them when the work that they can take is within the budget; and it never
does more work than the product of the two lengths. -/
theorem globMatch_exact (pattern s : Bytes) :
    (starGroups false (globItems pattern) ≤ globMaxStarGroups → s ≠ [] →
      (globMatch pattern s = true → InGlob false pattern s) ∧
        (pattern.length * s.length ≤
            min (globWorkFactor * (pattern.length + s.length)) globMaxWork →
          (globMatch pattern s = true ↔ InGlob false pattern s))) ∧
      ∀ fold, (globMatchCase pattern s fold).2 ≤ (pattern.length * s.length : ℤ) := by
  refine ⟨fun hg hs => ?_, globMatchCase_work pattern s⟩
  have h := globLoop_answered false pattern s
  rw [globMatch_eq_loop hg hs]
  refine ⟨h.sound, fun hfits => ⟨h.sound, h.complete ?_⟩⟩
  exact_mod_cast hfits

end ShardKV.Server
