import ShardKV.Resp.Roundtrip

/-! The append-only log: an append serialises a command onto the end of the file,
and loading replays the file until the first record that does not read. The file
is the bytes written so far; a writer in front of it holds what is not flushed. -/

namespace ShardKV.Aof

open Resp

/-- How eagerly the log reaches the disk. -/
inductive SyncPolicy where
  | everySec | always | no
  deriving DecidableEq, Repr

/-- An open log: the file, the unflushed tail, and the size accounting. -/
structure Log where
  file : Bytes
  pending : Bytes
  policy : SyncPolicy
  closed : Bool
  size : ℕ
  baseSize : ℕ

/-- Open for appending: the existing file is kept as it is and becomes the base size. -/
def openLog (file : Bytes) (policy : SyncPolicy) : Log :=
  { file, pending := [], policy, closed := false, size := file.length, baseSize := file.length }

namespace Log

def flush (l : Log) : Log :=
  if l.closed then l else { l with file := l.file ++ l.pending, pending := [] }

def append (l : Log) (args : Args) : Log :=
  if l.closed then l
  else
    let l' := { l with pending := l.pending ++ writeCommand args, size := l.size + commandSize args }
    if l.policy = .always then l'.flush else l'

def appendAll (l : Log) (cmds : List Args) : Log := cmds.foldl append l

def close (l : Log) : Log := if l.closed then l else { l.flush with closed := true }

/-- Everything the log has accepted, flushed or not. -/
def written (l : Log) : Bytes := l.file ++ l.pending

end Log

/-- Replay a file, given the reads it answers; a missing file holds no commands. -/
def loadFuel : ℕ → Reader → List Args
  | 0, _ => []
  | fuel + 1, r =>
    match r.readCommand with
    | (.error _, _) => []
    | (.ok [], r') => loadFuel fuel r'
    | (.ok (a :: as), r') => (a :: as) :: loadFuel fuel r'

def load : Option (List Bytes) → List Args
  | none => []
  | some reads => loadFuel (reads.flatten.length + 1) (newReader reads)

/-! ### What is in the file -/

def encode (cmds : List Args) : Bytes := (cmds.map writeCommand).flatten

@[simp] theorem encode_nil : encode [] = [] := rfl

@[simp] theorem encode_cons (c : Args) (cs : List Args) :
    encode (c :: cs) = writeCommand c ++ encode cs := rfl

@[simp] theorem encode_append (xs ys : List Args) : encode (xs ++ ys) = encode xs ++ encode ys := by
  simp [encode]

@[simp] theorem written_openLog (file : Bytes) (p : SyncPolicy) : (openLog file p).written = file := by
  simp [Log.written, openLog]

namespace Log

@[simp] theorem append_closed (l : Log) (args : Args) : (l.append args).closed = l.closed := by
  unfold append flush
  split_ifs <;> simp_all

theorem written_append (l : Log) (args : Args) (h : l.closed = false) :
    (l.append args).written = l.written ++ writeCommand args := by
  unfold append flush written
  split_ifs <;> simp_all

theorem written_appendAll (l : Log) (cmds : List Args) (h : l.closed = false) :
    (l.appendAll cmds).written = l.written ++ encode cmds := by
  induction cmds generalizing l with
  | nil => simp [appendAll]
  | cons c cs ih =>
    have := ih (l.append c) (by simp [h])
    simp only [appendAll, List.foldl_cons] at this ⊢
    rw [this, written_append l c h, encode_cons, List.append_assoc]

theorem appendAll_closed (l : Log) (cmds : List Args) : (l.appendAll cmds).closed = l.closed := by
  induction cmds generalizing l with
  | nil => rfl
  | cons c cs ih =>
    have := ih (l.append c)
    simpa [appendAll] using this

/-- Closing puts everything accepted into the file. -/
theorem close_file (l : Log) (h : l.closed = false) : l.close.file = l.written := by
  simp [close, flush, h, written]

end Log

/-! ### What loading finds -/

/-- The commands of a byte string up to the first that does not read. -/
def commandsFuel : ℕ → ByteStream → List Args
  | 0, _ => []
  | fuel + 1, s =>
    match parse s with
    | (.error _, _) => []
    | (.ok [], s') => commandsFuel fuel s'
    | (.ok (a :: as), s') => (a :: as) :: commandsFuel fuel s'

def commands (s : ByteStream) : List Args := commandsFuel (s.rest.length + 1) s

theorem loadFuel_eq (fuel : ℕ) (r : Reader) : loadFuel fuel r = commandsFuel fuel r.view := by
  induction fuel generalizing r with
  | zero => rfl
  | succ fuel ih =>
    rw [loadFuel, commandsFuel, r.readCommand_view]
    rcases r.readCommand with ⟨res, r'⟩
    rcases res with e | args
    · rfl
    · rcases args with _ | ⟨a, as⟩
      · exact ih r'
      · exact congrArg _ (ih r')

/-- Loading does not depend on how the file's bytes are returned by its reads. -/
theorem load_eq (reads : List Bytes) : load (some reads) = commands ⟨reads.flatten, 0⟩ := by
  rw [load, loadFuel_eq]
  rfl

theorem commandsFuel_eq (fuel : ℕ) (s : ByteStream) (hf : s.rest.length < fuel) :
    commandsFuel fuel s = commands s := by
  have key : ∀ m fuel (s : ByteStream), s.rest.length < fuel → s.rest.length < m →
      commandsFuel fuel s = commandsFuel m s := by
    intro m
    induction m with
    | zero => intro _ _ _ h; omega
    | succ m ih =>
      intro fuel s hf hm
      obtain ⟨fuel, rfl⟩ : ∃ f, fuel = f + 1 := ⟨fuel - 1, by omega⟩
      rw [commandsFuel, commandsFuel]
      rcases hp : parse s with ⟨res, s'⟩
      rcases res with e | args
      · rfl
      · have hlt := parseFuel_lt _ s s' args hp
        have := ih fuel s' (by omega) (by omega)
        rcases args with _ | ⟨a, as⟩
        · exact this
        · exact congrArg _ this
  exact key _ _ _ hf (Nat.lt_succ_self _)

theorem commands_eq (s : ByteStream) :
    commands s = match parse s with
      | (.error _, _) => []
      | (.ok [], s') => commands s'
      | (.ok (a :: as), s') => (a :: as) :: commands s' := by
  rw [commands, commandsFuel]
  rcases hp : parse s with ⟨res, s'⟩
  rcases res with e | args
  · rfl
  · have hlt := parseFuel_lt _ s s' args hp
    rcases args with _ | ⟨a, as⟩
    · exact commandsFuel_eq _ _ hlt
    · exact congrArg _ (commandsFuel_eq _ _ hlt)

theorem commands_writeCommand {args : Args} (h : WellFormed args) (rest : Bytes) (c : ℕ) :
    commands ⟨writeCommand args ++ rest, c⟩ = args :: commands ⟨rest, c + commandSize args⟩ := by
  rw [commands_eq, parse_writeCommand h]
  obtain ⟨a, as, rfl⟩ := List.exists_cons_of_ne_nil h.ne_nil
  rfl

/-- Whole records at the front of a file are loaded in order, whatever follows them. -/
theorem commands_encode_append {cmds : List Args} (h : ∀ c ∈ cmds, WellFormed c) (rest : Bytes)
    (n : ℕ) : ∃ m, commands ⟨encode cmds ++ rest, n⟩ = cmds ++ commands ⟨rest, m⟩ := by
  induction cmds generalizing n with
  | nil => exact ⟨n, rfl⟩
  | cons c cs ih =>
    obtain ⟨m, hm⟩ := ih (fun x hx => h x (by simp [hx])) (n + commandSize c)
    refine ⟨m, ?_⟩
    rw [encode_cons, List.append_assoc, commands_writeCommand (h c (by simp)), hm, List.cons_append]

theorem commands_nil (n : ℕ) : commands ⟨[], n⟩ = [] := by
  rw [commands_eq, parse, parseFuel_nil]

theorem commands_encode {cmds : List Args} (h : ∀ c ∈ cmds, WellFormed c) (n : ℕ) :
    commands ⟨encode cmds, n⟩ = cmds := by
  obtain ⟨m, hm⟩ := commands_encode_append h [] n
  rwa [List.append_nil, commands_nil, List.append_nil] at hm

end ShardKV.Aof
