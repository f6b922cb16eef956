import ShardKV.Resp.Reply
import ShardKV.Resp.Roundtrip

/-! The reply writer and the decoder. A tree of replies is written depth first, each array as a
header with the number of its elements and then the elements. In RESP2 a null is a bulk string or
an array of length -1; RESP3 has one null of its own. The decoder reads the tree back, whatever
follows it, and consumes what was written. -/

namespace ShardKV.Resp

open Server Decimal

/-- A tree of replies as a handler writes it. -/
inductive ReplyTree
  | int (n : ℤ)
  | bulk (b : Bytes)
  | null
  | nullArray
  | array (rs : List ReplyTree)

def protoRESP3 : ℕ := 3

def writeInt (n : ℤ) : Bytes := 58 :: formatInt n ++ crlf

def writeNull (proto : ℕ) : Bytes := if protoRESP3 ≤ proto then 95 :: crlf else [36, 45, 49] ++ crlf

def writeNullArray (proto : ℕ) : Bytes := if protoRESP3 ≤ proto then 95 :: crlf else [42, 45, 49] ++ crlf

mutual

/-- What the writer's methods append for a tree. -/
def ReplyTree.write (proto : ℕ) : ReplyTree → Bytes
  | .int n => writeInt n
  | .bulk b => writeBulk b
  | .null => writeNull proto
  | .nullArray => writeNullArray proto
  | .array rs => writeArrayHeader rs.length ++ ReplyTree.writeAll proto rs

def ReplyTree.writeAll (proto : ℕ) : List ReplyTree → Bytes
  | [] => []
  | r :: rs => r.write proto ++ ReplyTree.writeAll proto rs

end

mutual

/-- The value that a tree stands for; the two nulls are one. -/
def ReplyTree.value {D : Type} : ReplyTree → ReplyValue D
  | .int n => .int n
  | .bulk b => .text b
  | .null => .null
  | .nullArray => .null
  | .array rs => .list (ReplyTree.values rs)

def ReplyTree.values {D : Type} : List ReplyTree → List (ReplyValue D)
  | [] => []
  | r :: rs => r.value :: ReplyTree.values rs

end

mutual

/-- A tree inside `depth` arrays whose integers are 64-bit and whose lengths the decoder accepts. -/
def ReplyTree.Fits (depth : ℕ) : ReplyTree → Prop
  | .int n => depth ≤ maxReplyDepth ∧ minInt64 ≤ n ∧ n ≤ maxInt64
  | .bulk b => depth ≤ maxReplyDepth ∧ b.length ≤ maxBulkLen
  | .null => depth ≤ maxReplyDepth
  | .nullArray => depth ≤ maxReplyDepth
  | .array rs => depth ≤ maxReplyDepth ∧ rs.length ≤ maxMultiBulk ∧ ReplyTree.AllFit (depth + 1) rs

def ReplyTree.AllFit (depth : ℕ) : List ReplyTree → Prop
  | [] => True
  | r :: rs => r.Fits depth ∧ ReplyTree.AllFit depth rs

end

section Decoding

variable {D : Type} (parseDouble : Bytes → Option D)

/-- A line without line ends, and its terminator. -/
theorem readLine_crlf (line : Bytes) (h : ∀ b ∈ line, isCRLF b = false) (rest : Bytes) (n : ℕ) :
    ByteStream.readLine ⟨line ++ crlf ++ rest, n⟩ = (.ok line, ⟨rest, n + (line ++ crlf).length⟩) := by
  have hlf : (10 : UInt8) ∉ line ++ [13] := by
    intro hmem
    rcases List.mem_append.1 hmem with hmem | hmem
    · exact absurd (h 10 hmem) (by decide)
    · exact absurd hmem (by decide)
  have hsplit : splitLine (line ++ crlf ++ rest) = some (line ++ crlf, rest) := by
    have := splitLine_of_not_mem (b := rest) hlf
    simpa [crlf] using this
  have htrim : trimCRLF (line ++ crlf) = line := by
    rw [trimCRLF, crlf, show ([13, 10] : Bytes) = [13] ++ [10] from rfl, ← List.append_assoc,
      List.rdropWhile_concat_pos _ _ _ (by decide), List.rdropWhile_concat_pos _ _ _ (by decide),
      List.rdropWhile_eq_self_iff]
    intro hne
    simp [h _ (List.getLast_mem hne)]
  rw [ByteStream.readLine, hsplit]
  dsimp only
  rw [htrim]

theorem isCRLF_of_isDigit {b : UInt8} (h : isDigit b = true) : isCRLF b = false := by
  have h10 : b ≠ 10 := isDigit_ne h (by decide)
  have h13 : b ≠ 13 := isDigit_ne h (by decide)
  simp [isCRLF, h10, h13]

theorem isCRLF_itoa {n : ℕ} {b : UInt8} (h : b ∈ itoa n) : isCRLF b = false :=
  isCRLF_of_isDigit (isDigit_of_mem_itoa h)

theorem isCRLF_formatInt {z : ℤ} {b : UInt8} (h : b ∈ formatInt z) : isCRLF b = false := by
  unfold formatInt at h
  split_ifs at h
  · rcases List.mem_cons.1 h with rfl | h
    · rfl
    · exact isCRLF_itoa h
  · exact isCRLF_itoa h

theorem readLine_writeLen (kind : UInt8) (hkind : isCRLF kind = false) (k : ℕ) (rest : Bytes) (n : ℕ) :
    ByteStream.readLine ⟨writeLen kind k ++ rest, n⟩ =
      (.ok (kind :: itoa k), ⟨rest, n + (writeLen kind k).length⟩) := by
  refine readLine_crlf (kind :: itoa k) (fun b hb => ?_) rest n
  rcases List.mem_cons.1 hb with rfl | hb
  · exact hkind
  · exact isCRLF_itoa hb

/-- The reading of what was written: the value, and the rest of the stream. -/
def Reading.Returns {α : Type} (r : Reading α) (v : α) (s : ByteStream) : Prop := r.outcome = .ok v ∧ r.rest = s

variable {fuel depth n : ℕ} {rest : Bytes}

theorem readReply_line {s s' : ByteStream} {kind : UInt8} {body : Bytes} {v : ReplyValue D}
    (hdepth : depth ≤ maxReplyDepth) (hline : s.readLine = (.ok (kind :: body), s'))
    (hv : scalarReply parseDouble kind body = some (.ok v)) :
    (readReply parseDouble (fuel + 1) depth s).Returns v s' := by
  rw [readReply, if_neg (Nat.not_lt.2 hdepth), hline]
  dsimp only
  rw [hv]
  exact ⟨rfl, rfl⟩

theorem readReply_int {z : ℤ} (hdepth : depth ≤ maxReplyDepth) (hmin : minInt64 ≤ z) (hmax : z ≤ maxInt64) :
    (readReply parseDouble (fuel + 1) depth ⟨writeInt z ++ rest, n⟩).Returns (.int z)
      ⟨rest, n + (writeInt z).length⟩ := by
  refine readReply_line parseDouble hdepth (readLine_crlf (58 :: formatInt z) (fun b hb => ?_) rest n) ?_
  · rcases List.mem_cons.1 hb with rfl | hb
    · rfl
    · exact isCRLF_formatInt hb
  · rw [scalarReply, if_neg (by decide), if_neg (by decide), if_pos rfl, parseInt64_formatInt hmin hmax]

/-- The header of a bulk string or of an array, with no scalar's type. -/
theorem readReply_bulk_line {s s' : ByteStream} {body : Bytes} (hdepth : depth ≤ maxReplyDepth)
    (hline : s.readLine = (.ok (36 :: body), s')) : readReply parseDouble (fuel + 1) depth s =
      .leaf (readReplyBulk body false s').1 (readReplyBulk (D := D) body false s').2 := by
  rw [readReply, if_neg (Nat.not_lt.2 hdepth), hline]
  rfl

theorem readReply_bulk {b : Bytes} (hdepth : depth ≤ maxReplyDepth) (hb : b.length ≤ maxBulkLen) :
    (readReply parseDouble (fuel + 1) depth ⟨writeBulk b ++ rest, n⟩).Returns (.text b)
      ⟨rest, n + (writeBulk b).length⟩ := by
  have hline := readLine_writeLen 36 rfl b.length (b ++ crlf ++ rest) n
  rw [← List.append_assoc, ← List.append_assoc] at hline
  rw [writeBulk, readReply_bulk_line parseDouble hdepth hline]
  have hparse : parseInt64 (itoa b.length) = some (b.length : ℤ) := parseInt64_itoa (hb.trans (by decide))
  have hread : ByteStream.readFull (b.length + 2) ⟨b ++ crlf ++ rest, n + (writeLen 36 b.length).length⟩ =
      (.ok (b ++ crlf), ⟨rest, n + (writeLen 36 b.length).length + (b.length + 2)⟩) := by
    have hlength : (b ++ crlf).length = b.length + 2 := List.length_append
    rw [ByteStream.readFull, if_pos (by simp [crlf]), ← hlength, List.take_left, List.drop_left]
  have hbulk : readReplyBulk (D := D) (itoa b.length) false ⟨b ++ crlf ++ rest, n + (writeLen 36 b.length).length⟩ =
      (.ok (.text b), ⟨rest, n + (writeLen 36 b.length).length + (b.length + 2)⟩) := by
    rw [readReplyBulk, hparse]
    dsimp only
    rw [if_neg (by omega), if_neg (by omega), Int.toNat_natCast, hread]
    simp
  rw [hbulk]
  refine ⟨rfl, ?_⟩
  simp only [Reading.leaf, List.length_append, crlf, List.length_cons, List.length_nil]
  congr 1
  omega

theorem readReply_null (proto : ℕ) (hdepth : depth ≤ maxReplyDepth) :
    (readReply parseDouble (fuel + 1) depth ⟨writeNull proto ++ rest, n⟩).Returns .null
      ⟨rest, n + (writeNull proto).length⟩ := by
  unfold writeNull
  split_ifs
  · exact readReply_line parseDouble hdepth (readLine_crlf [95] (by simp [isCRLF]) rest n) rfl
  · rw [readReply_bulk_line parseDouble hdepth (readLine_crlf [36, 45, 49] (by simp [isCRLF]) rest n)]
    exact ⟨rfl, rfl⟩

theorem readReply_nullArray (proto : ℕ) (hdepth : depth ≤ maxReplyDepth) :
    (readReply parseDouble (fuel + 1) depth ⟨writeNullArray proto ++ rest, n⟩).Returns .null
      ⟨rest, n + (writeNullArray proto).length⟩ := by
  unfold writeNullArray
  split_ifs
  · exact readReply_line parseDouble hdepth (readLine_crlf [95] (by simp [isCRLF]) rest n) rfl
  · rw [readReply, if_neg (Nat.not_lt.2 hdepth), readLine_crlf [42, 45, 49] (by simp [isCRLF]) rest n]
    exact ⟨rfl, rfl⟩

theorem readReply_array {k : ℕ} (hdepth : depth ≤ maxReplyDepth) (hk : k ≤ maxMultiBulk) :
    readReply parseDouble (fuel + 1) depth ⟨writeArrayHeader k ++ rest, n⟩ =
      ((readMany (readReply parseDouble fuel (depth + 1)) k ⟨rest, n + (writeArrayHeader k).length⟩).map
        .list).around := by
  have hline := readLine_writeLen 42 rfl k rest n
  have hcount : collectionCount (-1) (itoa k) = some (k : ℤ) := by
    rw [collectionCount, parseInt64_itoa (hk.trans (by decide)), Option.bind_some, if_neg (by omega)]
  rw [readReply, if_neg (Nat.not_lt.2 hdepth), writeArrayHeader, hline]
  dsimp only
  have hscalar : scalarReply parseDouble 42 (itoa k) = none := rfl
  rw [hscalar, if_neg (by decide), if_pos (by decide), hcount]
  dsimp only
  rw [if_neg (by omega), Int.toNat_natCast]

/-- Elements in a row, each decoded from what was written for it. -/
theorem readMany_writeAll {f : ByteStream → Reading (ReplyValue D)} (proto : ℕ) (ts : List ReplyTree)
    (h : ∀ t ∈ ts, ∀ rest n, (f ⟨t.write proto ++ rest, n⟩).Returns t.value ⟨rest, n + (t.write proto).length⟩)
    (rest : Bytes) (n : ℕ) : (readMany f ts.length ⟨ReplyTree.writeAll proto ts ++ rest, n⟩).Returns
      (ReplyTree.values ts) ⟨rest, n + (ReplyTree.writeAll proto ts).length⟩ := by
  induction ts generalizing n with
  | nil => exact ⟨rfl, rfl⟩
  | cons t ts ih =>
    obtain ⟨hout, hrest⟩ := h t List.mem_cons_self (ReplyTree.writeAll proto ts ++ rest) n
    obtain ⟨houts, hrests⟩ := ih (fun t ht => h t (List.mem_cons_of_mem _ ht)) (n + (t.write proto).length)
    rw [ReplyTree.writeAll, List.append_assoc, List.length_cons, readMany]
    dsimp only
    rw [hout]
    dsimp only
    rw [hrest]
    refine ⟨?_, ?_⟩
    · rw [houts]
      rfl
    · rw [hrests, List.length_append, Nat.add_assoc]

theorem allFit_mem {ts : List ReplyTree} (h : ReplyTree.AllFit depth ts) {t : ReplyTree} (ht : t ∈ ts) :
    t.Fits depth := by
  induction ts with
  | nil => cases ht
  | cons t' ts ih =>
    rcases List.mem_cons.1 ht with rfl | ht
    · exact h.1
    · exact ih h.2 ht

theorem write_length_le (proto : ℕ) {ts : List ReplyTree} {t : ReplyTree} (ht : t ∈ ts) :
    (t.write proto).length ≤ (ReplyTree.writeAll proto ts).length := by
  induction ts with
  | nil => cases ht
  | cons t' ts ih =>
    rw [ReplyTree.writeAll, List.length_append]
    rcases List.mem_cons.1 ht with rfl | ht
    · omega
    · have := ih ht
      omega

/-- A tree is decoded from what was written for it, whatever follows. The induction is on the
fuel: every array takes a byte at least for its header. -/
theorem readReply_write (proto : ℕ) {t : ReplyTree} (h : t.Fits depth) (hfuel : (t.write proto).length < fuel)
    (rest : Bytes) (n : ℕ) : (readReply parseDouble fuel depth ⟨t.write proto ++ rest, n⟩).Returns t.value
      ⟨rest, n + (t.write proto).length⟩ := by
  induction fuel generalizing t depth rest n with
  | zero => omega
  | succ fuel ih =>
    cases t with
    | int z => exact readReply_int parseDouble h.1 h.2.1 h.2.2
    | bulk b => exact readReply_bulk parseDouble h.1 h.2
    | null => exact readReply_null parseDouble proto h
    | nullArray => exact readReply_nullArray parseDouble proto h
    | array rs =>
      obtain ⟨hdepth, hlength, hall⟩ := h
      rw [ReplyTree.write, List.length_append, writeArrayHeader, writeLen_length] at hfuel
      have helems := readMany_writeAll (f := readReply parseDouble fuel (depth + 1)) proto rs
        (fun t ht rest n => ih (allFit_mem hall ht)
          (by have := write_length_le proto ht; omega) rest n)
        rest (n + (writeArrayHeader rs.length).length)
      rw [ReplyTree.write, List.append_assoc, readReply_array parseDouble hdepth hlength, List.length_append,
        ← Nat.add_assoc]
      refine ⟨?_, helems.2⟩
      change Except.map _ _ = _
      rw [helems.1]
      rfl

theorem readReplyTop_write (proto : ℕ) {t : ReplyTree} (h : t.Fits 0) (rest : Bytes) (n : ℕ) :
    (readReplyTop parseDouble ⟨t.write proto ++ rest, n⟩).Returns t.value ⟨rest, n + (t.write proto).length⟩ :=
  readReply_write parseDouble proto h (by simp) rest n

/-- The decoder inverts the writer: each tree is read back from what was written for it, and a
sequence of trees from what was written for them, with exactly those bytes consumed. -/
theorem replies_roundtrip (proto : ℕ) {ts : List ReplyTree} (h : ∀ t ∈ ts, t.Fits 0) (rest : Bytes) (n : ℕ) :
    (∀ t ∈ ts, (readReplyTop parseDouble ⟨t.write proto ++ rest, n⟩).Returns t.value
      ⟨rest, n + (t.write proto).length⟩) ∧
    (readMany (readReplyTop parseDouble) ts.length ⟨ReplyTree.writeAll proto ts ++ rest, n⟩).Returns
      (ReplyTree.values ts) ⟨rest, n + (ReplyTree.writeAll proto ts).length⟩ := by
  refine ⟨fun t ht => readReplyTop_write parseDouble proto (h t ht) rest n, ?_⟩
  exact readMany_writeAll proto ts (fun t ht => readReplyTop_write parseDouble proto (h t ht)) rest n

end Decoding

/-- A nested array with a payload of line ends and both nulls, and a null behind it, in RESP2. -/
theorem nested_replies_roundtrip :
    (readMany (readReplyTop fun _ => (none : Option Unit)) 2
      ⟨ReplyTree.writeAll 2 [.array [.int (-7), .bulk [13, 10], .nullArray, .array []], .null], 0⟩).Returns
      [.list [.int (-7), .text [13, 10], .null, .list []], .null] ⟨[], 31⟩ := by
  have hfit : ∀ t ∈ [ReplyTree.array [.int (-7), .bulk [13, 10], .nullArray, .array []], .null], t.Fits 0 := by
    simp [ReplyTree.Fits, ReplyTree.AllFit, minInt64, maxInt64, maxBulkLen, maxMultiBulk, maxReplyDepth]
  have hread := (replies_roundtrip (fun _ => (none : Option Unit)) 2 hfit [] 0).2
  rw [List.append_nil] at hread
  exact hread

end ShardKV.Resp
