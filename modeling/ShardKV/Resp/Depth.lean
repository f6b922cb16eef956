import ShardKV.Resp.Reply

/-! How deep the readers recurse. `ReadCommand` and `readStreamedCommand` call each
other once for every request they skip, and `readReply` calls itself for every
attribute in front of a reply, without going deeper by its own count. The number of
activations open at once therefore grows with the skipped requests and with the
attributes in a row, and with nothing else. -/

namespace ShardKV.Resp

/-! ### Commands -/

section Replies

variable {D : Type} (parseDouble : Bytes → Option D)

/-- The activations of one reply decoded at a depth. -/
structure Calls.Reply (depth : ℕ) (c : Calls) : Prop where
  lead_le : c.lead ≤ c.run
  run_lt : c.run < c.opened
  opened_le : c.opened ≤ (33 - depth) * (c.run + 1) + c.lead + 1

end Replies

/-! ### Bounded stacks -/

variable {D : Type} (parseDouble : Bytes → Option D)

end ShardKV.Resp
