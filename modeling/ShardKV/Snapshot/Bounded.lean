import ShardKV.Resp.Allocation
import ShardKV.Snapshot.File

/-! What decoding a snapshot allocates. The length the header declares is checked
against the file before it becomes an allocation; the number of commands it declares is
not, and the list of commands is allocated by it. -/

namespace ShardKV.Snapshot

open Checked Decimal Framing Resp

section Decoder

variable (crc : Bytes → UInt64)

end Decoder

variable {crc : Bytes → UInt64} {len N : ℕ}

end ShardKV.Snapshot
