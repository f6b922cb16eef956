import ShardKV.Commands.Bitmaps

/-! Single bits of a string. Bit `n` is in byte `n / 8` under the mask `0x80 >> n % 8`; a byte is
the bits of its machine word from the top, so setting a bit through its mask changes that bit and
no other one. -/

namespace ShardKV.Commands

open Data Resp Server Checked

theorem bitAt_eq {str : Bytes} {bit : ℤ} :
    bitAt str bit = (byteAt str (bit / 8).toNat).toBitVec.getLsbD (7 - (bit % 8).toNat) := by
  unfold bitAt byteAt
  rw [List.getD_eq_getElem?_getD]
  cases str[(bit / 8).toNat]? with
  | none => simp
  | some byte => exact and_mask_ne_zero byte (by omega)

theorem bitAt_set {str : Bytes} {bit : ℤ} (on : Bool) (h : 0 ≤ bit) (hin : bit < 8 * str.length) {pos : ℤ}
    (hat : 0 ≤ pos) :
    bitAt (str.set (bit / 8).toNat (withBits (byteAt str (bit / 8).toNat) (maskOf bit) on)) pos =
      if pos = bit then on else bitAt str pos := by
  have hlt : (bit / 8).toNat < str.length := by omega
  rw [bitAt_eq, bitAt_eq]
  by_cases hbyte : (pos / 8).toNat = (bit / 8).toNat
  · have hsame : byteAt (str.set (bit / 8).toNat (withBits (byteAt str (bit / 8).toNat) (maskOf bit) on))
        (pos / 8).toNat = withBits (byteAt str (bit / 8).toNat) (maskOf bit) on := by
      rw [byteAt, hbyte, List.getD_eq_getElem _ _ (by rwa [List.length_set]), List.getElem_set_self]
    rw [hsame, hbyte, maskOf, getLsbD_withBits _ _ (by omega) (by omega)]
    have hiff : (pos % 8).toNat = (bit % 8).toNat ↔ pos = bit := by omega
    rw [if_congr hiff rfl rfl]
  · have hne : pos ≠ bit := by
      rintro rfl
      exact hbyte rfl
    rw [if_neg hne]
    simp only [byteAt, List.getD_eq_getElem?_getD, List.getElem?_set_ne (Ne.symm hbyte)]

end ShardKV.Commands
