/-
  RakHook.BitStream.LeftAligned — bit strings handed around as packed bytes.

  `CopyData` hands out the bits in use packed from the left, and `WriteBits` with
  `rightAlignedBits` false puts them back: the whole string (`writeBits_pack`), or a piece
  of it that ends on a byte boundary of the stream (`writeBits_piece`). `ReadBit` takes one
  bit without asking whether it is there.
-/

import RakHook.BitStream.Construct

namespace RakHook

open Lib

namespace BitStream

/-- `CopyData`: the number of bits used and the bytes they are in. -/
def copyOut (bs : BitStream) : Int × List Byte :=
  (bs.numberOfBitsUsed, bs.bytes.take (bitsToBytes bs.numberOfBitsUsed).toNat)

/-- `ReadBit`, its operands from left to right. -/
def readBit (bs : BitStream) : Bool × BitStream :=
  (bs.load (bs.readOffset / 8) &&& (0x80 : Byte) >>> (bs.readOffset % 8).toNat != 0,
    { bs.touchData (bs.readOffset / 8) with readOffset := i32 (bs.readOffset + 1) })

variable {bs : BitStream} {l w : List Bool}

theorem readBit_ok (h : View bs l) {ro n : Nat} (hro : bs.readOffset = ro) (hl : ro < l.length) (hn : l.length ≤ 8 * n) :
    ∃ bs', bs.readBit = (l.getD ro false, bs') ∧ Reads (Access.Within n) bs bs' ∧ bs'.readOffset = (ro + 1 : Nat) := by
  have hsmall := h.small
  obtain ⟨bs', hb, hr, ho⟩ := readBool_ok h hro hl hn
  unfold readBool at hb
  rw [if_neg (by rw [h.used, hro, i32_of] <;> omega)] at hb
  obtain ⟨h1, h2⟩ := Prod.mk.inj hb
  exact ⟨bs', Prod.ext (Option.some.inj h1) h2, hr, ho⟩

theorem copyOut_eq (h : View bs l) (hl : l.length + 7 < 2147483648) : bs.copyOut = ((l.length : Int), pack l) := by
  have hb := h.bytesUsed hl
  unfold getNumberOfBytesUsed at hb
  unfold copyOut
  rw [hb, h.used, Int.toNat_natCast, h.take_bytes]

theorem reset_wf (h : Wf bs l) : Wf bs.reset [] := by
  have hle := h.usedLe
  exact ⟨⟨rfl, by simp, .nil _⟩, by show (0 : Int) ≤ bs.numberOfBitsAllocated; omega, h.allocatedLe, h.allocatedSmall,
    h.stackLength⟩

/-! ## Packed input -/

theorem byteAt_take (w : List Bool) {k : Nat} (hk : 8 ≤ k ∨ w.length ≤ k) : byteAt (w.take k) 0 = byteAt w 0 := by
  apply byte_ext
  intro i hi
  rw [getMsbD_byteAt _ _ hi, getMsbD_byteAt _ _ hi, getD_take]
  split
  · rfl
  · rw [getD_ge (by omega)]

theorem byteAt_drop8 (w : List Bool) (q : Nat) : byteAt (w.drop 8) (8 * q) = byteAt w (8 * (q + 1)) := by
  apply byte_ext
  intro i hi
  rw [getMsbD_byteAt _ _ hi, getMsbD_byteAt _ _ hi, getD_drop, show 8 + (8 * q + i) = 8 * (q + 1) + i by omega]

theorem pack_cons (h : w ≠ []) : pack w = byteAt w 0 :: pack (w.drop 8) := by
  have hpos := List.length_pos_iff.mpr h
  unfold pack
  rw [List.length_drop, show (w.length + 7) / 8 = (w.length - 8 + 7) / 8 + 1 by omega, List.range_succ_eq_map,
    List.map_cons, List.map_map]
  refine congrArg _ (List.map_congr_left ?_)
  intro q _
  exact (byteAt_drop8 w q).symm

theorem writeBitsLoop_pack : ∀ (n : Nat) (w : List Bool) (bs : BitStream) (l : List Bool), w.length ≤ n → Wf bs l →
    ((l.length + w.length : Nat) : Int) ≤ bs.numberOfBitsAllocated →
    Wf (writeBitsLoop false (l.length % 8) (pack w) w.length bs) (l ++ w) ∧
      Writes bs (writeBitsLoop false (l.length % 8) (pack w) w.length bs) := by
  intro n
  induction n with
  | zero =>
    intro w bs l hn h _
    obtain rfl := List.length_eq_zero_iff.mp (Nat.le_zero.mp hn)
    rw [writeBitsLoop_done false _ _ (by simp), List.append_nil]
    exact ⟨h, .refl bs⟩
  | succ n ih =>
    intro w bs l hn h hroom
    have hsm := h.allocatedSmall
    by_cases hw : w = []
    · subst hw
      rw [writeBitsLoop_done false _ _ (by simp), List.append_nil]
      exact ⟨h, .refl bs⟩
    have hpos := List.length_pos_iff.mpr hw
    have hd : (w.take 8).length = min 8 w.length := List.length_take
    obtain ⟨hs, hh⟩ := storeDataByte_spec (d := w.take 8) h w.length (by omega) (by omega) (by omega) (by omega)
    rw [byteAt_take w (.inl (Nat.le_refl 8))] at hs hh
    have hw' := hs.wf h (l ++ w.take 8) (by simp; omega) (by simp; omega) hh
    have hused : i32 (bs.numberOfBitsUsed + if (8 : Int) ≤ w.length then 8 else (w.length : Int)) =
        (l ++ w.take 8).length := by
      rw [h.used, List.length_append, hd]
      split <;> (rw [i32_of] <;> omega)
    have hround : writeBitsLoop false (l.length % 8) (pack w) w.length bs =
        writeBitsLoop false (l.length % 8) (pack (w.drop 8)) ((w.length : Int) - 8)
          { bs.storeDataByte (l.length % 8) w.length (byteAt w 0) with numberOfBitsUsed := (l ++ w.take 8).length } := by
      rw [pack_cons hw, writeBitsLoop, if_pos (by omega)]
      simp only [Bool.false_eq_true, and_false, if_false]
      rw [hs.used, hused]
    have hwrites := hs.writes.trans (.setUsed _ ((l ++ w.take 8).length : Nat))
    rw [hround]
    by_cases h8 : 8 ≤ w.length
    · have hi := ih (w.drop 8) _ _ (by simp; omega) hw' (by rw [hs.allocated]; simp; omega)
      have hmod : (l ++ w.take 8).length % 8 = l.length % 8 := by simp; omega
      rw [hmod, List.append_assoc, List.take_append_drop, List.length_drop,
        show ((w.length - 8 : Nat) : Int) = (w.length : Int) - 8 by omega] at hi
      exact ⟨hi.1, hwrites.trans hi.2⟩
    · rw [writeBitsLoop_done false _ _ (by omega)]
      rw [List.take_of_length_le (by omega)] at hw' hwrites ⊢
      exact ⟨hw', hwrites⟩

theorem writeBits_pack (g : Junk) (h : Wf bs l) (w : List Bool) (hsmall : 2 * (l.length + w.length) + 7 < 2147483648) :
    Wf (bs.writeBits g (pack w) w.length false) (l ++ w) ∧ Writes bs (bs.writeBits g (pack w) w.length false) := by
  unfold writeBits
  split
  · obtain rfl := List.length_eq_zero_iff.mp (show w.length = 0 by omega)
    rw [List.append_nil]
    exact ⟨h, .refl bs⟩
  · obtain ⟨hw, hroom, hf⟩ := addBitsAndReallocate_spec g h (k := w.length) (by omega) hsmall
    have hmod : ((bs.addBitsAndReallocate g w.length).numberOfBitsUsed % 8).toNat = l.length % 8 := by rw [hw.used]; omega
    simp only []
    rw [hmod]
    obtain ⟨h1, h2⟩ := writeBitsLoop_pack w.length w _ l (Nat.le_refl _) hw hroom
    exact ⟨h1, hf.trans h2⟩

/-- The first bits of a packed string that fill the last byte of the stream. The bits behind
    them are shifted out. -/
theorem writeBits_piece (g : Junk) (h : Wf bs l) (hl : l.length % 8 ≠ 0) (hw : 8 - l.length % 8 ≤ w.length)
    (hsmall : 2 * (l.length + 8) + 7 < 2147483648) :
    Wf (bs.writeBits g (pack w) (8 - l.length % 8 : Nat) false) (l ++ w.take (8 - l.length % 8)) ∧
      Writes bs (bs.writeBits g (pack w) (8 - l.length % 8 : Nat) false) := by
  obtain ⟨k, hk⟩ : ∃ k, 8 - l.length % 8 = k := ⟨_, rfl⟩
  rw [hk] at hw ⊢
  have hlt := Nat.mod_lt l.length (show 0 < 8 by omega)
  have hwne : w ≠ [] := by
    rintro rfl
    simp at hw
    omega
  have hd : (w.take k).length = k := by
    rw [List.length_take]
    omega
  obtain ⟨hb, hroom, hf⟩ := addBitsAndReallocate_spec g h (k := k) (by omega) (by omega)
  obtain ⟨bs₁, hbs⟩ : ∃ bs₁, bs.addBitsAndReallocate g k = bs₁ := ⟨_, rfl⟩
  rw [hbs] at hb hroom hf
  have hsm := hb.allocatedSmall
  obtain ⟨hs, hh⟩ := storeDataByte_spec (d := w.take k) hb k (by omega) (by omega) (by omega) (by omega)
  have hbyte : bs₁.storeDataByte (l.length % 8) k (byteAt (w.take k) 0) = bs₁.storeDataByte (l.length % 8) k (byteAt w 0) := by
    have hshift : byteAt (w.take k) 0 >>> (l.length % 8) = byteAt w 0 >>> (l.length % 8) := by
      apply byte_ext
      intro i hi
      rw [BitVec.getMsbD_ushiftRight, BitVec.getMsbD_ushiftRight]
      by_cases e : i < l.length % 8
      · simp [e]
      · rw [getMsbD_byteAt _ _ (by omega), getMsbD_byteAt _ _ (by omega), getD_take, if_pos (by omega)]
    unfold storeDataByte
    rw [if_neg hl, if_neg hl, hshift, if_neg (by omega), if_neg (by omega)]
  rw [hbyte] at hs hh
  have hw' := hs.wf hb (l ++ w.take k) (by simp; omega) (by simp; omega) hh
  have hmod : (bs₁.numberOfBitsUsed % 8).toNat = l.length % 8 := by rw [hb.used]; omega
  have hused : i32 (bs₁.numberOfBitsUsed + if (8 : Int) ≤ k then 8 else (k : Int)) = (l ++ w.take k).length := by
    rw [hb.used, List.length_append, hd, if_neg (by omega), i32_of] <;> omega
  have hloop : bs.writeBits g (pack w) k false =
      { bs₁.storeDataByte (l.length % 8) k (byteAt w 0) with numberOfBitsUsed := (l ++ w.take k).length } := by
    unfold writeBits
    rw [if_neg (by omega)]
    simp only [hbs]
    rw [hmod, pack_cons hwne, writeBitsLoop, if_pos (by omega), writeBitsLoop_done false _ _ (by omega)]
    simp only [Bool.false_eq_true, and_false, if_false]
    rw [hs.used, hused]
  rw [hloop]
  exact ⟨hw', hf.trans (hs.writes.trans (.setUsed _ _))⟩

end BitStream

end RakHook
