/-
  RakHook.BitStream.Construct — the streams the constructors build.

  A copying stream over `n` bytes holds exactly their bits, whichever storage it chose;
  the default one holds nothing.
-/

import RakHook.BitStream.Read
import RakHook.BitStream.Write

namespace RakHook

open Lib

namespace BitStream

theorem Wf.reads {P : Access → Prop} {bs bs' : BitStream} {l : List Bool} (h : Wf bs l) (hr : Reads P bs bs') :
    Wf bs' l := by
  have hb := hr.bytes
  refine ⟨h.toView.reads hr, ?_, ?_, ?_, ?_⟩
  · rw [hr.same]; exact h.usedLe
  · rw [hb, hr.same]; exact h.allocatedLe
  · rw [hr.same]; exact h.allocatedSmall
  · rw [hr.same]; exact h.stackLength

theorem Wf.setWriteOffset {bs : BitStream} {l : List Bool} (h : Wf bs l) {n : Nat} (hn : n ≤ l.length) (hm : n % 8 = 0) :
    Wf (bs.setWriteOffset n) (l.take n) := by
  have hl : (l.take n).length = n := by simp; omega
  have hs := h.small
  have hu := h.usedLe
  exact ⟨⟨by rw [hl]; rfl, by omega, h.holds.take hn hm⟩, by rw [hl]; show (n : Int) ≤ bs.numberOfBitsAllocated; omega,
    h.allocatedLe, h.allocatedSmall, h.stackLength⟩

theorem stackJunk_length (g : Junk) : ((List.range stackAllocationSize).map (g 0)).length = stackAllocationSize := by simp

theorem empty_wf (g : Junk) : Wf (empty g) [] := by
  refine ⟨⟨rfl, by simp, .nil _⟩, by simp [empty, stackAllocationSize], ?_, by simp [empty, stackAllocationSize],
    stackJunk_length g⟩
  simp [empty, bytes, stackAllocationSize]

theorem holds_memcpy (dst data : List Byte) {n : Nat} (hd : n ≤ dst.length) (hn : n ≤ data.length) :
    Holds (memcpy dst data n) (bits (data.take n)) := by
  have hl : (bits (data.take n)).length = 8 * n := by simp; omega
  refine ⟨by rw [hl, memcpy_length]; omega, ?_⟩
  intro i hi
  rw [hl] at hi
  rw [bits_getD, bit_take _ _ _ (by omega)]
  unfold bit
  rw [memcpy_getD, if_pos (by omega)]

/-- `BitStream(data, n, true)`. -/
theorem ofBuffer_spec (g : Junk) (data : List Byte) {n : Nat} (hn : n ≤ data.length) (hsmall : n < 268435456) :
    Wf (ofBuffer g data n true) (bits (data.take n)) ∧ (ofBuffer g data n true).readOffset = 0 ∧
      (ofBuffer g data n true).trace = if 0 < n then [⟨.input, 0, n, data.length⟩,
        ⟨.data, 0, n, (ofBuffer g data n true).bytes.length⟩] else [] := by
  have hl : (bits (data.take n)).length = 8 * n := by simp; omega
  have hbits : i32 (u32 ((n : Int) * 8)) = (8 * n : Nat) := by rw [u32_of, i32_of] <;> omega
  have hpos : (bits (data.take n)).length < 2147483648 := by omega
  unfold ofBuffer
  simp only [hbits, if_true]
  split
  · rename_i h0
    split
    · rename_i hstack
      refine ⟨⟨⟨by rw [hl]; rfl, hpos, ?_⟩, by rw [hl]; simp [setBytes, touch, stackAllocationSize] at *; omega, ?_,
        by simp [setBytes, touch, stackAllocationSize], ?_⟩, rfl, by simp [setBytes, touch, bytes]⟩
      · exact holds_memcpy _ _ (by simpa [bytes, touch] using Nat.le_of_lt hstack) hn
      · simp [setBytes, touch, bytes, stackAllocationSize]
      · simp [setBytes, touch, bytes]
    · refine ⟨⟨⟨by rw [hl]; rfl, hpos, ?_⟩, by rw [hl]; simp [setBytes, touch], ?_, by simp [setBytes, touch]; omega,
        by simp [setBytes, touch]⟩, rfl, by simp [setBytes, touch, bytes]⟩
      · exact holds_memcpy _ _ (by simp [bytes, touch]) hn
      · simp [setBytes, touch, bytes]
  · have h0 : n = 0 := by omega
    subst h0
    exact ⟨⟨⟨by simp, by simp, by simpa [bits, bytes] using Holds.nil []⟩, by simp, by simp [bytes], by simp,
      by simp⟩, rfl, rfl⟩

end BitStream

end RakHook
