/-
  RakHook.BitStream.View — what a stream holds and what was accessed since.

  `View bs l`: the used bits are the bit string `l`, the spare bits of the last byte they
  touch are zero. `Accesses P bs bs'`: every access recorded between `bs` and `bs'`
  satisfies `P`.
-/

import RakHook.BitStream.Model

namespace RakHook

open Lib

/-- Stream accesses stay below byte `n`, the others inside their buffer. -/
def Access.Within (n : Nat) (a : Access) : Prop :=
  0 ≤ a.lo ∧ a.hi ≤ if a.buf = .data then (n : Int) else a.cap

namespace BitStream

variable {bs bs' bs'' : BitStream}

/-! ## Accesses -/

def Accesses (P : Access → Prop) (bs bs' : BitStream) : Prop := ∃ t, bs'.trace = bs.trace ++ t ∧ ∀ a ∈ t, P a

namespace Accesses

variable {P Q : Access → Prop}

theorem refl (bs : BitStream) : Accesses P bs bs := ⟨[], by simp, by simp⟩

theorem trans (h : Accesses P bs bs') (h' : Accesses P bs' bs'') : Accesses P bs bs'' := by
  obtain ⟨t, ht, hP⟩ := h
  obtain ⟨t', ht', hP'⟩ := h'
  refine ⟨t ++ t', by rw [ht', ht, List.append_assoc], ?_⟩
  intro a ha
  rcases List.mem_append.mp ha with ha | ha
  · exact hP a ha
  · exact hP' a ha

theorem touch (bs : BitStream) {a : Access} (ha : P a) : Accesses P bs (bs.touch a) := ⟨[a], rfl, by simpa using ha⟩

theorem mono (hPQ : ∀ a, P a → Q a) (h : Accesses P bs bs') : Accesses Q bs bs' := by
  obtain ⟨t, ht, hP⟩ := h
  exact ⟨t, ht, fun a ha => hPQ a (hP a ha)⟩

theorem mem (h : Accesses P bs bs') {a : Access} (ha : a ∈ bs.trace) : a ∈ bs'.trace := by
  obtain ⟨t, ht, -⟩ := h
  rw [ht]; exact List.mem_append_left _ ha

end Accesses

/-! ## Contents -/

/-- The stream's used bits are `l`. -/
structure View (bs : BitStream) (l : List Bool) : Prop where
  used : bs.numberOfBitsUsed = l.length
  small : l.length < 2147483648
  holds : Holds bs.bytes l

namespace View

variable {l : List Bool}

theorem bit_eq (h : View bs l) {i : Nat} (hi : i < l.length) : bit bs.bytes i = l.getD i false :=
  h.holds.2 i (by omega)

theorem bytesUsed (h : View bs l) (hl : l.length + 7 < 2147483648) :
    bs.getNumberOfBytesUsed = ((l.length + 7) / 8 : Nat) := by
  unfold getNumberOfBytesUsed bitsToBytes
  rw [h.used, i32_of] <;> omega

theorem take_bytes (h : View bs l) : bs.bytes.take ((l.length + 7) / 8) = pack l := h.holds.take_eq

end View

/-! ## Stores -/

@[simp] theorem memcpy_length (dst src : List Byte) (n : Int) : (memcpy dst src n).length = dst.length := by simp [memcpy]

@[simp] theorem malloc_length (g : Junk) (n : Nat) : (malloc g n).length = n := by simp [malloc]

theorem memcpy_getD (dst src : List Byte) (n q : Nat) :
    (memcpy dst src n).getD q 0 = if q < dst.length ∧ q < n then src.getD q 0 else dst.getD q 0 := by
  unfold memcpy
  by_cases h : q < dst.length
  · by_cases e : q < n
    · simp [List.getD, h, e]
    · simp [List.getD, h, e]
  · simp [List.getD, h]

theorem bytes_setBytes (bs : BitStream) {l : List Byte} (hl : bs.data = .null → l = []) : (bs.setBytes l).bytes = l := by
  unfold setBytes bytes
  rcases hd : bs.data <;> simp_all

theorem bytes_store (bs : BitStream) (i : Int) (b : Byte) : (bs.store i b).bytes = bs.bytes.set i.toNat b := by
  unfold store
  refine bytes_setBytes _ ?_
  intro hn
  have : bs.bytes = [] := by
    have hn' : bs.data = .null := hn
    simp [bytes, hn']
  simp [this]

/-- A store changes the bytes `data` points to and nothing else. -/
theorem store_frame (bs : BitStream) (i : Int) (b : Byte) :
    (bs.store i b).numberOfBitsUsed = bs.numberOfBitsUsed ∧
      (bs.store i b).numberOfBitsAllocated = bs.numberOfBitsAllocated ∧
      (bs.store i b).readOffset = bs.readOffset ∧ (bs.store i b).data = bs.data ∧ (bs.store i b).copyData = bs.copyData ∧
      (bs.store i b).trace = bs.trace ++ [⟨.data, i, i + 1, bs.bytes.length⟩] := by
  unfold store setBytes
  rcases hd : bs.data <;> simp [touchData, touch, hd]

end BitStream

end RakHook
