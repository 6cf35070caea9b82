/-
  RakHook.BitStream.Write — what the writing functions do.

  `Wf bs l` is the invariant of a stream that is written to: it holds `l`, and the bits
  used, the bits allocated and the bytes really there are in order. Writing appends:
  `writeBits` the input's bits (`srcBits`), `writeBool` one bit, `writeCompressed` the
  code word. Every store lands inside the storage `data` points to then, and a caller's
  buffer is not touched once the stream has left it (`Writes`).
-/

import RakHook.BitStream.View
import RakHook.Lib.Compressed

namespace RakHook

open Lib

namespace BitStream

structure Wf (bs : BitStream) (l : List Bool) : Prop extends View bs l where
  usedLe : (l.length : Int) ≤ bs.numberOfBitsAllocated
  allocatedLe : bs.numberOfBitsAllocated ≤ 8 * bs.bytes.length
  allocatedSmall : bs.numberOfBitsAllocated ≤ 2147483640
  stackLength : bs.stackData.length = stackAllocationSize

/-- The accesses between `bs` and `bs'` stay inside their buffers, and a caller's buffer
    keeps its size, and its bytes once the stream has left it. -/
structure Contained (bs bs' : BitStream) : Prop where
  accesses : Accesses Access.InBounds bs bs'
  callerLength : bs'.caller.length = bs.caller.length
  caller : bs.data ≠ .caller → bs'.data ≠ .caller ∧ bs'.caller = bs.caller

theorem Contained.refl (bs : BitStream) : Contained bs bs := ⟨.refl bs, rfl, fun h => ⟨h, rfl⟩⟩

theorem Contained.trans {bs bs' bs'' : BitStream} (h : Contained bs bs') (h' : Contained bs' bs'') :
    Contained bs bs'' := by
  refine ⟨h.accesses.trans h'.accesses, h'.callerLength.trans h.callerLength, ?_⟩
  intro hc
  obtain ⟨h1, h2⟩ := h.caller hc
  obtain ⟨h3, h4⟩ := h'.caller h1
  exact ⟨h3, h4.trans h2⟩

structure Writes (bs bs' : BitStream) : Prop extends Contained bs bs' where
  readOffset : bs'.readOffset = bs.readOffset

namespace Writes

variable {bs bs' bs'' : BitStream}

theorem refl (bs : BitStream) : Writes bs bs := ⟨.refl bs, rfl⟩

theorem trans (h : Writes bs bs') (h' : Writes bs' bs'') : Writes bs bs'' :=
  ⟨h.toContained.trans h'.toContained, h'.readOffset.trans h.readOffset⟩

theorem setUsed (bs : BitStream) (n : Int) : Writes bs { bs with numberOfBitsUsed := n } :=
  ⟨⟨.refl bs, rfl, fun h => ⟨h, rfl⟩⟩, rfl⟩

theorem setAllocated (bs : BitStream) (n : Int) : Writes bs { bs with numberOfBitsAllocated := n } :=
  ⟨⟨.refl bs, rfl, fun h => ⟨h, rfl⟩⟩, rfl⟩

theorem setCopyData (bs : BitStream) (c : Bool) : Writes bs { bs with copyData := c } :=
  ⟨⟨.refl bs, rfl, fun h => ⟨h, rfl⟩⟩, rfl⟩

end Writes

/-! ## Growing -/

theorem bytes_moveTo (bs : BitStream) {place : Place} (dst : List Byte) (hp : place ≠ .null) :
    (bs.moveTo place dst).bytes = memcpy dst bs.bytes (bitsToBytes bs.numberOfBitsAllocated) := by
  unfold moveTo
  exact bytes_setBytes _ fun h => absurd h hp

theorem moveTo_frame (bs : BitStream) (place : Place) (dst : List Byte) :
    (bs.moveTo place dst).numberOfBitsUsed = bs.numberOfBitsUsed ∧
      (bs.moveTo place dst).numberOfBitsAllocated = bs.numberOfBitsAllocated ∧
      (bs.moveTo place dst).readOffset = bs.readOffset ∧ (bs.moveTo place dst).data = place := by
  unfold moveTo setBytes
  cases place <;> simp [touch]

/-- The blocks a stream moves between: the new one keeps every byte in use, and the copy
    stays inside both. -/
theorem moveTo_spec {bs : BitStream} {l : List Bool} (h : Wf bs l) (place : Place) (dst : List Byte)
    (hp : place = .heap ∨ place = .stackData ∧ dst.length = stackAllocationSize)
    (hroom : (bs.numberOfBitsAllocated + 7) / 8 ≤ dst.length) :
    Wf (bs.moveTo place dst) l ∧ (bs.moveTo place dst).bytes.length = dst.length ∧ Writes bs (bs.moveTo place dst) := by
  have hnull : place ≠ .null := by rcases hp with rfl | ⟨rfl, -⟩ <;> simp
  have hcaller : place ≠ .caller := by rcases hp with rfl | ⟨rfl, -⟩ <;> simp
  have hbytes := bytes_moveTo bs dst hnull
  obtain ⟨hu, ha, hr, hd⟩ := moveTo_frame bs place dst
  have hpos := h.usedLe
  have hle := h.allocatedLe
  have hsm := h.allocatedSmall
  obtain ⟨n, hn⟩ : ∃ n : Nat, bitsToBytes bs.numberOfBitsAllocated = n ∧ (bs.numberOfBitsAllocated + 7) / 8 = n := by
    refine ⟨((bs.numberOfBitsAllocated + 7) / 8).toNat, ?_⟩
    unfold bitsToBytes; rw [i32_of] <;> omega
  have hlen : (bs.moveTo place dst).bytes.length = dst.length := by rw [hbytes, memcpy_length]
  refine ⟨⟨⟨hu.trans h.used, h.small, ?_⟩, by rw [ha]; exact hpos, by rw [ha, hlen]; omega, by rw [ha]; exact hsm, ?_⟩,
    hlen, ⟨?_, ?_, fun _ => ⟨by rw [hd]; exact hcaller, ?_⟩⟩, hr⟩
  · refine h.holds.congr (by rw [hlen]; omega) ?_
    intro i hi
    rw [hbytes, hn.1]
    unfold bit
    rw [memcpy_getD, if_pos (by omega)]
  · rcases hp with rfl | ⟨rfl, hdst⟩
    · exact h.stackLength
    · simpa [moveTo, setBytes, touch] using hdst
  · have hcopy : Accesses Access.InBounds bs
        { bs with data := place, trace := bs.trace ++ [⟨.input, 0, n, bs.bytes.length⟩] } :=
      ⟨_, rfl, by simp [Access.InBounds]; omega⟩
    refine hcopy.trans ?_
    refine ⟨[⟨.data, 0, n, dst.length⟩], ?_, by simp [Access.InBounds]; omega⟩
    unfold moveTo setBytes
    rw [hn.1]
    cases place <;> simp [touch]
  · rcases hp with rfl | ⟨rfl, -⟩ <;> simp [moveTo, setBytes, touch]
  · rcases hp with rfl | ⟨rfl, -⟩ <;> simp [moveTo, setBytes, touch]

theorem realloc_spec {bs : BitStream} {l : List Bool} (g : Junk) (h : Wf bs l) {n : Nat}
    (hroom : bs.numberOfBitsAllocated ≤ 8 * n) :
    Wf { bs with data := .heap, heap := realloc g bs.bytes n } l ∧
      Writes bs { bs with data := .heap, heap := realloc g bs.bytes n } := by
  have hbytes : ({ bs with data := .heap, heap := realloc g bs.bytes n } : BitStream).bytes = realloc g bs.bytes n := rfl
  have hlen : (realloc g bs.bytes n).length = n := by simp [realloc]
  have hpos := h.usedLe
  have hle := h.allocatedLe
  refine ⟨⟨⟨h.used, h.small, ?_⟩, hpos, by rw [hbytes, hlen]; exact hroom, h.allocatedSmall, h.stackLength⟩,
    ⟨.refl bs, rfl, fun _ => ⟨nofun, rfl⟩⟩, rfl⟩
  refine h.holds.congr (by rw [hbytes, hlen]; omega) ?_
  intro i hi
  rw [hbytes]
  unfold bit realloc
  rw [memcpy_getD, malloc_length, if_pos (by omega)]

theorem Wf.setCopyData {bs : BitStream} {l : List Bool} (h : Wf bs l) (c : Bool) : Wf { bs with copyData := c } l :=
  ⟨⟨h.used, h.small, h.holds⟩, h.usedLe, h.allocatedLe, h.allocatedSmall, h.stackLength⟩

theorem reallocate_spec {bs : BitStream} {l : List Bool} (g : Junk) (h : Wf bs l) {n : Nat} (hn : n < 2147483648)
    (hroom : (bs.numberOfBitsAllocated + 7) / 8 ≤ n) :
    Wf (bs.reallocate g n) l ∧ Writes bs (bs.reallocate g n) ∧
      (bs.reallocate g n).numberOfBitsAllocated = bs.numberOfBitsAllocated ∧ n ≤ (bs.reallocate g n).bytes.length := by
  have hu : (u32 (n : Int)).toNat = n := by rw [u32_of] <;> omega
  have hheap := moveTo_spec h .heap (malloc g n) (.inl rfl) (by simpa using hroom)
  have hlen : n ≤ (bs.moveTo .heap (malloc g n)).bytes.length := Nat.le_of_eq (by rw [hheap.2.1, malloc_length])
  unfold reallocate
  simp only [hu]
  split
  · rename_i hstack
    split
    · exact ⟨hheap.1, hheap.2.2, (moveTo_frame bs _ _).2.1, hlen⟩
    · refine ⟨h, .refl bs, rfl, ?_⟩
      have : bs.bytes = bs.stackData := by simp [bytes, hstack]
      rw [this, h.stackLength]; omega
  · split
    · have hr := realloc_spec g h (n := n) (by omega)
      exact ⟨hr.1, hr.2, rfl, by simp [bytes, realloc]⟩
    · split
      · exact ⟨hheap.1.setCopyData true, hheap.2.2.trans (.setCopyData _ _), (moveTo_frame bs _ _).2.1,
          hlen⟩
      · have hs := moveTo_spec h .stackData bs.stackData (.inr ⟨rfl, h.stackLength⟩)
          (by rw [h.stackLength]; omega)
        refine ⟨hs.1.setCopyData true, hs.2.2.trans (.setCopyData _ _), (moveTo_frame bs _ _).2.1, ?_⟩
        show n ≤ (bs.moveTo .stackData bs.stackData).bytes.length
        rw [hs.2.1, h.stackLength]; omega

theorem Wf.setAllocated {bs : BitStream} {l : List Bool} (h : Wf bs l) {n : Int} (h1 : bs.numberOfBitsAllocated ≤ n)
    (h2 : n ≤ 8 * bs.bytes.length) (h3 : n ≤ 2147483640) : Wf { bs with numberOfBitsAllocated := n } l :=
  ⟨⟨h.used, h.small, h.holds⟩, Int.le_trans h.usedLe h1, h2, h3, h.stackLength⟩

theorem addBitsAndReallocate_spec (g : Junk) {bs : BitStream} {l : List Bool} (h : Wf bs l) {k : Nat} (hk : 0 < k)
    (hsmall : 2 * (l.length + k) + 7 < 2147483648) :
    Wf (bs.addBitsAndReallocate g k) l ∧
      ((l.length + k : Nat) : Int) ≤ (bs.addBitsAndReallocate g k).numberOfBitsAllocated ∧
      Writes bs (bs.addBitsAndReallocate g k) := by
  have hpos := h.usedLe
  have hle := h.allocatedLe
  have hsm := h.allocatedSmall
  have hneeded : i32 ((k : Int) + bs.numberOfBitsUsed) = (l.length + k : Nat) := by
    rw [h.used, i32_of] <;> omega
  have hdouble : i32 (((l.length + k : Nat) : Int) * 2) = (2 * (l.length + k) : Nat) := by rw [i32_of] <;> omega
  have hamount : bitsToBytes ((2 * (l.length + k) : Nat) : Int) = ((2 * (l.length + k) + 7) / 8 : Nat) := by
    unfold bitsToBytes; rw [i32_of] <;> omega
  have hlast : i32 (bs.numberOfBitsAllocated - 1) = bs.numberOfBitsAllocated - 1 := by rw [i32_of] <;> omega
  have hlast' : i32 (((l.length + k : Nat) : Int) - 1) = (l.length + k : Nat) - 1 := by rw [i32_of] <;> omega
  unfold addBitsAndReallocate
  rw [if_neg (by omega)]
  simp only [hneeded, hdouble, hamount, hlast, hlast']
  split
  · obtain ⟨hw, hf, ha, hb⟩ := reallocate_spec g h (n := (2 * (l.length + k) + 7) / 8) (by omega) (by omega)
    split
    · exact ⟨hw.setAllocated (by omega) (by omega) (by omega), by simp only []; omega, hf.trans (.setAllocated _ _)⟩
    · exact ⟨hw, by omega, hf⟩
  · -- the last byte allocated already is the last byte needed
    split
    · exact ⟨h.setAllocated (by omega) (by omega) (by omega), by simp only []; omega, .setAllocated _ _⟩
    · exact ⟨h, by omega, .refl bs⟩

/-! ## Stores -/

/-- `bs'` is `bs` after stores inside the current storage. -/
structure Stores (bs bs' : BitStream) : Prop where
  used : bs'.numberOfBitsUsed = bs.numberOfBitsUsed
  allocated : bs'.numberOfBitsAllocated = bs.numberOfBitsAllocated
  data : bs'.data = bs.data
  length : bs'.bytes.length = bs.bytes.length
  stackLength : bs'.stackData.length = bs.stackData.length
  writes : Writes bs bs'

namespace Stores

variable {bs bs' bs'' : BitStream}

theorem refl (bs : BitStream) : Stores bs bs := ⟨rfl, rfl, rfl, rfl, rfl, .refl bs⟩

theorem trans (h : Stores bs bs') (h' : Stores bs' bs'') : Stores bs bs'' :=
  ⟨h'.used.trans h.used, h'.allocated.trans h.allocated, h'.data.trans h.data, h'.length.trans h.length,
    h'.stackLength.trans h.stackLength, h.writes.trans h'.writes⟩

theorem store (bs : BitStream) {i : Nat} (hi : i < bs.bytes.length) (b : Byte) : Stores bs (bs.store i b) := by
  obtain ⟨hu, ha, hr, hd, -, ht⟩ := store_frame bs i b
  refine ⟨hu, ha, hd, by rw [bytes_store, List.length_set], ?_,
    ⟨⟨_, ht, ?_⟩, ?_, fun hc => ⟨by rw [hd]; exact hc, ?_⟩⟩, hr⟩
  · unfold BitStream.store setBytes
    rcases hs : bs.data <;> simp [touchData, touch, hs, bytes]
  · simp [Access.InBounds]; omega
  · unfold BitStream.store setBytes
    rcases hs : bs.data <;> simp [touchData, touch, hs, bytes]
  · unfold BitStream.store setBytes
    rcases hs : bs.data <;> simp_all [touchData, touch]

/-- The invariant after stores that leave the longer bit string `l'` behind. -/
theorem wf {l : List Bool} (h : Stores bs bs') (hw : Wf bs l) (l' : List Bool)
    (hl : (l'.length : Int) ≤ bs.numberOfBitsAllocated)
    (hsmall : l'.length < 2147483648) (hholds : Holds bs'.bytes l') : Wf { bs' with numberOfBitsUsed := l'.length } l' :=
  ⟨⟨rfl, hsmall, hholds⟩, by rw [h.allocated]; exact hl,
    by show bs'.numberOfBitsAllocated ≤ 8 * bs'.bytes.length; rw [h.allocated, h.length]; exact hw.allocatedLe,
    by rw [h.allocated]; exact hw.allocatedSmall, h.stackLength.trans hw.stackLength⟩

end Stores

/-! ## `WriteBits` -/

/-- One round stores a chunk of at most eight bits behind those in use. The first store is
    a plain one exactly when the chunk starts a byte; the second when it overlaps. -/
theorem storeDataByte_spec {bs : BitStream} {l d : List Bool} (h : Wf bs l) (need : Int) (h0 : 0 < d.length)
    (hd : d.length ≤ 8) (hneed : (d.length : Int) = min need 8)
    (hroom : ((l.length + d.length : Nat) : Int) ≤ bs.numberOfBitsAllocated) :
    Stores bs (bs.storeDataByte (l.length % 8) need (byteAt d 0)) ∧
      Holds (bs.storeDataByte (l.length % 8) need (byteAt d 0)).bytes (l ++ d) := by
  have hle := h.allocatedLe
  have hat : bs.numberOfBitsUsed / 8 = (l.length / 8 : Nat) := by rw [h.used]; omega
  have hat' : bs.numberOfBitsUsed / 8 + 1 = (l.length / 8 + 1 : Nat) := by rw [h.used]; omega
  have hload : bs.load (l.length / 8 : Nat) = bs.bytes.getD (l.length / 8) 0 := rfl
  unfold storeDataByte
  rw [hat', hat]
  split
  · rename_i hm
    refine ⟨.store bs (by omega) _, ?_⟩
    rw [bytes_store]
    exact h.holds.store_aligned hd h0 hm (by omega)
  · rename_i hm
    simp only [orStore, hload]
    have h1 := Stores.store bs (i := l.length / 8) (by omega)
      (bs.bytes.getD (l.length / 8) 0 ||| byteAt d 0 >>> (l.length % 8))
    split
    · rename_i ho
      refine ⟨h1.trans (.store _ (by rw [h1.length]; omega) _), ?_⟩
      rw [bytes_store, bytes_store]
      exact h.holds.store_split hd (by omega) (by omega)
    · rename_i ho
      refine ⟨h1, ?_⟩
      rw [bytes_store]
      exact h.holds.store_low hm (by omega)

/-- The bits one round takes from the byte `b` while `k` are left to write: all of them,
    or the low `k`. -/
def chunkBits (b : Byte) (k : Nat) : List Bool := if 8 ≤ k then bits [b] else (bits [b]).drop (8 - k)

/-- The `k` bits `WriteBits` takes from its input. -/
def srcBits : List Byte → Nat → List Bool
  | [], _ => []
  | b :: input, k => chunkBits b k ++ srcBits input (k - 8)

theorem chunkBits_length (b : Byte) (k : Nat) : (chunkBits b k).length = min k 8 := by
  unfold chunkBits; split <;> simp <;> omega

theorem srcBits_zero (input : List Byte) : srcBits input 0 = [] := by
  induction input with
  | nil => rfl
  | cons b input ih => simp [srcBits, chunkBits, ih]

theorem srcBits_whole (input : List Byte) : ∀ n ≤ input.length, srcBits input (8 * n) = bits (input.take n) := by
  induction input with
  | nil => intro n hn; simp at hn; subst hn; rfl
  | cons b input ih =>
    intro n hn
    cases n with
    | zero => rw [srcBits_zero]; rfl
    | succ n =>
      simp only [List.length_cons, Nat.add_le_add_iff_right] at hn
      rw [srcBits, chunkBits, if_pos (by omega), show 8 * (n + 1) - 8 = 8 * n by omega, ih n hn, ← bits_append]
      rfl

/-- `dataByte` of a round holds the bits the round takes, from its top. -/
theorem dataByte_eq (b : Byte) {k : Nat} {ra : Bool} (hra : ra = true ∨ k % 8 = 0) (hk : 0 < k) :
    (if (k : Int) < 8 ∧ ra = true then b <<< (8 - (k : Int)).toNat else b) = byteAt (chunkBits b k) 0 := by
  unfold chunkBits
  by_cases h8 : 8 ≤ k
  · rw [if_neg (by omega), if_pos h8, byteAt_bits]
  · rw [if_pos ⟨by omega, hra.resolve_right (by omega)⟩, if_neg h8, byteAt_drop,
      show (8 - (k : Int)).toNat = 8 - k by omega]

theorem writeBitsLoop_done (ra : Bool) (mod : Nat) (input : List Byte) {need : Int} (h : need ≤ 0) (bs : BitStream) :
    writeBitsLoop ra mod input need bs = bs := by
  cases input <;> (unfold writeBitsLoop; rw [if_neg (by omega)])

theorem writeBitsLoop_spec {ra : Bool} : ∀ (input : List Byte) (k : Nat) (bs : BitStream) (l : List Bool), Wf bs l →
    k ≤ 8 * input.length → (ra = true ∨ k % 8 = 0) → ((l.length + k : Nat) : Int) ≤ bs.numberOfBitsAllocated →
    Wf (writeBitsLoop ra (l.length % 8) input k bs) (l ++ srcBits input k) ∧
      Writes bs (writeBitsLoop ra (l.length % 8) input k bs) := by
  intro input
  induction input with
  | nil =>
    intro k bs l h hk _ _
    have hk0 : k = 0 := by simpa using hk
    rw [writeBitsLoop_done ra _ _ (by omega), hk0, srcBits_zero, List.append_nil]
    exact ⟨h, .refl bs⟩
  | cons b input ih =>
    intro k bs l h hk hra hroom
    simp only [List.length_cons] at hk
    have hsm := h.allocatedSmall
    by_cases hk0 : k = 0
    · rw [writeBitsLoop_done ra _ _ (by omega), hk0, srcBits_zero, List.append_nil]
      exact ⟨h, .refl bs⟩
    have hd := chunkBits_length b k
    obtain ⟨hs, hh⟩ := storeDataByte_spec (d := chunkBits b k) h k (by omega) (by omega) (by omega) (by omega)
    have hw := hs.wf h (l ++ chunkBits b k) (by simp; omega) (by simp; omega) hh
    have hround : writeBitsLoop ra (l.length % 8) (b :: input) k bs =
      writeBitsLoop ra (l.length % 8) input ((k : Int) - 8)
        { bs.storeDataByte (l.length % 8) k (byteAt (chunkBits b k) 0) with
          numberOfBitsUsed := (l ++ chunkBits b k).length } := by
      rw [writeBitsLoop, if_pos (by omega), dataByte_eq b hra (by omega)]
      simp only []
      have hused : i32 (bs.numberOfBitsUsed + if (8 : Int) ≤ k then 8 else (k : Int)) = (l ++ chunkBits b k).length := by
        rw [h.used, List.length_append, hd]
        split <;> (rw [i32_of] <;> omega)
      rw [hs.used, hused]
    have hwrites := hs.writes.trans (.setUsed _ ((l ++ chunkBits b k).length : Nat))
    rw [hround, srcBits, ← List.append_assoc]
    by_cases h8 : 8 ≤ k
    · have hra' : ra = true ∨ (k - 8) % 8 = 0 := hra.imp_right (by omega)
      have hi := ih (k - 8) _ _ hw (by omega) hra' (by rw [hs.allocated]; simp; omega)
      have hmod : (l ++ chunkBits b k).length % 8 = l.length % 8 := by simp; omega
      rw [hmod, show ((k - 8 : Nat) : Int) = (k : Int) - 8 by omega] at hi
      exact ⟨hi.1, hwrites.trans hi.2⟩
    · rw [writeBitsLoop_done ra _ _ (by omega), show k - 8 = 0 by omega, srcBits_zero, List.append_nil]
      exact ⟨hw, hwrites⟩

/-- `WriteBits` appends the input's bits. -/
theorem writeBits_spec (g : Junk) {bs : BitStream} {l : List Bool} (h : Wf bs l) (input : List Byte) {k : Nat} {ra : Bool}
    (hk : k ≤ 8 * input.length) (hra : ra = true ∨ k % 8 = 0) (hsmall : 2 * (l.length + k) + 7 < 2147483648) :
    Wf (bs.writeBits g input k ra) (l ++ srcBits input k) ∧ Writes bs (bs.writeBits g input k ra) := by
  unfold writeBits
  split
  · have hk0 : k = 0 := by omega
    subst hk0
    rw [srcBits_zero, List.append_nil]
    exact ⟨h, .refl bs⟩
  · obtain ⟨hw, hroom, hf⟩ := addBitsAndReallocate_spec g h (k := k) (by omega) hsmall
    have hmod : ((bs.addBitsAndReallocate g k).numberOfBitsUsed % 8).toNat = l.length % 8 := by rw [hw.used]; omega
    simp only []
    rw [hmod]
    obtain ⟨h1, h2⟩ := writeBitsLoop_spec input k _ l hw hk hra hroom
    exact ⟨h1, hf.trans h2⟩

/-- Whole bytes are appended as they stand, whichever way partial ones are aligned. -/
theorem writeBits_bytes (g : Junk) {bs : BitStream} {l : List Bool} (h : Wf bs l) (input : List Byte) {n : Nat}
    (ra : Bool)
    (hn : n ≤ input.length) (hsmall : 2 * (l.length + 8 * n) + 7 < 2147483648) :
    Wf (bs.writeBits g input (8 * n : Nat) ra) (l ++ bits (input.take n)) ∧
      Writes bs (bs.writeBits g input (8 * n : Nat) ra) := by
  rw [← srcBits_whole input n hn]
  exact writeBits_spec g h input (by omega) (.inr (by omega)) hsmall

/-! ## `Write(bool)` -/

theorem writeBool_spec (g : Junk) {bs : BitStream} {l : List Bool} (h : Wf bs l) (b : Bool)
    (hsmall : 2 * (l.length + 1) + 7 < 2147483648) :
    Wf (bs.writeBool g b) (l ++ [b]) ∧ Writes bs (bs.writeBool g b) := by
  obtain ⟨hw, hroom, hf⟩ := addBitsAndReallocate_spec g h (k := 1) (by omega) hsmall
  have hone : ((1 : Nat) : Int) = 1 := rfl
  rw [hone] at hw hroom hf
  have hle := hw.allocatedLe
  have hsm := hw.allocatedSmall
  obtain ⟨bs1, hbs1⟩ : ∃ bs1, bs.addBitsAndReallocate g 1 = bs1 := ⟨_, rfl⟩
  rw [hbs1] at hw hroom hf hle hsm
  obtain ⟨hs, hh⟩ := storeDataByte_spec (d := [b]) hw 1 (by simp) (by simp)
    (by simp only [List.length_singleton]; omega) (by simpa using hroom)
  have hused : i32 (bs1.numberOfBitsUsed + 1) = ((l ++ [b]).length : Nat) := by
    rw [hw.used, i32_of (by omega) (by omega)]; simp
  have hmod : (bs1.numberOfBitsUsed % 8).toNat = l.length % 8 := by rw [hw.used]; omega
  have hend : ∀ bs2 : BitStream, Stores bs1 bs2 → Holds bs2.bytes (l ++ [b]) →
      Wf { bs2 with numberOfBitsUsed := i32 (bs2.numberOfBitsUsed + 1) } (l ++ [b]) ∧
        Writes bs { bs2 with numberOfBitsUsed := i32 (bs2.numberOfBitsUsed + 1) } := by
    intro bs2 hs2 hh2
    rw [hs2.used, hused]
    exact ⟨hs2.wf hw _ (by simp; omega) (by simp; omega) hh2, hf.trans (hs2.writes.trans (.setUsed _ _))⟩
  unfold writeBool
  cases b with
  | true =>
    have hbyte : byteAt [true] 0 = 0x80 := by decide
    have hcode : bs.write1 g = { bs1.storeDataByte (l.length % 8) 1 0x80 with
        numberOfBitsUsed := i32 ((bs1.storeDataByte (l.length % 8) 1 0x80).numberOfBitsUsed + 1) } := by
      unfold write1 storeDataByte
      simp only [hbs1, hmod]
      split
      · rfl
      · rw [if_neg (by omega)]
    rw [hbyte] at hs hh
    rw [if_pos rfl, hcode]
    exact hend _ hs hh
  | false =>
    rw [if_neg (by simp)]
    unfold write0
    simp only [hbs1]
    by_cases hm : bs1.numberOfBitsUsed % 8 = 0
    · rw [if_pos hm]
      have hbyte : byteAt [false] 0 = 0 := by decide
      have hcode : bs1.storeDataByte (l.length % 8) 1 0 = bs1.store (bs1.numberOfBitsUsed / 8) 0 := by
        unfold storeDataByte; rw [if_pos (by omega)]
      rw [hbyte, hcode] at hs hh
      exact hend _ hs hh
    · -- the bit behind the used ones of a partial byte is zero already
      rw [if_neg hm]
      refine hend _ (.refl bs1) ⟨by simp; omega, ?_⟩
      intro i hi
      simp only [List.length_append, List.length_singleton] at hi
      have hlen : l.length % 8 ≠ 0 := by rw [← hmod]; omega
      rw [hw.holds.2 i (by omega), getD_append]
      split
      · rfl
      · rw [getD_ge (by omega)]
        match i - l.length with
        | 0 => rfl
        | _ + 1 => rfl

/-! ## `WriteCompressed` -/

theorem srcBits_lowHalf (b : Byte) (input : List Byte) : srcBits (b :: input) 4 = lowHalf b := by
  rw [srcBits, srcBits_zero, List.append_nil]; rfl

theorem writeCompressedFrom_spec (g : Junk) (input : List Byte) (u : Bool) : ∀ (currentByte : Nat) (bs : BitStream)
    (l : List Bool), Wf bs l → currentByte < input.length → 2 * (l.length + 9 * (currentByte + 1)) + 7 < 2147483648 →
    Wf (writeCompressedFrom g input u currentByte bs)
        (l ++ encodeFrom (byteMatch u) (halfByteMatch u) currentByte (input.take (currentByte + 1))) ∧
      Writes bs (writeCompressedFrom g input u currentByte bs) := by
  intro currentByte
  induction currentByte with
  | zero =>
    intro bs l h hc hsmall
    match input, hc with
    | b :: input, _ =>
      unfold writeCompressedFrom encodeFrom
      simp only [List.getD_cons_zero, List.take_succ_cons, List.take_zero]
      split
      · obtain ⟨h1, f1⟩ := writeBool_spec g h true (by omega)
        obtain ⟨h2, f2⟩ := writeBits_spec (k := 4) g h1 (b :: input) (by simp; omega) (.inl rfl)
          (by simp; omega)
        rw [srcBits_lowHalf, List.append_assoc] at h2
        exact ⟨h2, f1.trans f2⟩
      · obtain ⟨h1, f1⟩ := writeBool_spec g h false (by omega)
        obtain ⟨h2, f2⟩ := writeBits_bytes g h1 (b :: input) (n := 1) true (by simp) (by simp; omega)
        rw [List.append_assoc] at h2
        exact ⟨h2, f1.trans f2⟩
  | succ c ih =>
    intro bs l h hc hsmall
    have htake : (input.take (c + 1 + 1)).getD (c + 1) 0 = input.getD (c + 1) 0 := by
      simp [List.getD_eq_getElem?_getD]
    unfold writeCompressedFrom encodeFrom
    rw [htake]
    split
    · obtain ⟨h1, f1⟩ := writeBool_spec g h true (by omega)
      obtain ⟨h2, f2⟩ := ih _ _ h1 (by omega) (by simp; omega)
      rw [List.append_assoc] at h2
      rw [List.take_take, Nat.min_eq_left (by omega)]
      exact ⟨h2, f1.trans f2⟩
    · obtain ⟨h1, f1⟩ := writeBool_spec g h false (by omega)
      obtain ⟨h2, f2⟩ := writeBits_bytes g h1 input (n := c + 2) true (by omega) (by simp; omega)
      rw [List.append_assoc] at h2
      rw [List.take_take, Nat.min_self, show (8 * ((c : Int) + 2)) = (8 * (c + 2) : Nat) by omega]
      exact ⟨h2, f1.trans f2⟩

end BitStream

end RakHook
