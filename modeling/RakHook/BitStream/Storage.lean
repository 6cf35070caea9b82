/-
  RakHook.BitStream.Storage — who owns the bytes of a stream.

  The destructor does not know where `data` points, it goes by a bit count (`frees`). The
  growth path leaves the stream for more than 256 bytes and counts more than 2048 bits for
  them, so a stream that its bit count places right (`Settled`) stays one through any call
  that keeps it small enough for an `int`. The copying constructor takes 256 bytes from
  the heap as well, and counts 2048 bits for them (`ofBuffer_owned`).
-/

import RakHook.BitStream.Calls

namespace RakHook

open Lib

namespace BitStream

/-- The condition of `~BitStream()`. -/
def frees (bs : BitStream) : Bool := bs.copyData && decide ((stackAllocationSize : Int) * 8 < bs.numberOfBitsAllocated)

/-- The destructor frees the buffer exactly when there is one on the heap. -/
def Owned (bs : BitStream) : Prop := bs.data = .heap ↔ bs.frees = true

instance (bs : BitStream) : Decidable bs.Owned := inferInstanceAs (Decidable (_ ↔ _))

/-- A stream of its own whose bit count says where it is. -/
structure Settled (bs : BitStream) : Prop where
  copyData : bs.copyData = true
  place : bs.data = .stackData ∧ bs.numberOfBitsAllocated ≤ 2048 ∨ bs.data = .heap ∧ 2048 < bs.numberOfBitsAllocated
  allocatedPos : 0 ≤ bs.numberOfBitsAllocated
  allocatedSmall : bs.numberOfBitsAllocated ≤ 2147483640
  usedPos : 0 ≤ bs.numberOfBitsUsed

theorem owned_congr {bs bs' : BitStream} (hd : bs'.data = bs.data) (hc : bs'.copyData = bs.copyData)
    (ha : bs'.numberOfBitsAllocated = bs.numberOfBitsAllocated) : Owned bs' ↔ Owned bs := by
  unfold Owned frees
  rw [hd, hc, ha]

theorem owned_reads {P : Access → Prop} {bs bs' : BitStream} (h : Reads P bs bs') : Owned bs' ↔ Owned bs :=
  owned_congr (by rw [h.same]) (by rw [h.same]) (by rw [h.same])

namespace Settled

variable {bs bs' : BitStream}

theorem owned (h : Settled bs) : Owned bs := by
  unfold Owned frees stackAllocationSize
  rw [h.copyData, Bool.true_and, decide_eq_true_eq]
  rcases h.place with ⟨hd, ha⟩ | ⟨hd, ha⟩
  · rw [hd]
    refine ⟨fun he => Place.noConfusion he, ?_⟩
    intro hlt
    omega
  · exact ⟨fun _ => by omega, fun _ => hd⟩

theorem reads {P : Access → Prop} (h : Settled bs) (hr : Reads P bs bs') : Settled bs' := by
  rw [hr.same]
  exact ⟨h.copyData, h.place, h.allocatedPos, h.allocatedSmall, h.usedPos⟩

theorem setUsed (h : Settled bs) {n : Int} (h0 : 0 ≤ n) : Settled { bs with numberOfBitsUsed := n } :=
  ⟨h.copyData, h.place, h.allocatedPos, h.allocatedSmall, h0⟩

theorem touch (h : Settled bs) (a : Access) : Settled (bs.touch a) :=
  ⟨h.copyData, h.place, h.allocatedPos, h.allocatedSmall, h.usedPos⟩

theorem setBytes (h : Settled bs) (l : List Byte) : Settled (bs.setBytes l) := by
  unfold BitStream.setBytes
  split
  all_goals exact ⟨h.copyData, h.place, h.allocatedPos, h.allocatedSmall, h.usedPos⟩

theorem setAllocated (hc : bs.copyData = true) {n : Int}
    (hp : bs.data = .stackData ∧ n ≤ 2048 ∨ bs.data = .heap ∧ 2048 < n) (h0 : 0 ≤ n) (hn : n ≤ 2147483640)
    (hu : 0 ≤ bs.numberOfBitsUsed) : Settled { bs with numberOfBitsAllocated := n } := ⟨hc, hp, h0, hn, hu⟩

theorem store (h : Settled bs) (i : Int) (b : Byte) : Settled (bs.store i b) := (h.touch _).setBytes _

end Settled

/-! ## Growth -/

theorem moveTo_heap (bs : BitStream) (dst : List Byte) : (bs.moveTo .heap dst).copyData = bs.copyData ∧
    (bs.moveTo .heap dst).data = .heap ∧ (bs.moveTo .heap dst).numberOfBitsAllocated = bs.numberOfBitsAllocated ∧
      (bs.moveTo .heap dst).numberOfBitsUsed = bs.numberOfBitsUsed := ⟨rfl, rfl, rfl, rfl⟩

theorem Settled.reallocate (g : Junk) {bs : BitStream} (h : Settled bs) (amount : Int) :
    (bs.reallocate g amount).copyData = true ∧ (bs.reallocate g amount).numberOfBitsUsed = bs.numberOfBitsUsed ∧
      (bs.reallocate g amount).numberOfBitsAllocated = bs.numberOfBitsAllocated ∧
      ((bs.reallocate g amount).data = .stackData ∧ bs.numberOfBitsAllocated ≤ 2048 ∧ amount ≤ 256 ∨
        (bs.reallocate g amount).data = .heap ∧ (256 < amount ∨ 2048 < bs.numberOfBitsAllocated)) := by
  unfold BitStream.reallocate stackAllocationSize
  rcases h.place with ⟨hd, ha⟩ | ⟨hd, ha⟩
  · dsimp only
    rw [if_pos hd]
    split
    · rename_i hlt
      obtain ⟨hc, hp, hal, hu⟩ := moveTo_heap bs (malloc g (u32 amount).toNat)
      exact ⟨hc.trans h.copyData, hu, hal, .inr ⟨hp, .inl hlt⟩⟩
    · rename_i hle
      exact ⟨h.copyData, rfl, rfl, .inl ⟨hd, ha, by omega⟩⟩
  · dsimp only
    rw [if_neg (by rw [hd]; exact fun he => Place.noConfusion he), if_pos h.copyData]
    exact ⟨h.copyData, rfl, rfl, .inr ⟨rfl, .inr ha⟩⟩

/-- Growing keeps the bit count in step with the place: a block of more than 256 bytes is
    counted as more than 2048 bits. -/
theorem Settled.addBitsAndReallocate (g : Junk) {bs : BitStream} (h : Settled bs) {k : Int}
    (hsmall : bs.numberOfBitsUsed + k ≤ 1073741816) :
    Settled (bs.addBitsAndReallocate g k) ∧ (bs.addBitsAndReallocate g k).numberOfBitsUsed = bs.numberOfBitsUsed := by
  have hpos := h.allocatedPos
  have hsm := h.allocatedSmall
  have hu := h.usedPos
  unfold BitStream.addBitsAndReallocate
  split
  · exact ⟨h, rfl⟩
  have hneeded : i32 (k + bs.numberOfBitsUsed) = k + bs.numberOfBitsUsed := by rw [i32_of] <;> omega
  have hdouble : i32 ((k + bs.numberOfBitsUsed) * 2) = (k + bs.numberOfBitsUsed) * 2 := by rw [i32_of] <;> omega
  have hamount : bitsToBytes ((k + bs.numberOfBitsUsed) * 2) = ((k + bs.numberOfBitsUsed) * 2 + 7) / 8 := by
    unfold bitsToBytes
    rw [i32_of] <;> omega
  have hlast : i32 (bs.numberOfBitsAllocated - 1) = bs.numberOfBitsAllocated - 1 := by rw [i32_of] <;> omega
  have hlast' : i32 (k + bs.numberOfBitsUsed - 1) = k + bs.numberOfBitsUsed - 1 := by rw [i32_of] <;> omega
  simp only [hneeded, hdouble, hamount, hlast, hlast']
  split
  · obtain ⟨hc, hused, ha, hp⟩ := h.reallocate g (((k + bs.numberOfBitsUsed) * 2 + 7) / 8)
    have hu' : 0 ≤ (bs.reallocate g (((k + bs.numberOfBitsUsed) * 2 + 7) / 8)).numberOfBitsUsed := by omega
    rw [ha]
    split
    · refine ⟨.setAllocated hc ?_ (by omega) (by omega) hu', hused⟩
      rcases hp with ⟨hd, hle, hbytes⟩ | ⟨hd, hgt⟩
      · exact .inl ⟨hd, by omega⟩
      · exact .inr ⟨hd, by omega⟩
    · refine ⟨⟨hc, ?_, by omega, by omega, hu'⟩, hused⟩
      rcases hp with ⟨hd, hle, hbytes⟩ | ⟨hd, hgt⟩
      · exact .inl ⟨hd, by omega⟩
      · exact .inr ⟨hd, by omega⟩
  · -- the last byte needed is one the storage has already, so it is on the same side of 256
    split
    · refine ⟨.setAllocated h.copyData ?_ (by omega) (by omega) hu, rfl⟩
      rcases h.place with ⟨hd, ha⟩ | ⟨hd, ha⟩
      · exact .inl ⟨hd, by omega⟩
      · exact .inr ⟨hd, by omega⟩
    · exact ⟨h, rfl⟩

/-! ## Writing -/

theorem store_used (bs : BitStream) (i : Int) (b : Byte) : (bs.store i b).numberOfBitsUsed = bs.numberOfBitsUsed :=
  (store_frame bs i b).1

theorem setBytes_used (bs : BitStream) (l : List Byte) : (bs.setBytes l).numberOfBitsUsed = bs.numberOfBitsUsed := by
  unfold setBytes
  split <;> rfl

theorem Settled.storeDataByte {bs : BitStream} (h : Settled bs) (mod : Nat) (need : Int) (b : Byte) :
    Settled (bs.storeDataByte mod need b) ∧ (bs.storeDataByte mod need b).numberOfBitsUsed = bs.numberOfBitsUsed := by
  unfold BitStream.storeDataByte orStore
  split
  · exact ⟨h.store _ _, store_used ..⟩
  · dsimp only
    split
    · exact ⟨(h.store _ _).store _ _, (store_used ..).trans (store_used ..)⟩
    · exact ⟨h.store _ _, store_used ..⟩

theorem Settled.writeBitsLoop (ra : Bool) (mod : Nat) : ∀ (input : List Byte) (need : Int) {bs : BitStream}, Settled bs →
    bs.numberOfBitsUsed + max need 0 ≤ 1073741816 → Settled (writeBitsLoop ra mod input need bs) ∧
      (BitStream.writeBitsLoop ra mod input need bs).numberOfBitsUsed ≤ bs.numberOfBitsUsed + max need 0 := by
  intro input
  induction input with
  | nil =>
    intro need bs h _
    unfold BitStream.writeBitsLoop
    split
    · exact ⟨h.touch _, by show bs.numberOfBitsUsed ≤ _; omega⟩
    · exact ⟨h, by omega⟩
  | cons b input ih =>
    intro need bs h hsmall
    have hu := h.usedPos
    unfold BitStream.writeBitsLoop
    split
    · rename_i hneed
      obtain ⟨hs, hused⟩ := h.storeDataByte mod need
        (if need < 8 ∧ ra = true then b <<< (8 - need).toNat else b)
      have hnext : i32 (bs.numberOfBitsUsed + if 8 ≤ need then 8 else need) =
        bs.numberOfBitsUsed + if 8 ≤ need then 8 else need := by
        split <;> (rw [i32_of] <;> omega)
      simp only [hused, hnext]
      have hround := hs.setUsed (n := bs.numberOfBitsUsed + if 8 ≤ need then 8 else need) (by split <;> omega)
      obtain ⟨h1, h2⟩ := ih (need - 8) hround
        (by show bs.numberOfBitsUsed + (if 8 ≤ need then 8 else need) + _ ≤ _; split <;> omega)
      refine ⟨h1, Int.le_trans h2 ?_⟩
      show bs.numberOfBitsUsed + (if 8 ≤ need then 8 else need) + max (need - 8) 0 ≤ _
      split <;> omega
    · exact ⟨h, by omega⟩

theorem Settled.writeBits (g : Junk) {bs : BitStream} (h : Settled bs) (input : List Byte) (n : Int) (ra : Bool)
    (hsmall : bs.numberOfBitsUsed + max n 0 ≤ 1073741816) :
    Settled (bs.writeBits g input n ra) ∧
      (bs.writeBits g input n ra).numberOfBitsUsed ≤ bs.numberOfBitsUsed + max n 0 := by
  unfold BitStream.writeBits
  split
  · exact ⟨h, by omega⟩
  · obtain ⟨hg, hused⟩ := h.addBitsAndReallocate g (k := n) (by omega)
    have hl := Settled.writeBitsLoop ra ((bs.addBitsAndReallocate g n).numberOfBitsUsed % 8).toNat input n hg (by omega)
    rw [hused] at hl
    dsimp only
    rw [hused]
    exact hl

theorem Settled.writeBool (g : Junk) {bs : BitStream} (h : Settled bs) (b : Bool)
    (hsmall : bs.numberOfBitsUsed + 1 ≤ 1073741816) :
    Settled (bs.writeBool g b) ∧ (bs.writeBool g b).numberOfBitsUsed = bs.numberOfBitsUsed + 1 := by
  obtain ⟨hg, hused⟩ := h.addBitsAndReallocate g hsmall
  have hu := h.usedPos
  have hnext : i32 (bs.numberOfBitsUsed + 1) = bs.numberOfBitsUsed + 1 := by rw [i32_of] <;> omega
  have hend : ∀ bs₂ : BitStream, Settled bs₂ → bs₂.numberOfBitsUsed = bs.numberOfBitsUsed →
      Settled { bs₂ with numberOfBitsUsed := i32 (bs₂.numberOfBitsUsed + 1) } ∧
        i32 (bs₂.numberOfBitsUsed + 1) = bs.numberOfBitsUsed + 1 := by
    intro bs₂ hs he
    rw [he, hnext]
    exact ⟨hs.setUsed (by omega), rfl⟩
  unfold BitStream.writeBool write1 write0 orStore
  cases b with
  | true =>
    rw [if_pos rfl]
    dsimp only
    split
    · exact hend _ (hg.store _ _) ((store_used ..).trans hused)
    · exact hend _ (hg.store _ _) ((store_used ..).trans hused)
  | false =>
    rw [if_neg Bool.false_ne_true]
    dsimp only
    split
    · exact hend _ (hg.store _ _) ((store_used ..).trans hused)
    · exact hend _ hg hused

theorem Settled.writeArray (g : Junk) {bs : BitStream} (h : Settled bs) (input : List Byte) (n : Nat)
    (hsmall : bs.numberOfBitsUsed + 8 * n ≤ 1073741816) :
    Settled (bs.writeArray g input n) ∧ (bs.writeArray g input n).numberOfBitsUsed ≤ bs.numberOfBitsUsed + 8 * n := by
  have hu := h.usedPos
  have hcount : i32 ((n : Int) * 8) = 8 * n := by rw [i32_of] <;> omega
  unfold BitStream.writeArray
  split
  · exact ⟨h, by omega⟩
  rw [hcount]
  split
  · obtain ⟨hg, hused⟩ := h.addBitsAndReallocate g hsmall
    have hend : ∀ bs₂ : BitStream, Settled bs₂ → bs₂.numberOfBitsUsed = bs.numberOfBitsUsed →
        Settled { bs₂ with numberOfBitsUsed := i32 (bs₂.numberOfBitsUsed + 8 * n) } ∧
          i32 (bs₂.numberOfBitsUsed + 8 * n) ≤ bs.numberOfBitsUsed + 8 * n := by
      intro bs₂ hs he
      rw [he, i32_of (by omega) (by omega)]
      exact ⟨hs.setUsed (by omega), Int.le_refl _⟩
    unfold appendArray bytesToBits
    rw [hcount]
    exact hend _ (((hg.touch _).touch _).setBytes _) ((setBytes_used ..).trans hused)
  · obtain ⟨hw, hle⟩ := h.writeBits g input (8 * n) true (by omega)
    exact ⟨hw, by omega⟩

theorem Settled.writeStreamLoop : ∀ (src : List Bool) (n : Int) {bs : BitStream}, Settled bs →
    bs.numberOfBitsUsed + max n 0 ≤ 1073741816 → Settled (writeStreamLoop src n bs) ∧
      (BitStream.writeStreamLoop src n bs).numberOfBitsUsed ≤ bs.numberOfBitsUsed + max n 0 := by
  intro src
  induction src with
  | nil => intro n bs h _; exact ⟨h, by show bs.numberOfBitsUsed ≤ _; omega⟩
  | cons b src ih =>
    intro n bs h hsmall
    have hu := h.usedPos
    unfold BitStream.writeStreamLoop orStore
    split
    · have hnext : ∀ bs₂ : BitStream, Settled bs₂ → bs₂.numberOfBitsUsed = bs.numberOfBitsUsed →
          Settled (BitStream.writeStreamLoop src (n - 1) { bs₂ with numberOfBitsUsed := i32 (bs₂.numberOfBitsUsed + 1) }) ∧
            (BitStream.writeStreamLoop src (n - 1)
              { bs₂ with numberOfBitsUsed := i32 (bs₂.numberOfBitsUsed + 1) }).numberOfBitsUsed ≤
              bs.numberOfBitsUsed + max n 0 := by
        intro bs₂ hs he
        rw [he, i32_of (by omega) (by omega)]
        obtain ⟨h1, h2⟩ := ih (n - 1) (hs.setUsed (n := bs.numberOfBitsUsed + 1) (by omega))
          (by show bs.numberOfBitsUsed + 1 + _ ≤ _; omega)
        refine ⟨h1, Int.le_trans h2 ?_⟩
        show bs.numberOfBitsUsed + 1 + max (n - 1) 0 ≤ _
        omega
      dsimp only
      split
      · exact hnext _ (h.store _ _) (store_used ..)
      · split
        · exact hnext _ (h.store _ _) (store_used ..)
        · exact hnext _ h rfl
    · exact ⟨h, by omega⟩

theorem Settled.writeStream (g : Junk) {bs : BitStream} (h : Settled bs) (src : List Bool) (n : Int)
    (hsmall : bs.numberOfBitsUsed + max n 0 ≤ 1073741816) :
    Settled (bs.writeStream g src n) ∧ (bs.writeStream g src n).numberOfBitsUsed ≤ bs.numberOfBitsUsed + max n 0 := by
  obtain ⟨hg, hused⟩ := h.addBitsAndReallocate g (k := n) (by omega)
  have hl := Settled.writeStreamLoop src n hg (by omega)
  rw [hused] at hl
  exact hl

/-- The bits `WriteCompressed` appends. -/
def compressedBits (input : List Byte) (u : Bool) : Nat → Nat
  | 0 => if input.getD 0 0 &&& 0xF0 = halfByteMatch u then 5 else 9
  | currentByte + 1 =>
    if input.getD (currentByte + 1) 0 = byteMatch u then 1 + compressedBits input u currentByte
    else 1 + 8 * (currentByte + 2)

theorem Settled.writeCompressedFrom (g : Junk) (input : List Byte) (u : Bool) :
    ∀ (currentByte : Nat) {bs : BitStream}, Settled bs →
    bs.numberOfBitsUsed + compressedBits input u currentByte ≤ 1073741816 →
    Settled (writeCompressedFrom g input u currentByte bs) ∧
      (BitStream.writeCompressedFrom g input u currentByte bs).numberOfBitsUsed ≤
        bs.numberOfBitsUsed + compressedBits input u currentByte := by
  intro currentByte
  induction currentByte with
  | zero =>
    intro bs h hsmall
    unfold BitStream.writeCompressedFrom
    unfold compressedBits at hsmall ⊢
    split at hsmall
    · rename_i hlow
      rw [if_pos hlow, if_pos hlow]
      obtain ⟨h1, u1⟩ := h.writeBool g true (by omega)
      obtain ⟨h2, u2⟩ := h1.writeBits g input 4 true (by omega)
      exact ⟨h2, by omega⟩
    · rename_i hlow
      rw [if_neg hlow, if_neg hlow]
      obtain ⟨h1, u1⟩ := h.writeBool g false (by omega)
      obtain ⟨h2, u2⟩ := h1.writeBits g input 8 true (by omega)
      exact ⟨h2, by omega⟩
  | succ c ih =>
    intro bs h hsmall
    unfold BitStream.writeCompressedFrom
    unfold compressedBits at hsmall ⊢
    split at hsmall
    · rename_i hmatch
      rw [if_pos hmatch, if_pos hmatch]
      obtain ⟨h1, u1⟩ := h.writeBool g true (by omega)
      obtain ⟨h2, u2⟩ := ih h1 (by omega)
      exact ⟨h2, by omega⟩
    · rename_i hmatch
      rw [if_neg hmatch, if_neg hmatch]
      obtain ⟨h1, u1⟩ := h.writeBool g false (by omega)
      obtain ⟨h2, u2⟩ := h1.writeBits g input (8 * (c + 2)) true (by omega)
      exact ⟨h2, by omega⟩

/-! ## Calls -/

/-- The bits in use after a call that is given all it asks for. -/
def Op.sizeAfter (bs : BitStream) : Op → Int
  | .write0 | .write1 | .writeBool _ => bs.numberOfBitsUsed + 1
  | .writeArray _ n => bs.numberOfBitsUsed + 8 * n
  | .writeBits _ n => bs.numberOfBitsUsed + n
  | .write var => bs.numberOfBitsUsed + 8 * var.length
  | .reset => 0
  | .setWriteOffset offset => offset

def Call.sizeAfter (bs : BitStream) : Call → Int
  | .read _ => bs.numberOfBitsUsed
  | .write op => op.sizeAfter bs
  | .writeBits _ n _ | .writeStream _ n => bs.numberOfBitsUsed + max n 0
  | .writeCompressed input u => bs.numberOfBitsUsed + compressedBits input u (input.length - 1)
  | .alignWriteToByteBoundary => (bs.numberOfBitsUsed + 7) / 8 * 8

/-- The call keeps the stream below 2^26 bytes. -/
def Call.Fits (bs : BitStream) (c : Call) : Prop := c.sizeAfter bs < 8 * 67108864

instance (bs : BitStream) (c : Call) : Decidable (c.Fits bs) := inferInstanceAs (Decidable (_ < _))

theorem Settled.perform (g : Junk) {bs : BitStream} (h : Settled bs) {op : Op} (ha : op.sizeAfter bs ≤ 1073741816) :
    Settled (bs.perform g op) ∧ (bs.perform g op).numberOfBitsUsed ≤ op.sizeAfter bs := by
  cases op with
  | write0 =>
    obtain ⟨hs, hu⟩ := h.writeBool g false ha
    exact ⟨hs, Int.le_of_eq hu⟩
  | write1 =>
    obtain ⟨hs, hu⟩ := h.writeBool g true ha
    exact ⟨hs, Int.le_of_eq hu⟩
  | writeBool var =>
    obtain ⟨hs, hu⟩ := h.writeBool g var ha
    exact ⟨hs, Int.le_of_eq hu⟩
  | writeArray input n => exact h.writeArray g input n ha
  | writeBits input n =>
    simp only [Op.sizeAfter] at ha ⊢
    obtain ⟨hs, hu⟩ := h.writeBits g input n true (by omega)
    exact ⟨hs, Int.le_trans hu (by omega)⟩
  | write var =>
    simp only [Op.sizeAfter] at ha ⊢
    obtain ⟨hs, hu⟩ := h.writeBits g var (8 * var.length) true (by omega)
    exact ⟨hs, Int.le_trans hu (by omega)⟩
  | reset => exact ⟨⟨h.copyData, h.place, h.allocatedPos, h.allocatedSmall, Int.le_refl 0⟩, Int.le_refl 0⟩
  | setWriteOffset offset => exact ⟨h.setUsed (Int.natCast_nonneg offset), Int.le_refl _⟩

/-- Any call that keeps the stream small enough leaves its bit count in step with its
    place. -/
theorem Settled.run (g : Junk) {bs : BitStream} (h : Settled bs) {c : Call} (ha : c.Fits bs) :
    Settled (c.run g bs) ∧ (c.run g bs).numberOfBitsUsed ≤ c.sizeAfter bs := by
  have hsize : c.sizeAfter bs ≤ 1073741816 := by
    unfold Call.Fits at ha
    omega
  cases c with
  | read c =>
    have hr := c.run_frame bs
    exact ⟨h.reads hr, Int.le_of_eq hr.used⟩
  | write op => exact h.perform g hsize
  | writeBits input n ra => exact h.writeBits g input n ra hsize
  | writeCompressed input u => exact h.writeCompressedFrom g input u (input.length - 1) hsize
  | writeStream src n => exact h.writeStream g src n hsize
  | alignWriteToByteBoundary =>
    have hu := h.usedPos
    simp only [Call.sizeAfter] at hsize
    unfold Call.run Call.sizeAfter alignWriteToByteBoundary
    dsimp only
    split
    · exact ⟨h, by omega⟩
    · rw [i32_of (by omega) (by omega)]
      exact ⟨h.setUsed (by omega), by show bs.numberOfBitsUsed + (8 - ((bs.numberOfBitsUsed - 1) % 8 + 1)) ≤ _; omega⟩

/-! ## Construction -/

theorem empty_settled (g : Junk) : Settled (empty g) :=
  ⟨rfl, .inl ⟨rfl, Int.le_refl _⟩, by show (0 : Int) ≤ 2048; decide, by show (2048 : Int) ≤ 2147483640; decide,
    Int.le_refl 0⟩

theorem ofBuffer_place (g : Junk) (data : List Byte) {n : Nat} (h0 : 0 < n) (hn : n < 268435456) :
    (ofBuffer g data n true).copyData = true ∧ (ofBuffer g data n true).numberOfBitsUsed = 8 * n ∧
      if n < 256 then (ofBuffer g data n true).data = .stackData ∧ (ofBuffer g data n true).numberOfBitsAllocated = 2048
      else (ofBuffer g data n true).data = .heap ∧ (ofBuffer g data n true).numberOfBitsAllocated = 8 * n := by
  have hbits : i32 (u32 ((n : Int) * 8)) = 8 * n := by rw [u32_of, i32_of] <;> omega
  unfold ofBuffer stackAllocationSize
  simp only [if_true, if_pos h0, hbits]
  by_cases h : n < 256
  · rw [if_pos h, if_pos h]
    exact ⟨rfl, rfl, rfl, rfl⟩
  · rw [if_neg h, if_neg h]
    exact ⟨rfl, rfl, rfl, rfl⟩

theorem ofBuffer_settled (g : Junk) (data : List Byte) {n : Nat} (h0 : 0 < n) (hn : n < 268435456) (hne : n ≠ 256) :
    Settled (ofBuffer g data n true) := by
  obtain ⟨hc, hu, hp⟩ := ofBuffer_place g data h0 hn
  split at hp
  · exact ⟨hc, .inl ⟨hp.1, by omega⟩, by omega, by omega, by omega⟩
  · exact ⟨hc, .inr ⟨hp.1, by omega⟩, by omega, by omega, by omega⟩

/-- Of all the buffers, those of 256 bytes: on the heap, and not freed. -/
theorem ofBuffer_owned (g : Junk) (data : List Byte) {n : Nat} (hn : n < 268435456) :
    Owned (ofBuffer g data n true) ↔ n ≠ 256 := by
  refine ⟨?_, ?_⟩
  · intro ho he
    obtain ⟨-, -, hp⟩ := ofBuffer_place g data (n := n) (by omega) hn
    rw [if_neg (by omega)] at hp
    have hfree := ho.mp hp.1
    unfold frees stackAllocationSize at hfree
    rw [hp.2, he] at hfree
    simp at hfree
  · intro hne
    by_cases h0 : n = 0
    · subst h0
      exact ⟨fun h => Place.noConfusion h, fun h => absurd h Bool.false_ne_true⟩
    · exact (ofBuffer_settled g data (by omega) hn hne).owned

end BitStream

end RakHook
