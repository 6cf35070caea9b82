/-
  RakHook.BitStream.Ops — a stream that a callback writes to, over any sequence of calls.

  `Op.apply` is what a call means for the bits alone. Whatever storage the stream was
  built over, it holds the bits that the same calls leave on a plain list, every access
  lands inside the storage `data` points to at that moment, and a caller's buffer is not
  touched any more once the stream has grown out of it (`stream_refines_list`).
-/

import RakHook.BitStream.Construct
import RakHook.Lib.Run

namespace RakHook

open Lib

namespace BitStream

/-! ## Stores of several bytes -/

namespace Stores

theorem touch (bs : BitStream) {a : Access} (ha : a.InBounds) : Stores bs (bs.touch a) :=
  ⟨rfl, rfl, rfl, rfl, rfl, ⟨.touch bs ha, rfl, fun h => ⟨h, rfl⟩⟩, rfl⟩

theorem overwrite (bs : BitStream) {l : List Byte} (hl : l.length = bs.bytes.length) : Stores bs (bs.setBytes l) := by
  unfold bytes at hl
  refine ⟨?_, ?_, ?_, ?_, ?_, ⟨⟨[], ?_, by simp⟩, ?_, ?_⟩, ?_⟩
  all_goals unfold setBytes; rcases hd : bs.data <;> simp_all [bytes]

end Stores

theorem data_ne_null {bs : BitStream} (h : 0 < bs.bytes.length) : bs.data ≠ .null := by
  intro hn
  simp [bytes, hn] at h

theorem holds_append {buf : List Byte} {l : List Bool} (h : Holds buf l) (input : List Byte) {n : Nat}
    (hm : l.length % 8 = 0)
    (hn : n ≤ input.length) (hroom : l.length + 8 * n ≤ 8 * buf.length) :
    Holds (buf.take (l.length / 8) ++ memcpy (buf.drop (l.length / 8)) input n) (l ++ bits (input.take n)) := by
  have hbits : (bits (input.take n)).length = 8 * n := by simp; omega
  have htake : (buf.take (l.length / 8)).length = l.length / 8 := by simp; omega
  refine ⟨by simp; omega, ?_⟩
  intro i hi
  rw [List.length_append, hbits] at hi
  rw [bit_append, htake, getD_append]
  by_cases hlow : i < l.length
  · rw [if_pos (by omega), if_pos hlow, bit_take _ _ _ (by omega), h.2 i (by omega)]
  · rw [if_neg (by omega), if_neg hlow, bits_getD, bit_take _ _ _ (by omega), show 8 * (l.length / 8) = l.length by omega]
    unfold bit
    rw [memcpy_getD, if_pos (by simp; omega)]

/-- `Write(const char*, int)` appends the bytes, by the fast path or by `WriteBits`. -/
theorem writeArray_spec (g : Junk) {bs : BitStream} {l : List Bool} (h : Wf bs l) (input : List Byte) {n : Nat}
    (hn : n ≤ input.length) (hsmall : 2 * (l.length + 8 * n) + 7 < 2147483648) :
    Wf (bs.writeArray g input n) (l ++ bits (input.take n)) ∧ Writes bs (bs.writeArray g input n) := by
  have hbits : (bits (input.take n)).length = 8 * n := by simp; omega
  have hcount : i32 ((n : Int) * 8) = (8 * n : Nat) := by rw [i32_of] <;> omega
  unfold writeArray
  split
  · rename_i h0
    have hn0 : n = 0 := by omega
    subst hn0
    rw [List.take_zero, show bits [] = [] from rfl, List.append_nil]
    exact ⟨h, .refl bs⟩
  rename_i h0
  rw [hcount]
  split
  · rename_i hm
    have hm' : l.length % 8 = 0 := by rw [h.used] at hm; omega
    obtain ⟨hw, hroom, hf⟩ := addBitsAndReallocate_spec g h (k := 8 * n) (by omega) hsmall
    obtain ⟨bs₁, hbs₁⟩ : ∃ bs₁, bs.addBitsAndReallocate g (8 * n : Nat) = bs₁ := ⟨_, rfl⟩
    rw [hbs₁] at hw hroom hf
    have hle := hw.allocatedLe
    have hlsmall := hw.small
    have hstart : bitsToBytes bs₁.numberOfBitsUsed = (l.length / 8 : Nat) := by
      unfold bitsToBytes
      rw [hw.used, i32_of] <;> omega
    have hin : Stores bs₁ ((bs₁.touch ⟨.input, 0, n, input.length⟩).touch
        ⟨.data, (l.length / 8 : Nat), ((l.length / 8 : Nat) : Int) + n, bs₁.bytes.length⟩) :=
      (Stores.touch bs₁ (by simp [Access.InBounds]; omega)).trans (.touch _ (by simp [Access.InBounds]; omega))
    have hlen : (bs₁.bytes.take (l.length / 8) ++ memcpy (bs₁.bytes.drop (l.length / 8)) input n).length =
      bs₁.bytes.length := by
      simp
      omega
    have hst := hin.trans (.overwrite _ hlen)
    have hdata : bs₁.data ≠ .null := data_ne_null (by omega)
    have hused : i32 (bs₁.numberOfBitsUsed + ((8 * n : Nat) : Int)) = ((l ++ bits (input.take n)).length : Nat) := by
      rw [hw.used, i32_of, List.length_append, hbits] <;> omega
    unfold appendArray bytesToBits
    simp only [hcount, hbs₁, hstart, Int.toNat_natCast, hst.used, hused]
    refine ⟨hst.wf hw _ (by rw [List.length_append, hbits]; exact hroom) (by rw [List.length_append, hbits]; omega) ?_,
      hf.trans (hst.writes.trans (.setUsed _ _))⟩
    rw [bytes_setBytes]
    · exact holds_append hw.holds input hm' hn (by omega)
    · intro hnull
      exact absurd hnull hdata
  · exact writeBits_bytes g h input true hn hsmall

/-! ## Calls -/

inductive Op where
  | write0
  | write1
  | writeArray (input : List Byte) (numberOfBytes : Nat)
  /-- Right-aligned. -/
  | writeBits (input : List Byte) (numberOfBits : Nat)
  | writeBool (var : Bool)
  | write (var : List Byte)
  | reset
  | setWriteOffset (offset : Nat)
  deriving DecidableEq, Repr

def perform (g : Junk) (bs : BitStream) : Op → BitStream
  | .write0 => bs.write0 g
  | .write1 => bs.write1 g
  | .writeArray input numberOfBytes => bs.writeArray g input numberOfBytes
  | .writeBits input numberOfBits => bs.writeBits g input numberOfBits true
  | .writeBool var => bs.writeBool g var
  | .write var => bs.write g var
  | .reset => bs.reset
  | .setWriteOffset offset => bs.setWriteOffset offset

def Op.apply (l : List Bool) : Op → List Bool
  | .write0 => l ++ [false]
  | .write1 => l ++ [true]
  | .writeArray input numberOfBytes => l ++ bits (input.take numberOfBytes)
  | .writeBits input numberOfBits => l ++ srcBits input numberOfBits
  | .writeBool var => l ++ [var]
  | .write var => l ++ bits var
  | .reset => []
  | .setWriteOffset offset => l.take offset

/-- What the caller of a function has to provide. -/
def Op.Provides (l : List Bool) : Op → Prop
  | .writeArray input numberOfBytes => numberOfBytes ≤ input.length
  | .writeBits input numberOfBits => numberOfBits ≤ 8 * input.length
  | .setWriteOffset offset => offset ≤ l.length ∧ offset % 8 = 0
  | _ => True

/-- And the stream stays below 2^26 bytes. -/
def Op.Allowed (l : List Bool) (op : Op) : Prop := op.Provides l ∧ (op.apply l).length < 8 * 67108864

instance (l : List Bool) : (op : Op) → Decidable (op.Provides l)
  | .writeArray input numberOfBytes => inferInstanceAs (Decidable (numberOfBytes ≤ input.length))
  | .writeBits input numberOfBits => inferInstanceAs (Decidable (numberOfBits ≤ 8 * input.length))
  | .setWriteOffset offset => inferInstanceAs (Decidable (offset ≤ l.length ∧ offset % 8 = 0))
  | .write0 | .write1 | .writeBool _ | .write _ | .reset => .isTrue trivial

instance (l : List Bool) (op : Op) : Decidable (op.Allowed l) := inferInstanceAs (Decidable (_ ∧ _))

theorem srcBits_length (input : List Byte) : ∀ k ≤ 8 * input.length, (srcBits input k).length = k := by
  induction input with
  | nil => intro k hk; simp at hk; subst hk; rfl
  | cons b input ih =>
    intro k hk
    rw [srcBits, List.length_append, chunkBits_length, ih (k - 8) (by simp at hk; omega)]
    omega

/-- Each function keeps the invariant and does to the bits what it does to a list. -/
theorem perform_spec (g : Junk) {bs : BitStream} {l : List Bool} (h : Wf bs l) {op : Op} (ha : op.Allowed l) :
    Wf (bs.perform g op) (op.apply l) ∧ Contained bs (bs.perform g op) := by
  obtain ⟨hp, hsize⟩ := ha
  have hl := h.small
  cases op with
  | write0 =>
    simp only [Op.apply, List.length_append, List.length_singleton] at hsize
    obtain ⟨hw, hc⟩ := writeBool_spec g h false (by omega)
    exact ⟨hw, hc.toContained⟩
  | write1 =>
    simp only [Op.apply, List.length_append, List.length_singleton] at hsize
    obtain ⟨hw, hc⟩ := writeBool_spec g h true (by omega)
    exact ⟨hw, hc.toContained⟩
  | writeBool var =>
    simp only [Op.apply, List.length_append, List.length_singleton] at hsize
    obtain ⟨hw, hc⟩ := writeBool_spec g h var (by omega)
    exact ⟨hw, hc.toContained⟩
  | writeArray input n =>
    have hn : n ≤ input.length := hp
    simp only [Op.apply, List.length_append, bits_length, List.length_take, Nat.min_eq_left hn] at hsize
    obtain ⟨hw, hc⟩ := writeArray_spec g h input hn (by omega)
    exact ⟨hw, hc.toContained⟩
  | writeBits input k =>
    have hk : k ≤ 8 * input.length := hp
    simp only [Op.apply, List.length_append, srcBits_length input k hk] at hsize
    obtain ⟨hw, hc⟩ : Wf (bs.writeBits g input k true) (l ++ srcBits input k) ∧ Writes bs (bs.writeBits g input k true) :=
      writeBits_spec g h input hk (.inl rfl) (by omega)
    exact ⟨hw, hc.toContained⟩
  | write var =>
    simp only [Op.apply, List.length_append, bits_length] at hsize
    obtain ⟨hw, hc⟩ := writeBits_bytes g h var (n := var.length) true (Nat.le_refl _) (by omega)
    rw [List.take_length] at hw
    exact ⟨hw, hc.toContained⟩
  | reset =>
    have hpos := h.usedLe
    rw [show Op.apply l .reset = [] from rfl]
    exact ⟨⟨⟨rfl, by decide, .nil _⟩, by show (0 : Int) ≤ bs.numberOfBitsAllocated; omega, h.allocatedLe,
      h.allocatedSmall, h.stackLength⟩,
      .refl bs, rfl, fun hc => ⟨hc, rfl⟩⟩
  | setWriteOffset offset =>
    exact ⟨h.setWriteOffset hp.1 hp.2, .refl bs, rfl, fun hc => ⟨hc, rfl⟩⟩

/-! ## Streams -/

inductive Source where
  | none
  | buffer (data : List Byte) (copyData : Bool)

namespace Source

def build (g : Junk) : Source → BitStream
  | .none => empty g
  | .buffer data copyData => ofBuffer g data data.length copyData

def bytes : Source → List Byte
  | .none => []
  | .buffer data _ => data

/-- The caller's bytes that the stream itself works on. -/
def borrowed : Source → List Byte
  | .none => []
  | .buffer data copyData => if copyData then [] else data

end Source

theorem borrow_spec (g : Junk) {data : List Byte} (hsmall : data.length < 67108864) :
    Wf (ofBuffer g data data.length false) (bits data) ∧ (ofBuffer g data data.length false).caller = data ∧
      (ofBuffer g data data.length false).trace = [] := by
  have hbits : i32 (u32 ((data.length : Int) * 8)) = (8 * data.length : Nat) := by rw [u32_of, i32_of] <;> omega
  have hl : (bits data).length = 8 * data.length := bits_length data
  unfold ofBuffer
  simp only [hbits]
  refine ⟨⟨⟨by rw [hl]; rfl, by omega, ⟨by rw [hl]; exact Nat.le_refl _, fun i _ => (bits_getD data i).symm⟩⟩, ?_,
    ?_, ?_, stackJunk_length g⟩,
    rfl, rfl⟩
  · rw [hl]
    exact Int.le_refl _
  · show ((8 * data.length : Nat) : Int) ≤ 8 * (data.length : Nat)
    omega
  · show ((8 * data.length : Nat) : Int) ≤ 2147483640
    omega

theorem ofBuffer_caller (g : Junk) (data : List Byte) (n : Nat) : (ofBuffer g data n true).caller = [] := by
  unfold ofBuffer
  by_cases h0 : 0 < n
  · by_cases h : n < stackAllocationSize
    · simp [h0, h, setBytes, touch]
    · simp [h0, h, setBytes, touch]
  · simp [h0]

theorem build_spec (g : Junk) (src : Source) (hsmall : src.bytes.length < 67108864) :
    Wf (src.build g) (bits src.bytes) ∧ (src.build g).caller = src.borrowed ∧ ∀ a ∈ (src.build g).trace, a.InBounds := by
  cases src with
  | none => exact ⟨empty_wf g, rfl, by simp [Source.build, empty]⟩
  | buffer data copyData =>
    have hd : data.length < 67108864 := hsmall
    cases copyData with
    | false =>
      obtain ⟨hw, hc, ht⟩ := borrow_spec g hd
      refine ⟨hw, hc, ?_⟩
      show ∀ a ∈ (ofBuffer g data data.length false).trace, a.InBounds
      rw [ht]
      simp
    | true =>
      obtain ⟨hw, -, ht⟩ := ofBuffer_spec g data (Nat.le_refl _) (by omega)
      rw [List.take_length] at hw
      refine ⟨hw, ofBuffer_caller g data data.length, ?_⟩
      have hle := hw.allocatedLe
      have hus := hw.usedLe
      rw [bits_length] at hus
      show ∀ a ∈ (ofBuffer g data data.length true).trace, a.InBounds
      rw [ht]
      split
      · simp [Access.InBounds]
        omega
      · simp

/-! ## Runs -/

def stepBoth (g : Junk) (x : BitStream × List Bool) (op : Op) : BitStream × List Bool := (x.1.perform g op, op.apply x.2)

/-- The stream's used bits are the list's; so far nothing was accessed outside the storage
    in use: 256 bytes inline, what was allocated, or the caller's `n` bytes. -/
structure Follows (n : Nat) (x : BitStream × List Bool) : Prop where
  view : View x.1 x.2
  accesses : ∀ a ∈ x.1.trace, a.InBounds
  stackData : x.1.stackData.length = stackAllocationSize
  caller : x.1.caller.length = n

/-- A stream that is not in the caller's buffer does not get back there, and leaves it as
    it is. -/
def LeavesCaller (bs bs' : BitStream) : Prop := bs.data ≠ .caller → bs'.data ≠ .caller ∧ bs'.caller = bs.caller

theorem stepBoth_follows (g : Junk) {n : Nat} {x : BitStream × List Bool} (h : Wf x.1 x.2) (hf : Follows n x) {op : Op}
    (ha : op.Allowed x.2) : Wf (stepBoth g x op).1 (stepBoth g x op).2 ∧ Follows n (stepBoth g x op) ∧
      LeavesCaller x.1 (stepBoth g x op).1 := by
  obtain ⟨hw, hc⟩ := perform_spec g h ha
  refine ⟨hw, ⟨hw.toView, ?_, hw.stackLength, hc.callerLength.trans hf.caller⟩, hc.caller⟩
  intro a hmem
  obtain ⟨t, ht, hin⟩ := hc.accesses
  have hmem' : a ∈ x.1.trace ++ t := ht ▸ hmem
  rcases List.mem_append.mp hmem' with hold | hnew
  · exact hf.accesses a hold
  · exact hin a hnew

/-- A stream over any storage follows the list of its bits through any calls. -/
theorem stream_refines_list (g : Junk) (src : Source) (hsrc : src.bytes.length < 67108864) (ops : List Op)
    (hops : Along Op.apply Op.Allowed ops (bits src.bytes)) :
    Follows src.borrowed.length (src.build g, bits src.bytes) ∧
      Along (stepBoth g) (fun x op => Follows src.borrowed.length (stepBoth g x op) ∧
        LeavesCaller x.1 (stepBoth g x op).1) ops
        (src.build g, bits src.bytes) := by
  obtain ⟨hw, hcaller, haccess⟩ := build_spec g src hsrc
  have hstart : Follows src.borrowed.length (src.build g, bits src.bytes) :=
    ⟨hw.toView, haccess, hw.stackLength, congrArg List.length hcaller⟩
  refine ⟨hstart, ?_⟩
  exact Along.imp_of_inv (I := fun x => Wf x.1 x.2 ∧ Follows src.borrowed.length x) (Q := fun x op => op.Allowed x.2)
    (fun x op hi ha => ⟨(stepBoth_follows g hi.1 hi.2 ha).1, (stepBoth_follows g hi.1 hi.2 ha).2.1⟩)
    (fun x op hi ha => (stepBoth_follows g hi.1 hi.2 ha).2) ops ⟨hw, hstart⟩
    (Along.proj (f := Prod.snd) (fun _ _ => rfl) ops hops)

/-- A stream over three of the caller's bytes: a rewind and a byte stay in the buffer, the
    bits behind them do not. -/
theorem borrowed_then_grown :
    Follows 3 ((Source.buffer [1, 2, 3] false).build fun _ _ => 0xCD, bits [1, 2, 3]) ∧
      Along (stepBoth fun _ _ => 0xCD)
        (fun x op => Follows 3 (stepBoth (fun _ _ => 0xCD) x op) ∧ LeavesCaller x.1 (stepBoth (fun _ _ => 0xCD) x op).1)
        [.setWriteOffset 16, .writeArray [0xAA] 1, .write1, .writeBits [0x5] 3, .reset]
        ((Source.buffer [1, 2, 3] false).build fun _ _ => 0xCD, bits [1, 2, 3]) :=
  stream_refines_list _ (.buffer [1, 2, 3] false) (by decide) _
    ⟨by decide, by decide, by decide, by decide, by decide, trivial⟩

end BitStream

end RakHook
