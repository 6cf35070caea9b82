/-
  RakHook.BitStream.Calls — the stream as a callback uses it: reading and writing calls,
  and what each hands back.
-/

import RakHook.BitStream.Ops

namespace RakHook

open Lib

namespace BitStream

/-- What a reading call returns, and its output. -/
structure Answer where
  ok : Bool
  output : List Byte
  deriving DecidableEq, Repr

/-- `Read`, `ReadBits`, `ReadCompressed` and `IgnoreBits`, with the output as it is before. -/
inductive ReadCall where
  | readBool
  | readBits (output : List Byte) (numberOfBitsToRead : Int) (alignBitsToRight : Bool)
  | readArray (output : List Byte) (numberOfBytes : Int)
  | readCompressed (output : List Byte) (unsignedData : Bool)
  | ignoreBits (numberOfBits : Int)
  deriving DecidableEq, Repr

def ReadCall.read (var : List Byte) : ReadCall := .readBits var (8 * var.length) true

def ReadCall.run (bs : BitStream) : ReadCall → BitStream × Answer
  | .readBool => let r := bs.readBool; (r.2, ⟨r.1.isSome, [if r.1 = some true then 1 else 0]⟩)
  | .readBits output n align => let r := bs.readBits output n align; (r.2.1, ⟨r.1, r.2.2⟩)
  | .readArray output n => let r := bs.readArray output n; (r.2.1, ⟨r.1, r.2.2⟩)
  | .readCompressed output u => let r := bs.readCompressed output u; (r.2.1, ⟨r.1, r.2.2⟩)
  | .ignoreBits n => (bs.ignoreBits n, ⟨true, []⟩)

/-- Any call; a `Write(BitStream*, int)` is given the bits that are left in its source. -/
inductive Call where
  | read (c : ReadCall)
  | write (op : Op)
  | writeBits (input : List Byte) (numberOfBitsToWrite : Int) (rightAlignedBits : Bool)
  | writeCompressed (input : List Byte) (unsignedData : Bool)
  | writeStream (src : List Bool) (numberOfBits : Int)
  | alignWriteToByteBoundary
  deriving DecidableEq, Repr

def Call.run (g : Junk) (bs : BitStream) : Call → BitStream
  | .read c => (c.run bs).1
  | .write op => bs.perform g op
  | .writeBits input n rightAligned => bs.writeBits g input n rightAligned
  | .writeCompressed input u => bs.writeCompressed g input u
  | .writeStream src n => bs.writeStream g src n
  | .alignWriteToByteBoundary => bs.alignWriteToByteBoundary

/-! ## Reading calls -/

theorem readBool_frame (bs : BitStream) : Reads (fun _ => True) bs bs.readBool.2 := by
  unfold readBool
  split
  · exact .refl bs
  · exact .trans (.touch bs trivial) (.seek _ _)

theorem readArray_frame (bs : BitStream) (output : List Byte) (n : Int) :
    Reads (fun _ => True) bs (bs.readArray output n).2.1 := by
  unfold readArray
  split
  · split
    · exact .refl bs
    · exact .trans (.trans (.touch bs trivial) (.touch _ trivial)) (.seek _ _)
  · exact readBits_frame bs output _ true

theorem readCompressedFrom_frame (u : Bool) : ∀ (currentByte : Nat) (bs : BitStream) (output : List Byte),
    Reads (fun _ => True) bs (readCompressedFrom u currentByte bs output).2.1 := by
  intro currentByte
  induction currentByte with
  | zero =>
    intro bs output
    have hbool := readBool_frame bs
    unfold readCompressedFrom
    split
    · exact .refl bs
    · rcases hb : bs.readBool with ⟨_ | _ | _, bs₁⟩
      · rw [hb] at hbool
        exact hbool
      · rw [hb] at hbool
        exact hbool.trans (readBits_frame bs₁ output 8 true)
      · rw [hb] at hbool
        have hbits := readBits_frame bs₁ output 4 true
        rcases hr : bs₁.readBits output 4 true with ⟨_ | _, bs₂, output₂⟩
        · rw [hr] at hbits
          simp only [hr]
          exact hbool.trans hbits
        · rw [hr] at hbits
          simp only [hr]
          exact hbool.trans hbits
  | succ currentByte ih =>
    intro bs output
    have hbool := readBool_frame bs
    unfold readCompressedFrom
    rcases hb : bs.readBool with ⟨_ | _ | _, bs₁⟩
    · rw [hb] at hbool
      exact hbool
    · rw [hb] at hbool
      exact hbool.trans (readBits_frame bs₁ output _ true)
    · rw [hb] at hbool
      exact hbool.trans (ih bs₁ _)

theorem ReadCall.run_frame (bs : BitStream) (c : ReadCall) : Reads (fun _ => True) bs (c.run bs).1 := by
  cases c with
  | readBool => exact readBool_frame bs
  | readBits output n align => exact readBits_frame bs output n align
  | readArray output n => exact readArray_frame bs output n
  | readCompressed output u => exact readCompressedFrom_frame u _ bs output
  | ignoreBits n => exact .seek bs _

end BitStream

end RakHook
