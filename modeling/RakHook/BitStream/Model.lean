/-
  RakHook.BitStream.Model — `RakNet::BitStream` (src/RakNet/BitStream.cpp, release build,
  little-endian 32-bit target, so `DoEndianSwap` is false).

  `int` fields are `Int`s in range, every computation on them goes through `i32`. `data`
  says which of the three storages the pointer is at; each storage keeps its own bytes.
  New memory holds junk: `g n` is what a fresh block of `n` bytes contains (within one
  stream every block is larger than the one before, so no two share a size), `g 0` what
  `stackData` contains. `trace` is ghost: every access to `data`, to the output buffer of
  a read and to the input buffer of a write, with the size of the buffer it goes to.
-/

import RakHook.Lib.Bits
import RakHook.Lib.Word

namespace RakHook

open Lib

def bitsToBytes (x : Int) : Int := i32 (x + 7) / 8

def bytesToBits (x : Int) : Int := i32 (x * 8)

abbrev Junk := Nat → Nat → Byte

def malloc (g : Junk) (n : Nat) : List Byte := (List.range n).map (g n)

def memcpy (dst src : List Byte) (n : Int) : List Byte :=
  (List.range dst.length).map fun (i : Nat) => if (i : Int) < n then src.getD i 0 else dst.getD i 0

def stackAllocationSize : Nat := 256

inductive Buf where
  | data
  | input
  | output
  deriving DecidableEq, Repr

/-- Bytes `lo` to `hi - 1` of a buffer of `cap` bytes are read or written. -/
structure Access where
  buf : Buf
  lo : Int
  hi : Int
  cap : Int
  deriving DecidableEq, Repr

def Access.InBounds (a : Access) : Prop := a.lo < a.hi → 0 ≤ a.lo ∧ a.hi ≤ a.cap

instance (a : Access) : Decidable a.InBounds := inferInstanceAs (Decidable (_ → _))

inductive Place where
  | stackData
  | heap
  | caller
  | null
  deriving DecidableEq, Repr

structure BitStream where
  numberOfBitsUsed : Int
  numberOfBitsAllocated : Int
  readOffset : Int
  data : Place
  copyData : Bool
  stackData : List Byte
  heap : List Byte
  caller : List Byte
  trace : List Access
  deriving DecidableEq, Repr

namespace BitStream

/-- The storage `data` points to. -/
def bytes (bs : BitStream) : List Byte :=
  match bs.data with
  | .stackData => bs.stackData
  | .heap => bs.heap
  | .caller => bs.caller
  | .null => []

def setBytes (bs : BitStream) (l : List Byte) : BitStream :=
  match bs.data with
  | .stackData => { bs with stackData := l }
  | .heap => { bs with heap := l }
  | .caller => { bs with caller := l }
  | .null => bs

def touch (bs : BitStream) (a : Access) : BitStream := { bs with trace := bs.trace ++ [a] }

def load (bs : BitStream) (i : Int) : Byte := bs.bytes.getD i.toNat 0

def touchData (bs : BitStream) (i : Int) : BitStream := bs.touch ⟨.data, i, i + 1, bs.bytes.length⟩

def store (bs : BitStream) (i : Int) (b : Byte) : BitStream := (bs.touchData i).setBytes (bs.bytes.set i.toNat b)

def orStore (bs : BitStream) (i : Int) (b : Byte) : BitStream := bs.store i (bs.load i ||| b)

/-! ## Construction and accessors -/

def empty (g : Junk) : BitStream :=
  { numberOfBitsUsed := 0, numberOfBitsAllocated := stackAllocationSize * 8, readOffset := 0, data := .stackData,
    copyData := true, stackData := (List.range stackAllocationSize).map (g 0), heap := [], caller := [], trace := [] }

/-- `BitStream(unsigned char*, unsigned int, bool)`. -/
def ofBuffer (g : Junk) (_data : List Byte) (lengthInBytes : Nat) (_copyData : Bool) : BitStream :=
  let bs : BitStream :=
    { numberOfBitsUsed := i32 (u32 (lengthInBytes * 8)), numberOfBitsAllocated := i32 (u32 (lengthInBytes * 8)),
      readOffset := 0, data := .null, copyData := _copyData, stackData := (List.range stackAllocationSize).map (g 0),
      heap := [], caller := [], trace := [] }
  if _copyData then
    if 0 < lengthInBytes then
      let bs :=
        if lengthInBytes < stackAllocationSize then
          { bs with data := .stackData, numberOfBitsAllocated := stackAllocationSize * 8 }
        else { bs with data := .heap, heap := malloc g lengthInBytes }
      let bs := bs.touch ⟨.input, 0, lengthInBytes, _data.length⟩
      (bs.touch ⟨.data, 0, lengthInBytes, bs.bytes.length⟩).setBytes (memcpy bs.bytes _data lengthInBytes)
    else bs
  else { bs with data := .caller, caller := _data }

def getNumberOfBytesUsed (bs : BitStream) : Int := bitsToBytes bs.numberOfBitsUsed

def getReadOffset (bs : BitStream) : Int := bs.readOffset

def getNumberOfUnreadBits (bs : BitStream) : Int := i32 (bs.numberOfBitsUsed - bs.readOffset)

def getData (bs : BitStream) : List Byte := bs.bytes

def ignoreBits (bs : BitStream) (numberOfBits : Int) : BitStream :=
  { bs with readOffset := i32 (bs.readOffset + numberOfBits) }

def setWriteOffset (bs : BitStream) (offset : Int) : BitStream := { bs with numberOfBitsUsed := offset }

def reset (bs : BitStream) : BitStream := { bs with numberOfBitsUsed := 0, readOffset := 0 }

/-! ## Storage growth -/

/-- `realloc`: the old bytes, then junk. -/
def realloc (g : Junk) (old : List Byte) (n : Nat) : List Byte := memcpy (malloc g n) old old.length

/-- Move the contents to `place`, whose bytes are `dst`: the `memcpy` of `AddBitsAndReallocate`. -/
def moveTo (bs : BitStream) (place : Place) (dst : List Byte) : BitStream :=
  let n := bitsToBytes bs.numberOfBitsAllocated
  let src := bs.bytes
  let bs := ({ bs with data := place }.touch ⟨.input, 0, n, src.length⟩).touch ⟨.data, 0, n, dst.length⟩
  bs.setBytes (memcpy dst src n)

/-- The storage part of `AddBitsAndReallocate`. -/
def reallocate (g : Junk) (bs : BitStream) (amountToAllocate : Int) : BitStream :=
  let block := malloc g (u32 amountToAllocate).toNat
  if bs.data = .stackData then
    if (stackAllocationSize : Int) < amountToAllocate then bs.moveTo .heap block else bs
  else if bs.copyData then { bs with data := .heap, heap := realloc g bs.bytes (u32 amountToAllocate).toNat }
  else
    let bs :=
      if (stackAllocationSize : Int) < amountToAllocate then bs.moveTo .heap block
      else bs.moveTo .stackData bs.stackData
    { bs with copyData := true }

def addBitsAndReallocate (g : Junk) (bs : BitStream) (numberOfBitsToWrite : Int) : BitStream :=
  if numberOfBitsToWrite ≤ 0 then bs
  else
    let needed := i32 (numberOfBitsToWrite + bs.numberOfBitsUsed)
    if 0 < needed ∧ i32 (bs.numberOfBitsAllocated - 1) / 8 < i32 (needed - 1) / 8 then
      let newNumberOfBitsAllocated := i32 (needed * 2)
      let bs := bs.reallocate g (bitsToBytes newNumberOfBitsAllocated)
      if bs.numberOfBitsAllocated < newNumberOfBitsAllocated then
        { bs with numberOfBitsAllocated := newNumberOfBitsAllocated }
      else bs
    else if bs.numberOfBitsAllocated < needed then { bs with numberOfBitsAllocated := needed }
    else bs

/-! ## Writing -/

/-- The stores of one round of `WriteBits`. -/
def storeDataByte (bs : BitStream) (mod : Nat) (numberOfBitsToWrite : Int) (dataByte : Byte) : BitStream :=
  if mod = 0 then bs.store (bs.numberOfBitsUsed / 8) dataByte
  else
    let first := bs.orStore (bs.numberOfBitsUsed / 8) (dataByte >>> mod)
    if 8 - mod < 8 ∧ (8 - mod : Int) < numberOfBitsToWrite then
      first.store (bs.numberOfBitsUsed / 8 + 1) (dataByte <<< (8 - mod))
    else first

/-- The loop of `WriteBits`; `mod` is `numberOfBitsUsedMod8`. -/
def writeBitsLoop (rightAlignedBits : Bool) (mod : Nat) : List Byte → Int → BitStream → BitStream
  | [], numberOfBitsToWrite, bs =>
    if 0 < numberOfBitsToWrite then bs.touch ⟨.input, 0, 1, 0⟩ else bs
  | b :: input, numberOfBitsToWrite, bs =>
    if 0 < numberOfBitsToWrite then
      let dataByte := if numberOfBitsToWrite < 8 ∧ rightAlignedBits then b <<< (8 - numberOfBitsToWrite).toNat else b
      let bs := bs.storeDataByte mod numberOfBitsToWrite dataByte
      let bs := { bs with
        numberOfBitsUsed := i32 (bs.numberOfBitsUsed + if 8 ≤ numberOfBitsToWrite then 8 else numberOfBitsToWrite) }
      writeBitsLoop rightAlignedBits mod input (numberOfBitsToWrite - 8) bs
    else bs

def writeBits (g : Junk) (bs : BitStream) (input : List Byte) (numberOfBitsToWrite : Int) (rightAlignedBits : Bool) :
    BitStream :=
  if numberOfBitsToWrite ≤ 0 then bs
  else
    let bs := bs.addBitsAndReallocate g numberOfBitsToWrite
    writeBitsLoop rightAlignedBits (bs.numberOfBitsUsed % 8).toNat input numberOfBitsToWrite bs

def write0 (g : Junk) (bs : BitStream) : BitStream :=
  let bs := bs.addBitsAndReallocate g 1
  let bs := if bs.numberOfBitsUsed % 8 = 0 then bs.store (bs.numberOfBitsUsed / 8) 0 else bs
  { bs with numberOfBitsUsed := i32 (bs.numberOfBitsUsed + 1) }

def write1 (g : Junk) (bs : BitStream) : BitStream :=
  let bs := bs.addBitsAndReallocate g 1
  let mod := (bs.numberOfBitsUsed % 8).toNat
  let bs :=
    if mod = 0 then bs.store (bs.numberOfBitsUsed / 8) 0x80
    else bs.orStore (bs.numberOfBitsUsed / 8) ((0x80 : Byte) >>> mod)
  { bs with numberOfBitsUsed := i32 (bs.numberOfBitsUsed + 1) }

/-- `Write(bool)`. -/
def writeBool (g : Junk) (bs : BitStream) (var : Bool) : BitStream := if var then bs.write1 g else bs.write0 g

/-- `Write(templateType)` of an integer, given as its bytes in memory. -/
def write (g : Junk) (bs : BitStream) (var : List Byte) : BitStream := bs.writeBits g var (8 * var.length) true

/-- The branch of `Write(const char*, int)` for a stream that ends on a byte boundary. -/
def appendArray (g : Junk) (bs : BitStream) (input : List Byte) (numberOfBytes : Int) : BitStream :=
  let bs := bs.addBitsAndReallocate g (bytesToBits numberOfBytes)
  let start := bitsToBytes bs.numberOfBitsUsed
  let dst := bs.bytes
  let bs := (bs.touch ⟨.input, 0, numberOfBytes, input.length⟩).touch ⟨.data, start, start + numberOfBytes, dst.length⟩
  let bs := bs.setBytes (dst.take start.toNat ++ memcpy (dst.drop start.toNat) input numberOfBytes)
  { bs with numberOfBitsUsed := i32 (bs.numberOfBitsUsed + bytesToBits numberOfBytes) }

/-- `Write(const char*, int)`. -/
def writeArray (g : Junk) (bs : BitStream) (input : List Byte) (numberOfBytes : Int) : BitStream :=
  if numberOfBytes = 0 then bs
  else if bs.numberOfBitsUsed % 8 = 0 then bs.appendArray g input numberOfBytes
  else bs.writeBits g input (i32 (numberOfBytes * 8)) true

/-- The loop of `Write(BitStream*, int)`; `src` is what the other stream has left to read. -/
def writeStreamLoop : List Bool → Int → BitStream → BitStream
  | [], _, bs => bs
  | b :: src, numberOfBits, bs =>
    if 0 < numberOfBits then
      let mod := (bs.numberOfBitsUsed % 8).toNat
      let bs :=
        if mod = 0 then bs.store (bs.numberOfBitsUsed / 8) (if b then 0x80 else 0)
        else if b then bs.orStore (bs.numberOfBitsUsed / 8) ((0x80 : Byte) >>> mod)
        else bs
      writeStreamLoop src (numberOfBits - 1) { bs with numberOfBitsUsed := i32 (bs.numberOfBitsUsed + 1) }
    else bs

/-- `Write(BitStream*, int)`. -/
def writeStream (g : Junk) (bs : BitStream) (src : List Bool) (numberOfBits : Int) : BitStream :=
  writeStreamLoop src numberOfBits (bs.addBitsAndReallocate g numberOfBits)

def alignWriteToByteBoundary (bs : BitStream) : BitStream :=
  if bs.numberOfBitsUsed = 0 then bs
  else { bs with numberOfBitsUsed := i32 (bs.numberOfBitsUsed + (8 - ((bs.numberOfBitsUsed - 1) % 8 + 1))) }

def byteMatch (unsignedData : Bool) : Byte := if unsignedData then 0 else 0xFF

def halfByteMatch (unsignedData : Bool) : Byte := if unsignedData then 0 else 0xF0

def writeCompressedFrom (g : Junk) (input : List Byte) (unsignedData : Bool) : Nat → BitStream → BitStream
  | 0, bs =>
    if input.getD 0 0 &&& 0xF0 = halfByteMatch unsignedData then (bs.writeBool g true).writeBits g input 4 true
    else (bs.writeBool g false).writeBits g input 8 true
  | currentByte + 1, bs =>
    if input.getD (currentByte + 1) 0 = byteMatch unsignedData then
      writeCompressedFrom g input unsignedData currentByte (bs.writeBool g true)
    else (bs.writeBool g false).writeBits g input (8 * (currentByte + 2)) true

/-- `WriteCompressed(const unsigned char*, int, bool)` of a value of `input.length` bytes. -/
def writeCompressed (g : Junk) (bs : BitStream) (input : List Byte) (unsignedData : Bool) : BitStream :=
  writeCompressedFrom g input unsignedData (input.length - 1) bs

/-! ## Reading -/

/-- `output[i] = f(output[i])`. -/
def touchOutput (bs : BitStream) (output : List Byte) (i : Nat) : BitStream :=
  bs.touch ⟨.output, i, i + 1, output.length⟩

/-- Whether the bits wanted from the byte at the read offset run into the next byte. -/
def overlaps (mod : Nat) (numberOfBitsToRead : Int) : Bool := 0 < mod ∧ (8 - mod : Int) < numberOfBitsToRead

/-- `*(output + offset)` after the first and the second half are OR-ed into `byte`. -/
def orHalves (bs : BitStream) (mod : Nat) (numberOfBitsToRead : Int) (byte : Byte) : Byte :=
  let byte := byte ||| bs.load (bs.readOffset / 8) <<< mod
  if overlaps mod numberOfBitsToRead then byte ||| bs.load (bs.readOffset / 8 + 1) >>> (8 - mod) else byte

def touchHalves (bs : BitStream) (mod : Nat) (numberOfBitsToRead : Int) (output : List Byte) (offset : Nat) : BitStream :=
  let bs' := (bs.touchData (bs.readOffset / 8)).touchOutput output offset
  if overlaps mod numberOfBitsToRead then bs'.touchData (bs.readOffset / 8 + 1) else bs'

/-- The loop of `ReadBits` from byte `offset` of the output on; `mod` is `readOffsetMod8`.
    Every round lowers `numberOfBitsToRead`, so `fuel` rounds are enough once `fuel` is
    at least it. -/
def readBitsLoop (alignBitsToRight : Bool) (mod : Nat) :
    (fuel : Nat) → (offset : Nat) → Int → BitStream → List Byte → BitStream × List Byte
  | 0, _, _, bs, output => (bs, output)
  | fuel + 1, offset, numberOfBitsToRead, bs, output =>
    if 0 < numberOfBitsToRead then
      let byte := bs.orHalves mod numberOfBitsToRead (output.getD offset 0)
      let bs := bs.touchHalves mod numberOfBitsToRead output offset
      let left := numberOfBitsToRead - 8
      if left < 0 then
        let byte := if alignBitsToRight then byte >>> (-left).toNat else byte
        ({ bs with readOffset := i32 (bs.readOffset + (8 + left)) }, output.set offset byte)
      else
        readBitsLoop alignBitsToRight mod fuel (offset + 1) left
          { bs with readOffset := i32 (bs.readOffset + 8) } (output.set offset byte)
    else (bs, output)

def clear (output : List Byte) (n : Int) : List Byte := memcpy output [] n

def readBits (bs : BitStream) (output : List Byte) (numberOfBitsToRead : Int) (alignBitsToRight : Bool) :
    Bool × BitStream × List Byte :=
  if numberOfBitsToRead ≤ 0 then (false, bs, output)
  else if bs.numberOfBitsUsed < i32 (bs.readOffset + numberOfBitsToRead) then (false, bs, output)
  else
    let size := u32 (bitsToBytes numberOfBitsToRead)
    let bs := bs.touch ⟨.output, 0, size, output.length⟩
    (true, readBitsLoop alignBitsToRight (bs.readOffset % 8).toNat numberOfBitsToRead.toNat 0 numberOfBitsToRead bs
      (clear output size))

/-- `Read(bool&)`. -/
def readBool (bs : BitStream) : Option Bool × BitStream :=
  if bs.numberOfBitsUsed < i32 (bs.readOffset + 1) then (none, bs)
  else
    (some (bs.load (bs.readOffset / 8) &&& (0x80 : Byte) >>> (bs.readOffset % 8).toNat != 0),
      { bs.touchData (bs.readOffset / 8) with readOffset := i32 (bs.readOffset + 1) })

/-- `Read(templateType&)` of an integer held in the bytes `var`. -/
def read (bs : BitStream) (var : List Byte) : Bool × BitStream × List Byte := bs.readBits var (8 * var.length) true

/-- `Read(char*, int)`. -/
def readArray (bs : BitStream) (output : List Byte) (numberOfBytes : Int) : Bool × BitStream × List Byte :=
  if bs.readOffset % 8 = 0 then
    if bs.numberOfBitsUsed < i32 (bs.readOffset + bytesToBits numberOfBytes) then (false, bs, output)
    else
      let start := bs.readOffset / 8
      let output' := memcpy output (bs.bytes.drop start.toNat) numberOfBytes
      let bs := (bs.touch ⟨.data, start, start + numberOfBytes, bs.bytes.length⟩).touch
        ⟨.output, 0, numberOfBytes, output.length⟩
      (true, { bs with readOffset := i32 (bs.readOffset + bytesToBits numberOfBytes) }, output')
  else bs.readBits output (i32 (numberOfBytes * 8)) true

def readCompressedFrom (unsignedData : Bool) : Nat → BitStream → List Byte → Bool × BitStream × List Byte
  | 0, bs, output =>
    if bs.numberOfBitsUsed < i32 (bs.readOffset + 1) then (false, bs, output)
    else
      match bs.readBool with
      | (none, bs) => (false, bs, output)
      | (some true, bs) =>
        match bs.readBits output 4 true with
        | (false, bs, output) => (false, bs, output)
        | (true, bs, output) => (true, bs, output.set 0 (output.getD 0 0 ||| halfByteMatch unsignedData))
      | (some false, bs) => bs.readBits output 8 true
  | currentByte + 1, bs, output =>
    match bs.readBool with
    | (none, bs) => (false, bs, output)
    | (some true, bs) =>
      readCompressedFrom unsignedData currentByte bs (output.set (currentByte + 1) (byteMatch unsignedData))
    | (some false, bs) => bs.readBits output (8 * (currentByte + 2)) true

/-- `ReadCompressed(unsigned char*, int, bool)` into a value of `output.length` bytes. -/
def readCompressed (bs : BitStream) (output : List Byte) (unsignedData : Bool) : Bool × BitStream × List Byte :=
  readCompressedFrom unsignedData (output.length - 1) bs output

end BitStream

/-! ## `unsigned int` in memory -/

def le32 (c : BitVec 32) : List Byte :=
  [c.extractLsb' 0 8, c.extractLsb' 8 8, c.extractLsb' 16 8, c.extractLsb' 24 8]

def ofLe32 (l : List Byte) : BitVec 32 := l.getD 3 0 ++ l.getD 2 0 ++ l.getD 1 0 ++ l.getD 0 0

end RakHook
