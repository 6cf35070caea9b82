/-
  RakHook.Compressor.Model — `StringCompressor` (src/RakNet/StringCompressor.cpp).

  The trees are in a heap, and the map holds their addresses. A function is `none` where
  the code follows a null or dangling pointer, deletes a tree twice, runs over the end of
  an array or reads a string without a terminator.
-/

import RakHook.DataStructures.Map
import RakHook.Huffman.Code

namespace RakHook

open Lib

def le16 (c : BitVec 16) : List Byte := [c.extractLsb' 0 8, c.extractLsb' 8 8]

def ofLe16 (l : List Byte) : BitVec 16 := l.getD 1 0 ++ l.getD 0 0

def englishCharacterFrequencies : List Nat :=
  [0, 0, 0, 0, 0, 0, 0, 0, 0, 0, 722, 0, 0, 2, 0, 0, 0, 0, 0, 0, 0, 0, 0, 0, 0, 0, 0, 0, 0, 0, 0, 0,
    11084, 58, 63, 1, 0, 31, 0, 317, 64, 64, 44, 0, 695, 62, 980, 266, 69, 67, 56, 7, 73, 3, 14, 2, 69, 1, 167, 9, 1, 2,
    25, 94, 0, 195, 139, 34, 96, 48, 103, 56, 125, 653, 21, 5, 23, 64, 85, 44, 34, 7, 92, 76, 147, 12, 14, 57, 15, 39,
    15, 1, 1, 1, 2, 3, 0, 3611, 845, 1077, 1884, 5870, 841, 1057, 2501, 3212, 164, 531, 2019, 1330, 3056, 4037, 848, 47,
    2586, 2919, 4771, 1707, 535, 1106, 152, 1243, 100, 0, 2, 0, 10] ++ List.replicate 129 0

/-- The table as `GenerateFromFrequencyTable` reads it. -/
def englishTable (c : Byte) : BitVec 32 := BitVec.ofNat 32 (englishCharacterFrequencies.getD c.toNat 0)

/-- `strlen`; `none` without a terminator. -/
def strlen (s : List Byte) : Option Nat := if 0 ∈ s then some (s.idxOf 0) else none

/-- `Map<int, HuffmanEncodingTree *>` and what is behind the pointers. -/
structure StringCompressor where
  huffmanEncodingTrees : Map Int Nat
  trees : Heap HuffmanEncodingTree

namespace StringCompressor

section

variable (g : Junk) (junk : HuffmanEncodingTreeNode)

/-- `new HuffmanEncodingTree`, generated from a table and set for a language. -/
def newTree (s : StringCompressor) (frequencyTable : Byte → BitVec 32) (languageID : Int) : Option StringCompressor := do
  let t ← HuffmanEncodingTree.empty.generateFromFrequencyTable g junk frequencyTable
  let map ← s.huffmanEncodingTrees.set defaultMapKeyComparison languageID s.trees.top
  return { huffmanEncodingTrees := map, trees := s.trees.new t }

def new : Option StringCompressor := newTree g junk { huffmanEncodingTrees := .empty, trees := .empty } englishTable 0

def deleteTree (trees : Heap HuffmanEncodingTree) (p : Nat) : Option (Heap HuffmanEncodingTree) := do
  let t ← trees.get p
  let _ ← t.freeMemory
  trees.delete p

/-- `frequencyTable[ input[ index ] ] ++` over the input. -/
def frequencies (input : List Byte) (c : Byte) : BitVec 32 := BitVec.ofNat 32 (input.count c)

/-- The first part of `GenerateTreeFromStrings`: the language's tree, if there is one, is
    deleted. -/
def dropTree (s : StringCompressor) (languageID : Int) : Option StringCompressor := do
  let (known, map) ← s.huffmanEncodingTrees.has defaultMapKeyComparison languageID
  if known then
    let (p, map) ← map.get defaultMapKeyComparison languageID
    let trees ← deleteTree s.trees p
    return { huffmanEncodingTrees := map, trees := trees }
  else return { s with huffmanEncodingTrees := map }

def generateTreeFromStrings (s : StringCompressor) (input : List Byte) (languageID : Int) : Option StringCompressor := do
  let s ← s.dropTree languageID
  if input.length = 0 then return s else newTree g junk s (frequencies input) languageID

/-- The destructor's loop, from index `i` on. -/
def deleteLoop (map : Map Int Nat) : (count : Nat) → Nat → Heap HuffmanEncodingTree → Option (Heap HuffmanEncodingTree)
  | 0, _, trees => some trees
  | count + 1, i, trees => do
    let p ← map.atIndex i
    let trees ← deleteTree trees p
    deleteLoop map count (i + 1) trees

def destroy (s : StringCompressor) : Option (Heap HuffmanEncodingTree) :=
  deleteLoop s.huffmanEncodingTrees s.huffmanEncodingTrees.size 0 s.trees

/-- How `EncodeString` and `DecodeString` begin: they go on with the language's tree, and return
    `unknown` without one. -/
def withTree {β : Type} (s : StringCompressor) (languageID : Int) (unknown : β) (f : Nat → Option β) :
    Option (β × StringCompressor) := do
  let (known, map) ← s.huffmanEncodingTrees.has defaultMapKeyComparison languageID
  if known then
    let (p, map) ← map.get defaultMapKeyComparison languageID
    let result ← f p
    return (result, { s with huffmanEncodingTrees := map })
  else return (unknown, { s with huffmanEncodingTrees := map })

/-- What `EncodeString` writes of a string of `length` characters. -/
def charsToWrite (maxCharsToWrite : Int) (length : Nat) : Nat :=
  if maxCharsToWrite ≤ 0 ∨ (length : Int) < maxCharsToWrite then length else (maxCharsToWrite - 1).toNat

/-- The part of `EncodeString` behind the map; `input` is `none` for a null pointer. -/
def encodeWith (trees : Heap HuffmanEncodingTree) (p : Nat) (input : Option (List Byte)) (maxCharsToWrite : Int)
    (output : BitStream) : Option BitStream :=
  match input with
  | none => some (output.writeCompressed g (le16 0) true)
  | some input => do
    let length ← strlen input
    let t ← trees.get p
    let encodedBitStream ← t.encodeArray g (input.take (charsToWrite maxCharsToWrite length)) (.empty g)
    -- the number of bits is cast to `unsigned short`
    let stringBitLength : BitVec 16 := BitVec.ofInt 16 encodedBitStream.numberOfBitsUsed
    let output := output.writeCompressed g (le16 stringBitLength) true
    return output.writeBits g encodedBitStream.getData stringBitLength.toNat true

def encodeString (s : StringCompressor) (input : Option (List Byte)) (maxCharsToWrite : Int) (output : BitStream)
    (languageID : Int) : Option (BitStream × StringCompressor) :=
  s.withTree languageID output fun p => encodeWith g s.trees p input maxCharsToWrite output

end

/-- The part of `DecodeString` behind the map. `stack` is what `stringBitLength` holds before
    it is read. -/
def decodeWith (trees : Heap HuffmanEncodingTree) (p : Nat) (output : List Byte) (maxCharsToWrite : Int)
    (input : BitStream) (stack : List Byte) : Option (Bool × List Byte × BitStream) := do
  let output ← HuffmanEncodingTree.storeAt output 0 0
  let (ok, input, length) := input.readCompressed stack true
  if ok then
    let stringBitLength := (ofLe16 length).toNat
    if input.getNumberOfUnreadBits < stringBitLength then return (false, output, input)
    else
      let t ← trees.get p
      let (bytesInStream, input, output) ← t.decodeArray input stringBitLength (u32 maxCharsToWrite).toNat output
      let output ← HuffmanEncodingTree.storeAt output
        (if (bytesInStream : Int) < maxCharsToWrite then bytesInStream else maxCharsToWrite - 1) 0
      return (true, output, input)
  else return (false, output, input)

def decodeString (s : StringCompressor) (output : List Byte) (maxCharsToWrite : Int) (input : BitStream) (languageID : Int)
    (stack : List Byte) : Option ((Bool × List Byte × BitStream) × StringCompressor) :=
  s.withTree languageID (false, output, input) fun p => decodeWith s.trees p output maxCharsToWrite input stack

end StringCompressor

end RakHook
