/-
  RakHook.Huffman.Model — `HuffmanEncodingTree` (src/RakNet/DS_HuffmanEncodingTree.cpp).

  The nodes of a tree are in a heap of its own, and a pointer to one is its address. Every
  function is `none` where the code follows a null or dangling pointer, runs over the end
  of an array or frees a node twice. `junk` is what a new node holds before it is filled.
-/

import RakHook.BitStream.LeftAligned
import RakHook.DataStructures.LinkedList
import RakHook.DataStructures.Queue

namespace RakHook

open Lib

structure HuffmanEncodingTreeNode where
  value : Byte
  weight : BitVec 32
  left : Option Nat
  right : Option Nat
  parent : Option Nat
  deriving Repr

/-- `encoding` is an array of `new unsigned char[]`, the bits from the left. -/
structure CharacterEncoding where
  encoding : List Byte
  bitLength : Nat
  deriving DecidableEq, Repr

/-- An entry of `encodingTable` is `none` while it owns no array. -/
structure HuffmanEncodingTree where
  nodes : Heap HuffmanEncodingTreeNode
  root : Option Nat
  encodingTable : Byte → Option CharacterEncoding

/-- The characters in order: `for ( counter = 0; counter < 256; counter++ )`. -/
def characters : List Byte := (List.range 256).map (BitVec.ofNat 8)

namespace HuffmanEncodingTree

def empty : HuffmanEncodingTree := { nodes := .empty, root := none, encodingTable := fun _ => none }

/-! ## `FreeMemory` -/

/-- `if ( node ) nodeQueue.Push( node )`. -/
def pushChild (queue : Queue Nat) : Option Nat → Queue Nat
  | none => queue
  | some p => queue.push p

/-- The loop over `nodeQueue`. Every round frees a node, so one more than there are is
    enough `fuel`. -/
def freeLoop : (fuel : Nat) → Queue Nat → Heap HuffmanEncodingTreeNode → Option (Heap HuffmanEncodingTreeNode)
  | 0, _, _ => none
  | fuel + 1, nodeQueue, nodes =>
    if 0 < nodeQueue.size then do
      let (front, nodeQueue) := nodeQueue.pop
      let node ← front
      let n ← nodes.get node
      let nodeQueue := pushChild (pushChild nodeQueue n.left) n.right
      let nodes ← nodes.delete node
      freeLoop fuel nodeQueue nodes
    else some nodes

def freeMemory (t : HuffmanEncodingTree) : Option HuffmanEncodingTree :=
  match t.root with
  | none => some t
  | some root => do
    let nodes ← freeLoop (t.nodes.top + 1) (Queue.empty.push root) t.nodes
    if characters.all fun c => (t.encodingTable c).isSome then
      return { nodes := nodes, root := none, encodingTable := fun _ => none }
    else none

/-! ## `GenerateFromFrequencyTable` -/

section

variable (nodes : Heap HuffmanEncodingTreeNode)

/-- The loop of `InsertNodeIntoSortedList`; it looks at every node of the list at most
    once. -/
def insertLoop (node : Nat) : (fuel : Nat) → Nat → LinkedList Nat → Option (LinkedList Nat)
  | 0, _, _ => none
  | fuel + 1, counter, list => do
    let current ← list.peek
    let c ← nodes.get current
    let n ← nodes.get node
    if c.weight < n.weight then
      let list ← list.next false
      if counter + 1 = list.listSize then
        let list ← list.toEnd
        let (_, list) ← list.add node
        return list
      else insertLoop node fuel (counter + 1) list
    else list.insert node

def insertNodeIntoSortedList (node : Nat) (list : LinkedList Nat) : Option (LinkedList Nat) :=
  if list.listSize = 0 then list.insert node else insertLoop nodes node list.listSize 0 list.beginning

end

/-- The loop that makes the leaves; `leafList` grows at its end. -/
def leafLoop (junk : HuffmanEncodingTreeNode) (frequencyTable : Byte → BitVec 32) :
    List Byte → Heap HuffmanEncodingTreeNode → LinkedList Nat → List Nat →
      Option (Heap HuffmanEncodingTreeNode × LinkedList Nat × List Nat)
  | [], nodes, list, leafList => some (nodes, list, leafList)
  | counter :: cs, nodes, list, leafList => do
    let node := nodes.top
    let weight := if frequencyTable counter = 0 then 1 else frequencyTable counter
    let nodes := nodes.new { junk with left := none, right := none, value := counter, weight := weight }
    let list ← insertNodeIntoSortedList nodes node list
    leafLoop junk frequencyTable cs nodes list (leafList ++ [node])

/-- The loop that merges the two smallest trees. Every round leaves one less, so their
    number is enough `fuel`. -/
def mergeLoop (junk : HuffmanEncodingTreeNode) :
    (fuel : Nat) → Heap HuffmanEncodingTreeNode → LinkedList Nat → Option (Nat × Heap HuffmanEncodingTreeNode)
  | 0, _, _ => none
  | fuel + 1, nodes, list => do
    let (lesser, list) ← list.beginning.pop
    let (greater, list) ← list.pop
    let l ← nodes.get lesser
    let g ← nodes.get greater
    let node := nodes.top
    let nodes := nodes.new { junk with left := some lesser, right := some greater, weight := l.weight + g.weight }
    let nodes ← nodes.store lesser fun n => { n with parent := some node }
    let nodes ← nodes.store greater fun n => { n with parent := some node }
    if list.listSize = 0 then
      let nodes ← nodes.store node fun n => { n with parent := none }
      return (node, nodes)
    else
      let list ← insertNodeIntoSortedList nodes node list
      mergeLoop junk fuel nodes list

/-- The way up from a leaf to the root; `room` is what is left of `tempPath`. -/
def climb (nodes : Heap HuffmanEncodingTreeNode) (root : Nat) : (room : Nat) → Nat → List Bool → Option (List Bool)
  | 0, _, _ => none
  | room + 1, currentNode, tempPath => do
    let n ← nodes.get currentNode
    let parent ← n.parent
    let p ← nodes.get parent
    let tempPath := tempPath ++ [p.left != some currentNode]
    if parent = root then return tempPath else climb nodes root room parent tempPath

def writePath (g : Junk) (bitStream : BitStream) (tempPath : List Bool) : BitStream :=
  tempPath.reverse.foldl (fun bs b => if b then bs.write1 g else bs.write0 g) bitStream

/-- The loop that fills the encoding table. -/
def tableLoop (g : Junk) (nodes : Heap HuffmanEncodingTreeNode) (root : Nat) (leafList : List Nat) :
    List Byte → BitStream → (Byte → Option CharacterEncoding) → Option (Byte → Option CharacterEncoding)
  | [], _, encodingTable => some encodingTable
  | counter :: cs, bitStream, encodingTable => do
    let leaf ← leafList[counter.toNat]?
    let tempPath ← climb nodes root 256 leaf []
    let bitStream := writePath g bitStream tempPath
    let (bitLength, encoding) := bitStream.copyOut
    -- the number of bits is cast to `unsigned char`
    let entry : CharacterEncoding := { encoding := encoding, bitLength := (bitLength % 256).toNat }
    tableLoop g nodes root leafList cs bitStream.reset fun c => if c = counter then some entry else encodingTable c

def generateFromFrequencyTable (g : Junk) (junk : HuffmanEncodingTreeNode) (t : HuffmanEncodingTree)
    (frequencyTable : Byte → BitVec 32) : Option HuffmanEncodingTree := do
  let t ← t.freeMemory
  let (nodes, list, leafList) ← leafLoop junk frequencyTable characters t.nodes .empty []
  let (root, nodes) ← mergeLoop junk list.listSize nodes list
  let encodingTable ← tableLoop g nodes root leafList characters (.empty g) t.encodingTable
  return { nodes := nodes, root := some root, encodingTable := encodingTable }

/-! ## `EncodeArray` and `DecodeArray` -/

def encodeLoop (g : Junk) (t : HuffmanEncodingTree) : List Byte → BitStream → Option BitStream
  | [], output => some output
  | c :: input, output => do
    let e ← t.encodingTable c
    encodeLoop g t input (output.writeBits g e.encoding e.bitLength false)

/-- The loop of `EncodeArray` that looks for something to pad with. -/
def padLoop (g : Junk) (t : HuffmanEncodingTree) (remainingBits : Nat) : List Byte → BitStream → Option BitStream
  | [], output => some output
  | counter :: cs, output => do
    let e ← t.encodingTable counter
    if remainingBits < e.bitLength then return output.writeBits g e.encoding remainingBits false
    else padLoop g t remainingBits cs output

def encodeArray (g : Junk) (t : HuffmanEncodingTree) (input : List Byte) (output : BitStream) : Option BitStream := do
  let output ← encodeLoop g t input output
  if output.numberOfBitsUsed % 8 ≠ 0 then
    padLoop g t (8 - output.numberOfBitsUsed % 8).toNat characters output
  else return output

/-- The node a bit leads to: `none` when there is none. -/
def descend (t : HuffmanEncodingTree) (currentNode : Nat) (bit : Bool) : Option (Nat × HuffmanEncodingTreeNode) := do
  let n ← t.nodes.get currentNode
  let next ← if bit then n.right else n.left
  let m ← t.nodes.get next
  return (next, m)

/-- `array[i] = x`; `none` outside the array. -/
def storeAt (array : List Byte) (i : Int) (x : Byte) : Option (List Byte) :=
  if 0 ≤ i ∧ i < array.length then some (array.set i.toNat x) else none

/-- The loop of `DecodeArray` into an array; `counter` is the number of bits left. -/
def decodeLoop (t : HuffmanEncodingTree) (root maxCharsToWrite : Nat) :
    (counter : Nat) → Nat → BitStream → List Byte → Nat → Option (Nat × BitStream × List Byte)
  | 0, _, input, output, outputWriteIndex => some (outputWriteIndex, input, output)
  | counter + 1, currentNode, input, output, outputWriteIndex => do
    let (bit, input) := input.readBit
    let (currentNode, n) ← t.descend currentNode bit
    if n.left = none ∧ n.right = none then
      let output ← if outputWriteIndex < maxCharsToWrite then storeAt output outputWriteIndex n.value else some output
      decodeLoop t root maxCharsToWrite counter root input output (outputWriteIndex + 1)
    else decodeLoop t root maxCharsToWrite counter currentNode input output outputWriteIndex

/-- `DecodeArray( RakNet::BitStream *, ... )`: the number of characters, the stream and the
    output. -/
def decodeArray (t : HuffmanEncodingTree) (input : BitStream) (sizeInBits maxCharsToWrite : Nat) (output : List Byte) :
    Option (Nat × BitStream × List Byte) :=
  if sizeInBits = 0 then some (0, input, output)
  else t.root >>= fun root => decodeLoop t root maxCharsToWrite sizeInBits root input output 0

/-- The loop of `DecodeArray` into a stream. -/
def decodeToLoop (g : Junk) (t : HuffmanEncodingTree) (root : Nat) :
    (counter : Nat) → Nat → BitStream → BitStream → Option BitStream
  | 0, _, _, output => some output
  | counter + 1, currentNode, bitStream, output => do
    let (bit, bitStream) := bitStream.readBit
    let (currentNode, n) ← t.descend currentNode bit
    if n.left = none ∧ n.right = none then
      decodeToLoop g t root counter root bitStream (output.writeBits g [n.value] 8 true)
    else decodeToLoop g t root counter currentNode bitStream output

/-- `DecodeArray( unsigned char *, ... )`. -/
def decodeArrayTo (g : Junk) (t : HuffmanEncodingTree) (input : List Byte) (sizeInBits : Nat) (output : BitStream) :
    Option BitStream :=
  if sizeInBits = 0 then some output
  else
    t.root >>= fun root =>
      decodeToLoop g t root sizeInBits root (.ofBuffer g input ((sizeInBits + 7) / 8) false) output

end HuffmanEncodingTree

end RakHook
