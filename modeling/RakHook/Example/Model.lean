/-
  RakHook.Example.Model — the example's on_receive_rpc callbacks (example/detail.hpp,
  example/events.hpp) and the compressor they share (`StringCompressor::Instance`).

  A `std::string` is the list of its characters. A callback is `none` where it throws or
  follows a null pointer. `Locals` is what its variables hold before they are read.
-/

import RakHook.BitStream.Fields
import RakHook.Compressor.Exchange
import RakHook.Rpc.Rebuild

namespace RakHook

open Lib BitStream

/-! ## `StringCompressor::Instance` -/

namespace StringCompressor

/-- The static members of `StringCompressor`. -/
structure Static where
  instance_ : Option StringCompressor
  referenceCount : Int

section

variable (g : Junk) (junk : HuffmanEncodingTreeNode)

end

end StringCompressor

namespace Example

open StringCompressor Rpc

/-! ## `detail.hpp` -/

/-- `std::string::max_size`. -/
def maxSize : Nat := 2147483647

/-- `read_with_size<T>` for a `T` of `n` bytes. It throws, and leaves the stream as it is then,
    where the string would be longer than a string can be. -/
def readWithSize (n : Nat) (bs : BitStream) : Except BitStream (List Byte × BitStream) :=
  -- what `size` holds before is overwritten or not looked at
  match bs.read (List.replicate n 0) with
  | (false, bs, _) => .ok ([], bs)
  | (true, bs, size) =>
    if maxSize < ofLe size then .error bs
    else
      match bs.readArray (List.replicate (ofLe size) 0) (ofLe size) with
      | (_, bs, str) => .ok (str, bs)

def writeWithSize (g : Junk) (n : Nat) (bs : BitStream) (str : List Byte) : BitStream :=
  let size := str.length % 256 ^ n
  (bs.write g (le n size)).writeArray g str size

/-! ## `events.hpp` -/

def chars (s : String) : List Byte := s.toList.map fun c => BitVec.ofNat 8 c.toNat

def rpcClientMessage : Byte := 93

def rpcShowDialog : Byte := 61

structure Locals where
  color : List Byte
  did : List Byte
  style : List Byte
  /-- Of `DecodeString`. -/
  stringBitLength : List Byte
  color_length : color.length = 4
  did_length : did.length = 2
  style_length : style.length = 1
  stringBitLength_length : stringBitLength.length = 2

/-- `on_client_msg` up to where it has read the message. -/
def readClientMsg (k : Locals) (bs : BitStream) : Except BitStream (List Byte × List Byte × BitStream) :=
  match bs.read k.color with
  | (_, bs, color) => (readWithSize 4 bs).map fun (msg, bs) => (color, msg, bs)

def onClientMsg (g : Junk) (k : Locals) (a : RpcArgs) : Option (Bool × RpcArgs) :=
  if a.id ≠ rpcClientMessage then some (true, a)
  else do
    let (color, msg, bs) ← (readClientMsg k a.bs).toOption
    let msg := chars "[HOOKED] " ++ msg
    let bs := bs.reset.write g color
    return (true, { a with bs := writeWithSize g 4 bs msg })

/-- `text.insert(pos, ...)` at the first `'\0'`, if there is one. -/
def insertAtNull (text inserted : List Byte) : List Byte :=
  let pos := text.idxOf 0
  if pos < text.length then text.take pos ++ inserted ++ text.drop pos else text

def resize (text : List Byte) (n : Nat) : List Byte := text.take n ++ List.replicate (n - text.length) 0

structure Dialog where
  did : List Byte
  style : List Byte
  title : List Byte
  but1 : List Byte
  but2 : List Byte
  text : List Byte

/-- `on_show_dialog` up to where it has read the dialog; the text has 4096 characters. -/
def readDialog (k : Locals) (s : StringCompressor) (bs : BitStream) : Option (Dialog × BitStream × StringCompressor) :=
  match bs.read k.did with
  | (_, bs, did) =>
    match bs.read k.style with
    | (_, bs, style) => do
      let (title, bs) ← (readWithSize 1 bs).toOption
      let (but1, bs) ← (readWithSize 1 bs).toOption
      let (but2, bs) ← (readWithSize 1 bs).toOption
      let ((_, text, bs), s) ← s.decodeString (List.replicate 4096 0) 4096 bs 0 k.stringBitLength
      return (⟨did, style, title, but1, but2, text⟩, bs, s)

/-- What `on_show_dialog` makes of it. -/
def editDialog (id : Byte) (d : Dialog) : Dialog :=
  { d with
    title := chars (toString id.toNat) ++ chars " | " ++ d.title
    text := resize (insertAtNull (chars "[HOOKED] " ++ d.text) (chars " [HOOKED]")) 4096 }

/-- And its end. -/
def writeDialog (g : Junk) (s : StringCompressor) (bs : BitStream) (d : Dialog) : Option (BitStream × StringCompressor) :=
  let bs := (bs.reset.write g d.did).write g d.style
  let bs := writeWithSize g 1 bs d.title
  let bs := writeWithSize g 1 bs d.but1
  let bs := writeWithSize g 1 bs d.but2
  -- `text.data()` is terminated
  s.encodeString g (some (d.text ++ [0])) 4096 bs 0

def onShowDialog (g : Junk) (k : Locals) (s : Option StringCompressor) (a : RpcArgs) :
    Option (Bool × RpcArgs × Option StringCompressor) :=
  if a.id ≠ rpcShowDialog then some (true, a, s)
  else do
    let (d, bs, s) ← s >>= fun s => readDialog k s a.bs
    let (bs, s) ← writeDialog g s bs (editDialog a.id d)
    return (true, { a with bs := bs }, some s)

/-- The callbacks main.cpp registers for on_receive_rpc. -/
inductive Callback where
  | print
  | onShowDialog
  | onClientMsg

def registered : List (Option Callback) := [some .print, some .onShowDialog, some .onClientMsg]

/-- A callback of the dispatch; the world is `none` once one has failed. -/
def invoke (g : Junk) (k : Locals) (f : Callback) (x : RpcArgs × Option Static) : Bool × RpcArgs × Option Static :=
  let (a, world) := x
  match f, world with
  | _, none => (false, a, none)
  | .print, world => (true, a, world)
  | .onShowDialog, some s =>
    match onShowDialog g k s.instance_ a with
    | none => (false, a, none)
    | some (ret, a, compressor) => (ret, a, some { s with instance_ := compressor })
  | .onClientMsg, some s =>
    match onClientMsg g k a with
    | none => (false, a, none)
    | some (ret, a) => (ret, a, some s)

end Example

end RakHook
