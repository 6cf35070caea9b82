/-
  RakHook.Rpc.Model — the RPC codec of `hooker` (include/RakHook/rakhook.hpp):
  `handle_rpc_packet`, which parses an incoming RPC, runs the callbacks and rebuilds the
  datagram in place, and the encoder of `emul_rpc`.

  `sizeof(RakNetTime)` is 4 (`__GET_TIME_64BIT` is not defined). `world` is whatever the
  callbacks and the original handler can change besides the RPC itself.
-/

import RakHook.BitStream.Model
import RakHook.Signal.Call

namespace RakHook.Rpc

open Lib

def idRpc : Byte := 20

def idTimestamp : Byte := 40

def maxAllocaStackAllocation : Int := 1048576

/-- What happens to the memory of `input`. -/
inductive MemOp where
  | alloca (n : Int)
  | newArray (n : Int)
  | deleteArray
  deriving DecidableEq, Repr

/-- The locals of `handle_rpc_packet` when it runs the callbacks; without `callbackBs` it
    has returned false before. -/
structure Parsed where
  incoming : BitStream
  offset : Int
  id : Byte
  bitsData : BitVec 32
  callbackBs : Option BitStream
  memory : List MemOp

/-- `incoming`, up to where `offset` is taken. -/
def openRpc (g : Junk) (data : List Byte) : BitStream :=
  let incoming := (BitStream.ofBuffer g data data.length true).ignoreBits 8
  if data.getD 0 0 = idTimestamp then incoming.ignoreBits (8 * (4 + 1)) else incoming

/-- The payload of `bitsData` bits: the stream it leaves, the callback stream unless the
    payload is short, and what becomes of `input`. -/
def readPayload (g : Junk) (incoming : BitStream) (bitsData : BitVec 32) : BitStream × Option BitStream × List MemOp :=
  if bitsData = 0 then (incoming, some (BitStream.empty g), [])
  else
    let size := bitsToBytes incoming.getNumberOfUnreadBits
    let usedAlloca := size < maxAllocaStackAllocation
    let input := malloc g (u32 size).toNat
    let memory := if usedAlloca then [.alloca size] else [.newArray size]
    match incoming.readBits input bitsData.toInt false with
    | (false, incoming, _) => (incoming, none, if usedAlloca then memory else memory ++ [.deleteArray])
    | (true, incoming, input) =>
      let callbackBs := BitStream.ofBuffer g input ((bitsData + 7) >>> 3).toNat true
      (incoming, some callbackBs, if usedAlloca then memory else memory ++ [.deleteArray])

def parseRpc (g : Junk) (data : List Byte) : Parsed :=
  let incoming := openRpc g data
  let offset := incoming.getReadOffset
  -- a failed `Read(id)` leaves the 0 it was initialised with
  let (_, incoming, id) := incoming.read [0]
  match incoming.readCompressed [0, 0, 0, 0] true with
  | (false, incoming, out) => ⟨incoming, offset, id.getD 0 0, ofLe32 out, none, []⟩
  | (true, incoming, out) =>
    let (incoming, callbackBs, memory) := readPayload g incoming (ofLe32 out)
    ⟨incoming, offset, id.getD 0 0, ofLe32 out, callbackBs, memory⟩

/-- The `unsigned int` bit count of a stream's bytes, `BYTES_TO_BITS(GetNumberOfBytesUsed())`. -/
def payloadBits (bs : BitStream) : BitVec 32 := BitVec.ofInt 32 (bytesToBits bs.getNumberOfBytesUsed)

/-- The rebuild of `incoming` from the id and the stream the callbacks left. -/
def rebuildRpc (g : Junk) (incoming : BitStream) (offset : Int) (id : Byte) (callbackBs : BitStream) : BitStream :=
  let incoming := (incoming.setWriteOffset offset).write g [id]
  let bitsData := payloadBits callbackBs
  let incoming := incoming.writeCompressed g (le32 bitsData) true
  if bitsData ≠ 0 then incoming.writeBits g callbackBs.getData bitsData.toInt false else incoming

/-- What an on_receive_rpc callback can change: `unsigned char &id` and `*bs`. -/
structure RpcArgs where
  id : Byte
  bs : BitStream
  deriving DecidableEq, Repr

structure RpcRun (φ ω : Type) where
  ret : Bool
  world : ω
  functions : List (Option φ)
  /-- What the callbacks were called with, when they were run. -/
  dispatched : Option RpcArgs
  /-- `data` and `length` of the call of the original, when it was made. -/
  forwarded : Option (List Byte × Int)

/-- `handle_rpc_packet` after it stored the peer. -/
def handleRpcPacket {φ ω : Type} (g : Junk) (invoke : φ → RpcArgs × ω → Bool × RpcArgs × ω)
    (orig : List Byte → Int → ω → Bool × ω) (onReceiveRpc : List (Option φ)) (world : ω) (data : List Byte) :
    RpcRun φ ω :=
  let p := parseRpc g data
  match p.callbackBs with
  | none => ⟨false, world, onReceiveRpc, none, none⟩
  | some callbackBs =>
    let d := Signal.call invoke onReceiveRpc (⟨p.id, callbackBs⟩, world)
    if d.ret then
      let incoming := rebuildRpc g p.incoming p.offset d.args.1.id d.args.1.bs
      let r := orig incoming.getData incoming.getNumberOfBytesUsed d.args.2
      ⟨r.1, r.2, d.functions, some ⟨p.id, callbackBs⟩, some (incoming.getData, incoming.getNumberOfBytesUsed)⟩
    else ⟨false, d.args.2, d.functions, some ⟨p.id, callbackBs⟩, none⟩

section Dispatch

variable {g : Junk} {data : List Byte} {φ ω : Type} (invoke : φ → RpcArgs × ω → Bool × RpcArgs × ω)
    (orig : List Byte → Int → ω → Bool × ω)
  (onReceiveRpc : List (Option φ)) (world : ω)

theorem handleRpcPacket_refused (hcb : (parseRpc g data).callbackBs = none) :
    handleRpcPacket g invoke orig onReceiveRpc world data = ⟨false, world, onReceiveRpc, none, none⟩ := by
  unfold handleRpcPacket
  simp only [hcb]

theorem handleRpcPacket_world {cb : BitStream} (hcb : (parseRpc g data).callbackBs = some cb) :
    (handleRpcPacket g invoke orig onReceiveRpc world data).world =
      let d := Signal.call invoke onReceiveRpc (⟨(parseRpc g data).id, cb⟩, world)
      let incoming := rebuildRpc g (parseRpc g data).incoming (parseRpc g data).offset d.args.1.id d.args.1.bs
      if d.ret then (orig incoming.getData incoming.getNumberOfBytesUsed d.args.2).2 else d.args.2 := by
  unfold handleRpcPacket
  simp only [hcb]
  split <;> rfl

theorem dispatched_eq : (handleRpcPacket g invoke orig onReceiveRpc world data).dispatched =
    (parseRpc g data).callbackBs.map fun cb => ⟨(parseRpc g data).id, cb⟩ := by
  unfold handleRpcPacket
  dsimp only
  split
  · rename_i hcb; rw [hcb]; rfl
  · rename_i hcb; rw [hcb]; split <;> rfl

end Dispatch

/-- The stream `emul_rpc` builds. -/
def emulRpcStream (g : Junk) (id : Byte) (rpcBs : BitStream) : BitStream :=
  let bs := ((BitStream.empty g).write g [idRpc]).write g [id]
  let bs := bs.writeCompressed g (le32 (payloadBits rpcBs)) true
  bs.writeBits g rpcBs.getData (bytesToBits rpcBs.getNumberOfBytesUsed) false

end RakHook.Rpc
