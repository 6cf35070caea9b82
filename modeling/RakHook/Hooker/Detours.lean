/-
  RakHook.Hooker.Detours — `send_hooked`, `receive_hooked`, `rpc_hooked` and
  `handle_rpc_packet`.

  `orig` is the trampoline a detour is handed as its first argument, `ω` everything the
  callbacks and the original can change besides the by-reference arguments.
-/

import RakHook.Hooker.Model
import RakHook.Rpc.Model

namespace RakHook

inductive PacketPriority where
  | systemPriority
  | highPriority
  | mediumPriority
  | lowPriority
  | numberOfPriorities
  deriving DecidableEq, Repr

inductive PacketReliability where
  | unreliable
  | unreliableSequenced
  | reliable
  | reliableOrdered
  | reliableSequenced
  deriving DecidableEq, Repr

namespace Hooker

/-- What an on_send_packet callback can change: `*bs`, if it is not null, and three
    references. -/
structure SendArgs where
  bs : Option BitStream
  priority : PacketPriority
  reliability : PacketReliability
  ordChannel : Lib.Byte
  deriving DecidableEq, Repr

structure RpcCallArgs extends SendArgs where
  shTimestamp : Bool
  deriving DecidableEq, Repr

/-- What an on_send_rpc callback can change: `int &id` is the detour's own copy. -/
structure SendRpcArgs where
  id : BitVec 32
  call : RpcCallArgs
  deriving DecidableEq, Repr

/-- What a detour returns, and the world and the callback list it leaves. -/
structure Result (ρ φ ω : Type) where
  ret : ρ
  world : ω
  functions : List (Option φ)

variable {φ ω : Type}

def sendHooked (invoke : φ → SendArgs × ω → Bool × SendArgs × ω) (orig : Addr → SendArgs → ω → Bool × ω)
    (onSendPacket : List (Option φ)) (self : Addr) (args : SendArgs) (world : ω) : Result Bool φ ω :=
  let d := Signal.call invoke onSendPacket (args, world)
  if d.ret then
    let r := orig self d.args.1 d.args.2
    ⟨r.1, r.2, d.functions⟩
  else ⟨false, d.args.2, d.functions⟩

/-- `Packet *` is passed by value, so a callback changes at most the packet behind it. -/
def receiveHooked {π : Type} (invoke : φ → π → ω → Bool × ω) (orig : Addr → ω → Option π × ω)
    (deallocatePacket : π → ω → ω) (onReceivePacket : List (Option φ)) (self : Addr) (world : ω) :
    Result (Option π) φ ω :=
  match orig self world with
  | (none, world) => ⟨none, world, onReceivePacket⟩
  | (some packet, world) =>
    let d := Signal.call (fun f => invoke f packet) onReceivePacket world
    if d.ret then ⟨some packet, d.args, d.functions⟩ else ⟨none, deallocatePacket packet d.args, d.functions⟩

/-- A `uniqueID` that is not null is passed on as a pointer to the copy `id`. -/
def rpcHooked (invoke : φ → SendRpcArgs × ω → Bool × SendRpcArgs × ω)
    (orig : Addr → Option (BitVec 32) → RpcCallArgs → ω → Bool × ω) (onSendRpc : List (Option φ)) (self : Addr)
    (uniqueId : Option (BitVec 32)) (args : RpcCallArgs) (world : ω) : Result Bool φ ω :=
  match uniqueId with
  | none =>
    let r := orig self none args world
    ⟨r.1, r.2, onSendRpc⟩
  | some id =>
    let d := Signal.call invoke onSendRpc (⟨id, args⟩, world)
    if d.ret then
      let r := orig self (some d.args.1.id) d.args.1.call d.args.2
      ⟨r.1, r.2, d.functions⟩
    else ⟨false, d.args.2, d.functions⟩

variable {W H τ : Type}

/-- The hooker's own state is part of the world here: the peer is stored before anything
    is parsed. -/
def handleRpcPacket (g : Junk) (invoke : φ → Rpc.RpcArgs × St W H × τ → Bool × Rpc.RpcArgs × St W H × τ)
    (orig : Addr → List Lib.Byte → Int → PlayerId → St W H × τ → Bool × St W H × τ) (onReceiveRpc : List (Option φ))
    (rp : Addr) (playerid : PlayerId) (data : List Lib.Byte) (world : St W H × τ) : Rpc.RpcRun φ (St W H × τ) :=
  Rpc.handleRpcPacket g invoke (fun buf len world => orig rp buf len playerid world) onReceiveRpc
    (world.1.recordPeer rp playerid, world.2) data

/-- Where callbacks and original leave the hooker alone, the peer is all that an RPC
    changes in it, accepted or not. -/
theorem handleRpcPacket_hooker (g : Junk) {invoke : φ → Rpc.RpcArgs × St W H × τ → Bool × Rpc.RpcArgs × St W H × τ}
    {orig : Addr → List Lib.Byte → Int → PlayerId → St W H × τ → Bool × St W H × τ}
    (hinvoke : ∀ f a w, (invoke f (a, w)).2.2.1 = w.1)
    (horig : ∀ rp buf len playerid w, (orig rp buf len playerid w).2.1 = w.1)
    (onReceiveRpc : List (Option φ)) (rp : Addr) (playerid : PlayerId) (data : List Lib.Byte) (world : St W H × τ) :
    (handleRpcPacket g invoke orig onReceiveRpc rp playerid data world).world.1 = world.1.recordPeer rp playerid := by
  have hcall : ∀ (a : Rpc.RpcArgs) (w : St W H × τ), (Signal.call invoke onReceiveRpc (a, w)).args.2.1 = w.1 := fun a w =>
    Signal.call_keeps (P := fun x => x.2.1 = w.1) invoke (fun f x hx => (hinvoke f x.1 x.2).trans hx) onReceiveRpc rfl
  unfold handleRpcPacket Rpc.handleRpcPacket
  dsimp only
  split
  · rfl
  · split
    · exact (horig ..).trans (hcall _ _)
    · exact hcall _ _

end Hooker

end RakHook
