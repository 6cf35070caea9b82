/-
  RakHook.Hooker.Model — the lifecycle of `hooker<HookImpl>` (include/RakHook/rakhook.hpp):
  its static state, `initialize`, `destroy`, and what an incoming RPC leaves in it.

  `HookImpl` is the contract in the header: `W` is everything a hook implementation works
  on (its own statics, the library behind it, the code it patches), `H` a hook object.
  The four `unique_ptr`s are one function on `Slot`. `serial` and `installed` of a hook
  and the three counters are ghost: no branch reads them.
-/

import RakHook.VersionManager

namespace RakHook

/-- The four detours of `hooker`; `host n` is one of the program's own. -/
inductive Detour where
  | sendHooked
  | receiveHooked
  | rpcHooked
  | handleRpcPacket
  | host (n : Nat)
  deriving DecidableEq, Repr

/-- The contract of a hook implementation. -/
structure HookImpl (W H : Type) where
  /-- `HookImpl::initialize()`. -/
  initializeImpl : W → Bool × W
  /-- `HookImpl::uninitialize()`. -/
  uninitializeImpl : W → W
  /-- `hook<Fn, Detour>(target)`. -/
  hook : Detour → Addr → W → H × W
  /-- `~hook()`. -/
  dropHook : H → W → W
  install : H → W → Bool × H × W
  uninstall : H → W → Bool × H × W
  getOriginal : H → W → Addr

structure PlayerId where
  binaryAddress : BitVec 32
  port : BitVec 16
  deriving DecidableEq, Repr

namespace Hooker

/-- A hook object behind one of the pointers. -/
structure Hook (H : Type) where
  impl : H
  target : Addr
  serial : Nat
  /-- Its last `install()` returned true. -/
  installed : Bool

inductive Slot where
  | sendHook
  | receiveHook
  | rpcHook
  | handleRpcHook
  deriving DecidableEq, Repr

/-- The detour a slot's hook type names. -/
def Slot.detour : Slot → Detour
  | .sendHook => .sendHooked
  | .receiveHook => .receiveHooked
  | .rpcHook => .rpcHooked
  | .handleRpcHook => .handleRpcPacket

/-- The slots in the order `initialize` and `destroy` go through them. -/
def slots : List Slot := [.sendHook, .receiveHook, .rpcHook, .handleRpcHook]

structure St (W H : Type) where
  initialized : Bool
  orig : Addr
  rakpeer : Addr
  gplayerid : PlayerId
  versions : VersionManager
  hook : Slot → Option (Hook H)
  world : W
  initializes : Nat
  uninitializes : Nat
  created : Nat

variable {W H : Type}

def St.start (versions : VersionManager) (world : W) : St W H :=
  { initialized := false, orig := 0, rakpeer := 0, gplayerid := ⟨0, 0⟩, versions, hook := fun _ => none,
    world, initializes := 0, uninitializes := 0, created := 0 }

def St.setHook (s : St W H) (k : Slot) (h : Option (Hook H)) : St W H :=
  { s with hook := fun k' => if k' = k then h else s.hook k' }

variable (impl : HookImpl W H)

def reset (s : St W H) (k : Slot) : St W H :=
  match s.hook k with
  | none => s
  | some h => { s.setHook k none with world := impl.dropHook h.impl s.world }

/-- `= std::make_unique<..>(target)`: the new object is there before an old one goes. -/
def makeHook (s : St W H) (k : Slot) (target : Addr) : St W H :=
  let r := impl.hook k.detour target s.world
  let s' := { reset impl { s with world := r.2 } k with created := s.created + 1 }
  s'.setHook k (some ⟨r.1, target, s.created, false⟩)

/-- `->install()`; `initialize` has just made the object. -/
def installHook (s : St W H) (k : Slot) : Bool × St W H :=
  match s.hook k with
  | none => (false, s)
  | some h =>
    let r := impl.install h.impl s.world
    (r.1, { s.setHook k (some { h with impl := r.2.1, installed := r.1 }) with world := r.2.2 })

/-- `->install() && ...` over the slots. -/
def installAll : List Slot → St W H → Bool × St W H
  | [], s => (true, s)
  | k :: ks, s =>
    let r := installHook impl s k
    if r.1 then installAll ks r.2 else (false, r.2)

def destroy (s : St W H) : St W H :=
  if s.initialized then
    let s := slots.foldl (reset impl) s
    { s with
      world := impl.uninitializeImpl s.world
      uninitializes := s.uninitializes + 1
      initialized := false
      orig := 0
      rakpeer := 0 }
  else s

/-- `*rakclient_interface`, or none where `initialize` returns before it has a client. -/
def findClient (env : Env) (v : VersionManager) : Option Addr :=
  if v.base = 0 ∨ ¬ v.valid then none
  else
    let off := v.get
    let sampInfo := env.deref (v.base + off.sampInfo)
    if sampInfo = 0 then none
    else
      let client := env.deref (sampInfo + off.rakclientInterface)
      if client = 0 then none else some client

def vtableSend : Nat := 6

def vtableReceive : Nat := 8

def vtableRpc : Nat := 25

def vtableEntry (env : Env) (vtable : Addr) (i : Nat) : Addr := env.deref (vtable + BitVec.ofNat 32 (4 * i))

/-- What a slot's hook is made for. -/
def target (env : Env) (v : VersionManager) (vtable : Addr) : Slot → Addr
  | .sendHook => vtableEntry env vtable vtableSend
  | .receiveHook => vtableEntry env vtable vtableReceive
  | .rpcHook => vtableEntry env vtable vtableRpc
  | .handleRpcHook => v.base + v.get.handleRpcPacket

def makeHooks (env : Env) (vtable : Addr) (s : St W H) : St W H :=
  slots.foldl (fun s k => makeHook impl s k (target env s.versions vtable k)) s

def initializeHooker (env : Env) (s : St W H) : Bool × St W H :=
  if s.initialized then (true, s)
  else
    let s := { s with versions := s.versions.update env }
    match findClient env s.versions with
    | none => (false, s)
    | some client =>
      let s := { s with orig := client }
      let vtable := env.deref client
      if vtable = 0 then (false, s)
      else
        let r := impl.initializeImpl s.world
        let s := { s with world := r.2 }
        if ¬ r.1 then (false, s)
        else
          let s := makeHooks impl env vtable { s with initializes := s.initializes + 1 }
          let r := installAll impl slots s
          let s := { r.2 with initialized := true }
          if r.1 then (true, s) else (false, destroy impl s)

/-- The first two statements of `handle_rpc_packet`. -/
def St.recordPeer (s : St W H) (rp : Addr) (playerid : PlayerId) : St W H :=
  { s with rakpeer := rp, gplayerid := playerid }

/-- What happens to a hooker between other calls. An RPC comes through the detour only
    where the handle_rpc hook is installed. -/
inductive Call where
  | initializeHooker (env : Env)
  | destroy
  | incomingRpc (rp : Addr) (playerid : PlayerId)

def St.hooked (s : St W H) (k : Slot) : Bool := (s.hook k).any (·.installed)

def step (s : St W H) : Call → St W H
  | .initializeHooker env => (initializeHooker impl env s).2
  | .destroy => destroy impl s
  | .incomingRpc rp playerid => if s.hooked .handleRpcHook then s.recordPeer rp playerid else s

end Hooker

end RakHook
