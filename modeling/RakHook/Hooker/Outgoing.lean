/-
  RakHook.Hooker.Outgoing — what a program that sends observes: any sequence of hooked
  `Send` and `RPC` calls, over two signals that may hold empty functions.

  `meant` says what one call is to do, over the registered callbacks alone: fold them over
  the arguments and, unless one refuses, call the original with what they leave.
  `hookedCalls_meant`: the detours do exactly that, call after call, whatever was erased
  from the signals on the way, and the caller's `*uniqueID` is what it was.

  `rpcHookedAt` is `rpc_hooked` down to the ints: the caller's, which `uniqueID` points
  to, and the detour's copy `id`, which callbacks and original get a reference to.
-/

import RakHook.Hooker.Detours
import RakHook.Signal.Fold

namespace RakHook.Hooker

open Signal

inductive IntObject where
  | uniqueId
  | id
  deriving DecidableEq, Repr

abbrev Ints := IntObject → BitVec 32

def Ints.store (ints : Ints) (p : IntObject) (v : BitVec 32) : Ints := fun q => if q = p then v else ints q

variable {φ ψ ω : Type}

/-- What the callbacks and the originals do. An original may also write the int it gets a
    pointer to. -/
structure Behaviour (φ ψ ω : Type) where
  sendCallback : φ → SendArgs × ω → Bool × SendArgs × ω
  rpcCallback : ψ → SendRpcArgs × ω → Bool × SendRpcArgs × ω
  send : Addr → SendArgs → ω → Bool × ω
  rpc : Addr → Option (BitVec 32) → RpcCallArgs → ω → (Bool × BitVec 32) × ω

/-- A callback whose `int &id` is bound to the int `p`. -/
def bindId (invoke : ψ → SendRpcArgs × ω → Bool × SendRpcArgs × ω) (p : IntObject) (f : ψ) (x : RpcCallArgs × Ints × ω) :
    Bool × RpcCallArgs × Ints × ω :=
  let r := invoke f (⟨x.2.1 p, x.1⟩, x.2.2)
  (r.1, r.2.1.call, x.2.1.store p r.2.1.id, r.2.2)

def callRpc (orig : Addr → Option (BitVec 32) → RpcCallArgs → ω → (Bool × BitVec 32) × ω) (self : Addr)
    (p : Option IntObject)
    (args : RpcCallArgs) (ints : Ints) (world : ω) : Bool × Ints × ω :=
  let r := orig self (p.map ints) args world
  (r.1.1, (match p with | none => ints | some p => ints.store p r.1.2), r.2)

/-- `rpc_hooked`; `uniqueId` is the caller's pointer. -/
def rpcHookedAt (invoke : ψ → SendRpcArgs × ω → Bool × SendRpcArgs × ω)
    (orig : Addr → Option (BitVec 32) → RpcCallArgs → ω → (Bool × BitVec 32) × ω) (onSendRpc : List (Option ψ))
    (self : Addr)
    (uniqueId : Option IntObject) (args : RpcCallArgs) (ints : Ints) (world : ω) : Result Bool ψ (Ints × ω) :=
  match uniqueId with
  | none =>
    let r := callRpc orig self none args ints world
    ⟨r.1, r.2, onSendRpc⟩
  | some p =>
    let ints := ints.store .id (ints p)
    let d := Signal.call (bindId invoke .id) onSendRpc (args, ints, world)
    if d.ret then
      let r := callRpc orig self (some .id) d.args.1 d.args.2.1 d.args.2.2
      ⟨r.1, r.2, d.functions⟩
    else ⟨false, d.args.2, d.functions⟩

/-! ## The ints -/

@[simp] theorem Ints.store_same (ints : Ints) (p : IntObject) (v : BitVec 32) : ints.store p v p = v := by simp [store]

@[simp] theorem Ints.store_uniqueId (ints : Ints) (v : BitVec 32) :
    ints.store .id v .uniqueId = ints .uniqueId := by simp [store]

/-- The two levels of the dispatch: the detour's copy holds the id of the value level, the
    caller's int is as it was. -/
structure SameIds (n : BitVec 32) (x : RpcCallArgs × Ints × ω) (y : SendRpcArgs × ω) : Prop where
  call : x.1 = y.1.call
  id : x.2.1 .id = y.1.id
  world : x.2.2 = y.2
  kept : x.2.1 .uniqueId = n

theorem bindId_sameIds (invoke : ψ → SendRpcArgs × ω → Bool × SendRpcArgs × ω) (n : BitVec 32) (f : ψ)
    (x : RpcCallArgs × Ints × ω) (y : SendRpcArgs × ω) (h : SameIds n x y) :
    (bindId invoke .id f x).1 = (invoke f y).1 ∧ SameIds n (bindId invoke .id f x).2 (invoke f y).2 := by
  obtain ⟨args, ints, w⟩ := x
  obtain ⟨⟨i, args'⟩, w'⟩ := y
  obtain ⟨rfl, rfl, rfl, hk⟩ := h
  exact ⟨rfl, rfl, by simp [bindId], rfl, by simpa [bindId] using hk⟩

/-- `rpc_hooked` down to the ints is `rpc_hooked`, and the caller's int is not written. -/
theorem rpcHookedAt_refines (invoke : ψ → SendRpcArgs × ω → Bool × SendRpcArgs × ω)
    (orig : Addr → Option (BitVec 32) → RpcCallArgs → ω → (Bool × BitVec 32) × ω) (onSendRpc : List (Option ψ))
    (self : Addr)
    (uniqueId : Option IntObject) (args : RpcCallArgs) (ints : Ints) (world : ω) :
    let r := rpcHookedAt invoke orig onSendRpc self uniqueId args ints world
    let v := rpcHooked invoke (fun self id args w => ((orig self id args w).1.1, (orig self id args w).2)) onSendRpc self
      (uniqueId.map ints) args world
    r.ret = v.ret ∧ r.world.2 = v.world ∧ r.functions = v.functions ∧ r.world.1 .uniqueId = ints .uniqueId := by
  cases uniqueId with
  | none => exact ⟨rfl, rfl, rfl, rfl⟩
  | some p =>
    obtain ⟨hret, hsame, hfs⟩ := call_sim (R := SameIds (ints .uniqueId))
      (fun f (_ : some f ∈ onSendRpc) => bindId_sameIds invoke (ints .uniqueId) f)
        (a := (args, ints.store .id (ints p), world)) (b := (⟨ints p, args⟩, world)) ⟨rfl, by simp, rfl, by simp⟩
    simp only [rpcHookedAt, rpcHooked, Option.map_some, hret]
    split
    · simp only [callRpc, Option.map_some, hsame.call, hsame.id, hsame.world]
      exact ⟨trivial, trivial, hfs, by rw [Ints.store_uniqueId, hsame.kept]⟩
    · exact ⟨rfl, hsame.world, hfs, hsame.kept⟩

/-! ## A program that sends -/

inductive Outgoing where
  | send (self : Addr) (args : SendArgs)
  /-- The caller's int holds `uniqueId`, or its pointer is null. -/
  | rpc (self : Addr) (uniqueId : Option (BitVec 32)) (args : RpcCallArgs)

/-- What runs during a call. -/
inductive Entry (φ ψ : Type) where
  | sendCallback (f : φ) (args : SendArgs)
  | rpcCallback (f : ψ) (args : SendRpcArgs)
  | send (self : Addr) (args : SendArgs)
  | rpc (self : Addr) (id : Option (BitVec 32)) (args : RpcCallArgs)

/-- One call as its caller and the originals see it. -/
structure Record (φ ψ : Type) where
  ret : Bool
  ran : List (Entry φ ψ)
  /-- The caller's int when the call is over. -/
  uniqueId : Option (BitVec 32)

structure Sender (φ ψ ω : Type) where
  onSendPacket : List (Option φ)
  onSendRpc : List (Option ψ)
  world : ω
  records : List (Record φ ψ)

variable (b : Behaviour φ ψ ω)

def loggedSend (self : Addr) (args : SendArgs) (w : ω × List (Entry φ ψ)) : Bool × ω × List (Entry φ ψ) :=
  let r := b.send self args w.1
  (r.1, r.2, w.2 ++ [.send self args])

def loggedRpc (self : Addr) (id : Option (BitVec 32)) (args : RpcCallArgs) (w : ω × List (Entry φ ψ)) :
    (Bool × BitVec 32) × ω × List (Entry φ ψ) :=
  let r := b.rpc self id args w.1
  (r.1, r.2, w.2 ++ [.rpc self id args])

/-- A call through the detours. What runs is logged behind the world. -/
def hookedCall (s : Sender φ ψ ω) : Outgoing → Sender φ ψ ω
  | .send self args =>
    let r := sendHooked (logged .sendCallback b.sendCallback) (loggedSend b) s.onSendPacket self args (s.world, [])
    { s with onSendPacket := r.functions, world := r.world.1, records := s.records ++ [⟨r.ret, r.world.2, none⟩] }
  | .rpc self uniqueId args =>
    let r := rpcHookedAt (logged .rpcCallback b.rpcCallback) (loggedRpc b) s.onSendRpc self
      (uniqueId.map fun _ => .uniqueId) args (fun _ => uniqueId.getD 0) (s.world, [])
    { s with
      onSendRpc := r.functions
      world := r.world.2.1
      records := s.records ++ [⟨r.ret, r.world.2.2, uniqueId.map fun _ => r.world.1 .uniqueId⟩] }

/-- A call as it is meant, for the registered callbacks `fs` and `gs`. -/
def meant (fs : List φ) (gs : List ψ) (s : ω × List (Record φ ψ)) : Outgoing → ω × List (Record φ ψ)
  | .send self args =>
    let o := fold b.sendCallback fs (args, s.1)
    let ran := o.entries .sendCallback
    if o.ret then
      let r := b.send self o.args.1 o.args.2
      (r.2, s.2 ++ [⟨r.1, ran ++ [.send self o.args.1], none⟩])
    else (o.args.2, s.2 ++ [⟨false, ran, none⟩])
  | .rpc self none args =>
    let r := b.rpc self none args s.1
    (r.2, s.2 ++ [⟨r.1.1, [.rpc self none args], none⟩])
  | .rpc self (some id) args =>
    let o := fold b.rpcCallback gs (⟨id, args⟩, s.1)
    let ran := o.entries .rpcCallback
    if o.ret then
      let r := b.rpc self (some o.args.1.id) o.args.1.call o.args.2
      (r.2, s.2 ++ [⟨r.1.1, ran ++ [.rpc self (some o.args.1.id) o.args.1.call], some id⟩])
    else (o.args.2, s.2 ++ [⟨false, ran, some id⟩])

theorem hookedCall_send (s : Sender φ ψ ω) (self : Addr) (args : SendArgs) :
    ((hookedCall b s (.send self args)).world, (hookedCall b s (.send self args)).records) =
      meant b (registered s.onSendPacket) (registered s.onSendRpc) (s.world, s.records) (.send self args) := by
  obtain ⟨hret, hargs⟩ := call_fold Entry.sendCallback b.sendCallback s.onSendPacket args s.world ([] : List (Entry φ ψ))
  simp only [hookedCall, sendHooked, meant, hret, hargs, loggedSend]
  split <;> simp

theorem hookedCall_rpc (s : Sender φ ψ ω) (self : Addr) (uniqueId : Option (BitVec 32)) (args : RpcCallArgs) :
    ((hookedCall b s (.rpc self uniqueId args)).world, (hookedCall b s (.rpc self uniqueId args)).records) =
      meant b (registered s.onSendPacket) (registered s.onSendRpc) (s.world, s.records) (.rpc self uniqueId args) := by
  cases uniqueId with
  | none => rfl
  | some id =>
    obtain ⟨hret, hargs⟩ := call_fold Entry.rpcCallback b.rpcCallback s.onSendRpc (⟨id, args⟩ : SendRpcArgs) s.world
      ([] : List (Entry φ ψ))
    obtain ⟨h1, h2, -, h4⟩ := rpcHookedAt_refines (logged .rpcCallback b.rpcCallback) (loggedRpc b) s.onSendRpc self
      (some .uniqueId) args (fun _ => id) (s.world, [])
    simp only [rpcHooked, Option.map_some, hret, hargs] at h1 h2 h4
    simp only [hookedCall, meant, Option.map_some, Option.getD_some, h1, h2, h4, loggedRpc]
    split <;> simp

theorem hookedCall_registered (s : Sender φ ψ ω) (e : Outgoing) :
    registered (hookedCall b s e).onSendPacket = registered s.onSendPacket ∧
      registered (hookedCall b s e).onSendRpc = registered s.onSendRpc := by
  cases e with
  | send self args =>
    refine ⟨?_, rfl⟩
    simp only [hookedCall, sendHooked]
    split <;> exact call_registered _ _ _
  | rpc self uniqueId args =>
    refine ⟨rfl, ?_⟩
    cases uniqueId with
    | none => rfl
    | some id =>
      simp only [hookedCall, rpcHookedAt, Option.map_some]
      split <;> exact call_registered _ _ _

theorem hookedCall_meant (s : Sender φ ψ ω) (e : Outgoing) :
    ((hookedCall b s e).world, (hookedCall b s e).records) =
      meant b (registered s.onSendPacket) (registered s.onSendRpc) (s.world, s.records) e := by
  cases e with
  | send self args => exact hookedCall_send b s self args
  | rpc self uniqueId args => exact hookedCall_rpc b s self uniqueId args

/-- Any number of hooked calls: callbacks, originals, results and the callers' ints are those of
    the folds over the callbacks registered at the start. -/
theorem hookedCalls_meant (calls : List Outgoing) (s : Sender φ ψ ω) :
    ((calls.foldl (hookedCall b) s).world, (calls.foldl (hookedCall b) s).records) =
      calls.foldl (meant b (registered s.onSendPacket) (registered s.onSendRpc)) (s.world, s.records) := by
  induction calls generalizing s with
  | nil => rfl
  | cons e calls ih =>
    obtain ⟨h1, h2⟩ := hookedCall_registered b s e
    have h := ih (hookedCall b s e)
    rw [h1, h2, hookedCall_meant] at h
    exact h

end RakHook.Hooker
