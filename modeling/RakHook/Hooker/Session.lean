/-
  RakHook.Hooker.Session — `send`, `send_rpc` and `emul_rpc`, and what they target over
  any sequence of calls and incoming RPCs.

  `emul_rpc` checks `initialized` and `rakpeer` and neither the hook object nor its
  original. `Live` is what lets it: while the hooker is set up its hooks are installed,
  and `rakpeer` is null until an RPC arrives. `emul_live` is the result for the RPCs since
  the hooker was set up; a repeated `initialize()` returns true and starts nothing new.
-/

import RakHook.Hooker.Lifecycle
import RakHook.Hooker.Detours

namespace RakHook.Hooker

open Lib

variable {W H φ τ : Type}

structure RakPeer where
  addr : Addr
  ne : addr ≠ 0

/-- The code around the hooker, over its own state `τ`: the on_receive_rpc callbacks, and
    what is at the address of an original. -/
structure Game (φ τ : Type) where
  callback : φ → Rpc.RpcArgs × τ → Bool × Rpc.RpcArgs × τ
  send : Addr → Addr → SendArgs → τ → Bool × τ
  rpc : Addr → Addr → BitVec 32 → RpcCallArgs → τ → Bool × τ
  handleRpcPacket : Addr → Addr → List Byte → Int → PlayerId → τ → Bool × τ

variable (impl : HookImpl W H)

/-- `get_original()` of a slot's hook, where there is one. -/
def original (s : St W H) (k : Slot) : Option Addr := (s.hook k).map fun h => impl.getOriginal h.impl s.world

/-- The original `send` and `send_rpc` call, unless they refuse. -/
def usableOriginal (s : St W H) (k : Slot) : Option Addr :=
  if !s.initialized then none else (original impl s k).filter (· ≠ 0)

def send (game : Game φ τ) (s : St W H) (args : SendArgs) (t : τ) : Bool × τ :=
  match usableOriginal impl s .sendHook with
  | none => (false, t)
  | some f => game.send f s.orig args t

def sendRpc (game : Game φ τ) (s : St W H) (id : BitVec 32) (args : RpcCallArgs) (t : τ) : Bool × τ :=
  match usableOriginal impl s .rpcHook with
  | none => (false, t)
  | some f => game.rpc f s.orig id args t

/-- What `emul_rpc` comes to. -/
inductive Emulation where
  | refused
  | nullHook
  | nullOriginal
  | handed (original rakpeer : Addr) (data : List Byte) (length : Int) (playerid : PlayerId)
  deriving DecidableEq, Repr

def emulRpc (g : Junk) (s : St W H) (id : Byte) (rpcBs : BitStream) : Emulation :=
  if !s.initialized || s.rakpeer == 0 then .refused
  else
    let bs := Rpc.emulRpcStream g id rpcBs
    match original impl s .handleRpcHook with
    | none => .nullHook
    | some f => if f = 0 then .nullOriginal else .handed f s.rakpeer bs.getData bs.getNumberOfBytesUsed s.gplayerid

/-! ## Runs -/

inductive SessionEvent where
  | initializeHooker (env : Env)
  | destroy
  | incomingRpc (rp : RakPeer) (data : List Byte) (playerid : PlayerId)
  | send (args : SendArgs)
  | sendRpc (id : BitVec 32) (args : RpcCallArgs)
  | emulRpc (id : Byte) (rpcBs : BitStream)

structure Session (W H φ τ : Type) where
  hooker : St W H
  onReceiveRpc : List (Option φ)
  game : τ
  /-- Of the last RPC since an `initialize()` set the hooker up. -/
  sinceSetUp : Option (Addr × PlayerId)
  /-- Of the last RPC since an `initialize()` returned true. -/
  sinceTrue : Option (Addr × PlayerId)

def Session.start (versions : VersionManager) (world : W) (onReceiveRpc : List (Option φ)) (t : τ) : Session W H φ τ :=
  ⟨St.start versions world, onReceiveRpc, t, none, none⟩

/-- Callbacks and originals have no access to the hooker's own state. -/
def beside {α : Type} (f : α × τ → Bool × α × τ) (x : α × St W H × τ) : Bool × α × St W H × τ :=
  let r := f (x.1, x.2.2)
  (r.1, r.2.1, x.2.1, r.2.2)

variable (g : Junk) (game : Game φ τ)

def receiveRpc (x : Session W H φ τ) (rp : RakPeer) (data : List Byte) (playerid : PlayerId) : Session W H φ τ :=
  let f := (original impl x.hooker .handleRpcHook).getD 0
  let orig := fun rp buf len playerid (w : St W H × τ) =>
    let r := game.handleRpcPacket f rp buf len playerid w.2
    (r.1, w.1, r.2)
  let r := handleRpcPacket g (fun c => beside (game.callback c)) orig x.onReceiveRpc rp.addr playerid data
    (x.hooker, x.game)
  { hooker := r.world.1, onReceiveRpc := r.functions, game := r.world.2, sinceSetUp := some (rp.addr, playerid),
    sinceTrue := some (rp.addr, playerid) }

def stepSession (x : Session W H φ τ) : SessionEvent → Session W H φ τ
  | .initializeHooker env =>
    let r := initializeHooker impl env x.hooker
    { x with
      hooker := r.2
      sinceSetUp := if r.1 && !x.hooker.initialized then none else x.sinceSetUp
      sinceTrue := if r.1 then none else x.sinceTrue }
  | .destroy => { x with hooker := destroy impl x.hooker }
  | .incomingRpc rp data playerid =>
    if x.hooker.hooked .handleRpcHook then receiveRpc impl g game x rp data playerid else x
  | .send args => { x with game := (send impl game x.hooker args x.game).2 }
  | .sendRpc id args => { x with game := (sendRpc impl game x.hooker id args x.game).2 }
  | .emulRpc id rpcBs =>
    match emulRpc impl g x.hooker id rpcBs with
    | .handed f rp data length playerid => { x with game := (game.handleRpcPacket f rp data length playerid x.game).2 }
    | _ => x

/-- `emul_rpc` refuses without a session, else it calls the original of the installed hook
    with the RakPeer and the player of one datagram, `since`. -/
structure Live (s : St W H) (since : Option (Addr × PlayerId)) (id : Byte) (rpcBs : BitStream) : Prop where
  refused : emulRpc impl g s id rpcBs = .refused ↔ s.initialized = false ∨ since = none
  handed : emulRpc impl g s id rpcBs ≠ .refused → ∃ h rp playerid, s.hook .handleRpcHook = some h ∧ h.installed = true ∧
    impl.getOriginal h.impl s.world ≠ 0 ∧ since = some (rp, playerid) ∧
    emulRpc impl g s id rpcBs = .handed (impl.getOriginal h.impl s.world) rp (Rpc.emulRpcStream g id rpcBs).getData
      (Rpc.emulRpcStream g id rpcBs).getNumberOfBytesUsed playerid

/-- An installed handle_rpc hook has an original. -/
def HasOriginal (s : St W H) : Prop :=
  ∀ h, s.hook .handleRpcHook = some h → h.installed = true → impl.getOriginal h.impl s.world ≠ 0

/-! ## The peer belongs to the session -/

/-- `rakpeer` and `gplayerid` are those of the last RPC of the session, null without one. -/
structure Attached (x : Session W H φ τ) : Prop where
  noStray : NoStray x.hooker
  hooked : x.hooker.initialized = true → x.hooker.hooked .handleRpcHook = true
  down : x.hooker.initialized = false → x.hooker.rakpeer = 0
  silent : x.hooker.initialized = true → x.sinceSetUp = none → x.hooker.rakpeer = 0
  peer : x.hooker.initialized = true → ∀ p, x.sinceSetUp = some p →
    x.hooker.rakpeer = p.1 ∧ p.1 ≠ 0 ∧ x.hooker.gplayerid = p.2

theorem hooked_initialized {s : St W H} (h : NoStray s) {k : Slot} (hk : s.hooked k = true) : s.initialized = true := by
  rcases hi : s.initialized with _ | _
  · have hnone := h (by rw [hi]; exact Bool.false_ne_true) k
    rw [St.hooked, hnone] at hk
    cases hk
  · rfl

/-- `initialize` leaves a hooker that is not set up without a peer. -/
theorem initialize_rakpeer (env : Env) {s : St W H} (hi : s.initialized = false) (hp : s.rakpeer = 0) :
    (initializeHooker impl env s).2.rakpeer = 0 := by
  rcases initialize_trichotomy impl env hi with hf | ⟨client, hf, hstall⟩ | ⟨client, hb⟩
  · rw [initialize_noClient impl hi hf]
    exact hp
  · obtain ⟨w, -, he⟩ := initialize_stalls impl hi hf hstall
    rw [he]
    exact hp
  · obtain ⟨hs, -⟩ := hookUp_spec impl env client s
    rw [initialize_begins impl hb]
    split
    · exact hs.rakpeer.trans hp
    · rfl

/-- It returns true exactly if it leaves the hooker set up, and then with its hooks in. -/
theorem initialize_true (env : Env) {s : St W H} (hi : s.initialized = false) :
    (initializeHooker impl env s).1 = (initializeHooker impl env s).2.initialized ∧
      ((initializeHooker impl env s).2.initialized = true → ∀ k, (initializeHooker impl env s).2.hooked k = true) := by
  rcases initialize_trichotomy impl env hi with hf | ⟨client, hf, hstall⟩ | ⟨client, hb⟩
  · rw [initialize_noClient impl hi hf]
    exact ⟨hi.symm, fun h => absurd (hi.symm.trans h) Bool.false_ne_true⟩
  · obtain ⟨w, -, he⟩ := initialize_stalls impl hi hf hstall
    rw [he]
    exact ⟨hi.symm, fun h => absurd (hi.symm.trans h) Bool.false_ne_true⟩
  · obtain ⟨-, hall⟩ := hookUp_spec impl env client s
    rw [initialize_begins impl hb]
    split
    · rename_i hr
      exact ⟨rfl, fun _ => hall hr⟩
    · exact ⟨rfl, fun h => absurd h Bool.false_ne_true⟩

theorem start_attached (versions : VersionManager) (world : W) (onReceiveRpc : List (Option φ)) (t : τ) :
    Attached (Session.start versions world onReceiveRpc t : Session W H φ τ) :=
  ⟨start_noStray versions world, fun h => absurd h Bool.false_ne_true, fun _ => rfl, fun _ _ => rfl,
    fun h => absurd h Bool.false_ne_true⟩

/-- Whatever the callbacks decide and whether or not the datagram parses, all an RPC does
    to the hooker is to record its peer. -/
theorem receiveRpc_hooker (x : Session W H φ τ) (rp : RakPeer) (data : List Byte) (playerid : PlayerId) :
    (receiveRpc impl g game x rp data playerid).hooker = x.hooker.recordPeer rp.addr playerid :=
  handleRpcPacket_hooker g (fun _ _ _ => rfl) (fun _ _ _ _ _ => rfl) x.onReceiveRpc rp.addr playerid data
    (x.hooker, x.game)

theorem initialize_again {x : Session W H φ τ} (hi : x.hooker.initialized = true) (env : Env) :
    stepSession impl g game x (.initializeHooker env) = { x with sinceTrue := none } := by
  simp only [stepSession, initialize_idle impl env hi, hi]
  rfl

theorem initialize_attached {x : Session W H φ τ} (h : Attached x) (env : Env) :
    Attached (stepSession impl g game x (.initializeHooker env)) := by
  rcases hi : x.hooker.initialized with _ | _
  · obtain ⟨htrue, hooks⟩ := initialize_true impl env hi
    have hpeer := initialize_rakpeer impl env hi (h.down hi)
    refine ⟨step_noStray impl h.noStray (.initializeHooker env), fun hu => hooks hu .handleRpcHook, fun _ => hpeer,
      fun _ _ => hpeer, ?_⟩
    intro hu p hp
    simp only [stepSession, htrue, hi] at hu hp
    rw [hu] at hp
    cases hp
  · rw [initialize_again impl g game hi]
    exact ⟨h.noStray, h.hooked, h.down, h.silent, h.peer⟩

theorem destroy_attached {x : Session W H φ τ} (h : Attached x) : Attached (stepSession impl g game x .destroy) := by
  have hoff : (destroy impl x.hooker).initialized = false := destroy_initialized impl x.hooker
  have hno : ∀ {p : Prop}, (destroy impl x.hooker).initialized = true → p := fun hu =>
    absurd (hoff.symm.trans hu) Bool.false_ne_true
  refine ⟨destroy_noStray impl h.noStray, fun hu => hno hu, fun _ => ?_, fun hu => hno hu, fun hu => hno hu⟩
  show (destroy impl x.hooker).rakpeer = 0
  rcases hi : x.hooker.initialized with _ | _
  · rw [destroy_idle impl (by rw [hi]; exact Bool.false_ne_true)]
    exact h.down hi
  · unfold destroy
    rw [if_pos hi]

theorem incomingRpc_hooked {x : Session W H φ τ} (hk : x.hooker.hooked .handleRpcHook = true) (rp : RakPeer)
    (data : List Byte)
    (playerid : PlayerId) :
    stepSession impl g game x (.incomingRpc rp data playerid) = receiveRpc impl g game x rp data playerid := by
  rw [stepSession, if_pos hk]

theorem receiveRpc_attached {x : Session W H φ τ} (h : Attached x) (hk : x.hooker.hooked .handleRpcHook = true)
    (rp : RakPeer)
    (data : List Byte) (playerid : PlayerId) : Attached (receiveRpc impl g game x rp data playerid) := by
  have hs := receiveRpc_hooker impl g game x rp data playerid
  have hi := hooked_initialized h.noStray hk
  refine ⟨?_, ?_, ?_, ?_, ?_⟩
  · rw [hs]
    exact fun hn => absurd hi hn
  · intro _
    rw [hs]
    exact hk
  · intro hn
    rw [hs] at hn
    exact absurd (hn.symm.trans hi) Bool.false_ne_true
  · intro _ hn
    cases hn
  · intro _ p hp
    cases hp
    rw [hs]
    exact ⟨rfl, rp.ne, rfl⟩

theorem stepSession_attached {x : Session W H φ τ} (h : Attached x) (e : SessionEvent) :
    Attached (stepSession impl g game x e) := by
  cases e with
  | initializeHooker env => exact initialize_attached impl g game h env
  | destroy => exact destroy_attached impl g game h
  | incomingRpc rp data playerid =>
    by_cases hk : x.hooker.hooked .handleRpcHook = true
    · rw [incomingRpc_hooked impl g game hk]
      exact receiveRpc_attached impl g game h hk rp data playerid
    · rw [stepSession, if_neg hk]
      exact h
  | send args => exact ⟨h.noStray, h.hooked, h.down, h.silent, h.peer⟩
  | sendRpc id args => exact ⟨h.noStray, h.hooked, h.down, h.silent, h.peer⟩
  | emulRpc id rpcBs =>
    simp only [stepSession]
    split
    · exact ⟨h.noStray, h.hooked, h.down, h.silent, h.peer⟩
    · exact h

/-! ## `emul_rpc` -/

theorem emulRpc_refused (s : St W H) (id : Byte) (rpcBs : BitStream) :
    emulRpc impl g s id rpcBs = .refused ↔ s.initialized = false ∨ s.rakpeer = 0 := by
  unfold emulRpc
  split
  · rename_i h
    exact iff_of_true rfl (by simpa using h)
  · rename_i h
    refine iff_of_false ?_ (by simpa using h)
    dsimp only
    split
    · exact fun he => Emulation.noConfusion he
    · split <;> exact fun he => Emulation.noConfusion he

theorem live_of_attached {x : Session W H φ τ} (h : Attached x) (ho : HasOriginal impl x.hooker) (id : Byte)
    (rpcBs : BitStream) :
    Live impl g x.hooker x.sinceSetUp id rpcBs := by
  have hrefused := emulRpc_refused impl g x.hooker id rpcBs
  rcases hi : x.hooker.initialized with _ | _
  · have hr := hrefused.mpr (.inl hi)
    exact ⟨iff_of_true hr (.inl hi), fun hn => absurd hr hn⟩
  rcases hl : x.sinceSetUp with _ | ⟨rp, playerid⟩
  · have hr := hrefused.mpr (.inr (h.silent hi hl))
    exact ⟨iff_of_true hr (.inr rfl), fun hn => absurd hr hn⟩
  obtain ⟨hp, hne, hpid⟩ := h.peer hi _ hl
  obtain ⟨hook, hk, hin⟩ : ∃ hook, x.hooker.hook .handleRpcHook = some hook ∧ hook.installed = true := by
    have hh := h.hooked hi
    unfold St.hooked at hh
    rcases hk : x.hooker.hook .handleRpcHook with _ | hook
    · rw [hk] at hh
      cases hh
    · rw [hk] at hh
      exact ⟨hook, rfl, hh⟩
  have horig := ho hook hk hin
  have hcalls : emulRpc impl g x.hooker id rpcBs = .handed (impl.getOriginal hook.impl x.hooker.world) rp
      (Rpc.emulRpcStream g id rpcBs).getData (Rpc.emulRpcStream g id rpcBs).getNumberOfBytesUsed playerid := by
    unfold emulRpc
    rw [if_neg (by rw [hi, hp]; simpa using hne)]
    simp only [original, hk, Option.map_some]
    rw [if_neg horig, hp, hpid]
  refine ⟨?_, fun _ => ⟨hook, rp, playerid, hk, hin, horig, rfl, hcalls⟩⟩
  rw [hcalls]
  exact iff_of_false (fun h => Emulation.noConfusion h) (by simp [hi])

/-- On any run over a back end whose installed hook has an original, `emul_rpc` is live at
    every point, for the RPCs since the hooker was set up. -/
theorem emul_live (versions : VersionManager) (world : W) (onReceiveRpc : List (Option φ)) (t : τ)
    (events : List SessionEvent)
    (ho : Along (stepSession impl g game) (fun x _ => HasOriginal impl x.hooker) events
      (.start versions world onReceiveRpc t)) :
    Along (stepSession impl g game) (fun x _ => ∀ id rpcBs, Live impl g x.hooker x.sinceSetUp id rpcBs) events
      (.start versions world onReceiveRpc t) :=
  Along.imp_of_inv (I := Attached) (fun _ e h _ => stepSession_attached impl g game h e)
    (fun _ _ h ho id rpcBs => live_of_attached impl g h ho id rpcBs) events
      (start_attached versions world onReceiveRpc t) ho

def willingOriginals : HookImpl Unit Unit := { willing with getOriginal := fun _ _ => 0x53BEE0 }

def takesAll : Game Unit Unit where
  callback _ x := (true, x)
  send _ _ _ t := (true, t)
  rpc _ _ _ _ t := (true, t)
  handleRpcPacket _ _ _ _ _ t := (true, t)

theorem willingOriginals_hasOriginal (s : St Unit Unit) : HasOriginal willingOriginals s := by
  intro _ _ _
  show (0x53BEE0 : Addr) ≠ 0
  decide

theorem emul_live_once :
    Along (stepSession willingOriginals (fun _ _ => 0) takesAll)
      (fun x _ => ∀ id rpcBs, Live willingOriginals (fun _ _ => 0) x.hooker x.sinceSetUp id rpcBs)
      [.initializeHooker withClient, .incomingRpc ⟨0x40000000, by decide⟩ [20, 7] ⟨0x0100007F, 7777⟩,
        .emulRpc 7 (BitStream.empty fun _ _ => 0)]
      (.start VersionManager.known () [] ()) :=
  emul_live willingOriginals _ takesAll _ _ _ _ _
    (Along.of_inv (I := fun _ => True) (fun _ _ _ => trivial)
      (fun x _ _ => willingOriginals_hasOriginal x.hooker) _ trivial)

/-- After a second `initialize()`, which returns true, `emul_rpc` still serves the RPC that
    came before it. -/
theorem emul_after_second_initialize :
    let events : List SessionEvent := [.initializeHooker withClient,
      .incomingRpc ⟨0x40000000, by decide⟩ [20, 7] ⟨0x0100007F, 7777⟩,
      .initializeHooker withClient, .emulRpc 7 (BitStream.empty fun _ _ => 0)]
    let start : Session Unit Unit Unit Unit := .start VersionManager.known () [] ()
    ¬ (Along (stepSession willingOriginals (fun _ _ => 0) takesAll)
      (fun x _ => HasOriginal willingOriginals x.hooker) events start →
      Along (stepSession willingOriginals (fun _ _ => 0) takesAll)
        (fun x _ => ∀ id rpcBs, Live willingOriginals (fun _ _ => 0) x.hooker x.sinceTrue id rpcBs) events start) := by
  intro events start h
  have ho : Along (stepSession willingOriginals (fun _ _ => 0) takesAll)
    (fun x _ => HasOriginal willingOriginals x.hooker) events start :=
    Along.of_inv (I := fun _ => True) (fun _ _ _ => trivial)
      (fun x _ _ => willingOriginals_hasOriginal x.hooker) _ trivial
  obtain ⟨-, -, -, hlive, -⟩ := h ho
  obtain ⟨x₁, hx₁⟩ : ∃ x,
      stepSession willingOriginals (fun _ _ => 0) takesAll start (.initializeHooker withClient) = x := ⟨_, rfl⟩
  have hk : x₁.hooker.hooked .handleRpcHook = true := by
    rw [← hx₁]
    decide
  have hup : x₁.hooker.initialized = true := by
    rw [← hx₁]
    decide
  rw [hx₁, incomingRpc_hooked _ _ _ hk] at hlive
  have hs := receiveRpc_hooker willingOriginals (fun _ _ => 0) takesAll x₁ ⟨0x40000000, by decide⟩ [20, 7]
    ⟨0x0100007F, 7777⟩
  rw [initialize_again _ _ _ (by rw [hs]; exact hup)] at hlive
  have hrefused := (hlive 7 (BitStream.empty fun _ _ => 0)).refused.mpr (.inr rfl)
  rw [emulRpc_refused, hs] at hrefused
  rcases hrefused with hoff | hnull
  · exact Bool.noConfusion (hoff.symm.trans hup)
  · have hzero : (0x40000000 : Addr) = 0 := hnull
    exact absurd hzero (by decide)

end RakHook.Hooker
