/-
  RakHook.Rpc.Observe — callbacks that only read.

  An observer is a program over the reading functions: it returns true, leaves the id
  alone and keeps what it learns to itself (`notes`). The other callbacks are any
  functions of the id, the stream and the rest of the world. All of them read from one
  stream, and nothing puts its read offset back between two callbacks: an observer goes
  unnoticed at every place exactly if it does so itself (`observer_unnoticed_iff`).
-/

import RakHook.BitStream.Calls
import RakHook.Rpc.Model
import RakHook.Signal.Fold

namespace RakHook.Rpc

open Lib BitStream

variable {ω ρ : Type}

/-- Reading calls, each chosen after the answers to those before it. -/
inductive Reader (ρ : Type) where
  | done (notes : ρ)
  | call (c : ReadCall) (next : Answer → Reader ρ)

def Reader.run (bs : BitStream) : Reader ρ → BitStream × ρ
  | .done notes => (bs, notes)
  | .call c next =>
    let r := c.run bs
    (next r.2).run r.1

abbrev OnReceiveRpc (ω : Type) := RpcArgs × ω → Bool × RpcArgs × ω

abbrev Observer (ω ρ : Type) := (id : Byte) → (world : ω) → (notes : ρ) → Reader ρ

/-- What a callback was given, and what it decided. -/
structure Heard (ω : Type) where
  id : Byte
  bs : BitStream
  world : ω
  ret : Bool

structure Observed (ω ρ : Type) where
  world : ω
  heard : List (Heard ω)
  notes : ρ

/-- The stream as the code has it: no ghost, the read offset an `int`. -/
def seen (bs : BitStream) : BitStream := { bs with readOffset := i32 bs.readOffset, trace := [] }

theorem seen_seen (bs : BitStream) : seen (seen bs) = seen bs := by
  have h : i32 (i32 bs.readOffset) = i32 bs.readOffset := by
    unfold i32
    omega
  simp only [seen, h]

/-- A callback that is not the observer. -/
def other (f : OnReceiveRpc ω) : OnReceiveRpc (Observed ω ρ) := fun x =>
  let bs := seen x.1.bs
  let r := f (⟨x.1.id, bs⟩, x.2.world)
  (r.1, ⟨r.2.1.id, seen r.2.1.bs⟩, ⟨r.2.2, x.2.heard ++ [⟨x.1.id, bs, x.2.world, r.1⟩], x.2.notes⟩)

def Observer.callback (o : Observer ω ρ) : OnReceiveRpc (Observed ω ρ) := fun x =>
  let r := (o x.1.id x.2.world x.2.notes).run (seen x.1.bs)
  (true, ⟨x.1.id, r.1⟩, { x.2 with notes := r.2 })

def others (fs : List (Option (OnReceiveRpc ω))) : List (Option (OnReceiveRpc (Observed ω ρ))) :=
  fs.map (Option.map other)

def passOn (orig : List Byte → Int → ω → Bool × ω) (buf : List Byte) (len : Int) (x : Observed ω ρ) :
    Bool × Observed ω ρ :=
  let r := orig buf len x.world
  (r.1, { x with world := r.2 })

def observedRun (g : Junk) (orig : List Byte → Int → ω → Bool × ω) (fs : List (Option (OnReceiveRpc (Observed ω ρ))))
    (world : ω) (notes : ρ)
    (data : List Byte) : RpcRun (OnReceiveRpc (Observed ω ρ)) (Observed ω ρ) :=
  handleRpcPacket g (fun f x => f x) (passOn orig) fs ⟨world, [], notes⟩ data

/-- With the observer between `pre` and `post` every other callback is given the same and
    decides the same, and the same is forwarded and returned as without it. -/
def Unnoticed (g : Junk) (orig : List Byte → Int → ω → Bool × ω) (pre post : List (Option (OnReceiveRpc ω)))
    (o : Observer ω ρ) (world : ω)
    (notes : ρ) (data : List Byte) : Prop :=
  let r := observedRun g orig (others pre ++ others post) world notes data
  let r' := observedRun g orig (others pre ++ some o.callback :: others post) world notes data
  r'.world.heard = r.world.heard ∧ r'.forwarded = r.forwarded ∧ r'.ret = r.ret ∧ r'.world.world = r.world.world

/-- The observer leaves the read offset where it found it. -/
def Observer.PutsBack (o : Observer ω ρ) : Prop :=
  ∀ id world notes bs, (seen ((o id world notes).run (seen bs)).1).readOffset = (seen bs).readOffset

/-! ## Observers -/

theorem Reader.run_frame (p : Reader ρ) (bs : BitStream) : Reads (fun _ => True) bs (p.run bs).1 := by
  induction p generalizing bs with
  | done notes => exact .refl bs
  | call c next ih => exact (c.run_frame bs).trans (ih _ _)

/-- All but the read offset: what a rebuild sees, and the world. -/
def contents (x : RpcArgs × Observed ω ρ) : Byte × BitStream × ω × List (Heard ω) :=
  (x.1.id, { x.1.bs with readOffset := 0, trace := [] }, x.2.world, x.2.heard)

/-- What another callback can tell apart. -/
def outlook (x : RpcArgs × Observed ω ρ) : Byte × BitStream × ω × List (Heard ω) :=
  (x.1.id, seen x.1.bs, x.2.world, x.2.heard)

theorem observer_contents (o : Observer ω ρ) (x : RpcArgs × Observed ω ρ) : contents (o.callback x).2 = contents x := by
  have hr := (o x.1.id x.2.world x.2.notes).run_frame (seen x.1.bs)
  unfold contents Observer.callback
  dsimp only
  rw [hr.same]
  rfl

theorem observer_outlook {o : Observer ω ρ} (h : o.PutsBack) (x : RpcArgs × Observed ω ρ) :
    outlook (o.callback x).2 = outlook x := by
  have hr := (o x.1.id x.2.world x.2.notes).run_frame (seen x.1.bs)
  have hback : i32 ((o x.1.id x.2.world x.2.notes).run (seen x.1.bs)).1.readOffset = i32 x.1.bs.readOffset := h _ _ _ _
  unfold outlook Observer.callback
  dsimp only
  rw [seen, hback, hr.same]
  rfl

theorem contents_of_outlook {x y : RpcArgs × Observed ω ρ} (h : outlook x = outlook y) : contents x = contents y := by
  simp only [outlook, Prod.mk.injEq] at h
  obtain ⟨hid, hbs, hworld, hheard⟩ := h
  have hstream := congrArg (fun bs : BitStream => { bs with readOffset := 0 }) hbs
  simp only [contents, Prod.mk.injEq]
  exact ⟨hid, hstream, hworld, hheard⟩

theorem other_outlook (f : OnReceiveRpc ω) {x y : RpcArgs × Observed ω ρ} (h : outlook x = outlook y) :
    (other f x).1 = (other f y).1 ∧ outlook (other f x).2 = outlook (other f y).2 := by
  simp only [outlook, Prod.mk.injEq] at h
  obtain ⟨hid, hbs, hworld, hheard⟩ := h
  unfold outlook other
  dsimp only
  rw [hid, hbs, hworld, hheard]
  exact ⟨rfl, rfl⟩

/-! ## Runs -/

theorem rebuildRpc_contents (g : Junk) (incoming : BitStream) (offset : Int) (id : Byte) (bs : BitStream) :
    rebuildRpc g incoming offset id bs = rebuildRpc g incoming offset id { bs with readOffset := 0, trace := [] } := rfl

/-- The dispatch that `handle_rpc_packet` makes. -/
def dispatch (g : Junk) (fs : List (Option (OnReceiveRpc (Observed ω ρ)))) (cb : BitStream) (world : ω) (notes : ρ)
    (data : List Byte) :
    Signal.Dispatch (OnReceiveRpc (Observed ω ρ)) (RpcArgs × Observed ω ρ) :=
  Signal.call (fun f x => f x) fs (⟨(parseRpc g data).id, cb⟩, ⟨world, [], notes⟩)

/-- The rest of `handle_rpc_packet` does not look at the read offset. -/
theorem unnoticed_of_contents {g : Junk} (orig : List Byte → Int → ω → Bool × ω)
    {pre post : List (Option (OnReceiveRpc ω))}
    {o : Observer ω ρ} {world : ω} {notes : ρ} {data : List Byte} {cb : BitStream}
    (hcb : (parseRpc g data).callbackBs = some cb)
    (hret : (dispatch g (others pre ++ some o.callback :: others post) cb world notes data).ret =
      (dispatch g (others pre ++ others post) cb world notes data).ret)
    (h : contents (dispatch g (others pre ++ some o.callback :: others post) cb world notes data).args =
      contents (dispatch g (others pre ++ others post) cb world notes data).args) :
    Unnoticed g orig pre post o world notes data := by
  simp only [contents, Prod.mk.injEq] at h
  obtain ⟨hid, hbs, hworld, hheard⟩ := h
  unfold dispatch at hret hid hbs hworld hheard
  unfold Unnoticed observedRun handleRpcPacket passOn
  simp only [hcb, hret]
  split
  · rw [rebuildRpc_contents, hbs, hid, ← rebuildRpc_contents, hworld]
    exact ⟨hheard, rfl, rfl, rfl⟩
  · exact ⟨hheard, rfl, rfl, hworld⟩

theorem mem_others {fs : List (Option (OnReceiveRpc ω))} {f : OnReceiveRpc (Observed ω ρ)} (h : some f ∈ others fs) :
    ∃ k, some k ∈ fs ∧ f = other k := by
  obtain ⟨k, hk, he⟩ := List.mem_map.mp h
  rcases k with _ | k
  · cases he
  · exact ⟨k, hk, (Option.some.inj he).symm⟩

theorem unnoticed_of_putsBack {g : Junk} (orig : List Byte → Int → ω → Bool × ω) {data : List Byte} {cb : BitStream}
    (hcb : (parseRpc g data).callbackBs = some cb) {o : Observer ω ρ} (ho : o.PutsBack)
    (pre post : List (Option (OnReceiveRpc ω)))
    (world : ω) (notes : ρ) : Unnoticed g orig pre post o world notes data := by
  have hpost : ∀ f, some f ∈ others post → ∀ x y : RpcArgs × Observed ω ρ, outlook x = outlook y →
      (f x).1 = (f y).1 ∧ outlook (f x).2 = outlook (f y).2 := by
    intro f hf x y hxy
    obtain ⟨k, -, rfl⟩ := mem_others hf
    exact other_outlook k hxy
  obtain ⟨hret, hout⟩ := Signal.call_insert (o := o.callback) (fun f x => f x) outlook
    (fun x => ⟨rfl, observer_outlook ho x⟩) hpost (⟨(parseRpc g data).id, cb⟩, ⟨world, [], notes⟩)
  exact unnoticed_of_contents orig hcb hret (contents_of_outlook hout)

theorem unnoticed_of_last {g : Junk} (orig : List Byte → Int → ω → Bool × ω) {data : List Byte} {cb : BitStream}
    (hcb : (parseRpc g data).callbackBs = some cb) (o : Observer ω ρ) (pre : List (Option (OnReceiveRpc ω)))
    {post : List (Option (OnReceiveRpc ω))} (hpost : Signal.registered post = []) (world : ω) (notes : ρ) :
    Unnoticed g orig pre post o world notes data := by
  have hnone : ∀ f, some f ∈ others post → ∀ x y : RpcArgs × Observed ω ρ, contents x = contents y →
      (f x).1 = (f y).1 ∧ contents (f x).2 = contents (f y).2 := by
    intro f hf
    obtain ⟨k, hk, -⟩ := mem_others hf
    have hmem : k ∈ Signal.registered post := List.mem_filterMap.mpr ⟨some k, hk, rfl⟩
    rw [hpost] at hmem
    cases hmem
  obtain ⟨hret, hcontents⟩ := Signal.call_insert (o := o.callback) (fun f x => f x) contents
    (fun x => ⟨rfl, observer_contents o x⟩) hnone (⟨(parseRpc g data).id, cb⟩, ⟨world, [], notes⟩)
  exact unnoticed_of_contents orig hcb hret hcontents

theorem observedRun_heard {g : Junk} (orig : List Byte → Int → ω → Bool × ω) {data : List Byte} {cb : BitStream}
    (hcb : (parseRpc g data).callbackBs = some cb) (fs : List (Option (OnReceiveRpc (Observed ω ρ)))) (world : ω)
    (notes : ρ) :
    (observedRun g orig fs world notes data).world.heard = (dispatch g fs cb world notes data).args.2.heard := by
  unfold observedRun dispatch
  rw [handleRpcPacket_world _ _ _ _ hcb]
  dsimp only
  split <;> rfl

/-- One that moves the offset is noticed by a callback that goes by it. -/
theorem putsBack_of_unnoticed {g : Junk} (orig : List Byte → Int → ω → Bool × ω) {data : List Byte} {cb : BitStream}
    (hcb : (parseRpc g data).callbackBs = some cb) {o : Observer ω ρ}
    (h : ∀ pre post world notes, Unnoticed g orig pre post o world notes data) : o.PutsBack := by
  intro id world notes bs
  let sets : OnReceiveRpc ω := fun _ => (true, ⟨id, bs⟩, world)
  let compares : OnReceiveRpc ω := fun x => (decide (x.1.bs.readOffset = (seen bs).readOffset), x)
  have hheard := (h [some sets] [some compares] world notes).1
  rw [observedRun_heard orig hcb, observedRun_heard orig hcb] at hheard
  unfold dispatch others at hheard
  simp only [List.map_cons, List.map_nil, Option.map_some, List.cons_append, List.nil_append] at hheard
  rw [Signal.call_pass _ rfl, Signal.call_pass _ rfl, Signal.call_last, Signal.call_pass _ rfl,
    Signal.call_last] at hheard
  have hentry := (List.cons.inj (List.append_cancel_left hheard)).1
  have hret : decide ((seen ((o id world notes).run (seen (seen bs))).1).readOffset = (seen bs).readOffset) =
      decide ((seen (seen bs)).readOffset = (seen bs).readOffset) := congrArg Heard.ret hentry
  rw [seen_seen, decide_eq_true (rfl : (seen bs).readOffset = _)] at hret
  exact of_decide_eq_true hret

/-- At every place in every list of callbacks an observer goes unnoticed exactly if it
    leaves the read offset as it was; behind the last callback it does in any case. -/
theorem observer_unnoticed_iff (g : Junk) (orig : List Byte → Int → ω → Bool × ω) (o : Observer ω ρ) (data : List Byte)
    (hacc : (parseRpc g data).callbackBs.isSome) :
    ((∀ pre post world notes, Unnoticed g orig pre post o world notes data) ↔ o.PutsBack) ∧
      ∀ pre post world notes, Signal.registered post = [] → Unnoticed g orig pre post o world notes data := by
  obtain ⟨cb, hcb⟩ := Option.isSome_iff_exists.mp hacc
  refine ⟨⟨putsBack_of_unnoticed orig hcb, ?_⟩, ?_⟩
  · intro ho pre post world notes
    exact unnoticed_of_putsBack orig hcb ho pre post world notes
  · intro pre post world notes hpost
    exact unnoticed_of_last orig hcb o pre hpost world notes

def peeks : Observer (List Byte) (List Byte) := fun _ _ notes =>
  .call .readBool fun a => if a.ok then .call (.ignoreBits (-1)) fun _ => .done (notes ++ a.output) else .done notes

def reads : Observer (List Byte) (List Byte) := fun _ _ notes => .call (.read [0]) fun a => .done (notes ++ a.output)

/-- A callback that starts by reading a byte, and shows it. -/
def readsByte : OnReceiveRpc (List Byte) := fun x =>
  let r := x.1.bs.read [0]
  (r.1, ⟨x.1.id, r.2.1⟩, x.2 ++ r.2.2)

theorem peeks_putsBack : peeks.PutsBack := by
  intro id world notes bs
  have hstep : i32 (i32 (i32 (i32 bs.readOffset + 1) + -1)) = i32 (i32 bs.readOffset) := by
    unfold i32
    omega
  unfold peeks
  simp only [Reader.run, ReadCall.run, readBool]
  by_cases h : (seen bs).numberOfBitsUsed < i32 ((seen bs).readOffset + 1)
  · simp only [if_pos h]
    exact congrArg BitStream.readOffset (seen_seen bs)
  · simp only [if_neg h]
    exact hstep.trans (congrArg BitStream.readOffset (seen_seen bs))

def twoBytes : List Byte := [20, 7, 0xE1, 0x0A, 0x55, 0xA0]

theorem peeks_unnoticed :
    Unnoticed (fun _ _ => 0) (fun _ _ world => (true, world)) [some readsByte] [none, some readsByte] peeks [] []
    twoBytes :=
  (observer_unnoticed_iff (fun _ _ => 0) (fun _ _ world => (true, world)) peeks twoBytes
    (by decide +kernel)).1.mpr peeks_putsBack
    [some readsByte] [none, some readsByte] [] []

/-- Two readers of one RPC: the second reads what the first left. -/
theorem reads_noticed :
    ¬ Unnoticed (fun _ _ => 0) (fun _ _ world => (true, world)) [] [some readsByte] reads [] [] twoBytes := by
  intro h
  have hworld := h.2.2.2
  revert hworld
  decide +kernel

end RakHook.Rpc
