/-
  RakHook.Rpc.Release — what becomes of the memory `handle_rpc_packet` allocates.

  `lifetimes` lists every state the two streams are in between two calls, from
  construction to destruction, next to the `input` buffer. A callback is any list of calls
  on the stream, chosen from all it can see (`Script`).

  A stream is destroyed properly in each of these states unless it was built over exactly
  256 bytes: the datagram, or the payload (`released_iff`).
-/

import RakHook.BitStream.Storage
import RakHook.Rpc.Rebuild
import RakHook.Signal.Fold

namespace RakHook.Rpc

open Lib BitStream

variable {φ ω : Type}

/-! ## Callbacks as calls -/

/-- One invocation: the calls it makes on `*bs`, and what it leaves behind. -/
structure Invocation (ω : Type) where
  calls : List Call
  ret : Bool
  id : Byte
  world : ω

abbrev Script (φ ω : Type) := φ → RpcArgs × ω → Invocation ω

def Script.invoke (g : Junk) (script : Script φ ω) (f : φ) (x : RpcArgs × ω) : Bool × RpcArgs × ω :=
  let i := script f x
  (i.ret, ⟨i.id, i.calls.foldl (Call.run g) x.1.bs⟩, i.world)

/-- Each call with the stream it is made on. -/
def trail (g : Junk) (bs : BitStream) : List Call → List (BitStream × Call)
  | [] => []
  | c :: calls => (bs, c) :: trail g (c.run g bs) calls

abbrev left (g : Junk) (x : BitStream × Call) : BitStream := x.2.run g x.1

/-- `invoke`, with a record of the calls. -/
def Script.watched (g : Junk) (script : Script φ ω) (f : φ) (x : RpcArgs × ω × List (BitStream × Call)) :
    Bool × RpcArgs × ω × List (BitStream × Call) :=
  let r := script.invoke g f (x.1, x.2.1)
  (r.1, r.2.1, r.2.2, x.2.2 ++ trail g x.1.bs (script f (x.1, x.2.1)).calls)

/-! ## Lifetimes -/

structure Lifetimes where
  incoming : List BitStream
  /-- The default stream and the one that takes its place. -/
  callbackBs : List BitStream
  calls : List (BitStream × Call)
  memory : List MemOp

/-- `incoming` until the callbacks run. -/
def parsing (g : Junk) (data : List Byte) : List BitStream :=
  let incoming := ofBuffer g data data.length true
  let readId := ((openRpc g data).read [0]).2.1
  let readCount := (readId.readCompressed [0, 0, 0, 0] true).2.1
  [incoming, incoming.ignoreBits 8, openRpc g data, readId, readCount, (parseRpc g data).incoming]

/-- `incoming` during `rebuildRpc`. -/
def rebuilding (g : Junk) (incoming : BitStream) (offset : Int) (id : Byte) (callbackBs : BitStream) : List BitStream :=
  let rewound := incoming.setWriteOffset offset
  let wroteId := rewound.write g [id]
  let wroteCount := wroteId.writeCompressed g (le32 (payloadBits callbackBs)) true
  [rewound, wroteId, wroteCount, rebuildRpc g incoming offset id callbackBs]

def lifetimes (g : Junk) (script : Script φ ω) (onReceiveRpc : List (Option φ)) (world : ω) (data : List Byte) :
    Lifetimes :=
  let p := parseRpc g data
  match p.callbackBs with
  | none => ⟨parsing g data, [empty g], [], p.memory⟩
  | some callbackBs =>
    let d := Signal.call (script.watched g) onReceiveRpc (⟨p.id, callbackBs⟩, world, [])
    let rebuilt := if d.ret then rebuilding g p.incoming p.offset d.args.1.id d.args.1.bs else []
    ⟨parsing g data ++ rebuilt, empty g :: callbackBs :: d.args.2.2.map (left g), d.args.2.2, p.memory⟩

/-- `input` is deleted if it came from `new[]`, and only then. -/
def InputReleased (memory : List MemOp) : Prop :=
  memory = [] ∨ (∃ n, memory = [.alloca n]) ∨ ∃ n, memory = [.newArray n, .deleteArray]

/-- Whenever a stream is destroyed, its buffer is freed if it is on the heap, and only
    then. -/
structure Released (l : Lifetimes) : Prop where
  incoming : ∀ bs ∈ l.incoming, Owned bs
  callbackBs : ∀ bs ∈ l.callbackBs, Owned bs
  input : InputReleased l.memory

/-! ## The record against the run -/

/-- Recording changes neither the verdict nor what is left. -/
theorem watched_call (g : Junk) (script : Script φ ω) (fs : List (Option φ)) (args : RpcArgs) (world : ω)
    (log : List (BitStream × Call)) :
    let d := Signal.call (script.watched g) fs (args, world, log)
    let d' := Signal.call (script.invoke g) fs (args, world)
    d.ret = d'.ret ∧ (d.args.1, d.args.2.1) = d'.args := by
  have hstep : ∀ f, some f ∈ fs → ∀ (x : RpcArgs × ω × List (BitStream × Call)) (y : RpcArgs × ω), (x.1, x.2.1) = y →
      (script.watched g f x).1 = (script.invoke g f y).1 ∧
        ((script.watched g f x).2.1, (script.watched g f x).2.2.1) = (script.invoke g f y).2 := by
    intro f _ x y h
    subst h
    exact ⟨rfl, rfl⟩
  obtain ⟨hret, hargs, -⟩ := Signal.call_sim hstep (a := (args, world, log)) rfl
  exact ⟨hret, hargs⟩

/-! ## The callback stream -/

/-- A stream a rebuild can read: below 2^26 bytes. -/
structure Bounded (bs : BitStream) : Prop extends Settled bs where
  small : bs.numberOfBitsUsed < 8 * 67108864

theorem trail_bounded (g : Junk) (calls : List Call) :
    ∀ {bs : BitStream}, Bounded bs → (∀ x ∈ trail g bs calls, x.2.Fits x.1) →
    Bounded (calls.foldl (Call.run g) bs) ∧ ∀ x ∈ trail g bs calls, Owned (left g x) := by
  induction calls with
  | nil => exact fun h _ => ⟨h, by simp [trail]⟩
  | cons c calls ih =>
    intro bs h hfits
    have hc : c.Fits bs := hfits (bs, c) (List.mem_cons_self ..)
    obtain ⟨hs, hu⟩ := h.toSettled.run g hc
    obtain ⟨h1, h2⟩ := ih ⟨hs, Int.lt_of_le_of_lt hu hc⟩ fun x hx => hfits x (List.mem_cons_of_mem _ hx)
    refine ⟨h1, ?_⟩
    intro x hx
    rcases List.mem_cons.mp hx with rfl | hx
    · exact hs.owned
    · exact h2 x hx

theorem watched_bounded (g : Junk) (script : Script φ ω) (fs : List (Option φ)) {id : Byte} {cb : BitStream}
    (world : ω) (h : Bounded cb)
    (hfits : ∀ x ∈ (Signal.call (script.watched g) fs (⟨id, cb⟩, world, [])).args.2.2, x.2.Fits x.1) :
    let d := Signal.call (script.watched g) fs (⟨id, cb⟩, world, [])
    Bounded d.args.1.bs ∧ ∀ x ∈ d.args.2.2, Owned (left g x) := by
  refine Signal.call_keeps (P := fun x => (∀ y ∈ x.2.2, y.2.Fits y.1) → Bounded x.1.bs ∧ ∀ y ∈ x.2.2, Owned (left g y))
    (script.watched g) ?_ fs (fun _ => ⟨h, by simp⟩) hfits
  intro f x hx hall
  obtain ⟨hbefore, howned⟩ := hx fun y hy => hall y (List.mem_append_left _ hy)
  obtain ⟨hafter, howned'⟩ := trail_bounded g (script f (x.1, x.2.1)).calls hbefore fun y hy =>
    hall y (List.mem_append_right _ hy)
  refine ⟨hafter, ?_⟩
  intro y hy
  rcases List.mem_append.mp hy with hy | hy
  · exact howned y hy
  · exact howned' y hy

/-! ## The parse -/

theorem readPayload_memory (g : Junk) (incoming : BitStream) (bitsData : BitVec 32) :
    InputReleased (readPayload g incoming bitsData).2.2 := by
  have hm : ∀ size : Int, InputReleased (if size < maxAllocaStackAllocation
      then (if size < maxAllocaStackAllocation then [.alloca size] else [.newArray size])
      else (if size < maxAllocaStackAllocation then [.alloca size] else [.newArray size]) ++ [.deleteArray]) := by
    intro size
    by_cases h : size < maxAllocaStackAllocation
    · rw [if_pos h, if_pos h]
      exact .inr (.inl ⟨_, rfl⟩)
    · rw [if_neg h, if_neg h]
      exact .inr (.inr ⟨_, rfl⟩)
  unfold readPayload
  split
  · exact .inl rfl
  · dsimp only
    split <;> exact hm _

theorem parseRpc_memory (g : Junk) (data : List Byte) : InputReleased (parseRpc g data).memory := by
  unfold parseRpc
  dsimp only
  split
  · exact .inl rfl
  · exact readPayload_memory ..

theorem openRpc_frame (g : Junk) (data : List Byte) :
    Reads (fun _ => True) (ofBuffer g data data.length true) (openRpc g data) := by
  unfold openRpc
  dsimp only
  split
  · exact .trans (.seek _ _) (.seek _ _)
  · exact .seek _ _

theorem readId_frame (g : Junk) (data : List Byte) :
    Reads (fun _ => True) (ofBuffer g data data.length true) ((openRpc g data).read [0]).2.1 :=
  (openRpc_frame g data).trans (readBits_frame (openRpc g data) [0] _ true)

theorem readCount_frame (g : Junk) (data : List Byte) : Reads (fun _ => True) (ofBuffer g data data.length true)
    (((openRpc g data).read [0]).2.1.readCompressed [0, 0, 0, 0] true).2.1 :=
  (readId_frame g data).trans (readCompressedFrom_frame true 3 _ [0, 0, 0, 0])

theorem parseRpc_frame (g : Junk) (data : List Byte) :
    Reads (fun _ => True) (ofBuffer g data data.length true) (parseRpc g data).incoming := by
  refine (readCount_frame g data).trans ?_
  unfold parseRpc
  dsimp only
  split
  · rename_i heq
    rw [heq]
    exact .refl _
  · rename_i heq
    rw [heq]
    exact readPayload_frame ..

/-- Parsing only reads: the states of `incoming` are owned as the first one is. -/
theorem parsing_owned (g : Junk) (data : List Byte) {bs : BitStream} (hbs : bs ∈ parsing g data) :
    Owned bs ↔ Owned (ofBuffer g data data.length true) := by
  simp only [parsing, List.mem_cons, List.not_mem_nil, or_false] at hbs
  rcases hbs with rfl | rfl | rfl | rfl | rfl | rfl
  · exact Iff.rfl
  · exact owned_reads (P := fun _ => True) (.seek _ _)
  · exact owned_reads (openRpc_frame g data)
  · exact owned_reads (readId_frame g data)
  · exact owned_reads (readCount_frame g data)
  · exact owned_reads (parseRpc_frame g data)

/-! ## The rebuild -/

theorem compressedBits_le (input : List Byte) (u : Bool) (currentByte : Nat) :
    compressedBits input u currentByte ≤ 9 * (currentByte + 1) := by
  induction currentByte with
  | zero => unfold compressedBits; split <;> omega
  | succ c ih => unfold compressedBits; split <;> omega

theorem payloadBits_le {bs : BitStream} (h : Bounded bs) : (payloadBits bs).toInt ≤ 536870912 := by
  have h0 := h.usedPos
  have hs := h.small
  have hbytes : bs.getNumberOfBytesUsed = (bs.numberOfBitsUsed + 7) / 8 := by
    unfold getNumberOfBytesUsed bitsToBytes
    rw [i32_of] <;> omega
  obtain ⟨n, hn⟩ : ∃ n : Nat, bytesToBits bs.getNumberOfBytesUsed = n ∧ n ≤ 536870912 := by
    refine ⟨((bs.numberOfBitsUsed + 7) / 8 * 8).toNat, ?_, by omega⟩
    unfold bytesToBits
    rw [hbytes, i32_of] <;> omega
  unfold payloadBits
  rw [hn.1, BitVec.ofInt_natCast, toInt_small] <;> rw [BitVec.toNat_ofNat] <;> omega

theorem rebuilding_owned (g : Junk) {incoming callbackBs : BitStream} (h : Settled incoming)
    (hc : Bounded callbackBs) {offset : Int} (h0 : 0 ≤ offset) (hoffset : offset ≤ 48) (id : Byte) :
    ∀ bs ∈ rebuilding g incoming offset id callbackBs, Owned bs := by
  have hrewound : Settled (incoming.setWriteOffset offset) := h.setUsed h0
  have hused : (incoming.setWriteOffset offset).numberOfBitsUsed = offset := rfl
  obtain ⟨h1, u1⟩ : Settled ((incoming.setWriteOffset offset).write g [id]) ∧
      ((incoming.setWriteOffset offset).write g [id]).numberOfBitsUsed ≤ offset + 8 :=
    hrewound.writeBits g [id] 8 true (by omega)
  have hcode := compressedBits_le (le32 (payloadBits callbackBs)) true 3
  obtain ⟨h2, u2⟩ :
      Settled (((incoming.setWriteOffset offset).write g [id]).writeCompressed g (le32 (payloadBits callbackBs)) true) ∧
      (((incoming.setWriteOffset offset).write g [id]).writeCompressed g (le32 (payloadBits callbackBs)) true).numberOfBitsUsed ≤
        ((incoming.setWriteOffset offset).write g [id]).numberOfBitsUsed +
          compressedBits (le32 (payloadBits callbackBs)) true 3 :=
    h1.writeCompressedFrom g (le32 (payloadBits callbackBs)) true 3 (by omega)
  have hpayload := payloadBits_le hc
  have h3 := (h2.writeBits g callbackBs.getData (payloadBits callbackBs).toInt false (by omega)).1
  have hall : Settled (rebuildRpc g incoming offset id callbackBs) := by
    unfold rebuildRpc
    dsimp only
    split
    · exact h3
    · exact h2
  intro bs hbs
  simp only [rebuilding, List.mem_cons, List.not_mem_nil, or_false] at hbs
  rcases hbs with rfl | rfl | rfl | rfl
  · exact hrewound.owned
  · exact h1.owned
  · exact h2.owned
  · exact hall.owned

/-! ## All of it -/

theorem payloadBytes {c : BitVec 32} (hc : c.toNat < 8 * 67108864) : ((c + 7) >>> 3).toNat = (c.toNat + 7) / 8 := by
  rw [BitVec.toNat_ushiftRight, BitVec.toNat_add, Nat.mod_eq_of_lt (by simp; omega), Nat.shiftRight_eq_div_pow]
  rfl

/-- An admitted payload below 2^26 bytes is one the format has. -/
theorem admitted_fits {g : Junk} {data : List Byte} (hn : data.length < 67108864) {cb : BitStream}
    (hcb : (parseRpc g data).callbackBs = some cb) (hsmall : (parseRpc g data).bitsData.toNat < 8 * 67108864) :
    ∃ r, decodeCount (body data) = some ((parseRpc g data).bitsData.toNat, r) ∧
      (parseRpc g data).bitsData.toNat ≤ r.length ∧
      r.length ≤ 8 * data.length := by
  have hover : ¬ Overflows data := by
    intro hwraps
    obtain ⟨c, r, hd, -, ho⟩ := hwraps
    obtain ⟨bs, bitsData, rfl, h⟩ := parseRpc_some (g := g) (by omega) hd
    rw [h.bitsData] at hsmall
    omega
  have hwf := (parseRpc_exact (g := g) (by omega) hover).1.mp (by rw [hcb]; rfl)
  obtain ⟨c, r, hd, hc⟩ := (wellFormed_iff data).mp hwf
  obtain ⟨-, hbits, -⟩ := parseRpc_accepts (g := g) (by omega) hd hc
  obtain ⟨-, w, -, -, hlen⟩ := decodeCount_some hd
  have hbody : (body data).length ≤ 8 * data.length := by simp [body]
  rw [hbits]
  exact ⟨r, hd, hc, by omega⟩

theorem callbackBs_bounded {g : Junk} {data : List Byte} (hn : data.length < 67108864) {cb : BitStream}
    (hcb : (parseRpc g data).callbackBs = some cb) (hsmall : (parseRpc g data).bitsData.toNat < 8 * 67108864)
    (hne : ∀ c r, decodeCount (body data) = some (c, r) → c ≤ r.length → (c + 7) / 8 ≠ 256) : Bounded cb := by
  rcases parseRpc_callbackBs g data hcb with ⟨-, rfl⟩ | ⟨h0, input, rfl⟩
  · exact ⟨empty_settled g, by show (0 : Int) < 8 * 67108864; decide⟩
  · obtain ⟨r, hd, hc, hr⟩ := admitted_fits hn hcb hsmall
    have hpos : (parseRpc g data).bitsData.toNat ≠ 0 := fun h => h0 (BitVec.eq_of_toNat_eq (by simpa using h))
    have hsize := hne _ r hd hc
    rw [payloadBytes hsmall]
    obtain ⟨-, hu, -⟩ := ofBuffer_place g input (n := ((parseRpc g data).bitsData.toNat + 7) / 8) (by omega) (by omega)
    exact ⟨ofBuffer_settled g input (by omega) (by omega) hsize, by omega⟩

theorem lifetimes_refused {g : Junk} (script : Script φ ω) (onReceiveRpc : List (Option φ)) (world : ω) {data : List Byte}
    (hcb : (parseRpc g data).callbackBs = none) :
    lifetimes g script onReceiveRpc world data = ⟨parsing g data, [empty g], [], (parseRpc g data).memory⟩ := by
  unfold lifetimes
  simp only [hcb]

theorem lifetimes_accepted {g : Junk} (script : Script φ ω) (onReceiveRpc : List (Option φ)) (world : ω)
    {data : List Byte} {cb : BitStream}
    (hcb : (parseRpc g data).callbackBs = some cb) :
    let p := parseRpc g data
    let d := Signal.call (script.watched g) onReceiveRpc (⟨p.id, cb⟩, world, [])
    lifetimes g script onReceiveRpc world data =
      ⟨parsing g data ++ if d.ret then rebuilding g p.incoming p.offset d.args.1.id d.args.1.bs else [],
        empty g :: cb :: d.args.2.2.map (left g), d.args.2.2, p.memory⟩ := by
  unfold lifetimes
  simp only [hcb]

theorem lifetimes_constructed (g : Junk) (script : Script φ ω) (onReceiveRpc : List (Option φ)) (world : ω)
    (data : List Byte) :
    ofBuffer g data data.length true ∈ (lifetimes g script onReceiveRpc world data).incoming := by
  rcases hcb : (parseRpc g data).callbackBs with _ | cb
  · rw [lifetimes_refused script onReceiveRpc world hcb]
    simp [parsing]
  · rw [lifetimes_accepted script onReceiveRpc world hcb]
    simp [parsing]

/-- A datagram of 256 bytes is copied to the heap and counted as 2048 bits. -/
theorem not_released (g : Junk) (script : Script φ ω) (onReceiveRpc : List (Option φ)) (world : ω) {data : List Byte}
    (hlen : data.length = 256) : ¬ Released (lifetimes g script onReceiveRpc world data) := by
  intro h
  exact (ofBuffer_owned g data (by omega)).mp (h.incoming _ (lifetimes_constructed g script onReceiveRpc world data)) hlen

theorem sizes_of_released {g : Junk} {script : Script φ ω} {onReceiveRpc : List (Option φ)} {world : ω} {data : List Byte}
    (hn : data.length < 67108864) (h : Released (lifetimes g script onReceiveRpc world data)) :
    data.length ≠ 256 ∧ ∀ c r, decodeCount (body data) = some (c, r) → c ≤ r.length → (c + 7) / 8 ≠ 256 := by
  refine ⟨fun hlen => not_released g script onReceiveRpc world hlen h, ?_⟩
  intro c r hd hc he
  obtain ⟨-, hbits, cb, -, hcb, -⟩ := parseRpc_accepts (g := g) (by omega) hd hc
  have howned := h.callbackBs cb (by rw [lifetimes_accepted script onReceiveRpc world hcb]; simp)
  rcases parseRpc_callbackBs g data hcb with ⟨h0, -⟩ | ⟨-, input, rfl⟩
  · rw [h0] at hbits
    simp at hbits
    omega
  · rw [payloadBytes (by omega), hbits, he] at howned
    exact (ofBuffer_owned g input (by omega)).mp howned rfl

/-- A datagram whose payload is admitted is not empty, and its stream is ready to be
    rebuilt. -/
theorem incoming_settled {g : Junk} {data : List Byte} (hn : data.length < 67108864) (hne : data.length ≠ 256)
    {cb : BitStream} (hcb : (parseRpc g data).callbackBs = some cb)
    (hsmall : (parseRpc g data).bitsData.toNat < 8 * 67108864) : Settled (parseRpc g data).incoming := by
  have hpos : 0 < data.length := by
    apply Nat.pos_of_ne_zero
    intro h0
    obtain ⟨r, hd, -⟩ := admitted_fits hn hcb hsmall
    rw [body_short (by omega)] at hd
    cases hd
  exact (ofBuffer_settled g data hpos (by omega) hne).reads (parseRpc_frame g data)

theorem incoming_owned {g : Junk} {script : Script φ ω} {onReceiveRpc : List (Option φ)} {world : ω} {data : List Byte}
    (hn : data.length < 67108864) (hne : data.length ≠ 256) {cb : BitStream}
    (hcb : (parseRpc g data).callbackBs = some cb) (hsmall : (parseRpc g data).bitsData.toNat < 8 * 67108864)
    (hafter : Bounded (Signal.call (script.watched g) onReceiveRpc (⟨(parseRpc g data).id, cb⟩, world, [])).args.1.bs) :
    ∀ bs ∈ (lifetimes g script onReceiveRpc world data).incoming, Owned bs := by
  rw [lifetimes_accepted script onReceiveRpc world hcb]
  intro bs hbs
  rcases List.mem_append.mp hbs with hbs | hbs
  · exact (parsing_owned g data hbs).mpr ((ofBuffer_owned g data (by omega)).mpr hne)
  · have hoffset : (parseRpc g data).offset = (8 * headerBytes data : Nat) := parseRpc_offset (by omega)
    have hheader := headerBytes_cases data
    split at hbs
    · exact rebuilding_owned g (incoming_settled hn hne hcb hsmall) hafter (by omega) (by omega) _ bs hbs
    · cases hbs

/-- Every buffer is released exactly when neither the datagram nor the payload comes to
    256 bytes. -/
theorem released_iff (g : Junk) (script : Script φ ω) (onReceiveRpc : List (Option φ)) (world : ω) (data : List Byte)
    (hn : data.length < 67108864)
    (hpayload : (parseRpc g data).callbackBs.isSome → (parseRpc g data).bitsData.toNat < 8 * 67108864)
    (hcalls : ∀ x ∈ (lifetimes g script onReceiveRpc world data).calls, x.2.Fits x.1) :
    Released (lifetimes g script onReceiveRpc world data) ↔ data.length ≠ 256 ∧
      ∀ c r, decodeCount (body data) = some (c, r) → c ≤ r.length → (c + 7) / 8 ≠ 256 := by
  refine ⟨sizes_of_released hn, ?_⟩
  intro hsizes
  obtain ⟨hne, hpay⟩ := hsizes
  rcases hcb : (parseRpc g data).callbackBs with _ | cb
  · rw [lifetimes_refused script onReceiveRpc world hcb]
    refine ⟨?_, ?_, parseRpc_memory g data⟩
    · intro bs hbs
      exact (parsing_owned g data hbs).mpr ((ofBuffer_owned g data (by omega)).mpr hne)
    · intro bs hbs
      rw [List.mem_singleton.mp hbs]
      exact (empty_settled g).owned
  · have hsmall := hpayload (by rw [hcb]; rfl)
    have hbounded := callbackBs_bounded hn hcb hsmall hpay
    rw [lifetimes_accepted script onReceiveRpc world hcb] at hcalls
    obtain ⟨hafter, howned⟩ := watched_bounded g script onReceiveRpc world hbounded hcalls
    have hincoming := incoming_owned hn hne hcb hsmall hafter
    rw [lifetimes_accepted script onReceiveRpc world hcb] at hincoming ⊢
    refine ⟨hincoming, ?_, parseRpc_memory g data⟩
    intro bs hbs
    rcases List.mem_cons.mp hbs with rfl | hbs
    · exact (empty_settled g).owned
    rcases List.mem_cons.mp hbs with rfl | hbs
    · exact hbounded.owned
    · obtain ⟨x, hx, rfl⟩ := List.mem_map.mp hbs
      exact howned x hx

/-- One byte of payload, and a callback that puts 300 bytes in its place. -/
def growing : Script Unit Unit := fun _ x =>
  ⟨[.read (.read [0]), .write .reset, .writeBits (List.replicate 300 0xAB) 2400 true, .alignWriteToByteBoundary],
    true, x.1.id, ()⟩

theorem released_growing : Released (lifetimes (fun _ _ => 0xCC) growing [none, some ()] () [20, 7, 0xF8, 0xA5]) := by
  refine (released_iff (fun _ _ => 0xCC) growing [none, some ()] () [20, 7, 0xF8, 0xA5] (by decide)
    (fun _ => by decide +kernel) (by decide +kernel)).mpr ⟨by decide, ?_⟩
  intro c r hd hc
  have hcount : decodeCount (body [20, 7, 0xF8, 0xA5]) =
    some (8, [true, false, true, false, false, true, false, true]) := by decide
  rw [hcount] at hd
  cases hd
  decide

def of256 : List Byte := [idRpc] ++ pack (encodeRpc 7 (List.replicate 251 0))

theorem leaks_at_256 :
    of256.length = 256 ∧ WellFormed of256 ∧ ¬ Released (lifetimes (fun _ _ => 0xCC) growing [] () of256) := by
  have hcount : (encodeCount 2008).length = 19 := by decide
  have hlen : of256.length = 256 := by
    unfold of256 encodeRpc
    rw [List.length_append, pack_length, List.length_append, List.length_append, bits_length, bits_length,
      List.length_replicate, hcount]
    rfl
  exact ⟨hlen, (parseRpc_encoded (g := fun _ _ => 0) [idRpc] 7 rfl (by simp)
    (by rw [List.length_replicate]; decide)).1, not_released _ _ _ _ hlen⟩

end RakHook.Rpc
