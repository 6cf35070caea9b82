/-
  RakHook.Rpc.Rebuild — the datagrams that are written: the one the hook passes on and
  the one `emul_rpc` hands to the original.

  Both writers append `encodeRpc` of an id and the bytes of a stream, one behind the
  header that is left of the received packet, the other behind ID_RPC. `WriteBits`
  assigns every byte before it ORs into it, so what was in the storage does not show.
-/

import RakHook.Rpc.Parse
import RakHook.Signal.Fold

namespace RakHook.Rpc

open Lib BitStream

variable {g : Junk} {data : List Byte}

/-- The bytes a stream has in use are `payload`, fewer than 2^26. -/
structure HasBytes (bs : BitStream) (payload : List Byte) : Prop where
  used : bs.getNumberOfBytesUsed = payload.length
  bytes : bs.getData.take payload.length = payload
  small : payload.length < 67108864

namespace HasBytes

variable {bs : BitStream} {payload : List Byte}

theorem payloadBits_eq (h : HasBytes bs payload) : payloadBits bs = BitVec.ofNat 32 (8 * payload.length) := by
  have hs := h.small
  unfold payloadBits bytesToBits
  rw [h.used, i32_of (by omega) (by omega), Int.mul_comm]
  exact BitVec.ofInt_natCast 32 (8 * payload.length)

theorem payloadBits_toInt (h : HasBytes bs payload) : (payloadBits bs).toInt = (8 * payload.length : Nat) := by
  have hs := h.small
  rw [h.payloadBits_eq, toInt_small] <;> rw [BitVec.toNat_ofNat] <;> omega

end HasBytes

theorem hasBytes_of_view {bs : BitStream} {payload : List Byte} (h : View bs (bits payload))
    (hs : payload.length < 67108864) : HasBytes bs payload := by
  have hlen : (bits payload).length = 8 * payload.length := bits_length payload
  refine ⟨?_, ?_, hs⟩
  · rw [h.bytesUsed (by omega), hlen]; congr 1; omega
  · have ht := h.take_bytes
    rw [pack_bits, hlen, show (8 * payload.length + 7) / 8 = payload.length by omega] at ht
    exact ht

/-- The bytes that are handed on with a stream. -/
def sent (bs : BitStream) : List Byte := bs.getData.take bs.getNumberOfBytesUsed.toNat

theorem sent_eq {bs : BitStream} {l : List Bool} (h : View bs l) (hl : l.length + 7 < 2147483648) :
    sent bs = pack l ∧ bs.getNumberOfBytesUsed = (sent bs).length := by
  have hs : sent bs = pack l := by
    unfold sent
    rw [h.bytesUsed hl, Int.toNat_natCast]
    exact h.take_bytes
  exact ⟨hs, by rw [hs, pack_length, h.bytesUsed hl]⟩

theorem ofBuffer_hasBytes (g : Junk) (payload : List Byte) (hs : payload.length < 67108864) :
    HasBytes (ofBuffer g payload payload.length true) payload := by
  have h := (ofBuffer_spec g payload (Nat.le_refl _) (by omega)).1.toView
  rw [List.take_length] at h
  exact hasBytes_of_view h hs

/-! ## The two writers -/

theorem writeId_spec {bs : BitStream} {l : List Bool} (h : Wf bs l) (id : Byte) (hs : l.length ≤ 48) :
    Wf (bs.write g [id]) (l ++ bits [id]) :=
  (writeBits_bytes (n := 1) g h [id] true (by simp) (by omega)).1

theorem writeCount_spec {bs : BitStream} {l : List Bool} (h : Wf bs l) (c : Nat) (hs : l.length ≤ 56) :
    Wf (bs.writeCompressed g (le32 (BitVec.ofNat 32 c)) true) (l ++ encodeCount c) :=
  (writeCompressedFrom_spec g (le32 (BitVec.ofNat 32 c)) true 3 bs l h (by simp [le32]) (by omega)).1

theorem writeRpc_spec {bs rpcBs : BitStream} {l : List Bool} {payload : List Byte} (h : Wf bs l) (id : Byte)
    (hb : HasBytes rpcBs payload) (hs : l.length ≤ 48) :
    Wf (((bs.write g [id]).writeCompressed g (le32 (payloadBits rpcBs)) true).writeBits g rpcBs.getData
      (8 * payload.length : Nat) false) (l ++ encodeRpc id payload) := by
  have hsmall := hb.small
  have h1 := writeId_spec (g := g) h id hs
  have h2 := writeCount_spec (g := g) h1 (8 * payload.length) (by simp; omega)
  have hcount := encodeCount_length (8 * payload.length)
  have hlen : payload.length ≤ rpcBs.getData.length := by
    have := congrArg List.length hb.bytes
    rw [List.length_take] at this
    omega
  have h3 := (writeBits_bytes g h2 rpcBs.getData false hlen (by simp; omega)).1
  rw [hb.bytes, List.append_assoc, List.append_assoc] at h3
  rw [hb.payloadBits_eq]
  exact h3

theorem emulRpcStream_spec {rpcBs : BitStream} {payload : List Byte} (id : Byte) (hb : HasBytes rpcBs payload) :
    Wf (emulRpcStream g id rpcBs) (bits [idRpc] ++ encodeRpc id payload) := by
  have hs := hb.small
  have h0 : Wf ((BitStream.empty g).write g [idRpc]) (bits [idRpc]) := writeId_spec (empty_wf g) idRpc (by simp)
  have hbits : bytesToBits rpcBs.getNumberOfBytesUsed = (8 * payload.length : Nat) := by
    unfold bytesToBits
    rw [hb.used, i32_of] <;> omega
  unfold emulRpcStream
  rw [hbits]
  exact writeRpc_spec h0 id hb (by simp)

/-- The rebuild keeps the header and replaces the rest. -/
theorem rebuildRpc_spec {incoming callbackBs : BitStream} {payload : List Byte} (h : Wf incoming (bits data)) (id : Byte)
    (hb : HasBytes callbackBs payload) (hh : headerBytes data ≤ data.length) :
    Wf (rebuildRpc g incoming (8 * headerBytes data : Nat) id callbackBs)
      (bits (data.take (headerBytes data)) ++ encodeRpc id payload) := by
  have hcases := headerBytes_cases data
  have h0 := h.setWriteOffset (n := 8 * headerBytes data) (by simp; omega) (by omega)
  rw [← bits_take] at h0
  have h1 := writeRpc_spec (g := g) h0 id hb (by simp; omega)
  unfold rebuildRpc
  simp only [hb.payloadBits_toInt]
  split
  · exact h1
  · -- an empty payload: nothing is left to write
    rename_i hz
    have hzero : payload.length = 0 := by
      have hs := hb.small
      have ht := congrArg BitVec.toNat (Decidable.not_not.mp hz)
      rw [hb.payloadBits_eq, BitVec.toNat_ofNat] at ht
      simp at ht
      omega
    have hdone : ∀ bs : BitStream, bs.writeBits g callbackBs.getData (8 * payload.length : Nat) false = bs := fun bs => by
      unfold writeBits
      rw [hzero, if_pos (by omega)]
    rw [hdone] at h1
    exact h1

/-! ## Parsing what was written -/

theorem headerBytes_append {hdr : List Byte} (rest : List Byte) (hne : hdr ≠ []) :
    headerBytes (hdr ++ rest) = headerBytes hdr := by
  cases hdr with
  | nil => exact absurd rfl hne
  | cons b hdr => rfl

theorem pack_encodeRpc (id : Byte) (payload : List Byte) :
    pack (encodeRpc id payload) = id :: pack (encodeCount (8 * payload.length) ++ bits payload) := pack_bits_append [id] _

/-- Behind the id are the count, the payload and less than a byte of padding. -/
theorem body_encoded {hdr : List Byte} (id : Byte) (payload : List Byte) (hh : headerBytes hdr = hdr.length)
    (hne : hdr ≠ []) :
    ∃ n, body (hdr ++ pack (encodeRpc id payload)) =
      encodeCount (8 * payload.length) ++ (bits payload ++ List.replicate n false) := by
  have hdrop : (bits (hdr ++ [id])).length = 8 * hdr.length + 8 := by simp; omega
  refine ⟨8 * (((encodeCount (8 * payload.length) ++ bits payload).length + 7) / 8) -
    (encodeCount (8 * payload.length) ++ bits payload).length, ?_⟩
  unfold body
  rw [headerBytes_append _ hne, hh, pack_encodeRpc, List.append_cons, bits_append,
    List.drop_append_of_le_length (by omega),
    List.drop_of_length_le (by omega), List.nil_append, bits_pack_append, List.append_assoc]

theorem parseRpc_encoded (hdr : List Byte) (id : Byte) {payload : List Byte} (hh : headerBytes hdr = hdr.length)
    (hne : hdr ≠ []) (hs : payload.length < 67108864) :
    WellFormed (hdr ++ pack (encodeRpc id payload)) ∧ (parseRpc g (hdr ++ pack (encodeRpc id payload))).id = id ∧
      (parseRpc g (hdr ++ pack (encodeRpc id payload))).bitsData.toNat = 8 * payload.length ∧
      ∃ cb, (parseRpc g (hdr ++ pack (encodeRpc id payload))).callbackBs = some cb ∧ View cb (bits payload) := by
  have hcases := headerBytes_cases hdr
  have hcount := encodeCount_length (8 * payload.length)
  have hn : (hdr ++ pack (encodeRpc id payload)).length < 268435456 := by
    simp [encodeRpc]; omega
  obtain ⟨n, hbody⟩ := body_encoded id payload hh hne
  have hd := decodeCount_encodeCount (c := 8 * payload.length) (by omega) (bits payload ++ List.replicate n false)
  rw [← hbody] at hd
  have hfit : 8 * payload.length ≤ (bits payload ++ List.replicate n false).length := by simp
  obtain ⟨hid, hbits, cb, input, hcb, hlen, htake, hw, -⟩ := parseRpc_accepts (g := g) hn hd hfit
  have hat : (hdr ++ pack (encodeRpc id payload)).getD (headerBytes (hdr ++ pack (encodeRpc id payload))) 0 = id := by
    rw [headerBytes_append _ hne, hh, pack_encodeRpc]
    simp [List.getD]
  have hin : bits input = bits payload := by
    have hl : (bits payload).length = 8 * payload.length := bits_length payload
    rw [List.take_of_length_le (by simp; omega), List.take_append_of_le_length (by omega),
      List.take_of_length_le (by omega)] at htake
    exact htake
  rw [hin] at hw
  exact ⟨(wellFormed_iff _).mpr ⟨_, _, hd, hfit⟩, hid.trans hat, hbits, cb, hcb, hw.toView⟩

/-! ## What `emul_rpc` builds -/

/-- The receiver gets back the id and the bytes, from the shortest datagram there is. -/
theorem emul_parses (g g' : Junk) (id : Byte) {payload : List Byte} {rpcBs : BitStream} (hb : HasBytes rpcBs payload) :
    let bs := emulRpcStream g id rpcBs
    bs.getNumberOfBytesUsed = (sent bs).length ∧
      (bits (sent bs)).take bs.numberOfBitsUsed.toNat = bits [idRpc] ++ encodeRpc id payload ∧
      (∀ n, (bits [idRpc] ++ encodeRpc id payload).length ≤ 8 * n ↔ (sent bs).length ≤ n) ∧
      WellFormed (sent bs) ∧ (parseRpc g' (sent bs)).id = id ∧
      ∃ cb, (parseRpc g' (sent bs)).callbackBs = some cb ∧ cb.numberOfBitsUsed = 8 * payload.length ∧
        cb.getData.take payload.length = payload := by
  intro bs
  have hs := hb.small
  have hcount := encodeCount_length (8 * payload.length)
  have hw := emulRpcStream_spec (g := g) id hb
  have hl : (bits [idRpc] ++ encodeRpc id payload).length < 536870967 := by simp [encodeRpc]; omega
  obtain ⟨hsent, hlen⟩ := sent_eq hw.toView (by omega)
  have hbytes : (sent bs).length = ((bits [idRpc] ++ encodeRpc id payload).length + 7) / 8 := by
    rw [hsent, pack_length]
  rw [pack_bits_append] at hsent
  obtain ⟨hwf, hid, -, cb, hcb, hview⟩ := parseRpc_encoded (g := g') [idRpc] id rfl (by simp) hs
  rw [← hsent] at hwf hid hcb
  refine ⟨hlen, ?_, fun n => by rw [hbytes]; omega, hwf, hid, cb, hcb, by rw [hview.used, bits_length]; omega,
    (hasBytes_of_view hview hs).bytes⟩
  rw [show sent bs = pack (bits [idRpc] ++ encodeRpc id payload) by rw [pack_bits_append]; exact hsent,
    show bs.numberOfBitsUsed = (bits [idRpc] ++ encodeRpc id payload).length from hw.used, Int.toNat_natCast,
    bits_pack_append, List.take_left]

theorem emul_parses_three :
    let bs := emulRpcStream (fun _ _ => 0xCC) 7 (ofBuffer (fun _ _ => 0xCC) [1, 2, 3] 3 true)
    bs.getNumberOfBytesUsed = 7 ∧ sent bs = [20, 7, 0xE1, 0x80, 0x10, 0x20, 0x30] ∧
      (parseRpc (fun _ _ => 0) (sent bs)).id = 7 := by
  intro bs
  have h := emul_parses (fun _ _ => 0xCC) (fun _ _ => 0) 7 (ofBuffer_hasBytes (fun _ _ => 0xCC) [1, 2, 3] (by decide))
  exact ⟨by decide +kernel, by decide +kernel, h.2.2.2.2.1⟩

/-! ## What the hook passes on -/

theorem forwarded_eq {φ ω : Type} {invoke : φ → RpcArgs × ω → Bool × RpcArgs × ω} (orig : List Byte → Int → ω → Bool × ω)
    {onReceiveRpc fs : List (Option φ)} {world world' : ω} {cb : BitStream} {args : RpcArgs} {payload : List Byte}
    (hn : data.length < 268435456) (hacc : (parseRpc g data).callbackBs = some cb)
    (hrun : Signal.call invoke onReceiveRpc (⟨(parseRpc g data).id, cb⟩, world) = ⟨true, (args, world'), fs⟩)
    (hb : HasBytes args.bs payload) :
    ∃ buf len, (handleRpcPacket g invoke orig onReceiveRpc world data).forwarded = some (buf, len) ∧
      buf.take len.toNat = data.take (headerBytes data) ++ pack (encodeRpc args.id payload) ∧
      len = headerBytes data + (pack (encodeRpc args.id payload)).length ∧ headerBytes data < data.length := by
  have hlong : headerBytes data < data.length := by
    apply Nat.lt_of_not_le
    intro hs
    rw [(parseRpc_none hn (body_short hs)).1] at hacc
    cases hacc
  have hcases := headerBytes_cases data
  have hs := hb.small
  have hcount := encodeCount_length (8 * payload.length)
  have hw := rebuildRpc_spec (g := g) (parseRpc_wf (g := g) hn) args.id hb (Nat.le_of_lt hlong)
  rw [← parseRpc_offset (g := g) hn] at hw
  obtain ⟨hsent, hlen⟩ := sent_eq hw.toView (by simp [encodeRpc]; omega)
  rw [pack_bits_append] at hsent
  refine ⟨_, _, ?_, hsent, ?_, hlong⟩
  · unfold handleRpcPacket
    simp only [hacc, hrun, if_true]
  · refine hlen.trans ?_
    rw [hsent, List.length_append, List.length_take]
    omega

/-- What is passed on has the header received and parses to what the callbacks left. -/
theorem forwarded_parses {φ ω : Type} (g' : Junk) {invoke : φ → RpcArgs × ω → Bool × RpcArgs × ω}
    (orig : List Byte → Int → ω → Bool × ω)
    {onReceiveRpc fs : List (Option φ)} {world world' : ω} {cb : BitStream} {args : RpcArgs} {payload : List Byte}
    (hn : data.length < 67108864) (hacc : (parseRpc g data).callbackBs = some cb)
    (hrun : Signal.call invoke onReceiveRpc (⟨(parseRpc g data).id, cb⟩, world) = ⟨true, (args, world'), fs⟩)
    (hb : HasBytes args.bs payload) :
    ∃ buf len cb', (handleRpcPacket g invoke orig onReceiveRpc world data).forwarded = some (buf, len) ∧
      let out := buf.take len.toNat
      len = out.length ∧ headerBytes out = headerBytes data ∧
        out.take (headerBytes data) = data.take (headerBytes data) ∧ (parseRpc g' out).id = args.id ∧
        (parseRpc g' out).bitsData.toNat = 8 * payload.length ∧ (parseRpc g' out).callbackBs = some cb' ∧
        View cb' (bits payload) := by
  obtain ⟨buf, len, hfwd, hbytes, hlen, hlong⟩ := forwarded_eq orig (by omega) hacc hrun hb
  have hcases := headerBytes_cases data
  have hdr : (data.take (headerBytes data)).length = headerBytes data := by
    rw [List.length_take]
    omega
  have hne : data.take (headerBytes data) ≠ [] := List.ne_nil_of_length_pos (by omega)
  have hhdr : headerBytes (data.take (headerBytes data)) = headerBytes data := by
    have happ := headerBytes_append (data.drop (headerBytes data)) hne
    rw [List.take_append_drop] at happ
    exact happ.symm
  obtain ⟨-, hid, hcount, cb', hcb', hview⟩ := parseRpc_encoded (g := g') _ args.id (hhdr.trans hdr.symm) hne hb.small
  rw [← hbytes] at hid hcount hcb'
  refine ⟨buf, len, cb', hfwd, ?_, ?_, ?_, hid, hcount, hcb', hview⟩
  · rw [hbytes, hlen, List.length_append, hdr]
    omega
  · rw [hbytes, headerBytes_append _ hne, hhdr]
  · rw [hbytes, List.take_append_of_le_length (by omega), List.take_of_length_le (by omega)]

/-- The rebuilt datagram is the received header and what `emul_rpc` writes behind ID_RPC
    for the id and the bytes the callbacks left; nothing of the old packet is behind it. -/
theorem rebuild_agrees_with_emul {φ ω : Type} (g g' : Junk) (invoke : φ → RpcArgs × ω → Bool × RpcArgs × ω)
    (orig : List Byte → Int → ω → Bool × ω) {onReceiveRpc fs : List (Option φ)} {world world' : ω} {data : List Byte}
    {cb : BitStream} {args : RpcArgs} {payload : List Byte} {rpcBs : BitStream} (hn : data.length < 67108864)
    (hacc : (parseRpc g data).callbackBs = some cb)
    (hrun : Signal.call invoke onReceiveRpc (⟨(parseRpc g data).id, cb⟩, world) = ⟨true, (args, world'), fs⟩)
    (hb : HasBytes args.bs payload) (he : HasBytes rpcBs payload) :
    ∃ buf len, (handleRpcPacket g invoke orig onReceiveRpc world data).forwarded = some (buf, len) ∧
      buf.take len.toNat = data.take (headerBytes data) ++ (sent (emulRpcStream g' args.id rpcBs)).drop 1 ∧
      len = headerBytes data + ((emulRpcStream g' args.id rpcBs).getNumberOfBytesUsed - 1) ∧
      ∀ i, 8 * headerBytes data + (encodeRpc args.id payload).length ≤ i → bit (buf.take len.toNat) i = false := by
  have hs := hb.small
  have hcount := encodeCount_length (8 * payload.length)
  have hw := emulRpcStream_spec (g := g') args.id he
  obtain ⟨hsent, hlen⟩ := sent_eq hw.toView (by simp [encodeRpc]; omega)
  rw [pack_bits_append] at hsent
  obtain ⟨buf, len, hfwd, hbytes, hlen', hlong⟩ := forwarded_eq orig (by omega) hacc hrun hb
  have hemul : (emulRpcStream g' args.id rpcBs).getNumberOfBytesUsed = 1 + (pack (encodeRpc args.id payload)).length := by
    rw [hlen, hsent, List.length_append]; rfl
  refine ⟨buf, len, hfwd, by rw [hbytes, hsent]; rfl, by rw [hlen', hemul]; omega, ?_⟩
  intro i hi
  have hdr : (data.take (headerBytes data)).length = headerBytes data := by simp; omega
  rw [hbytes, bit_append, hdr, if_neg (by omega), bit_pack, getD_ge (by omega)]

theorem rebuild_agrees_three :
    let orig := fun (_ : List Byte) (_ : Int) (world : Unit) => (true, world)
    let invoke := fun (_ : Unit) (a : RpcArgs × Unit) =>
      (true, (⟨9, ofBuffer (fun _ _ => 0xCC) [1, 2, 3] 3 true⟩ : RpcArgs), a.2)
    ∃ buf len, (handleRpcPacket (fun _ _ => 0xCC) invoke orig [some ()] () [20, 7, 0xF8, 0xA5]).forwarded =
      some (buf, len) ∧
      buf.take len.toNat = [20] ++ (sent (emulRpcStream (fun _ _ => 0) 9
        (ofBuffer (fun _ _ => 0) [1, 2, 3] 3 true))).drop 1 := by
  intro orig invoke
  have hacc : (parseRpc (fun _ _ => 0xCC) [20, 7, 0xF8, 0xA5]).callbackBs.isSome := by decide +kernel
  have hrun : Signal.call invoke [some ()]
      (⟨(parseRpc (fun _ _ => 0xCC) [20, 7, 0xF8, 0xA5]).id,
        (parseRpc (fun _ _ => 0xCC) [20, 7, 0xF8, 0xA5]).callbackBs.get hacc⟩, ()) =
      ⟨true, (⟨9, ofBuffer (fun _ _ => 0xCC) [1, 2, 3] 3 true⟩, ()), [some ()]⟩ := rfl
  obtain ⟨buf, len, hfwd, hbytes, -⟩ := rebuild_agrees_with_emul (fun _ _ => 0xCC) (fun _ _ => 0) invoke orig (by decide)
    (Option.some_get hacc).symm hrun (ofBuffer_hasBytes (fun _ _ => 0xCC) [1, 2, 3] (by decide))
    (ofBuffer_hasBytes (fun _ _ => 0) [1, 2, 3] (by decide))
  exact ⟨buf, len, hfwd, hbytes⟩

/-! ## Callbacks that change nothing -/

/-- `b` is `a` with the same id and the same bytes in use; where its stream is read does
    not matter. -/
structure SameRpc (a b : RpcArgs) : Prop where
  id : b.id = a.id
  used : b.bs.getNumberOfBytesUsed = a.bs.getNumberOfBytesUsed
  bytes : b.bs.getData = a.bs.getData

/-- Each callback in turn, in the world the ones before it left, lets `a` pass and leaves it as it
    is, whatever else it does. -/
def LetsPass {φ ω : Type} (invoke : φ → RpcArgs × ω → Bool × RpcArgs × ω) (fs : List (Option φ)) (a : RpcArgs) (world : ω) :
    Prop :=
  Along (fun x f => (invoke f x).2) (fun x f => (invoke f x).1 = true ∧ SameRpc a (invoke f x).2.1) (Signal.registered fs)
    (a, world)

/-- What is passed on parses, with any junk `g'`, to the header and the id received, to
    `count c` payload bits where `c` were received, and to the same first `c` of them. -/
def Forwards {φ ω : Type} (g g' : Junk) (count : Nat → Nat) (invoke : φ → RpcArgs × ω → Bool × RpcArgs × ω)
    (orig : List Byte → Int → ω → Bool × ω) (onReceiveRpc : List (Option φ)) (world : ω) (data : List Byte) : Prop :=
  ∃ buf len cb cb', (handleRpcPacket g invoke orig onReceiveRpc world data).forwarded = some (buf, len) ∧
    let out := buf.take len.toNat
    let c := (parseRpc g data).bitsData.toNat
    len = out.length ∧ headerBytes out = headerBytes data ∧
      out.take (headerBytes data) = data.take (headerBytes data) ∧ (parseRpc g' out).id = (parseRpc g data).id ∧
      (parseRpc g' out).bitsData.toNat = count c ∧ (parseRpc g data).callbackBs = some cb ∧
      (parseRpc g' out).callbackBs = some cb' ∧ (bits cb'.getData).take c = (bits cb.getData).take c

theorem call_letsPass {φ ω : Type} {invoke : φ → RpcArgs × ω → Bool × RpcArgs × ω} {fs : List (Option φ)} {a : RpcArgs}
    {world : ω} (h : LetsPass invoke fs a world) :
    (Signal.call invoke fs (a, world)).ret = true ∧ SameRpc a (Signal.call invoke fs (a, world)).args.1 :=
  Signal.call_passes (P := fun x : RpcArgs × ω => SameRpc a x.1) fs (SameRpc.mk rfl rfl rfl) h

/-- The hook is transparent up to whole bytes: the callback stream counts bytes, so the
    payload goes out with its last byte filled up. -/
theorem forwards_whole_bytes {φ ω : Type} (g g' : Junk) (invoke : φ → RpcArgs × ω → Bool × RpcArgs × ω)
    (orig : List Byte → Int → ω → Bool × ω) (onReceiveRpc : List (Option φ)) (world : ω) {data : List Byte}
    (hn : data.length < 67108864) (hwf : WellFormed data)
    (hpass : ∀ cb, (parseRpc g data).callbackBs = some cb → LetsPass invoke onReceiveRpc ⟨(parseRpc g data).id, cb⟩ world) :
    Forwards g g' (fun c => 8 * ((c + 7) / 8)) invoke orig onReceiveRpc world data := by
  obtain ⟨c, r, hd, hc⟩ := (wellFormed_iff data).mp hwf
  have hr : r.length ≤ 8 * data.length := by
    obtain ⟨-, w, -, -, hlen⟩ := decodeCount_some hd
    have hbody : (body data).length ≤ 8 * data.length := by simp [body]
    omega
  obtain ⟨hid, hbits, cb, input, hcb, hlen, htake, hw, -⟩ := parseRpc_accepts (g := g) (by omega) hd hc
  obtain ⟨hret, hsame⟩ := call_letsPass (hpass cb hcb)
  have hin := hasBytes_of_view hw.toView (by omega)
  obtain ⟨d, hrun⟩ : ∃ d, Signal.call invoke onReceiveRpc (⟨(parseRpc g data).id, cb⟩, world) = d := ⟨_, rfl⟩
  rw [hrun] at hret hsame
  obtain ⟨ret, ⟨args, world'⟩, fs⟩ := d
  subst hret
  have hb : HasBytes args.bs input := ⟨hsame.used.trans hin.used, by rw [hsame.bytes]; exact hin.bytes, hin.small⟩
  obtain ⟨buf, len, cb', hfwd, hlen', hhdr, hkeep, hid', hcount, hcb', hview⟩ := forwarded_parses g' orig hn hcb hrun hb
  refine ⟨buf, len, cb, cb', hfwd, hlen', hhdr, hkeep, hid'.trans hsame.id, by rw [hcount, hbits, hlen], hcb, hcb', ?_⟩
  have hbuf : ∀ {bs : BitStream}, View bs (bits input) → (bits bs.getData).take c = (bits input).take c := by
    intro bs hv
    have hbytes := (hasBytes_of_view hv hb.small).bytes
    rw [← hbytes, bits_take, List.take_take, Nat.min_eq_left (by omega)]
  rw [hbits, hbuf hview, hbuf hw.toView]

/-- One byte of payload, one callback, which only counts. -/
theorem forwards_one_byte :
    Forwards (fun _ _ => 0xCC) (fun _ _ => 0) (fun c => 8 * ((c + 7) / 8)) (fun (_ : Unit) a => (true, (a.1, a.2 + 1)))
      (fun _ _ world => (true, world)) [none, some ()] 0 [20, 7, 0xF8, 0xA5] :=
  forwards_whole_bytes _ _ _ _ _ _ (by decide)
    ((wellFormed_iff _).mpr ⟨8, [true, false, true, false, false, true, false, true], by decide, by decide⟩)
    fun _ _ => ⟨⟨rfl, rfl, rfl, rfl⟩, trivial⟩

/-- Four payload bits arrive, eight go out. -/
theorem forwards_rounds_up : WellFormed [20, 7, 0xF4, 0xA0] ∧
    ¬ Forwards (fun _ _ => 0) (fun _ _ => 0) (fun c => c) (fun (_ : Unit) a => (true, a)) (fun _ _ world => (true, world)) [] ()
      [20, 7, 0xF4, 0xA0] := by
  refine ⟨(wellFormed_iff _).mpr ⟨4, [true, false, true, false, false, false, false, false], by decide, by decide⟩, ?_⟩
  intro hforwards
  obtain ⟨buf, len, cb, cb', hfwd, -, -, -, -, hcount, -⟩ := hforwards
  have hout : (handleRpcPacket (fun _ _ => 0) (fun (_ : Unit) a => (true, a)) (fun _ _ world => (true, world)) [] ()
      [20, 7, 0xF4, 0xA0]).forwarded.map (fun x => x.1.take x.2.toNat) = some [20, 7, 0xF8, 0xA0] := by decide +kernel
  rw [hfwd] at hout
  rw [show buf.take len.toNat = [20, 7, 0xF8, 0xA0] from Option.some.inj hout] at hcount
  revert hcount
  decide +kernel

end RakHook.Rpc
