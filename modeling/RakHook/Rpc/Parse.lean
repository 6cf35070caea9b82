/-
  RakHook.Rpc.Parse — what `handle_rpc_packet` makes of a datagram.

  The parse is followed step by step against `decodeCount` of the bits behind the id. One
  step does not agree with the format: `ReadBits` adds the count to the read offset as an
  `int`, so a count just below 2^31 wraps the sum below zero, passes the check and is
  copied past the end of both buffers. `Overflows` is that case; in every other one the
  parse is exact and in bounds.
-/

import RakHook.BitStream.Construct
import RakHook.Rpc.Format

namespace RakHook.Rpc

open Lib BitStream

variable {g : Junk} {data : List Byte}

/-- The bits before the payload and the count together leave the `int` range, while the
    count itself does not. -/
def Overflows (data : List Byte) : Prop :=
  ∃ c r, decodeCount (body data) = some (c, r) ∧ c < 2147483648 ∧ 2147483648 ≤ 8 * data.length - r.length + c

/-! ## Up to the count -/

theorem openRpc_spec (hn : data.length < 268435456) :
    Wf (openRpc g data) (bits data) ∧ (openRpc g data).readOffset = (8 * headerBytes data : Nat) ∧
      ∀ a ∈ (openRpc g data).trace, a.Within data.length := by
  obtain ⟨hw, hro, ht⟩ := ofBuffer_spec g data (Nat.le_refl data.length) hn
  rw [List.take_length] at hw
  have hin : ∀ a ∈ (ofBuffer g data data.length true).trace, a.Within data.length := by
    intro a ha
    rw [ht] at ha
    split at ha
    · simp only [List.mem_cons, List.not_mem_nil, or_false] at ha
      rcases ha with rfl | rfl <;> simp [Access.Within]
    · cases ha
  unfold openRpc headerBytes
  have h1 : i32 ((ofBuffer g data data.length true).readOffset + 8) = 8 := by rw [hro]; rfl
  split
  · refine ⟨hw.reads (P := fun _ => True) (.seek _ _), ?_, hin⟩
    simp only [ignoreBits, h1]
    rfl
  · refine ⟨hw.reads (P := fun _ => True) (.seek _ _), ?_, hin⟩
    simp only [ignoreBits, h1]
    rfl

/-- `Read(id)` either gets the byte behind the header or stays where it is. -/
theorem readId_spec (hn : data.length < 268435456) :
    ∃ ok bs id, (openRpc g data).read [0] = (ok, bs, id) ∧ Reads (Access.Within data.length) (openRpc g data) bs ∧
      bs.readOffset = (if headerBytes data < data.length then 8 * headerBytes data + 8 else 8 * headerBytes data : Nat) ∧
      (headerBytes data < data.length → id = [data.getD (headerBytes data) 0]) := by
  obtain ⟨hw, hro, -⟩ := openRpc_spec (g := g) hn
  have hl : (bits data).length = 8 * data.length := bits_length data
  have height : (8 * ([0] : List Byte).length : Int) = (8 : Nat) := rfl
  have hh := headerBytes_cases data
  unfold BitStream.read
  rw [height]
  by_cases h : headerBytes data < data.length
  · obtain ⟨bs, heq, hr, ho⟩ := readBits_ok (k := 8) (n := data.length) hw.toView [0] true hro (by omega) (by omega)
      (Nat.le_of_eq hl) (by omega) (by simp)
    refine ⟨true, bs, _, heq, hr, by rw [if_pos h]; exact ho, ?_⟩
    intro _
    rw [chunks_eq_pack hw.toView (by omega) (by omega)]
    rw [bits_byte data h, pack_bits]
    rfl
  · refine ⟨false, _, _, readBits_short hw.toView [0] true hro (by omega) (by omega), .refl _,
      by rw [if_neg h]; exact hro, fun h' => absurd h' h⟩

/-- The parse up to the count: where it stands, and that it decodes what the format says. -/
structure Counted (data : List Byte) (bs0 : BitStream) (id : List Byte) (ok : Bool) (bs : BitStream)
    (out : List Byte) : Prop where
  reads : Reads (Access.Within data.length) bs0 bs
  id : headerBytes data < data.length → id = [data.getD (headerBytes data) 0]
  rejects : decodeCount (body data) = none → ok = false
  accepts : ∀ c r, decodeCount (body data) = some (c, r) →
    ok = true ∧ bs.readOffset = (8 * data.length - r.length : Nat) ∧ (ofLe32 out).toNat = c

theorem readCount_spec (hn : data.length < 268435456) :
    ∃ ok1 bs1 id ok bs out, (openRpc g data).read [0] = (ok1, bs1, id) ∧
      bs1.readCompressed [0, 0, 0, 0] true = (ok, bs, out) ∧ Counted data (openRpc g data) id ok bs out := by
  obtain ⟨ok1, bs1, id, heq, hr, ho, hid⟩ := readId_spec (g := g) hn
  have hw := (openRpc_spec (g := g) hn).1.toView.reads hr
  have hl : (bits data).length = 8 * data.length := bits_length data
  have hh := headerBytes_cases data
  obtain ⟨hr', hd⟩ := readCompressedFrom_spec true (Nat.le_of_eq hl) 3 bs1 [0, 0, 0, 0] _ hw ho (by split <;> omega)
    (by decide)
  have hbody : (bits data).drop (if headerBytes data < data.length then 8 * headerBytes data + 8 else 8 * headerBytes data) =
      body data := by
    unfold body
    split
    · rfl
    · rw [List.drop_of_length_le (by omega), List.drop_of_length_le (by omega)]
  rw [hbody] at hd
  rcases hres : bs1.readCompressed [0, 0, 0, 0] true with ⟨ok, bs, out⟩
  rw [show readCompressedFrom true 3 bs1 [0, 0, 0, 0] = (ok, bs, out) from hres] at hr' hd
  refine ⟨ok1, bs1, id, ok, bs, out, heq, hres, hr.trans hr', hid, ?_, ?_⟩
  · intro hnone
    have hdec : decodeFrom 0 0 3 (body data) = none := Option.map_eq_none_iff.mp hnone
    unfold Decoded at hd
    rw [show byteMatch true = 0 from rfl, show halfByteMatch true = 0 from rfl, hdec] at hd
    exact hd
  · intro c r hsome
    obtain ⟨⟨b, r'⟩, hdec, he⟩ := Option.map_eq_some_iff.mp hsome
    cases he
    unfold Decoded at hd
    rw [show byteMatch true = 0 from rfl, show halfByteMatch true = 0 from rfl, hdec] at hd
    obtain ⟨h1, h2, h3⟩ := hd
    exact ⟨h1, by rw [← hl]; exact h2, by rw [show out = b from h3.trans (List.append_nil b)]⟩

/-! ## The payload -/

/-- The parse stands behind the count; `r` is what is left. -/
structure Unread (data : List Byte) (bs : BitStream) (r : List Bool) : Prop where
  wf : Wf bs (bits data)
  small : data.length < 268435456
  rest : (bits data).drop (8 * data.length - r.length) = r
  le : r.length ≤ 8 * data.length
  readOffset : bs.readOffset = (8 * data.length - r.length : Nat)

namespace Unread

variable {bs : BitStream} {r : List Bool}

theorem unreadBits (h : Unread data bs r) : bs.getNumberOfUnreadBits = r.length := by
  have hle := h.le
  have hn := h.small
  unfold getNumberOfUnreadBits
  rw [h.wf.used, h.readOffset, bits_length, i32_of] <;> omega

theorem inputSize (h : Unread data bs r) : (u32 (bitsToBytes bs.getNumberOfUnreadBits)).toNat = (r.length + 7) / 8 := by
  have hle := h.le
  have hn := h.small
  rw [h.unreadBits]
  unfold bitsToBytes
  rw [i32_of (by omega) (by omega), u32_of] <;> omega

theorem payload_ok (h : Unread data bs r) {c : BitVec 32} (h0 : c ≠ 0) (hc : c.toNat ≤ r.length) :
    ∃ cb input, (readPayload g bs c).2.1 = some cb ∧ Reads (Access.Within data.length) bs (readPayload g bs c).1 ∧
      input.length = (c.toNat + 7) / 8 ∧ (bits input).take c.toNat = r.take c.toNat ∧ Wf cb (bits input) := by
  have hle := h.le
  have hn := h.small
  have hl : (bits data).length = 8 * data.length := bits_length data
  have hpos : 0 < c.toNat := by
    apply Nat.pos_of_ne_zero
    intro hz
    exact h0 (BitVec.eq_of_toNat_eq (by simpa using hz))
  have hint := toInt_small (c := c) (by omega)
  have hsize : ((c + 7) >>> 3).toNat = (c.toNat + 7) / 8 := by
    rw [BitVec.toNat_ushiftRight, BitVec.toNat_add, Nat.mod_eq_of_lt (by simp; omega), Nat.shiftRight_eq_div_pow]
    rfl
  obtain ⟨bs', heq, hr, -⟩ := readBits_ok h.wf.toView (malloc g ((r.length + 7) / 8)) false h.readOffset hpos
    (by omega) (Nat.le_of_eq hl) (by omega) (by simp; omega)
  let input := chunks bs.bytes false (8 * data.length - r.length) c.toNat
  have hin : input.length = (c.toNat + 7) / 8 := chunks_length ..
  have hcb := (ofBuffer_spec g (input ++ (malloc g ((r.length + 7) / 8)).drop ((c.toNat + 7) / 8))
    (n := (c.toNat + 7) / 8)
    (by rw [List.length_append]; omega) (by omega)).1
  rw [List.take_append_of_le_length (by omega), List.take_of_length_le (by omega)] at hcb
  refine ⟨_, input, ?_, ?_, hin, ?_, hcb⟩
  · unfold readPayload
    simp only [if_neg h0, h.inputSize, hint, heq, hsize]
    rfl
  · unfold readPayload
    simp only [if_neg h0, h.inputSize, hint, heq]
    exact hr
  · apply list_ext_getD
    · simp only [List.length_take, bits_length]; omega
    · intro i hi
      simp only [List.length_take, bits_length] at hi
      have hrest : r.getD i false = (bits data).getD (8 * data.length - r.length + i) false := by rw [← getD_drop, h.rest]
      rw [getD_take, if_pos (by omega), getD_take, if_pos (by omega), bits_getD, bit_chunks _ _ _ (by omega), hrest,
        h.wf.bit_eq (by omega)]

theorem payload_short (h : Unread data bs r) {c : BitVec 32} (hc : r.length < c.toNat)
    (ho : 8 * data.length - r.length + c.toNat < 2147483648) :
    (readPayload g bs c).1 = bs ∧ (readPayload g bs c).2.1 = none := by
  have hle := h.le
  have h0 : c ≠ 0 := by rintro rfl; simp at hc
  have heq := readBits_short (k := c.toNat) h.wf.toView (malloc g ((r.length + 7) / 8)) false h.readOffset
    (by rw [bits_length]; omega) ho
  unfold readPayload
  simp only [if_neg h0, h.inputSize, toInt_small (c := c) (by omega), heq, and_self]

theorem payload_negative (bs : BitStream) {c : BitVec 32} (hc : 2147483648 ≤ c.toNat) :
    (readPayload g bs c).1 = bs ∧ (readPayload g bs c).2.1 = none := by
  have h0 : c ≠ 0 := by rintro rfl; simp at hc
  have hneg := toInt_neg hc
  unfold readPayload readBits
  simp only [if_neg h0, if_pos (show c.toInt ≤ 0 by omega), and_self]

/-- Where the sum wraps, `input` is cleared past its end. -/
theorem payload_overflows (h : Unread data bs r) {c : BitVec 32} (hc : c.toNat < 2147483648)
    (ho : 2147483648 ≤ 8 * data.length - r.length + c.toNat) :
    ∃ a ∈ (readPayload g bs c).1.trace, ¬ a.Within data.length := by
  have hle := h.le
  have hn := h.small
  have h0 : c ≠ 0 := by rintro rfl; simp at ho; omega
  have hint := toInt_small hc
  obtain ⟨size, hsize, hbig⟩ : ∃ size : Int, u32 (bitsToBytes c.toInt) = size ∧ ((r.length + 7) / 8 : Nat) < size := by
    refine ⟨_, rfl, ?_⟩
    unfold bitsToBytes
    rw [hint]
    by_cases hw : c.toNat + 7 < 2147483648
    · rw [i32_of (by omega) (by omega), u32_of] <;> omega
    · rw [i32_over (by omega) (by omega)]
      unfold u32; omega
  have hwrap : i32 (bs.readOffset + c.toInt) = bs.readOffset + c.toInt - 4294967296 := by
    rw [h.readOffset, hint, i32_over] <;> omega
  let t := bs.touch ⟨.output, 0, size, ((r.length + 7) / 8 : Nat)⟩
  have hframe := readBitsLoop_frame false (t.readOffset % 8).toNat c.toInt.toNat 0 c.toInt t
    (clear (malloc g ((r.length + 7) / 8)) size)
  refine ⟨⟨.output, 0, size, ((r.length + 7) / 8 : Nat)⟩, ?_, ?_⟩
  · unfold readPayload readBits
    simp only [if_neg h0, h.inputSize, if_neg (show ¬ c.toInt ≤ 0 by rw [hint]; omega), hwrap,
      if_neg (show ¬ bs.numberOfBitsUsed < bs.readOffset + c.toInt - 4294967296 by
        rw [h.wf.used, h.readOffset, bits_length]; omega), hsize, malloc_length]
    exact hframe.accesses.mem (by simp [t, touch])
  · intro hwithin
    have := hwithin.2
    simp at this
    omega

end Unread

theorem readPayload_frame (g : Junk) (incoming : BitStream) (bitsData : BitVec 32) :
    Reads (fun _ => True) incoming (readPayload g incoming bitsData).1 := by
  unfold readPayload
  split
  · exact .refl incoming
  · dsimp only
    have hr := readBits_frame incoming
      (malloc g (u32 (bitsToBytes incoming.getNumberOfUnreadBits)).toNat) bitsData.toInt false
    split <;> (rename_i heq; rw [heq] at hr; exact hr)

theorem readPayload_callbackBs (g : Junk) (incoming : BitStream) (bitsData : BitVec 32) {cb : BitStream}
    (h : (readPayload g incoming bitsData).2.1 = some cb) : bitsData = 0 ∧ cb = empty g ∨
      bitsData ≠ 0 ∧ ∃ input, cb = ofBuffer g input ((bitsData + 7) >>> 3).toNat true := by
  unfold readPayload at h
  split at h
  · rename_i h0
    exact .inl ⟨h0, (Option.some.inj h).symm⟩
  · rename_i h0
    dsimp only at h
    split at h
    · cases h
    · exact .inr ⟨h0, _, (Option.some.inj h).symm⟩

/-! ## The whole parse -/

theorem within_of_reads {bs bs' : BitStream} {n : Nat} (hr : Reads (Access.Within n) bs bs')
    (h : ∀ a ∈ bs.trace, a.Within n) : ∀ a ∈ bs'.trace, a.Within n := by
  obtain ⟨t, ht, hP⟩ := hr.accesses
  intro a ha
  rw [ht] at ha
  rcases List.mem_append.mp ha with ha | ha
  · exact h a ha
  · exact hP a ha

theorem parseRpc_offset (hn : data.length < 268435456) : (parseRpc g data).offset = (8 * headerBytes data : Nat) := by
  have hro := (openRpc_spec (g := g) hn).2.1
  unfold parseRpc
  dsimp only
  split <;> exact hro

theorem parseRpc_wf (hn : data.length < 268435456) : Wf (parseRpc g data).incoming (bits data) := by
  obtain ⟨ok1, bs1, id, ok, bs, out, hid, hcount, h⟩ := readCount_spec (g := g) hn
  have hw := (openRpc_spec (g := g) hn).1.reads h.reads
  unfold parseRpc
  simp only [hid, hcount]
  cases ok
  · exact hw
  · exact hw.reads (readPayload_frame g bs (ofLe32 out))

theorem parseRpc_callbackBs (g : Junk) (data : List Byte) {cb : BitStream} (h : (parseRpc g data).callbackBs = some cb) :
    (parseRpc g data).bitsData = 0 ∧ cb = empty g ∨
      (parseRpc g data).bitsData ≠ 0 ∧
        ∃ input, cb = ofBuffer g input (((parseRpc g data).bitsData + 7) >>> 3).toNat true := by
  unfold parseRpc at h ⊢
  dsimp only at h ⊢
  split at h
  · cases h
  · exact readPayload_callbackBs _ _ _ h

theorem parseRpc_none (hn : data.length < 268435456) (hd : decodeCount (body data) = none) :
    (parseRpc g data).callbackBs = none ∧ ∀ a ∈ (parseRpc g data).incoming.trace, a.Within data.length := by
  obtain ⟨ok1, bs1, id, ok, bs, out, hid, hcount, h⟩ := readCount_spec (g := g) hn
  have hok := h.rejects hd
  subst hok
  unfold parseRpc
  simp only [hid, hcount]
  exact ⟨trivial, within_of_reads h.reads (openRpc_spec hn).2.2⟩

/-- A parse that got a count: `r` is unread, and the payload is all that is left to do. -/
structure AtPayload (g : Junk) (data : List Byte) (r : List Bool) (bs : BitStream) (c : BitVec 32) : Prop where
  unread : Unread data bs r
  within : ∀ a ∈ bs.trace, a.Within data.length
  id : (parseRpc g data).id = data.getD (headerBytes data) 0
  bitsData : (parseRpc g data).bitsData = c
  incoming : (parseRpc g data).incoming = (readPayload g bs c).1
  callbackBs : (parseRpc g data).callbackBs = (readPayload g bs c).2.1

theorem parseRpc_some (hn : data.length < 268435456) {c : Nat} {r : List Bool}
    (hd : decodeCount (body data) = some (c, r)) :
    ∃ bs bitsData, bitsData.toNat = c ∧ AtPayload g data r bs bitsData := by
  obtain ⟨ok1, bs1, id, ok, bs, out, hid, hcount, h⟩ := readCount_spec (g := g) hn
  obtain ⟨hw, -, hin⟩ := openRpc_spec (g := g) hn
  obtain ⟨hok, hro, hc⟩ := h.accepts c r hd
  subst hok
  have hlong : headerBytes data < data.length := by
    apply Nat.lt_of_not_le
    intro hs
    rw [body_short hs] at hd
    cases hd
  obtain ⟨-, w, -, hrest, hlen⟩ := decodeCount_some hd
  have hbody : (body data).length = 8 * data.length - (8 * headerBytes data + 8) := by simp [body]
  refine ⟨bs, ofLe32 out, hc, ⟨hw.reads h.reads, hn, ?_, by omega, hro⟩, within_of_reads h.reads hin, ?_, ?_, ?_, ?_⟩
  · have hr : r = (bits data).drop (8 * headerBytes data + 8 + w) := by rw [← hrest, body, List.drop_drop]
    rw [hr, List.length_drop, bits_length]
    congr 1
    omega
  all_goals
    unfold parseRpc
    simp only [hid, hcount, h.id hlong, List.getD_cons_zero]

/-- What is accepted, and what the callbacks get to see of it. -/
theorem parseRpc_accepts (hn : data.length < 268435456) {c : Nat} {r : List Bool}
    (hd : decodeCount (body data) = some (c, r)) (hc : c ≤ r.length) :
    (parseRpc g data).id = data.getD (headerBytes data) 0 ∧ (parseRpc g data).bitsData.toNat = c ∧
      ∃ cb input, (parseRpc g data).callbackBs = some cb ∧ input.length = (c + 7) / 8 ∧
        (bits input).take c = r.take c ∧ Wf cb (bits input) ∧
        ∀ a ∈ (parseRpc g data).incoming.trace, a.Within data.length := by
  obtain ⟨bs, bitsData, rfl, h⟩ := parseRpc_some (g := g) hn hd
  refine ⟨h.id, by rw [h.bitsData], ?_⟩
  rw [h.callbackBs, h.incoming]
  by_cases h0 : bitsData = 0
  · subst h0
    exact ⟨BitStream.empty g, [], rfl, rfl, by simp, empty_wf g, h.within⟩
  · obtain ⟨cb, input, hcb, hr, hin⟩ := h.unread.payload_ok (g := g) h0 hc
    exact ⟨cb, input, hcb, hin.1, hin.2.1, hin.2.2, within_of_reads hr h.within⟩

/-! ## Exactness -/

/-- The callbacks are run exactly on the packets of the format, and no access leaves its
    buffer on the way. -/
def ParsesExactly {φ ω : Type} (g : Junk) (invoke : φ → RpcArgs × ω → Bool × RpcArgs × ω)
    (orig : List Byte → Int → ω → Bool × ω) (onReceiveRpc : List (Option φ)) (world : ω) (data : List Byte) : Prop :=
  ((handleRpcPacket g invoke orig onReceiveRpc world data).dispatched.isSome ↔ WellFormed data) ∧
    ∀ a ∈ (parseRpc g data).incoming.trace, a.Within data.length

/-- One step of the parse after another, `Overflows` is the only way out of the format. -/
theorem parseRpc_exact (hn : data.length < 268435456) (ho : ¬ Overflows data) :
    ((parseRpc g data).callbackBs.isSome ↔ WellFormed data) ∧
      ∀ a ∈ (parseRpc g data).incoming.trace, a.Within data.length := by
  rw [wellFormed_iff]
  rcases hd : decodeCount (body data) with _ | ⟨c, r⟩
  · obtain ⟨hnone, hin⟩ := parseRpc_none (g := g) hn hd
    exact ⟨by simp [hnone], hin⟩
  obtain ⟨bs, bitsData, rfl, h⟩ := parseRpc_some (g := g) hn hd
  have hle := h.unread.le
  have hrefuse : (readPayload g bs bitsData).1 = bs ∧ (readPayload g bs bitsData).2.1 = none → r.length < bitsData.toNat →
      ((parseRpc g data).callbackBs.isSome ↔ ∃ c' r', some (bitsData.toNat, r) = some (c', r') ∧ c' ≤ r'.length) ∧
        ∀ a ∈ (parseRpc g data).incoming.trace, a.Within data.length := by
    intro hp hlt
    rw [h.callbackBs, h.incoming, hp.1, hp.2]
    refine ⟨⟨nofun, ?_⟩, h.within⟩
    rintro ⟨c', r', he, hc'⟩
    cases he
    omega
  by_cases hfit : bitsData.toNat ≤ r.length
  · obtain ⟨-, -, cb, -, hcb, -, -, -, hin⟩ := parseRpc_accepts (g := g) hn hd hfit
    exact ⟨⟨fun _ => ⟨_, r, rfl, hfit⟩, fun _ => by rw [hcb]; rfl⟩, hin⟩
  · refine hrefuse ?_ (by omega)
    by_cases hneg : 2147483648 ≤ bitsData.toNat
    · exact Unread.payload_negative bs hneg
    · refine h.unread.payload_short (by omega) (Nat.lt_of_not_le fun hover => ho ?_)
      exact ⟨bitsData.toNat, r, hd, by omega, hover⟩

theorem parseRpc_overflows (hn : data.length < 268435456) (ho : Overflows data) :
    ∃ a ∈ (parseRpc g data).incoming.trace, ¬ a.Within data.length := by
  obtain ⟨c, r, hd, hc, hover⟩ := ho
  obtain ⟨bs, bitsData, rfl, h⟩ := parseRpc_some (g := g) hn hd
  rw [h.incoming]
  exact h.unread.payload_overflows hc hover

/-- A received packet is parsed exactly and in bounds unless its count wraps the offset. -/
theorem parse_exact_iff {φ ω : Type} (g : Junk) (invoke : φ → RpcArgs × ω → Bool × RpcArgs × ω)
    (orig : List Byte → Int → ω → Bool × ω) (onReceiveRpc : List (Option φ)) (world : ω) (data : List Byte)
    (hn : data.length < 268435456) :
    ParsesExactly g invoke orig onReceiveRpc world data ↔ ¬ Overflows data := by
  unfold ParsesExactly
  rw [dispatched_eq, Option.isSome_map]
  refine ⟨?_, parseRpc_exact hn⟩
  intro h ho
  obtain ⟨a, ha, hout⟩ := parseRpc_overflows (g := g) hn ho
  exact hout (h.2 a ha)

theorem parse_exact_one_byte :
    ParsesExactly (fun _ _ => 0xCC) (fun (_ : Unit) a => (a.1.id ≠ 7, a.1, a.2 + 1)) (fun _ _ world => (true, world))
      [none, some ()] 0 [20, 7, 0xF8, 0xA5] := by
  refine (parse_exact_iff _ _ _ _ _ _ (by decide)).mpr ?_
  intro ⟨c, r, hd, _, ho⟩
  have hbyte : decodeCount (body [20, 7, 0xF8, 0xA5]) = some (8, [true, false, true, false, false, true, false, true]) := by
    decide
  rw [hbyte] at hd
  cases hd
  exact absurd ho (by decide)

/-- Five bytes of count, 2^31 - 1, and seven bits of payload: the sum is -2147483600, the
    check passes, and nearly 2^32 bytes are cleared in an `input` of one. -/
theorem parse_wraps :
    ¬ ParsesExactly (fun _ _ => 0) (fun (_ : Unit) a => (true, a)) (fun _ _ world => (true, world)) [] ()
    [20, 7, 0x7F, 0xFF, 0xFF, 0xBF, 0x80] := by
  intro h
  have ho : Overflows [20, 7, 0x7F, 0xFF, 0xFF, 0xBF, 0x80] :=
    ⟨2147483647, [false, false, false, false, false, false, false], by decide, by decide, by decide⟩
  obtain ⟨a, ha, hout⟩ := parseRpc_overflows (by decide) ho
  exact hout (h.2 a ha)

end RakHook.Rpc
