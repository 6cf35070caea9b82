/-
  RakHook.BitStream.Read — what the reading functions do.

  A read that succeeds moves the read offset by the bits it was asked for, leaves the
  stream otherwise as it is (`Reads`), touches only bytes below the last bit read and
  fills the output with the bits at the offset (`chunk`).
-/

import RakHook.BitStream.View
import RakHook.Lib.Compressed

namespace RakHook

open Lib

namespace BitStream

/-- The byte read at bit `ro` of `buf` while `k` bits are wanted. -/
def chunk (buf : List Byte) (alignBitsToRight : Bool) (ro k : Nat) : Byte :=
  let byte := buf.getD (ro / 8) 0 <<< (ro % 8) |||
    if 0 < ro % 8 ∧ 8 - ro % 8 < k then buf.getD (ro / 8 + 1) 0 >>> (8 - ro % 8) else 0
  if k < 8 ∧ alignBitsToRight then byte >>> (8 - k) else byte

/-- The first `k` bits of a chunk are the bits of the buffer. -/
theorem getMsbD_chunk (buf : List Byte) (ro k : Nat) {i : Nat} (hi : i < 8) (hk : i < k) :
    (chunk buf false ro k).getMsbD i = bit buf (ro + i) := by
  unfold chunk bit
  simp only [Bool.false_eq_true, and_false, if_false, BitVec.getMsbD_or, BitVec.getMsbD_shiftLeft]
  by_cases h : i + ro % 8 < 8
  · have e : (ro + i) / 8 = ro / 8 := by omega
    have e' : (ro + i) % 8 = i + ro % 8 := by omega
    rw [e, e']
    split
    · rw [BitVec.getMsbD_ushiftRight]; simp [show i < 8 - ro % 8 by omega]
    · simp
  · have e : (ro + i) / 8 = ro / 8 + 1 := by omega
    have e' : (ro + i) % 8 = i - (8 - ro % 8) := by omega
    rw [e, e', getMsbD_ge (by omega), if_pos (by omega), BitVec.getMsbD_ushiftRight]
    simp [hi, show ¬ i < 8 - ro % 8 by omega]

/-! ## Frame -/

/-- `bs'` is `bs` after reads: only the read offset moved, and what was accessed since
    satisfies `P`. -/
structure Reads (P : Access → Prop) (bs bs' : BitStream) : Prop where
  same : bs' = { bs with readOffset := bs'.readOffset, trace := bs'.trace }
  accesses : Accesses P bs bs'

namespace Reads

variable {P : Access → Prop} {bs bs' bs'' : BitStream}

theorem refl (bs : BitStream) : Reads P bs bs := ⟨rfl, .refl bs⟩

theorem trans (h : Reads P bs bs') (h' : Reads P bs' bs'') : Reads P bs bs'' :=
  ⟨by rw [h'.same, h.same], h.accesses.trans h'.accesses⟩

theorem seek (bs : BitStream) (r : Int) : Reads P bs { bs with readOffset := r } := ⟨rfl, .refl bs⟩

theorem touch (bs : BitStream) {a : Access} (ha : P a) : Reads P bs (bs.touch a) := ⟨rfl, .touch bs ha⟩

theorem bytes (h : Reads P bs bs') : bs'.bytes = bs.bytes := by rw [h.same]; rfl

theorem used (h : Reads P bs bs') : bs'.numberOfBitsUsed = bs.numberOfBitsUsed := by rw [h.same]

theorem mono {Q : Access → Prop} (hPQ : ∀ a, P a → Q a) (h : Reads P bs bs') : Reads Q bs bs' :=
  ⟨h.same, h.accesses.mono hPQ⟩

end Reads

/-! ## The loop of `ReadBits` -/

theorem touchHalves_reads {P : Access → Prop} (bs : BitStream) (mod : Nat) (need : Int) (output : List Byte)
    (offset : Nat)
    (h1 : P ⟨.data, bs.readOffset / 8, bs.readOffset / 8 + 1, bs.bytes.length⟩)
    (h2 : P ⟨.output, offset, offset + 1, output.length⟩)
    (h3 : overlaps mod need → P ⟨.data, bs.readOffset / 8 + 1, bs.readOffset / 8 + 1 + 1, bs.bytes.length⟩) :
    Reads P bs (bs.touchHalves mod need output offset) := by
  unfold touchHalves
  have h : Reads P bs ((bs.touchData (bs.readOffset / 8)).touchOutput output offset) :=
    .trans (.touch bs h1) (.touch _ h2)
  split
  · exact h.trans (.touch _ (h3 ‹_›))
  · exact h

theorem touchHalves_readOffset (bs : BitStream) (mod : Nat) (need : Int) (output : List Byte) (offset : Nat) :
    (bs.touchHalves mod need output offset).readOffset = bs.readOffset := by
  unfold touchHalves; split <;> rfl

theorem readBitsLoop_frame (align : Bool) (mod : Nat) : ∀ fuel offset need (bs : BitStream) output,
    Reads (fun _ => True) bs (readBitsLoop align mod fuel offset need bs output).1 := by
  intro fuel
  induction fuel with
  | zero => intro _ _ bs _; exact .refl bs
  | succ fuel ih =>
    intro offset need bs output
    have hread : ∀ r, Reads (fun _ => True) bs { bs.touchHalves mod need output offset with readOffset := r } := fun r =>
      .trans (touchHalves_reads bs mod need output offset trivial trivial fun _ => trivial) (.seek _ r)
    simp only [readBitsLoop]
    split
    · split
      · exact hread _
      · exact .trans (hread _) (ih _ _ _ _)
    · exact .refl bs

theorem readBits_frame (bs : BitStream) (output : List Byte) (need : Int) (align : Bool) :
    Reads (fun _ => True) bs (bs.readBits output need align).2.1 := by
  unfold readBits
  split
  · exact .refl bs
  · split
    · exact .refl bs
    · exact .trans (.touch bs trivial) (readBitsLoop_frame ..)

theorem overlaps_iff {ro k : Nat} : overlaps (ro % 8) (k : Int) = true ↔ 0 < ro % 8 ∧ 8 - ro % 8 < k := by
  simp only [overlaps, decide_eq_true_eq]; omega

theorem orHalves_eq {bs : BitStream} {ro k : Nat} (hro : bs.readOffset = ro) :
    bs.orHalves (ro % 8) k 0 = chunk bs.bytes false ro k := by
  unfold orHalves chunk load
  simp only [overlaps_iff, hro, Bool.false_eq_true, and_false, if_false]
  rw [show ((ro : Int) / 8).toNat = ro / 8 by omega, show ((ro : Int) / 8 + 1).toNat = ro / 8 + 1 by omega]
  split <;> simp

/-- What the loop leaves: the bits at the read offset in the `(k + 7) / 8` output bytes from
    `offset` on. -/
theorem readBitsLoop_spec (align : Bool) {n : Nat} : ∀ fuel offset k ro (bs : BitStream) output,
    bs.readOffset = (ro : Nat) → k ≤ fuel → ro + k < 2147483648 → ro + k ≤ 8 * n →
    offset + (k + 7) / 8 ≤ output.length → (∀ q ≥ offset, output.getD q 0 = 0 ∨ offset + (k + 7) / 8 ≤ q) →
    let r := readBitsLoop align (ro % 8) fuel offset k bs output
    Reads (Access.Within n) bs r.1 ∧ r.1.readOffset = (ro + k : Nat) ∧ r.2.length = output.length ∧
      ∀ q, r.2.getD q 0 = if offset ≤ q ∧ q < offset + (k + 7) / 8
        then chunk bs.bytes align (ro + 8 * (q - offset)) (k - 8 * (q - offset)) else output.getD q 0 := by
  intro fuel
  induction fuel with
  | zero =>
    intro offset k ro bs output hro hk _ _ _ _
    obtain rfl : k = 0 := by omega
    refine ⟨.refl bs, by simpa [readBitsLoop] using hro, rfl, ?_⟩
    intro q
    rw [if_neg (by omega)]; rfl
  | succ fuel ih =>
    intro offset k ro bs output hro hk hsmall hn hout hzero r
    by_cases hk0 : k = 0
    · subst hk0
      have hr : r = (bs, output) := by simp [r, readBitsLoop]
      rw [hr]
      exact ⟨.refl bs, hro, rfl, fun q => by rw [if_neg (by omega)]⟩
    have hat : bs.readOffset / 8 = (ro / 8 : Nat) := by omega
    have hz : output.getD offset 0 = 0 := (hzero offset (Nat.le_refl _)).resolve_right (by omega)
    have htouch : Reads (Access.Within n) bs (bs.touchHalves (ro % 8) k output offset) := by
      refine touchHalves_reads bs _ _ _ _ ⟨?_, ?_⟩ ⟨?_, ?_⟩ ?_
      · simp; omega
      · simp; omega
      · simp
      · simp; omega
      · intro ho
        have := overlaps_iff.mp ho
        refine ⟨?_, ?_⟩ <;> simp <;> omega
    have hoff := touchHalves_readOffset bs (ro % 8) k output offset
    have hpos : (0 : Int) < k := by omega
    have hbyte := orHalves_eq (k := k) hro
    have hset : ∀ b, ∀ q, (output.set offset b).getD q 0 = if q = offset then b else output.getD q 0 := by
      intro b q
      have hlt : offset < output.length := by omega
      rw [getD_set]
      simp only [hlt, and_true]
    by_cases h8 : k < 8
    · have hr : r = ({ bs.touchHalves (ro % 8) k output offset with readOffset := (ro + k : Nat) },
          output.set offset (chunk bs.bytes align ro k)) := by
        simp only [r, readBitsLoop, if_pos hpos, if_pos (show (k : Int) - 8 < 0 by omega), hz, hbyte, hoff, hro]
        rw [show i32 ((ro : Int) + (8 + ((k : Int) - 8))) = (ro + k : Nat) by rw [i32_of] <;> omega,
          show (-((k : Int) - 8)).toNat = 8 - k by omega]
        simp only [chunk, h8, true_and, Bool.false_eq_true, and_false, if_false]
      rw [hr]
      refine ⟨htouch.trans (.seek _ _), rfl, by simp, ?_⟩
      intro q
      rw [hset]
      by_cases e : q = offset
      · subst e; rw [if_pos rfl, if_pos (by omega)]; simp
      · rw [if_neg e, if_neg (by omega)]
    · have hr : r = readBitsLoop align ((ro + 8) % 8) fuel (offset + 1) ((k - 8 : Nat) : Int)
          { bs.touchHalves (ro % 8) k output offset with readOffset := (ro + 8 : Nat) }
          (output.set offset (chunk bs.bytes align ro k)) := by
        simp only [r, readBitsLoop, if_pos hpos, if_neg (show ¬ (k : Int) - 8 < 0 by omega), hz, hbyte, hoff, hro]
        rw [show i32 ((ro : Int) + 8) = (ro + 8 : Nat) by rw [i32_of] <;> omega,
          show ((k - 8 : Nat) : Int) = (k : Int) - 8 by omega, Nat.add_mod_right]
        simp only [chunk, h8, false_and, if_false, Bool.false_eq_true, and_false]
      have hbs : Reads (Access.Within n) bs
          { bs.touchHalves (ro % 8) k output offset with readOffset := (ro + 8 : Nat) } := htouch.trans (.seek _ _)
      obtain ⟨hf, ho, hl, hg⟩ := ih (offset + 1) (k - 8) (ro + 8)
        { bs.touchHalves (ro % 8) k output offset with readOffset := (ro + 8 : Nat) }
        (output.set offset (chunk bs.bytes align ro k)) rfl
        (by omega) (by omega) (by omega) (by simp; omega) (by
          intro q hq
          rw [hset, if_neg (by omega)]
          rcases hzero q (by omega) with h | h
          · exact .inl h
          · exact .inr (by omega))
      rw [hr]
      refine ⟨hbs.trans hf, by rw [ho]; omega, by simpa using hl, ?_⟩
      intro q
      rw [hg q, hset, hbs.bytes]
      by_cases e : q = offset
      · subst e
        rw [if_neg (by omega), if_pos rfl, if_pos (by omega)]; simp
      · rw [if_neg e]
        by_cases e' : offset ≤ q ∧ q < offset + (k + 7) / 8
        · rw [if_pos e', if_pos (by omega), show ro + 8 + 8 * (q - (offset + 1)) = ro + 8 * (q - offset) by omega,
            show k - 8 - 8 * (q - (offset + 1)) = k - 8 * (q - offset) by omega]
        · rw [if_neg e', if_neg (by omega)]

/-! ## `ReadBits` -/

/-- The output bytes of a read of `k` bits at bit `ro`. -/
def chunks (buf : List Byte) (align : Bool) (ro k : Nat) : List Byte :=
  (List.range ((k + 7) / 8)).map fun q => chunk buf align (ro + 8 * q) (k - 8 * q)

@[simp] theorem chunks_length (buf : List Byte) (align : Bool) (ro k : Nat) :
    (chunks buf align ro k).length = (k + 7) / 8 := by
  simp [chunks]

theorem chunks_getD (buf : List Byte) (align : Bool) (ro k : Nat) {q : Nat} (h : q < (k + 7) / 8) :
    (chunks buf align ro k).getD q 0 = chunk buf align (ro + 8 * q) (k - 8 * q) := by
  simp [chunks, List.getD, h]

theorem bit_chunks (buf : List Byte) (ro k : Nat) {i : Nat} (h : i < k) :
    bit (chunks buf false ro k) i = bit buf (ro + i) := by
  show ((chunks buf false ro k).getD (i / 8) 0).getMsbD (i % 8) = _
  rw [chunks_getD _ _ _ _ (by omega), getMsbD_chunk _ _ _ (by omega) (by omega),
    show ro + 8 * (i / 8) + i % 8 = ro + i by omega]

theorem chunks_align (buf : List Byte) (ro : Nat) {k : Nat} (hk : k % 8 = 0) :
    chunks buf true ro k = chunks buf false ro k := by
  unfold chunks
  refine List.map_congr_left ?_
  intro q hq
  have := List.mem_range.mp hq
  simp [chunk, show ¬ k - 8 * q < 8 by omega]

/-- A read of whole bytes packs the bits at the offset. -/
theorem chunks_eq_pack {bs : BitStream} {l : List Bool} (h : View bs l) {ro k : Nat} (hk : k % 8 = 0)
    (hl : ro + k ≤ l.length) (align : Bool) : chunks bs.bytes align ro k = pack ((l.drop ro).take k) := by
  have ha : chunks bs.bytes align ro k = chunks bs.bytes false ro k := by
    cases align
    · rfl
    · exact chunks_align _ _ hk
  rw [ha]
  apply buf_ext
  · simp; omega
  · intro i hi
    rw [chunks_length] at hi
    rw [bit_chunks _ _ _ (by omega), h.bit_eq (by omega), bit_pack, getD_take, if_pos (by omega), getD_drop]

/-- A right-aligned read of less than a byte. -/
theorem chunk_low {bs : BitStream} {l : List Bool} (h : View bs l) {ro k : Nat} (hk : k < 8) (hl : ro + k ≤ l.length) :
    chunk bs.bytes true ro k = byteAt ((l.drop ro).take k) 0 >>> (8 - k) := by
  have hc : chunk bs.bytes true ro k = chunk bs.bytes false ro k >>> (8 - k) := by simp [chunk, hk]
  rw [hc]
  apply byte_ext
  intro i hi
  rw [BitVec.getMsbD_ushiftRight, BitVec.getMsbD_ushiftRight]
  by_cases e : i < 8 - k
  · simp [e]
  · have hi' : i - (8 - k) < k := by omega
    rw [getMsbD_chunk _ _ _ (by omega) hi', getMsbD_byteAt _ _ (by omega), h.bit_eq (by omega), getD_take,
      if_pos (by omega), getD_drop, Nat.zero_add]

theorem clear_getD (output : List Byte) (n q : Nat) :
    (clear output n).getD q 0 = if q < n then 0 else output.getD q 0 := by
  unfold clear
  rw [memcpy_getD]
  by_cases h : q < output.length
  · simp [h]
  · simp [List.getD, h]

theorem View.reads {P : Access → Prop} {bs bs' : BitStream} {l : List Bool} (h : View bs l) (hr : Reads P bs bs') :
    View bs' l :=
  ⟨by rw [hr.used]; exact h.used, h.small, by rw [hr.bytes]; exact h.holds⟩

theorem list_ext_byte {a b : List Byte} (hl : a.length = b.length) (h : ∀ q, a.getD q 0 = b.getD q 0) : a = b := by
  apply List.ext_getElem hl
  intro q h1 h2
  simpa [List.getD, h1, h2] using h q

theorem readBits_ok {bs : BitStream} {l : List Bool} (h : View bs l) {ro k n : Nat} (output : List Byte) (align : Bool)
    (hro : bs.readOffset = ro) (hk : 0 < k) (hl : ro + k ≤ l.length) (hn : l.length ≤ 8 * n)
    (hk7 : k + 7 < 2147483648) (hout : (k + 7) / 8 ≤ output.length) :
    ∃ bs', bs.readBits output k align = (true, bs', chunks bs.bytes align ro k ++ output.drop ((k + 7) / 8)) ∧
      Reads (Access.Within n) bs bs' ∧ bs'.readOffset = (ro + k : Nat) := by
  have hsmall := h.small
  have hsize : u32 (bitsToBytes k) = ((k + 7) / 8 : Nat) := by
    unfold bitsToBytes; rw [i32_of (by omega) (by omega), u32_of] <;> omega
  let t := bs.touch ⟨.output, 0, ((k + 7) / 8 : Nat), output.length⟩
  have ht : Reads (Access.Within n) bs t := .touch bs ⟨by simp, by simp; omega⟩
  obtain ⟨hf, ho, hlen, hg⟩ := readBitsLoop_spec align (n := n) k 0 k ro t (clear output ((k + 7) / 8 : Nat)) hro
    (Nat.le_refl k) (by omega) (by omega) (by simpa [clear] using hout) (fun q _ => by
      rw [clear_getD]
      by_cases e : q < (k + 7) / 8
      · rw [if_pos e]; exact .inl rfl
      · exact .inr (by omega))
  refine ⟨_, ?_, ht.trans hf, ho⟩
  unfold readBits
  rw [if_neg (by omega), if_neg (by rw [h.used, hro, i32_of] <;> omega), hsize]
  have hmod : (bs.readOffset % 8).toNat = ro % 8 := by omega
  refine congrArg (Prod.mk true) (Prod.ext ?_ ?_)
  · show (readBitsLoop align (bs.readOffset % 8).toNat _ 0 k t _).1 = _
    rw [hmod]; rfl
  · show (readBitsLoop align (bs.readOffset % 8).toNat _ 0 k t _).2 = _
    rw [hmod]
    apply list_ext_byte
    · rw [Int.toNat_natCast, hlen]; simp [clear]; omega
    · intro q
      rw [Int.toNat_natCast, hg q]
      simp only [List.getD_eq_getElem?_getD, List.getElem?_append, chunks_length, List.getElem?_drop]
      by_cases e : q < (k + 7) / 8
      · rw [if_pos (by omega), if_pos e]
        have := chunks_getD bs.bytes align ro k e
        rw [List.getD_eq_getElem?_getD] at this
        rw [this, Nat.sub_zero]; rfl
      · rw [if_neg (by omega), if_neg e, ← List.getD_eq_getElem?_getD, clear_getD, if_neg e,
          List.getD_eq_getElem?_getD, show (k + 7) / 8 + (q - (k + 7) / 8) = q by omega]

theorem readBits_short {bs : BitStream} {l : List Bool} (h : View bs l) {ro k : Nat} (output : List Byte) (align : Bool)
    (hro : bs.readOffset = ro) (hl : l.length < ro + k) (hsmall : ro + k < 2147483648) :
    bs.readBits output k align = (false, bs, output) := by
  unfold readBits
  split
  · rfl
  · rw [if_pos (by rw [h.used, hro, i32_of] <;> omega)]

/-! ## `Read(bool&)` -/

theorem getMsbD_mask {i j : Nat} (h : i < 8) (hj : j < 8) : ((0x80 : Byte) >>> i).getMsbD j = decide (j = i) := by
  match i, h, j, hj with
  | 0, _, j, hj | 1, _, j, hj | 2, _, j, hj | 3, _, j, hj | 4, _, j, hj | 5, _, j, hj | 6, _, j, hj | 7, _, j, hj =>
    revert j; decide

theorem bool_load (b : Byte) {i : Nat} (h : i < 8) : (b &&& (0x80 : Byte) >>> i != 0) = b.getMsbD i := by
  rcases hb : b.getMsbD i with _ | _
  · have hz : b &&& (0x80 : Byte) >>> i = 0 := by
      apply byte_ext
      intro j hj
      rw [BitVec.getMsbD_and, getMsbD_mask h hj]
      by_cases e : j = i
      · rw [e, hb]; simp
      · simp [e]
    rw [hz]
    rfl
  · have hne : b &&& (0x80 : Byte) >>> i ≠ 0 := by
      intro hz
      have hbit := congrArg (fun x : Byte => x.getMsbD i) hz
      simp only [BitVec.getMsbD_and, getMsbD_mask h h, hb] at hbit
      simp at hbit
    exact bne_iff_ne.mpr hne

theorem readBool_ok {bs : BitStream} {l : List Bool} (h : View bs l) {ro n : Nat} (hro : bs.readOffset = ro)
    (hl : ro < l.length) (hn : l.length ≤ 8 * n) :
    ∃ bs', bs.readBool = (some (l.getD ro false), bs') ∧ Reads (Access.Within n) bs bs' ∧
      bs'.readOffset = (ro + 1 : Nat) := by
  have hsmall := h.small
  have ht : Reads (Access.Within n) bs (bs.touchData (bs.readOffset / 8)) := by
    refine .touch bs ⟨?_, ?_⟩
    · show 0 ≤ bs.readOffset / 8; omega
    · simp; omega
  refine ⟨{ bs.touchData (bs.readOffset / 8) with readOffset := (ro + 1 : Nat) }, ?_, ht.trans (.seek _ _), rfl⟩
  unfold readBool
  rw [if_neg (by rw [h.used, hro, i32_of] <;> omega)]
  refine Prod.ext ?_ ?_
  · simp only [load]
    rw [show (bs.readOffset % 8).toNat = ro % 8 by omega, bool_load _ (by omega),
      show (bs.readOffset / 8).toNat = ro / 8 by omega]
    exact congrArg some (h.bit_eq hl)
  · show { bs.touchData (bs.readOffset / 8) with readOffset := i32 (bs.readOffset + 1) } = _
    rw [hro, i32_of (by omega) (by omega)]
    rfl

theorem readBool_short {bs : BitStream} {l : List Bool} (h : View bs l) {ro : Nat} (hro : bs.readOffset = ro)
    (hl : l.length ≤ ro) (hsmall : ro + 1 < 2147483648) : bs.readBool = (none, bs) := by
  unfold readBool
  rw [if_pos (by rw [h.used, hro, i32_of] <;> omega)]

/-! ## `ReadCompressed` -/

theorem drop_cons {l rest : List Bool} {ro : Nat} {b : Bool} (h : l.drop ro = b :: rest) :
    ro < l.length ∧ l.getD ro false = b ∧ l.drop (ro + 1) = rest ∧ rest.length = l.length - (ro + 1) := by
  have hl : ro < l.length := by
    have := congrArg List.length h
    simp only [List.length_drop, List.length_cons] at this
    omega
  rw [List.drop_eq_getElem_cons hl] at h
  injection h with hb hr
  exact ⟨hl, by simpa [List.getD, hl] using hb, hr, by rw [← hr, List.length_drop]⟩

/-- The outcome `ReadCompressed` has to have where decoding gives `d`. -/
def Decoded (l : List Bool) (output : List Byte) (currentByte : Nat) (d : Option (List Byte × List Bool))
    (result : Bool × BitStream × List Byte) : Prop :=
  match d with
  | some (b, r) =>
    result.1 = true ∧ result.2.1.readOffset = (l.length - r.length : Nat) ∧
      result.2.2 = b ++ output.drop (currentByte + 1)
  | none => result.1 = false

theorem readCompressedFrom_zero {bs : BitStream} {l : List Bool} (h : View bs l) {ro n : Nat} {output : List Byte}
    (u : Bool) (hro : bs.readOffset = ro) (hn : l.length ≤ 8 * n) (hsmall : ro + 9 < 2147483648)
    (hout : 0 < output.length) :
    Reads (Access.Within n) bs (readCompressedFrom u 0 bs output).2.1 ∧
      Decoded l output 0 (decodeFrom (byteMatch u) (halfByteMatch u) 0 (l.drop ro))
        (readCompressedFrom u 0 bs output) := by
  rcases hd : l.drop ro with _ | ⟨b, rest⟩
  · have hl : l.length ≤ ro := by simpa using hd
    have hr : readCompressedFrom u 0 bs output = (false, bs, output) := by
      unfold readCompressedFrom; rw [if_pos (by rw [h.used, hro, i32_of] <;> omega)]
    rw [hr]; exact ⟨.refl bs, rfl⟩
  · obtain ⟨hl, hb, hrest, hlen⟩ := drop_cons hd
    obtain ⟨bs1, hbool, hread1, hro1⟩ := readBool_ok h hro hl hn
    have h1 := h.reads hread1
    have hguard : ¬ bs.numberOfBitsUsed < i32 (bs.readOffset + 1) := by
      have := h.small
      rw [h.used, hro, i32_of] <;> omega
    rw [hb] at hbool
    rw [readCompressedFrom, if_neg hguard, hbool]
    cases b with
    | true =>
      by_cases hfit : 4 ≤ rest.length
      · obtain ⟨bs2, heq, hread2, hro2⟩ := readBits_ok (k := 4) h1 output true hro1 (by omega) (by omega) hn
          (by omega) (by omega)
        have hc : chunks bs1.bytes true (ro + 1) 4 = [ofLowHalf (rest.take 4)] := by
          have := chunk_low (k := 4) h1 (by omega) (show ro + 1 + 4 ≤ l.length by omega)
          rw [hrest] at this
          exact congrArg (fun x => [x]) this
        rw [show ((4 : Nat) : Int) = 4 from rfl] at heq
        simp only [heq, hc, decodeFrom, if_pos hfit]
        exact ⟨hread1.trans hread2, rfl, by rw [hro2, List.length_drop]; omega, rfl⟩
      · have heq := readBits_short (k := 4) h1 output true hro1 (by omega) (by omega)
        rw [show ((4 : Nat) : Int) = 4 from rfl] at heq
        simp only [heq, decodeFrom, if_neg hfit]
        exact ⟨hread1, rfl⟩
    | false =>
      by_cases hfit : 8 ≤ rest.length
      · obtain ⟨bs2, heq, hread2, hro2⟩ := readBits_ok (k := 8) h1 output true hro1 (by omega) (by omega) hn
          (by omega) (by omega)
        rw [chunks_eq_pack h1 (by omega) (by omega), hrest, show ((8 : Nat) : Int) = 8 from rfl] at heq
        simp only [heq, decodeFrom, if_pos hfit]
        exact ⟨hread1.trans hread2, rfl, by rw [hro2, List.length_drop]; omega, rfl⟩
      · have heq := readBits_short (k := 8) h1 output true hro1 (by omega) (by omega)
        rw [show ((8 : Nat) : Int) = 8 from rfl] at heq
        simp only [heq, decodeFrom, if_neg hfit]
        exact ⟨hread1, rfl⟩

theorem readCompressedFrom_spec {l : List Bool} {n : Nat} (u : Bool) (hn : l.length ≤ 8 * n) :
    ∀ (currentByte : Nat) (bs : BitStream) (output : List Byte) (ro : Nat), View bs l → bs.readOffset = ro →
      ro + 9 * (currentByte + 1) < 2147483648 → currentByte < output.length →
      Reads (Access.Within n) bs (readCompressedFrom u currentByte bs output).2.1 ∧
        Decoded l output currentByte (decodeFrom (byteMatch u) (halfByteMatch u) currentByte (l.drop ro))
          (readCompressedFrom u currentByte bs output) := by
  intro currentByte
  induction currentByte with
  | zero => intro bs output ro h hro hsmall hout; exact readCompressedFrom_zero h u hro hn (by omega) (by omega)
  | succ c ih =>
    intro bs output ro h hro hsmall hout
    rcases hd : l.drop ro with _ | ⟨b, rest⟩
    · have hr : readCompressedFrom u (c + 1) bs output = (false, bs, output) := by
        unfold readCompressedFrom
        rw [readBool_short h hro (by simpa using hd) (by omega)]
      rw [hr]; exact ⟨.refl bs, rfl⟩
    · obtain ⟨hl, hb, hrest, hlen⟩ := drop_cons hd
      obtain ⟨bs1, hbool, hread1, hro1⟩ := readBool_ok h hro hl hn
      have h1 := h.reads hread1
      rw [hb] at hbool
      rw [readCompressedFrom, hbool]
      cases b with
      | true =>
        have hi := ih bs1 (output.set (c + 1) (byteMatch u)) (ro + 1) h1 hro1 (by omega) (by simp; omega)
        rw [hrest] at hi
        refine ⟨hread1.trans hi.1, ?_⟩
        have h2 := hi.2
        simp only [decodeFrom]
        rcases hdec : decodeFrom (byteMatch u) (halfByteMatch u) c rest with _ | ⟨b, r⟩
        · rw [hdec] at h2; exact h2
        · rw [hdec] at h2
          refine ⟨h2.1, h2.2.1, h2.2.2.trans ?_⟩
          have hdrop : (output.set (c + 1) (byteMatch u)).drop (c + 1) = byteMatch u :: output.drop (c + 2) := by
            rw [List.drop_eq_getElem_cons (by simpa using hout), List.getElem_set_self, List.drop_set, if_pos (by omega)]
          rw [hdrop]; simp
      | false =>
        have hk : ((8 * (c + 2) : Nat) : Int) = 8 * (c + 2) := by omega
        by_cases hfit : 8 * (c + 2) ≤ rest.length
        · obtain ⟨bs2, heq, hread2, hro2⟩ := readBits_ok (k := 8 * (c + 2)) h1 output true hro1 (by omega)
            (by omega) hn (by omega) (by omega)
          rw [chunks_eq_pack h1 (by omega) (by omega), hrest, hk] at heq
          simp only [heq, decodeFrom, if_pos hfit]
          refine ⟨hread1.trans hread2, rfl, by rw [hro2, List.length_drop]; omega, ?_⟩
          rw [show (8 * (c + 2) + 7) / 8 = c + 1 + 1 by omega]
        · have heq := readBits_short (k := 8 * (c + 2)) h1 output true hro1 (by omega) (by omega)
          rw [hk] at heq
          simp only [heq, decodeFrom, if_neg hfit]
          exact ⟨hread1, rfl⟩

end BitStream

end RakHook
