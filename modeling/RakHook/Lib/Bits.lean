/-
  RakHook.Lib.Bits — byte buffers read as bit strings, most significant bit first.

  `bit buf i` is bit `i` of a buffer, `bits buf` all of them. `pack l` is the shortest
  buffer whose bits start with `l`, its spare bits zero. `Holds buf l` says that `buf`
  starts with `pack l`: its first bits are `l` and the rest of the last byte they touch
  is zero. A chunk of at most eight bits is appended by one store on a byte boundary
  (`Holds.store_aligned`) and by an OR into the partial byte plus, when it overlaps, a
  store of the next byte (`Holds.store_low`, `Holds.store_split`).
-/

namespace RakHook.Lib

abbrev Byte := BitVec 8

/-- The byte whose bits, most significant first, are `f 0` to `f 7`. -/
def byteOf (f : Nat → Bool) : Byte := BitVec.ofBoolListBE [f 0, f 1, f 2, f 3, f 4, f 5, f 6, f 7]

def bit (buf : List Byte) (i : Nat) : Bool := (buf.getD (i / 8) 0).getMsbD (i % 8)

def bits (buf : List Byte) : List Bool := (List.range (8 * buf.length)).map (bit buf)

/-- The bits of `l` from `i` on, padded with zeros to a byte. -/
def byteAt (l : List Bool) (i : Nat) : Byte := byteOf fun j => l.getD (i + j) false

def pack (l : List Bool) : List Byte := (List.range ((l.length + 7) / 8)).map fun q => byteAt l (8 * q)

/-! ## Bytes -/

theorem getMsbD_byteOf (f : Nat → Bool) {i : Nat} (h : i < 8) : (byteOf f).getMsbD i = f i := by
  unfold byteOf
  rw [BitVec.getMsbD_ofBoolListBE]
  match i, h with
  | 0, _ | 1, _ | 2, _ | 3, _ | 4, _ | 5, _ | 6, _ | 7, _ => rfl

theorem byte_ext {a b : Byte} (h : ∀ i < 8, a.getMsbD i = b.getMsbD i) : a = b :=
  BitVec.eq_of_getMsbD_eq fun i hi => h i hi

theorem getMsbD_ge {a : Byte} {i : Nat} (h : 8 ≤ i) : a.getMsbD i = false :=
  BitVec.getMsbD_of_ge a i h

/-! ## Bits of a buffer -/

@[simp] theorem bits_length (buf : List Byte) : (bits buf).length = 8 * buf.length := by simp [bits]

theorem bits_getD (buf : List Byte) (i : Nat) : (bits buf).getD i false = bit buf i := by
  by_cases h : i < 8 * buf.length
  · simp [bits, List.getD, h]
  · have hb : buf.length ≤ i / 8 := by omega
    simp [bits, bit, List.getD, h, hb]

theorem bit_ge {buf : List Byte} {i : Nat} (h : 8 * buf.length ≤ i) : bit buf i = false := by
  rw [← bits_getD]; simp [List.getD, h]

theorem list_ext_getD {l l' : List Bool} (hl : l.length = l'.length)
    (h : ∀ i < l.length, l.getD i false = l'.getD i false) : l = l' := by
  apply List.ext_getElem hl
  intro i h1 h2
  simpa [List.getD, h1, h2] using h i h1

theorem buf_ext {a b : List Byte} (hl : a.length = b.length) (h : ∀ i < 8 * a.length, bit a i = bit b i) :
    a = b := by
  apply List.ext_getElem hl
  intro q h1 h2
  apply byte_ext
  intro j hj
  have := h (8 * q + j) (by omega)
  unfold bit at this
  rw [show (8 * q + j) / 8 = q by omega, show (8 * q + j) % 8 = j by omega] at this
  simpa [List.getD, h1, h2] using this

theorem bit_append (a b : List Byte) (i : Nat) :
    bit (a ++ b) i = if i < 8 * a.length then bit a i else bit b (i - 8 * a.length) := by
  unfold bit
  simp only [List.getD_eq_getElem?_getD, List.getElem?_append]
  by_cases h : i < 8 * a.length
  · rw [if_pos h, if_pos (by omega)]
  · rw [if_neg h, if_neg (by omega), show (i - 8 * a.length) / 8 = i / 8 - a.length by omega,
      show (i - 8 * a.length) % 8 = i % 8 by omega]

theorem getD_append (a b : List Bool) (i : Nat) :
    (a ++ b).getD i false = if i < a.length then a.getD i false else b.getD (i - a.length) false := by
  simp only [List.getD_eq_getElem?_getD, List.getElem?_append]
  split <;> rfl

theorem bits_append (a b : List Byte) : bits (a ++ b) = bits a ++ bits b := by
  apply list_ext_getD
  · simp; omega
  · intro i _
    rw [getD_append, bits_getD, bits_getD, bits_getD, bit_append, bits_length]

theorem bit_take (buf : List Byte) (n i : Nat) (h : i < 8 * n) : bit (buf.take n) i = bit buf i := by
  unfold bit
  simp only [List.getD_eq_getElem?_getD, List.getElem?_take]
  rw [if_pos (by omega)]

theorem bit_drop (buf : List Byte) (n i : Nat) : bit (buf.drop n) i = bit buf (8 * n + i) := by
  unfold bit
  simp only [List.getD_eq_getElem?_getD, List.getElem?_drop]
  rw [show (8 * n + i) / 8 = n + i / 8 by omega, show (8 * n + i) % 8 = i % 8 by omega]

theorem getD_take (l : List Bool) (n i : Nat) :
    (l.take n).getD i false = if i < n then l.getD i false else false := by
  simp only [List.getD_eq_getElem?_getD, List.getElem?_take]
  split <;> rfl

theorem getD_drop (l : List Bool) (n i : Nat) : (l.drop n).getD i false = l.getD (n + i) false := by
  simp [List.getD_eq_getElem?_getD, List.getElem?_drop]

theorem getD_ge {l : List Bool} {i : Nat} (h : l.length ≤ i) : l.getD i false = false := by
  simp [List.getD, h]

theorem getD_set (buf : List Byte) (q : Nat) (b : Byte) (i : Nat) :
    (buf.set q b).getD i 0 = if i = q ∧ q < buf.length then b else buf.getD i 0 := by
  simp only [List.getD_eq_getElem?_getD, List.getElem?_set]
  by_cases h : q = i
  · subst h
    by_cases hl : q < buf.length
    · simp [hl]
    · simp [hl]
  · rw [if_neg h, if_neg (by omega)]

theorem bit_set (buf : List Byte) (q : Nat) (b : Byte) (i : Nat) :
    bit (buf.set q b) i = if i / 8 = q ∧ q < buf.length then b.getMsbD (i % 8) else bit buf i := by
  unfold bit
  rw [getD_set]
  split <;> rfl

theorem bits_take (buf : List Byte) (n : Nat) : bits (buf.take n) = (bits buf).take (8 * n) := by
  apply list_ext_getD
  · simp only [bits_length, List.length_take]; omega
  · intro i hi
    simp only [bits_length, List.length_take] at hi
    rw [bits_getD, bit_take _ _ _ (by omega), getD_take, if_pos (by omega), bits_getD]

theorem bits_drop (buf : List Byte) (n : Nat) : bits (buf.drop n) = (bits buf).drop (8 * n) := by
  apply list_ext_getD
  · simp only [bits_length, List.length_drop]; omega
  · intro i _
    rw [bits_getD, bit_drop, getD_drop, bits_getD]

theorem bits_byte (buf : List Byte) {n : Nat} (h : n < buf.length) :
    ((bits buf).drop (8 * n)).take 8 = bits [buf.getD n 0] := by
  have hb : (buf.drop n).take 1 = [buf.getD n 0] := by
    rw [List.drop_eq_getElem_cons h, List.take_succ_cons, List.take_zero]
    simp [List.getD, h]
  rw [← bits_drop, ← hb]
  exact (bits_take _ 1).symm

/-! ## Packing -/

@[simp] theorem pack_length (l : List Bool) : (pack l).length = (l.length + 7) / 8 := by simp [pack]

theorem getMsbD_byteAt (l : List Bool) (i : Nat) {j : Nat} (h : j < 8) :
    (byteAt l i).getMsbD j = l.getD (i + j) false := getMsbD_byteOf _ h

theorem bit_singleton (b : Byte) {i : Nat} (hi : i < 8) : bit [b] i = b.getMsbD i := by
  unfold bit
  rw [show i / 8 = 0 by omega, show i % 8 = i by omega]
  rfl

theorem byteAt_bits (b : Byte) : byteAt (bits [b]) 0 = b := by
  apply byte_ext
  intro i hi
  rw [getMsbD_byteAt _ _ hi, bits_getD, Nat.zero_add, bit_singleton b hi]

theorem byteAt_drop (b : Byte) (k : Nat) : byteAt ((bits [b]).drop k) 0 = b <<< k := by
  apply byte_ext
  intro i hi
  rw [getMsbD_byteAt _ _ hi, getD_drop, bits_getD, BitVec.getMsbD_shiftLeft, Nat.zero_add, Nat.add_comm k]
  by_cases e : i + k < 8
  · exact bit_singleton b e
  · rw [getMsbD_ge (by omega), bit_ge (by simp; omega)]

theorem bit_pack (l : List Bool) (i : Nat) : bit (pack l) i = l.getD i false := by
  by_cases h : i / 8 < (l.length + 7) / 8
  · unfold bit pack
    have : ((List.range ((l.length + 7) / 8)).map fun q => byteAt l (8 * q)).getD (i / 8) 0 = byteAt l (8 * (i / 8)) := by
      simp [List.getD, h]
    rw [this, getMsbD_byteAt _ _ (by omega), show 8 * (i / 8) + i % 8 = i by omega]
  · rw [bit_ge (by simp; omega), getD_ge (by omega)]

theorem pack_bits (buf : List Byte) : pack (bits buf) = buf :=
  buf_ext (by simp; omega) fun i _ => by rw [bit_pack, bits_getD]

theorem pack_bits_append (buf : List Byte) (l : List Bool) : pack (bits buf ++ l) = buf ++ pack l := by
  apply buf_ext
  · simp; omega
  · intro i _
    rw [bit_pack, getD_append, bit_append, bit_pack, bits_getD, bits_length]

/-- Packing adds less than a byte of padding. -/
theorem bits_pack_append (l : List Bool) :
    bits (pack l) = l ++ List.replicate (8 * ((l.length + 7) / 8) - l.length) false := by
  apply list_ext_getD
  · simp; omega
  · intro i _
    rw [bits_getD, bit_pack, getD_append]
    split
    · rfl
    · rw [getD_ge (by omega)]
      simp [List.getD_eq_getElem?_getD, List.getElem?_replicate]
      split <;> rfl

/-! ## Buffers that start with a packed bit string -/

def Holds (buf : List Byte) (l : List Bool) : Prop :=
  l.length ≤ 8 * buf.length ∧ ∀ i < 8 * ((l.length + 7) / 8), bit buf i = l.getD i false

namespace Holds

variable {buf : List Byte} {l : List Bool}

theorem take_eq (h : Holds buf l) : buf.take ((l.length + 7) / 8) = pack l := by
  have hl := h.1
  apply buf_ext
  · simp; omega
  · intro i hi
    simp only [List.length_take] at hi
    rw [bit_take _ _ _ (by omega), bit_pack, h.2 i (by omega)]

theorem nil (buf : List Byte) : Holds buf [] := ⟨by simp, fun i hi => by simp at hi⟩

theorem congr {buf' : List Byte} (h : Holds buf l) (hl : l.length ≤ 8 * buf'.length)
    (he : ∀ i < 8 * ((l.length + 7) / 8), bit buf' i = bit buf i) : Holds buf' l :=
  ⟨hl, fun i hi => by rw [he i hi, h.2 i hi]⟩

theorem take (h : Holds buf l) {n : Nat} (hn : n ≤ l.length) (hm : n % 8 = 0) : Holds buf (l.take n) := by
  have hl := h.1
  refine ⟨by simp; omega, ?_⟩
  intro i hi
  have hlen : (l.take n).length = n := by simp; omega
  rw [hlen] at hi
  rw [h.2 i (by omega), getD_take, if_pos (by omega)]

/-- Append a chunk on a byte boundary: one store. -/
theorem store_aligned (h : Holds buf l) {d : List Bool} (hd : d.length ≤ 8) (h0 : 0 < d.length)
    (hm : l.length % 8 = 0) (hq : l.length / 8 < buf.length) :
    Holds (buf.set (l.length / 8) (byteAt d 0)) (l ++ d) := by
  refine ⟨by simp; omega, ?_⟩
  intro i hi
  simp only [List.length_append] at hi
  rw [bit_set, getD_append]
  by_cases e : i / 8 = l.length / 8
  · rw [if_pos ⟨e, hq⟩, getMsbD_byteAt _ _ (by omega), if_neg (by omega), show 0 + i % 8 = i - l.length by omega]
  · rw [if_neg (by omega), if_pos (by omega), h.2 i (by omega)]

/-- Append a chunk that fits in the rest of a partial byte: one OR. -/
theorem store_low (h : Holds buf l) {d : List Bool} (hm : l.length % 8 ≠ 0)
    (hd : d.length ≤ 8 - l.length % 8) :
    Holds (buf.set (l.length / 8) (buf.getD (l.length / 8) 0 ||| byteAt d 0 >>> (l.length % 8))) (l ++ d) := by
  have hl := h.1
  refine ⟨by simp; omega, ?_⟩
  intro i hi
  simp only [List.length_append] at hi
  have hi' : i < 8 * ((l.length + 7) / 8) := by omega
  rw [bit_set, getD_append]
  by_cases e : i / 8 = l.length / 8
  · rw [if_pos ⟨e, by omega⟩, BitVec.getMsbD_or, BitVec.getMsbD_ushiftRight]
    have hb : (buf.getD (l.length / 8) 0).getMsbD (i % 8) = l.getD i false := by
      rw [← h.2 i hi', bit, e]
    rw [hb]
    by_cases hlt : i < l.length
    · rw [if_pos hlt]; simp [show i % 8 < l.length % 8 by omega]
    · rw [if_neg hlt, getD_ge (by omega), getMsbD_byteAt _ _ (by omega)]
      simp [show ¬ i % 8 < l.length % 8 by omega, show i % 8 < 8 by omega,
        show i % 8 - l.length % 8 = i - l.length by omega]
  · rw [if_neg (by omega), if_pos (by omega), h.2 i hi']

/-- Append a chunk that overlaps into the next byte: an OR and a store. -/
theorem store_split (h : Holds buf l) {d : List Bool} (hd : d.length ≤ 8)
    (hm : 8 - l.length % 8 < d.length) (hq : l.length / 8 + 1 < buf.length) :
    Holds ((buf.set (l.length / 8) (buf.getD (l.length / 8) 0 ||| byteAt d 0 >>> (l.length % 8))).set
      (l.length / 8 + 1) (byteAt d 0 <<< (8 - l.length % 8))) (l ++ d) := by
  have hl := h.1
  refine ⟨by simp; omega, ?_⟩
  intro i hi
  simp only [List.length_append] at hi
  rw [bit_set, bit_set, getD_append, List.length_set]
  by_cases e : i / 8 = l.length / 8 + 1
  · rw [if_pos ⟨e, by omega⟩, if_neg (by omega), BitVec.getMsbD_shiftLeft]
    rw [show i % 8 + (8 - l.length % 8) = i - l.length by omega]
    by_cases hlt : i - l.length < 8
    · rw [getMsbD_byteAt _ _ hlt, Nat.zero_add]
    · rw [getMsbD_ge (by omega), getD_ge (by omega)]
  · rw [if_neg (by omega)]
    have hi' : i < 8 * ((l.length + 7) / 8) := by omega
    by_cases e' : i / 8 = l.length / 8
    · rw [if_pos ⟨e', by omega⟩, BitVec.getMsbD_or, BitVec.getMsbD_ushiftRight]
      have hb : (buf.getD (l.length / 8) 0).getMsbD (i % 8) = l.getD i false := by
        rw [← h.2 i hi', bit, e']
      rw [hb]
      by_cases hlt : i < l.length
      · rw [if_pos hlt]; simp [show i % 8 < l.length % 8 by omega]
      · rw [if_neg hlt, getD_ge (by omega), getMsbD_byteAt _ _ (by omega)]
        simp [show ¬ i % 8 < l.length % 8 by omega, show i % 8 < 8 by omega,
          show i % 8 - l.length % 8 = i - l.length by omega]
    · rw [if_neg (by omega), if_pos (by omega), h.2 i hi']

end Holds

end RakHook.Lib
