/-
  RakHook.BitStream.Fields — values of whole bytes, one behind the other in a stream.

  `field held l` is what a variable that holds `held` has after it was read from the bits
  `l`, and what is left of them: where there are too few, the variable keeps what it held.
  `Read` and `Read(char*, int)` both read so, at any bit offset (`read_field`,
  `readArray_field`). `Ahead bs l r` says that `r` is unread of the bits `l`.
-/

import Mathlib.Algebra.Group.Nat.Defs
import RakHook.BitStream.Ops

namespace RakHook

open Lib

namespace BitStream

/-! ## Numbers in memory -/

/-- The `n` bytes of an unsigned integer, the lowest first: `static_cast` and a store. -/
def le : (n : Nat) → Nat → List Byte
  | 0, _ => []
  | n + 1, x => BitVec.ofNat 8 x :: le n (x / 256)

def ofLe (l : List Byte) : Nat := l.foldr (fun b x => b.toNat + 256 * x) 0

/-- What a variable has after a read, and what is left to read. -/
def field (held : List Byte) (l : List Bool) : List Byte × List Bool :=
  if 8 * held.length ≤ l.length then (pack (l.take (8 * held.length)), l.drop (8 * held.length)) else (held, l)

variable {held : List Byte} {l r : List Bool}

@[simp] theorem field_length (held : List Byte) (l : List Bool) : (field held l).1.length = held.length := by
  unfold field
  split
  · simp
    omega
  · rfl

/-- Of the bits `l` in the stream, `r` are unread. -/
structure Ahead (bs : BitStream) (l r : List Bool) : Prop where
  wf : Wf bs l
  rest : l.drop (l.length - r.length) = r
  le : r.length ≤ l.length
  readOffset : bs.readOffset = (l.length - r.length : Nat)

theorem Ahead.start {bs : BitStream} (h : Wf bs l) (hro : bs.readOffset = 0) : Ahead bs l l :=
  ⟨h, by rw [Nat.sub_self, List.drop_zero], Nat.le_refl _, by rw [hro, Nat.sub_self]; rfl⟩

variable {bs bs' : BitStream}

theorem Ahead.step {P : Access → Prop} (h : Ahead bs l r) (hr : Reads P bs bs') {k : Nat} (hk : k ≤ r.length)
    (hro : bs'.readOffset = (l.length - r.length + k : Nat)) : Ahead bs' l (r.drop k) := by
  have hle := h.le
  have hlen : l.length - (r.drop k).length = l.length - r.length + k := by
    rw [List.length_drop]
    omega
  refine ⟨h.wf.reads hr, ?_, ?_, by rw [hro, hlen]⟩
  · rw [hlen, ← List.drop_drop, h.rest]
  · rw [List.length_drop]
    omega

theorem Ahead.same {P : Access → Prop} (h : Ahead bs l r) (hr : Reads P bs bs') (hro : bs'.readOffset = bs.readOffset) :
    Ahead bs' l r := ⟨h.wf.reads hr, h.rest, h.le, hro.trans h.readOffset⟩

theorem readBits_field {n : Nat} (h : Ahead bs l r) (hn : l.length ≤ 8 * n) (var : List Byte)
    (hs : l.length + 8 * var.length + 7 < 2147483648) :
    ∃ bs', bs.readBits var (8 * var.length : Nat) true =
        (decide (0 < var.length ∧ 8 * var.length ≤ r.length), bs', (field var r).1) ∧
      Reads (Access.Within n) bs bs' ∧ Ahead bs' l (field var r).2 := by
  have hle := h.le
  unfold field
  by_cases h0 : var.length = 0
  · obtain rfl := List.length_eq_zero_iff.mp h0
    refine ⟨bs, by simp [readBits, pack], .refl bs, ?_⟩
    simpa using h
  · by_cases hr : 8 * var.length ≤ r.length
    · obtain ⟨bs', hb, hread, hro⟩ := readBits_ok h.wf.toView var true h.readOffset (k := 8 * var.length) (n := n)
        (by omega) (by omega) hn (by omega) (by omega)
      rw [if_pos hr]
      refine ⟨bs', ?_, hread, h.step hread hr hro⟩
      rw [hb, chunks_eq_pack h.wf.toView (by omega) (by omega) true, h.rest, List.drop_of_length_le (by omega),
        List.append_nil, decide_eq_true ⟨by omega, hr⟩]
    · rw [if_neg hr, decide_eq_false (by omega)]
      exact ⟨bs, readBits_short h.wf.toView var true h.readOffset (by omega) (by omega), .refl bs, h⟩

theorem read_field {n : Nat} (h : Ahead bs l r) (hn : l.length ≤ 8 * n) (var : List Byte) (h0 : 0 < var.length)
    (hs : l.length + 8 * var.length + 7 < 2147483648) :
    ∃ bs', bs.read var = (decide (8 * var.length ≤ r.length), bs', (field var r).1) ∧ Reads (Access.Within n) bs bs' ∧
      Ahead bs' l (field var r).2 := by
  obtain ⟨bs', hb, hread, ha⟩ := readBits_field h hn var hs
  refine ⟨bs', ?_, hread, ha⟩
  unfold read
  rw [show (8 * (var.length : Int)) = (8 * var.length : Nat) by omega, hb]
  simp [h0]

/-- The bytes that hold bits from a byte boundary on. -/
theorem bytes_eq_pack (h : View bs l) {q n : Nat} (hl : 8 * q + 8 * n ≤ l.length) :
    (bs.bytes.drop q).take n = pack ((l.drop (8 * q)).take (8 * n)) := by
  have hroom := h.holds.1
  apply buf_ext
  · simp
    omega
  · intro i hi
    simp only [List.length_take, List.length_drop] at hi
    rw [bit_take _ _ _ (by omega), bit_drop, h.bit_eq (by omega), bit_pack, getD_take, if_pos (by omega), getD_drop]

theorem memcpy_all {dst src : List Byte} (h : dst.length ≤ src.length) : memcpy dst src dst.length = src.take dst.length := by
  apply list_ext_byte
  · rw [memcpy_length, List.length_take_of_le h]
  · intro q
    rw [memcpy_getD]
    simp only [List.getD_eq_getElem?_getD, List.getElem?_take, and_self]
    by_cases hq : q < dst.length
    · rw [if_pos hq, if_pos hq]
    · rw [if_neg hq, if_neg hq, List.getElem?_eq_none (by omega)]

/-- `Read( char *, int )`, by `memcpy` or by `ReadBits`. -/
theorem readArray_field {n : Nat} (h : Ahead bs l r) (hn : l.length ≤ 8 * n) (output : List Byte)
    (hs : l.length + 8 * output.length + 7 < 2147483648) :
    ∃ ok bs', bs.readArray output output.length = (ok, bs', (field output r).1) ∧ Reads (Access.Within n) bs bs' ∧
      Ahead bs' l (field output r).2 := by
  have hle := h.le
  have hro := h.readOffset
  have hroom := h.wf.holds.1
  have hcount : i32 ((output.length : Int) * 8) = (8 * output.length : Nat) := by rw [i32_of] <;> omega
  unfold readArray bytesToBits
  rw [hcount]
  split
  · rename_i hm
    obtain ⟨q, hq⟩ : ∃ q, l.length - r.length = 8 * q := ⟨(l.length - r.length) / 8, by omega⟩
    rw [hq] at hro
    have hstart : (bs.readOffset / 8).toNat = q := by omega
    unfold field
    by_cases hr : 8 * output.length ≤ r.length
    · have hbytes : memcpy output (bs.bytes.drop q) output.length = pack (r.take (8 * output.length)) := by
        rw [memcpy_all (by rw [List.length_drop]; omega), bytes_eq_pack h.wf.toView (by omega), ← hq, h.rest]
      have hoff : i32 (bs.readOffset + (8 * output.length : Nat)) = (l.length - r.length + 8 * output.length : Nat) := by
        rw [hro, hq, i32_of] <;> omega
      have hread : ∀ o, Reads (Access.Within n) bs { (bs.touch ⟨.data, bs.readOffset / 8, bs.readOffset / 8 + output.length,
          bs.bytes.length⟩).touch ⟨.output, 0, output.length, output.length⟩ with readOffset := o } := by
        intro o
        refine .trans (.trans (.touch bs ⟨?_, ?_⟩) (.touch _ ⟨Int.le_refl _, ?_⟩)) (.seek _ _)
        · show 0 ≤ bs.readOffset / 8
          omega
        · show bs.readOffset / 8 + (output.length : Int) ≤ n
          omega
        · exact Int.le_refl _
      rw [if_pos hr, if_neg (by rw [h.wf.used, hro, i32_of] <;> omega)]
      simp only [hstart, hbytes]
      exact ⟨true, _, rfl, hread _, h.step (hread _) hr hoff⟩
    · rw [if_neg hr, if_pos (by rw [h.wf.used, hro, i32_of] <;> omega)]
      exact ⟨false, bs, rfl, .refl bs, h⟩
  · obtain ⟨bs', hb, hread, ha⟩ := readBits_field h hn output hs
    exact ⟨_, bs', hb, hread, ha⟩

end BitStream

end RakHook
