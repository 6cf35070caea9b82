/-
  RakHook.Lib.Compressed — a variable-length code for little-endian numbers of `n + 1`
  bytes. From the high byte down, each byte equal to `m` is one 1 bit; at the first that
  differs a 0 bit is followed by every byte left. When only the low byte is left, a 1 bit
  and its low half stand for it if its high half is that of `h`.
-/

import RakHook.Lib.Bits

namespace RakHook.Lib

def lowHalf (b : Byte) : List Bool := (bits [b]).drop 4

/-- The byte whose low half is `d` and whose high half is zero. -/
def ofLowHalf (d : List Bool) : Byte := byteAt d 0 >>> 4

variable (m h : Byte)

def encodeFrom : Nat → List Byte → List Bool
  | 0, b =>
    if b.getD 0 0 &&& 0xF0 = h then true :: lowHalf (b.getD 0 0) else false :: bits [b.getD 0 0]
  | n + 1, b =>
    if b.getD (n + 1) 0 = m then true :: encodeFrom n (b.take (n + 1)) else false :: bits (b.take (n + 2))

def decodeFrom : Nat → List Bool → Option (List Byte × List Bool)
  | _, [] => none
  | 0, true :: l => if 4 ≤ l.length then some ([ofLowHalf (l.take 4) ||| h], l.drop 4) else none
  | 0, false :: l => if 8 ≤ l.length then some (pack (l.take 8), l.drop 8) else none
  | n + 1, true :: l => (decodeFrom n l).map fun x => (x.1 ++ [m], x.2)
  | n + 1, false :: l =>
    if 8 * (n + 2) ≤ l.length then some (pack (l.take (8 * (n + 2))), l.drop (8 * (n + 2))) else none

theorem ofLowHalf_lowHalf (b : Byte) : ofLowHalf (lowHalf b) = b &&& 0x0F := by
  unfold ofLowHalf lowHalf
  rw [byteAt_drop]
  revert b; decide

theorem or_halves {b : Byte} (hb : b &&& 0xF0 = h) : (b &&& 0x0F) ||| h = b := by
  subst hb
  revert b; decide

/-- What is decoded has `n + 1` bytes, and the rest is a suffix of the input. -/
theorem decodeFrom_some {n : Nat} {l : List Bool} {b : List Byte} {r : List Bool}
    (hd : decodeFrom m h n l = some (b, r)) : b.length = n + 1 ∧
      ∃ w ≤ 9 * (n + 1), l.drop w = r ∧ w + r.length = l.length := by
  induction n generalizing l b r with
  | zero =>
    match l with
    | [] => simp [decodeFrom] at hd
    | true :: l =>
      simp only [decodeFrom] at hd
      split at hd
      · cases hd; exact ⟨rfl, 5, by omega, rfl, by simp; omega⟩
      · cases hd
    | false :: l =>
      simp only [decodeFrom] at hd
      split at hd
      · cases hd; exact ⟨by simp; omega, 9, by omega, rfl, by simp; omega⟩
      · cases hd
  | succ n ih =>
    match l with
    | [] => simp [decodeFrom] at hd
    | true :: l =>
      simp only [decodeFrom, Option.map_eq_some_iff] at hd
      obtain ⟨⟨b', r'⟩, hd', he⟩ := hd
      cases he
      obtain ⟨hl, w, hw, hr, hs⟩ := ih hd'
      exact ⟨by simp [hl], w + 1, by omega, by simpa using hr, by simp; omega⟩
    | false :: l =>
      simp only [decodeFrom] at hd
      split at hd
      · cases hd; exact ⟨by simp; omega, 8 * (n + 2) + 1, by omega, by simp, by simp; omega⟩
      · cases hd

/-- Decoding undoes encoding, whatever follows. -/
theorem decodeFrom_encodeFrom {n : Nat} {b : List Byte} (hb : b.length = n + 1) (r : List Bool) :
    decodeFrom m h n (encodeFrom m h n b ++ r) = some (b, r) := by
  induction n generalizing b with
  | zero =>
    obtain ⟨x, rfl⟩ := List.length_eq_one_iff.mp hb
    unfold encodeFrom
    by_cases hx : x &&& 0xF0 = h
    · have hl : (lowHalf x).length = 4 := by simp [lowHalf]
      simp only [List.getD_cons_zero, hx, if_true, List.cons_append, decodeFrom]
      rw [if_pos (by simp [hl]), List.take_append_of_le_length (by omega), List.drop_append_of_le_length (by omega),
        List.take_of_length_le (by omega), List.drop_of_length_le (by omega), ofLowHalf_lowHalf, or_halves h hx]
      rfl
    · have hl : (bits [x]).length = 8 := by simp
      simp only [List.getD_cons_zero, hx, if_false, List.cons_append, decodeFrom]
      rw [if_pos (by simp), List.take_append_of_le_length (by omega), List.drop_append_of_le_length (by omega),
        List.take_of_length_le (by omega), List.drop_of_length_le (by omega), pack_bits]
      rfl
  | succ n ih =>
    unfold encodeFrom
    by_cases hx : b.getD (n + 1) 0 = m
    · have hlen : (b.take (n + 1)).length = n + 1 := by simp; omega
      simp only [hx, if_true, List.cons_append, decodeFrom, ih hlen, Option.map_some]
      have hlast : b.drop (n + 1) = [m] := by
        rw [List.drop_eq_getElem_cons (by omega), List.drop_of_length_le (by omega)]
        congr 1
        simpa [List.getD, show n + 1 < b.length by omega] using hx
      rw [← hlast, List.take_append_drop]
    · have hl : (bits (b.take (n + 2))).length = 8 * (n + 2) := by simp; omega
      simp only [hx, if_false, List.cons_append, decodeFrom]
      rw [if_pos (by simp; omega), List.take_append_of_le_length (by omega), List.drop_append_of_le_length (by omega),
        List.take_of_length_le (by omega), List.drop_of_length_le (by omega), pack_bits,
          List.take_of_length_le (by omega)]
      rfl

theorem encodeFrom_length {n : Nat} {b : List Byte} (hb : b.length = n + 1) :
    (encodeFrom m h n b).length ≤ 9 * (n + 1) := by
  have hd := decodeFrom_encodeFrom m h hb []
  obtain ⟨-, w, hw, -, hs⟩ := decodeFrom_some m h hd
  simp at hs; omega

end RakHook.Lib
