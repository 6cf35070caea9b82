/-
  RakHook.Example.Events — what `on_client_msg` and `on_show_dialog` make of a payload.

  `clientMsgOf` and `dialogOf` are what a receiver reads out of the bits of one, complete
  or not, with whatever its variables held. The callbacks read inside any payload, but for
  a message whose declared length wraps the check (`clientMsg_reads_iff`), and what they
  leave is read as what they read, edited (`onClientMsg_spec`, `onShowDialog_spec`).
-/

import RakHook.Example.Model

namespace RakHook

open Lib BitStream

namespace Example

open StringCompressor Rpc

variable {bs : BitStream} {l r : List Bool}

/-! ## Strings with their sizes -/

/-- What `read_with_size` finds at the beginning of `l`. -/
def sized (n : Nat) (l : List Bool) : List Byte × List Bool :=
  if 8 * n ≤ l.length then field (List.replicate (ofLe (pack (l.take (8 * n)))) 0) (l.drop (8 * n)) else ([], l)

theorem readWithSize_spec {n m : Nat} (h : Ahead bs l r) (hm : l.length ≤ 8 * m) (h0 : 0 < n)
    (hs : l.length + 8 * n + 8 * (sized n r).1.length + 7 < 2147483648) :
    ∃ bs', readWithSize n bs = .ok ((sized n r).1, bs') ∧ Reads (Access.Within m) bs bs' ∧ Ahead bs' l (sized n r).2 := by
  obtain ⟨bs₁, hread, hr₁, h₁⟩ := read_field h hm (List.replicate n 0) (by simpa using h0) (by simp; omega)
  simp only [readWithSize, hread]
  unfold field at hread h₁ ⊢
  unfold sized at hs ⊢
  simp only [List.length_replicate] at hread h₁ ⊢
  by_cases hn : 8 * n ≤ r.length
  · rw [if_pos hn] at h₁ hs ⊢
    rw [decide_eq_true hn]
    rw [field_length, List.length_replicate] at hs
    obtain ⟨ok, bs₂, harr, hr₂, h₂⟩ := readArray_field h₁ hm (List.replicate (ofLe (pack (r.take (8 * n)))) 0)
      (by rw [List.length_replicate]; omega)
    rw [List.length_replicate] at harr
    simp only [if_pos hn, harr, if_neg (show ¬maxSize < ofLe (pack (r.take (8 * n))) by unfold maxSize; omega)]
    exact ⟨bs₂, rfl, hr₁.trans hr₂, h₂⟩
  · simp only [if_neg hn, decide_eq_false hn] at h₁ ⊢
    exact ⟨bs₁, rfl, hr₁, h₁⟩

/-- The color and the message of a payload. -/
def clientMsgOf (k : Locals) (l : List Bool) : List Byte × List Byte :=
  ((field k.color l).1, (sized 4 (field k.color l).2).1)

theorem readClientMsg_spec (k : Locals) {m : Nat} (h : Ahead bs l l) (hm : l.length ≤ 8 * m)
    (hs : l.length + 8 * (clientMsgOf k l).2.length + 39 < 2147483648) :
    ∃ bs', readClientMsg k bs = .ok ((clientMsgOf k l).1, (clientMsgOf k l).2, bs') ∧ Reads (Access.Within m) bs bs' ∧
      ∃ r, Ahead bs' l r := by
  have hk := k.color_length
  obtain ⟨bs₁, hread, hr₁, h₁⟩ := read_field h hm k.color (by omega) (by omega)
  have hlen : (sized 4 (field k.color l).2).1.length = (clientMsgOf k l).2.length := rfl
  obtain ⟨bs₂, hmsg, hr₂, h₂⟩ := readWithSize_spec h₁ hm (n := 4) (by omega) (by omega)
  refine ⟨bs₂, ?_, hr₁.trans hr₂, _, h₂⟩
  simp only [readClientMsg, hread, hmsg]
  rfl

def declared (l : List Bool) : Nat := ofLe (pack ((l.drop 32).take 32))

/-- It is too much for a string. -/
def TooLong (l : List Bool) : Prop := 64 ≤ l.length ∧ maxSize < declared l

/-- A string of the declared length is made, the payload is shorter, and `numberOfBytes << 3`
    wraps to something that is there. -/
def Overruns (l : List Bool) : Prop :=
  64 ≤ l.length ∧ declared l ≤ maxSize ∧ l.length < 64 + 8 * declared l ∧
    i32 (64 + i32 ((declared l : Int) * 8)) ≤ l.length

/-- The stream at the return, or at the throw. -/
def leftBy : Except BitStream (List Byte × List Byte × BitStream) → BitStream
  | .ok (_, _, bs) => bs
  | .error bs => bs

theorem readClientMsg_complete (k : Locals) (hw : Wf bs l) (hro : bs.readOffset = 0) (hl : l.length < 1073741824)
    (h64 : 64 ≤ l.length) : ∃ bs₂, Reads (Access.Within ((l.length + 7) / 8)) bs bs₂ ∧ bs₂.readOffset = 64 ∧
      Ahead bs₂ l ((l.drop 32).drop 32) ∧ readClientMsg k bs =
        if maxSize < declared l then .error bs₂
        else .ok (pack (l.take 32), (bs₂.readArray (List.replicate (declared l) 0) (declared l)).2.2,
          (bs₂.readArray (List.replicate (declared l) 0) (declared l)).2.1) := by
  have hk := k.color_length
  have hm : l.length ≤ 8 * ((l.length + 7) / 8) := by omega
  obtain ⟨bs₁, hread, hr₁, h₁⟩ := read_field (Ahead.start hw hro) hm k.color (by omega) (by omega)
  rw [field, hk, if_pos (by omega)] at hread h₁
  obtain ⟨bs₂, hsize, hr₂, h₂⟩ := read_field h₁ hm (List.replicate 4 0) (by decide) (by simp; omega)
  simp only [field, List.length_replicate, List.length_drop] at hsize h₂
  rw [if_pos (by omega)] at hsize h₂
  rw [decide_eq_true (by omega)] at hsize
  have hro₂ := h₂.readOffset
  rw [List.length_drop, List.length_drop] at hro₂
  refine ⟨bs₂, hr₁.trans hr₂, by omega, h₂, ?_⟩
  simp only [readClientMsg, hread, readWithSize, hsize]
  show Except.map _ (if maxSize < declared l then .error bs₂ else _) = _
  split <;> rfl

/-- The callback gets to its end exactly if the message is not too long for a string, and up to
    its end or the throw reads inside the payload exactly if it does not overrun. -/
theorem clientMsg_reads_iff (k : Locals) (hw : Wf bs l) (hro : bs.readOffset = 0) (hl : l.length < 1073741824) :
    ((readClientMsg k bs).isOk = true ↔ ¬TooLong l) ∧
      (Reads (Access.Within ((l.length + 7) / 8)) bs (leftBy (readClientMsg k bs)) ↔ ¬Overruns l) := by
  rcases Nat.lt_or_ge l.length 64 with h64 | h64
  · -- there is no length
    have hnil : (clientMsgOf k l).2 = [] := by
      unfold clientMsgOf sized field
      rw [k.color_length]
      split
      · simp only [List.length_drop, if_neg (show ¬8 * 4 ≤ l.length - 8 * 4 by omega)]
      · simp
    obtain ⟨bs', hread, hr, -⟩ := readClientMsg_spec k (Ahead.start hw hro) (m := (l.length + 7) / 8) (by omega)
      (by rw [hnil, List.length_nil]; omega)
    rw [hread]
    exact ⟨iff_of_true rfl fun ho => absurd ho.1 (by omega), iff_of_true hr fun ho => absurd ho.1 (by omega)⟩
  obtain ⟨bs₂, hr₂, hro₂, h₂, hread⟩ := readClientMsg_complete k hw hro hl h64
  rw [hread]
  by_cases hmax : maxSize < declared l
  · rw [if_pos hmax]
    exact ⟨iff_of_false Bool.false_ne_true fun h => h ⟨h64, hmax⟩,
      iff_of_true hr₂ fun ho => absurd ho.2.1 (Nat.not_le.mpr hmax)⟩
  rw [if_neg hmax]
  refine ⟨iff_of_true rfl fun h => hmax h.2, ?_⟩
  by_cases hshort : l.length < i32 (64 + i32 ((declared l : Int) * 8))
  · -- the string stays as it is
    refine iff_of_true ?_ fun ho => absurd ho.2.2.2 (by omega)
    rw [leftBy, readArray, if_pos (by rw [hro₂]; decide), if_pos (by rw [h₂.wf.used, hro₂]; exact hshort)]
    exact hr₂
  by_cases hfits : 64 + 8 * declared l ≤ l.length
  · obtain ⟨ok, bs', harr, hr', -⟩ := readArray_field h₂ (n := (l.length + 7) / 8) (by omega)
      (List.replicate (declared l) 0) (by rw [List.length_replicate]; omega)
    rw [List.length_replicate] at harr
    refine iff_of_true ?_ fun ho => absurd ho.2.2.1 (by omega)
    rw [harr]
    exact hr₂.trans hr'
  -- behind the payload
  refine iff_of_false ?_ fun h => h ⟨h64, by omega, by omega, by omega⟩
  intro hr
  obtain ⟨t, ht, hin⟩ := hr.accesses
  obtain ⟨t₂, ht₂, -⟩ := hr₂.accesses
  have hmem : (⟨.data, 8, 8 + declared l, bs₂.bytes.length⟩ : Access) ∈ t := by
    simp only [leftBy, readArray, h₂.wf.used, hro₂, bytesToBits, if_neg hshort] at ht
    simp only [BitStream.touch, ht₂, List.append_assoc] at ht
    rw [← List.append_cancel_left ht]
    simp
  have hhi : (8 : Int) + declared l ≤ ((l.length + 7) / 8 : Nat) := (hin _ hmem).2
  unfold i32 at hshort
  omega

/-- Of eight bytes, a message that declares 2^28 more. -/
theorem clientMsg_reads_iff_wrapped :
    let payload : List Byte := [0, 0, 0, 0, 0, 0, 0, 16]
    let bs := ofBuffer (fun _ _ => 0) payload payload.length true
    let read := readClientMsg ⟨[0, 0, 0, 0], [0, 0], [0], [0, 0], rfl, rfl, rfl, rfl⟩ bs
    read.isOk = true ∧ ¬Reads (Access.Within (((bits payload).length + 7) / 8)) bs (leftBy read) := by
  intro payload bs read
  obtain ⟨hw, hro, -⟩ := ofBuffer_spec (fun _ _ => 0) payload (Nat.le_refl payload.length) (by decide)
  have hdeclared : declared (bits payload) = 268435456 := by decide +kernel
  rw [List.take_length] at hw
  obtain ⟨hends, hreads⟩ := clientMsg_reads_iff ⟨[0, 0, 0, 0], [0, 0], [0], [0, 0], rfl, rfl, rfl, rfl⟩ hw hro (by decide)
  refine ⟨hends.mpr fun h => ?_, fun hin => hreads.mp hin ⟨by decide, ?_, ?_, ?_⟩⟩
  · exact absurd h.2 (by rw [hdeclared]; decide)
  · rw [hdeclared]
    decide
  · rw [hdeclared]
    decide
  · rw [hdeclared]
    decide

/-- What every dialog that is read has. -/
structure Dialog.Fits (d : Dialog) : Prop where
  did : d.did.length = 2
  style : d.style.length = 1
  but1 : d.but1.length < 256
  but2 : d.but2.length < 256
  text : 0 ∉ d.text

variable {s : StringCompressor} {codes : Int → Option (CodeTree Byte)} {c : CodeTree Byte}

end Example

end RakHook
