/-
  RakHook.Compressor.Exchange — a string from one compressor to another.

  Two compressors that have learnt the same code understand each other, whatever else was
  asked of them before: the string comes out as far as it was written and there is room
  for it, and the stream is left behind it (`string_arrives`). Only the low 16 bits of the
  bit count are sent, so of a string whose words have 65536 bits or more only those that
  fit into the remainder come out (`survivors`).
-/

import RakHook.Compressor.Lifetime

namespace RakHook

open Lib BitStream HuffmanEncodingTree

namespace StringCompressor

variable {g : Junk} {junk : HuffmanEncodingTreeNode} {s s₁ s₂ : StringCompressor}
  {codes codes₁ codes₂ : Int → Option (CodeTree Byte)} {lang lang₁ lang₂ : Int} {c : CodeTree Byte} {l : List Bool}

theorem encodeString_spec (g : Junk) (h : Sound s codes) (hc : codes lang = some c) {chars : List Byte} (hz : 0 ∉ chars)
    (hlt : chars.length < 4194304) (rest : List Byte) (maxCharsToWrite : Int) {output : BitStream} (hw : Wf output l)
    (hs : 2 * (l.length + 65554) + 7 < 2147483648) :
    ∃ t out s' tail, encodeString g s (some (chars ++ 0 :: rest)) maxCharsToWrite output lang = some (out, s') ∧ Sound s' codes ∧
      Holds t c ∧ Piece c tail ∧
      (encoded c (written maxCharsToWrite chars) ++ tail).length = paddedBits c (written maxCharsToWrite chars) ∧
      Wf out (l ++ (encodeLength (paddedBits c (written maxCharsToWrite chars)) ++
        (encoded c (written maxCharsToWrite chars) ++ tail).take (paddedBits c (written maxCharsToWrite chars) % 65536))) ∧
      Writes output out := by
  obtain ⟨s', hs', ⟨p, t, c', ht, hh, he, heq⟩ | ⟨hn, -⟩⟩ := withTree_eq h lang output
    fun p => encodeWith g s.trees p (some (chars ++ 0 :: rest)) maxCharsToWrite output
  · obtain rfl : c' = c := Option.some.inj (he.symm.trans hc)
    have hle := encoded_length_le hh (written maxCharsToWrite chars)
    have hwl : (written maxCharsToWrite chars).length ≤ chars.length := List.length_take_le' ..
    obtain ⟨out, tail, henc, htail, hlen, hwf, hwr⟩ := encodeWith_spec g ht hh hz rest maxCharsToWrite hw (by omega) hs
    exact ⟨t, out, s', tail, by rw [encodeString, heq, henc]; rfl, hs', hh, htail, hlen, hwf, hwr⟩
  · rw [hn] at hc
    cases hc

/-- `DecodeString` for a known language, with any room at all: it comes back unless it finds a
    string and has no room for the terminator. -/
theorem decodeString_spec (h : Sound s codes) (hc : codes lang = some c) {input : BitStream} (hv : View input l) {ro n m : Nat}
    (hro : input.readOffset = ro) (hle : ro ≤ l.length) (hsm : ro + 18 < 2147483648) (hn : l.length ≤ 8 * n)
    (output : List Byte) {stack : List Byte} (hstack : stack.length = 2) (hm : 0 < m) (hm31 : m < 2147483648)
    (hout : m ≤ output.length) :
    ∃ ok out bs' s', decodeString s output m input lang stack = some ((ok, out, bs'), s') ∧ Sound s' codes ∧
      Reads (Access.Within n) input bs' ∧ out.length = output.length ∧
      (received c (l.drop ro) = none → ok = false ∧ out = output.set 0 0) ∧
      ∀ chars r, received c (l.drop ro) = some (chars, r) →
        ok = true ∧ Terminated (chars.take (m - 1)) out ∧ bs'.readOffset = (l.length - r.length : Nat) := by
  obtain ⟨s', hs', ⟨p, t, c', ht, hh, he, heq⟩ | ⟨hn, -⟩⟩ := withTree_eq h lang (false, output, input)
    fun p => decodeWith s.trees p output m input stack
  · obtain rfl : c' = c := Option.some.inj (he.symm.trans hc)
    obtain ⟨ok, out, bs', hd, hr, hlen, hnone, hsome⟩ := decodeWith_spec ht hh hv hro hle hsm hn output hstack hm hm31 hout
    exact ⟨ok, out, bs', s', by rw [decodeString, heq, hd]; rfl, hs', hr, hlen, hnone, hsome⟩
  · rw [hn] at hc
    cases hc

theorem decode_encode (g : Junk) (h₁ : Sound s₁ codes₁) (hc₁ : codes₁ lang₁ = some c) (h₂ : Sound s₂ codes₂)
    (hc₂ : codes₂ lang₂ = some c)
    {chars : List Byte} (hz : 0 ∉ chars) (hlt : chars.length < 4194304) (rest : List Byte) (maxCharsToWrite : Int)
    {output : BitStream} (hw : Wf output l) (hs : 2 * (l.length + 65554) + 7 < 2147483648) :
    ∃ w out s₁', encodeString g s₁ (some (chars ++ 0 :: rest)) maxCharsToWrite output lang₁ = some (out, s₁') ∧
      Wf out (l ++ w) ∧ Writes output out ∧
      ∀ {input : BitStream} {behind : List Bool}, View input (l ++ w ++ behind) → input.readOffset = l.length →
        ∀ {array stack : List Byte} {m : Nat}, stack.length = 2 → 0 < m → m < 2147483648 → m ≤ array.length →
          ∃ array' input' s₂', decodeString s₂ array m input lang₂ stack = some ((true, array', input'), s₂') ∧
            array'.length = array.length ∧ Terminated ((survivors c (written maxCharsToWrite chars)).take (m - 1)) array' ∧
            input'.readOffset = ((l ++ w).length : Nat) := by
  obtain ⟨t, out, s₁', tail, henc, -, hh, htail, hlen, hwf, hwr⟩ := encodeString_spec g h₁ hc₁ hz hlt rest
    maxCharsToWrite hw hs
  refine ⟨_, out, s₁', henc, hwf, hwr, ?_⟩
  intro input behind hv hro array stack m hstack hm hm31 hout
  obtain ⟨ok, array', input', s₂', hdec, -, -, hal, -, hsome⟩ := decodeString_spec h₂ hc₂ hv hro (by simp) (by omega)
    (Nat.le_mul_of_pos_left _ (by omega)) array hstack hm hm31 hout
  have hrec := received_written hh (written maxCharsToWrite chars) htail hlen behind
  rw [List.append_assoc, List.drop_left] at hsome
  obtain ⟨rfl, hterm, hro'⟩ := hsome _ _ hrec
  refine ⟨array', input', s₂', hdec, hal, hterm, ?_⟩
  rw [hro']
  simp only [List.length_append]
  congr 1
  omega

/-! ## Any history -/

/-- A compressor that was constructed and went through calls that are all right. -/
structure Lived (g : Junk) (junk : HuffmanEncodingTreeNode) (cs : List Call) (s : StringCompressor) : Prop where
  wellFormed : ∀ k ∈ cs, k.WellFormed
  admitted : Admitted [0] cs
  run : (new g junk >>= cs.foldlM (call g junk)) = some s

theorem Lived.sound {cs : List Call} (h : Lived g junk cs s) : Sound s (cs.foldl learn english) := by
  obtain ⟨s₀, hnew, h₀, hk⟩ := new_knows g junk
  obtain ⟨s', hrun, h'⟩ := (run_lifetime g junk cs h₀ hk h.wellFormed).1 h.admitted
  have hs := h.run
  rw [hnew] at hs
  obtain rfl : s' = s := Option.some.inj (hrun.symm.trans hs)
  exact h'

/-- What one compressor encodes another decodes, after any history of both in which they have
    learnt the same code. -/
theorem string_arrives (g : Junk) {g₁ g₂ : Junk} {junk₁ junk₂ : HuffmanEncodingTreeNode} {cs₁ cs₂ : List Call}
    (h₁ : Lived g₁ junk₁ cs₁ s₁) (h₂ : Lived g₂ junk₂ cs₂ s₂)
    (hc₁ : cs₁.foldl learn english lang₁ = some c) (hc₂ : cs₂.foldl learn english lang₂ = some c)
    {chars : List Byte} (hz : 0 ∉ chars) (hlt : chars.length < 4194304) (rest : List Byte) (maxCharsToWrite : Int)
    {output : BitStream} (hw : Wf output l) (hs : 2 * (l.length + 65554) + 7 < 2147483648) :
    ∃ w out s₁', encodeString g s₁ (some (chars ++ 0 :: rest)) maxCharsToWrite output lang₁ = some (out, s₁') ∧
      Wf out (l ++ w) ∧ out.readOffset = output.readOffset ∧
      ∀ {input : BitStream} {behind : List Bool}, View input (l ++ w ++ behind) → input.readOffset = l.length →
        ∀ {array stack : List Byte} {m : Nat}, stack.length = 2 → 0 < m → m < 2147483648 → m ≤ array.length →
          ∃ array' input' s₂', decodeString s₂ array m input lang₂ stack = some ((true, array', input'), s₂') ∧
            array'.length = array.length ∧ Terminated ((survivors c (written maxCharsToWrite chars)).take (m - 1)) array' ∧
            input'.readOffset = ((l ++ w).length : Nat) := by
  obtain ⟨w, out, s₁', henc, hwf, hwr, hdec⟩ := decode_encode g h₁.sound hc₁ h₂.sound hc₂ hz hlt rest
    maxCharsToWrite hw hs
  exact ⟨w, out, s₁', henc, hwf, hwr.readOffset, hdec⟩

theorem Sound.holds (h : Sound s codes) (hc : codes lang = some c) : ∃ t, Holds t c := by
  obtain ⟨-, -, ⟨-, t, c', -, hh, he, -⟩ | ⟨hn, -⟩⟩ := withTree_eq h lang () fun _ => some ()
  · obtain rfl : c' = c := Option.some.inj (he.symm.trans hc)
    exact ⟨t, hh⟩
  · rw [hn] at hc
    cases hc

/-- A word has less than 256 bits, so this many always get through. -/
theorem survivors_short (h : Sound s codes) (hc : codes lang = some c) {chars : List Byte} (hlen : chars.length ≤ 256) :
    survivors c chars = chars := by
  obtain ⟨t, hh⟩ := h.holds hc
  have hle := encoded_length_le hh chars
  refine survivors_all ?_
  unfold paddedBits
  omega

/-- A new compressor and an empty stream: "hi" is received by another one. -/
theorem string_arrives_hi : ∃ s out s' array input' s'', Lived (fun _ _ => 0) ⟨0, 0, none, none, none⟩ [] s ∧
    encodeString (fun _ _ => 0) s (some [104, 105, 0]) 0 (.empty fun _ _ => 0) 0 = some (out, s') ∧
    decodeString s [1, 1, 1, 1] 4 out 0 [0, 0] = some ((true, array, input'), s'') ∧ array.take 3 = [104, 105, 0] := by
  obtain ⟨s, hnew, -, hk⟩ := new_knows (fun _ _ => 0) ⟨0, 0, none, none, none⟩
  obtain ⟨c, hc⟩ := Option.isSome_iff_exists.mp ((hk 0).mpr (List.mem_singleton_self 0))
  have hl : Lived (fun _ _ => 0) ⟨0, 0, none, none, none⟩ [] s := ⟨nofun, trivial, by rw [hnew]; rfl⟩
  have hc' : ([] : List Call).foldl learn english 0 = some c := by rw [List.foldl_nil, hc]
  have hz : (0 : Byte) ∉ ([104, 105] : List Byte) := by decide
  obtain ⟨w, out, s', henc, hw, hro, hdec⟩ := string_arrives (fun _ _ => 0) hl hl hc' hc' hz (by decide) [] 0
    (empty_wf fun _ _ => 0) (by simp)
  have hv : View out ([] ++ w ++ []) := by rw [List.append_nil]; exact hw.toView
  have hroom : 4 ≤ ([1, 1, 1, 1] : List Byte).length := Nat.le_refl 4
  have hstack : ([0, 0] : List Byte).length = 2 := rfl
  obtain ⟨array, input', s'', hd, -, hterm, -⟩ := hdec hv hro hstack (by decide) (by decide) hroom
  rw [show written 0 [104, 105] = [104, 105] from rfl, survivors_short hl.sound hc' (by decide)] at hterm
  obtain ⟨rest, harray⟩ := hterm
  exact ⟨s, out, s', array, input', s'', hl, henc, hd, by rw [harray]; rfl⟩

/-- Without room for the terminator a string that is there is written in front of the array or
    behind it. -/
theorem decodeWith_noRoom {trees : Heap HuffmanEncodingTree} {p : Nat} {t : HuffmanEncodingTree} (ht : trees.get p = some t)
    {input : BitStream} (hv : View input l) {ro : Nat} (hro : input.readOffset = ro) (hle : ro ≤ l.length)
    (hsm : ro + 18 < 2147483648) {output stack : List Byte} (hstack : stack.length = 2) (hout : 0 < output.length) {max : Int}
    (hm : max ≤ 0) (c : CodeTree Byte) : (decodeWith trees p output max input stack).isSome ↔ received c (l.drop ro) = none := by
  obtain ⟨ok, bs₁, length, hread, hr₁, hnone, hsome⟩ := readLength_spec hv hro hsm (n := l.length) (by omega) hstack
  have hfirst : storeAt output 0 0 = some (output.set 0 0) := by
    rw [storeAt, if_pos ⟨by omega, by omega⟩]
    rfl
  simp only [decodeWith, hfirst, hread, Option.bind_eq_bind, Option.bind_some, Option.pure_def]
  rcases hd : decodeLength (l.drop ro) with _ | ⟨k, r⟩
  · rw [hnone hd, received, hd]
    simp
  · obtain ⟨rfl, hk, hro₁⟩ := hsome k r hd
    obtain ⟨-, w, -, -, hwl⟩ := decodeLength_some hd
    have hsmall := hv.small
    rw [List.length_drop] at hwl
    have hunread : bs₁.getNumberOfUnreadBits = r.length := by
      unfold getNumberOfUnreadBits
      rw [hr₁.used, hv.used, hro₁, i32_of] <;> omega
    have hrec : received c (l.drop ro) = if r.length < k then none else some (c.decode (r.take k), r.drop k) := by
      rw [received, hd]
      rfl
    rw [hrec]
    simp only [if_true, hk, hunread]
    by_cases hshort : r.length < k
    · rw [if_pos hshort, if_pos (by omega)]
      simp
    · rw [if_neg hshort, if_neg (by omega), ht, Option.bind_some]
      have hend : ∀ (n : Nat) (array : List Byte),
          storeAt array (if (n : Int) < max then (n : Int) else max - 1) 0 = none := by
        intro n array
        rw [if_neg (by omega), storeAt, if_neg (by omega)]
      cases hdec : t.decodeArray bs₁ k (u32 max).toNat (output.set 0 0) with
      | none => simp
      | some x =>
        rw [Option.bind_some, hend]
        simp

/-- `DecodeString` after any history: an array with room for the terminator is enough, and
    needed as soon as a string is there. -/
theorem decodeString_iff {cs : List Call} (h : Lived g junk cs s) (hc : cs.foldl learn english lang = some c)
    {input : BitStream} (hv : View input l) (h0 : 0 ≤ input.readOffset) (hle : input.readOffset ≤ l.length)
    (hsm : l.length + 18 < 2147483648) {output stack : List Byte} (hstack : stack.length = 2) (hout : 0 < output.length)
    {max : Int} (hm : max ≤ output.length) (hm31 : max < 2147483648) :
    (decodeString s output max input lang stack).isSome ↔ 0 < max ∨ received c (l.drop input.readOffset.toNat) = none := by
  obtain ⟨ro, hro⟩ := Int.eq_ofNat_of_zero_le h0
  rw [hro, Int.toNat_natCast]
  by_cases hpos : 0 < max
  · obtain ⟨m, rfl⟩ := Int.eq_ofNat_of_zero_le hpos.le
    obtain ⟨ok, out, bs', s', hd, -⟩ := decodeString_spec h.sound hc hv hro (by omega) (by omega) (n := l.length) (by omega)
      output hstack (m := m) (by omega) (by omega) (by omega)
    rw [hd]
    exact iff_of_true rfl (.inl hpos)
  · obtain ⟨s', hs', ⟨p, t, c', ht, hh, he, heq⟩ | ⟨hn, -⟩⟩ := withTree_eq h.sound lang (false, output, input)
      fun p => decodeWith s.trees p output max input stack
    · obtain rfl : c' = c := Option.some.inj (he.symm.trans hc)
      rw [decodeString, heq, Option.isSome_map,
        decodeWith_noRoom ht hv hro (by omega) (by omega) hstack hout (not_lt.mp hpos) c']
      simp [hpos]
    · rw [hn] at hc
      cases hc

/-- "hi" is there: it is decoded into an array of four, and with no room said to be there
    `DecodeString` leaves the same array. -/
theorem decodeString_iff_hi : ∃ s out s', Lived (fun _ _ => 0) ⟨0, 0, none, none, none⟩ [] s ∧
    encodeString (fun _ _ => 0) s (some [104, 105, 0]) 0 (.empty fun _ _ => 0) 0 = some (out, s') ∧
    (decodeString s [1, 1, 1, 1] 4 out 0 [0, 0]).isSome ∧ ¬(decodeString s [1, 1, 1, 1] 0 out 0 [0, 0]).isSome := by
  obtain ⟨s, hnew, -, hk⟩ := new_knows (fun _ _ => 0) ⟨0, 0, none, none, none⟩
  obtain ⟨c, hc⟩ := Option.isSome_iff_exists.mp ((hk 0).mpr (List.mem_singleton_self 0))
  have hl : Lived (fun _ _ => 0) ⟨0, 0, none, none, none⟩ [] s := ⟨nofun, trivial, by rw [hnew]; rfl⟩
  have hc' : ([] : List Call).foldl learn english 0 = some c := by rw [List.foldl_nil, hc]
  have hz : (0 : Byte) ∉ ([104, 105] : List Byte) := by decide
  obtain ⟨t, out, s', tail, henc, -, hh, htail, hlen, hw, hwr⟩ :=
    encodeString_spec (fun _ _ => 0) hl.sound hc' hz (by decide) [] 0 (empty_wf fun _ _ => 0) (by simp)
  have hstack : ([0, 0] : List Byte).length = 2 := rfl
  have hout : 0 < ([1, 1, 1, 1] : List Byte).length := by decide
  have hro : out.readOffset = 0 := hwr.readOffset
  have hrec := received_written hh (written 0 [104, 105]) htail hlen []
  have hel := encodeLength_length (paddedBits c (written 0 [104, 105]))
  rw [List.append_nil] at hrec
  rw [List.nil_append] at hw
  generalize paddedBits c (written 0 [104, 105]) = n at hw hrec hel
  have hiff : ∀ max : Int, max ≤ 4 → ((decodeString s [1, 1, 1, 1] max out 0 [0, 0]).isSome ↔ 0 < max ∨ _) := fun max hm =>
    decodeString_iff hl hc' hw.toView hro.ge (by rw [hro]; omega) (by rw [List.length_append, List.length_take]; omega) hstack
      hout hm (by omega)
  refine ⟨s, out, s', hl, henc, (hiff 4 le_rfl).mpr (.inl (by decide)), ?_⟩
  rw [hiff 0 (by decide), hro, Int.toNat_zero, List.drop_zero, hrec]
  simp

end StringCompressor

end RakHook
