/-
  RakHook.Compressor.Text — what `EncodeString` writes and `DecodeString` makes of it.

  A string goes out as the number of bits of its words, padded to whole bytes, in 16 bits
  of `WriteCompressed`, and then as many bits (`encodeWith_spec`). `DecodeString` answers
  for any stream at all: it reads inside the stream, and whatever it finds, the output is
  a terminated string inside its array (`decodeWith_spec`).
-/

import RakHook.Compressor.Model

namespace RakHook

open Lib BitStream HuffmanEncodingTree

namespace StringCompressor

/-! ## The number of bits -/

theorem ofLe16_le16 (c : BitVec 16) : ofLe16 (le16 c) = c := by
  simp only [ofLe16, le16, List.getD_cons_zero, List.getD_cons_succ]
  apply BitVec.eq_of_getLsbD_eq
  intro i hi
  simp only [BitVec.getLsbD_append, BitVec.getLsbD_extractLsb']
  by_cases h0 : i < 8
  · simp [h0]
  · simp [h0, show i - 8 < 8 by omega, show 8 + (i - 8) = i by omega]

def encodeLength (n : Nat) : List Bool := encodeFrom 0 0 1 (le16 (BitVec.ofNat 16 n))

def decodeLength (l : List Bool) : Option (Nat × List Bool) :=
  (decodeFrom 0 0 1 l).map fun x => ((ofLe16 x.1).toNat, x.2)

theorem encodeLength_length (n : Nat) : (encodeLength n).length ≤ 18 := encodeFrom_length 0 0 rfl

theorem decodeLength_encodeLength (n : Nat) (r : List Bool) :
    decodeLength (encodeLength n ++ r) = some (n % 65536, r) := by
  unfold decodeLength encodeLength
  rw [decodeFrom_encodeFrom 0 0 rfl, Option.map_some, ofLe16_le16, BitVec.toNat_ofNat]

theorem decodeLength_some {l r : List Bool} {n : Nat} (h : decodeLength l = some (n, r)) :
    n < 65536 ∧ ∃ w ≤ 18, l.drop w = r ∧ w + r.length = l.length := by
  unfold decodeLength at h
  obtain ⟨⟨b, r'⟩, hd, he⟩ := Option.map_eq_some_iff.mp h
  cases he
  obtain ⟨-, hw⟩ := decodeFrom_some 0 0 hd
  exact ⟨(ofLe16 b).isLt, hw⟩

variable {g : Junk} {trees : Heap HuffmanEncodingTree} {p : Nat} {t : HuffmanEncodingTree} {c : CodeTree Byte}
  {bs : BitStream} {l : List Bool}

theorem writeLength_spec (h : Wf bs l) (n : Nat) (hs : 2 * (l.length + 18) + 7 < 2147483648) :
    Wf (bs.writeCompressed g (le16 (BitVec.ofNat 16 n)) true) (l ++ encodeLength n) ∧
      Writes bs (bs.writeCompressed g (le16 (BitVec.ofNat 16 n)) true) :=
  writeCompressedFrom_spec g (le16 (BitVec.ofNat 16 n)) true 1 bs l h (by simp [le16]) (by omega)

theorem readLength_spec (h : View bs l) {ro n : Nat} (hro : bs.readOffset = ro) (hsm : ro + 18 < 2147483648)
    (hn : l.length ≤ 8 * n) {stack : List Byte} (hstack : stack.length = 2) :
    ∃ ok bs' out, bs.readCompressed stack true = (ok, bs', out) ∧ Reads (Access.Within n) bs bs' ∧
      (decodeLength (l.drop ro) = none → ok = false) ∧
      ∀ k r, decodeLength (l.drop ro) = some (k, r) → ok = true ∧ (ofLe16 out).toNat = k ∧
        bs'.readOffset = (l.length - r.length : Nat) := by
  obtain ⟨hr, hd⟩ := readCompressedFrom_spec true hn 1 bs stack ro h hro (by omega) (by omega)
  rcases hres : bs.readCompressed stack true with ⟨ok, bs', out⟩
  have hfrom : readCompressedFrom true 1 bs stack = (ok, bs', out) := by
    rw [← hres, readCompressed, hstack]
  rw [hfrom] at hr hd
  rw [show byteMatch true = 0 from rfl, show halfByteMatch true = 0 from rfl] at hd
  refine ⟨ok, bs', out, rfl, hr, fun hnone => ?_, fun k r hsome => ?_⟩
  · rw [Option.map_eq_none_iff.mp hnone] at hd
    exact hd
  · obtain ⟨⟨b, r'⟩, hdec, he⟩ := Option.map_eq_some_iff.mp hsome
    cases he
    rw [hdec] at hd
    obtain ⟨h1, h2, h3⟩ := hd
    rw [List.drop_eq_nil_of_le (by omega), List.append_nil] at h3
    exact ⟨h1, by rw [show out = b from h3], h2⟩

/-! ## `EncodeString` -/

/-- The characters of a string that are written. -/
def written (maxCharsToWrite : Int) (chars : List Byte) : List Byte := chars.take (charsToWrite maxCharsToWrite chars.length)

/-- The bits of the words, padded to whole bytes. -/
def paddedBits (c : CodeTree Byte) (chars : List Byte) : Nat := 8 * (((encoded c chars).length + 7) / 8)

theorem charsToWrite_le (maxCharsToWrite : Int) (length : Nat) : charsToWrite maxCharsToWrite length ≤ length := by
  unfold charsToWrite
  split <;> omega

theorem strlen_cstring {chars : List Byte} (hz : 0 ∉ chars) (rest : List Byte) :
    strlen (chars ++ 0 :: rest) = some chars.length := by
  rw [strlen, if_pos (by simp), List.idxOf_append_of_notMem hz]
  simp

/-- The first bytes of a stream are its first bits. -/
theorem bits_take_bytes (h : View bs l) {k : Nat} (hk : 8 * k ≤ l.length) : bits (bs.getData.take k) = l.take (8 * k) := by
  have htake : bs.getData.take k = (pack l).take k := by
    rw [← h.take_bytes, List.take_take, Nat.min_eq_left (by omega)]
    rfl
  rw [htake, bits_take, bits_pack_append, List.take_append_of_le_length hk]

/-- The length, and the words with their padding as far as 16 bits can count. -/
theorem encodeWith_spec (g : Junk) (ht : trees.get p = some t) (hc : Holds t c) {chars : List Byte} (hz : 0 ∉ chars)
    (rest : List Byte) (maxCharsToWrite : Int) {output : BitStream} (hw : Wf output l)
    (hlen : 2 * ((encoded c (written maxCharsToWrite chars)).length + 8) + 7 < 2147483648)
    (hs : 2 * (l.length + 65554) + 7 < 2147483648) :
    ∃ out tail, encodeWith g trees p (some (chars ++ 0 :: rest)) maxCharsToWrite output = some out ∧ Piece c tail ∧
      (encoded c (written maxCharsToWrite chars) ++ tail).length = paddedBits c (written maxCharsToWrite chars) ∧
      Wf out (l ++ (encodeLength (paddedBits c (written maxCharsToWrite chars)) ++
        (encoded c (written maxCharsToWrite chars) ++ tail).take (paddedBits c (written maxCharsToWrite chars) % 65536))) ∧
      Writes output out := by
  have htake : (chars ++ 0 :: rest).take (charsToWrite maxCharsToWrite chars.length) = written maxCharsToWrite chars :=
    List.take_append_of_le_length (charsToWrite_le ..)
  obtain ⟨w, hwr⟩ : ∃ w, written maxCharsToWrite chars = w := ⟨_, rfl⟩
  rw [hwr] at hlen htake ⊢
  obtain ⟨bs, tail, henc, hwf, -, htail, ht8, hmod⟩ := encodeArray_spec g hc (empty_wf g) w (by simpa using hlen)
  rw [List.nil_append] at hwf hmod
  have hpad : (encoded c w ++ tail).length = paddedBits c w := by
    rw [List.length_append] at hmod ⊢
    unfold paddedBits
    omega
  have hbits : BitVec.ofInt 16 bs.numberOfBitsUsed = BitVec.ofNat 16 (paddedBits c w) := by
    rw [hwf.used, hpad, BitVec.ofInt_natCast]
  obtain ⟨hw₁, f₁⟩ := writeLength_spec (g := g) hw (paddedBits c w) (by omega)
  have hel := encodeLength_length (paddedBits c w)
  have hle : paddedBits c w % 65536 ≤ paddedBits c w := Nat.mod_le _ _
  have h8 : paddedBits c w % 65536 = 8 * (paddedBits c w % 65536 / 8) := by
    unfold paddedBits
    omega
  have hroom : paddedBits c w % 65536 / 8 ≤ bs.getData.length := by
    have hle' := hwf.holds.1
    show _ ≤ bs.bytes.length
    omega
  obtain ⟨hw₂, f₂⟩ := writeBits_bytes g hw₁ bs.getData true hroom (by rw [List.length_append]; omega)
  rw [← h8, bits_take_bytes hwf.toView (by omega), ← h8] at hw₂
  rw [← h8] at f₂
  refine ⟨_, tail, ?_, htail, hpad, by rw [← List.append_assoc]; exact hw₂, f₁.trans f₂⟩
  simp only [encodeWith, strlen_cstring hz, ht, htake, henc, hbits, Option.bind_eq_bind, Option.bind_some,
    BitVec.toNat_ofNat, Option.pure_def]

/-! ## `DecodeString` -/

/-- The string at the beginning of `l`, and what is behind it. -/
def received (c : CodeTree Byte) (l : List Bool) : Option (List Byte × List Bool) :=
  decodeLength l >>= fun (n, r) => if r.length < n then none else some (c.decode (r.take n), r.drop n)

/-- A terminated string at the front of an array. -/
def Terminated (chars output : List Byte) : Prop := ∃ rest, output = chars ++ 0 :: rest

theorem terminate (chars output : List Byte) {m : Nat} (hm : 0 < m) (hlen : m ≤ output.length) :
    ∃ out, storeAt (chars.take m ++ output.drop (min chars.length m))
        (if (chars.length : Int) < m then chars.length else (m : Int) - 1) 0 = some out ∧
      out.length = output.length ∧ Terminated (chars.take (m - 1)) out := by
  obtain ⟨k, hk⟩ : ∃ k, min chars.length (m - 1) = k := ⟨_, rfl⟩
  have hidx : (if (chars.length : Int) < m then (chars.length : Int) else (m : Int) - 1) = (k : Int) := by
    split <;> omega
  obtain ⟨array, harray⟩ : ∃ array, chars.take m ++ output.drop (min chars.length m) = array := ⟨_, rfl⟩
  have hal : array.length = output.length := by
    rw [← harray, List.length_append, List.length_take, List.length_drop]
    omega
  have htake : array.take k = chars.take (m - 1) := by
    rw [← harray, List.take_append_of_le_length (by rw [List.length_take]; omega), List.take_take, ← hk]
    rcases Nat.le_total chars.length (m - 1) with h | h
    · rw [Nat.min_eq_left h, List.take_of_length_le h, Nat.min_eq_left (by omega), List.take_length]
    · rw [Nat.min_eq_right h, Nat.min_eq_left (by omega)]
  rw [harray, hidx, storeAt, if_pos ⟨by omega, by omega⟩]
  refine ⟨_, rfl, by rw [List.length_set, hal], array.drop (k + 1), ?_⟩
  rw [Int.toNat_natCast, List.set_eq_take_append_cons_drop, if_pos (by omega), htake]

/-- Whatever the stream holds: the reads stay inside it and the stores inside the array. A
    string that is there comes out, cut to the room there is. -/
theorem decodeWith_spec (ht : trees.get p = some t) (hc : Holds t c) {input : BitStream} (hv : View input l) {ro n m : Nat}
    (hro : input.readOffset = ro) (hle : ro ≤ l.length) (hsm : ro + 18 < 2147483648) (hn : l.length ≤ 8 * n)
    (output : List Byte) {stack : List Byte} (hstack : stack.length = 2) (hm : 0 < m) (hm31 : m < 2147483648)
    (hout : m ≤ output.length) :
    ∃ ok out bs', decodeWith trees p output m input stack = some (ok, out, bs') ∧ Reads (Access.Within n) input bs' ∧
      out.length = output.length ∧
      (received c (l.drop ro) = none → ok = false ∧ out = output.set 0 0) ∧
      ∀ chars r, received c (l.drop ro) = some (chars, r) →
        ok = true ∧ Terminated (chars.take (m - 1)) out ∧ bs'.readOffset = (l.length - r.length : Nat) := by
  obtain ⟨ok, bs₁, length, hread, hr₁, hnone, hsome⟩ := readLength_spec hv hro hsm hn hstack
  have hfirst : storeAt output 0 0 = some (output.set 0 0) := by
    rw [storeAt, if_pos ⟨by omega, by omega⟩]
    rfl
  have hlen₀ : (output.set 0 0).length = output.length := List.length_set ..
  simp only [decodeWith, hfirst, hread, Option.bind_eq_bind, Option.bind_some, Option.pure_def]
  rcases hd : decodeLength (l.drop ro) with _ | ⟨k, r⟩
  · have hrec : received c (l.drop ro) = none := by rw [received, hd]; rfl
    rw [hnone hd, hrec]
    refine ⟨false, _, bs₁, rfl, hr₁, hlen₀, fun _ => ⟨rfl, rfl⟩, ?_⟩
    intro chars r h
    cases h
  · obtain ⟨rfl, hk, hro₁⟩ := hsome k r hd
    obtain ⟨hk16, w, hw18, hdrop, hwl⟩ := decodeLength_some hd
    rw [List.drop_drop] at hdrop
    rw [List.length_drop] at hwl
    have hsmall := hv.small
    have hunread : bs₁.getNumberOfUnreadBits = r.length := by
      unfold getNumberOfUnreadBits
      rw [hr₁.used, hv.used, hro₁, i32_of] <;> omega
    have hrec : received c (l.drop ro) = if r.length < k then none else some (c.decode (r.take k), r.drop k) := by
      rw [received, hd]
      rfl
    simp only [if_true, hk, hunread]
    by_cases hshort : r.length < k
    · rw [if_pos hshort] at hrec
      rw [if_pos (by omega), hrec]
      refine ⟨false, _, bs₁, rfl, hr₁, hlen₀, fun _ => ⟨rfl, rfl⟩, ?_⟩
      intro chars r h
      cases h
    · rw [if_neg hshort] at hrec
      obtain ⟨bs₂, hdec, hr₂, hro₂⟩ := decodeArray_spec hc (hv.reads hr₁) hro₁ (k := k) (n := n) (m := m) (by omega) hn
        (output.set 0 0) (by omega)
      have hsuffix : l.drop (l.length - r.length) = r := by
        rw [← hdrop, List.length_drop]
        congr 1
        omega
      rw [hsuffix] at hdec
      obtain ⟨out, hstore, hol, hterm⟩ := terminate (c.decode (r.take k)) (output.set 0 0) hm (by omega)
      have hu : (u32 (m : Int)).toNat = m := by
        rw [u32_of (by omega) (by omega), Int.toNat_natCast]
      rw [hrec]
      refine ⟨true, out, bs₂, ?_, hr₁.trans hr₂, hol.trans hlen₀, ?_, ?_⟩
      · rw [if_neg (by omega), ht, Option.bind_some, hu, hdec]
        simp only [Option.bind_some, hstore]
      · intro h
        cases h
      · intro chars r' h
        cases h
        refine ⟨rfl, hterm, ?_⟩
        rw [hro₂, List.length_drop]
        congr 1
        omega

/-! ## Both ways -/

/-- What comes back of a string: the words that fit into the bits that were counted. -/
def survivors (c : CodeTree Byte) (chars : List Byte) : List Byte := fitting c (paddedBits c chars % 65536) chars

theorem survivors_all {chars : List Byte} (h : paddedBits c chars < 65536) : survivors c chars = chars := by
  unfold survivors
  rw [Nat.mod_eq_of_lt h]
  refine fitting_all ?_
  unfold paddedBits
  omega

/-- What `EncodeString` appends is received as a whole, and nothing of what is behind it. -/
theorem received_written (hc : Holds t c) (w : List Byte) {tail : List Bool} (htail : Piece c tail)
    (hlen : (encoded c w ++ tail).length = paddedBits c w) (behind : List Bool) :
    received c (encodeLength (paddedBits c w) ++ (encoded c w ++ tail).take (paddedBits c w % 65536) ++ behind) =
      some (survivors c w, behind) := by
  have hk : ((encoded c w ++ tail).take (paddedBits c w % 65536)).length = paddedBits c w % 65536 := by
    rw [List.length_take, hlen]
    exact Nat.min_eq_left (Nat.mod_le _ _)
  rw [received, List.append_assoc, decodeLength_encodeLength]
  show (if _ then _ else _) = _
  rw [if_neg (by rw [List.length_append, hk]; omega), List.take_left' hk, List.drop_left' hk, decode_encoded hc htail]
  rfl

end StringCompressor

end RakHook
