/-
  RakHook.Huffman.Code — `EncodeArray` and both `DecodeArray`.

  `EncodeArray` appends the words of its input and then, up to the next byte, the
  beginning of a word that is longer than that (`encodeArray_spec`). `DecodeArray` walks
  down the nodes as `CodeTree.decode` walks down the tree: on any bits at all it puts out
  what they decode to and follows no null pointer (`decodeArray_spec`). So the input comes
  back, and of a stream that is cut off the characters that are there as a whole
  (`decode_encoded`).
-/

import RakHook.Huffman.Table

namespace RakHook

open Lib BitStream

namespace HuffmanEncodingTree

variable {t : HuffmanEncodingTree} {c : CodeTree Byte}

theorem Holds.word_mem (h : Holds t c) (v : Byte) : (c.word v, v) ∈ c.words :=
  CodeTree.word_mem (h.leaves.mem_iff.mpr (mem_characters v))

theorem Holds.lookup (h : Holds t c) (v : Byte) : t.encodingTable v = some ⟨pack (c.word v), (c.word v).length⟩ :=
  h.table _ _ (h.word_mem v)

theorem Holds.word_length_lt (h : Holds t c) (v : Byte) : (c.word v).length < 256 := by
  have hlt := CodeTree.word_length_lt (h.word_mem v)
  rwa [h.leaves.length_eq, characters_length] at hlt

/-- With 256 characters, some word has eight bits. -/
theorem Holds.exists_long (h : Holds t c) : ∃ v ∈ characters, 8 ≤ (c.word v).length := by
  obtain ⟨⟨w, v⟩, hw, hlen⟩ := c.exists_long_word
  rw [h.leaves.length_eq, characters_length] at hlen
  refine ⟨v, mem_characters v, ?_⟩
  rw [CodeTree.word_unique (h.leaves.nodup_iff.mpr characters_nodup) (h.word_mem v) hw]
  rcases Nat.lt_or_ge w.length 8 with hlt | hge
  · have hpow : 2 ^ w.length ≤ 2 ^ 7 := Nat.pow_le_pow_right (by omega) (by omega)
    simp only at hlen
    omega
  · exact hge

/-! ## `EncodeArray` -/

/-- The words of `input` one after the other. -/
def encoded (c : CodeTree Byte) (input : List Byte) : List Bool := input.flatMap c.word

@[simp] theorem encoded_cons (c : CodeTree Byte) (v : Byte) (input : List Byte) :
    encoded c (v :: input) = c.word v ++ encoded c input := rfl

/-- Less than a whole word. -/
def Piece (c : CodeTree Byte) (tail : List Bool) : Prop := ∃ w v, (w, v) ∈ c.words ∧ tail <+: w ∧ tail ≠ w

theorem encodeLoop_spec (g : Junk) (h : Holds t c) : ∀ (input : List Byte) {bs : BitStream} {l : List Bool}, Wf bs l →
    2 * (l.length + (encoded c input).length) + 7 < 2147483648 →
    ∃ bs', encodeLoop g t input bs = some bs' ∧ Wf bs' (l ++ encoded c input) ∧ Writes bs bs' := by
  intro input
  induction input with
  | nil =>
    intro bs l hw _
    exact ⟨bs, rfl, by rwa [encoded, List.flatMap_nil, List.append_nil], .refl bs⟩
  | cons v input ih =>
    intro bs l hw hs
    rw [encoded_cons, List.length_append] at hs
    obtain ⟨h₁, f₁⟩ := writeBits_pack g hw (c.word v) (by omega)
    obtain ⟨bs', henc, h₂, f₂⟩ := ih h₁ (by rw [List.length_append]; omega)
    refine ⟨bs', ?_, by rwa [encoded_cons, ← List.append_assoc], f₁.trans f₂⟩
    simp only [encodeLoop, h.lookup v, Option.bind_eq_bind, Option.bind_some]
    exact henc

/-- The first word that is long enough pads the last byte. -/
theorem padLoop_spec (g : Junk) (h : Holds t c) {bs : BitStream} {l : List Bool} (hw : Wf bs l) (hl : l.length % 8 ≠ 0)
    (hs : 2 * (l.length + 8) + 7 < 2147483648) : ∀ {cs : List Byte}, (∃ v ∈ cs, 8 ≤ (c.word v).length) →
    ∃ bs' v, padLoop g t (8 - l.length % 8) cs bs = some bs' ∧ 8 - l.length % 8 < (c.word v).length ∧
      Wf bs' (l ++ (c.word v).take (8 - l.length % 8)) ∧ Writes bs bs' := by
  intro cs
  induction cs with
  | nil => rintro ⟨v, hv, -⟩; cases hv
  | cons a cs ih =>
    rintro ⟨v, hv, h8⟩
    simp only [padLoop, h.lookup a, Option.bind_eq_bind, Option.bind_some, Option.pure_def]
    by_cases hlong : 8 - l.length % 8 < (c.word a).length
    · rw [if_pos hlong]
      obtain ⟨h₁, f₁⟩ := writeBits_piece g hw hl (Nat.le_of_lt hlong) hs
      exact ⟨_, a, rfl, hlong, h₁, f₁⟩
    · rw [if_neg hlong]
      rcases List.mem_cons.mp hv with rfl | hv
      · omega
      · exact ih ⟨v, hv, h8⟩

/-- `EncodeArray` appends the words and less than a word, up to a byte boundary. -/
theorem encodeArray_spec (g : Junk) (h : Holds t c) {bs : BitStream} {l : List Bool} (hw : Wf bs l) (input : List Byte)
    (hs : 2 * (l.length + (encoded c input).length + 8) + 7 < 2147483648) :
    ∃ bs' tail, encodeArray g t input bs = some bs' ∧ Wf bs' (l ++ encoded c input ++ tail) ∧ Writes bs bs' ∧
      Piece c tail ∧ tail.length < 8 ∧ (l ++ encoded c input ++ tail).length % 8 = 0 := by
  obtain ⟨bs₁, henc, h₁, f₁⟩ := encodeLoop_spec g h input hw (by omega)
  have hused := h₁.used
  simp only [encodeArray, henc, Option.bind_eq_bind, Option.bind_some, Option.pure_def]
  by_cases hm : (l ++ encoded c input).length % 8 = 0
  · rw [if_neg (by omega)]
    obtain ⟨v, -, h8⟩ := h.exists_long
    refine ⟨bs₁, [], rfl, by rwa [List.append_nil], f₁, ⟨_, v, h.word_mem v, List.nil_prefix, ?_⟩, by simp, by simpa using hm⟩
    intro hnil
    rw [← hnil] at h8
    simp at h8
  · rw [if_pos (by omega), show (8 - bs₁.numberOfBitsUsed % 8).toNat = 8 - (l ++ encoded c input).length % 8 by omega]
    obtain ⟨bs₂, v, hpad, hlong, h₂, f₂⟩ := padLoop_spec g h h₁ hm (by rw [List.length_append]; omega) h.exists_long
    have htake := List.length_take_of_le (Nat.le_of_lt hlong)
    refine ⟨bs₂, _, hpad, h₂, f₁.trans f₂, ⟨_, v, h.word_mem v, List.take_prefix _ _, ?_⟩, by omega, ?_⟩
    · intro he
      rw [he] at htake
      omega
    · rw [List.length_append, htake]
      omega

/-! ## `DecodeArray` -/

theorem descend_child {s : HuffmanEncodingTree.Shape} {b : Bool} (hr : Repr t.nodes s) {d : CodeTree Byte}
    (hd : s.tree.child b = some d) : ∃ s' n, s'.tree = d ∧ Repr t.nodes s' ∧ t.nodes.get s'.addr = some n ∧
      t.descend s.addr b = some (s'.addr, n) := by
  cases s with
  | leaf p v => cases hd
  | node p l r =>
    obtain ⟨⟨n, hn, hl, hr'⟩, ⟨nl, hnl, -⟩, ⟨nr, hnr, -⟩, hrl, hrr⟩ := hr
    cases b with
    | false =>
      cases hd
      refine ⟨l, nl, rfl, hrl, hnl, ?_⟩
      rw [descend, show (Shape.node p l r).addr = p from rfl, hn]
      simp [hl, hnl]
    | true =>
      cases hd
      refine ⟨r, nr, rfl, hrr, hnr, ?_⟩
      rw [descend, show (Shape.node p l r).addr = p from rfl, hn]
      simp [hr', hnr]

/-- A node has no children exactly if it is a leaf, and then its value is the symbol. -/
theorem leaf_iff {s : Shape} {n : HuffmanEncodingTreeNode} (hr : Repr t.nodes s) (hn : t.nodes.get s.addr = some n) :
    (n.left = none ∧ n.right = none ↔ s.tree = .leaf n.value) ∧ ((∃ v, s.tree = .leaf v) → s.tree = .leaf n.value) := by
  cases s with
  | leaf p v =>
    obtain ⟨m, hm, hl, hr', rfl⟩ := hr
    obtain rfl : n = m := Option.some.inj (hn.symm.trans hm)
    exact ⟨⟨fun _ => rfl, fun _ => ⟨hl, hr'⟩⟩, fun _ => rfl⟩
  | node p l r =>
    obtain ⟨⟨m, hm, hl, -⟩, -⟩ := hr
    obtain rfl : n = m := Option.some.inj (hn.symm.trans hm)
    refine ⟨⟨fun hc => ?_, nofun⟩, ?_⟩
    · rw [hl] at hc
      cases hc.1
    · rintro ⟨v, hv⟩
      cases hv

/-- Characters stored from `i` on, as far as there is room. -/
def fill (maxCharsToWrite : Nat) : Nat → List Byte → List Byte → List Byte
  | _, [], output => output
  | i, x :: xs, output => fill maxCharsToWrite (i + 1) xs (if i < maxCharsToWrite then output.set i x else output)

theorem fill_full {m : Nat} : ∀ {xs : List Byte} {i : Nat} {output : List Byte}, m ≤ i → fill m i xs output = output := by
  intro xs
  induction xs with
  | nil => intro i output _; rfl
  | cons x xs ih =>
    intro i output hi
    rw [fill, if_neg (by omega), ih (by omega)]

theorem fill_eq {m : Nat} : ∀ {xs : List Byte} {i : Nat} {output : List Byte}, i ≤ m → m ≤ output.length →
    fill m i xs output = output.take i ++ xs.take (m - i) ++ output.drop (i + min xs.length (m - i)) := by
  intro xs
  induction xs with
  | nil => intro i output _ _; simp [fill]
  | cons x xs ih =>
    intro i output hi hm
    rcases Nat.lt_or_ge i m with hlt | hge
    · have htake : (output.set i x).take (i + 1) = output.take i ++ [x] := by
        rw [List.take_add_one, List.take_set_of_le (Nat.le_refl i), List.getElem?_set_self (by omega)]
        rfl
      obtain ⟨j, hj⟩ : ∃ j, m - i = j + 1 := ⟨m - i - 1, by omega⟩
      rw [fill, if_pos hlt, ih (by omega) (by simpa using hm), htake, List.drop_set_of_lt (by omega), hj,
        show m - (i + 1) = j by omega, List.take_succ_cons, List.length_cons,
        show i + 1 + min xs.length j = i + min (xs.length + 1) (j + 1) by omega]
      simp
    · rw [fill_full (show m ≤ i by omega), show m - i = 0 by omega]
      simp

theorem walk_step (root : Shape) {s : Shape} (hs : Repr t.nodes s) (hsi : ∃ l r, s.tree = .node l r) {bs : BitStream}
    {l : List Bool}
    (hv : View bs l) {ro n : Nat} (hro : bs.readOffset = ro) (hl : ro < l.length) (hn : l.length ≤ 8 * n) :
    ∃ b bs₁ s' nd, bs.readBit = (b, bs₁) ∧ t.descend s.addr b = some (s'.addr, nd) ∧ Repr t.nodes s' ∧
      Reads (Access.Within n) bs bs₁ ∧ bs₁.readOffset = (ro + 1 : Nat) ∧
      ((nd.left = none ∧ nd.right = none) ∧ (∀ k, CodeTree.decodeFrom root.tree s.tree ((l.drop ro).take (k + 1)) =
          nd.value :: CodeTree.decodeFrom root.tree root.tree ((l.drop (ro + 1)).take k)) ∨
        ¬(nd.left = none ∧ nd.right = none) ∧ (∃ l r, s'.tree = .node l r) ∧
          ∀ k, CodeTree.decodeFrom root.tree s.tree ((l.drop ro).take (k + 1)) =
            CodeTree.decodeFrom root.tree s'.tree ((l.drop (ro + 1)).take k)) := by
  obtain ⟨sl, sr, hst⟩ := hsi
  obtain ⟨bs₁, hbit, hread, hro₁⟩ := readBit_ok hv hro hl hn
  have hdrop : ∀ k, (l.drop ro).take (k + 1) = l.getD ro false :: (l.drop (ro + 1)).take k := by
    intro k
    rw [List.drop_eq_getElem_cons hl, List.take_succ_cons]
    simp [List.getD, hl]
  obtain ⟨b, hb⟩ : ∃ b, l.getD ro false = b := ⟨_, rfl⟩
  rw [hb] at hbit hdrop
  obtain ⟨d, hd⟩ : ∃ d, s.tree.child b = some d := by
    rw [hst]
    exact ⟨_, rfl⟩
  obtain ⟨s', nd, hs'd, hs', hnd, hdesc⟩ := descend_child hs hd
  obtain ⟨hleaf, hval⟩ := leaf_iff hs' hnd
  refine ⟨b, bs₁, s', nd, hbit, hdesc, hs', hread, hro₁, ?_⟩
  cases d with
  | leaf a =>
    have hav := hval ⟨a, hs'd⟩
    obtain rfl : a = nd.value := by
      rw [hs'd] at hav
      exact CodeTree.leaf.inj hav
    exact .inl ⟨hleaf.mpr hav, fun k => by rw [hdrop, CodeTree.decodeFrom_leaf_child hd]; rfl⟩
  | node dl dr =>
    refine .inr ⟨fun hc => ?_, ⟨dl, dr, hs'd⟩, fun k => by rw [hdrop, CodeTree.decodeFrom_node_child hd, hs'd]⟩
    have hlf := hleaf.mp hc
    rw [hs'd] at hlf
    cases hlf

theorem decodeLoop_spec {root : Shape} (hroot : Repr t.nodes root) (hinner : ∃ l r, root.tree = .node l r) {m n : Nat}
    {l : List Bool} (hn : l.length ≤ 8 * n) : ∀ {k : Nat} {s : Shape} {bs : BitStream} {output : List Byte} {i ro : Nat},
      Repr t.nodes s → (∃ l r, s.tree = .node l r) → View bs l → bs.readOffset = ro → ro + k ≤ l.length → m ≤ output.length →
      ∃ bs', decodeLoop t root.addr m k s.addr bs output i =
        some (i + (CodeTree.decodeFrom root.tree s.tree ((l.drop ro).take k)).length, bs',
          fill m i (CodeTree.decodeFrom root.tree s.tree ((l.drop ro).take k)) output) ∧
        Reads (Access.Within n) bs bs' ∧ bs'.readOffset = (ro + k : Nat) := by
  intro k
  induction k with
  | zero =>
    intro s bs output i ro _ _ _ hro _ _
    exact ⟨bs, by simp [decodeLoop, CodeTree.decodeFrom, fill], .refl bs, hro⟩
  | succ k ih =>
    intro s bs output i ro hs hsi hv hro hl hm
    obtain ⟨b, bs₁, s', nd, hbit, hdesc, hs', hread, hro₁, hstep⟩ := walk_step root hs hsi hv hro (by omega) hn
    have hv₁ := hv.reads hread
    simp only [decodeLoop, hbit, hdesc, Option.bind_eq_bind, Option.bind_some]
    rcases hstep with ⟨hleaf, hdec⟩ | ⟨hnode, hs'i, hdec⟩
    · have hlen : m ≤ (if i < m then output.set i nd.value else output).length := by
        split <;> simpa using hm
      obtain ⟨bs', hloop, hread', hro'⟩ := ih (i := i + 1) hroot hinner hv₁ hro₁ (by omega) hlen
      refine ⟨bs', ?_, hread.trans hread', by rw [hro']; omega⟩
      rw [if_pos hleaf, hdec, List.length_cons, fill, Nat.add_left_comm, Nat.add_comm _ (i + 1)]
      by_cases him : i < m
      · have hstore : storeAt output i nd.value = some (output.set i nd.value) := by
          rw [storeAt, if_pos ⟨by omega, by omega⟩]
          rfl
        rw [if_pos him] at hloop ⊢
        rw [if_pos him, hstore]
        exact hloop
      · rw [if_neg him] at hloop ⊢
        rw [if_neg him]
        exact hloop
    · obtain ⟨bs', hloop, hread', hro'⟩ := ih (i := i) hs' hs'i hv₁ hro₁ (by omega) hm
      refine ⟨bs', ?_, hread.trans hread', by rw [hro']; omega⟩
      rw [if_neg hnode, hdec, hloop]

theorem decodeToLoop_spec (g : Junk) {root : Shape} (hroot : Repr t.nodes root) (hinner : ∃ l r, root.tree = .node l r)
    {l : List Bool} : ∀ (k ro : Nat) {s : Shape} {bs out : BitStream} {o : List Bool}, Repr t.nodes s →
      (∃ l r, s.tree = .node l r) → View bs l → bs.readOffset = ro → ro + k ≤ l.length → Wf out o →
      2 * (o.length + 8 * k) + 7 < 2147483648 →
      ∃ out', decodeToLoop g t root.addr k s.addr bs out = some out' ∧
        Wf out' (o ++ bits (CodeTree.decodeFrom root.tree s.tree ((l.drop ro).take k))) ∧ Writes out out' := by
  intro k
  induction k with
  | zero =>
    intro ro s bs out o _ _ _ _ _ hw _
    exact ⟨out, rfl, by simpa [CodeTree.decodeFrom, bits] using hw, .refl out⟩
  | succ k ih =>
    intro ro s bs out o hs hsi hv hro hl hw hsm
    obtain ⟨b, bs₁, s', nd, hbit, hdesc, hs', hread, hro₁, hstep⟩ := walk_step root (n := l.length) hs hsi hv hro
      (by omega) (by omega)
    have hv₁ := hv.reads hread
    simp only [decodeToLoop, hbit, hdesc, Option.bind_eq_bind, Option.bind_some]
    rcases hstep with ⟨hleaf, hdec⟩ | ⟨hnode, hs'i, hdec⟩
    · obtain ⟨hw₁, f₁⟩ := writeBits_bytes g hw [nd.value] (n := 1) true (by simp) (by omega)
      obtain ⟨out', hloop, hw', f'⟩ := ih _ hroot hinner hv₁ hro₁ (by omega) hw₁ (by simp; omega)
      refine ⟨out', ?_, ?_, f₁.trans f'⟩
      · rw [if_pos hleaf]
        exact hloop
      · rw [hdec, ← List.singleton_append, bits_append, ← List.append_assoc]
        exact hw'
    · obtain ⟨out', hloop, hw', f'⟩ := ih _ hs' hs'i hv₁ hro₁ (by omega) hw (by omega)
      refine ⟨out', ?_, ?_, f'⟩
      · rw [if_neg hnode]
        exact hloop
      · rw [hdec]
        exact hw'

/-- On any bits `DecodeArray` puts out what they decode to, and stays inside the array. -/
theorem decodeArray_spec (h : Holds t c) {bs : BitStream} {l : List Bool} (hv : View bs l) {ro k m n : Nat}
    (hro : bs.readOffset = ro) (hk : ro + k ≤ l.length) (hn : l.length ≤ 8 * n) (output : List Byte)
    (hm : m ≤ output.length) :
    ∃ bs', decodeArray t bs k m output = some ((c.decode ((l.drop ro).take k)).length, bs',
        (c.decode ((l.drop ro).take k)).take m ++ output.drop (min (c.decode ((l.drop ro).take k)).length m)) ∧
      Reads (Access.Within n) bs bs' ∧ bs'.readOffset = (ro + k : Nat) := by
  obtain ⟨s, hroot, hb, rfl⟩ := h.nodes
  have hrepr := hb.repr s (List.mem_singleton_self s)
  obtain ⟨bs', hloop, hread, hro'⟩ := decodeLoop_spec (i := 0) hrepr h.inner hn hrepr h.inner hv hro hk hm
  rw [fill_eq (Nat.zero_le m) hm] at hloop
  simp only [Nat.zero_add, Nat.sub_zero, List.take_zero, List.nil_append] at hloop
  unfold decodeArray
  split
  · rename_i hk0
    subst hk0
    refine ⟨bs, ?_, .refl bs, by rw [hro]; rfl⟩
    simp [CodeTree.decode, CodeTree.decodeFrom]
  · rw [hroot]
    exact ⟨bs', hloop, hread, hro'⟩

theorem decodeArrayTo_spec (g : Junk) (h : Holds t c) (input : List Byte) {k : Nat} (hk : k ≤ 8 * input.length)
    (hi : k + 7 < 2147483648) {out : BitStream} {o : List Bool} (hw : Wf out o)
    (hs : 2 * (o.length + 8 * k) + 7 < 2147483648) :
    ∃ out', decodeArrayTo g t input k out = some out' ∧ Wf out' (o ++ bits (c.decode ((bits input).take k))) ∧
      Writes out out' := by
  obtain ⟨s, hroot, hb, rfl⟩ := h.nodes
  have hrepr := hb.repr s (List.mem_singleton_self s)
  have hlen : (bits (input.take ((k + 7) / 8))).length = 8 * ((k + 7) / 8) := by
    rw [bits_length, List.length_take]
    omega
  have hview : View (.ofBuffer g input ((k + 7) / 8) false) (bits (input.take ((k + 7) / 8))) := by
    refine ⟨?_, by omega, ?_⟩
    · rw [hlen]
      show i32 (u32 ((((k + 7) / 8 : Nat) : Int) * 8)) = _
      rw [u32_of (by omega) (by omega), i32_of (by omega) (by omega)]
      omega
    · refine ⟨by rw [hlen]; show _ ≤ 8 * input.length; omega, ?_⟩
      intro i hi'
      rw [hlen] at hi'
      rw [bits_getD, bit_take _ _ _ (by omega)]
      rfl
  have htake : (bits (input.take ((k + 7) / 8))).take k = (bits input).take k := by
    rw [bits_take, List.take_take, Nat.min_eq_left (by omega)]
  unfold decodeArrayTo
  split
  · rename_i hk0
    subst hk0
    exact ⟨out, rfl, by simpa [CodeTree.decode, CodeTree.decodeFrom, bits] using hw, .refl out⟩
  · obtain ⟨out', hloop, hw', f'⟩ := decodeToLoop_spec g hrepr h.inner k 0 hrepr h.inner hview rfl
      (by rw [hlen]; omega) hw hs
    rw [hroot]
    refine ⟨out', hloop, ?_, f'⟩
    rwa [List.drop_zero, htake] at hw'

/-! ## Both ways -/

/-- The beginning of `input` whose words fit into `k` bits. -/
def fitting (c : CodeTree Byte) (k : Nat) (input : List Byte) : List Byte :=
  (CodeTree.whole k (input.map fun v => (c.word v, v))).map (·.2)

theorem words_of_input (c : CodeTree Byte) (input : List Byte) :
    (input.map fun v => (c.word v, v)).flatMap (·.1) = encoded c input := by
  rw [List.flatMap_map]
  rfl

theorem fitting_all {k : Nat} {input : List Byte} (hk : (encoded c input).length ≤ k) : fitting c k input = input := by
  unfold fitting
  rw [CodeTree.whole_all (by rw [words_of_input]; exact hk), List.map_map,
    show ((·.2) ∘ fun v => (c.word v, v)) = id from rfl, List.map_id]

/-- Of an encoded array cut off anywhere the characters that are there as a whole come back;
    the padding adds none. -/
theorem decode_encoded (h : Holds t c) {tail : List Bool} (htail : Piece c tail) (input : List Byte) (k : Nat) :
    c.decode ((encoded c input ++ tail).take k) = fitting c k input := by
  obtain ⟨l, r, rfl⟩ := h.inner
  obtain ⟨w, v, hw, hp, hne⟩ := htail
  rw [← words_of_input]
  refine CodeTree.decode_take hp hne hw ?_ k
  intro x hx
  obtain ⟨v, -, rfl⟩ := List.mem_map.mp hx
  exact h.word_mem v

theorem holds_of_generateAll {g : Junk} {junk : HuffmanEncodingTreeNode} {tables : List (Byte → BitVec 32)}
    {frequencyTable : Byte → BitVec 32} (ht : generateAll g junk (tables ++ [frequencyTable]) = some t)
    (hc : codeTree frequencyTable = some c) : Holds t c := by
  obtain ⟨t₁, c₁, ht₁, hc₁, h⟩ := generateAll_holds g junk tables frequencyTable
  obtain rfl := Option.some.inj (ht₁.symm.trans ht)
  obtain rfl := Option.some.inj (hc₁.symm.trans hc)
  exact h

/-- What `EncodeArray` appends to a stream that was read to its end, `DecodeArray` gives
    back: of any number of its bits the characters that are there as a whole, of all of them
    the input. -/
theorem decodeArray_encodeArray (g : Junk) (junk : HuffmanEncodingTreeNode) (tables : List (Byte → BitVec 32))
    (frequencyTable : Byte → BitVec 32) (ht : generateAll g junk (tables ++ [frequencyTable]) = some t)
    (hc : codeTree frequencyTable = some c) {bs : BitStream} {l : List Bool} (hw : Wf bs l) (hro : bs.readOffset = l.length)
    (input : List Byte) (hs : 2 * (l.length + (encoded c input).length + 8) + 7 < 2147483648) :
    ∃ bs', encodeArray g t input bs = some bs' ∧ bs'.numberOfBitsUsed % 8 = 0 ∧
      fitting c bs'.getNumberOfUnreadBits.toNat input = input ∧
      ∀ {k m : Nat} {output : List Byte}, k ≤ bs'.getNumberOfUnreadBits.toNat → m ≤ output.length →
        ∃ bs'', decodeArray t bs' k m output = some ((fitting c k input).length, bs'',
            (fitting c k input).take m ++ output.drop (min (fitting c k input).length m)) ∧
          bs''.readOffset = bs.readOffset + k := by
  have h := holds_of_generateAll ht hc
  obtain ⟨bs', tail, henc, hw', f', htail, ht8, hmod⟩ := encodeArray_spec g h hw input hs
  have hro' : bs'.readOffset = l.length := f'.readOffset.trans hro
  have hlen : (l ++ encoded c input ++ tail).length = l.length + ((encoded c input).length + tail.length) := by
    simp only [List.length_append]
    omega
  have hunread : bs'.getNumberOfUnreadBits = ((encoded c input).length + tail.length : Nat) := by
    unfold getNumberOfUnreadBits
    rw [hw'.used, hro', hlen, i32_of] <;> omega
  refine ⟨bs', henc, by rw [hw'.used]; omega, fitting_all (by rw [hunread]; omega), ?_⟩
  intro k m output hk hm
  rw [hunread] at hk
  obtain ⟨bs'', hdec, -, hro''⟩ := decodeArray_spec h hw'.toView hro' (k := k)
    (n := (l ++ encoded c input ++ tail).length) (by omega) (by omega) output hm
  rw [List.append_assoc, List.drop_left, decode_encoded h htail] at hdec
  exact ⟨bs'', hdec, by rw [hro'', hro]; omega⟩

/-- "hi" in a code of equal frequencies, appended to nothing. -/
theorem decodeArray_encodeArray_hi : ∃ t bs' bs'', generateAll (fun _ _ => 0) ⟨0, 0, none, none, none⟩ [fun _ => 1] = some t ∧
    encodeArray (fun _ _ => 0) t [104, 105] (.empty fun _ _ => 0) = some bs' ∧
    decodeArray t bs' bs'.getNumberOfUnreadBits.toNat 2 [0, 0, 7] = some (2, bs'', [104, 105, 7]) := by
  obtain ⟨t, c, ht, hc, hh⟩ := generateAll_holds (fun _ _ => 0) ⟨0, 0, none, none, none⟩ [] fun _ => 1
  have h1 := hh.word_length_lt 104#8
  have h2 := hh.word_length_lt 105#8
  obtain ⟨bs', henc, -, hall, hdec⟩ := decodeArray_encodeArray (fun _ _ => 0) ⟨0, 0, none, none, none⟩ [] (fun _ => 1) ht hc
    (empty_wf fun _ _ => 0) rfl [104, 105] (by simp [encoded]; omega)
  have hroom : 2 ≤ ([0, 0, 7] : List Byte).length := by decide
  obtain ⟨bs'', hd, -⟩ := hdec le_rfl hroom
  rw [hall] at hd
  exact ⟨t, bs', bs'', ht, henc, hd⟩

/-- So does the one that writes into a stream, from the bytes of one that held nothing else. -/
theorem decodeArrayTo_encodeArray (g : Junk) (junk : HuffmanEncodingTreeNode) (tables : List (Byte → BitVec 32))
    (frequencyTable : Byte → BitVec 32) (ht : generateAll g junk (tables ++ [frequencyTable]) = some t)
    (hc : codeTree frequencyTable = some c) {bs : BitStream} (hw : Wf bs []) (input : List Byte)
    (hs : 2 * ((encoded c input).length + 8) + 7 < 2147483648) :
    ∃ bs', encodeArray g t input bs = some bs' ∧ bs'.numberOfBitsUsed < (encoded c input).length + 8 ∧
      fitting c bs'.numberOfBitsUsed.toNat input = input ∧
      ∀ {k : Nat} {out : BitStream} {o : List Bool}, k ≤ bs'.numberOfBitsUsed.toNat → Wf out o →
        2 * (o.length + 8 * k) + 7 < 2147483648 →
        ∃ out', decodeArrayTo g t bs'.getData k out = some out' ∧ Wf out' (o ++ bits (fitting c k input)) ∧
          out'.readOffset = out.readOffset := by
  have h := holds_of_generateAll ht hc
  obtain ⟨bs', tail, henc, hw', -, htail, ht8, -⟩ := encodeArray_spec g h hw input (by rw [List.length_nil]; omega)
  rw [List.nil_append] at hw'
  have hused := hw'.used
  rw [List.length_append] at hused
  have htake : ∀ k ≤ (encoded c input ++ tail).length, (bits bs'.getData).take k = (encoded c input ++ tail).take k := by
    intro k hk
    have hmin : min k (8 * (((encoded c input ++ tail).length + 7) / 8)) = k := by omega
    have hb := congrArg (fun buf => (bits buf).take k) hw'.toView.take_bytes
    simp only [bits_take, List.take_take, hmin] at hb
    rw [show bs'.getData = bs'.bytes from rfl, hb, bits_pack_append, List.take_append_of_le_length hk]
  refine ⟨bs', henc, by omega, fitting_all (by rw [hused]; omega), ?_⟩
  intro k out o hk hwo hso
  have hbytes : (encoded c input ++ tail).length ≤ 8 * bs'.getData.length := hw'.toView.holds.1
  rw [hused] at hk
  rw [List.length_append] at htake hbytes
  obtain ⟨out', hdec, hwo', f'⟩ := decodeArrayTo_spec g h bs'.getData (k := k) (by omega) (by omega) hwo hso
  rw [htake k (by omega), decode_encoded h htail] at hwo'
  exact ⟨out', hdec, hwo', f'.readOffset⟩

theorem decodeArrayTo_encodeArray_hi : ∃ t bs' out',
    generateAll (fun _ _ => 0) ⟨0, 0, none, none, none⟩ [fun _ => 1] = some t ∧
    encodeArray (fun _ _ => 0) t [104, 105] (.empty fun _ _ => 0) = some bs' ∧
    decodeArrayTo (fun _ _ => 0) t bs'.getData bs'.numberOfBitsUsed.toNat (.empty fun _ _ => 0) = some out' ∧
    Wf out' (bits [104, 105]) := by
  obtain ⟨t, c, ht, hc, hh⟩ := generateAll_holds (fun _ _ => 0) ⟨0, 0, none, none, none⟩ [] fun _ => 1
  have h1 := hh.word_length_lt 104#8
  have h2 := hh.word_length_lt 105#8
  have hlen : (encoded c [104, 105]).length < 512 := by
    simp [encoded]
    omega
  obtain ⟨bs', henc, hused, hall, hdec⟩ :=
    decodeArrayTo_encodeArray (fun _ _ => 0) ⟨0, 0, none, none, none⟩ [] (fun _ => 1) ht hc
      (empty_wf fun _ _ => 0) [104, 105] (by omega)
  obtain ⟨out', hd, hw, -⟩ := hdec le_rfl (empty_wf fun _ _ => 0)
    (by rw [List.length_nil]; omega)
  rw [hall, List.nil_append] at hw
  exact ⟨t, bs', out', ht, henc, hd, hw⟩

end HuffmanEncodingTree

end RakHook
