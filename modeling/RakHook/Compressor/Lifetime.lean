/-
  RakHook.Compressor.Lifetime — a compressor from its constructor to its destructor.

  Strings go in and come out without touching the trees (`call_string`). A
  call of `GenerateTreeFromStrings` without input for a language that has a tree leaves a
  dangling pointer in the map; every later call keeps it there, if it gets through at all,
  and the destructor follows it. So a life ends well exactly if no such call is made, and
  then nothing is left in the heap (`lifetime_iff`).
-/

import RakHook.Compressor.Text
import RakHook.Compressor.Trees

namespace RakHook

open Lib BitStream HuffmanEncodingTree

namespace StringCompressor

inductive Call where
  | generateTreeFromStrings (input : List Byte) (languageID : Int)
  | encodeString (input : Option (List Byte)) (maxCharsToWrite : Int) (output : BitStream) (languageID : Int)
  | decodeString (output : List Byte) (maxCharsToWrite : Int) (input : BitStream) (languageID : Int) (stack : List Byte)

/-- What a caller has to see to: a string has its terminator, and fits into a stream; an array
    has the room it is said to have; the read offset of a stream is in it. -/
def Call.WellFormed : Call → Prop
  | .generateTreeFromStrings .. => True
  | .encodeString input _ _ _ => ∀ s ∈ input, ∃ chars rest, s = chars ++ 0 :: rest ∧ 0 ∉ chars ∧ chars.length < 4194304
  | .decodeString output maxCharsToWrite input _ stack => stack.length = 2 ∧
      (0 < maxCharsToWrite ∧ maxCharsToWrite ≤ output.length ∧ maxCharsToWrite < 2147483648) ∧
      ∃ l, View input l ∧ 0 ≤ input.readOffset ∧ input.readOffset ≤ l.length ∧ l.length + 18 < 2147483648

section

variable (g : Junk) (junk : HuffmanEncodingTreeNode)

def call (s : StringCompressor) : Call → Option StringCompressor
  | .generateTreeFromStrings input languageID => generateTreeFromStrings g junk s input languageID
  | .encodeString input maxCharsToWrite output languageID => (encodeString g s input maxCharsToWrite output languageID).map (·.2)
  | .decodeString output maxCharsToWrite input languageID stack =>
    (decodeString s output maxCharsToWrite input languageID stack).map (·.2)

/-- From the constructor to the destructor: the trees that are left in the heap. -/
def lifetime (cs : List Call) : Option (Heap HuffmanEncodingTree) := do
  let s ← new g junk
  let s ← cs.foldlM (call g junk) s
  s.destroy

end

variable (g : Junk) (junk : HuffmanEncodingTreeNode) {s s' : StringCompressor} {d : Finmap fun _ : Int => Nat}
  {codes : Int → Option (CodeTree Byte)} {lang : Int}

/-! ## Strings -/

theorem encoded_length_le {t : HuffmanEncodingTree} {c : CodeTree Byte} (h : Holds t c) (w : List Byte) :
    (encoded c w).length ≤ 255 * w.length := by
  induction w with
  | nil => simp [encoded]
  | cons v w ih =>
    have hv := h.word_length_lt v
    rw [encoded_cons, List.length_append, List.length_cons]
    omega

theorem withTree_eq {β : Type} (h : Sound s codes) (lang : Int) (unknown : β) (f : Nat → Option β) : ∃ s', Sound s' codes ∧
    ((∃ p t c, s.trees.get p = some t ∧ Holds t c ∧ codes lang = some c ∧
        s.withTree lang unknown f = (f p).map fun r => (r, s')) ∨
      codes lang = none ∧ s.withTree lang unknown f = some (unknown, s')) := by
  obtain ⟨d, ho⟩ := h
  obtain ⟨map, hhas, hm, hget⟩ := lookup_owns ho lang
  by_cases hl : lang ∈ d
  · obtain ⟨p, hp⟩ := Finmap.mem_iff.mp hl
    obtain ⟨t, c, ht, hc, he⟩ := ho.tree lang p trivial hp
    obtain ⟨map', hg, hm'⟩ := hget p hp
    refine ⟨{ s with huffmanEncodingTrees := map' }, ⟨d, ho.setMap hm'⟩, .inl ⟨p, t, c, ht, hc, he, ?_⟩⟩
    simp only [withTree, hhas, decide_eq_true hl, hg, Option.bind_eq_bind, Option.bind_some, if_true, Option.pure_def]
    cases f p <;> rfl
  · exact ⟨{ s with huffmanEncodingTrees := map }, ⟨d, ho.setMap hm⟩,
      .inr ⟨ho.absent lang hl, by simp [withTree, hhas, hl]⟩⟩

/-- `withTree` changes nothing but the map's saved search. -/
theorem withTree_keeps {β : Type} (h : Map.Represents s.huffmanEncodingTrees d) {unknown r : β} {f : Nat → Option β}
    (hs : s.withTree lang unknown f = some (r, s')) : Map.Represents s'.huffmanEncodingTrees d ∧ s'.trees = s.trees := by
  obtain ⟨map, hhas, hm⟩ := Map.has_represents compares h lang
  by_cases hl : lang ∈ d
  · obtain ⟨q, hq⟩ := Finmap.mem_iff.mp hl
    obtain ⟨map', hget, hm'⟩ := Map.get_represents compares hm hq
    simp only [withTree, hhas, decide_eq_true hl, hget, Option.bind_eq_bind, Option.bind_some, if_true, Option.pure_def,
      Option.bind_eq_some_iff] at hs
    obtain ⟨r', -, he⟩ := hs
    cases he
    exact ⟨hm', rfl⟩
  · simp only [withTree, hhas, decide_eq_false hl, Option.bind_eq_bind, Option.bind_some, Bool.false_eq_true, if_false,
      Option.pure_def, Option.some.injEq] at hs
    cases hs
    exact ⟨hm, rfl⟩

theorem encodeWith_some {trees : Heap HuffmanEncodingTree} {p : Nat} {t : HuffmanEncodingTree} {c : CodeTree Byte}
    (ht : trees.get p = some t) (hc : Holds t c) {input : Option (List Byte)}
    (hi : ∀ s ∈ input, ∃ chars rest, s = chars ++ 0 :: rest ∧ 0 ∉ chars ∧ chars.length < 4194304) (maxCharsToWrite : Int)
    (output : BitStream) : ∃ out, encodeWith g trees p input maxCharsToWrite output = some out := by
  cases input with
  | none => exact ⟨_, rfl⟩
  | some str =>
    obtain ⟨chars, rest, rfl, hz, hlt⟩ := hi str rfl
    have hle := encoded_length_le hc ((chars ++ 0 :: rest).take (charsToWrite maxCharsToWrite chars.length))
    have hn := charsToWrite_le maxCharsToWrite chars.length
    rw [List.length_take] at hle
    obtain ⟨bs, tail, henc, -⟩ := encodeArray_spec g hc (empty_wf g)
      ((chars ++ 0 :: rest).take (charsToWrite maxCharsToWrite chars.length)) (by rw [List.length_nil]; omega)
    simp only [encodeWith, strlen_cstring hz, ht, henc, Option.bind_eq_bind, Option.bind_some, Option.pure_def]
    exact ⟨_, rfl⟩

theorem call_string (h : Sound s codes) {k : Call} (hwf : k.WellFormed)
    (hk : ∀ input languageID, k ≠ .generateTreeFromStrings input languageID) :
    ∃ s', call g junk s k = some s' ∧ Sound s' codes := by
  cases k with
  | generateTreeFromStrings input languageID => exact absurd rfl (hk input languageID)
  | encodeString input maxCharsToWrite output languageID =>
    obtain ⟨s', hs', ⟨p, t, c, ht, hc, -, heq⟩ | ⟨-, heq⟩⟩ := withTree_eq h languageID output
      fun p => encodeWith g s.trees p input maxCharsToWrite output
    · obtain ⟨out, ho⟩ := encodeWith_some g ht hc hwf maxCharsToWrite output
      exact ⟨s', by rw [call, encodeString, heq, ho]; rfl, hs'⟩
    · exact ⟨s', by rw [call, encodeString, heq]; rfl, hs'⟩
  | decodeString output maxCharsToWrite input languageID stack =>
    obtain ⟨hstack, ⟨hm, hmo, hm31⟩, l, hv, h0, hle, hsm⟩ := hwf
    obtain ⟨s', hs', ⟨p, t, c, ht, hc, -, heq⟩ | ⟨-, heq⟩⟩ := withTree_eq h languageID (false, output, input)
      fun p => decodeWith s.trees p output maxCharsToWrite input stack
    · obtain ⟨ro, hro⟩ := Int.eq_ofNat_of_zero_le h0
      obtain ⟨m, rfl⟩ := Int.eq_ofNat_of_zero_le hm.le
      obtain ⟨ok, out, bs', hd, -⟩ := decodeWith_spec ht hc hv (n := l.length) (m := m) hro (by omega) (by omega) (by omega)
        output hstack (by omega) (by omega) (by omega)
      exact ⟨s', by rw [call, decodeString, heq, hd]; rfl, hs'⟩
    · exact ⟨s', by rw [call, decodeString, heq]; rfl, hs'⟩

/-! ## A dangling tree -/

/-- A language whose tree is gone. -/
structure Dangling (s : StringCompressor) (d : Finmap fun _ : Int => Nat) (lang : Int) (p : Nat) : Prop where
  map : Map.Represents s.huffmanEncodingTrees d
  lookup : d.lookup lang = some p
  below : p < s.trees.top
  gone : s.trees.get p = none

variable {p : Nat}

theorem deleteTree_dangling {trees trees' : Heap HuffmanEncodingTree} {q : Nat} (hgone : trees.get p = none)
    (h : deleteTree trees q = some trees') : q ≠ p ∧ trees'.get p = none ∧ trees'.top = trees.top := by
  simp only [deleteTree, Heap.delete, Option.bind_eq_bind, Option.bind_eq_some_iff, Option.map_eq_some_iff] at h
  obtain ⟨t, ht, -, -, -, -, rfl⟩ := h
  refine ⟨?_, ?_, Heap.top_free ..⟩
  · rintro rfl
    rw [hgone] at ht
    cases ht
  · rw [Heap.get_free, hgone, ite_self]

theorem dropTree_dangling (h : Dangling s d lang p) {l : Int} (hd : s.dropTree l = some s') :
    Dangling s' d lang p ∧ l ≠ lang := by
  obtain ⟨map, hhas, hm⟩ := Map.has_represents compares h.map l
  by_cases hl : l ∈ d
  · obtain ⟨q, hq⟩ := Finmap.mem_iff.mp hl
    obtain ⟨map', hget, hm'⟩ := Map.get_represents compares hm hq
    simp only [dropTree, hhas, decide_eq_true hl, hget, Option.bind_eq_bind, Option.bind_some, if_true, Option.pure_def,
      Option.bind_eq_some_iff] at hd
    obtain ⟨trees, hdel, he⟩ := hd
    cases he
    obtain ⟨hqp, hgone, htop⟩ := deleteTree_dangling h.gone hdel
    refine ⟨⟨hm', h.lookup, htop ▸ h.below, hgone⟩, fun he => hqp ?_⟩
    rw [he, h.lookup] at hq
    exact (Option.some.inj hq).symm
  · simp only [dropTree, hhas, decide_eq_false hl, Option.bind_eq_bind, Option.bind_some, Bool.false_eq_true, if_false,
      Option.pure_def, Option.some.injEq] at hd
    subst hd
    exact ⟨⟨hm, h.lookup, h.below, h.gone⟩, fun he => hl (he ▸ Finmap.mem_of_lookup_eq_some h.lookup)⟩

theorem newTree_dangling (h : Dangling s d lang p) {l : Int} (hl : l ≠ lang) {table : Byte → BitVec 32}
    (hn : newTree g junk s table l = some s') : Dangling s' (d.insert l s.trees.top) lang p := by
  obtain ⟨map, hset, hm⟩ := Map.set_represents compares h.map l s.trees.top
  simp only [newTree, hset, Option.bind_eq_bind, Option.bind_some, Option.pure_def, Option.bind_eq_some_iff,
    Option.some.injEq] at hn
  obtain ⟨t, -, rfl⟩ := hn
  have hbelow := h.below
  refine ⟨hm, by rw [Finmap.lookup_insert_of_ne _ hl.symm, h.lookup], ?_, ?_⟩
  · show p < (s.trees.new t).top
    rw [Heap.top_new]
    omega
  · show (s.trees.new t).get p = none
    rw [Heap.get_new, if_neg (by omega), h.gone]

/-- Once a tree is gone it stays gone, whatever is called. -/
theorem call_dangling (h : Dangling s d lang p) {c : Call} (hc : call g junk s c = some s') :
    ∃ d', Dangling s' d' lang p := by
  cases c with
  | generateTreeFromStrings input l =>
    simp only [call, generateTreeFromStrings, Option.bind_eq_bind, Option.bind_eq_some_iff] at hc
    obtain ⟨s₁, hdrop, hrest⟩ := hc
    obtain ⟨h₁, hl⟩ := dropTree_dangling h hdrop
    split at hrest
    · cases hrest
      exact ⟨d, h₁⟩
    · exact ⟨_, newTree_dangling g junk h₁ hl hrest⟩
  | encodeString input maxCharsToWrite output l =>
    obtain ⟨⟨out, s₂⟩, he, rfl⟩ := Option.map_eq_some_iff.mp hc
    obtain ⟨hm, ht⟩ := withTree_keeps h.map he
    exact ⟨d, hm, h.lookup, ht ▸ h.below, ht ▸ h.gone⟩
  | decodeString output maxCharsToWrite input l stack =>
    obtain ⟨⟨r, s₂⟩, he, rfl⟩ := Option.map_eq_some_iff.mp hc
    obtain ⟨hm, ht⟩ := withTree_keeps h.map he
    exact ⟨d, hm, h.lookup, ht ▸ h.below, ht ▸ h.gone⟩

theorem deleteLoop_dangling {map : Map Int Nat} (hm : Map.Represents map d) (hp : d.lookup lang = some p) {k : Nat}
    (hk : (d.keys.sort (· ≤ ·))[k]? = some lang) : ∀ (count i : Nat) (trees : Heap HuffmanEncodingTree), i ≤ k → k < i + count →
      trees.get p = none → deleteLoop map count i trees = none := by
  intro count
  induction count with
  | zero => intro i trees _ _ _; omega
  | succ count ih =>
    intro i trees hik hki hgone
    have hlt : i < (d.keys.sort (· ≤ ·)).length := by
      have := (List.getElem?_eq_some_iff.mp hk).1
      omega
    obtain ⟨as, n, bs, hl, -, hn, rfl, hq⟩ := hm.position (List.getElem?_eq_getElem hlt)
    rw [deleteLoop, Map.atIndex, hl.dataAt_eq]
    simp only [Option.bind_eq_bind, Option.bind_some]
    cases hdel : deleteTree trees n.mapNodeData with
    | none => rfl
    | some trees' =>
      obtain ⟨hne, hgone', -⟩ := deleteTree_dangling hgone hdel
      refine ih _ trees' ?_ (by omega) hgone'
      refine Nat.lt_of_le_of_ne hik fun he => hne ?_
      subst he
      rw [List.getElem?_eq_getElem hlt] at hk
      rw [Option.some.inj hk, hp] at hq
      exact (Option.some.inj hq).symm

theorem destroy_dangling (h : Dangling s d lang p) : s.destroy = none := by
  have hmem : lang ∈ d.keys.sort (· ≤ ·) := by
    rw [Finset.mem_sort, Finmap.mem_keys]
    exact Finmap.mem_of_lookup_eq_some h.lookup
  obtain ⟨k, hk⟩ := List.mem_iff_getElem?.mp hmem
  have hlt := (List.getElem?_eq_some_iff.mp hk).1
  rw [Finset.length_sort] at hlt
  unfold destroy
  rw [h.map.size_eq]
  exact deleteLoop_dangling h.map h.lookup hk _ 0 s.trees (Nat.zero_le k) (by omega) h.gone

theorem run_dangling (cs : List Call) (h : Dangling s d lang p) : (cs.foldlM (call g junk) s >>= destroy) = none := by
  induction cs generalizing s d with
  | nil => exact destroy_dangling h
  | cons c cs ih =>
    rw [List.foldlM_cons]
    cases hc : call g junk s c with
    | none => rfl
    | some s' =>
      obtain ⟨d', h'⟩ := call_dangling g junk h hc
      exact ih h'

/-! ## A whole life -/

/-- No language is generated from nothing once it has a tree; `known` are those that have. -/
def Admitted : List Int → List Call → Prop
  | _, [] => True
  | known, .generateTreeFromStrings input languageID :: cs =>
    if input = [] then languageID ∉ known ∧ Admitted known cs else Admitted (languageID :: known) cs
  | known, .encodeString .. :: cs => Admitted known cs
  | known, .decodeString .. :: cs => Admitted known cs

/-- What a call teaches. -/
def learn (codes : Int → Option (CodeTree Byte)) : Call → Int → Option (CodeTree Byte)
  | .generateTreeFromStrings input languageID =>
    if input = [] then codes else Function.update codes languageID (codeTree (frequencies input))
  | .encodeString .. => codes
  | .decodeString .. => codes

/-- `known` are the languages with a code. -/
def Knows (codes : Int → Option (CodeTree Byte)) (known : List Int) : Prop := ∀ lang, (codes lang).isSome ↔ lang ∈ known

variable {known : List Int}

theorem Knows.update (h : Knows codes known) (lang : Int) (c : CodeTree Byte) :
    Knows (Function.update codes lang (some c)) (lang :: known) := by
  intro l
  by_cases hl : l = lang
  · simp [hl]
  · simp [hl, h l]

theorem generate_dangles (h : Sound s codes) (hl : (codes lang).isSome) :
    ∃ s' d p, generateTreeFromStrings g junk s [] lang = some s' ∧ Dangling s' d lang p := by
  obtain ⟨d, ho⟩ := h
  obtain ⟨map, hhas, hm, hget⟩ := lookup_owns ho lang
  have hld : lang ∈ d := by
    by_contra hn
    rw [ho.absent lang hn] at hl
    cases hl
  obtain ⟨p, hp⟩ := Finmap.mem_iff.mp hld
  obtain ⟨map', hg, hm'⟩ := hget p hp
  obtain ⟨t, c, ht, hc, -⟩ := ho.tree lang p trivial hp
  obtain ⟨t', hfree, -⟩ := freeMemory_clean hc
  refine ⟨{ huffmanEncodingTrees := map', trees := s.trees.free p }, d, p, ?_, hm', hp, ?_, ?_⟩
  · simp [generateTreeFromStrings, dropTree, hhas, hld, hg, deleteTree, ht, hfree, Heap.delete_of ht]
  · show p < (s.trees.free p).top
    rw [Heap.top_free]
    exact Heap.lt_top ht
  · show (s.trees.free p).get p = none
    rw [Heap.get_free, if_pos rfl]

theorem run_lifetime : ∀ (cs : List Call) {s : StringCompressor} {codes : Int → Option (CodeTree Byte)} {known : List Int},
    Sound s codes → Knows codes known → (∀ k ∈ cs, k.WellFormed) →
    (Admitted known cs → ∃ s', cs.foldlM (call g junk) s = some s' ∧ Sound s' (cs.foldl learn codes)) ∧
      (¬Admitted known cs → (cs.foldlM (call g junk) s >>= destroy) = none) := by
  intro cs
  induction cs with
  | nil =>
    intro s codes known h _ _
    exact ⟨fun _ => ⟨s, rfl, h⟩, fun hn => absurd trivial hn⟩
  | cons k cs ih =>
    intro s codes known h hk hwf
    have hrest := fun k' hk' => hwf k' (List.mem_cons_of_mem _ hk')
    have hgo : ∀ {s₁ : StringCompressor} {known₁ : List Int}, call g junk s k = some s₁ → Sound s₁ (learn codes k) →
        Knows (learn codes k) known₁ → (Admitted known (k :: cs) ↔ Admitted known₁ cs) →
        (Admitted known (k :: cs) → ∃ s', (k :: cs).foldlM (call g junk) s = some s' ∧ Sound s' ((k :: cs).foldl learn codes)) ∧
          (¬Admitted known (k :: cs) → ((k :: cs).foldlM (call g junk) s >>= destroy) = none) := by
      intro s₁ known₁ hc h₁ hk₁ hadm
      rw [List.foldlM_cons, hc, List.foldl_cons, hadm]
      exact ih h₁ hk₁ hrest
    by_cases hgen : ∃ input languageID, k = .generateTreeFromStrings input languageID
    · obtain ⟨input, languageID, rfl⟩ := hgen
      by_cases hi : input = []
      · subst hi
        cases hl : codes languageID with
        | none =>
          have hnot : languageID ∉ known := by simp [← hk languageID, hl]
          obtain ⟨s₁, hc, h₁⟩ := generate_nothing g junk h hl
          exact hgo hc (by simpa [learn] using h₁) (by simpa [learn] using hk) (by simp [Admitted, hnot])
        | some c =>
          have hin : languageID ∈ known := by simp [← hk languageID, hl]
          obtain ⟨s₁, d, p, hc, hd⟩ := generate_dangles g junk h (by rw [hl]; rfl : (codes languageID).isSome)
          have hno : ¬Admitted known (.generateTreeFromStrings [] languageID :: cs) := by simp [Admitted, hin]
          refine ⟨fun hadm => absurd hadm hno, fun _ => ?_⟩
          rw [List.foldlM_cons, call, hc]
          exact run_dangling g junk cs hd
      · obtain ⟨s₁, c, hc, hcode, h₁⟩ := generate_sound g junk h hi languageID
        have hlearn : learn codes (.generateTreeFromStrings input languageID) = Function.update codes languageID (some c) := by
          simp [learn, hi, hcode]
        exact hgo hc (by rw [hlearn]; exact h₁) (by rw [hlearn]; exact hk.update languageID c) (by simp [Admitted, hi])
    · have hno : ∀ input languageID, k ≠ .generateTreeFromStrings input languageID := fun i l he => hgen ⟨i, l, he⟩
      obtain ⟨s₁, hc, h₁⟩ := call_string g junk h (hwf k (List.mem_cons_self ..)) hno
      have hlearn : learn codes k = codes := by
        cases k with
        | generateTreeFromStrings input languageID => exact absurd rfl (hno input languageID)
        | encodeString => rfl
        | decodeString => rfl
      have hadm : Admitted known (k :: cs) ↔ Admitted known cs := by
        cases k with
        | generateTreeFromStrings input languageID => exact absurd rfl (hno input languageID)
        | encodeString => rfl
        | decodeString => rfl
      exact hgo hc (by rw [hlearn]; exact h₁) (by rw [hlearn]; exact hk) hadm

def english : Int → Option (CodeTree Byte) := Function.update (fun _ => none) 0 (codeTree englishTable)

theorem new_knows :
    ∃ s, new g junk = some s ∧ Sound s english ∧ Knows english [0] := by
  obtain ⟨s, c, hnew, hc, h⟩ := new_sound g junk
  have he : english = Function.update (fun _ => none) 0 (some c) := by rw [english, hc]
  refine ⟨s, hnew, by rwa [he], fun lang => ?_⟩
  rw [he]
  by_cases hl : lang = 0
  · simp [hl]
  · simp [hl]

/-- A compressor can be deleted exactly if no language that had a tree was generated from
    nothing; then every tree was deleted, each once. -/
theorem lifetime_iff {cs : List Call} (hwf : ∀ k ∈ cs, k.WellFormed) :
    ((lifetime g junk cs).isSome ↔ Admitted [0] cs) ∧
      ∀ trees, lifetime g junk cs = some trees → ∀ p, trees.get p = none := by
  obtain ⟨s, hnew, h, hk⟩ := new_knows g junk
  obtain ⟨hyes, hno⟩ := run_lifetime g junk cs h hk hwf
  have hlife : lifetime g junk cs = cs.foldlM (call g junk) s >>= destroy := by
    rw [lifetime, hnew]
    rfl
  by_cases hadm : Admitted [0] cs
  · obtain ⟨s', hrun, h'⟩ := hyes hadm
    obtain ⟨trees, hdes, hclean⟩ := destroy_sound h'
    have hsome : lifetime g junk cs = some trees := by
      rw [hlife, hrun]
      exact hdes
    rw [hsome]
    refine ⟨by simp [hadm], fun trees' he => ?_⟩
    cases he
    exact hclean
  · rw [hlife, hno hadm]
    exact ⟨by simp [hadm], nofun⟩

/-- A tree for the language 3, and then none: the destructor follows a dangling pointer. -/
theorem lifetime_iff_emptied : lifetime (fun _ _ => 0) ⟨0, 0, none, none, none⟩
    [.generateTreeFromStrings [104, 105] 3, .generateTreeFromStrings [] 3] = none := by
  have hwf : ∀ k ∈ [Call.generateTreeFromStrings [104, 105] 3, .generateTreeFromStrings [] 3], k.WellFormed := by
    intro k hk
    simp only [List.mem_cons, List.not_mem_nil, or_false] at hk
    rcases hk with rfl | rfl
    · exact trivial
    · exact trivial
  have hiff := (lifetime_iff (fun _ _ => 0) ⟨0, 0, none, none, none⟩ hwf).1
  rw [← Option.not_isSome_iff_eq_none, hiff]
  simp [Admitted]

end StringCompressor

end RakHook
