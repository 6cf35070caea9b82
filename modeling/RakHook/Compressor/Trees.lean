/-
  RakHook.Compressor.Trees — the trees of a compressor over its whole life.

  `Owns P s d codes`: the map holds the addresses `d`, no two languages share one, and the
  trees that are there are those of the languages in `P`, each with the code of its
  language. The constructor brings it about for English, and all calls keep it but one:
  `GenerateTreeFromStrings` without input deletes the tree of a language that has one, and
  leaves its address in the map. From then on the compressor can never be deleted; so its
  life ends well exactly if that call is not made (`lifetime_iff`).
-/

import RakHook.Compressor.Model

namespace RakHook

open Lib

namespace StringCompressor

variable (g : Junk) (junk : HuffmanEncodingTreeNode) {s : StringCompressor} {d : Finmap fun _ : Int => Nat}
  {codes : Int → Option (CodeTree Byte)} {P Q : Int → Prop} {lang : Int}

structure Owns (P : Int → Prop) (s : StringCompressor) (d : Finmap fun _ : Int => Nat)
    (codes : Int → Option (CodeTree Byte)) : Prop where
  map : Map.Represents s.huffmanEncodingTrees d
  tree : ∀ lang p, P lang → d.lookup lang = some p →
    ∃ t c, s.trees.get p = some t ∧ HuffmanEncodingTree.Holds t c ∧ codes lang = some c
  absent : ∀ lang, lang ∉ d → codes lang = none
  inj : ∀ a b p, d.lookup a = some p → d.lookup b = some p → a = b
  live : ∀ p t, s.trees.get p = some t → ∃ lang, P lang ∧ d.lookup lang = some p

/-- Every language of the map has its tree. -/
def Sound (s : StringCompressor) (codes : Int → Option (CodeTree Byte)) : Prop := ∃ d, Owns (fun _ => True) s d codes

theorem Owns.congr (h : Owns P s d codes) (hpq : ∀ lang ∈ d, P lang ↔ Q lang) : Owns Q s d codes := by
  refine ⟨h.map, fun lang p hq hp => ?_, h.absent, h.inj, fun p t ht => ?_⟩
  · exact h.tree lang p ((hpq lang (Finmap.mem_of_lookup_eq_some hp)).mpr hq) hp
  · obtain ⟨lang, hl, hp⟩ := h.live p t ht
    exact ⟨lang, (hpq lang (Finmap.mem_of_lookup_eq_some hp)).mp hl, hp⟩

theorem Owns.setMap (h : Owns P s d codes) {map : Map Int Nat} (hm : Map.Represents map d) :
    Owns P { s with huffmanEncodingTrees := map } d codes := ⟨hm, h.tree, h.absent, h.inj, h.live⟩

theorem compares : OrderedList.Compares (defaultMapKeyComparison (κ := Int)) id := Map.defaultMapKeyComparison_compares

theorem deleteTree_owns (h : Owns P s d codes) (hl : P lang) {p : Nat} (hp : d.lookup lang = some p) :
    ∃ trees, deleteTree s.trees p = some trees ∧ Owns (fun l => P l ∧ l ≠ lang) { s with trees := trees } d codes := by
  obtain ⟨t, c, ht, hc, -⟩ := h.tree lang p hl hp
  obtain ⟨t', hfree, -⟩ := HuffmanEncodingTree.freeMemory_clean hc
  refine ⟨s.trees.free p, by simp [deleteTree, ht, hfree, Heap.delete_of ht], h.map, ?_, h.absent, h.inj, ?_⟩
  · rintro l q ⟨hl', hne⟩ hq
    obtain ⟨u, c', hu, hc', he⟩ := h.tree l q hl' hq
    refine ⟨u, c', ?_, hc', he⟩
    have hqp : q ≠ p := fun he => hne (h.inj l lang p (he ▸ hq) hp)
    show (s.trees.free p).get q = some u
    rw [Heap.get_free, if_neg hqp, hu]
  · intro q u hu
    replace hu : (s.trees.free p).get q = some u := hu
    rw [Heap.get_free] at hu
    split at hu
    · cases hu
    · rename_i hqp
      obtain ⟨l, hl', hq⟩ := h.live q u hu
      exact ⟨l, ⟨hl', fun he => hqp (Option.some.inj (hq.symm.trans (he ▸ hp)))⟩, hq⟩

/-- A tree for a language that has none in the heap. -/
theorem newTree_owns (h : Owns (· ≠ lang) s d codes) (table : Byte → BitVec 32) :
    ∃ s' c, newTree g junk s table lang = some s' ∧ HuffmanEncodingTree.codeTree table = some c ∧
      Sound s' (Function.update codes lang (some c)) := by
  obtain ⟨t, c, hgen, hc, hh⟩ := HuffmanEncodingTree.generate_holds g junk (.inl HuffmanEncodingTree.empty_clean) table
  obtain ⟨map, hset, hm⟩ := Map.set_represents compares h.map lang s.trees.top
  have hnew : ∀ l p, d.lookup l = some p → l ≠ lang → p ≠ s.trees.top := by
    intro l p hp hl
    obtain ⟨u, -, hu, -⟩ := h.tree l p hl hp
    exact Heap.ne_top hu
  refine ⟨{ huffmanEncodingTrees := map, trees := s.trees.new t }, c, by simp [newTree, hgen, hset], hc,
    d.insert lang s.trees.top, hm, ?_, ?_, ?_, ?_⟩
  · intro l p _ hp
    by_cases hl : l = lang
    · subst hl
      rw [Finmap.lookup_insert] at hp
      cases hp
      exact ⟨t, c, by simp [Heap.get_new], hh, by simp⟩
    · rw [Finmap.lookup_insert_of_ne _ hl] at hp
      obtain ⟨u, c', hu, hc', he⟩ := h.tree l p hl hp
      exact ⟨u, c', Heap.get_new_of hu, hc', by simp [hl, he]⟩
  · intro l hl
    rw [Finmap.mem_insert, not_or] at hl
    simp [hl.1, h.absent l hl.2]
  · intro a b p ha hb
    by_cases hal : a = lang <;> by_cases hbl : b = lang
    · rw [hal, hbl]
    · subst hal
      rw [Finmap.lookup_insert] at ha
      rw [Finmap.lookup_insert_of_ne _ hbl] at hb
      exact absurd (Option.some.inj ha).symm (hnew b p hb hbl)
    · subst hbl
      rw [Finmap.lookup_insert] at hb
      rw [Finmap.lookup_insert_of_ne _ hal] at ha
      exact absurd (Option.some.inj hb).symm (hnew a p ha hal)
    · rw [Finmap.lookup_insert_of_ne _ hal] at ha
      rw [Finmap.lookup_insert_of_ne _ hbl] at hb
      exact h.inj a b p ha hb
  · intro p u hu
    replace hu : (s.trees.new t).get p = some u := hu
    rw [Heap.get_new] at hu
    split at hu
    · rename_i hp
      exact ⟨lang, trivial, by rw [Finmap.lookup_insert, hp]⟩
    · obtain ⟨l, hl, hp⟩ := h.live p u hu
      exact ⟨l, trivial, by rw [Finmap.lookup_insert_of_ne _ hl, hp]⟩

theorem new_sound : ∃ s c, new g junk = some s ∧
    HuffmanEncodingTree.codeTree englishTable = some c ∧ Sound s (Function.update (fun _ => none) 0 (some c)) := by
  have h : Owns (· ≠ 0) { huffmanEncodingTrees := .empty, trees := .empty } ∅ fun _ => none := by
    refine ⟨⟨[], Map.empty_holds, Map.tabulates_empty⟩, ?_, fun _ _ => rfl, ?_, ?_⟩
    · intro lang p _ hp
      rw [Finmap.lookup_empty] at hp
      cases hp
    · intro a b p ha
      rw [Finmap.lookup_empty] at ha
      cases ha
    · intro p t ht
      rw [Heap.get_empty] at ht
      cases ht
  exact newTree_owns g junk h englishTable

/-- The map says what it knows; a known language leads to its tree. -/
theorem lookup_owns (h : Owns P s d codes) (lang : Int) :
    ∃ map, s.huffmanEncodingTrees.has defaultMapKeyComparison lang = some (decide (lang ∈ d), map) ∧ Map.Represents map d ∧
      ∀ p, d.lookup lang = some p → ∃ map', map.get defaultMapKeyComparison lang = some (p, map') ∧ Map.Represents map' d := by
  obtain ⟨map, hhas, hm⟩ := Map.has_represents compares h.map lang
  exact ⟨map, hhas, hm, fun p hp => Map.get_represents compares hm hp⟩

theorem dropTree_owns (h : Owns (fun _ => True) s d codes) (lang : Int) :
    ∃ s', s.dropTree lang = some s' ∧ Owns (· ≠ lang) s' d codes := by
  obtain ⟨map, hhas, hm, hget⟩ := lookup_owns h lang
  by_cases hl : lang ∈ d
  · obtain ⟨p, hp⟩ := Finmap.mem_iff.mp hl
    obtain ⟨map', hg, hm'⟩ := hget p hp
    obtain ⟨trees, hdel, ho⟩ := deleteTree_owns h trivial hp
    refine ⟨{ huffmanEncodingTrees := map', trees := trees }, ?_, (ho.setMap hm').congr fun l _ => by simp⟩
    simp [dropTree, hhas, hl, hg, hdel]
  · refine ⟨{ s with huffmanEncodingTrees := map }, by simp [dropTree, hhas, hl], (h.setMap hm).congr fun l hld => ?_⟩
    have hne : l ≠ lang := fun he => hl (he ▸ hld)
    simpa using hne

/-- `GenerateTreeFromStrings` with input: the language gets the code for it. -/
theorem generate_sound (h : Sound s codes) {input : List Byte} (hi : input ≠ []) (lang : Int) :
    ∃ s' c, generateTreeFromStrings g junk s input lang = some s' ∧
      HuffmanEncodingTree.codeTree (frequencies input) = some c ∧ Sound s' (Function.update codes lang (some c)) := by
  obtain ⟨d, ho⟩ := h
  obtain ⟨s₁, hdrop, ho₁⟩ := dropTree_owns ho lang
  obtain ⟨s', c, hnew, hc, hs'⟩ := newTree_owns g junk ho₁ (frequencies input)
  refine ⟨s', c, ?_, hc, hs'⟩
  have hlen : input.length ≠ 0 := fun h0 => hi (List.eq_nil_of_length_eq_zero h0)
  simp only [generateTreeFromStrings, hdrop, Option.bind_eq_bind, Option.bind_some]
  rw [if_neg hlen, hnew]

theorem generate_nothing (h : Sound s codes) (hl : codes lang = none) :
    ∃ s', generateTreeFromStrings g junk s [] lang = some s' ∧ Sound s' codes := by
  obtain ⟨d, ho⟩ := h
  have hld : lang ∉ d := by
    intro hld
    obtain ⟨p, hp⟩ := Finmap.mem_iff.mp hld
    obtain ⟨t, c, -, -, hc⟩ := ho.tree lang p trivial hp
    rw [hl] at hc
    cases hc
  obtain ⟨s', hdrop, ho'⟩ := dropTree_owns ho lang
  refine ⟨s', by simp [generateTreeFromStrings, hdrop], d, ho'.congr fun l hl => ?_⟩
  have hne : l ≠ lang := fun he => hld (he ▸ hl)
  simpa using hne

/-! ## The destructor -/

theorem deleteLoop_owns : ∀ (count : Nat) {i : Nat} {s : StringCompressor}, i + count = d.keys.card →
    Owns (· ∈ (d.keys.sort (· ≤ ·)).drop i) s d codes →
    ∃ trees, deleteLoop s.huffmanEncodingTrees count i s.trees = some trees ∧ ∀ p, trees.get p = none := by
  intro count
  induction count with
  | zero =>
    intro i s hi h
    refine ⟨s.trees, rfl, fun p => ?_⟩
    cases hp : s.trees.get p with
    | none => rfl
    | some t =>
      obtain ⟨lang, hl, -⟩ := h.live p t hp
      rw [List.drop_eq_nil_of_le (by rw [Finset.length_sort]; omega)] at hl
      cases hl
  | succ count ih =>
    intro i s hi h
    have hlt : i < (d.keys.sort (· ≤ ·)).length := by
      rw [Finset.length_sort]
      omega
    obtain ⟨lang, hlang⟩ : ∃ lang, (d.keys.sort (· ≤ ·))[i]? = some lang := ⟨_, List.getElem?_eq_getElem hlt⟩
    obtain ⟨as, n, bs, hl, -, -, rfl, hp⟩ := h.map.position hlang
    have hmem : lang ∈ (d.keys.sort (· ≤ ·)).drop as.length :=
      List.mem_of_getElem? (by rw [List.getElem?_drop, Nat.add_zero]; exact hlang)
    obtain ⟨trees, hdel, ho⟩ := deleteTree_owns h hmem hp
    have hnodup : ((d.keys.sort (· ≤ ·)).drop as.length).Nodup := (Finset.sort_nodup ..).sublist (List.drop_sublist ..)
    have hcons : (d.keys.sort (· ≤ ·)).drop as.length = lang :: (d.keys.sort (· ≤ ·)).drop (as.length + 1) := by
      rw [List.drop_eq_getElem_cons hlt, (List.getElem?_eq_some_iff.mp hlang).2]
    obtain ⟨trees', hloop, hclean⟩ := ih (i := as.length + 1) (s := { s with trees := trees }) (by omega) (ho.congr fun l _ => by
      rw [hcons] at hnodup ⊢
      have hnot := (List.nodup_cons.mp hnodup).1
      constructor
      · rintro ⟨hm, hne⟩
        exact (List.mem_cons.mp hm).resolve_left hne
      · intro hm
        exact ⟨List.mem_cons_of_mem _ hm, fun he => hnot (he ▸ hm)⟩)
    refine ⟨trees', ?_, hclean⟩
    rw [deleteLoop, Map.atIndex, hl.dataAt_eq]
    simp only [Option.bind_eq_bind, Option.bind_some, hdel]
    exact hloop

theorem destroy_sound (h : Sound s codes) : ∃ trees, s.destroy = some trees ∧ ∀ p, trees.get p = none := by
  obtain ⟨d, ho⟩ := h
  have hstart : Owns (· ∈ (d.keys.sort (· ≤ ·)).drop 0) s d codes := by
    refine ho.congr fun lang hl => ?_
    rw [List.drop_zero, Finset.mem_sort, Finmap.mem_keys]
    simpa using hl
  unfold destroy
  rw [ho.map.size_eq]
  exact deleteLoop_owns d.keys.card (Nat.zero_add _) hstart

end StringCompressor

end RakHook
