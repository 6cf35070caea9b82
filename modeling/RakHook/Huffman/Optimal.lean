/-
  RakHook.Huffman.Optimal — the encoding table as a code.

  Whatever the frequencies are, and whatever becomes of the weights when their sums pass
  2^32, the table is a complete prefix code of words of 1 to 255 bits (`generate_code`).
  While the sums do not, no uniquely decodable code spends fewer bits on characters that
  are as frequent as the table says, where none counts for nothing (`generate_optimal`).
-/

import RakHook.Huffman.Code

namespace RakHook

open Lib

namespace HuffmanEncodingTree

variable {t : HuffmanEncodingTree} {c : CodeTree Byte}

def tableWord (t : HuffmanEncodingTree) (v : Byte) : List Bool :=
  match t.encodingTable v with
  | none => []
  | some e => (bits e.encoding).take e.bitLength

theorem Holds.tableWord_eq (h : Holds t c) (v : Byte) : tableWord t v = c.word v := by
  unfold tableWord
  rw [h.lookup v]
  show (bits (pack (c.word v))).take (c.word v).length = _
  rw [bits_pack_append, List.take_left]

theorem Holds.word_ne_nil (h : Holds t c) (v : Byte) : c.word v ≠ [] := by
  obtain ⟨l, r, rfl⟩ := h.inner
  exact CodeTree.word_ne_nil (h.word_mem v)

/-- The words of a table and what stands at them. -/
theorem Holds.words_perm (h : Holds t c) : c.words.Perm (characters.map fun v => (c.word v, v)) := by
  have hself : c.words = (c.words.map (·.2)).map fun v => (c.word v, v) := by
    rw [List.map_map]
    conv => lhs; rw [← List.map_id c.words]
    refine List.map_congr_left ?_
    rintro ⟨w, v⟩ hw
    rw [CodeTree.word_unique (h.leaves.nodup_iff.mpr characters_nodup) hw (h.word_mem v)]
    rfl
  rw [hself, CodeTree.words_symbols]
  exact h.leaves.map _

/-- The table is a complete prefix code, for every frequency table. -/
theorem generate_code (g : Junk) (junk : HuffmanEncodingTreeNode) (tables : List (Byte → BitVec 32))
    (frequencyTable : Byte → BitVec 32) : ∃ t, generateAll g junk (tables ++ [frequencyTable]) = some t ∧
      (∀ u v, tableWord t u <+: tableWord t v → u = v) ∧
      (∀ v, 1 ≤ (tableWord t v).length ∧ (tableWord t v).length ≤ 255) ∧
      CodeTree.kraft (characters.map fun v => (tableWord t v).length) = 1 := by
  obtain ⟨t, c, hgen, -, hh⟩ := generateAll_holds g junk tables frequencyTable
  refine ⟨t, hgen, ?_, ?_, ?_⟩
  · intro u v hp
    rw [hh.tableWord_eq, hh.tableWord_eq] at hp
    exact (CodeTree.words_prefixFree (hh.word_mem u) (hh.word_mem v) hp).2
  · intro v
    rw [hh.tableWord_eq]
    have hpos := List.length_pos_iff.mpr (hh.word_ne_nil v)
    have hlt := hh.word_length_lt v
    omega
  · rw [← CodeTree.kraft_words c]
    simp only [hh.tableWord_eq]
    have hperm := hh.words_perm.map (·.1.length)
    rw [List.map_map] at hperm
    exact (kraft_perm hperm).symm

/-- What a code spends on characters as frequent as they weigh. -/
def spent (frequencyTable : Byte → BitVec 32) (code : Byte → List Bool) : Nat :=
  (characters.map fun v => charWeight frequencyTable v * (code v).length).sum

/-- While the weights do not overflow, no uniquely decodable code is cheaper. -/
theorem generate_optimal (g : Junk) (junk : HuffmanEncodingTreeNode) (tables : List (Byte → BitVec 32))
    (frequencyTable : Byte → BitVec 32) (hsum : (characters.map (charWeight frequencyTable)).sum < 2 ^ 32) :
    ∃ t, generateAll g junk (tables ++ [frequencyTable]) = some t ∧
      ∀ code : Byte → List Bool, Function.Injective code → InformationTheory.UniquelyDecodable (Set.range code) →
        spent frequencyTable (tableWord t) ≤ spent frequencyTable code := by
  obtain ⟨t, c, hgen, hc, hh⟩ := generateAll_holds g junk tables frequencyTable
  refine ⟨t, hgen, ?_⟩
  intro code hinj hcode
  have hleaves := leafForest_leaves frequencyTable characters []
  rw [List.append_nil] at hleaves
  have hrange : Set.range code = {v | ∃ a ∈ characters, code a = v} := by
    ext v
    constructor
    · rintro ⟨a, rfl⟩
      exact ⟨a, mem_characters a, rfl⟩
    · rintro ⟨a, -, rfl⟩
      exact ⟨a, rfl⟩
  rw [hrange] at hcode
  have hcost : cost (charWeight frequencyTable) c = spent frequencyTable (tableWord t) := by
    unfold cost spent
    simp only [hh.tableWord_eq]
    have hperm := hh.words_perm.map fun x => charWeight frequencyTable x.2 * x.1.length
    rw [List.map_map] at hperm
    exact hperm.sum_eq
  have hadd : ∀ a b, a + b ≤ (characters.map (charWeight frequencyTable)).sum → addWeights a b = a + b := by
    intro a b hab
    exact Nat.mod_eq_of_lt (by omega)
  rw [← hcost]
  exact mergeAll_optimal (charWeight frequencyTable) hc (leafForest_sorted frequencyTable characters List.Pairwise.nil)
    hleaves characters_nodup hadd (fun a _ b _ hab => hinj hab) hcode

theorem generate_optimal_even : ∃ t, generateAll (fun _ _ => 0) ⟨0, 0, none, none, none⟩ [fun _ => 1] = some t ∧
    ∀ code : Byte → List Bool, Function.Injective code → InformationTheory.UniquelyDecodable (Set.range code) →
      spent (fun _ => 1) (tableWord t) ≤ spent (fun _ => 1) code :=
  generate_optimal (fun _ _ => 0) ⟨0, 0, none, none, none⟩ [] (fun _ => 1) (by decide +kernel)

end HuffmanEncodingTree

end RakHook
