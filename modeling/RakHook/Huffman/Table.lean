/-
  RakHook.Huffman.Table — the encoding table, and what `GenerateFromFrequencyTable` leaves.

  From a leaf the parents lead up to the root and spell the leaf's word from its end
  (`climb_word`). So every character's entry is its word in the tree, packed from the left
  (`tableLoop_words`). `Holds t c`: the nodes of `t` are the tree `c` over all 256
  characters, and the table its words. That is what `GenerateFromFrequencyTable` leaves,
  whatever the table and whatever tree was there before (`generate_holds`), and what
  `FreeMemory` takes away without freeing a node twice (`freeMemory_clean`).
-/

import RakHook.Huffman.Generate

namespace RakHook

open Lib

namespace HuffmanEncodingTree

variable {nodes : Nodes} {f : List Shape} {s : Shape}

/-! ## The way up -/

/-- One step up, to a node with a left child at `x`. -/
theorem climb_step {root a p x : Nat} {n : HuffmanEncodingTreeNode} (ha : ParentIs nodes a p) (hp : nodes.get p = some n)
    (hx : n.left = some x) (room : Nat) (tempPath : List Bool) :
    climb nodes root (room + 1) a tempPath = if p = root then some (tempPath ++ [some x != some a])
      else climb nodes root room p (tempPath ++ [some x != some a]) := by
  obtain ⟨m, hm, hpar⟩ := ha
  simp only [climb, hm, hpar, hp, hx, Option.bind_eq_bind, Option.bind_some, Option.pure_def]

/-- The way from a child to its parent spells the bit that leads back. -/
theorem climb_child {p : Nat} {l r c : Shape} {b : Bool} (h : Repr nodes (.node p l r))
    (hd : (Shape.node p l r).addrs.Nodup) (hc : c = if b then r else l) (root room : Nat) (tempPath : List Bool) :
    climb nodes root (room + 1) c.addr tempPath = if p = root then some (tempPath ++ [b])
      else climb nodes root room p (tempPath ++ [b]) := by
  obtain ⟨⟨n, hn, hleft, -⟩, hpl, hpr, -, -⟩ := h
  obtain ⟨-, hlr⟩ := List.nodup_cons.mp hd
  have hne : l.addr ≠ r.addr := fun he => (List.nodup_append.mp hlr).2.2 _ l.addr_mem _ r.addr_mem he
  cases b with
  | false =>
    obtain rfl : c = l := hc
    rw [climb_step hpl hn hleft, bne_self_eq_false]
  | true =>
    obtain rfl : c = r := hc
    rw [climb_step hpr hn hleft, show (some l.addr != some c.addr) = true by simpa using hne]

theorem climb_inside {root : Nat} : ∀ {s : Shape} {w : List Bool} {v : Byte}, Repr nodes s → s.addrs.Nodup →
    root ∉ s.addrs → (w, v) ∈ s.tree.words → ∃ q, (v, q) ∈ s.leafAddrs ∧ ∀ room tempPath,
      climb nodes root (w.length + room) q tempPath = climb nodes root room s.addr (tempPath ++ w.reverse) := by
  intro s
  induction s with
  | leaf p u =>
    intro w v _ _ _ hw
    obtain ⟨rfl, rfl⟩ := CodeTree.word_leaf hw
    exact ⟨p, List.mem_singleton_self _, fun room tempPath => by simp [Shape.addr]⟩
  | node p l r ihl ihr =>
    intro w v h hd hroot hw
    obtain ⟨-, -, -, hl, hr⟩ := id h
    obtain ⟨hdl, hdr, -⟩ := List.nodup_append.mp (List.nodup_cons.mp hd).2
    simp only [Shape.addrs, List.mem_cons, List.mem_append, not_or] at hroot
    have hup : ∀ (b : Bool) (c : Shape) (w' : List Bool), c = (if b then r else l) → (∃ q, (v, q) ∈ c.leafAddrs ∧
        ∀ room tempPath, climb nodes root (w'.length + room) q tempPath =
          climb nodes root room c.addr (tempPath ++ w'.reverse)) →
        ∃ q, (v, q) ∈ c.leafAddrs ∧ ∀ room tempPath, climb nodes root ((b :: w').length + room) q tempPath =
          climb nodes root room p (tempPath ++ (b :: w').reverse) := by
      rintro b c w' hc ⟨q, hq, hclimb⟩
      refine ⟨q, hq, ?_⟩
      intro room tempPath
      rw [List.length_cons, Nat.add_assoc, Nat.add_comm 1 room, hclimb, climb_child h hd hc, if_neg (Ne.symm hroot.1),
        List.reverse_cons, List.append_assoc]
    rcases CodeTree.mem_words_node.mp hw with ⟨w', rfl, hw'⟩ | ⟨w', rfl, hw'⟩
    · obtain ⟨q, hq, hclimb⟩ := hup false l w' rfl (ihl hl hdl hroot.2.1 hw')
      exact ⟨q, List.mem_append_left _ hq, hclimb⟩
    · obtain ⟨q, hq, hclimb⟩ := hup true r w' rfl (ihr hr hdr hroot.2.2 hw')
      exact ⟨q, List.mem_append_right _ hq, hclimb⟩

/-- From a leaf up to the root: its word from the end. -/
theorem climb_word {p : Nat} {l r : Shape} {w : List Bool} {v : Byte} (h : Repr nodes (.node p l r))
    (hd : (Shape.node p l r).addrs.Nodup) (hw : (w, v) ∈ (Shape.node p l r).tree.words) :
    ∃ q, (v, q) ∈ (Shape.node p l r).leafAddrs ∧ ∀ room, w.length ≤ room → climb nodes p room q [] = some w.reverse := by
  obtain ⟨-, -, -, hl, hr⟩ := id h
  obtain ⟨hp, hlr⟩ := List.nodup_cons.mp hd
  obtain ⟨hdl, hdr, -⟩ := List.nodup_append.mp hlr
  simp only [List.mem_append, not_or] at hp
  have hup : ∀ (b : Bool) (c : Shape) (w' : List Bool) (q : Nat), c = (if b then r else l) →
      (∀ room tempPath, climb nodes p (w'.length + room) q tempPath = climb nodes p room c.addr (tempPath ++ w'.reverse)) →
      ∀ room, (b :: w').length ≤ room → climb nodes p room q [] = some (b :: w').reverse := by
    intro b c w' q hc hclimb room hroom
    obtain ⟨room, rfl⟩ := Nat.exists_eq_add_of_le hroom
    rw [List.length_cons, Nat.add_assoc, Nat.add_comm 1 room, hclimb, climb_child h hd hc, if_pos rfl, List.reverse_cons]
    rfl
  rcases CodeTree.mem_words_node.mp hw with ⟨w', rfl, hw'⟩ | ⟨w', rfl, hw'⟩
  · obtain ⟨q, hq, hclimb⟩ := climb_inside hl hdl hp.1 hw'
    exact ⟨q, List.mem_append_left _ hq, hup false l w' q rfl hclimb⟩
  · obtain ⟨q, hq, hclimb⟩ := climb_inside hr hdr hp.2 hw'
    exact ⟨q, List.mem_append_right _ hq, hup true r w' q rfl hclimb⟩

/-! ## The table -/

theorem foldl_writes (g : Junk) : ∀ {w : List Bool} {bs : BitStream} {l : List Bool}, BitStream.Wf bs l →
    2 * (l.length + w.length) + 7 < 2147483648 →
    BitStream.Wf (w.foldl (fun bs b => if b then bs.write1 g else bs.write0 g) bs) (l ++ w) := by
  intro w
  induction w with
  | nil =>
    intro bs l h _
    rwa [List.append_nil]
  | cons b w ih =>
    intro bs l h hs
    rw [List.length_cons] at hs
    have hb := (BitStream.writeBool_spec g h b (by omega)).1
    have hrest := ih hb (by simp only [List.length_append, List.length_singleton]; omega)
    rwa [List.append_assoc] at hrest

/-- Every character gets its word, if the climb from its leaf finds it. -/
theorem tableLoop_words (g : Junk) {root : Nat} {leafList : List Nat} (code : Byte → List Bool) : ∀ (cs : List Byte)
    (bs : BitStream) (table : Byte → Option CharacterEncoding), BitStream.Wf bs [] →
    (∀ c ∈ cs, ∃ leaf, leafList[c.toNat]? = some leaf ∧ climb nodes root 256 leaf [] = some (code c).reverse ∧
      (code c).length < 256) →
    ∃ table', tableLoop g nodes root leafList cs bs table = some table' ∧
      ∀ c, table' c = if c ∈ cs then some ⟨pack (code c), (code c).length⟩ else table c := by
  intro cs
  induction cs with
  | nil =>
    intro bs table _ _
    exact ⟨table, rfl, fun c => by rw [if_neg (List.not_mem_nil)]⟩
  | cons a cs ih =>
    intro bs table h hcode
    obtain ⟨leaf, hleaf, hclimb, hlen⟩ := hcode a (List.mem_cons_self ..)
    have hw : BitStream.Wf (writePath g bs (code a).reverse) (code a) := by
      have hf := foldl_writes g (w := (code a).reverse.reverse) h (by simp; omega)
      rw [List.nil_append, List.reverse_reverse] at hf
      rwa [writePath, List.reverse_reverse]
    have hcopy := BitStream.copyOut_eq hw.toView (by omega)
    obtain ⟨table', htable, hget⟩ := ih _ (fun c => if c = a then some ⟨pack (code a), (code a).length⟩ else table c)
      (BitStream.reset_wf hw) fun c hc => hcode c (List.mem_cons_of_mem _ hc)
    refine ⟨table', ?_, ?_⟩
    · have hcast : ((((code a).length : Int)) % 256).toNat = (code a).length := by omega
      simp only [tableLoop, hleaf, hclimb, hcopy, hcast, Option.bind_eq_bind, Option.bind_some]
      exact htable
    · intro c
      rw [hget]
      by_cases hc : c ∈ cs
      · rw [if_pos hc, if_pos (List.mem_cons_of_mem _ hc)]
      · rw [if_neg hc]
        by_cases hca : c = a
        · rw [if_pos hca, if_pos (by rw [hca]; exact List.mem_cons_self ..), hca]
        · rw [if_neg hca, if_neg (by simp [hc, hca])]

/-! ## `GenerateFromFrequencyTable` -/

theorem mem_characters (c : Byte) : c ∈ characters :=
  List.mem_map.mpr ⟨c.toNat, List.mem_range.mpr c.isLt, by simp⟩

theorem characters_toNat : characters.map BitVec.toNat = List.range 256 := by
  unfold characters
  rw [List.map_map]
  conv => rhs; rw [← List.map_id (List.range 256)]
  refine List.map_congr_left ?_
  intro i hi
  have := List.mem_range.mp hi
  simp only [Function.comp_apply, BitVec.toNat_ofNat, id]
  omega

theorem characters_nodup : characters.Nodup :=
  List.Nodup.of_map BitVec.toNat (by rw [characters_toNat]; exact List.nodup_range)

@[simp] theorem characters_length : characters.length = 256 := by simp [characters]

/-- No tree: no nodes, no encodings. -/
structure Clean (t : HuffmanEncodingTree) : Prop where
  root : t.root = none
  nodes : ∀ p, t.nodes.get p = none
  table : ∀ c, t.encodingTable c = none

/-- `t` is the tree `c` over all characters: its nodes, and its table. -/
structure Holds (t : HuffmanEncodingTree) (c : CodeTree Byte) : Prop where
  nodes : ∃ s, t.root = some s.addr ∧ Built t.nodes [s] ∧ s.tree = c
  inner : ∃ l r, c = .node l r
  leaves : c.leaves.Perm characters
  table : ∀ w v, (w, v) ∈ c.words → t.encodingTable v = some ⟨pack w, w.length⟩

theorem empty_clean : Clean empty := ⟨rfl, fun p => Heap.get_empty p, fun _ => rfl⟩

theorem leafForest_leaves (frequencyTable : Byte → BitVec 32) (cs : List Byte) (f : Forest Byte) :
    (leafForest frequencyTable cs f).Perm (cs.map (fun c => (charWeight frequencyTable c, .leaf c)) ++ f) := by
  induction cs generalizing f with
  | nil => exact .refl _
  | cons a cs ih =>
    refine (ih _).trans ((List.Perm.append_left _ (insertByWeight_perm _ f)).trans ?_)
    exact List.perm_middle

theorem leafForest_sorted (frequencyTable : Byte → BitVec 32) (cs : List Byte) {f : Forest Byte} (h : Sorted f) :
    Sorted (leafForest frequencyTable cs f) := by
  induction cs generalizing f with
  | nil => exact h
  | cons a cs ih => exact ih (insertByWeight_sorted h)

theorem codeTree_spec (frequencyTable : Byte → BitVec 32) : ∃ l r, codeTree frequencyTable = some (.node l r) ∧
    (CodeTree.node l r).leaves.Perm characters := by
  have hperm := leafForest_leaves frequencyTable characters []
  rw [List.append_nil] at hperm
  have hne : leafForest frequencyTable characters [] ≠ [] := by
    intro hnil
    rw [hnil] at hperm
    exact absurd hperm.length_eq (by simp)
  obtain ⟨c, hc⟩ := Option.isSome_iff_exists.mp (mergeAll_isSome addWeights _ hne)
  have hleaves : c.leaves.Perm characters := by
    refine (mergeAll_leaves hc).trans ((hperm.flatMap_right _).trans ?_)
    rw [List.flatMap_map]
    simp [CodeTree.leaves]
  cases c with
  | leaf v => exact absurd hleaves.length_eq (by simp [CodeTree.leaves])
  | node l r => exact ⟨l, r, hc, hleaves⟩

theorem generate_clean (g : Junk) (junk : HuffmanEncodingTreeNode) {t : HuffmanEncodingTree} (h : Clean t)
    (frequencyTable : Byte → BitVec 32) : ∃ t' c, t.generateFromFrequencyTable g junk frequencyTable = some t' ∧
      codeTree frequencyTable = some c ∧ Holds t' c := by
  have hb : Built t.nodes [] := ⟨nofun, List.nodup_nil, fun p => by simp [h.nodes]⟩
  have hstart : characters.map BitVec.toNat = List.range' ([] : List Nat).length characters.length := by
    rw [characters_toNat, characters_length]
    exact List.range_eq_range'
  obtain ⟨nodes, list, leafList, cur, f, hleaf, hb₁, hr₁, hi₁, hl₁, hfor, hlen⟩ := leafLoop_built junk frequencyTable hb
    ⟨[], [], LinkedList.empty_holds, rfl⟩ rfl nofun hstart
  rw [characters_length, List.length_nil] at hlen
  have hsize := LinkedList.listSize_eq hr₁
  rw [hi₁, List.length_map] at hsize
  obtain ⟨s, nodes', hmerge, hb₂, htree, hperm⟩ := mergeLoop_built junk list.listSize hb₁ hr₁ hi₁ (by omega)
    (by omega)
  obtain ⟨l, r, hcode, hleaves⟩ := codeTree_spec frequencyTable
  have hst : s.tree = .node l r := by
    rw [hfor] at htree
    exact Option.some.inj (htree.symm.trans hcode)
  -- every character has a word, and the climb from its leaf finds it
  have hword : ∀ v, ∃ w, (w, v) ∈ (CodeTree.node l r).words :=
    fun v => CodeTree.exists_word (hleaves.mem_iff.mpr (mem_characters v))
  choose code hcw using hword
  have hclimb : ∀ c ∈ characters, ∃ leaf, leafList[c.toNat]? = some leaf ∧
      climb nodes' s.addr 256 leaf [] = some (code c).reverse ∧ (code c).length < 256 := by
    intro c _
    have hc := hcw c
    have hshort := CodeTree.word_length_lt hc
    rw [hleaves.length_eq, characters_length] at hshort
    rw [← hst] at hc
    cases s with
    | leaf p v => cases hst
    | node p l' r' =>
      obtain ⟨q, hq, hup⟩ := climb_word (hb₂.repr _ (List.mem_singleton_self _)) (by simpa using hb₂.nodup) hc
      exact ⟨q, hl₁ (c, q) (hperm.mem_iff.mp hq), hup 256 (Nat.le_of_lt hshort), hshort⟩
  obtain ⟨table, htable, hget⟩ := tableLoop_words g code characters (.empty g) t.encodingTable (BitStream.empty_wf g) hclimb
  refine ⟨{ nodes := nodes', root := some s.addr, encodingTable := table }, .node l r, ?_, hcode,
    ⟨s, rfl, hb₂, hst⟩, ⟨l, r, rfl⟩, hleaves, ?_⟩
  · have hfree : t.freeMemory = some t := by rw [freeMemory, h.root]
    simp only [generateFromFrequencyTable, hfree, hleaf, hmerge, htable, Option.bind_eq_bind, Option.bind_some, Option.pure_def]
  · intro w v hw
    obtain rfl := CodeTree.word_unique (hleaves.nodup_iff.mpr characters_nodup) hw (hcw v)
    exact (hget v).trans (if_pos (mem_characters v))

/-! ## `FreeMemory` -/

theorem Built.free (h : Built nodes (s :: f)) : ∃ n children, nodes.get s.addr = some n ∧
    n.left.toList ++ n.right.toList = children.map Shape.addr ∧ Built (nodes.free s.addr) (f ++ children) ∧
    ((f ++ children).flatMap Shape.addrs).length + 1 = ((s :: f).flatMap Shape.addrs).length := by
  have hrest : ∀ children : List Shape, (s.addr :: children.flatMap Shape.addrs) = s.addrs →
      (∀ c ∈ children, Repr nodes c) → Built (nodes.free s.addr) (f ++ children) ∧
        ((f ++ children).flatMap Shape.addrs).length + 1 = ((s :: f).flatMap Shape.addrs).length := by
    intro children hc hrep
    have hperm : ((s :: f).flatMap Shape.addrs).Perm (s.addr :: (f ++ children).flatMap Shape.addrs) := by
      rw [List.flatMap_cons, ← hc, List.flatMap_append, List.cons_append]
      exact List.perm_append_comm.cons _
    obtain ⟨hs, hnd⟩ := List.nodup_cons.mp (hperm.nodup_iff.mp h.nodup)
    refine ⟨⟨?_, hnd, ?_⟩, by rw [hperm.length_eq, List.length_cons]⟩
    · intro c hcm
      have hold : Repr nodes c := by
        rcases List.mem_append.mp hcm with hcf | hcc
        · exact h.repr c (List.mem_cons_of_mem _ hcf)
        · exact hrep c hcc
      refine repr_same (fun p hp => ?_) hold
      have hps : p ≠ s.addr := by
        rintro rfl
        exact hs (List.mem_flatMap.mpr ⟨c, hcm, hp⟩)
      rw [Heap.get_free, if_neg hps]
    · intro p
      have hlive := (h.live p).trans hperm.mem_iff
      rw [Heap.get_free]
      by_cases hp : p = s.addr
      · subst hp
        simpa using hs
      · rw [if_neg hp, hlive]
        simp [hp]
  cases s with
  | leaf p v =>
    obtain ⟨n, hn, hl, hr, -⟩ := h.repr _ (List.mem_cons_self ..)
    exact ⟨n, [], hn, by rw [hl, hr]; rfl, hrest [] rfl nofun⟩
  | node p l r =>
    obtain ⟨⟨n, hn, hl, hr⟩, -, -, hrl, hrr⟩ := h.repr _ (List.mem_cons_self ..)
    refine ⟨n, [l, r], hn, by rw [hl, hr]; rfl, hrest [l, r] (by simp [Shape.addrs, Shape.addr]) ?_⟩
    intro c hc
    rcases List.mem_cons.mp hc with rfl | hc
    · exact hrl
    · obtain rfl := List.mem_singleton.mp hc
      exact hrr

theorem pushChild_holds {q : Queue Nat} {l : List Nat} (h : Queue.Holds q l) (p : Option Nat) :
    Queue.Holds (pushChild q p) (l ++ p.toList) := by
  cases p with
  | none => simpa [pushChild] using h
  | some p => exact Queue.push_holds h p

theorem freeLoop_clean : ∀ {fuel : Nat} {q : Queue Nat} {nodes : Nodes} {f : List Shape}, Queue.Holds q (f.map Shape.addr) →
    Built nodes f → (f.flatMap Shape.addrs).length < fuel →
    ∃ nodes', freeLoop fuel q nodes = some nodes' ∧ ∀ p, nodes'.get p = none := by
  intro fuel
  induction fuel with
  | zero => intro q nodes f _ _ hf; omega
  | succ fuel ih =>
    intro q nodes f hq hb hf
    have hsize := hq.size_eq
    unfold freeLoop
    cases f with
    | nil =>
      rw [if_neg (by rw [hsize]; exact Nat.lt_irrefl 0)]
      refine ⟨nodes, rfl, ?_⟩
      intro p
      have hlive := hb.live p
      cases hp : nodes.get p with
      | none => rfl
      | some n => simp [hp] at hlive
    | cons s f =>
      obtain ⟨n, children, hn, hc, hb', hlen⟩ := hb.free
      obtain ⟨hpop, hq₁⟩ := Queue.pop_holds hq
      have hq₂ := pushChild_holds (pushChild_holds hq₁ n.left) n.right
      rw [List.append_assoc, hc, ← List.map_append] at hq₂
      obtain ⟨nodes', hloop, hclean⟩ := ih hq₂ hb' (by omega)
      refine ⟨nodes', ?_, hclean⟩
      rw [if_pos (by rw [hsize]; simp)]
      simp only [hpop, hn, Heap.delete_of hn, Option.bind_eq_bind, Option.bind_some]
      exact hloop

/-- `FreeMemory` frees every node and every encoding, each once. -/
theorem freeMemory_clean {t : HuffmanEncodingTree} {c : CodeTree Byte} (h : Holds t c) :
    ∃ t', t.freeMemory = some t' ∧ Clean t' := by
  obtain ⟨s, hroot, hb, -⟩ := h.nodes
  have hq : Queue.Holds (Queue.empty.push s.addr) ([s].map Shape.addr) := Queue.push_holds Queue.empty_holds s.addr
  have hfuel : ([s].flatMap Shape.addrs).length < t.nodes.top + 1 := by
    have hsub : [s].flatMap Shape.addrs ⊆ List.range t.nodes.top := by
      intro p hp
      obtain ⟨n, hn⟩ := Option.isSome_iff_exists.mp ((hb.live p).mpr hp)
      exact List.mem_range.mpr (Heap.lt_top hn)
    have hle := (List.subperm_of_subset hb.nodup hsub).length_le
    rw [List.length_range] at hle
    omega
  obtain ⟨nodes, hloop, hclean⟩ := freeLoop_clean hq hb hfuel
  have htable : characters.all (fun c => (t.encodingTable c).isSome) = true := by
    refine List.all_eq_true.mpr ?_
    intro v _
    obtain ⟨w, hw⟩ := CodeTree.exists_word (h.leaves.mem_iff.mpr (mem_characters v))
    rw [h.table w v hw]
    rfl
  refine ⟨{ nodes := nodes, root := none, encodingTable := fun _ => none }, ?_, rfl, hclean, fun _ => rfl⟩
  simp only [freeMemory, hroot, hloop, htable, Option.bind_eq_bind, Option.bind_some, Option.pure_def, if_true]

/-- What `GenerateFromFrequencyTable` leaves, on a tree without memory or over another. -/
theorem generate_holds (g : Junk) (junk : HuffmanEncodingTreeNode) {t : HuffmanEncodingTree}
    (h : Clean t ∨ ∃ c, Holds t c) (frequencyTable : Byte → BitVec 32) :
    ∃ t' c, t.generateFromFrequencyTable g junk frequencyTable = some t' ∧ codeTree frequencyTable = some c ∧ Holds t' c := by
  rcases h with h | ⟨c, h⟩
  · exact generate_clean g junk h frequencyTable
  · obtain ⟨t₁, hfree, hclean⟩ := freeMemory_clean h
    obtain ⟨t', c', hgen, hc, hh⟩ := generate_clean g junk hclean frequencyTable
    refine ⟨t', c', ?_, hc, hh⟩
    have hfree₁ : t₁.freeMemory = some t₁ := by rw [freeMemory, hclean.root]
    rw [← hgen]
    simp only [generateFromFrequencyTable, hfree, hfree₁, Option.bind_eq_bind, Option.bind_some]

/-! ## One table after another -/

/-- A tree of one table after another, in the same object. -/
def generateAll (g : Junk) (junk : HuffmanEncodingTreeNode) (tables : List (Byte → BitVec 32)) : Option HuffmanEncodingTree :=
  tables.foldlM (generateFromFrequencyTable g junk) empty

theorem generateAll_concat (g : Junk) (junk : HuffmanEncodingTreeNode) (tables : List (Byte → BitVec 32))
    (frequencyTable : Byte → BitVec 32) : generateAll g junk (tables ++ [frequencyTable]) =
      generateAll g junk tables >>= fun t => t.generateFromFrequencyTable g junk frequencyTable := by
  simp [generateAll]

theorem generateAll_some (g : Junk) (junk : HuffmanEncodingTreeNode) (tables : List (Byte → BitVec 32)) :
    ∃ t, generateAll g junk tables = some t ∧ (Clean t ∨ ∃ c, Holds t c) := by
  induction tables using List.reverseRecOn with
  | nil => exact ⟨empty, rfl, .inl empty_clean⟩
  | append_singleton tables frequencyTable ih =>
    obtain ⟨t, ht, h⟩ := ih
    obtain ⟨t', c, hgen, -, hh⟩ := generate_holds g junk h frequencyTable
    exact ⟨t', by rw [generateAll_concat, ht]; exact hgen, .inr ⟨c, hh⟩⟩

/-- The last table decides. -/
theorem generateAll_holds (g : Junk) (junk : HuffmanEncodingTreeNode) (tables : List (Byte → BitVec 32))
    (frequencyTable : Byte → BitVec 32) : ∃ t c, generateAll g junk (tables ++ [frequencyTable]) = some t ∧
      codeTree frequencyTable = some c ∧ Holds t c := by
  obtain ⟨t, ht, h⟩ := generateAll_some g junk tables
  obtain ⟨t', c, hgen, hc, hh⟩ := generate_holds g junk h frequencyTable
  exact ⟨t', c, by rw [generateAll_concat, ht]; exact hgen, hc, hh⟩

/-- The destructor frees every node and array, each once, after any tables. -/
theorem generateAll_freed (g : Junk) (junk : HuffmanEncodingTreeNode) (tables : List (Byte → BitVec 32)) :
    ∃ t, (generateAll g junk tables >>= freeMemory) = some t ∧ Clean t := by
  obtain ⟨t, ht, h⟩ := generateAll_some g junk tables
  rw [ht]
  rcases h with h | ⟨c, h⟩
  · exact ⟨t, by show t.freeMemory = _; rw [freeMemory, h.root], h⟩
  · exact freeMemory_clean h

end HuffmanEncodingTree

end RakHook
