/-
  RakHook.Huffman.Generate — the tree `GenerateFromFrequencyTable` builds.

  `Shape` is a tree with the addresses of its nodes, `Repr nodes s` says that the nodes are
  linked that way, the parents included. `Built nodes f`: the nodes are those of the trees
  `f`, each once. Leaf after leaf and merge after merge keep it, while the sorted list
  holds the roots in the order of their weights; so for every frequency table the code
  ends without following a wrong pointer, and what it leaves is the tree that merging the
  two lightest gives, with the weights added modulo 2^32 (`mergeLoop_built`).
-/

import RakHook.Huffman.Model
import RakHook.Lib.Huffman

namespace RakHook

open Lib

namespace HuffmanEncodingTree

inductive Shape where
  | leaf (p : Nat) (value : Byte)
  | node (p : Nat) (left right : Shape)

namespace Shape

def addr : Shape → Nat
  | leaf p _ => p
  | node p _ _ => p

def addrs : Shape → List Nat
  | leaf p _ => [p]
  | node p l r => p :: (l.addrs ++ r.addrs)

def tree : Shape → CodeTree Byte
  | leaf _ v => .leaf v
  | node _ l r => .node l.tree r.tree

def leafAddrs : Shape → List (Byte × Nat)
  | leaf p v => [(v, p)]
  | node _ l r => l.leafAddrs ++ r.leafAddrs

theorem addr_mem (s : Shape) : s.addr ∈ s.addrs := by cases s <;> simp [addr, addrs]

end Shape

abbrev Nodes := Heap HuffmanEncodingTreeNode

def ParentIs (nodes : Nodes) (c p : Nat) : Prop := ∃ n, nodes.get c = some n ∧ n.parent = some p

def Repr (nodes : Nodes) : Shape → Prop
  | .leaf p v => ∃ n, nodes.get p = some n ∧ n.left = none ∧ n.right = none ∧ n.value = v
  | .node p l r => (∃ n, nodes.get p = some n ∧ n.left = some l.addr ∧ n.right = some r.addr) ∧
      ParentIs nodes l.addr p ∧ ParentIs nodes r.addr p ∧ Repr nodes l ∧ Repr nodes r

/-- The nodes are those of the trees `f`. -/
structure Built (nodes : Nodes) (f : List Shape) : Prop where
  repr : ∀ s ∈ f, Repr nodes s
  nodup : (f.flatMap Shape.addrs).Nodup
  live : ∀ p, (nodes.get p).isSome = true ↔ p ∈ f.flatMap Shape.addrs

def weightAt (nodes : Nodes) (p : Nat) : Nat := ((nodes.get p).map (·.weight.toNat)).getD 0

/-- The trees of `f` with their weights. -/
def forest (nodes : Nodes) (f : List Shape) : Forest Byte := f.map fun s => (weightAt nodes s.addr, s.tree)

def addWeights (a b : Nat) : Nat := (a + b) % 2 ^ 32

variable {nodes nodes' : Nodes} {f : List Shape} {s : Shape}

/-! ## Representation -/

theorem repr_same : ∀ {s : Shape}, (∀ p ∈ s.addrs, nodes'.get p = nodes.get p) → Repr nodes s → Repr nodes' s := by
  intro s
  induction s with
  | leaf p v =>
    rintro h ⟨n, hn, hrest⟩
    exact ⟨n, (h p (by simp [Shape.addrs])).trans hn, hrest⟩
  | node p l r ihl ihr =>
    rintro h ⟨⟨n, hn, hlr⟩, ⟨nl, hnl, hpl⟩, ⟨nr, hnr, hpr⟩, hl, hr⟩
    have hsub : ∀ q, q ∈ l.addrs ∨ q ∈ r.addrs → nodes'.get q = nodes.get q :=
      fun q hq => h q (by simpa [Shape.addrs] using .inr hq)
    exact ⟨⟨n, (h p (by simp [Shape.addrs])).trans hn, hlr⟩, ⟨nl, (hsub _ (.inl l.addr_mem)).trans hnl, hpl⟩,
      ⟨nr, (hsub _ (.inr r.addr_mem)).trans hnr, hpr⟩, ihl (fun q hq => hsub q (.inl hq)) hl,
      ihr (fun q hq => hsub q (.inr hq)) hr⟩

theorem repr_reparent {n : HuffmanEncodingTreeNode} {parent : Option Nat} (hd : s.addrs.Nodup)
    (hn : nodes.get s.addr = some n) (hroot : nodes'.get s.addr = some { n with parent := parent })
    (h : ∀ p ∈ s.addrs, p ≠ s.addr → nodes'.get p = nodes.get p) : Repr nodes s → Repr nodes' s := by
  cases s with
  | leaf p v =>
    rintro ⟨m, hm, hrest⟩
    obtain rfl : n = m := Option.some.inj (hn.symm.trans hm)
    exact ⟨_, hroot, hrest⟩
  | node p l r =>
    rintro ⟨⟨m, hm, hlr⟩, ⟨nl, hnl, hpl⟩, ⟨nr, hnr, hpr⟩, hl, hr⟩
    obtain rfl : n = m := Option.some.inj (hn.symm.trans hm)
    obtain ⟨hp, -⟩ := List.nodup_cons.mp hd
    have hsub : ∀ q, q ∈ l.addrs ∨ q ∈ r.addrs → nodes'.get q = nodes.get q := by
      intro q hq
      refine h q (by simpa [Shape.addrs] using .inr hq) ?_
      rintro rfl
      exact hp (List.mem_append.mpr hq)
    exact ⟨⟨_, hroot, hlr⟩, ⟨nl, (hsub _ (.inl l.addr_mem)).trans hnl, hpl⟩,
      ⟨nr, (hsub _ (.inr r.addr_mem)).trans hnr, hpr⟩, repr_same (fun q hq => hsub q (.inl hq)) hl,
      repr_same (fun q hq => hsub q (.inr hq)) hr⟩

theorem Built.get_root (h : Built nodes f) (hs : s ∈ f) : ∃ n, nodes.get s.addr = some n :=
  Option.isSome_iff_exists.mp ((h.live _).mpr (List.mem_flatMap.mpr ⟨s, hs, s.addr_mem⟩))

theorem Built.perm {f' : List Shape} (h : Built nodes f) (hp : f'.Perm f) : Built nodes f' := by
  have hflat := hp.flatMap_right Shape.addrs
  exact ⟨fun s hs => h.repr s (hp.mem_iff.mp hs), hflat.nodup_iff.mpr h.nodup,
    fun p => by rw [h.live, hflat.mem_iff]⟩

/-! ## `InsertNodeIntoSortedList` -/

/-- In front of the first that is not lighter. -/
def place (w : Nat → Nat) (node : Nat) (l : List Nat) : List Nat :=
  l.takeWhile (w · < w node) ++ node :: l.dropWhile (w · < w node)

theorem place_cons (w : Nat → Nat) (node x : Nat) (l : List Nat) :
    place w node (x :: l) = if w x < w node then x :: place w node l else node :: x :: l := by
  unfold place
  by_cases hx : w x < w node
  · rw [if_pos hx, List.takeWhile_cons_of_pos (by simpa using hx), List.dropWhile_cons_of_pos (by simpa using hx)]
    rfl
  · rw [if_neg hx, List.takeWhile_cons_of_neg (by simpa using hx), List.dropWhile_cons_of_neg (by simpa using hx)]
    rfl

theorem weight_lt {a b : Nat} {n m : HuffmanEncodingTreeNode} (ha : nodes.get a = some n) (hb : nodes.get b = some m) :
    n.weight < m.weight ↔ weightAt nodes a < weightAt nodes b := by
  unfold weightAt
  rw [ha, hb]
  exact BitVec.lt_def

open LinkedList (Refines Cursor)

theorem insertLoop_items {node : Nat} {m : HuffmanEncodingTreeNode} (hm : nodes.get node = some m) :
    ∀ (aft bef : List Nat) {x : Nat} {list : LinkedList Nat}, Refines list ⟨bef, x :: aft⟩ →
      (∀ p ∈ x :: aft, ∃ n, nodes.get p = some n) →
      ∃ list' c, insertLoop nodes node (aft.length + 1) bef.length list = some list' ∧ Refines list' c ∧
        c.items = bef ++ place (weightAt nodes) node (x :: aft) := by
  intro aft
  induction aft with
  | nil =>
    intro bef x list h hlive
    obtain ⟨n, hn⟩ := hlive x (List.mem_cons_self ..)
    have hlt := weight_lt hn hm
    simp only [insertLoop, LinkedList.peek_refines h, hn, hm, Option.bind_eq_bind, Option.bind_some]
    rw [place_cons]
    by_cases hw : weightAt nodes x < weightAt nodes node
    · obtain ⟨list₁, hl₁, h₁⟩ := LinkedList.next_refines h false
      have hsize := LinkedList.listSize_eq h₁
      obtain ⟨list₂, hl₂, h₂⟩ := LinkedList.toEnd_refines h₁
      obtain ⟨p, list₃, -, hl₃, -, -, h₃⟩ := LinkedList.add_refines h₂ node
      refine ⟨list₃, _, ?_, h₃, ?_⟩
      · rw [if_pos (hlt.mpr hw), hl₁]
        simp only [Option.bind_some]
        rw [if_pos (by rw [hsize]; simp [Cursor.next, Cursor.items]), hl₂]
        simp only [Option.bind_some, hl₃, Option.pure_def]
      · rw [if_pos hw]
        simp [Cursor.next, Cursor.toEnd, Cursor.add, Cursor.items, place]
    · obtain ⟨list₁, hl₁, h₁⟩ := LinkedList.insert_refines h node
      refine ⟨list₁, _, ?_, h₁, ?_⟩
      · rw [if_neg fun hc => hw (hlt.mp hc), hl₁]
      · rw [if_neg hw, Cursor.insert_items]
  | cons y aft ih =>
    intro bef x list h hlive
    obtain ⟨n, hn⟩ := hlive x (List.mem_cons_self ..)
    have hlt := weight_lt hn hm
    simp only [insertLoop, LinkedList.peek_refines h, hn, hm, Option.bind_eq_bind, Option.bind_some]
    rw [place_cons]
    by_cases hw : weightAt nodes x < weightAt nodes node
    · obtain ⟨list₁, hl₁, h₁⟩ := LinkedList.next_refines h false
      have hsize := LinkedList.listSize_eq h₁
      obtain ⟨list₂, c, hl₂, h₂, hitems⟩ := ih (bef ++ [x]) h₁ fun p hp => hlive p (List.mem_cons_of_mem _ hp)
      refine ⟨list₂, c, ?_, h₂, ?_⟩
      · rw [if_pos (hlt.mpr hw), hl₁]
        simp only [Option.bind_some]
        rw [if_neg (by rw [hsize]; simp [Cursor.next, Cursor.items])]
        simpa using hl₂
      · rw [if_pos hw, hitems]
        simp
    · obtain ⟨list₁, hl₁, h₁⟩ := LinkedList.insert_refines h node
      refine ⟨list₁, _, ?_, h₁, ?_⟩
      · rw [if_neg fun hc => hw (hlt.mp hc), hl₁]
      · rw [if_neg hw, Cursor.insert_items]

/-- `InsertNodeIntoSortedList` keeps the order of the weights. -/
theorem insertNode_items {node : Nat} {m : HuffmanEncodingTreeNode} (hm : nodes.get node = some m) {list : LinkedList Nat}
    {c : Cursor Nat} (h : Refines list c) (hlive : ∀ p ∈ c.items, ∃ n, nodes.get p = some n) :
    ∃ list' c', insertNodeIntoSortedList nodes node list = some list' ∧ Refines list' c' ∧
      c'.items = place (weightAt nodes) node c.items := by
  have hsize := LinkedList.listSize_eq h
  unfold insertNodeIntoSortedList
  cases hc : c.items with
  | nil =>
    obtain ⟨list', hl, h'⟩ := LinkedList.insert_refines h node
    refine ⟨list', _, by rw [if_pos (by rw [hsize, hc]; rfl), hl], h', ?_⟩
    obtain ⟨hb, ha⟩ := List.append_eq_nil_iff.mp hc
    rw [Cursor.insert_items, hb, ha]
    rfl
  | cons x l =>
    have hbeg := LinkedList.beginning_refines h
    unfold Cursor.beginning at hbeg
    rw [hc] at hbeg hlive
    obtain ⟨list', c', hl, h', hitems⟩ := insertLoop_items hm _ _ hbeg hlive
    refine ⟨list', c', ?_, h', hitems⟩
    rw [if_neg (by rw [hsize, hc]; simp), hsize, hc]
    exact hl

/-- On the roots of trees this is `insertByWeight`. -/
theorem place_forest (nodes : Nodes) (s : Shape) (f : List Shape) : ∃ f', f'.Perm (s :: f) ∧
    f'.map Shape.addr = place (weightAt nodes) s.addr (f.map Shape.addr) ∧
    forest nodes f' = insertByWeight (weightAt nodes s.addr, s.tree) (forest nodes f) := by
  refine ⟨f.takeWhile (weightAt nodes ·.addr < weightAt nodes s.addr) ++
    s :: f.dropWhile (weightAt nodes ·.addr < weightAt nodes s.addr), ?_, ?_, ?_⟩
  · refine List.perm_middle.trans (List.Perm.cons s ?_)
    rw [List.takeWhile_append_dropWhile]
  · rw [place, List.takeWhile_map, List.dropWhile_map, List.map_append, List.map_cons]
    rfl
  · rw [insertByWeight_eq, forest, forest, List.takeWhile_map, List.dropWhile_map, List.map_append, List.map_cons]
    rfl

/-! ## Leaves and merges -/

/-- The leaves of `f` are where `leafList` says. -/
def Listed (leafList : List Nat) (f : List Shape) : Prop :=
  ∀ x ∈ f.flatMap Shape.leafAddrs, leafList[x.1.toNat]? = some x.2

theorem Built.leaf (h : Built nodes f) {n : HuffmanEncodingTreeNode} (hl : n.left = none) (hr : n.right = none) :
    Built (nodes.new n) (.leaf nodes.top n.value :: f) := by
  have htop : nodes.top ∉ f.flatMap Shape.addrs := by
    intro hmem
    obtain ⟨m, hm⟩ := Option.isSome_iff_exists.mp ((h.live _).mpr hmem)
    exact Heap.ne_top hm rfl
  have hsame : ∀ p ∈ f.flatMap Shape.addrs, (nodes.new n).get p = nodes.get p := by
    intro p hp
    have hne : p ≠ nodes.top := by
      rintro rfl
      exact htop hp
    rw [Heap.get_new, if_neg hne]
  refine ⟨?_, ?_, ?_⟩
  · intro s hs
    rcases List.mem_cons.mp hs with rfl | hs
    · exact ⟨n, by rw [Heap.get_new, if_pos rfl], hl, hr, rfl⟩
    · exact repr_same (fun p hp => hsame p (List.mem_flatMap.mpr ⟨s, hs, hp⟩)) (h.repr s hs)
  · exact List.nodup_cons.mpr ⟨htop, h.nodup⟩
  · intro p
    rw [Heap.get_new]
    by_cases hp : p = nodes.top
    · simp [hp, Shape.addrs]
    · rw [if_neg hp, h.live]
      simp [hp, Shape.addrs]

theorem forest_congr (h : ∀ s ∈ f, weightAt nodes' s.addr = weightAt nodes s.addr) : forest nodes' f = forest nodes f :=
  List.map_congr_left fun s hs => by rw [h s hs]

theorem Built.merge {sx sy : Shape} (h : Built nodes (sx :: sy :: f)) {n : HuffmanEncodingTreeNode}
    (hl : n.left = some sx.addr) (hr : n.right = some sy.addr) :
    ∃ nodes₁ nodes₂, (nodes.new n).store sx.addr (fun m => { m with parent := some nodes.top }) = some nodes₁ ∧
      nodes₁.store sy.addr (fun m => { m with parent := some nodes.top }) = some nodes₂ ∧
      Built nodes₂ (.node nodes.top sx sy :: f) ∧ nodes₂.get nodes.top = some n ∧
      ∀ p ≠ nodes.top, weightAt nodes₂ p = weightAt nodes p := by
  obtain ⟨nx, hx⟩ := h.get_root (s := sx) (by simp)
  obtain ⟨ny, hy⟩ := h.get_root (s := sy) (by simp)
  have hnd := h.nodup
  have hdisj : ∀ p ∈ sx.addrs, p ∉ sy.addrs ∧ p ∉ f.flatMap Shape.addrs := by
    intro p hp
    have hd := (List.nodup_append.mp hnd).2.2 p hp
    refine ⟨fun hc => ?_, fun hc => ?_⟩
    · exact hd p (List.mem_append_left _ hc) rfl
    · exact hd p (List.mem_append_right _ hc) rfl
  obtain ⟨hndx, hnd', -⟩ := List.nodup_append.mp hnd
  obtain ⟨hndy, -, hdy⟩ := List.nodup_append.mp hnd'
  have htop : nodes.top ∉ (sx :: sy :: f).flatMap Shape.addrs := by
    intro hmem
    obtain ⟨m, hm⟩ := Option.isSome_iff_exists.mp ((h.live _).mpr hmem)
    exact Heap.ne_top hm rfl
  have hlt : ∀ p ∈ (sx :: sy :: f).flatMap Shape.addrs, p ≠ nodes.top := by
    rintro p hp rfl
    exact htop hp
  have hxy : sy.addr ≠ sx.addr := fun he => (hdisj _ sx.addr_mem).1 (he ▸ sy.addr_mem)
  have hx₁ := Heap.get_new_of (y := n) hx
  obtain ⟨mx, hmx⟩ : ∃ m : HuffmanEncodingTreeNode, m = { nx with parent := some nodes.top } := ⟨_, rfl⟩
  obtain ⟨my, hmy⟩ : ∃ m : HuffmanEncodingTreeNode, m = { ny with parent := some nodes.top } := ⟨_, rfl⟩
  have hy₁ : ((nodes.new n).put sx.addr mx).get sy.addr = some ny := by
    rw [Heap.get_put hx₁, if_neg hxy, Heap.get_new_of hy]
  have hget : ∀ p, (((nodes.new n).put sx.addr mx).put sy.addr my).get p =
      if p = sy.addr then some my else if p = sx.addr then some mx else if p = nodes.top then some n else nodes.get p := by
    intro p
    rw [Heap.get_put hy₁, Heap.get_put hx₁, Heap.get_new]
  have hother : ∀ p ∈ (sx :: sy :: f).flatMap Shape.addrs, p ≠ sx.addr → p ≠ sy.addr →
      (((nodes.new n).put sx.addr mx).put sy.addr my).get p = nodes.get p := by
    intro p hp hpx hpy
    rw [hget, if_neg hpy, if_neg hpx, if_neg (hlt p hp)]
  have hgx : (((nodes.new n).put sx.addr mx).put sy.addr my).get sx.addr = some mx := by
    rw [hget, if_neg (Ne.symm hxy), if_pos rfl]
  have hgy : (((nodes.new n).put sx.addr mx).put sy.addr my).get sy.addr = some my := by rw [hget, if_pos rfl]
  have hgt : (((nodes.new n).put sx.addr mx).put sy.addr my).get nodes.top = some n := by
    rw [hget, if_neg (Ne.symm (Heap.ne_top hy)), if_neg (Ne.symm (Heap.ne_top hx)), if_pos rfl]
  refine ⟨(nodes.new n).put sx.addr mx, ((nodes.new n).put sx.addr mx).put sy.addr my, by rw [Heap.store_of hx₁, hmx],
    by rw [Heap.store_of hy₁, hmy], ⟨?_, ?_, ?_⟩, hgt, ?_⟩
  · intro s hs
    rcases List.mem_cons.mp hs with rfl | hs
    · refine ⟨⟨n, hgt, hl, hr⟩, ⟨mx, hgx, by rw [hmx]⟩, ⟨my, hgy, by rw [hmy]⟩, ?_, ?_⟩
      · refine repr_reparent hndx hx (hgx.trans (by rw [hmx])) (fun p hp hpx => ?_) (h.repr sx (by simp))
        refine hother p (List.mem_flatMap.mpr ⟨sx, by simp, hp⟩) hpx ?_
        rintro rfl
        exact (hdisj _ hp).1 sy.addr_mem
      · refine repr_reparent hndy hy (hgy.trans (by rw [hmy])) (fun p hp hpy => ?_) (h.repr sy (by simp))
        refine hother p (List.mem_flatMap.mpr ⟨sy, by simp, hp⟩) ?_ hpy
        rintro rfl
        exact (hdisj _ sx.addr_mem).1 hp
    · refine repr_same (fun p hp => ?_) (h.repr s (by simp [hs]))
      have hpf : p ∈ f.flatMap Shape.addrs := List.mem_flatMap.mpr ⟨s, hs, hp⟩
      refine hother p (List.mem_append_right _ (List.mem_append_right _ hpf)) ?_ ?_
      · rintro rfl
        exact (hdisj _ sx.addr_mem).2 hpf
      · rintro rfl
        exact hdy _ sy.addr_mem _ hpf rfl
  · rw [List.flatMap_cons, Shape.addrs, List.cons_append, List.append_assoc]
    exact List.nodup_cons.mpr ⟨htop, hnd⟩
  · intro p
    have hlive := h.live p
    rw [List.flatMap_cons, Shape.addrs, List.cons_append, List.append_assoc, List.mem_cons]
    rw [List.flatMap_cons, List.flatMap_cons] at hlive
    rw [hget, ← hlive]
    by_cases hpy : p = sy.addr
    · simp [hpy, hy]
    · rw [if_neg hpy]
      by_cases hpx : p = sx.addr
      · simp [hpx, hx]
      · rw [if_neg hpx]
        by_cases hpt : p = nodes.top <;> simp [hpt]
  · intro p hp
    unfold weightAt
    rw [hget]
    by_cases hpy : p = sy.addr
    · rw [if_pos hpy, hpy, hy, hmy]
      rfl
    · rw [if_neg hpy]
      by_cases hpx : p = sx.addr
      · rw [if_pos hpx, hpx, hx, hmx]
        rfl
      · rw [if_neg hpx, if_neg hp]

/-- The root has no use for its parent. -/
theorem Built.set_parent (h : Built nodes [s]) (parent : Option Nat) :
    ∃ nodes', nodes.store s.addr (fun m => { m with parent := parent }) = some nodes' ∧ Built nodes' [s] := by
  obtain ⟨n, hn⟩ := h.get_root (s := s) (by simp)
  refine ⟨nodes.put s.addr { n with parent := parent }, Heap.store_of hn _, ⟨?_, h.nodup, ?_⟩⟩
  · intro s' hs'
    obtain rfl := List.mem_singleton.mp hs'
    have hnd : s'.addrs.Nodup := by simpa using h.nodup
    refine repr_reparent hnd hn (by rw [Heap.get_put hn, if_pos rfl]) (fun p _ hp => ?_) (h.repr s' (by simp))
    rw [Heap.get_put hn, if_neg hp]
  · intro p
    rw [← h.live, Heap.get_put hn]
    by_cases hp : p = s.addr
    · simp [hp, hn]
    · rw [if_neg hp]

/-- What a character counts for: none counts for nothing. -/
def charWeight (frequencyTable : Byte → BitVec 32) (c : Byte) : Nat :=
  (if frequencyTable c = 0 then 1 else frequencyTable c).toNat

/-- The sorted leaves. -/
def leafForest (frequencyTable : Byte → BitVec 32) (cs : List Byte) (f : Forest Byte) : Forest Byte :=
  cs.foldl (fun f c => insertByWeight (charWeight frequencyTable c, .leaf c) f) f

/-- The tree for a frequency table. -/
def codeTree (frequencyTable : Byte → BitVec 32) : Option (CodeTree Byte) :=
  mergeAll addWeights (leafForest frequencyTable characters [])

theorem leafLoop_built (junk : HuffmanEncodingTreeNode) (frequencyTable : Byte → BitVec 32) :
    ∀ {cs : List Byte} {nodes : Nodes} {list : LinkedList Nat} {leafList : List Nat} {c : Cursor Nat} {f : List Shape},
      Built nodes f → Refines list c → c.items = f.map Shape.addr → Listed leafList f →
      cs.map BitVec.toNat = List.range' leafList.length cs.length →
      ∃ nodes' list' leafList' c' f', leafLoop junk frequencyTable cs nodes list leafList = some (nodes', list', leafList') ∧
        Built nodes' f' ∧ Refines list' c' ∧ c'.items = f'.map Shape.addr ∧ Listed leafList' f' ∧
        forest nodes' f' = leafForest frequencyTable cs (forest nodes f) ∧ f'.length = f.length + cs.length := by
  intro cs
  induction cs with
  | nil =>
    intro nodes list leafList c f hb hr hi hl _
    exact ⟨nodes, list, leafList, c, f, rfl, hb, hr, hi, hl, rfl, rfl⟩
  | cons a cs ih =>
    intro nodes list leafList c f hb hr hi hl hcs
    rw [List.length_cons, List.range'_succ, List.map_cons] at hcs
    obtain ⟨ha, hcs⟩ := List.cons.inj hcs
    obtain ⟨n, hn⟩ : ∃ n : HuffmanEncodingTreeNode, n = { junk with
      left := none, right := none, value := a, weight := if frequencyTable a = 0 then 1 else frequencyTable a } := ⟨_, rfl⟩
    have hb₁ : Built (nodes.new n) (.leaf nodes.top a :: f) := by
      have hleaf := hb.leaf (n := n) (by rw [hn]) (by rw [hn])
      rwa [show n.value = a by rw [hn]] at hleaf
    have htop : (nodes.new n).get nodes.top = some n := by rw [Heap.get_new, if_pos rfl]
    have hsame : ∀ s ∈ f, weightAt (nodes.new n) s.addr = weightAt nodes s.addr := by
      intro s hs
      obtain ⟨m, hm⟩ := hb.get_root hs
      unfold weightAt
      rw [Heap.get_new_of hm, hm]
    have hlive : ∀ p ∈ c.items, ∃ m, (nodes.new n).get p = some m := by
      intro p hp
      rw [hi] at hp
      obtain ⟨s, hs, rfl⟩ := List.mem_map.mp hp
      exact hb₁.get_root (List.mem_cons_of_mem _ hs)
    obtain ⟨list₁, c₁, hl₁, hr₁, hi₁⟩ := insertNode_items htop hr hlive
    obtain ⟨f₁, hperm, haddr, hfor⟩ := place_forest (nodes.new n) (.leaf nodes.top a) f
    have hw : weightAt (nodes.new n) nodes.top = charWeight frequencyTable a := by
      unfold weightAt charWeight
      rw [htop, hn]
      rfl
    have hlisted : Listed (leafList ++ [nodes.top]) f₁ := by
      intro x hx
      rcases List.mem_append.mp ((hperm.flatMap_right Shape.leafAddrs).mem_iff.mp hx) with hx | hx
      · obtain rfl : x = (a, nodes.top) := by simpa [Shape.leafAddrs] using hx
        rw [show ((a, nodes.top) : Byte × Nat).1.toNat = leafList.length from ha]
        simp
      · have hlt := (List.getElem?_eq_some_iff.mp (hl x hx)).1
        rw [List.getElem?_append_left hlt]
        exact hl x hx
    obtain ⟨nodes', list', leafList', c', f', hloop, hb', hr', hi', hl', hfor', hlen⟩ := ih (hb₁.perm hperm) hr₁
      (by rw [hi₁, hi, haddr]; rfl) hlisted (by simpa using hcs)
    refine ⟨nodes', list', leafList', c', f', ?_, hb', hr', hi', hl', ?_, ?_⟩
    · simp only [leafLoop, Option.bind_eq_bind, ← hn, hl₁, Option.bind_some]
      exact hloop
    · rw [hfor', hfor, forest_congr hsame, Shape.addr, hw]
      rfl
    · rw [hlen, hperm.length_eq]
      simp only [List.length_cons]
      omega

theorem mergeLoop_built (junk : HuffmanEncodingTreeNode) : ∀ (fuel : Nat) {nodes : Nodes} {list : LinkedList Nat}
    {c : Cursor Nat} {f : List Shape}, Built nodes f → Refines list c → c.items = f.map Shape.addr → 2 ≤ f.length →
      f.length ≤ fuel + 1 →
      ∃ s nodes', mergeLoop junk fuel nodes list = some (s.addr, nodes') ∧ Built nodes' [s] ∧
        mergeAll addWeights (forest nodes f) = some s.tree ∧ s.leafAddrs.Perm (f.flatMap Shape.leafAddrs) := by
  intro fuel
  induction fuel with
  | zero => intro nodes list c f _ _ _ h2 hf; omega
  | succ fuel ih =>
    intro nodes list c f hb hr hi h2 hf
    rcases f with _ | ⟨sx, _ | ⟨sy, f⟩⟩
    · simp at h2
    · simp at h2
    · have hbeg := LinkedList.beginning_refines hr
      unfold Cursor.beginning at hbeg
      rw [hi] at hbeg
      obtain ⟨list₁, hl₁, hr₁⟩ := LinkedList.pop_refines _ hbeg
      obtain ⟨list₂, hl₂, hr₂⟩ := LinkedList.pop_refines [] hr₁
      obtain ⟨nx, hx⟩ := hb.get_root (s := sx) (by simp)
      obtain ⟨ny, hy⟩ := hb.get_root (s := sy) (by simp)
      obtain ⟨n, hn⟩ : ∃ n : HuffmanEncodingTreeNode,
        n = { junk with left := some sx.addr, right := some sy.addr, weight := nx.weight + ny.weight } := ⟨_, rfl⟩
      obtain ⟨nodes₁, nodes₂, hs₁, hs₂, hb₂, htop, hweight⟩ := hb.merge (n := n) (by rw [hn]) (by rw [hn])
      have hw : weightAt nodes₂ nodes.top = addWeights (weightAt nodes sx.addr) (weightAt nodes sy.addr) := by
        unfold weightAt addWeights
        rw [htop, hx, hy, hn]
        exact BitVec.toNat_add ..
      have hitems : (Cursor.del ⟨[], sy.addr :: f.map Shape.addr⟩).items = f.map Shape.addr := by
        cases f <;> rfl
      have hsize := LinkedList.listSize_eq hr₂
      rw [hitems, List.length_map] at hsize
      have hmerge : mergeAll addWeights (forest nodes (sx :: sy :: f)) =
          mergeAll addWeights (insertByWeight (weightAt nodes₂ nodes.top, (Shape.node nodes.top sx sy).tree)
            (forest nodes f)) := by
        rw [hw, forest, List.map_cons, List.map_cons, mergeAll]
        rfl
      rw [hmerge]
      simp only [mergeLoop, hl₁, hl₂, hx, hy, hs₁, ← hn, hs₂, Option.bind_eq_bind, Option.bind_some, Option.pure_def,
        hsize]
      cases f with
      | nil =>
        obtain ⟨nodes₃, hs₃, hb₃⟩ := hb₂.set_parent none
        refine ⟨.node nodes.top sx sy, nodes₃, ?_, hb₃, ?_, ?_⟩
        · rw [show (Shape.node nodes.top sx sy).addr = nodes.top from rfl] at hs₃
          rw [if_pos (show ([] : List Shape).length = 0 from rfl), hs₃]
          rfl
        · rw [forest, List.map_nil, insertByWeight, mergeAll]
        · simp [Shape.leafAddrs]
      | cons sz f =>
        have hlive : ∀ p ∈ (Cursor.del ⟨[], sy.addr :: (sz :: f).map Shape.addr⟩).items, ∃ m, nodes₂.get p = some m := by
          intro p hp
          rw [hitems] at hp
          obtain ⟨s, hs, rfl⟩ := List.mem_map.mp hp
          exact hb₂.get_root (List.mem_cons_of_mem _ hs)
        obtain ⟨list₃, c₃, hl₃, hr₃, hi₃⟩ := insertNode_items htop hr₂ hlive
        obtain ⟨f₃, hperm, haddr, hfor⟩ := place_forest nodes₂ (.node nodes.top sx sy) (sz :: f)
        have hsame : ∀ s ∈ sz :: f, weightAt nodes₂ s.addr = weightAt nodes s.addr := by
          intro s hs
          obtain ⟨m, hm⟩ := hb.get_root (s := s) (List.mem_cons_of_mem _ (List.mem_cons_of_mem _ hs))
          exact hweight _ (Heap.ne_top hm)
        have hlen := hperm.length_eq
        simp only [List.length_cons] at hlen hf
        obtain ⟨s, nodes', hloop, hb', htree, hleaf⟩ := ih (hb₂.perm hperm) hr₃ (by rw [hi₃, hitems, haddr]; rfl) (by omega)
          (by omega)
        refine ⟨s, nodes', ?_, hb', ?_, ?_⟩
        · rw [if_neg (by simp), hl₃]
          exact hloop
        · rw [← htree, hfor, forest_congr hsame]
          rfl
        · refine hleaf.trans ((hperm.flatMap_right Shape.leafAddrs).trans ?_)
          simp [Shape.leafAddrs]

end HuffmanEncodingTree

end RakHook
