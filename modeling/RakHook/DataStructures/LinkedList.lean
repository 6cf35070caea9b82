/-
  RakHook.DataStructures.LinkedList — `DataStructures::CircularLinkedList` and `LinkedList`
  (include/RakNet/DS_LinkedList.h): nodes linked both ways in a ring, a root and a
  position.

  `Cursor` is what the list is for: the items in front of the position and those from it
  on. `Refines L c`: the nodes reached from the root are the items of `c`, linked both
  ways, no node is in the list twice and no other node is allocated. Every call keeps it,
  so on any sequence of calls no dangling pointer is followed, no node is freed twice and
  none is lost; only what is asked of an empty list follows a null pointer
  (`list_refines_cursor`).
-/

import RakHook.Lib.Calls
import RakHook.Lib.Heap

namespace RakHook

open Lib

structure Node (α : Type) where
  item : α
  previous : Nat
  next : Nat
  deriving Repr

structure LinkedList (α : Type) where
  heap : Heap (Node α)
  root : Option Nat
  position : Option Nat
  listSize : Nat
  deriving Repr

namespace LinkedList

variable {α : Type}

def empty : LinkedList α := { heap := .empty, root := none, position := none, listSize := 0 }

/-- `new node` alone in its ring. -/
def single (L : LinkedList α) (input : α) : LinkedList α :=
  let root := L.heap.top
  { heap := L.heap.new ⟨input, root, root⟩, root := some root, position := some root, listSize := 1 }

/-- `new node` between the node at `a` and the one at `c`, which is at `a`'s next. -/
def link (heap : Heap (Node α)) (input : α) (a c : Nat) : Option (Heap (Node α)) := do
  let b := heap.top
  let heap ← (heap.new ⟨input, a, c⟩).store a fun n => { n with next := b }
  heap.store c fun n => { n with previous := b }

/-- A second node, linked to the only one. -/
def pair (L : LinkedList α) (input : α) : Option (Nat × Heap (Node α)) := do
  let root ← L.root
  let position := L.heap.top
  let heap ← (L.heap.new ⟨input, root, root⟩).store root fun n => { n with next := position, previous := position }
  return (root, heap)

def insert (L : LinkedList α) (input : α) : Option (LinkedList α) :=
  if L.listSize = 0 then some (L.single input)
  else if L.listSize = 1 then do
    let (_, heap) ← L.pair input
    return { heap := heap, root := some L.heap.top, position := some L.heap.top, listSize := 2 }
  else do
    let position ← L.position
    let node ← L.heap.get position
    let heap ← link L.heap input node.previous position
    let L' : LinkedList α :=
      if L.position = L.root then { L with root := some L.heap.top, position := some L.heap.top } else L
    return { L' with heap := heap, listSize := L.listSize + 1 }

/-- It returns a reference to the item of a node: of the second one's addition, the root's. -/
def add (L : LinkedList α) (input : α) : Option (Nat × LinkedList α) :=
  if L.listSize = 0 then some (L.heap.top, L.single input)
  else if L.listSize = 1 then do
    let (root, heap) ← L.pair input
    return (root, { heap := heap, root := some root, position := some root, listSize := 2 })
  else do
    let position ← L.position
    let node ← L.heap.get position
    let heap ← link L.heap input position node.next
    return (L.heap.top, { L with heap := heap, listSize := L.listSize + 1 })

def replace (L : LinkedList α) (input : α) : Option (LinkedList α) :=
  if 0 < L.listSize then do
    let position ← L.position
    let heap ← L.heap.store position fun n => { n with item := input }
    return { L with heap := heap }
  else some L

def del (L : LinkedList α) : Option (LinkedList α) :=
  if L.listSize = 0 then some L
  else if L.listSize = 1 then do
    let root ← L.root
    let heap ← L.heap.delete root
    return { heap := heap, root := none, position := none, listSize := 0 }
  else do
    let position ← L.position
    let node ← L.heap.get position
    let heap ← L.heap.store node.previous fun n => { n with next := node.next }
    let heap ← heap.store node.next fun n => { n with previous := node.previous }
    let heap ← heap.delete position
    return { heap := heap, root := if L.position = L.root then some node.next else L.root, position := some node.next,
             listSize := L.listSize - 1 }

def peek (L : LinkedList α) : Option α := do
  let position ← L.position
  let node ← L.heap.get position
  return node.item

def pop (L : LinkedList α) : Option (α × LinkedList α) := do
  let element ← L.peek
  let L ← L.del
  return (element, L)

def beginning (L : LinkedList α) : LinkedList α := if L.root.isSome then { L with position := L.root } else L

def toEnd (L : LinkedList α) : Option (LinkedList α) :=
  match L.root with
  | none => some L
  | some root => (L.heap.get root).map fun node => { L with position := some node.previous }

/-- `operator++`; `circular` is that of a `CircularLinkedList`. -/
def next (L : LinkedList α) (circular : Bool) : Option (LinkedList α) :=
  if L.listSize = 0 then some L
  else do
    let position ← L.position
    let node ← L.heap.get position
    return if circular ∨ some node.next ≠ L.root then { L with position := some node.next } else L

/-- `operator--`. -/
def prev (L : LinkedList α) (circular : Bool) : Option (LinkedList α) :=
  if L.listSize = 0 then some L
  else do
    let position ← L.position
    let node ← L.heap.get position
    return if circular ∨ L.position ≠ L.root then { L with position := some node.previous } else L

/-- The loop of `FindPointer`, back to the root after at most `fuel` rounds. -/
def findFrom [DecidableEq α] (heap : Heap (Node α)) (root : Nat) (input : α) : (fuel : Nat) → Nat → Option (Option Nat)
  | 0, _ => none
  | fuel + 1, current => do
    let node ← heap.get current
    if node.item = input then return some current
    else if node.next = root then return none
    else findFrom heap root input fuel node.next

def findPointer [DecidableEq α] (L : LinkedList α) (input : α) : Option (Option Nat) :=
  if L.listSize = 0 then some none else L.root >>= fun root => findFrom L.heap root input L.listSize root

def isIn [DecidableEq α] (L : LinkedList α) (input : α) : Option Bool := (L.findPointer input).map Option.isSome

def find [DecidableEq α] (L : LinkedList α) (input : α) : Option (Bool × LinkedList α) :=
  (L.findPointer input).map fun found =>
    match found with
    | some p => (true, { L with position := some p })
    | none => (false, L)

/-- The loop of `Clear`, back to the root after at most `fuel` rounds. -/
def clearFrom (root : Nat) : (fuel : Nat) → Nat → Heap (Node α) → Option (Heap (Node α))
  | 0, _, _ => none
  | fuel + 1, current, heap => do
    let node ← heap.get current
    let heap ← heap.delete current
    if node.next = root then return heap else clearFrom root fuel node.next heap

def clear (L : LinkedList α) : Option (LinkedList α) :=
  if L.listSize = 0 then some L
  else do
    let root ← L.root
    let heap ← if L.listSize = 1 then L.heap.delete root else clearFrom root L.listSize root L.heap
    return { heap := heap, root := none, position := none, listSize := 0 }

/-! ## Rings -/

abbrev Cells (α : Type) := List (Nat × α)

/-- The address of the first cell, or what stands behind them. -/
def first (cs : Cells α) (q : Nat) : Nat := (cs.head?.map (·.1)).getD q

/-- The address of the last cell, or what stands in front of them. -/
def last (cs : Cells α) (p : Nat) : Nat := (cs.getLast?.map (·.1)).getD p

/-- Nodes at `cs`, linked both ways, between `p` and `q`. -/
def Seg (heap : Heap (Node α)) : Nat → Cells α → Nat → Prop
  | _, [], _ => True
  | p, (a, x) :: cs, q => heap.get a = some ⟨x, p, first cs q⟩ ∧ Seg heap a cs q

def Ring (heap : Heap (Node α)) (cs : Cells α) : Prop := Seg heap (last cs 0) cs (first cs 0)

variable {heap heap' : Heap (Node α)} {p q a b c : Nat} {x y z : α} {cs ds : Cells α}

@[simp] theorem first_nil (q : Nat) : first ([] : Cells α) q = q := rfl

@[simp] theorem first_cons (a : Nat) (x : α) (cs : Cells α) (q : Nat) : first ((a, x) :: cs) q = a := rfl

@[simp] theorem last_nil (p : Nat) : last ([] : Cells α) p = p := rfl

@[simp] theorem last_cons (a : Nat) (x : α) (cs : Cells α) (p : Nat) : last ((a, x) :: cs) p = last cs a := by
  unfold last
  cases cs with
  | nil => rfl
  | cons d cs => rw [List.getLast?_cons_cons]; simp [List.getLast?_cons]

@[simp] theorem first_append (cs ds : Cells α) (q : Nat) : first (cs ++ ds) q = first cs (first ds q) := by
  cases cs <;> rfl

@[simp] theorem last_append (cs ds : Cells α) (p : Nat) : last (cs ++ ds) p = last ds (last cs p) := by
  induction cs generalizing p with
  | nil => rfl
  | cons d cs ih =>
    obtain ⟨a, x⟩ := d
    rw [List.cons_append, last_cons, last_cons, ih]

theorem seg_append : ∀ {cs : Cells α} {p : Nat}, Seg heap p (cs ++ ds) q ↔
    Seg heap p cs (first ds q) ∧ Seg heap (last cs p) ds q := by
  intro cs
  induction cs with
  | nil => simp [Seg]
  | cons d cs ih =>
    intro p
    obtain ⟨a, x⟩ := d
    simp [Seg, ih, and_assoc]

/-- A ring can be read from any node on. -/
theorem ring_rotate (cs ds : List (Nat × α)) : Ring heap (cs ++ ds) → Ring heap (ds ++ cs) := by
  intro h
  match cs, ds with
  | [], ds => simpa using h
  | cs, [] => simpa using h
  | (a, x) :: cs, (b, y) :: ds =>
    unfold Ring at h ⊢
    rw [seg_append] at h ⊢
    simp only [first_append, last_append, first_cons, last_cons] at h ⊢
    exact ⟨h.2, h.1⟩

theorem ring_ends : Ring heap ((c, x) :: (ds ++ [(a, y)])) ↔
    heap.get c = some ⟨x, a, first ds a⟩ ∧ Seg heap c ds a ∧ heap.get a = some ⟨y, last ds c, c⟩ := by
  unfold Ring
  simp [Seg, seg_append]

theorem seg_congr (h : ∀ a ∈ cs.map (·.1), heap'.get a = heap.get a) : Seg heap p cs q → Seg heap' p cs q := by
  induction cs generalizing p with
  | nil => exact fun _ => trivial
  | cons d cs ih =>
    obtain ⟨a, x⟩ := d
    intro hcons
    obtain ⟨hget, hseg⟩ := hcons
    exact ⟨(h a (by simp)).trans hget, ih (fun b hb => h b (by simp [hb])) hseg⟩

/-- Each node of a segment is allocated and has its item. -/
theorem seg_get (h : Seg heap p cs q) : ∀ d ∈ cs, ∃ n, heap.get d.1 = some n ∧ n.item = d.2 := by
  induction cs generalizing p with
  | nil => exact nofun
  | cons e cs ih =>
    obtain ⟨a, x⟩ := e
    obtain ⟨hget, hseg⟩ := h
    intro d hd
    rcases List.mem_cons.mp hd with rfl | hd
    · exact ⟨_, hget, rfl⟩
    · exact ih hseg d hd

/-! ## Linking and unlinking -/

def Live (heap : Heap (Node α)) (p : Nat) : Prop := (heap.get p).isSome = true

theorem live_put {n n' : Node α} (h : heap.get p = some n) : Live (heap.put p n') q ↔ Live heap q := by
  unfold Live
  rw [Heap.get_put h]
  by_cases he : q = p
  · rw [if_pos he, he, h]
    simp
  · rw [if_neg he]

theorem live_new (n : Node α) : Live (heap.new n) q ↔ Live heap q ∨ q = heap.top := by
  unfold Live
  rw [Heap.get_new]
  by_cases he : q = heap.top
  · simp [he]
  · simp [he]

/-- `cs` are a ring and all there is. -/
structure Owns (heap : Heap (Node α)) (cs : Cells α) : Prop where
  ring : Ring heap cs
  nodup : (cs.map (·.1)).Nodup
  live : ∀ p, Live heap p ↔ p ∈ cs.map (·.1)

theorem Owns.rotate (h : Owns heap (cs ++ ds)) : Owns heap (ds ++ cs) := by
  have hperm : ((ds ++ cs).map (·.1)).Perm ((cs ++ ds).map (·.1)) := List.perm_append_comm.map _
  exact ⟨ring_rotate _ _ h.ring, hperm.nodup_iff.mpr h.nodup, fun p => by rw [h.live, hperm.mem_iff]⟩

theorem Owns.top_fresh (h : Owns heap cs) : heap.top ∉ cs.map (·.1) := by
  intro hmem
  obtain ⟨n, hn⟩ := Option.isSome_iff_exists.mp ((h.live _).mpr hmem)
  exact Heap.ne_top hn rfl

/-- A new node at the end of a ring of two or more. -/
theorem link_owns (h : Owns heap ((c, x) :: cs)) (hne : cs ≠ []) (z : α) :
    ∃ heap', link heap z (last cs c) c = some heap' ∧ Owns heap' ((c, x) :: cs ++ [(heap.top, z)]) := by
  obtain ⟨ds, ⟨a, y⟩, rfl⟩ : ∃ ds f, cs = ds ++ [f] := ⟨_, _, (List.dropLast_concat_getLast hne).symm⟩
  have htop := h.top_fresh
  obtain ⟨hc, hds, ha⟩ := ring_ends.mp h.ring
  have hd := h.nodup
  simp only [List.map_cons, List.map_append, List.map_nil, List.nodup_cons, List.nodup_append, List.mem_append,
    List.mem_cons, List.not_mem_nil, or_false, not_or] at hd htop
  obtain ⟨⟨hcds, hca⟩, -, -, hdsa⟩ := hd
  obtain ⟨htc, htds, hta⟩ := htop
  have ha₁ := Heap.get_new_of (y := ⟨z, a, c⟩) ha
  obtain ⟨n, hn⟩ : ∃ n : Node α, n = ⟨y, last ds c, heap.top⟩ := ⟨_, rfl⟩
  obtain ⟨m, hm⟩ : ∃ m : Node α, m = ⟨x, heap.top, first ds a⟩ := ⟨_, rfl⟩
  have hc₂ : ((heap.new ⟨z, a, c⟩).put a n).get c = some ⟨x, a, first ds a⟩ := by
    rw [Heap.get_put ha₁, if_neg hca, Heap.get_new_of hc]
  have hget : ∀ q, (((heap.new ⟨z, a, c⟩).put a n).put c m).get q =
      if q = c then some m else if q = a then some n else if q = heap.top then some ⟨z, a, c⟩ else heap.get q := by
    intro q
    rw [Heap.get_put hc₂, Heap.get_put ha₁, Heap.get_new]
  refine ⟨((heap.new ⟨z, a, c⟩).put a n).put c m, ?_, ?_, ?_, ?_⟩
  · simp only [link, last_append, last_cons, last_nil, Heap.store_of ha₁, Option.bind_eq_bind, Option.bind_some]
    rw [← hn, Heap.store_of hc₂, hm]
  · refine ring_ends.mpr ⟨?_, seg_append.mpr ⟨seg_congr (fun q hq => ?_) hds, ?_, trivial⟩, ?_⟩
    · rw [hget, if_pos rfl, hm]
      simp
    · have hqc : q ≠ c := by
        rintro rfl
        exact hcds hq
      have hqt : q ≠ heap.top := by
        rintro rfl
        exact htds hq
      rw [hget, if_neg hqc, if_neg (hdsa q hq a rfl), if_neg hqt]
    · rw [hget, if_neg (Ne.symm hca), if_pos rfl, hn]
      rfl
    · rw [hget, if_neg htc, if_neg hta, if_pos rfl]
      simp
  · rw [List.map_append, List.nodup_append]
    refine ⟨h.nodup, by simp, ?_⟩
    rintro p hp q hq rfl
    obtain rfl : p = heap.top := by simpa using hq
    exact h.top_fresh hp
  · intro q
    rw [live_put hc₂, live_put ha₁, live_new, h.live]
    simp [or_assoc]

/-- The loss of one node of a ring of two or more. -/
theorem unlink_owns (h : Owns heap ((p, z) :: cs)) (hne : cs ≠ []) :
    ∃ heap₁ heap₂ heap₃, heap.get p = some ⟨z, last cs p, first cs p⟩ ∧
      heap.store (last cs p) (fun n => { n with next := first cs p }) = some heap₁ ∧
      heap₁.store (first cs p) (fun n => { n with previous := last cs p }) = some heap₂ ∧ heap₂.delete p = some heap₃ ∧
      Owns heap₃ cs := by
  have hown : ∀ (heap₂ : Heap (Node α)), (∀ q, Live heap₂ q ↔ Live heap q) → Ring (heap₂.free p) cs →
      ∃ heap₃, heap₂.delete p = some heap₃ ∧ Owns heap₃ cs := by
    intro heap₂ hl hring
    obtain ⟨hp, hnd⟩ := List.nodup_cons.mp h.nodup
    obtain ⟨n, hn⟩ := Option.isSome_iff_exists.mp ((hl p).mpr ((h.live p).mpr (List.mem_cons_self ..)))
    refine ⟨heap₂.free p, Heap.delete_of hn, hring, hnd, ?_⟩
    intro q
    unfold Live
    rw [Heap.get_free]
    by_cases he : q = p
    · subst he
      simpa using hp
    · have hq := (hl q).trans (h.live q)
      unfold Live at hq
      rw [if_neg he, hq]
      simp [he]
  match cs, hne with
  | [(d, x)], _ =>
    obtain ⟨hp, hdx, -⟩ := h.ring
    have hpd : d ≠ p := by simpa [eq_comm] using h.nodup
    simp only [last_cons, last_nil, first_nil, first_cons] at hp hdx ⊢
    obtain ⟨n, hn⟩ : ∃ n : Node α, n = ⟨x, p, d⟩ := ⟨_, rfl⟩
    obtain ⟨m, hm⟩ : ∃ m : Node α, m = ⟨x, d, d⟩ := ⟨_, rfl⟩
    have hd₁ : (heap.put d n).get d = some n := by rw [Heap.get_put hdx, if_pos rfl]
    obtain ⟨heap₃, hdel, howns⟩ := hown ((heap.put d n).put d m) (fun q => by rw [live_put hd₁, live_put hdx]) (by
      refine ⟨?_, trivial⟩
      rw [Heap.get_free, if_neg hpd, Heap.get_put hd₁, if_pos rfl, hm]
      rfl)
    refine ⟨heap.put d n, (heap.put d n).put d m, heap₃, hp, ?_, ?_, hdel, howns⟩
    · rw [Heap.store_of hdx, hn]
    · rw [Heap.store_of hd₁, hm, hn]
  | (d, x) :: e :: es, _ =>
    obtain ⟨ds, ⟨a, y⟩, he⟩ : ∃ ds f, e :: es = ds ++ [f] := ⟨_, _, (List.dropLast_concat_getLast (by simp)).symm⟩
    rw [he] at h hown ⊢
    have hrot : Ring heap ((d, x) :: (ds ++ [(a, y)] ++ [(p, z)])) :=
      ring_rotate [(p, z)] ((d, x) :: (ds ++ [(a, y)])) h.ring
    obtain ⟨hdx, hseg, hp⟩ := ring_ends.mp hrot
    obtain ⟨hds, ha, -⟩ := seg_append.mp hseg
    have hd := h.nodup
    simp only [first_append, last_append, first_cons, last_cons, first_nil, last_nil] at hdx hds ha hp ⊢
    simp only [List.map_cons, List.map_append, List.map_nil, List.nodup_cons, List.nodup_append, List.mem_append,
      List.mem_cons, not_or, List.not_mem_nil, or_false] at hd
    obtain ⟨⟨hpd, hpds, hpa⟩, ⟨hdds, hda⟩, -, -, hdsa⟩ := hd
    obtain ⟨n, hn⟩ : ∃ n : Node α, n = ⟨y, last ds d, d⟩ := ⟨_, rfl⟩
    obtain ⟨m, hm⟩ : ∃ m : Node α, m = ⟨x, a, first ds a⟩ := ⟨_, rfl⟩
    have hd₁ : (heap.put a n).get d = some ⟨x, p, first ds a⟩ := by rw [Heap.get_put ha, if_neg hda, hdx]
    have hget : ∀ q, (((heap.put a n).put d m).free p).get q =
        if q = p then none else if q = d then some m else if q = a then some n else heap.get q := by
      intro q
      rw [Heap.get_free, Heap.get_put hd₁, Heap.get_put ha]
    obtain ⟨heap₃, hdel, howns⟩ := hown ((heap.put a n).put d m) (fun q => by rw [live_put hd₁, live_put ha]) (by
      refine ring_ends.mpr ⟨?_, seg_congr (fun q hq => ?_) hds, ?_⟩
      · rw [hget, if_neg (Ne.symm hpd), if_pos rfl, hm]
      · have hqp : q ≠ p := by
          rintro rfl
          exact hpds hq
        have hqd : q ≠ d := by
          rintro rfl
          exact hdds hq
        rw [hget, if_neg hqp, if_neg hqd, if_neg (hdsa q hq a rfl)]
      · rw [hget, if_neg (Ne.symm hpa), if_neg (Ne.symm hda), if_pos rfl, hn])
    refine ⟨heap.put a n, (heap.put a n).put d m, heap₃, hp, ?_, ?_, hdel, howns⟩
    · rw [Heap.store_of ha, hn]
    · rw [Heap.store_of hd₁, hm]

/-! ## The list behind the nodes -/

/-- The items in front of the position and those from it on. -/
structure Cursor (α : Type) where
  before : List α
  after : List α
  deriving DecidableEq, Repr

/-- The nodes of `L` are `bs` and, from the position on, `as`. -/
structure Holds (L : LinkedList α) (bs as : Cells α) : Prop where
  owns : Owns L.heap (bs ++ as)
  root : L.root = (bs ++ as).head?.map (·.1)
  position : L.position = as.head?.map (·.1)
  listSize : L.listSize = (bs ++ as).length
  inside : as = [] → bs = []

def Refines (L : LinkedList α) (c : Cursor α) : Prop :=
  ∃ bs as, Holds L bs as ∧ c = ⟨bs.map (·.2), as.map (·.2)⟩

variable {L : LinkedList α} {bs as : Cells α}

theorem empty_owns : Owns (.empty : Heap (Node α)) [] := ⟨trivial, by simp, fun p => by simp [Live]⟩

theorem empty_holds : Holds (empty : LinkedList α) [] [] := ⟨empty_owns, rfl, rfl, rfl, fun _ => rfl⟩

/-- The position is the root exactly at the front. -/
theorem Holds.position_eq_root (h : Holds L bs ((a, x) :: as)) : L.position = L.root ↔ bs = [] := by
  rw [h.position, h.root]
  cases bs with
  | nil => simp
  | cons d bs =>
    have hd := h.owns.nodup
    simp only [List.cons_append, List.map_cons, List.map_append, List.nodup_cons, List.mem_append, List.mem_cons,
      not_or] at hd
    simp [Ne.symm hd.1.2.1]

theorem Holds.from_position (h : Holds L bs ((a, x) :: as)) : Owns L.heap ((a, x) :: (as ++ bs)) := h.owns.rotate

theorem Holds.get_position (h : Holds L bs ((a, x) :: as)) :
    L.heap.get a = some ⟨x, last (as ++ bs) a, first (as ++ bs) a⟩ := by
  obtain ⟨hget, -⟩ := h.from_position.ring
  simpa using hget

theorem single_holds (h : Owns L.heap []) (x : α) : Holds (L.single x) [] [(L.heap.top, x)] := by
  refine ⟨⟨⟨?_, trivial⟩, by simp, ?_⟩, rfl, rfl, rfl, nofun⟩
  · show (L.heap.new _).get _ = _
    rw [Heap.get_new, if_pos rfl]
    rfl
  · intro p
    show Live (L.heap.new _) p ↔ _
    rw [live_new, h.live]
    simp

theorem pair_owns (h : Holds L [] [(a, x)]) (z : α) :
    ∃ heap, L.pair z = some (a, heap) ∧ Owns heap ([(a, x)] ++ [(L.heap.top, z)]) := by
  have hget := h.get_position
  simp only [List.append_nil, first_nil, last_nil] at hget
  have hne := Heap.ne_top hget
  have hroot : L.root = some a := h.root
  obtain ⟨n, hn⟩ : ∃ n : Node α, n = ⟨x, L.heap.top, L.heap.top⟩ := ⟨_, rfl⟩
  have hget₁ := Heap.get_new_of (y := ⟨z, a, a⟩) hget
  refine ⟨(L.heap.new ⟨z, a, a⟩).put a n, ?_, ⟨?_, ?_, trivial⟩, by simpa using hne, ?_⟩
  · simp [pair, hroot, Heap.store_of hget₁, hn]
  · rw [Heap.get_put hget₁, if_pos rfl, hn]
    rfl
  · rw [Heap.get_put hget₁, if_neg (Ne.symm hne), Heap.get_new, if_pos rfl]
    rfl
  · intro p
    rw [live_put hget₁, live_new, h.owns.live]
    simp

namespace Cursor

def items (c : Cursor α) : List α := c.before ++ c.after

def insert (c : Cursor α) (x : α) : Cursor α := if c.before = [] then ⟨[], x :: c.after⟩ else ⟨c.before ++ [x], c.after⟩

def add (c : Cursor α) (x : α) : Cursor α :=
  match c.after with
  | [] => ⟨[], [x]⟩
  | y :: after => ⟨c.before, y :: x :: after⟩

/-- What the reference that `Add` returns has: the new item, but in a list of one the other. -/
def added (c : Cursor α) (x : α) : α :=
  match c.items with
  | [y] => y
  | _ => x

def replace (c : Cursor α) (x : α) : Cursor α :=
  match c.after with
  | [] => c
  | _ :: after => ⟨c.before, x :: after⟩

/-- The position goes on to the next item, from the last one to the first. -/
def del (c : Cursor α) : Cursor α :=
  match c.after with
  | [] => c
  | [_] => ⟨[], c.before⟩
  | _ :: after => ⟨c.before, after⟩

def beginning (c : Cursor α) : Cursor α := ⟨[], c.items⟩

def toEnd (c : Cursor α) : Cursor α := ⟨c.items.dropLast, c.items.getLast?.toList⟩

def next (c : Cursor α) (circular : Bool) : Cursor α :=
  match c.after with
  | [] => c
  | [x] => if circular then ⟨[], c.before ++ [x]⟩ else c
  | x :: after => ⟨c.before ++ [x], after⟩

def prev (c : Cursor α) (circular : Bool) : Cursor α :=
  match c.before.getLast? with
  | some x => ⟨c.before.dropLast, x :: c.after⟩
  | none => if circular then c.toEnd else c

def find [DecidableEq α] (c : Cursor α) (x : α) : Cursor α :=
  if x ∈ c.items then ⟨c.items.takeWhile (· ≠ x), c.items.dropWhile (· ≠ x)⟩ else c

theorem insert_items (c : Cursor α) (x : α) : (c.insert x).items = c.before ++ x :: c.after := by
  unfold insert items
  split
  · rename_i hb
    simp [hb]
  · simp

end Cursor

/-! ## Calls -/

/-- What `Insert` leaves: the new node in front of the position, which moves to it at the
    front. -/
theorem insert_holds (h : Holds L bs as) (z : α) : ∃ L', L.insert z = some L' ∧
    Holds L' (if bs = [] then [] else bs ++ [(L.heap.top, z)]) (if bs = [] then (L.heap.top, z) :: as else as) := by
  have hsize := h.listSize
  unfold insert
  match as with
  | [] =>
    obtain rfl := h.inside rfl
    rw [if_pos (show L.listSize = 0 from hsize)]
    exact ⟨_, rfl, single_holds h.owns z⟩
  | (a, x) :: as =>
    by_cases h1 : as ++ bs = []
    · obtain ⟨rfl, rfl⟩ := List.append_eq_nil_iff.mp h1
      obtain ⟨heap, hpair, howns⟩ := pair_owns h z
      rw [if_neg (by simp [hsize]), if_pos (by simp [hsize])]
      simp only [hpair, Option.bind_eq_bind, Option.bind_some, Option.pure_def]
      exact ⟨_, rfl, howns.rotate, rfl, rfl, rfl, nofun⟩
    · have hlen : 0 < (as ++ bs).length := List.length_pos_iff.mpr h1
      simp only [List.length_append, List.length_cons] at hsize hlen
      obtain ⟨heap, hlink, howns⟩ := link_owns h.from_position h1 z
      have hpos : L.position = some a := h.position
      have hroot := h.position_eq_root
      rw [if_neg (by omega), if_neg (by omega)]
      simp only [hpos, Option.bind_eq_bind, Option.bind_some, h.get_position, hlink, Option.pure_def]
      rw [hpos] at hroot
      simp only [hroot]
      by_cases hb : bs = []
      · subst hb
        simp only [if_true]
        rw [List.append_nil] at howns
        exact ⟨_, rfl, ⟨howns.rotate, rfl, rfl, by simp [hsize], nofun⟩⟩
      · simp only [if_neg hb]
        have howns' : Owns heap ((a, x) :: as ++ (bs ++ [(L.heap.top, z)])) := by simpa using howns
        refine ⟨_, rfl, ⟨howns'.rotate, ?_, hpos, ?_, nofun⟩⟩
        · show L.root = _
          rw [h.root]
          cases bs with
          | nil => exact absurd rfl hb
          | cons d bs => rfl
        · simp
          omega

/-- What `Add` leaves: the new node behind the position. -/
theorem add_holds (h : Holds L bs as) (z : α) : ∃ p L', L.add z = some (p, L') ∧
    Holds L' bs (as.head?.toList ++ (L.heap.top, z) :: as.tail) ∧
      (p, Cursor.added ⟨bs.map (·.2), as.map (·.2)⟩ z) ∈ bs ++ (as.head?.toList ++ (L.heap.top, z) :: as.tail) := by
  have hsize := h.listSize
  unfold add Cursor.added Cursor.items
  match as with
  | [] =>
    obtain rfl := h.inside rfl
    rw [if_pos (show L.listSize = 0 from hsize)]
    exact ⟨_, _, rfl, single_holds h.owns z, List.mem_singleton.mpr rfl⟩
  | (a, x) :: as =>
    by_cases h1 : as ++ bs = []
    · obtain ⟨rfl, rfl⟩ := List.append_eq_nil_iff.mp h1
      obtain ⟨heap, hpair, howns⟩ := pair_owns h z
      rw [if_neg (by simp [hsize]), if_pos (by simp [hsize])]
      simp only [hpair, Option.bind_eq_bind, Option.bind_some, Option.pure_def]
      exact ⟨_, _, rfl, ⟨howns, rfl, rfl, rfl, nofun⟩, List.mem_cons_self ..⟩
    · -- the ring from the node behind the position on
      obtain ⟨⟨c, y⟩, cs, hcs⟩ := List.exists_cons_of_ne_nil h1
      have hlen : (as ++ bs).length = cs.length + 1 := by rw [hcs]; rfl
      simp only [List.length_append, List.length_cons] at hsize hlen
      have hrot : Owns L.heap ((c, y) :: (cs ++ [(a, x)])) := by
        have hpos : Owns L.heap ([(a, x)] ++ (c, y) :: cs) := hcs ▸ h.from_position
        exact hpos.rotate
      obtain ⟨heap, hlink, howns⟩ := link_owns hrot (by simp) z
      have hpos : L.position = some a := h.position
      have hget := h.get_position
      rw [hcs, first_cons] at hget
      rw [last_append, last_cons, last_nil] at hlink
      rw [if_neg (by omega), if_neg (by omega)]
      simp only [hpos, Option.bind_eq_bind, Option.bind_some, hget, hlink, Option.pure_def]
      have howns' : Owns heap (as ++ (bs ++ [(a, x), (L.heap.top, z)])) := by
        rw [← List.append_assoc as, hcs]
        simpa using howns
      refine ⟨_, _, rfl, ⟨?_, ?_, rfl, ?_, nofun⟩, ?_⟩
      · simpa using howns'.rotate
      · show L.root = _
        rw [h.root]
        cases bs <;> rfl
      · simp
        omega
      · have hmany : ∀ y, bs.map (·.2) ++ ((a, x) :: as).map (·.2) ≠ [y] := by
          intro y he
          have hone := congrArg List.length he
          simp at hone
          omega
        split
        · rename_i y hy
          exact absurd hy (hmany y)
        · simp

/-- What `Del` leaves: the position goes on, round the end. -/
theorem del_holds (h : Holds L bs ((a, x) :: as)) : ∃ L', L.del = some L' ∧
    Holds L' (if as = [] then [] else bs) (if as = [] then bs else as) := by
  have hsize := h.listSize
  have hpos : L.position = some a := h.position
  unfold del
  by_cases h1 : as ++ bs = []
  · obtain ⟨rfl, rfl⟩ := List.append_eq_nil_iff.mp h1
    have hroot : L.root = some a := h.root
    have hget := h.get_position
    rw [if_neg (by simp [hsize]), if_pos (by simp [hsize])]
    simp only [hroot, Heap.delete_of hget, Option.bind_eq_bind, Option.bind_some, Option.pure_def]
    refine ⟨_, rfl, ⟨trivial, by simp, ?_⟩, rfl, rfl, rfl, fun _ => rfl⟩
    intro p
    have hl := h.owns.live p
    unfold Live at hl ⊢
    rw [Heap.get_free]
    by_cases he : p = a
    · simp [he]
    · rw [if_neg he, hl]
      simp [he]
  · have hlen : 0 < (as ++ bs).length := List.length_pos_iff.mpr h1
    simp only [List.length_append, List.length_cons] at hsize hlen
    obtain ⟨heap₁, heap₂, heap₃, hget, hs₁, hs₂, hdel, howns⟩ := unlink_owns h.from_position h1
    have hroot := h.position_eq_root
    rw [hpos] at hroot
    rw [if_neg (by omega), if_neg (by omega)]
    simp only [hpos, hget, hs₁, hs₂, hdel, hroot, Option.bind_eq_bind, Option.bind_some, Option.pure_def]
    refine ⟨_, rfl, ?_⟩
    cases as with
    | nil =>
      simp only [if_true]
      obtain ⟨d, bs, rfl⟩ := List.exists_cons_of_ne_nil (by simpa using h1 : bs ≠ [])
      refine ⟨howns, ?_, rfl, ?_, nofun⟩
      · rw [if_neg (List.cons_ne_nil d bs)]
        exact h.root
      · simp at hsize ⊢
        omega
    | cons d as =>
      rw [if_neg (List.cons_ne_nil d as), if_neg (List.cons_ne_nil d as)]
      refine ⟨howns.rotate, ?_, rfl, ?_, nofun⟩
      · cases bs with
        | nil => rfl
        | cons e bs =>
          rw [if_neg (List.cons_ne_nil e bs)]
          exact h.root
      · simp at hsize ⊢
        omega

theorem replace_holds (h : Holds L bs ((a, x) :: as)) (z : α) : ∃ L', L.replace z = some L' ∧ Holds L' bs ((a, z) :: as) := by
  have hpos : L.position = some a := h.position
  have hget := h.get_position
  have hown := h.from_position
  obtain ⟨-, hseg⟩ := hown.ring
  have hnot : a ∉ (as ++ bs).map (·.1) := (List.nodup_cons.mp hown.nodup).1
  have hsize := h.listSize
  unfold replace
  rw [if_pos (by rw [hsize, List.length_append, List.length_cons]; omega)]
  simp only [hpos, Heap.store_of hget, Option.bind_eq_bind, Option.bind_some, Option.pure_def]
  obtain ⟨n, hn⟩ : ∃ n : Node α, n = ⟨z, last (as ++ bs) a, first (as ++ bs) a⟩ := ⟨_, rfl⟩
  rw [← hn]
  have hring : Ring (L.heap.put a n) ((a, z) :: (as ++ bs)) := by
    refine ⟨?_, seg_congr (fun q hq => ?_) hseg⟩
    · rw [Heap.get_put hget, if_pos rfl, hn, last_cons]
      rfl
    · have hqa : q ≠ a := by
        rintro rfl
        exact hnot hq
      rw [Heap.get_put hget, if_neg hqa]
  have howns : Owns (L.heap.put a n) ((a, z) :: as ++ bs) :=
    ⟨hring, hown.nodup, fun p => (live_put hget).trans (hown.live p)⟩
  refine ⟨_, rfl, howns.rotate, ?_, rfl, ?_, nofun⟩
  · show L.root = _
    rw [h.root]
    cases bs <;> rfl
  · rw [show _ = L.listSize from rfl, hsize]
    simp

theorem peek_eq (h : Holds L bs ((a, x) :: as)) : L.peek = some x := by
  have hpos : L.position = some a := h.position
  simp [peek, hpos, h.get_position]

theorem Holds.move (h : Holds L bs as) (bs' as' : Cells α) (he : bs' ++ as' = bs ++ as) (hne : as' = [] → bs' = []) :
    Holds { L with position := as'.head?.map (·.1) } bs' as' :=
  ⟨he ▸ h.owns, he ▸ h.root, rfl, he ▸ h.listSize, hne⟩

theorem beginning_holds (h : Holds L bs as) : Holds L.beginning [] (bs ++ as) := by
  have hroot := h.root
  unfold beginning
  cases hcs : bs ++ as with
  | nil =>
    obtain ⟨rfl, rfl⟩ := List.append_eq_nil_iff.mp hcs
    rw [show L.root = none from hroot]
    exact h
  | cons d cs =>
    rw [hcs] at hroot
    have hm := h.move [] (d :: cs) hcs.symm nofun
    rw [hroot]
    rw [← hroot] at hm ⊢
    simpa [hroot] using hm

theorem Holds.last_root (h : Holds L bs as) {r : Nat} {w : α} {cs : Cells α} (hcs : bs ++ as = (r, w) :: cs) :
    L.root = some r ∧ L.heap.get r = some ⟨w, last cs r, first cs r⟩ := by
  have hroot := h.root
  have hring := h.owns.ring
  rw [hcs] at hroot hring
  exact ⟨hroot, by simpa using hring.1⟩

theorem toEnd_holds (h : Holds L bs as) : ∃ L', L.toEnd = some L' ∧
    Holds L' (bs ++ as).dropLast (bs ++ as).getLast?.toList := by
  unfold toEnd
  cases hcs : bs ++ as with
  | nil =>
    obtain ⟨rfl, rfl⟩ := List.append_eq_nil_iff.mp hcs
    rw [show L.root = none from h.root]
    exact ⟨L, rfl, h⟩
  | cons d cs =>
    obtain ⟨r, w⟩ := d
    obtain ⟨hroot, hget⟩ := h.last_root hcs
    have hsplit : ((r, w) :: cs).dropLast ++ ((r, w) :: cs).getLast?.toList = bs ++ as := by
      rw [List.getLast?_eq_some_getLast (List.cons_ne_nil _ cs), hcs]
      exact List.dropLast_concat_getLast _
    have hm := h.move _ _ hsplit fun hn => by simp [List.getLast?_cons] at hn
    rw [hroot]
    simp only [hget, Option.map_some]
    refine ⟨_, rfl, ?_⟩
    have hlast : some (last cs r) = (((r, w) :: cs).getLast?.toList).head?.map (·.1) := by
      rw [← last_cons r w cs 0, last, List.getLast?_eq_some_getLast (List.cons_ne_nil _ cs)]
      rfl
    rw [hroot] at hm
    rw [hlast]
    exact hm

/-- Where `operator++` leaves the position. -/
def nextCells (circular : Bool) (bs : Cells α) : Cells α → Cells α × Cells α
  | [] => (bs, [])
  | [d] => if circular then ([], bs ++ [d]) else (bs, [d])
  | d :: as => (bs ++ [d], as)

theorem next_holds (h : Holds L bs as) (circular : Bool) : ∃ L', L.next circular = some L' ∧
    Holds L' (nextCells circular bs as).1 (nextCells circular bs as).2 := by
  have hsize := h.listSize
  unfold next
  match as with
  | [] =>
    obtain rfl := h.inside rfl
    rw [if_pos (show L.listSize = 0 from hsize)]
    exact ⟨L, rfl, h⟩
  | [(a, x)] =>
    have hpos : L.position = some a := h.position
    have hroot : L.root = some (first bs a) := by
      rw [h.root]
      cases bs <;> rfl
    rw [if_neg (by simp [hsize])]
    simp only [hpos, h.get_position, Option.bind_eq_bind, Option.bind_some, Option.pure_def, List.nil_append, hroot,
      ne_eq, not_true_eq_false, or_false, nextCells]
    cases circular with
    | false => exact ⟨_, rfl, h⟩
    | true =>
      refine ⟨_, rfl, ?_⟩
      have hm := h.move [] (bs ++ [(a, x)]) rfl (by simp)
      rw [show (bs ++ [(a, x)]).head?.map (·.1) = some (first bs a) by cases bs <;> rfl] at hm
      simpa [hroot] using hm
  | (a, x) :: (b, y) :: as =>
    have hpos : L.position = some a := h.position
    have hne : some b ≠ L.root := by
      have hnd := h.owns.nodup
      rw [h.root]
      cases bs with
      | nil =>
        intro he
        simp only [List.nil_append, List.map_cons, List.nodup_cons, List.mem_cons, not_or] at hnd
        exact hnd.1.1 (Option.some.inj he).symm
      | cons d bs =>
        intro he
        simp only [List.cons_append, List.map_cons, List.map_append, List.nodup_cons, List.mem_append, List.mem_cons,
          not_or] at hnd
        exact hnd.1.2.2.1 (Option.some.inj he).symm
    have hget := h.get_position
    rw [List.cons_append, first_cons] at hget
    rw [if_neg (by simp [hsize])]
    simp only [hpos, hget, Option.bind_eq_bind, Option.bind_some, Option.pure_def, hne, ne_eq, not_false_eq_true, or_true,
      if_true]
    exact ⟨_, rfl, h.move (bs ++ [(a, x)]) ((b, y) :: as) (by simp) nofun⟩

def prevCells (circular : Bool) (bs as : Cells α) : Cells α × Cells α :=
  match bs.getLast? with
  | some d => (bs.dropLast, d :: as)
  | none => if circular then (as.dropLast, as.getLast?.toList) else (bs, as)

theorem prev_holds (h : Holds L bs as) (circular : Bool) : ∃ L', L.prev circular = some L' ∧
    Holds L' (prevCells circular bs as).1 (prevCells circular bs as).2 := by
  have hsize := h.listSize
  unfold prev
  match as with
  | [] =>
    obtain rfl := h.inside rfl
    rw [if_pos (show L.listSize = 0 from hsize)]
    refine ⟨L, rfl, ?_⟩
    cases circular <;> exact h
  | (a, x) :: as =>
    have hpos : L.position = some a := h.position
    have hroot := h.position_eq_root
    rw [hpos] at hroot
    rw [if_neg (by simp [hsize])]
    simp only [hpos, h.get_position, Option.bind_eq_bind, Option.bind_some, Option.pure_def, ne_eq, hroot]
    rcases List.eq_nil_or_concat bs with rfl | ⟨bs, ⟨b, y⟩, rfl⟩
    · cases circular with
      | false => exact ⟨_, rfl, h⟩
      | true =>
        obtain ⟨L', hL, hend⟩ := toEnd_holds h
        refine ⟨_, rfl, ?_⟩
        have hr : L.root = some a := h.root
        simp only [toEnd, hr, h.get_position, Option.map_some, Option.some.injEq] at hL
        simp only [true_or, if_true, hr]
        rw [hL]
        exact hend
    · simp only [List.concat_eq_append, last_append, last_cons, last_nil]
      refine ⟨_, rfl, ?_⟩
      have hm := h.move bs ((b, y) :: (a, x) :: as) (by simp) nofun
      simpa [prevCells] using hm

section

variable [DecidableEq α]

theorem findFrom_spec {r : Nat} (z : α) : ∀ {cs : Cells α} {p a : Nat} {x : α} {fuel : Nat}, Seg heap p ((a, x) :: cs) r →
    r ∉ cs.map (·.1) → cs.length < fuel →
    findFrom heap r z fuel a = some ((((a, x) :: cs).find? (·.2 = z)).map (·.1)) := by
  intro cs
  induction cs with
  | nil =>
    intro p a x fuel h _ hf
    obtain ⟨fuel, rfl⟩ := Nat.exists_eq_succ_of_ne_zero (Nat.ne_of_gt hf)
    obtain ⟨hget, -⟩ := h
    simp only [findFrom, hget, Option.bind_eq_bind, Option.bind_some, first_nil, if_true]
    by_cases hx : x = z <;> simp [hx]
  | cons d cs ih =>
    intro p a x fuel h hr hf
    obtain ⟨b, y⟩ := d
    obtain ⟨fuel, rfl⟩ := Nat.exists_eq_succ_of_ne_zero (Nat.ne_of_gt (Nat.lt_of_le_of_lt (Nat.zero_le _) hf))
    obtain ⟨hget, hseg⟩ := h
    simp only [List.map_cons, List.mem_cons, not_or, List.length_cons] at hr hf
    simp only [findFrom, hget, Option.bind_eq_bind, Option.bind_some, first_cons]
    by_cases hx : x = z
    · simp [hx]
    · rw [if_neg hx, if_neg (Ne.symm hr.1), ih hseg hr.2 (by omega)]
      simp [hx]

theorem findPointer_eq (h : Holds L bs as) (z : α) :
    L.findPointer z = some (((bs ++ as).find? (·.2 = z)).map (·.1)) := by
  have hsize := h.listSize
  unfold findPointer
  cases hcs : bs ++ as with
  | nil =>
    rw [hcs] at hsize
    rw [if_pos (show L.listSize = 0 from hsize)]
    rfl
  | cons d cs =>
    obtain ⟨r, w⟩ := d
    obtain ⟨hroot, -⟩ := h.last_root hcs
    have hring := h.owns.ring
    have hnd := h.owns.nodup
    rw [hcs] at hsize hring hnd
    rw [if_neg (by simp [hsize]), hroot]
    refine findFrom_spec z hring (List.nodup_cons.mp hnd).1 ?_
    rw [hsize]
    exact Nat.lt_succ_self _

/-- The cells in front of the first item equal to `z`, and those from it on. -/
theorem find_split {cs : Cells α} {z : α} (hz : z ∈ cs.map (·.2)) : ∃ us v vs, cs = us ++ v :: vs ∧
    cs.find? (·.2 = z) = some v ∧ us.map (·.2) = (cs.map (·.2)).takeWhile (· ≠ z) ∧
    (v :: vs).map (·.2) = (cs.map (·.2)).dropWhile (· ≠ z) := by
  induction cs with
  | nil => simp at hz
  | cons d cs ih =>
    by_cases hd : d.2 = z
    · exact ⟨[], d, cs, rfl, by simp [hd], by simp [hd], by simp [hd]⟩
    · have hz' : z ∈ cs.map (·.2) := by simpa [Ne.symm hd] using hz
      obtain ⟨us, v, vs, rfl, hf, hu, hv⟩ := ih hz'
      refine ⟨d :: us, v, vs, rfl, by simpa [hd] using hf, ?_, ?_⟩
      · rw [List.map_cons, List.map_cons, List.takeWhile_cons_of_pos (by simpa using hd), hu]
      · rw [hv, List.map_cons (l := us ++ v :: vs), List.dropWhile_cons_of_pos (by simpa using hd)]

theorem find_refines (h : Holds L bs as) (z : α) : ∃ L', L.find z = some (decide (z ∈ (bs ++ as).map (·.2)), L') ∧
    Refines L' (Cursor.find ⟨bs.map (·.2), as.map (·.2)⟩ z) := by
  unfold find Cursor.find Cursor.items
  rw [findPointer_eq h]
  simp only [← List.map_append]
  by_cases hz : z ∈ (bs ++ as).map (·.2)
  · obtain ⟨us, v, vs, hcs, hf, hu, hv⟩ := find_split hz
    rw [hf, if_pos hz]
    refine ⟨_, by rw [decide_eq_true hz]; rfl, us, v :: vs, h.move us (v :: vs) hcs.symm nofun, ?_⟩
    rw [hu, hv]
  · have hf : (bs ++ as).find? (·.2 = z) = none := by
      rw [List.find?_eq_none]
      intro d hd
      have : d.2 ≠ z := by
        rintro rfl
        exact hz (List.mem_map_of_mem hd)
      simpa using this
    rw [hf, if_neg hz]
    exact ⟨_, by rw [decide_eq_false hz]; rfl, bs, as, h, rfl⟩

theorem isIn_eq (h : Holds L bs as) (z : α) : L.isIn z = some (decide (z ∈ (bs ++ as).map (·.2))) := by
  obtain ⟨L', hfind, -⟩ := find_refines h z
  unfold find at hfind
  rw [isIn, findPointer_eq h] at *
  cases hf : (bs ++ as).find? (·.2 = z) with
  | none => simpa [hf] using congrArg (Option.map Prod.fst) hfind
  | some v => simpa [hf] using congrArg (Option.map Prod.fst) hfind

end

theorem clearFrom_spec {r : Nat} : ∀ {cs : Cells α} {heap : Heap (Node α)} {p a : Nat} {x : α} {fuel : Nat},
    Seg heap p ((a, x) :: cs) r → r ∉ cs.map (·.1) → (((a, x) :: cs).map (·.1)).Nodup → cs.length < fuel →
    ∃ heap', clearFrom r fuel a heap = some heap' ∧ ∀ q, Live heap' q ↔ Live heap q ∧ q ∉ ((a, x) :: cs).map (·.1) := by
  have hfree : ∀ (heap : Heap (Node α)) (a q : Nat), Live (heap.free a) q ↔ Live heap q ∧ q ≠ a := by
    intro heap a q
    unfold Live
    rw [Heap.get_free]
    by_cases he : q = a <;> simp [he]
  intro cs
  induction cs with
  | nil =>
    intro heap p a x fuel h _ _ hf
    obtain ⟨fuel, rfl⟩ := Nat.exists_eq_succ_of_ne_zero (Nat.ne_of_gt hf)
    obtain ⟨hget, -⟩ := h
    refine ⟨heap.free a, ?_, fun q => by rw [hfree]; simp⟩
    simp [clearFrom, hget, Heap.delete_of hget]
  | cons d cs ih =>
    intro heap p a x fuel h hr hnd hf
    obtain ⟨b, y⟩ := d
    obtain ⟨fuel, rfl⟩ := Nat.exists_eq_succ_of_ne_zero (Nat.ne_of_gt (Nat.lt_of_le_of_lt (Nat.zero_le _) hf))
    obtain ⟨hget, hseg⟩ := h
    obtain ⟨hna, hnd'⟩ := List.nodup_cons.mp hnd
    simp only [List.map_cons, List.mem_cons, not_or, List.length_cons] at hr hf
    have hseg' : Seg (heap.free a) a ((b, y) :: cs) r := by
      refine seg_congr (fun q hq => ?_) hseg
      have hqa : q ≠ a := by
        rintro rfl
        exact hna hq
      rw [Heap.get_free, if_neg hqa]
    have hf' : cs.length < fuel := by omega
    obtain ⟨heap', hclear, hlive⟩ := ih hseg' hr.2 hnd' hf'
    refine ⟨heap', ?_, ?_⟩
    · simp only [clearFrom, hget, Heap.delete_of hget, Option.bind_eq_bind, Option.bind_some, first_cons]
      rw [if_neg (Ne.symm hr.1)]
      exact hclear
    · intro q
      rw [hlive, hfree, List.map_cons (l := (b, y) :: cs), List.mem_cons, not_or, and_assoc]

theorem clear_holds (h : Holds L bs as) : ∃ L', L.clear = some L' ∧ Holds L' [] [] := by
  have hsize := h.listSize
  unfold clear
  cases hcs : bs ++ as with
  | nil =>
    obtain ⟨rfl, rfl⟩ := List.append_eq_nil_iff.mp hcs
    rw [if_pos (show L.listSize = 0 from hsize)]
    exact ⟨L, rfl, h⟩
  | cons d cs =>
    obtain ⟨r, w⟩ := d
    obtain ⟨hroot, hget⟩ := h.last_root hcs
    have howns := h.owns
    rw [hcs] at hsize howns
    rw [if_neg (by simp [hsize])]
    have hdone : ∀ heap' : Heap (Node α), (∀ q, Live heap' q ↔ Live L.heap q ∧ q ∉ ((r, w) :: cs).map (·.1)) →
        Holds { heap := heap', root := none, position := none, listSize := 0 } [] [] := by
      intro heap' hl
      refine ⟨⟨trivial, by simp, ?_⟩, rfl, rfl, rfl, fun _ => rfl⟩
      intro q
      rw [show Live _ q ↔ _ from hl q, howns.live, and_not_self_iff]
      simp
    simp only [hroot, Option.bind_eq_bind, Option.bind_some, Option.pure_def]
    obtain ⟨heap', hclear, hlive⟩ := clearFrom_spec (r := r) howns.ring (List.nodup_cons.mp howns.nodup).1 howns.nodup
      (show cs.length < L.listSize by rw [hsize]; exact Nat.lt_succ_self _)
    by_cases h1 : L.listSize = 1
    · -- one node is deleted without a look at its link
      obtain rfl : cs = [] := by simpa [hsize] using h1
      rw [if_pos h1, Heap.delete_of hget]
      refine ⟨_, rfl, hdone _ ?_⟩
      intro q
      unfold Live
      rw [Heap.get_free]
      by_cases he : q = r <;> simp [he]
    · rw [if_neg h1, hclear]
      exact ⟨_, rfl, hdone heap' hlive⟩

theorem insert_refines {c : Cursor α} (h : Refines L c) (x : α) : ∃ L', L.insert x = some L' ∧ Refines L' (c.insert x) := by
  obtain ⟨bs, as, hh, rfl⟩ := h
  obtain ⟨L', hL, hh'⟩ := insert_holds hh x
  refine ⟨L', hL, _, _, hh', ?_⟩
  by_cases hb : bs = []
  · simp [Cursor.insert, hb]
  · simp [Cursor.insert, hb]

theorem add_refines {c : Cursor α} (h : Refines L c) (x : α) : ∃ p L' n, L.add x = some (p, L') ∧
    L'.heap.get p = some n ∧ n.item = c.added x ∧ Refines L' (c.add x) := by
  obtain ⟨bs, as, hh, rfl⟩ := h
  obtain ⟨p, L', hL, hh', hp⟩ := add_holds hh x
  obtain ⟨n, hn, hx⟩ := seg_get hh'.owns.ring _ hp
  refine ⟨p, L', n, hL, hn, hx, _, _, hh', ?_⟩
  cases as with
  | nil => simp [Cursor.add, hh.inside rfl]
  | cons d as => simp [Cursor.add]

theorem del_refines {c : Cursor α} (h : Refines L c) : ∃ L', L.del = some L' ∧ Refines L' c.del := by
  obtain ⟨bs, as, hh, rfl⟩ := h
  match as with
  | [] =>
    have hsize := hh.listSize
    rw [hh.inside rfl] at hsize
    exact ⟨L, by rw [del, if_pos (show L.listSize = 0 from hsize)], bs, [], hh, rfl⟩
  | [(a, x)] =>
    obtain ⟨L', hL, hh'⟩ := del_holds hh
    exact ⟨L', hL, _, _, hh', rfl⟩
  | (a, x) :: (b, y) :: as =>
    obtain ⟨L', hL, hh'⟩ := del_holds hh
    exact ⟨L', hL, _, _, hh', by simp [Cursor.del]⟩

theorem peek_refines {bef aft : List α} {x : α} (h : Refines L ⟨bef, x :: aft⟩) : L.peek = some x := by
  obtain ⟨bs, as, hh, he⟩ := h
  match as with
  | [] => cases (Cursor.mk.inj he).2
  | (a, y) :: as =>
    obtain rfl : x = y := (List.cons.inj (Cursor.mk.inj he).2).1
    exact peek_eq hh

theorem pop_refines (bef : List α) {aft : List α} {x : α} (h : Refines L ⟨bef, x :: aft⟩) :
    ∃ L', L.pop = some (x, L') ∧ Refines L' (Cursor.del ⟨bef, x :: aft⟩) := by
  obtain ⟨L', hL, hr⟩ := del_refines h
  exact ⟨L', by rw [pop, peek_refines h, hL]; rfl, hr⟩

theorem beginning_refines {c : Cursor α} (h : Refines L c) : Refines L.beginning c.beginning := by
  obtain ⟨bs, as, hh, rfl⟩ := h
  refine ⟨[], bs ++ as, beginning_holds hh, ?_⟩
  rw [List.map_append]
  rfl

theorem listSize_eq {c : Cursor α} (h : Refines L c) : L.listSize = c.items.length := by
  obtain ⟨bs, as, hh, rfl⟩ := h
  rw [hh.listSize]
  simp [Cursor.items]

theorem next_refines {c : Cursor α} (h : Refines L c) (circular : Bool) :
    ∃ L', L.next circular = some L' ∧ Refines L' (c.next circular) := by
  obtain ⟨bs, as, hh, rfl⟩ := h
  obtain ⟨L', hL, hh'⟩ := next_holds hh circular
  refine ⟨L', hL, _, _, hh', ?_⟩
  match as with
  | [] => rfl
  | [d] => cases circular <;> simp [Cursor.next, nextCells]
  | d :: e :: as => simp [Cursor.next, nextCells]

theorem prev_refines {c : Cursor α} (h : Refines L c) (circular : Bool) :
    ∃ L', L.prev circular = some L' ∧ Refines L' (c.prev circular) := by
  obtain ⟨bs, as, hh, rfl⟩ := h
  obtain ⟨L', hL, hh'⟩ := prev_holds hh circular
  refine ⟨L', hL, _, _, hh', ?_⟩
  rcases List.eq_nil_or_concat bs with rfl | ⟨bs, d, rfl⟩
  · cases circular with
    | false => rfl
    | true => simp [Cursor.prev, prevCells, Cursor.toEnd, Cursor.items, List.map_dropLast, Option.toList_map]
  · simp [Cursor.prev, prevCells]

theorem toEnd_refines {c : Cursor α} (h : Refines L c) : ∃ L', L.toEnd = some L' ∧ Refines L' c.toEnd := by
  obtain ⟨bs, as, hh, rfl⟩ := h
  obtain ⟨L', hL, hh'⟩ := toEnd_holds hh
  refine ⟨L', hL, _, _, hh', ?_⟩
  simp only [Cursor.toEnd, Cursor.items, ← List.map_append, List.map_dropLast, List.getLast?_map, Option.toList_map]

/-! ## Runs -/

section

variable [DecidableEq α]

inductive Call (α : Type) where
  | insert (x : α)
  | add (x : α)
  | replace (x : α)
  | del
  | peek
  | pop
  | find (x : α)
  | isIn (x : α)
  | next
  | prev
  | beginning
  | toEnd
  | size
  | clear

inductive Answer (α : Type) where
  | void
  | item (x : α)
  | flag (b : Bool)
  | count (n : Nat)

variable (circular : Bool)

/-- A call; `none` when it follows a null or a dangling pointer. -/
def call (L : LinkedList α) : Call α → Option (Answer α × LinkedList α)
  | .insert x => (L.insert x).map fun L => (.void, L)
  | .add x => do
    let (p, L) ← L.add x
    let node ← L.heap.get p
    return (.item node.item, L)
  | .replace x => (L.replace x).map fun L => (.void, L)
  | .del => L.del.map fun L => (.void, L)
  | .peek => L.peek.map fun x => (.item x, L)
  | .pop => L.pop.map fun r => (.item r.1, r.2)
  | .find x => (L.find x).map fun r => (.flag r.1, r.2)
  | .isIn x => (L.isIn x).map fun b => (.flag b, L)
  | .next => (L.next circular).map fun L => (.void, L)
  | .prev => (L.prev circular).map fun L => (.void, L)
  | .beginning => some (.void, L.beginning)
  | .toEnd => L.toEnd.map fun L => (.void, L)
  | .size => some (.count L.listSize, L)
  | .clear => L.clear.map fun L => (.void, L)

/-- The same call of a cursor; `none` when an empty one is to give an item. -/
def cursorCall (c : Cursor α) : Call α → Option (Answer α × Cursor α)
  | .insert x => some (.void, c.insert x)
  | .add x => some (.item (c.added x), c.add x)
  | .replace x => some (.void, c.replace x)
  | .del => some (.void, c.del)
  | .peek => c.after.head?.map fun x => (.item x, c)
  | .pop => c.after.head?.map fun x => (.item x, c.del)
  | .find x => some (.flag (decide (x ∈ c.items)), c.find x)
  | .isIn x => some (.flag (decide (x ∈ c.items)), c)
  | .next => some (.void, c.next circular)
  | .prev => some (.void, c.prev circular)
  | .beginning => some (.void, c.beginning)
  | .toEnd => some (.void, c.toEnd)
  | .size => some (.count c.items.length, c)
  | .clear => some (.void, ⟨[], []⟩)

variable {circular}

theorem call_refines {c : Cursor α} {k : Call α} {a : Answer α} {c' : Cursor α} (h : Refines L c)
    (hk : cursorCall circular c k = some (a, c')) : ∃ L', call circular L k = some (a, L') ∧ Refines L' c' := by
  have hvoid : ∀ {r : Option (LinkedList α)} {c₁ : Cursor α}, (∃ L', r = some L' ∧ Refines L' c₁) →
      ∃ L', (r.map fun L => (Answer.void (α := α), L)) = some (.void, L') ∧ Refines L' c₁ := by
    rintro r c₁ ⟨L', rfl, hr⟩
    exact ⟨L', rfl, hr⟩
  cases k with
  | insert x =>
    cases hk
    exact hvoid (insert_refines h x)
  | add x =>
    cases hk
    obtain ⟨p, L', n, hL, hn, hx, hr⟩ := add_refines h x
    exact ⟨L', by simp [call, hL, hn, hx], hr⟩
  | replace x =>
    cases hk
    refine hvoid ?_
    obtain ⟨bs, as, hh, rfl⟩ := h
    match as with
    | [] =>
      have hsize := hh.listSize
      rw [hh.inside rfl] at hsize
      exact ⟨L, by rw [replace, if_neg (by rw [hsize]; exact Nat.lt_irrefl 0)], bs, [], hh, rfl⟩
    | (b, y) :: as =>
      obtain ⟨L', hL, hh'⟩ := replace_holds hh x
      exact ⟨L', hL, bs, (b, x) :: as, hh', rfl⟩
  | del =>
    cases hk
    exact hvoid (del_refines h)
  | peek =>
    obtain ⟨x, hx, he⟩ := Option.map_eq_some_iff.mp hk
    cases he
    obtain ⟨bef, aft⟩ := c
    match aft with
    | [] => cases hx
    | y :: aft =>
      cases hx
      exact ⟨L, by rw [call, peek_refines h]; rfl, h⟩
  | pop =>
    obtain ⟨x, hx, he⟩ := Option.map_eq_some_iff.mp hk
    cases he
    obtain ⟨bef, aft⟩ := c
    match aft with
    | [] => cases hx
    | y :: aft =>
      cases hx
      obtain ⟨L', hL, hr⟩ := pop_refines _ h
      exact ⟨L', by rw [call, hL]; rfl, hr⟩
  | find x =>
    cases hk
    obtain ⟨bs, as, hh, rfl⟩ := h
    obtain ⟨L', hL, hr⟩ := find_refines hh x
    rw [List.map_append] at hL
    exact ⟨L', by rw [call, hL]; rfl, hr⟩
  | isIn x =>
    cases hk
    obtain ⟨bs, as, hh, rfl⟩ := h
    have hin := isIn_eq hh x
    rw [List.map_append] at hin
    exact ⟨L, by rw [call, hin]; rfl, bs, as, hh, rfl⟩
  | next =>
    cases hk
    exact hvoid (next_refines h circular)
  | prev =>
    cases hk
    exact hvoid (prev_refines h circular)
  | beginning =>
    cases hk
    exact ⟨L.beginning, rfl, beginning_refines h⟩
  | toEnd =>
    cases hk
    exact hvoid (toEnd_refines h)
  | size =>
    cases hk
    exact ⟨L, by rw [call, listSize_eq h], h⟩
  | clear =>
    cases hk
    obtain ⟨bs, as, hh, rfl⟩ := h
    obtain ⟨L', hL, hh'⟩ := clear_holds hh
    exact hvoid ⟨L', hL, [], [], hh', rfl⟩

/-- Without an item to give there is none to point to. -/
theorem call_fails {c : Cursor α} {k : Call α} (h : Refines L c) (hk : cursorCall circular c k = none) :
    call circular L k = none := by
  obtain ⟨bs, as, hh, rfl⟩ := h
  have hnull : (as.map (·.2)).head? = none → L.peek = none := by
    intro hnil
    obtain rfl : as = [] := by simpa using hnil
    rw [peek, hh.position]
    rfl
  cases k with
  | peek =>
    rw [call, hnull (Option.map_eq_none_iff.mp hk)]
    rfl
  | pop =>
    rw [call, pop, hnull (Option.map_eq_none_iff.mp hk)]
    rfl
  | _ => cases hk

/-- On any sequence of calls a new list and a cursor answer the same. The list follows a null
    pointer where the cursor has no item to give, and never a dangling one. -/
theorem list_refines_cursor (ks : List (Call α)) :
    Option.Rel (Calls.Agree Refines) (Calls.run (call circular) empty ks) (Calls.run (cursorCall circular) ⟨[], []⟩ ks) := by
  refine Calls.run_rel ?_ ks ⟨[], [], empty_holds, rfl⟩
  intro L c k h
  cases hk : cursorCall circular c k with
  | none =>
    rw [call_fails h hk]
    exact .none
  | some r =>
    obtain ⟨a, c'⟩ := r
    obtain ⟨L', hL, h'⟩ := call_refines h hk
    rw [hL]
    exact .some ⟨rfl, h'⟩

/-- The second `Add` returns a reference to the first item. -/
example : (Calls.run (cursorCall false) ⟨[], []⟩ [.add 1, .add 2, .add 3]).map (·.1) = some [.item 1, .item 1, .item 3] := rfl

end

end LinkedList

end RakHook
