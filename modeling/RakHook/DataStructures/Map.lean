/-
  RakHook.DataStructures.Map — `DataStructures::Map` (include/RakNet/DS_Map.h).

  An ordered list of nodes, and the last search: the index and the key it was saved with.
  `Holds m l` says that the nodes are `l` and that a saved search still points to its key.
  What a map is for is a finite map (`Tabulates l d`). On any sequence of calls that asks
  only for keys and positions that are there, a new map answers like the finite map
  (`map_refines_finmap`).

  A `Get` for a key that is not there answers with another key's value, and saves that as
  its search: after it `Has` says that the key is there (`get_absent_key`).
-/

import Mathlib.Data.Finmap
import Mathlib.Data.Finset.Sort
import RakHook.DataStructures.OrderedList

namespace RakHook

structure MapNode (κ δ : Type) where
  mapNodeKey : κ
  mapNodeData : δ
  deriving Repr, DecidableEq

structure Map (κ δ : Type) where
  mapNodeList : OrderedList (MapNode κ δ)
  lastSearchIndex : Nat
  /-- `none` until a search is saved. -/
  lastSearchKey : Option κ
  lastSearchIndexValid : Bool
  deriving Repr

def defaultMapKeyComparison {κ : Type} [LinearOrder κ] (a b : κ) : Int := if a < b then -1 else if a = b then 0 else 1

namespace Map

variable {κ δ : Type}

def empty : Map κ δ :=
  { mapNodeList := .empty, lastSearchIndex := 0, lastSearchKey := none, lastSearchIndexValid := false }

section

-- `key_comparison_func`
variable (cmp : κ → κ → Int)

def nodeComparisonFunc (a : κ) (b : MapNode κ δ) : Int := cmp a b.mapNodeKey

def saveLastSearch (m : Map κ δ) (key : κ) (index : Nat) : Map κ δ :=
  { m with lastSearchIndex := index, lastSearchKey := some key, lastSearchIndexValid := true }

def hasSavedSearchResult (m : Map κ δ) (key : κ) : Bool :=
  m.lastSearchIndexValid && m.lastSearchKey.any fun k => cmp key k == 0

def getIndexFromKey (m : Map κ δ) (key : κ) : Option (Nat × Bool) :=
  m.mapNodeList.getIndexFromKey (nodeComparisonFunc cmp) key

def dataAt (m : Map κ δ) (index : Nat) : Option δ := (m.mapNodeList.get index).map (·.mapNodeData)

def storeData (m : Map κ δ) (index : Nat) (data : δ) : Option (Map κ δ) := do
  let node ← m.mapNodeList.get index
  let L ← m.mapNodeList.orderedList.store index { node with mapNodeData := data }
  return { m with mapNodeList := ⟨L⟩ }

/-- Without the assertion, here and below. -/
def get (m : Map κ δ) (key : κ) : Option (δ × Map κ δ) :=
  if m.hasSavedSearchResult cmp key then (m.dataAt m.lastSearchIndex).map fun data => (data, m)
  else do
    let (index, _) ← m.getIndexFromKey cmp key
    let data ← m.dataAt index
    return (data, m.saveLastSearch key index)

def getIndexAtKey (m : Map κ δ) (key : κ) : Option (Nat × Map κ δ) :=
  if m.hasSavedSearchResult cmp key then some (m.lastSearchIndex, m)
  else do
    let (index, _) ← m.getIndexFromKey cmp key
    return (index, m.saveLastSearch key index)

def removeAtIndex (m : Map κ δ) (index : Nat) : Option (Map κ δ) := do
  let list ← m.mapNodeList.removeAtIndex index
  return { m with mapNodeList := list, lastSearchIndexValid := false }

/-- Where `Pop` looks. -/
def popIndex (m : Map κ δ) (key : κ) : Option Nat :=
  if m.hasSavedSearchResult cmp key then some m.lastSearchIndex else (m.getIndexFromKey cmp key).map (·.1)

def pop (m : Map κ δ) (key : κ) : Option (δ × Map κ δ) := do
  let index ← m.popIndex cmp key
  let tmp ← m.dataAt index
  let m ← m.removeAtIndex index
  return (tmp, m)

/-- `SaveLastSearch(key, mapNodeList.Insert(key, MapNode(key, data)))`: all of `SetNew`. -/
def setNew (m : Map κ δ) (key : κ) (data : δ) : Option (Map κ δ) := do
  let (index, list) ← m.mapNodeList.insert (nodeComparisonFunc cmp) key ⟨key, data⟩
  return { m with mapNodeList := list }.saveLastSearch key index

def set (m : Map κ δ) (key : κ) (data : δ) : Option (Map κ δ) :=
  if m.hasSavedSearchResult cmp key then m.storeData m.lastSearchIndex data
  else do
    let (index, objectExists) ← m.getIndexFromKey cmp key
    if objectExists then (m.saveLastSearch key index).storeData index data else m.setNew cmp key data

def setExisting (m : Map κ δ) (key : κ) (data : δ) : Option (Map κ δ) :=
  if m.hasSavedSearchResult cmp key then m.storeData m.lastSearchIndex data
  else do
    let (index, _) ← m.getIndexFromKey cmp key
    (m.saveLastSearch key index).storeData index data

def has (m : Map κ δ) (key : κ) : Option (Bool × Map κ δ) :=
  if m.hasSavedSearchResult cmp key then some (true, m)
  else do
    let (index, objectExists) ← m.getIndexFromKey cmp key
    return (objectExists, if objectExists then m.saveLastSearch key index else m)

def delete (m : Map κ δ) (key : κ) : Option (Bool × Map κ δ) :=
  if m.hasSavedSearchResult cmp key then (m.removeAtIndex m.lastSearchIndex).map fun m => (true, m)
  else do
    let (index, objectExists) ← m.getIndexFromKey cmp key
    if objectExists then (m.removeAtIndex index).map fun m => (true, m) else some (false, m)

end

def clear (m : Map κ δ) : Map κ δ := { m with mapNodeList := m.mapNodeList.clear, lastSearchIndexValid := false }

def atIndex (m : Map κ δ) (position : Nat) : Option δ := m.dataAt position

def getKeyAtIndex (m : Map κ δ) (position : Nat) : Option κ := (m.mapNodeList.get position).map (·.mapNodeKey)

def size (m : Map κ δ) : Nat := m.mapNodeList.size

/-! ## The nodes -/

variable [LinearOrder κ] {cmp : κ → κ → Int} {m : Map κ δ} {l : List (MapNode κ δ)}

theorem defaultMapKeyComparison_compares : OrderedList.Compares (defaultMapKeyComparison (κ := κ)) id := by
  refine ⟨fun a b => ?_, fun a b => ?_⟩
  · unfold defaultMapKeyComparison
    split
    · simp [*]
    · split <;> simp [*]
  · unfold defaultMapKeyComparison
    split
    · rename_i h
      simp [h.le]
    · split
      · rename_i h
        simp [h]
      · rename_i h hne
        simpa using lt_of_le_of_ne (not_lt.mp h) (Ne.symm hne)

theorem nodeComparison_compares (hc : OrderedList.Compares cmp id) :
    OrderedList.Compares (nodeComparisonFunc (δ := δ) cmp) MapNode.mapNodeKey :=
  ⟨fun k x => hc.neg k x.mapNodeKey, fun k x => hc.pos k x.mapNodeKey⟩

/-- The nodes are `l`, and a saved search points to its key. -/
structure Holds (m : Map κ δ) (l : List (MapNode κ δ)) : Prop where
  list : m.mapNodeList.Holds MapNode.mapNodeKey l
  saved : m.lastSearchIndexValid = true →
    ∃ n, l[m.lastSearchIndex]? = some n ∧ m.lastSearchKey = some n.mapNodeKey

theorem empty_holds : Holds (empty : Map κ δ) [] := ⟨OrderedList.empty_holds, nofun⟩

theorem index_unique {as bs : List (MapNode κ δ)} {n n' : MapNode κ δ}
    (ho : OrderedList.Ordered MapNode.mapNodeKey (as ++ n :: bs)) {i : Nat} (hi : (as ++ n :: bs)[i]? = some n')
    (hk : n'.mapNodeKey = n.mapNodeKey) : i = as.length := by
  obtain ⟨-, has, hbs⟩ := OrderedList.ordered_iff.mp ho
  rcases Nat.lt_trichotomy i as.length with hlt | heq | hgt
  · rw [List.getElem?_append_left hlt] at hi
    exact absurd hk (has n' (List.mem_of_getElem? hi)).ne
  · exact heq
  · obtain ⟨j, rfl⟩ : ∃ j, i = as.length + (j + 1) := ⟨i - as.length - 1, by omega⟩
    rw [List.getElem?_append_right (by omega), Nat.add_sub_cancel_left, List.getElem?_cons_succ] at hi
    exact absurd hk (hbs n' (List.mem_of_getElem? hi)).ne'

/-- Where a key is: at the node that a saved search for it points to and a new one finds, or
    nowhere, and then no search for it is saved. -/
theorem Holds.locate (hc : OrderedList.Compares cmp id) (h : Holds m l) (key : κ) :
    (∃ as n bs, l = as ++ n :: bs ∧ n.mapNodeKey = key ∧
        (m.hasSavedSearchResult cmp key = true → m.lastSearchIndex = as.length) ∧
        m.getIndexFromKey cmp key = some (as.length, true)) ∨
      ∃ as bs, l = as ++ bs ∧ (∀ n ∈ as, n.mapNodeKey < key) ∧ (∀ n ∈ bs, key < n.mapNodeKey) ∧
        m.hasSavedSearchResult cmp key = false ∧ m.getIndexFromKey cmp key = some (as.length, false) := by
  have hsaved : m.hasSavedSearchResult cmp key = true → ∃ n, l[m.lastSearchIndex]? = some n ∧ n.mapNodeKey = key := by
    intro hs
    rw [hasSavedSearchResult, Bool.and_eq_true] at hs
    obtain ⟨n, hn, hk⟩ := h.saved hs.1
    have hz : cmp key n.mapNodeKey = 0 := by simpa [hk] using hs.2
    exact ⟨n, hn, ((hc.zero _ _).mp hz).symm⟩
  rcases OrderedList.getIndexFromKey_spec (nodeComparison_compares hc) h.list key with
    ⟨as, n, bs, rfl, hn, hf⟩ | ⟨as, bs, rfl, has, hbs, hf⟩
  · refine .inl ⟨as, n, bs, rfl, hn, fun hs => ?_, hf⟩
    obtain ⟨n', hn', hk⟩ := hsaved hs
    exact index_unique h.list.ordered hn' (hk.trans hn.symm)
  · refine .inr ⟨as, bs, rfl, has, hbs, Bool.eq_false_iff.mpr fun hs => ?_, hf⟩
    obtain ⟨n', hn', hk⟩ := hsaved hs
    rcases List.mem_append.mp (List.mem_of_getElem? hn') with hm | hm
    · exact absurd hk (has n' hm).ne
    · exact absurd hk (hbs n' hm).ne'

theorem save_holds {as bs : List (MapNode κ δ)} {n : MapNode κ δ}
    (h : m.mapNodeList.Holds MapNode.mapNodeKey (as ++ n :: bs)) :
    Holds (m.saveLastSearch n.mapNodeKey as.length) (as ++ n :: bs) :=
  ⟨h, fun _ => ⟨n, by simp [saveLastSearch], rfl⟩⟩

theorem Holds.dataAt_eq {as bs : List (MapNode κ δ)} {n : MapNode κ δ} (h : Holds m (as ++ n :: bs)) :
    m.dataAt as.length = some n.mapNodeData := by
  have hget := h.list.list.get_eq as.length (by simp)
  rw [dataAt, OrderedList.get, hget]
  simp

/-- Storing in a node that is or becomes the saved one, or with none saved before. -/
theorem Holds.storeData_holds {as bs : List (MapNode κ δ)} {n : MapNode κ δ} (h : Holds m (as ++ n :: bs)) (data : δ) :
    ∃ m', m.storeData as.length data = some m' ∧ Holds m' (as ++ ⟨n.mapNodeKey, data⟩ :: bs) := by
  have hget := h.list.list.get_eq as.length (by simp)
  obtain ⟨L, hL, hl⟩ := DSList.store_holds h.list.list (⟨n.mapNodeKey, data⟩ : MapNode κ δ) as.length (by simp)
  have hset : (as ++ n :: bs).set as.length ⟨n.mapNodeKey, data⟩ = as ++ ⟨n.mapNodeKey, data⟩ :: bs := by simp
  have hord := OrderedList.ordered_iff.mp h.list.ordered
  rw [hset] at hl
  refine ⟨{ m with mapNodeList := ⟨L⟩ }, ?_, ⟨hl, OrderedList.ordered_iff.mpr hord⟩, ?_⟩
  · simp [storeData, OrderedList.get, hget, hL]
  · intro hv
    obtain ⟨n', hn', hk⟩ := h.saved hv
    by_cases hi : m.lastSearchIndex = as.length
    · obtain rfl : n = n' := by simpa [hi] using hn'
      exact ⟨⟨n.mapNodeKey, data⟩, by simp [hi], hk⟩
    · refine ⟨n', ?_, hk⟩
      rw [← hset, List.getElem?_set_ne (Ne.symm hi), hn']

theorem Holds.removeAtIndex_holds {as bs : List (MapNode κ δ)} {n : MapNode κ δ} (h : Holds m (as ++ n :: bs)) :
    ∃ m', m.removeAtIndex as.length = some m' ∧ Holds m' (as ++ bs) := by
  obtain ⟨O, hO, ho⟩ := OrderedList.removeAtIndex_holds h.list
  refine ⟨{ m with mapNodeList := O, lastSearchIndexValid := false }, ?_, ho, fun hv => by cases hv⟩
  simp [removeAtIndex, hO]

theorem clear_holds (h : Holds m l) : Holds m.clear [] :=
  ⟨⟨DSList.clear_holds h.list.list false, .nil⟩, nofun⟩

/-- Smaller keys, then larger ones: there is one place between them. -/
theorem split_unique {as bs as' bs' : List (MapNode κ δ)} {key : κ} (hl : as ++ bs = as' ++ bs')
    (has : ∀ n ∈ as, n.mapNodeKey < key) (hbs : ∀ n ∈ bs, key < n.mapNodeKey) (has' : ∀ n ∈ as', n.mapNodeKey < key)
    (hbs' : ∀ n ∈ bs', key < n.mapNodeKey) : as = as' ∧ bs = bs' := by
  rcases List.append_eq_append_iff.mp hl with ⟨c, rfl, rfl⟩ | ⟨c, rfl, rfl⟩
  · cases c with
    | nil => simp
    | cons n c => exact absurd (has' n (by simp)) (hbs n (by simp)).not_gt
  · cases c with
    | nil => simp
    | cons n c => exact absurd (has n (by simp)) (hbs' n (by simp)).not_gt

/-- A new key goes to its place, which is saved. -/
theorem Holds.setNew_holds (hc : OrderedList.Compares cmp id) {as bs : List (MapNode κ δ)} {key : κ} (h : Holds m (as ++ bs))
    (has : ∀ n ∈ as, n.mapNodeKey < key) (hbs : ∀ n ∈ bs, key < n.mapNodeKey) (data : δ) :
    ∃ m', m.setNew cmp key data = some m' ∧ Holds m' (as ++ ⟨key, data⟩ :: bs) := by
  rcases OrderedList.insert_spec (nodeComparison_compares hc) h.list ⟨key, data⟩ with
    ⟨as', n, bs', hl, hn, -⟩ | ⟨as', bs', O, hl, has', hbs', hO, ho⟩
  · rcases List.mem_append.mp (hl ▸ List.mem_append_right as' (List.mem_cons_self ..) : n ∈ as ++ bs) with hm | hm
    · exact absurd hn (has n hm).ne
    · exact absurd hn (hbs n hm).ne'
  · obtain ⟨rfl, rfl⟩ := split_unique hl has hbs has' hbs'
    refine ⟨_, ?_, save_holds (m := { m with mapNodeList := O }) ho⟩
    simp [setNew, hO]

/-! ## A finite map -/

/-- `l` lists what `d` maps. -/
def Tabulates (l : List (MapNode κ δ)) (d : Finmap fun _ : κ => δ) : Prop := ∀ k v, d.lookup k = some v ↔ ⟨k, v⟩ ∈ l

variable {d : Finmap fun _ : κ => δ}

theorem Tabulates.mem_iff (h : Tabulates l d) (k : κ) : k ∈ d ↔ ∃ n ∈ l, n.mapNodeKey = k := by
  rw [Finmap.mem_iff]
  constructor
  · rintro ⟨v, hv⟩
    exact ⟨_, (h k v).mp hv, rfl⟩
  · rintro ⟨n, hn, rfl⟩
    exact ⟨n.mapNodeData, (h _ _).mpr hn⟩

theorem Tabulates.absent {as bs : List (MapNode κ δ)} {k : κ} (h : Tabulates (as ++ bs) d)
    (has : ∀ n ∈ as, n.mapNodeKey < k) (hbs : ∀ n ∈ bs, k < n.mapNodeKey) : k ∉ d := by
  rw [h.mem_iff]
  rintro ⟨n, hn, rfl⟩
  rcases List.mem_append.mp hn with hn | hn
  · exact lt_irrefl _ (has n hn)
  · exact lt_irrefl _ (hbs n hn)

theorem Tabulates.insert {as bs : List (MapNode κ δ)} {n : MapNode κ δ}
    (ho : OrderedList.Ordered MapNode.mapNodeKey (as ++ n :: bs))
    (h : ∀ k v, k ≠ n.mapNodeKey → (d.lookup k = some v ↔ ⟨k, v⟩ ∈ as ++ bs)) :
    Tabulates (as ++ n :: bs) (d.insert n.mapNodeKey n.mapNodeData) := by
  obtain ⟨-, has, hbs⟩ := OrderedList.ordered_iff.mp ho
  intro k v
  by_cases hk : k = n.mapNodeKey
  · subst hk
    rw [Finmap.lookup_insert, Option.some_inj]
    constructor
    · rintro rfl
      exact List.mem_append_right as (List.mem_cons_self ..)
    · intro hm
      rcases List.mem_append.mp hm with hm | hm
      · exact absurd (has _ hm) (lt_irrefl _)
      · rcases List.mem_cons.mp hm with hm | hm
        · rw [← hm]
        · exact absurd (hbs _ hm) (lt_irrefl _)
  · rw [Finmap.lookup_insert_of_ne _ hk, h k v hk]
    have hne : (⟨k, v⟩ : MapNode κ δ) ≠ n := fun he => hk (by rw [← he])
    simp [hne]

theorem Tabulates.set {as bs : List (MapNode κ δ)} {n : MapNode κ δ}
    (ho : OrderedList.Ordered MapNode.mapNodeKey (as ++ n :: bs)) (h : Tabulates (as ++ n :: bs) d) (v : δ) :
    Tabulates (as ++ ⟨n.mapNodeKey, v⟩ :: bs) (d.insert n.mapNodeKey v) := by
  have hpart := OrderedList.ordered_iff.mp ho
  refine Tabulates.insert (n := ⟨n.mapNodeKey, v⟩) (OrderedList.ordered_iff.mpr hpart) ?_
  intro k w hk
  have hne : (⟨k, w⟩ : MapNode κ δ) ≠ n := fun he => hk (by rw [← he])
  rw [h k w]
  simp [hne]

theorem Tabulates.erase {as bs : List (MapNode κ δ)} {n : MapNode κ δ}
    (ho : OrderedList.Ordered MapNode.mapNodeKey (as ++ n :: bs)) (h : Tabulates (as ++ n :: bs) d) :
    Tabulates (as ++ bs) (d.erase n.mapNodeKey) := by
  obtain ⟨-, has, hbs⟩ := OrderedList.ordered_iff.mp ho
  intro k v
  by_cases hk : k = n.mapNodeKey
  · subst hk
    rw [Finmap.lookup_erase]
    refine ⟨nofun, fun hm => ?_⟩
    rcases List.mem_append.mp hm with hm | hm
    · exact absurd (has _ hm) (lt_irrefl _)
    · exact absurd (hbs _ hm) (lt_irrefl _)
  · have hne : (⟨k, v⟩ : MapNode κ δ) ≠ n := fun he => hk (by rw [← he])
    rw [Finmap.lookup_erase_ne hk, h k v]
    simp [hne]

theorem Tabulates.sort_keys (ho : OrderedList.Ordered MapNode.mapNodeKey l) (h : Tabulates l d) :
    d.keys.sort (· ≤ ·) = l.map MapNode.mapNodeKey := by
  have hlt : (l.map MapNode.mapNodeKey).Pairwise (· < ·) := List.pairwise_map.mpr ho
  have hkeys : d.keys = (l.map MapNode.mapNodeKey).toFinset := by
    ext k
    rw [Finmap.mem_keys, h.mem_iff, List.mem_toFinset, List.mem_map]
  rw [hkeys, List.toFinset_sort _ (hlt.imp fun hab => hab.ne)]
  exact hlt.imp fun hab => hab.le

theorem tabulates_empty : Tabulates ([] : List (MapNode κ δ)) ∅ := by
  intro k v
  rw [Finmap.lookup_empty]
  simp

/-! ## Runs -/

inductive Call (κ δ : Type) where
  | get (key : κ)
  | set (key : κ) (data : δ)
  | setExisting (key : κ) (data : δ)
  | setNew (key : κ) (data : δ)
  | has (key : κ)
  | delete (key : κ)
  | pop (key : κ)
  | atIndex (position : Nat)
  | getKeyAtIndex (position : Nat)
  | getIndexAtKey (key : κ)
  | removeAtIndex (index : Nat)
  | clear
  | size

inductive Answer (κ δ : Type) where
  | void
  | data (d : δ)
  | key (k : κ)
  | flag (b : Bool)
  | count (n : Nat)

/-- A call of the map; `none` when it leaves its array. -/
def call (cmp : κ → κ → Int) (m : Map κ δ) : Call κ δ → Option (Answer κ δ × Map κ δ)
  | .get key => (m.get cmp key).map fun r => (.data r.1, r.2)
  | .set key data => (m.set cmp key data).map fun m => (.void, m)
  | .setExisting key data => (m.setExisting cmp key data).map fun m => (.void, m)
  | .setNew key data => (m.setNew cmp key data).map fun m => (.void, m)
  | .has key => (m.has cmp key).map fun r => (.flag r.1, r.2)
  | .delete key => (m.delete cmp key).map fun r => (.flag r.1, r.2)
  | .pop key => (m.pop cmp key).map fun r => (.data r.1, r.2)
  | .atIndex position => (m.atIndex position).map fun data => (.data data, m)
  | .getKeyAtIndex position => (m.getKeyAtIndex position).map fun key => (.key key, m)
  | .getIndexAtKey key => (m.getIndexAtKey cmp key).map fun r => (.count r.1, r.2)
  | .removeAtIndex index => (m.removeAtIndex index).map fun m => (.void, m)
  | .clear => some (.void, m.clear)
  | .size => some (.count m.size, m)

/-- The same call of a finite map, with its keys in order; `none` for keys and positions that
    are not there, and for a new key that is. -/
def finmapCall (d : Finmap fun _ : κ => δ) : Call κ δ → Option (Answer κ δ × Finmap fun _ : κ => δ)
  | .get key => (d.lookup key).map fun v => (.data v, d)
  | .set key data => some (.void, d.insert key data)
  | .setExisting key data => if key ∈ d then some (.void, d.insert key data) else none
  | .setNew key data => if key ∈ d then none else some (.void, d.insert key data)
  | .has key => some (.flag (decide (key ∈ d)), d)
  | .delete key => some (.flag (decide (key ∈ d)), d.erase key)
  | .pop key => (d.lookup key).map fun v => (.data v, d.erase key)
  | .atIndex position => (d.keys.sort (· ≤ ·))[position]? >>= fun k => (d.lookup k).map fun v => (.data v, d)
  | .getKeyAtIndex position => (d.keys.sort (· ≤ ·))[position]?.map fun k => (.key k, d)
  | .getIndexAtKey key => if key ∈ d then some (.count ((d.keys.sort (· ≤ ·)).idxOf key), d) else none
  | .removeAtIndex index => (d.keys.sort (· ≤ ·))[index]?.map fun k => (.void, d.erase k)
  | .clear => some (.void, ∅)
  | .size => some (.count d.keys.card, d)

/-- The map stands for `d`. -/
def Represents (m : Map κ δ) (d : Finmap fun _ : κ => δ) : Prop := ∃ l, Holds m l ∧ Tabulates l d

theorem Represents.locate (hc : OrderedList.Compares cmp id) (h : Represents m d) (key : κ) :
    (∃ as n bs, Holds m (as ++ n :: bs) ∧ Tabulates (as ++ n :: bs) d ∧ n.mapNodeKey = key ∧
        d.lookup key = some n.mapNodeData ∧ (m.hasSavedSearchResult cmp key = true → m.lastSearchIndex = as.length) ∧
        m.getIndexFromKey cmp key = some (as.length, true)) ∨
      ∃ as bs, Holds m (as ++ bs) ∧ Tabulates (as ++ bs) d ∧ (∀ n ∈ as, n.mapNodeKey < key) ∧
        (∀ n ∈ bs, key < n.mapNodeKey) ∧ key ∉ d ∧ m.hasSavedSearchResult cmp key = false ∧
        m.getIndexFromKey cmp key = some (as.length, false) := by
  obtain ⟨l, hl, ht⟩ := h
  rcases hl.locate hc key with ⟨as, n, bs, rfl, rfl, hs, hf⟩ | ⟨as, bs, rfl, has, hbs, hs, hf⟩
  · exact .inl ⟨as, n, bs, hl, ht, rfl, (ht _ _).mpr (List.mem_append_right as (List.mem_cons_self ..)), hs, hf⟩
  · exact .inr ⟨as, bs, hl, ht, has, hbs, ht.absent has hbs, hs, hf⟩

theorem get_represents (hc : OrderedList.Compares cmp id) (h : Represents m d) {key : κ} {v : δ}
    (hv : d.lookup key = some v) : ∃ m', m.get cmp key = some (v, m') ∧ Represents m' d := by
  rcases h.locate hc key with ⟨as, n, bs, hl, ht, rfl, hlook, hs, hf⟩ | ⟨as, bs, -, -, -, -, hn, -, -⟩
  · obtain rfl : n.mapNodeData = v := Option.some.inj (hlook.symm.trans hv)
    unfold get
    split
    · rename_i hsave
      exact ⟨m, by rw [hs hsave, hl.dataAt_eq]; rfl, _, hl, ht⟩
    · exact ⟨_, by simp [hf, hl.dataAt_eq], _, save_holds hl.list, ht⟩
  · exact absurd (Finmap.mem_of_lookup_eq_some hv) hn

theorem getIndexAtKey_represents (hc : OrderedList.Compares cmp id) (h : Represents m d) {key : κ} (hk : key ∈ d) :
    ∃ m', m.getIndexAtKey cmp key = some ((d.keys.sort (· ≤ ·)).idxOf key, m') ∧ Represents m' d := by
  rcases h.locate hc key with ⟨as, n, bs, hl, ht, rfl, -, hs, hf⟩ | ⟨as, bs, -, -, -, -, hn, -, -⟩
  · have hidx : (d.keys.sort (· ≤ ·)).idxOf n.mapNodeKey = as.length := by
      have hnot : n.mapNodeKey ∉ as.map MapNode.mapNodeKey := by
        rw [List.mem_map]
        rintro ⟨a, ha, he⟩
        exact absurd he ((OrderedList.ordered_iff.mp hl.list.ordered).2.1 a ha).ne
      rw [ht.sort_keys hl.list.ordered, List.map_append, List.idxOf_append_of_notMem hnot]
      simp
    rw [hidx]
    unfold getIndexAtKey
    split
    · rename_i hsave
      exact ⟨m, by rw [hs hsave], _, hl, ht⟩
    · exact ⟨_, by simp [hf], _, save_holds hl.list, ht⟩
  · exact absurd hk hn

theorem set_represents (hc : OrderedList.Compares cmp id) (h : Represents m d) (key : κ) (v : δ) :
    ∃ m', m.set cmp key v = some m' ∧ Represents m' (d.insert key v) := by
  unfold set
  rcases h.locate hc key with ⟨as, n, bs, hl, ht, rfl, -, hs, hf⟩ | ⟨as, bs, hl, ht, has, hbs, hn, hs, hf⟩
  · split
    · rename_i hsave
      obtain ⟨m', hm, h'⟩ := hl.storeData_holds v
      exact ⟨m', by rw [hs hsave, hm], _, h', ht.set hl.list.ordered v⟩
    · obtain ⟨m', hm, h'⟩ := (save_holds hl.list).storeData_holds v
      exact ⟨m', by simp [hf, hm], _, h', ht.set hl.list.ordered v⟩
  · obtain ⟨m', hm, h'⟩ := hl.setNew_holds hc has hbs v
    exact ⟨m', by simp [hs, hf, hm], _, h', Tabulates.insert (n := ⟨key, v⟩) h'.list.ordered fun k w _ => ht k w⟩

theorem setExisting_represents (hc : OrderedList.Compares cmp id) (h : Represents m d) {key : κ} (hk : key ∈ d) (v : δ) :
    ∃ m', m.setExisting cmp key v = some m' ∧ Represents m' (d.insert key v) := by
  obtain ⟨m', hm, h'⟩ := set_represents hc h key v
  refine ⟨m', ?_, h'⟩
  rw [← hm]
  unfold setExisting set
  rcases h.locate hc key with ⟨as, n, bs, -, -, -, -, -, hf⟩ | ⟨as, bs, -, -, -, -, hn, -, -⟩
  · simp [hf]
  · exact absurd hk hn

theorem setNew_represents (hc : OrderedList.Compares cmp id) (h : Represents m d) {key : κ} (hk : key ∉ d) (v : δ) :
    ∃ m', m.setNew cmp key v = some m' ∧ Represents m' (d.insert key v) := by
  rcases h.locate hc key with ⟨as, n, bs, -, -, -, hlook, -, -⟩ | ⟨as, bs, hl, ht, has, hbs, -, -, -⟩
  · exact absurd (Finmap.mem_of_lookup_eq_some hlook) hk
  · obtain ⟨m', hm, h'⟩ := hl.setNew_holds hc has hbs v
    exact ⟨m', hm, _, h', Tabulates.insert (n := ⟨key, v⟩) h'.list.ordered fun k w _ => ht k w⟩

theorem has_represents (hc : OrderedList.Compares cmp id) (h : Represents m d) (key : κ) :
    ∃ m', m.has cmp key = some (decide (key ∈ d), m') ∧ Represents m' d := by
  unfold has
  rcases h.locate hc key with ⟨as, n, bs, hl, ht, rfl, hlook, hs, hf⟩ | ⟨as, bs, hl, ht, -, -, hn, hs, hf⟩
  · rw [decide_eq_true (Finmap.mem_of_lookup_eq_some hlook)]
    split
    · exact ⟨m, rfl, _, hl, ht⟩
    · exact ⟨_, by simp [hf], _, save_holds hl.list, ht⟩
  · rw [decide_eq_false hn]
    exact ⟨m, by simp [hs, hf], _, hl, ht⟩

theorem erase_absent {key : κ} (hk : key ∉ d) : d.erase key = d := by
  refine Finmap.ext_lookup fun k => ?_
  by_cases he : k = key
  · rw [he, Finmap.lookup_erase, Finmap.lookup_eq_none.mpr hk]
  · rw [Finmap.lookup_erase_ne he]

theorem delete_represents (hc : OrderedList.Compares cmp id) (h : Represents m d) (key : κ) :
    ∃ m', m.delete cmp key = some (decide (key ∈ d), m') ∧ Represents m' (d.erase key) := by
  unfold delete
  rcases h.locate hc key with ⟨as, n, bs, hl, ht, rfl, hlook, hs, hf⟩ | ⟨as, bs, hl, ht, -, -, hn, hs, hf⟩
  · obtain ⟨m', hm, h'⟩ := hl.removeAtIndex_holds
    rw [decide_eq_true (Finmap.mem_of_lookup_eq_some hlook)]
    refine ⟨m', ?_, _, h', ht.erase hl.list.ordered⟩
    split
    · rename_i hsave
      rw [hs hsave, hm]
      rfl
    · simp [hf, hm]
  · rw [decide_eq_false hn, erase_absent hn]
    exact ⟨m, by simp [hs, hf], _, hl, ht⟩

theorem pop_represents (hc : OrderedList.Compares cmp id) (h : Represents m d) {key : κ} {v : δ}
    (hv : d.lookup key = some v) : ∃ m', m.pop cmp key = some (v, m') ∧ Represents m' (d.erase key) := by
  rcases h.locate hc key with ⟨as, n, bs, hl, ht, rfl, hlook, hs, hf⟩ | ⟨as, bs, -, -, -, -, hn, -, -⟩
  · obtain rfl : n.mapNodeData = v := Option.some.inj (hlook.symm.trans hv)
    obtain ⟨m', hm, h'⟩ := hl.removeAtIndex_holds
    have hidx : m.popIndex cmp n.mapNodeKey = some as.length := by
      unfold popIndex
      split
      · rename_i hsave
        rw [hs hsave]
      · rw [hf]
        rfl
    exact ⟨m', by simp [pop, hidx, hl.dataAt_eq, hm], _, h', ht.erase hl.list.ordered⟩
  · exact absurd (Finmap.mem_of_lookup_eq_some hv) hn

theorem Represents.position (h : Represents m d) {position : Nat} {k : κ} (hk : (d.keys.sort (· ≤ ·))[position]? = some k) :
    ∃ as n bs, Holds m (as ++ n :: bs) ∧ Tabulates (as ++ n :: bs) d ∧ n.mapNodeKey = k ∧ as.length = position ∧
      d.lookup k = some n.mapNodeData := by
  obtain ⟨l, hl, ht⟩ := h
  rw [ht.sort_keys hl.list.ordered, List.getElem?_map] at hk
  obtain ⟨n, hn, rfl⟩ := Option.map_eq_some_iff.mp hk
  obtain ⟨hlt, hget⟩ := List.getElem?_eq_some_iff.mp hn
  obtain ⟨as, bs, rfl, rfl⟩ : ∃ as bs, l = as ++ n :: bs ∧ as.length = position :=
    ⟨l.take position, l.drop (position + 1), by rw [← hget]; simp, List.length_take_of_le (by omega)⟩
  exact ⟨as, n, bs, hl, ht, rfl, rfl, (ht _ _).mpr (List.mem_append_right as (List.mem_cons_self ..))⟩

theorem Represents.size_eq (h : Represents m d) : m.size = d.keys.card := by
  obtain ⟨l, hl, ht⟩ := h
  rw [← Finset.length_sort (· ≤ ·), ht.sort_keys hl.list.ordered, List.length_map]
  exact hl.list.list.size_eq

theorem call_refines (hc : OrderedList.Compares cmp id) {c : Call κ δ} {a : Answer κ δ} {d' : Finmap fun _ : κ => δ}
    (h : Represents m d) (hd : finmapCall d c = some (a, d')) : ∃ m', m.call cmp c = some (a, m') ∧ Represents m' d' := by
  cases c with
  | get key =>
    obtain ⟨v, hv, he⟩ := Option.map_eq_some_iff.mp hd
    cases he
    obtain ⟨m', hm, h'⟩ := get_represents hc h hv
    exact ⟨m', by rw [call, hm]; rfl, h'⟩
  | set key v =>
    cases hd
    obtain ⟨m', hm, h'⟩ := set_represents hc h key v
    exact ⟨m', by rw [call, hm]; rfl, h'⟩
  | setExisting key v =>
    obtain ⟨hk, he⟩ := Option.ite_none_right_eq_some.mp hd
    cases he
    obtain ⟨m', hm, h'⟩ := setExisting_represents hc h hk v
    exact ⟨m', by rw [call, hm]; rfl, h'⟩
  | setNew key v =>
    obtain ⟨hk, he⟩ := Option.ite_none_left_eq_some.mp hd
    cases he
    obtain ⟨m', hm, h'⟩ := setNew_represents hc h hk v
    exact ⟨m', by rw [call, hm]; rfl, h'⟩
  | has key =>
    cases hd
    obtain ⟨m', hm, h'⟩ := has_represents hc h key
    exact ⟨m', by rw [call, hm]; rfl, h'⟩
  | delete key =>
    cases hd
    obtain ⟨m', hm, h'⟩ := delete_represents hc h key
    exact ⟨m', by rw [call, hm]; rfl, h'⟩
  | pop key =>
    obtain ⟨v, hv, he⟩ := Option.map_eq_some_iff.mp hd
    cases he
    obtain ⟨m', hm, h'⟩ := pop_represents hc h hv
    exact ⟨m', by rw [call, hm]; rfl, h'⟩
  | atIndex position =>
    obtain ⟨k, hk, hv⟩ := Option.bind_eq_some_iff.mp hd
    obtain ⟨as, n, bs, hl, ht, rfl, rfl, hlook⟩ := h.position hk
    rw [hlook] at hv
    cases hv
    exact ⟨m, by rw [call, atIndex, hl.dataAt_eq]; rfl, _, hl, ht⟩
  | getKeyAtIndex position =>
    obtain ⟨k, hk, he⟩ := Option.map_eq_some_iff.mp hd
    cases he
    obtain ⟨as, n, bs, hl, ht, rfl, rfl, -⟩ := h.position hk
    have hget := hl.list.list.get_eq as.length (by simp)
    exact ⟨m, by simp [call, getKeyAtIndex, OrderedList.get, hget], _, hl, ht⟩
  | getIndexAtKey key =>
    obtain ⟨hk, he⟩ := Option.ite_none_right_eq_some.mp hd
    cases he
    obtain ⟨m', hm, h'⟩ := getIndexAtKey_represents hc h hk
    exact ⟨m', by rw [call, hm]; rfl, h'⟩
  | removeAtIndex index =>
    obtain ⟨k, hk, he⟩ := Option.map_eq_some_iff.mp hd
    cases he
    obtain ⟨as, n, bs, hl, ht, rfl, rfl, -⟩ := h.position hk
    obtain ⟨m', hm, h'⟩ := hl.removeAtIndex_holds
    exact ⟨m', by rw [call, hm]; rfl, _, h', ht.erase hl.list.ordered⟩
  | clear =>
    cases hd
    obtain ⟨l, hl, -⟩ := h
    exact ⟨_, rfl, _, clear_holds hl, tabulates_empty⟩
  | size =>
    cases hd
    exact ⟨m, by rw [call, h.size_eq], h⟩

/-- Whatever calls a finite map can answer, a new map answers the same and stays inside its
    array. -/
theorem map_refines_finmap (hc : OrderedList.Compares cmp id) (cs : List (Call κ δ)) {as : List (Answer κ δ)}
    {d : Finmap fun _ : κ => δ} (h : Lib.Calls.run finmapCall ∅ cs = some (as, d)) :
    ∃ m, Lib.Calls.run (call cmp) empty cs = some (as, m) ∧ Represents m d :=
  Lib.Calls.run_refines (call_refines hc) ⟨[], empty_holds, tabulates_empty⟩ h

theorem map_refines_finmap_twice : ∃ m, Lib.Calls.run (call defaultMapKeyComparison) (empty : Map Nat Nat)
    [.set 5 1, .set 5 2, .has 4, .size] = some ([.void, .void, .flag false, .count 1], m) ∧
      Represents m ((∅ : Finmap fun _ : Nat => Nat).insert 5 1 |>.insert 5 2) :=
  map_refines_finmap defaultMapKeyComparison_compares [.set 5 1, .set 5 2, .has 4, .size] rfl

/-- The least key of `d` above `key`, and what stands there. -/
def Successor (d : Finmap fun _ : κ => δ) (key k : κ) (v : δ) : Prop :=
  d.lookup k = some v ∧ key < k ∧ ∀ k' ∈ d, key < k' → k ≤ k'

/-- A `Get` for a key that is not there, with larger ones behind it: it answers with the value
    of the next one, and the map says from then on that the key is there. -/
theorem Represents.get_absent (hc : OrderedList.Compares cmp id) (h : Represents m d) {key : κ} (hk : key ∉ d)
    (hlarger : ∃ k ∈ d, key < k) :
    ∃ k v m', Successor d key k v ∧ m.get cmp key = some (v, m') ∧ m'.has cmp key = some (true, m') := by
  rcases h.locate hc key with ⟨as, n, bs, -, -, -, hlook, -, -⟩ | ⟨as, bs, hl, ht, has, hbs, -, hs, hf⟩
  · exact absurd (Finmap.mem_of_lookup_eq_some hlook) hk
  · obtain ⟨k, hkd, hlt⟩ := hlarger
    obtain ⟨n, hn, rfl⟩ := (ht.mem_iff k).mp hkd
    cases bs with
    | nil =>
      rw [List.append_nil] at hn
      exact absurd (has n hn) hlt.not_gt
    | cons b bs =>
      have hz : cmp key key = 0 := (hc.zero key key).mpr rfl
      refine ⟨b.mapNodeKey, b.mapNodeData, m.saveLastSearch key as.length, ⟨?_, hbs b (List.mem_cons_self ..), ?_⟩, ?_, ?_⟩
      · exact (ht _ _).mpr (List.mem_append_right as (List.mem_cons_self ..))
      · intro k' hk' hlt'
        obtain ⟨n', hn', rfl⟩ := (ht.mem_iff k').mp hk'
        rcases List.mem_append.mp hn' with hn' | hn'
        · exact absurd (has n' hn') hlt'.not_gt
        · rcases List.mem_cons.mp hn' with rfl | hn'
          · exact le_rfl
          · exact ((OrderedList.ordered_iff.mp hl.list.ordered).2.2 n' hn').le
      · simp [get, hs, hf, hl.dataAt_eq]
      · simp [Map.has, hasSavedSearchResult, saveLastSearch, hz]

theorem get_absent_key (hc : OrderedList.Compares cmp id) (cs : List (Call κ δ)) {as as' : List (Answer κ δ)}
    {d : Finmap fun _ : κ => δ} (h : Lib.Calls.run finmapCall ∅ cs = some (as, d))
    (hm : Lib.Calls.run (call cmp) empty cs = some (as', m)) {key : κ} (hk : key ∉ d) (hlarger : ∃ k ∈ d, key < k) :
    ∃ k v m', Successor d key k v ∧ m.get cmp key = some (v, m') ∧ m'.has cmp key = some (true, m') := by
  obtain ⟨m₁, hm₁, hr⟩ := Lib.Calls.run_refines (call_refines hc) ⟨[], empty_holds, tabulates_empty⟩ h
  obtain rfl : m₁ = m := by
    rw [hm₁] at hm
    cases hm
    rfl
  exact hr.get_absent hc hk hlarger

theorem get_absent_key_below : ∃ m k v m', Lib.Calls.run (call defaultMapKeyComparison) (empty : Map Nat Nat) [.set 5 1] =
    some ([.void], m) ∧ Successor (Finmap.insert 5 1 ∅) 4 k v ∧ m.get defaultMapKeyComparison 4 = some (v, m') ∧
      m'.has defaultMapKeyComparison 4 = some (true, m') := by
  obtain ⟨m, hm, -⟩ := Lib.Calls.run_refines (call_refines defaultMapKeyComparison_compares)
    ⟨[], empty_holds, tabulates_empty⟩ (show Lib.Calls.run finmapCall ∅ [Call.set 5 1] = some ([.void], _) from rfl)
  obtain ⟨k, v, m', hs, hget, hhas⟩ := get_absent_key defaultMapKeyComparison_compares [.set 5 1] rfl hm
    (show 4 ∉ Finmap.insert 5 1 ∅ by simp [Finmap.notMem_empty]) ⟨5, by simp, by decide⟩
  exact ⟨m, k, v, m', hm, hs, hget, hhas⟩

end Map

end RakHook
