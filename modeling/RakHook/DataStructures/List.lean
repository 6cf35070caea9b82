/-
  RakHook.DataStructures.List — `DataStructures::List` (include/RakNet/DS_List.h).

  `Holds L l` says that the first elements of the array are `l` and that the sizes are
  right. On any sequence of calls within its bounds a new list answers like `l`
  (`list_refines_items`), and so does a copy of it, with one exception: the copy of an empty list
  is left without an array, and the first insertion into it frees a pointer that nobody has
  set (`copied_insert_iff`).
-/

import Mathlib.Data.List.Basic
import RakHook.Lib.Calls

namespace RakHook

/-- An element of the array is `none` until it is written. -/
structure DSList (α : Type) where
  /-- `none` where no constructor has set it; a null pointer has no elements. -/
  listArray : Option (List (Option α))
  listSize : Nat
  allocationSize : Nat
  deriving Repr

namespace DSList

variable {α : Type}

def newArray (n : Nat) : List (Option α) := List.replicate n none

/-- `none` when it leaves one of the arrays. -/
def memcpy (dst src : List (Option α)) (count : Nat) : Option (List (Option α)) :=
  if count ≤ dst.length ∧ count ≤ src.length then some (src.take count ++ dst.drop count) else none

/-- Inside one array; `none` when it leaves it. -/
def memmove (array : List (Option α)) (dst src count : Nat) : Option (List (Option α)) :=
  if dst + count ≤ array.length ∧ src + count ≤ array.length then
    some (array.take dst ++ (array.drop src).take count ++ array.drop (dst + count))
  else none

def empty : DSList α := { listArray := some [], listSize := 0, allocationSize := 0 }

/-- `List(const List&)`. A copy of an empty list does not set `listArray`. -/
def copy (original : DSList α) : Option (DSList α) :=
  if original.listSize = 0 then some { listArray := none, listSize := 0, allocationSize := 0 }
  else do
    let src ← original.listArray
    let array ← memcpy (newArray original.listSize) src original.listSize
    return { listArray := some array, listSize := original.listSize, allocationSize := original.listSize }

def get (L : DSList α) (position : Nat) : Option α := L.listArray.bind fun array => array.getD position none

def size (L : DSList α) : Nat := L.listSize

/-- A new array of `n` elements for the old one, which is freed. -/
def realloc (L : DSList α) (n : Nat) : Option (DSList α) := do
  let src ← L.listArray
  let array ← memcpy (newArray n) src L.listSize
  return { L with listArray := some array, allocationSize := n }

def grow (L : DSList α) : Option (DSList α) :=
  if L.listSize = L.allocationSize then L.realloc (if L.allocationSize = 0 then 16 else L.allocationSize * 2) else some L

def store (L : DSList α) (position : Nat) (input : α) : Option (DSList α) := do
  let array ← L.listArray
  if position < array.length then return { L with listArray := some (array.set position (some input)) } else none

def append (L : DSList α) (input : α) : Option (DSList α) := do
  let L ← L.store L.listSize input
  return { L with listSize := L.listSize + 1 }

def insert (L : DSList α) (input : α) : Option (DSList α) := L.grow >>= (·.append input)

/-- `Insert(input, position)`. Behind the end the length of the move wraps. -/
def insertAt (L : DSList α) (input : α) (position : Nat) : Option (DSList α) := do
  let L ← L.grow
  let array ← L.listArray
  if L.listSize < position then none
  else
    let array ← memmove array (position + 1) position (L.listSize - position)
    let L ← { L with listArray := some array }.store position input
    return { L with listSize := L.listSize + 1 }

/-- The loop that fills the holes. -/
def fill (filler : α) : Nat → DSList α → Option (DSList α)
  | 0, L => some L
  | n + 1, L => L.append filler >>= fill filler n

/-- `Replace(input, filler, position)`. The size of the new array is an `unsigned int`. -/
def replace (L : DSList α) (input filler : α) (position : Nat) : Option (DSList α) :=
  if 0 < L.listSize ∧ position < L.listSize then L.store position input
  else
    (if L.allocationSize ≤ position then L.realloc ((position + 1) % 4294967296) else some L) >>= fun L =>
      fill filler (position - L.listSize) L >>= (·.append input)

def replaceLast (L : DSList α) (input : α) : Option (DSList α) :=
  if 0 < L.listSize then L.store (L.listSize - 1) input else some L

/-- Above the size the subtraction wraps. -/
def del (L : DSList α) (num : Nat) : Option (DSList α) :=
  if num ≤ L.listSize then some { L with listSize := L.listSize - num } else none

def removeAtIndex (L : DSList α) (position : Nat) : Option (DSList α) :=
  if position < L.listSize then do
    let array ← L.listArray
    let array ← memmove array position (position + 1) (L.listSize - 1 - position)
    { L with listArray := some array }.del 1
  else some L

/-- `MAX_UNSIGNED_LONG` when it is not there. -/
def getIndexOf [DecidableEq α] (L : DSList α) (input : α) : Nat :=
  ((List.range L.listSize).find? fun i => L.get i = some input).getD 4294967295

def clear (L : DSList α) (doNotDeallocate : Bool) : DSList α :=
  if L.allocationSize = 0 then L
  else if 512 < L.allocationSize ∧ doNotDeallocate = false then { listArray := some [], listSize := 0, allocationSize := 0 }
  else { L with listSize := 0 }

/-- The new array is as large as the old one. -/
def compress (L : DSList α) : Option (DSList α) := if L.allocationSize = 0 then some L else L.realloc L.allocationSize

/-! ## The elements -/

/-- The list's elements are `l`, with room for those of `free`. -/
def Holds (L : DSList α) (l : List α) : Prop :=
  ∃ free : List (Option α),
    L = { listArray := some (l.map some ++ free), listSize := l.length, allocationSize := l.length + free.length }

variable {L : DSList α} {l : List α}

theorem empty_holds : Holds (empty : DSList α) [] := ⟨[], rfl⟩

theorem Holds.size_eq (h : Holds L l) : L.size = l.length := by
  obtain ⟨free, rfl⟩ := h
  rfl

theorem Holds.length_le (h : Holds L l) : l.length ≤ L.allocationSize := by
  obtain ⟨free, rfl⟩ := h
  exact Nat.le_add_right ..

theorem Holds.get_eq (h : Holds L l) (position : Nat) (hp : position < l.length) : L.get position = l[position]? := by
  obtain ⟨free, rfl⟩ := h
  rw [get, Option.bind_some, List.getD_eq_getElem?_getD, List.getElem?_append_left (by rwa [List.length_map]),
    List.getElem?_map, List.getElem?_eq_getElem hp]
  rfl

theorem newArray_length (n : Nat) : (newArray n : List (Option α)).length = n := List.length_replicate

theorem memcpy_items (dst free : List (Option α)) (hl : l.length ≤ dst.length) :
    memcpy dst (l.map some ++ free) l.length = some (l.map some ++ dst.drop l.length) := by
  rw [memcpy, if_pos ⟨hl, by simp⟩, List.take_left' (List.length_map ..)]

theorem realloc_holds (h : Holds L l) {n : Nat} (hn : l.length ≤ n) :
    ∃ L', L.realloc n = some L' ∧ Holds L' l ∧ L'.allocationSize = n := by
  obtain ⟨free, rfl⟩ := h
  have hc := memcpy_items (l := l) (newArray n) free (by rwa [newArray_length])
  simp only [realloc, Option.bind_eq_bind, Option.bind_some, hc]
  refine ⟨_, rfl, ⟨(newArray n).drop l.length, ?_⟩, rfl⟩
  rw [List.length_drop, newArray_length, Nat.add_sub_cancel' hn]

theorem grow_holds (h : Holds L l) : ∃ L', L.grow = some L' ∧ Holds L' l ∧ l.length < L'.allocationSize := by
  have hsize : L.listSize = l.length := h.size_eq
  have hle := h.length_le
  unfold grow
  split
  · rename_i hfull
    obtain ⟨L', hL, hh, hn⟩ := realloc_holds h (n := if L.allocationSize = 0 then 16 else L.allocationSize * 2) (by split <;> omega)
    refine ⟨L', hL, hh, ?_⟩
    rw [hn]
    split <;> omega
  · exact ⟨L, rfl, h, by omega⟩

theorem append_holds (h : Holds L l) (hroom : l.length < L.allocationSize) (x : α) :
    ∃ L', L.append x = some L' ∧ Holds L' (l ++ [x]) ∧ L'.allocationSize = L.allocationSize := by
  obtain ⟨free, rfl⟩ := h
  cases free with
  | nil => simp at hroom
  | cons c free =>
    refine ⟨_, ?_, ⟨free, rfl⟩, by simp; omega⟩
    simp only [append, store, Option.bind_eq_bind, Option.bind_some]
    rw [if_pos (by simp)]
    simp [List.set_append_right, Nat.add_comm, Nat.add_left_comm]

theorem insert_holds (h : Holds L l) (x : α) : ∃ L', L.insert x = some L' ∧ Holds L' (l ++ [x]) := by
  obtain ⟨L₁, hg, h₁, hroom⟩ := grow_holds h
  obtain ⟨L', ha, h', -⟩ := append_holds h₁ hroom x
  exact ⟨L', by rw [insert, hg]; exact ha, h'⟩

/-- One place up, over the cell behind them. -/
theorem memmove_up (as mid : List (Option α)) (c : Option α) (free : List (Option α)) :
    ∃ d, memmove (as ++ mid ++ c :: free) (as.length + 1) as.length mid.length = some (as ++ d :: mid ++ free) := by
  obtain ⟨d, rest, hd⟩ : ∃ d rest, mid ++ c :: free = d :: rest := by
    cases mid with
    | nil => exact ⟨c, free, rfl⟩
    | cons m mid => exact ⟨m, mid ++ c :: free, rfl⟩
  refine ⟨d, ?_⟩
  have hsrc : ((as ++ mid ++ c :: free).drop as.length).take mid.length = mid := by
    rw [List.append_assoc, List.drop_left, List.take_left]
  have hdst : (as ++ mid ++ c :: free).take (as.length + 1) = as ++ [d] := by
    rw [List.append_assoc, hd, List.take_length_add_append]
    rfl
  have hend : (as ++ mid ++ c :: free).drop (as.length + 1 + mid.length) = free := by
    rw [show as.length + 1 + mid.length = (as ++ mid).length + 1 by simp; omega, List.drop_length_add_append]
    rfl
  rw [memmove, if_pos (by simp; omega), hsrc, hdst, hend]
  simp

/-- One place down, over the cell in front of them; the last one stays behind. -/
theorem memmove_down (as : List (Option α)) (x : Option α) (mid free : List (Option α)) :
    ∃ d, memmove (as ++ x :: mid ++ free) as.length (as.length + 1) mid.length = some (as ++ mid ++ d :: free) := by
  obtain ⟨d, hd⟩ : ∃ d, (x :: mid).drop mid.length = [d] := by
    refine List.length_eq_one_iff.mp ?_
    rw [List.length_drop, List.length_cons]
    omega
  refine ⟨d, ?_⟩
  have hsrc : ((as ++ x :: mid ++ free).drop (as.length + 1)).take mid.length = mid := by
    rw [List.append_assoc, List.drop_length_add_append, List.cons_append, List.drop_one, List.tail_cons, List.take_left]
  have hdst : (as ++ x :: mid ++ free).take as.length = as := by
    rw [List.append_assoc, List.take_left]
  have hend : (as ++ x :: mid ++ free).drop (as.length + mid.length) = d :: free := by
    rw [List.append_assoc, List.drop_length_add_append, List.drop_append_of_le_length (by simp), hd]
    rfl
  rw [memmove, if_pos (by simp; omega), hsrc, hdst, hend]

theorem insertAt_holds {as bs : List α} (h : Holds L (as ++ bs)) (x : α) :
    ∃ L', L.insertAt x as.length = some L' ∧ Holds L' (as ++ x :: bs) := by
  obtain ⟨L₁, hg, h₁, hroom⟩ := grow_holds h
  obtain ⟨free, rfl⟩ := h₁
  cases free with
  | nil => simp at hroom
  | cons c free =>
    obtain ⟨d, hmove⟩ := memmove_up (as.map some) (bs.map some) c free
    rw [← List.map_append, List.length_map, List.length_map] at hmove
    have hlen : (as ++ bs).length - as.length = bs.length := by simp
    refine ⟨_, ?_, ⟨free, rfl⟩⟩
    simp only [insertAt, hg, Option.bind_eq_bind, Option.bind_some, if_neg (show ¬(as ++ bs).length < as.length by simp),
      hlen, hmove, store]
    rw [if_pos (by simp)]
    simp [List.set_append_right]
    omega

theorem removeAtIndex_holds {as bs : List α} {x : α} (h : Holds L (as ++ x :: bs)) :
    ∃ L', L.removeAtIndex as.length = some L' ∧ Holds L' (as ++ bs) := by
  obtain ⟨free, rfl⟩ := h
  obtain ⟨d, hmove⟩ := memmove_down (as.map some) (some x) (bs.map some) free
  have harray : (as ++ x :: bs).map some ++ free = as.map some ++ some x :: bs.map some ++ free := by simp
  have hlen : (as ++ x :: bs).length - 1 - as.length = bs.length := by simp
  rw [List.length_map, List.length_map, ← harray] at hmove
  refine ⟨_, ?_, ⟨d :: free, rfl⟩⟩
  rw [removeAtIndex, if_pos (by simp)]
  simp only [Option.bind_eq_bind, Option.bind_some, hlen, hmove, del]
  rw [if_pos (by simp; omega)]
  simp
  omega

theorem removeAtIndex_behind (h : Holds L l) {position : Nat} (hp : l.length ≤ position) : L.removeAtIndex position = some L := by
  have hsize : L.listSize = l.length := h.size_eq
  rw [removeAtIndex, if_neg (by omega)]

theorem store_holds (h : Holds L l) (x : α) (position : Nat) (hp : position < l.length) :
    ∃ L', L.store position x = some L' ∧ Holds L' (l.set position x) := by
  obtain ⟨free, rfl⟩ := h
  refine ⟨_, ?_, ⟨free, rfl⟩⟩
  simp only [store, Option.bind_eq_bind, Option.bind_some]
  rw [if_pos (by simp; omega)]
  simp [List.set_append_left, hp, List.map_set]

theorem fill_holds (filler : α) : ∀ (n : Nat) {L : DSList α} {l : List α}, Holds L l → l.length + n ≤ L.allocationSize →
    ∃ L', fill filler n L = some L' ∧ Holds L' (l ++ List.replicate n filler) ∧ L'.allocationSize = L.allocationSize := by
  intro n
  induction n with
  | zero =>
    intro L l h _
    exact ⟨L, rfl, by simpa using h, rfl⟩
  | succ n ih =>
    intro L l h hroom
    obtain ⟨L₁, ha, h₁, hn₁⟩ := append_holds h (by omega) filler
    obtain ⟨L', hf, h', hn'⟩ := ih h₁ (by simp; omega)
    refine ⟨L', by rw [fill, ha]; exact hf, ?_, hn'.trans hn₁⟩
    rwa [List.append_assoc, List.singleton_append, ← List.replicate_succ] at h'

theorem replace_holds (h : Holds L l) (x filler : α) {position : Nat} (hmax : position < 4294967295) :
    ∃ L', L.replace x filler position = some L' ∧ Holds L' (if position < l.length then l.set position x
      else l ++ List.replicate (position - l.length) filler ++ [x]) := by
  have hsize : L.listSize = l.length := h.size_eq
  unfold replace
  by_cases hp : position < l.length
  · rw [if_pos (by omega), if_pos hp]
    exact store_holds h x _ hp
  · rw [if_neg (by omega), if_neg hp]
    obtain ⟨L₁, hL₁, h₁, hroom⟩ : ∃ L₁, (if L.allocationSize ≤ position then L.realloc ((position + 1) % 4294967296) else some L) =
        some L₁ ∧ Holds L₁ l ∧ position < L₁.allocationSize := by
      rw [Nat.mod_eq_of_lt (by omega)]
      split
      · obtain ⟨L₁, hL, h₁, hn⟩ := realloc_holds h (n := position + 1) (by omega)
        exact ⟨L₁, hL, h₁, by omega⟩
      · exact ⟨L, rfl, h, by omega⟩
    obtain ⟨L₂, hf, h₂, hn₂⟩ := fill_holds filler (position - l.length) h₁ (by omega)
    obtain ⟨L', ha, h', -⟩ := append_holds h₂ (by simp; omega) x
    have hsize₁ : L₁.listSize = l.length := h₁.size_eq
    refine ⟨L', ?_, h'⟩
    rw [hL₁]
    simp only [Option.bind_eq_bind, Option.bind_some, hsize₁, hf, ha]

theorem replaceLast_holds (h : Holds L l) (x : α) :
    ∃ L', L.replaceLast x = some L' ∧ Holds L' (l.set (l.length - 1) x) := by
  have hsize : L.listSize = l.length := h.size_eq
  unfold replaceLast
  split
  · rw [hsize]
    exact store_holds h x _ (by omega)
  · obtain rfl : l = [] := List.eq_nil_of_length_eq_zero (by omega)
    exact ⟨L, rfl, h⟩

theorem del_holds (h : Holds L l) {num : Nat} (hn : num ≤ l.length) :
    ∃ L', L.del num = some L' ∧ Holds L' (l.take (l.length - num)) := by
  obtain ⟨free, rfl⟩ := h
  refine ⟨_, by rw [del, if_pos hn], ⟨(l.drop (l.length - num)).map some ++ free, ?_⟩⟩
  congr 1
  · rw [← List.append_assoc, ← List.map_append, List.take_append_drop]
  · simp
  · simp
    omega

theorem getIndexOf_eq [DecidableEq α] (h : Holds L l) (x : α) :
    L.getIndexOf x = if x ∈ l then l.idxOf x else 4294967295 := by
  have hsize : L.listSize = l.length := h.size_eq
  unfold getIndexOf
  rw [hsize]
  split
  · rename_i hx
    have hlt := List.idxOf_lt_length_iff.mpr hx
    rw [List.find?_range_eq_some.mpr]
    · rfl
    · refine ⟨decide_eq_true ((h.get_eq _ hlt).trans (List.getElem?_idxOf hx)), List.mem_range.mpr hlt, fun j hj => ?_⟩
      have hjl : j < l.length := Nat.lt_trans hj hlt
      rw [h.get_eq _ hjl, List.getElem?_eq_getElem hjl]
      simpa using List.not_of_lt_findIdx hj
  · rename_i hx
    rw [List.find?_range_eq_none.mpr]
    · rfl
    · intro i hi
      rw [h.get_eq _ hi, List.getElem?_eq_getElem hi]
      have hne : l[i] ≠ x := fun he => hx (he ▸ List.getElem_mem hi)
      simpa using hne

theorem clear_holds (h : Holds L l) (doNotDeallocate : Bool) : Holds (L.clear doNotDeallocate) [] := by
  obtain ⟨free, rfl⟩ := h
  unfold clear
  split
  · rename_i h0
    have hl : l = [] := List.eq_nil_of_length_eq_zero (by dsimp only at h0; omega)
    subst hl
    exact ⟨free, rfl⟩
  · split
    · exact empty_holds
    · exact ⟨l.map some ++ free, by simp⟩

theorem compress_holds (h : Holds L l) : ∃ L', L.compress = some L' ∧ Holds L' l ∧ L'.allocationSize = L.allocationSize := by
  unfold compress
  split
  · exact ⟨L, rfl, h, rfl⟩
  · exact realloc_holds h h.length_le

theorem copy_holds (h : Holds L l) (hl : l ≠ []) : ∃ L', L.copy = some L' ∧ Holds L' l := by
  obtain ⟨free, rfl⟩ := h
  have hlen : l.length ≠ 0 := fun h0 => hl (List.eq_nil_of_length_eq_zero h0)
  have hc := memcpy_items (l := l) (newArray l.length) free (by simp [newArray_length])
  rw [List.drop_eq_nil_of_le (by simp [newArray_length]), List.append_nil] at hc
  simp only [copy, if_neg hlen, Option.bind_eq_bind, Option.bind_some, hc]
  exact ⟨_, rfl, [], by simp⟩

section

variable [DecidableEq α]

inductive Call (α : Type) where
  | insert (x : α)
  | insertAt (x : α) (position : Nat)
  | replace (x filler : α) (position : Nat)
  | replaceLast (x : α)
  | removeAtIndex (position : Nat)
  | del (num : Nat)
  | get (position : Nat)
  | getIndexOf (x : α)
  | size
  | clear (doNotDeallocate : Bool)
  | compress
  /-- Go on with a copy. -/
  | copy

inductive Answer (α : Type) where
  | void
  | item (x : Option α)
  | count (n : Nat)

/-- A call of the list; `none` when it leaves the array. -/
def call (L : DSList α) : Call α → Option (Answer α × DSList α)
  | .insert x => (L.insert x).map fun L => (.void, L)
  | .insertAt x position => (L.insertAt x position).map fun L => (.void, L)
  | .replace x filler position => (L.replace x filler position).map fun L => (.void, L)
  | .replaceLast x => (L.replaceLast x).map fun L => (.void, L)
  | .removeAtIndex position => (L.removeAtIndex position).map fun L => (.void, L)
  | .del num => (L.del num).map fun L => (.void, L)
  | .get position => some (.item (L.get position), L)
  | .getIndexOf x => some (.count (L.getIndexOf x), L)
  | .size => some (.count L.size, L)
  | .clear doNotDeallocate => some (.void, L.clear doNotDeallocate)
  | .compress => L.compress.map fun L => (.void, L)
  | .copy => L.copy.map fun L => (.void, L)

/-- The same call of a list of items; `none` behind its end, for a copy of nothing, and at the
    one position whose successor wraps. -/
def listCall (l : List α) : Call α → Option (Answer α × List α)
  | .insert x => some (.void, l ++ [x])
  | .insertAt x position => if position ≤ l.length then some (.void, l.take position ++ x :: l.drop position) else none
  | .replace x filler position =>
    if position < 4294967295 then
      some (.void, if position < l.length then l.set position x else l ++ List.replicate (position - l.length) filler ++ [x])
    else none
  | .replaceLast x => some (.void, l.set (l.length - 1) x)
  | .removeAtIndex position => some (.void, l.eraseIdx position)
  | .del num => if num ≤ l.length then some (.void, l.take (l.length - num)) else none
  | .get position => l[position]?.map fun x => (.item (some x), l)
  | .getIndexOf x => some (.count (if x ∈ l then l.idxOf x else 4294967295), l)
  | .size => some (.count l.length, l)
  | .clear _ => some (.void, [])
  | .compress => some (.void, l)
  | .copy => if l = [] then none else some (.void, l)

theorem call_refines {c : Call α} {a : Answer α} {l' : List α} (h : Holds L l) (hc : listCall l c = some (a, l')) :
    ∃ L', L.call c = some (a, L') ∧ Holds L' l' := by
  cases c with
  | insert x =>
    cases hc
    obtain ⟨L', hL, h'⟩ := insert_holds h x
    exact ⟨L', by rw [call, hL]; rfl, h'⟩
  | insertAt x position =>
    obtain ⟨hp, he⟩ := Option.ite_none_right_eq_some.mp hc
    cases he
    rw [← List.take_append_drop position l] at h
    obtain ⟨L', hL, h'⟩ := insertAt_holds h x
    rw [List.length_take_of_le hp] at hL
    exact ⟨L', by rw [call, hL]; rfl, h'⟩
  | replace x filler position =>
    obtain ⟨hmax, he⟩ := Option.ite_none_right_eq_some.mp hc
    cases he
    obtain ⟨L', hL, h'⟩ := replace_holds h x filler hmax
    exact ⟨L', by rw [call, hL]; rfl, h'⟩
  | replaceLast x =>
    cases hc
    obtain ⟨L', hL, h'⟩ := replaceLast_holds h x
    exact ⟨L', by rw [call, hL]; rfl, h'⟩
  | removeAtIndex position =>
    cases hc
    rcases Nat.lt_or_ge position l.length with hp | hp
    · rw [← List.take_append_drop position l, List.drop_eq_getElem_cons hp] at h
      obtain ⟨L', hL, h'⟩ := removeAtIndex_holds h
      rw [List.length_take_of_le (by omega)] at hL
      refine ⟨L', by rw [call, hL]; rfl, ?_⟩
      rwa [List.eraseIdx_eq_take_drop_succ]
    · refine ⟨L, by rw [call, removeAtIndex_behind h hp]; rfl, ?_⟩
      rwa [List.eraseIdx_of_length_le hp]
  | del num =>
    obtain ⟨hn, he⟩ := Option.ite_none_right_eq_some.mp hc
    cases he
    obtain ⟨L', hL, h'⟩ := del_holds h hn
    exact ⟨L', by rw [call, hL]; rfl, h'⟩
  | get position =>
    obtain ⟨x, hx, he⟩ := Option.map_eq_some_iff.mp hc
    cases he
    obtain ⟨hlt, -⟩ := List.getElem?_eq_some_iff.mp hx
    exact ⟨L, by rw [call, h.get_eq _ hlt, hx], h⟩
  | getIndexOf x =>
    cases hc
    exact ⟨L, by rw [call, getIndexOf_eq h], h⟩
  | size =>
    cases hc
    exact ⟨L, by rw [call, h.size_eq], h⟩
  | clear doNotDeallocate =>
    cases hc
    exact ⟨_, rfl, clear_holds h doNotDeallocate⟩
  | compress =>
    cases hc
    obtain ⟨L', hL, h', -⟩ := compress_holds h
    exact ⟨L', by rw [call, hL]; rfl, h'⟩
  | copy =>
    obtain ⟨hl, he⟩ := Option.ite_none_left_eq_some.mp hc
    cases he
    obtain ⟨L', hL, h'⟩ := copy_holds h hl
    exact ⟨L', by rw [call, hL]; rfl, h'⟩

end

end DSList

end RakHook
