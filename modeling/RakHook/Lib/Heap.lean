/-
  RakHook.Lib.Heap — cells that are allocated, changed and freed by address. An address is
  used once: what is freed stays `none`, so an access through a dangling pointer or a
  second free is `none` too.
-/

namespace RakHook.Lib

structure Heap (α : Type) where
  cells : List (Option α)
  deriving Repr

namespace Heap

variable {α : Type}

def empty : Heap α := ⟨[]⟩

def get (h : Heap α) (p : Nat) : Option α := h.cells.getD p none

/-- The address of the next cell allocated. -/
def top (h : Heap α) : Nat := h.cells.length

def new (h : Heap α) (x : α) : Heap α := ⟨h.cells ++ [some x]⟩

def put (h : Heap α) (p : Nat) (x : α) : Heap α := ⟨h.cells.set p (some x)⟩

/-- Change a cell; `none` if it is not there. -/
def store (h : Heap α) (p : Nat) (f : α → α) : Option (Heap α) := (h.get p).map fun x => h.put p (f x)

def free (h : Heap α) (p : Nat) : Heap α := ⟨h.cells.set p none⟩

def delete (h : Heap α) (p : Nat) : Option (Heap α) := (h.get p).map fun _ => h.free p

variable {h : Heap α} {p q : Nat} {x y : α}

@[simp] theorem get_empty (p : Nat) : (empty : Heap α).get p = none := by simp [get, empty]

theorem get_top_le (hp : h.top ≤ p) : h.get p = none := by
  unfold get top at *
  rw [List.getD_eq_getElem?_getD, List.getElem?_eq_none hp]
  rfl

theorem lt_top (hx : h.get p = some x) : p < h.top := by
  rcases Nat.lt_or_ge p h.top with hlt | hge
  · exact hlt
  · rw [get_top_le hge] at hx
    cases hx

theorem ne_top (hx : h.get p = some x) : p ≠ h.top := Nat.ne_of_lt (lt_top hx)

theorem get_new (h : Heap α) (x : α) (q : Nat) : (h.new x).get q = if q = h.top then some x else h.get q := by
  unfold new get top
  simp only [List.getD_eq_getElem?_getD, List.getElem?_append]
  rcases Nat.lt_trichotomy q h.cells.length with hlt | rfl | hgt
  · rw [if_pos hlt, if_neg (by omega)]
  · simp
  · rw [if_neg (by omega), if_neg (by omega), List.getElem?_eq_none (by simp; omega), List.getElem?_eq_none (by omega)]

theorem get_new_of (hx : h.get p = some x) : (h.new y).get p = some x := by
  rw [get_new, if_neg (ne_top hx), hx]

@[simp] theorem top_new (h : Heap α) (x : α) : (h.new x).top = h.top + 1 := by simp [new, top]

theorem get_put (hx : h.get p = some x) (q : Nat) : (h.put p y).get q = if q = p then some y else h.get q := by
  have hlt := lt_top hx
  unfold put get top at *
  simp only [List.getD_eq_getElem?_getD, List.getElem?_set]
  by_cases he : p = q
  · subst he
    simp [hlt]
  · rw [if_neg he, if_neg fun hc => he hc.symm]

theorem store_of (hx : h.get p = some x) (f : α → α) : h.store p f = some (h.put p (f x)) := by simp [store, hx]

theorem get_free (h : Heap α) (p q : Nat) : (h.free p).get q = if q = p then none else h.get q := by
  unfold free get
  simp only [List.getD_eq_getElem?_getD, List.getElem?_set]
  by_cases he : p = q
  · subst he
    rw [if_pos rfl, if_pos rfl]
    split <;> rfl
  · rw [if_neg he, if_neg fun hc => he hc.symm]

@[simp] theorem top_free (h : Heap α) (p : Nat) : (h.free p).top = h.top := by simp [free, top]

theorem delete_of (hx : h.get p = some x) : h.delete p = some (h.free p) := by simp [delete, hx]

end Heap

end RakHook.Lib
