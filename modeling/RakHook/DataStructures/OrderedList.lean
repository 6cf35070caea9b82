/-
  RakHook.DataStructures.OrderedList — `DataStructures::OrderedList`
  (include/RakNet/DS_OrderedList.h).

  A list kept in the order of its items' keys, searched by halves. A search ends after at
  most as many rounds as there are items; it finds the item with the key, or else the
  place between the smaller and the larger ones (`getIndexFromKey_spec`). Insertion and
  removal by key keep the order and the keys apart (`insert_spec`, `remove_spec`).
-/

import Mathlib.Algebra.Order.Group.Int
import RakHook.DataStructures.List

namespace RakHook

/-- `comparison_function` is apart: it compares a key with an item. -/
structure OrderedList (α : Type) where
  orderedList : DSList α
  deriving Repr

namespace OrderedList

variable {κ α : Type}

def empty : OrderedList α := ⟨DSList.empty⟩

def size (O : OrderedList α) : Nat := O.orderedList.size

def get (O : OrderedList α) (position : Nat) : Option α := O.orderedList.get position

/-- The loop of `GetIndexFromKey`; `none` when it leaves the array. -/
def searchLoop (compare : α → Int) (L : DSList α) : (fuel : Nat) → (index upperBound lowerBound : Int) → Option (Nat × Bool)
  | 0, _, _, _ => none
  | fuel + 1, index, upperBound, lowerBound =>
    (if index < 0 then none else L.get index.toNat) >>= fun item =>
      let res := compare item
      if res = 0 then some (index.toNat, true)
      else
        let upper := if res < 0 then index - 1 else upperBound
        let lower := if res < 0 then lowerBound else index + 1
        let index := lower + (upper - lower).tdiv 2
        if upper < lower then some (lower.toNat, false) else searchLoop compare L fuel index upper lower

/-- The index, and `objectExists`. -/
def getIndexFromKey (compare : κ → α → Int) (O : OrderedList α) (key : κ) : Option (Nat × Bool) :=
  if O.size = 0 then some (0, false)
  else searchLoop (compare key) O.orderedList O.size (O.size / 2 : Nat) (O.size - 1) 0

/-- `(unsigned)-1` for a key that is there. -/
def insert (compare : κ → α → Int) (O : OrderedList α) (key : κ) (data : α) : Option (Nat × OrderedList α) := do
  let (index, objectExists) ← O.getIndexFromKey compare key
  if objectExists then return (4294967295, O)
  else if O.size ≤ index then
    let L ← O.orderedList.insert data
    return (L.size - 1, ⟨L⟩)
  else
    let L ← O.orderedList.insertAt data index
    return (index, ⟨L⟩)

/-- Without the assertion: 0 for a key that is not there. -/
def remove (compare : κ → α → Int) (O : OrderedList α) (key : κ) : Option (Nat × OrderedList α) := do
  let (index, objectExists) ← O.getIndexFromKey compare key
  if objectExists then
    let L ← O.orderedList.removeAtIndex index
    return (index, ⟨L⟩)
  else return (0, O)

def removeAtIndex (O : OrderedList α) (index : Nat) : Option (OrderedList α) := (O.orderedList.removeAtIndex index).map (⟨·⟩)

def clear (O : OrderedList α) : OrderedList α := ⟨O.orderedList.clear false⟩

/-! ## Searching by halves -/

/-- `compare` tells how a key stands to the key of an item. -/
structure Compares [LinearOrder κ] (compare : κ → α → Int) (keyOf : α → κ) : Prop where
  neg : ∀ k x, compare k x < 0 ↔ k < keyOf x
  pos : ∀ k x, 0 < compare k x ↔ keyOf x < k

/-- The items' keys rise. -/
def Ordered [LinearOrder κ] (keyOf : α → κ) (l : List α) : Prop := l.Pairwise fun x y => keyOf x < keyOf y

/-- Where a search for the items at 0 ends in `l`. -/
inductive Found (compare : α → Int) : List α → Nat × Bool → Prop where
  | at (as : List α) (x : α) (bs : List α) : compare x = 0 → Found compare (as ++ x :: bs) (as.length, true)
  | between (as bs : List α) : (∀ x ∈ as, 0 < compare x) → (∀ x ∈ bs, compare x < 0) → Found compare (as ++ bs) (as.length, false)

variable {L : DSList α} {l : List α}

theorem middle (a : Nat) {n : Nat} (hn : 0 < n) :
    (a : Int) + (((a + n - 1 : Nat) : Int) - a).tdiv 2 = ((a + (n - 1) / 2 : Nat) : Int) := by
  rw [Int.tdiv_eq_ediv_of_nonneg (by omega)]
  omega

/-- Between the bounds there are `mid`. -/
theorem searchLoop_found {compare : α → Int} (h : L.Holds l) (hl : l.Pairwise fun x y => compare x ≤ 0 → compare y < 0) :
    ∀ (fuel : Nat) (as mid bs : List α) {i : Nat}, l = as ++ mid ++ bs → (∀ x ∈ as, 0 < compare x) →
      (∀ x ∈ bs, compare x < 0) → mid.length ≤ fuel → i < mid.length →
      ∃ found, searchLoop compare L fuel (as.length + i : Nat) (as.length + mid.length - 1 : Nat) as.length = some found ∧
        Found compare l found := by
  intro fuel
  induction fuel with
  | zero => intro as mid bs i _ _ _ hf hi; omega
  | succ fuel ih =>
    intro as mid bs i hsplit has hbs hf hi
    obtain ⟨us, x, vs, rfl, rfl⟩ : ∃ us x vs, mid = us ++ x :: vs ∧ us.length = i :=
      ⟨mid.take i, mid[i], mid.drop (i + 1), by simp, List.length_take_of_le (by omega)⟩
    have hget : L.get (as.length + us.length) = some x := by
      rw [h.get_eq _ (by rw [hsplit]; simp), hsplit]
      simp
    have hitem : (if ((as.length + us.length : Nat) : Int) < 0 then none
        else L.get ((as.length + us.length : Nat) : Int).toNat) = some x := by
      rw [if_neg (by omega), Int.toNat_natCast, hget]
    have hall : (as ++ us ++ x :: (vs ++ bs)).Pairwise fun x y => compare x ≤ 0 → compare y < 0 := by
      rw [hsplit] at hl
      simpa using hl
    obtain ⟨-, hx, hcross⟩ := List.pairwise_append.mp hall
    simp only [searchLoop, hitem, Option.bind_eq_bind, Option.bind_some]
    rcases lt_trichotomy (compare x) 0 with hneg | hz | hpos
    · have hbs' : ∀ y ∈ x :: (vs ++ bs), compare y < 0 := by
        intro y hy
        rcases List.mem_cons.mp hy with rfl | hy
        · exact hneg
        · exact (List.pairwise_cons.mp hx).1 y hy hneg.le
      rw [if_neg hneg.ne, if_pos hneg, if_pos hneg]
      cases us with
      | nil =>
        rw [if_pos (by rw [List.length_nil]; omega)]
        refine ⟨_, rfl, ?_⟩
        rw [hsplit, Int.toNat_natCast, List.append_assoc]
        exact .between as _ has (by simpa using hbs')
      | cons u us =>
        have hpos : 0 < (u :: us).length := Nat.succ_pos _
        have hupper : ((as.length + (u :: us).length : Nat) : Int) - 1 = ((as.length + (u :: us).length - 1 : Nat) : Int) := by
          omega
        rw [if_neg (by omega), hupper, middle _ hpos]
        rw [List.length_append] at hf
        exact ih as _ _ (by rw [hsplit]; simp) has hbs' (by simp at hf ⊢; omega) (by omega)
    · rw [if_pos hz, Int.toNat_natCast]
      refine ⟨_, rfl, ?_⟩
      rw [hsplit, ← List.length_append]
      have hat : Found compare (as ++ us ++ x :: (vs ++ bs)) ((as ++ us).length, true) := .at _ x _ hz
      simpa using hat
    · have has' : ∀ y ∈ as ++ us ++ [x], 0 < compare y := by
        intro y hy
        rcases List.mem_append.mp hy with hy | hy
        · by_contra hn
          have := hcross y hy x (List.mem_cons_self ..) (not_lt.mp hn)
          omega
        · rwa [List.mem_singleton.mp hy]
      have hlower : ((as.length + us.length : Nat) : Int) + 1 = ((as ++ us ++ [x]).length : Nat) := by
        simp
        omega
      have hnot : ¬compare x < 0 := not_lt.mpr hpos.le
      rw [if_neg hpos.ne', if_neg hnot, if_neg hnot, hlower]
      cases vs with
      | nil =>
        rw [if_pos (by simp)]
        refine ⟨_, rfl, ?_⟩
        have hl' : l = as ++ us ++ [x] ++ bs := by
          rw [hsplit]
          simp
        rw [hl', Int.toNat_natCast]
        exact .between _ bs has' hbs
      | cons v vs =>
        have hupper : as.length + (us ++ x :: v :: vs).length - 1 = (as ++ us ++ [x]).length + (v :: vs).length - 1 := by
          simp
          omega
        have hleft : 0 < (v :: vs).length := Nat.succ_pos _
        rw [if_neg (by simp only [List.length_append, List.length_cons, List.length_nil]; omega), hupper, middle _ hleft]
        exact ih _ _ bs (by rw [hsplit]; simp) has' hbs (by simp at hf ⊢; omega) (by rw [List.length_cons]; omega)

variable [LinearOrder κ] {compare : κ → α → Int} {keyOf : α → κ} {O : OrderedList α}

theorem Compares.zero (hc : Compares compare keyOf) (k : κ) (x : α) : compare k x = 0 ↔ k = keyOf x := by
  have hneg := hc.neg k x
  have hpos := hc.pos k x
  constructor
  · intro hz
    rw [hz] at hneg hpos
    exact le_antisymm (not_lt.mp (hpos.not.mp (lt_irrefl 0))) (not_lt.mp (hneg.not.mp (lt_irrefl 0)))
  · rintro rfl
    have hn := hneg.not.mpr (lt_irrefl _)
    have hp := hpos.not.mpr (lt_irrefl _)
    omega

/-- The items are `l`, in the order of their keys. -/
structure Holds (keyOf : α → κ) (O : OrderedList α) (l : List α) : Prop where
  list : O.orderedList.Holds l
  ordered : Ordered keyOf l

theorem empty_holds : Holds keyOf empty [] := ⟨DSList.empty_holds, .nil⟩

/-- A search always ends, at the item with the key or between the smaller and the larger
    keys. -/
theorem getIndexFromKey_spec (hc : Compares compare keyOf) (h : Holds keyOf O l) (key : κ) :
    (∃ as x bs, l = as ++ x :: bs ∧ keyOf x = key ∧ O.getIndexFromKey compare key = some (as.length, true)) ∨
      ∃ as bs, l = as ++ bs ∧ (∀ x ∈ as, keyOf x < key) ∧ (∀ x ∈ bs, key < keyOf x) ∧
        O.getIndexFromKey compare key = some (as.length, false) := by
  have hsize : O.size = l.length := h.list.size_eq
  unfold getIndexFromKey
  split
  · rename_i h0
    obtain rfl : l = [] := List.eq_nil_of_length_eq_zero (by omega)
    exact .inr ⟨[], [], rfl, nofun, nofun, rfl⟩
  · rename_i h0
    have hfall : l.Pairwise fun x y => compare key x ≤ 0 → compare key y < 0 := by
      refine h.ordered.imp fun {x y} hxy hx => ?_
      rw [hc.neg]
      exact lt_of_le_of_lt (not_lt.mp ((hc.pos key x).not.mp (not_lt.mpr hx))) hxy
    obtain ⟨found, hs, hf⟩ := searchLoop_found h.list hfall l.length [] l [] (i := l.length / 2)
      (by simp) nofun nofun (Nat.le_refl _) (by omega)
    have hupper : ((l.length : Nat) : Int) - 1 = (([] : List α).length + l.length - 1 : Nat) := by
      simp
      omega
    simp only [List.length_nil, Nat.zero_add] at hs hupper
    rw [hsize, hupper]
    rw [show ((0 : Nat) : Int) = 0 from rfl] at hs
    rw [hs]
    cases hf with
    | «at» as x bs hx => exact .inl ⟨as, x, bs, rfl, ((hc.zero key x).mp hx).symm, rfl⟩
    | between as bs has hbs =>
      exact .inr ⟨as, bs, rfl, fun x hx => (hc.pos key x).mp (has x hx), fun x hx => (hc.neg key x).mp (hbs x hx), rfl⟩

theorem ordered_iff {as bs : List α} {x : α} : Ordered keyOf (as ++ x :: bs) ↔
    Ordered keyOf (as ++ bs) ∧ (∀ a ∈ as, keyOf a < keyOf x) ∧ ∀ b ∈ bs, keyOf x < keyOf b := by
  unfold Ordered
  simp only [List.pairwise_append, List.pairwise_cons, List.mem_cons]
  constructor
  · rintro ⟨has, ⟨hx, hbs⟩, hab⟩
    exact ⟨⟨has, hbs, fun a ha b hb => hab a ha b (.inr hb)⟩, fun a ha => hab a ha x (.inl rfl), hx⟩
  · rintro ⟨⟨has, hbs, hab⟩, hax, hxb⟩
    refine ⟨has, ⟨hxb, hbs⟩, fun a ha b hb => ?_⟩
    rcases hb with rfl | hb
    · exact hax a ha
    · exact hab a ha b hb

theorem removeAtIndex_holds {as bs : List α} {x : α} (h : Holds keyOf O (as ++ x :: bs)) :
    ∃ O', O.removeAtIndex as.length = some O' ∧ Holds keyOf O' (as ++ bs) := by
  obtain ⟨L, hL, hl⟩ := DSList.removeAtIndex_holds h.list
  exact ⟨⟨L⟩, by rw [removeAtIndex, hL]; rfl, hl, (ordered_iff.mp h.ordered).1⟩

/-- A key goes in once, at its place. -/
theorem insert_spec (hc : Compares compare keyOf) (h : Holds keyOf O l) (data : α) :
    (∃ as x bs, l = as ++ x :: bs ∧ keyOf x = keyOf data ∧ O.insert compare (keyOf data) data = some (4294967295, O)) ∨
      ∃ as bs O', l = as ++ bs ∧ (∀ x ∈ as, keyOf x < keyOf data) ∧ (∀ x ∈ bs, keyOf data < keyOf x) ∧
        O.insert compare (keyOf data) data = some (as.length, O') ∧ Holds keyOf O' (as ++ data :: bs) := by
  rcases getIndexFromKey_spec hc h (keyOf data) with ⟨as, x, bs, rfl, hx, hf⟩ | ⟨as, bs, rfl, has, hbs, hf⟩
  · exact .inl ⟨as, x, bs, rfl, hx, by simp [insert, hf]⟩
  · refine .inr ⟨as, bs, ?_⟩
    have hsize : O.size = (as ++ bs).length := h.list.size_eq
    have hord : Ordered keyOf (as ++ data :: bs) := ordered_iff.mpr ⟨h.ordered, has, hbs⟩
    simp only [insert, hf, Option.bind_eq_bind, Option.bind_some, Bool.false_eq_true, if_false, hsize, Option.pure_def]
    cases bs with
    | nil =>
      obtain ⟨L, hL, hl⟩ := DSList.insert_holds h.list data
      refine ⟨⟨L⟩, trivial, has, hbs, ?_, by simpa using hl, hord⟩
      rw [if_pos (by simp), hL, Option.bind_some, hl.size_eq]
      simp
    | cons b bs =>
      obtain ⟨L, hL, hl⟩ := DSList.insertAt_holds h.list data
      refine ⟨⟨L⟩, trivial, has, hbs, ?_, hl, hord⟩
      rw [if_neg (by simp), hL]
      rfl

theorem remove_spec (hc : Compares compare keyOf) (h : Holds keyOf O l) (key : κ) :
    (∃ as x bs O', l = as ++ x :: bs ∧ keyOf x = key ∧ O.remove compare key = some (as.length, O') ∧ Holds keyOf O' (as ++ bs)) ∨
      (∀ x ∈ l, keyOf x ≠ key) ∧ O.remove compare key = some (0, O) := by
  rcases getIndexFromKey_spec hc h key with ⟨as, x, bs, rfl, hx, hf⟩ | ⟨as, bs, rfl, has, hbs, hf⟩
  · obtain ⟨L, hL, hl⟩ := DSList.removeAtIndex_holds h.list
    exact .inl ⟨as, x, bs, ⟨L⟩, rfl, hx, by simp [remove, hf, hL], hl, (ordered_iff.mp h.ordered).1⟩
  · refine .inr ⟨fun x hx => ?_, by simp [remove, hf]⟩
    rcases List.mem_append.mp hx with hx | hx
    · exact (has x hx).ne
    · exact (hbs x hx).ne'

end OrderedList

end RakHook
