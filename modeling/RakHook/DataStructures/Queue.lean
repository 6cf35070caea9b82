/-
  RakHook.DataStructures.Queue — `DataStructures::Queue` (include/RakNet/DS_Queue.h).

  The elements stand in a ring: from `head` on, wrapping at the end of the array, up to in
  front of `tail`. `Holds q l` says that they are `l`. A push that fills the ring moves it
  to one twice as large. On any sequence of calls that neither takes from an empty queue,
  copies it nor asks behind its end, the queue answers like the list (`queue_refines_list`).

  `PushAtHead` with an index shifts the elements in front of it without wrapping: it stays
  inside the array, and puts its element in, exactly if the new head and the index do not
  reach the end (`pushAtHead_iff`).
-/

import Mathlib.Data.Nat.ModEq
import RakHook.Lib.Calls

namespace RakHook

/-- An element of `array` is `none` until it is written. -/
structure Queue (α : Type) where
  array : List (Option α)
  head : Nat
  tail : Nat
  allocationSize : Nat
  deriving Repr

namespace Queue

variable {α : Type}

def size (q : Queue α) : Nat := if q.head ≤ q.tail then q.tail - q.head else q.allocationSize - q.head + q.tail

def isEmpty (q : Queue α) : Bool := q.head == q.tail

def newArray (n : Nat) : List (Option α) := List.replicate n none

def empty : Queue α := { array := newArray 16, head := 0, tail := 0, allocationSize := 16 }

def load (q : Queue α) (i : Nat) : Option α := q.array.getD i none

/-- The first `n` elements in order: the copying loop of `Push`, `PushAtHead`, `Compress` and
    the copies. -/
def inOrder (q : Queue α) (n : Nat) : List (Option α) :=
  (List.range n).map fun counter => q.load ((q.head + counter) % q.allocationSize)

/-- The full ring in an array of twice its size. -/
def grow (q : Queue α) : Queue α :=
  { array := q.inOrder q.allocationSize ++ newArray q.allocationSize, head := 0, tail := q.allocationSize,
    allocationSize := q.allocationSize * 2 }

def first (input : α) : Queue α :=
  { array := (newArray 16).set 0 (some input), head := 0, tail := 1, allocationSize := 16 }

def push (q : Queue α) (input : α) : Queue α :=
  if q.allocationSize = 0 then first input
  else
    let tail := if q.tail + 1 = q.allocationSize then 0 else q.tail + 1
    let q := { q with array := q.array.set q.tail (some input), tail := tail }
    if q.tail = q.head then q.grow else q

/-- The loop of `PushAtHead`; `none` when it leaves the array. -/
def shift : Nat → Nat → List (Option α) → Option (List (Option α))
  | 0, _, array => some array
  | n + 1, i, array => array[i + 1]? >>= fun x => shift n (i + 1) (array.set i x)

def pushAtHead (q : Queue α) (input : α) (index : Nat) : Option (Queue α) :=
  if q.allocationSize = 0 then some (first input)
  else
    let head := if q.head = 0 then q.allocationSize - 1 else q.head - 1
    (shift index head q.array).map fun array =>
      let q := { q with head := head, array := array.set (head + index) (some input) }
      if q.tail = q.head then q.grow else q

def peek (q : Queue α) : Option α := q.load q.head

def pop (q : Queue α) : Option α × Queue α :=
  let head := if q.head + 1 = q.allocationSize then 0 else q.head + 1
  (q.load (if head = 0 then q.allocationSize - 1 else head - 1), { q with head := head })

/-- Where the element at `position` is. -/
def index (q : Queue α) (position : Nat) : Nat :=
  if q.allocationSize ≤ q.head + position then q.head + position - q.allocationSize else q.head + position

def get (q : Queue α) (position : Nat) : Option α := q.load (q.index position)

/-- The loop of `Del`. It ends at the tail, after fewer than `fuel` rounds. -/
def delLoop (allocationSize tail : Nat) : (fuel : Nat) → Nat → Nat → List (Option α) → List (Option α)
  | 0, _, _, array => array
  | fuel + 1, index, next, array =>
    if next = tail then array
    else
      delLoop allocationSize tail fuel next (if next + 1 = allocationSize then 0 else next + 1)
        (array.set index (array.getD next none))

def del (q : Queue α) (position : Nat) : Queue α :=
  if q.head = q.tail ∨ q.size ≤ position then q
  else
    let index := q.index position
    let next := if index + 1 = q.allocationSize then 0 else index + 1
    { q with
      array := delLoop q.allocationSize q.tail q.allocationSize index next q.array
      tail := if q.tail = 0 then q.allocationSize - 1 else q.tail - 1 }

def clear (q : Queue α) : Queue α :=
  if q.allocationSize = 0 then q
  else if 32 < q.allocationSize then { array := [], head := 0, tail := 0, allocationSize := 0 }
  else { q with head := 0, tail := 0 }

/-- The loop that looks for `newAllocationSize`; `fuel` doublings are enough from 1 on. -/
def fit (size : Nat) : (fuel : Nat) → Nat → Nat
  | 0, n => n
  | fuel + 1, n => if n ≤ size then fit size fuel (n * 2) else n

def compress (q : Queue α) : Queue α :=
  if q.allocationSize = 0 then q
  else
    let newAllocationSize := fit q.size q.size 1
    { array := q.inOrder q.size ++ newArray (newAllocationSize - q.size), head := 0, tail := q.size,
      allocationSize := newAllocationSize }

/-- The elements in an array with room for one more. -/
def copied (original : Queue α) : Queue α :=
  { array := original.inOrder original.size ++ newArray 1, head := 0, tail := original.size,
    allocationSize := original.size + 1 }

/-- `Queue(Queue&)`. Of an empty queue it sets `allocation_size` and leaves `head`, `tail` and
    `array` as they are in memory: `none`. -/
def copy (original : Queue α) : Option (Queue α) := if original.size = 0 then none else some original.copied

/-- `operator=`, of another queue. The array it had goes out of use with `allocation_size` 0. -/
def assign (q original : Queue α) : Queue α :=
  if original.size = 0 then { q.clear with array := [], allocationSize := 0 } else original.copied

section

variable [DecidableEq α]

/-- The loop of `Find`. It ends at the tail, after fewer than `fuel` rounds. -/
def findLoop (q : Queue α) (x : α) : (fuel : Nat) → Nat → Bool
  | 0, _ => false
  | fuel + 1, counter =>
    if counter = q.tail then false
    else if q.load counter = some x then true
    else findLoop q x fuel ((counter + 1) % q.allocationSize)

def find (q : Queue α) (x : α) : Bool := if q.allocationSize = 0 then false else findLoop q x q.allocationSize q.head

end

/-! ## The ring -/

/-- The queue's elements are `l`. -/
structure Holds (q : Queue α) (l : List α) : Prop where
  length : q.array.length = q.allocationSize
  room : l.length < q.allocationSize ∧ q.head < q.allocationSize ∧ q.tail = (q.head + l.length) % q.allocationSize ∨
    q.allocationSize = 0 ∧ l = [] ∧ q.head = 0 ∧ q.tail = 0
  items : ∀ i < l.length, q.load ((q.head + i) % q.allocationSize) = l[i]?

variable {q : Queue α} {l : List α}

/-- Indices run through a ring of `n` with one step back at the end. -/
theorem wrap_mod {n i : Nat} (hi : i < n) : (if i + 1 = n then 0 else i + 1) = (i + 1) % n := by
  split
  · rename_i h
    rw [h, Nat.mod_self]
  · rw [Nat.mod_eq_of_lt (by omega)]

theorem pred_mod {n k : Nat} (hn : 0 < n) : (if (k + 1) % n = 0 then n - 1 else (k + 1) % n - 1) = k % n := by
  have hlt := Nat.mod_lt k hn
  rw [← Nat.mod_add_mod]
  rcases Nat.lt_or_ge (k % n + 1) n with h | h
  · rw [Nat.mod_eq_of_lt h, if_neg (by omega), Nat.add_sub_cancel]
  · rw [show k % n + 1 = n by omega, Nat.mod_self, if_pos rfl]
    omega

/-- Two positions of a ring are in one place only if they are the same. -/
theorem mod_inj {n h i j : Nat} (hi : i < n) (hj : j < n) (he : (h + i) % n = (h + j) % n) : i = j := by
  have hmod : i ≡ j [MOD n] := Nat.ModEq.add_left_cancel' h he
  rwa [Nat.ModEq, Nat.mod_eq_of_lt hi, Nat.mod_eq_of_lt hj] at hmod

theorem load_set (q : Queue α) (p i : Nat) (x : Option α) :
    (q.array.set p x).getD i none = if i = p ∧ p < q.array.length then x else q.load i := by
  unfold load
  simp only [List.getD_eq_getElem?_getD, List.getElem?_set]
  by_cases h : p = i
  · subst h
    by_cases hl : p < q.array.length <;> simp [hl]
  · rw [if_neg h, if_neg (by omega)]

theorem empty_holds : Holds (empty : Queue α) [] :=
  ⟨rfl, .inl ⟨by simp [empty], by simp [empty], rfl⟩, nofun⟩

theorem first_holds (x : α) : Holds (first x) [x] := by
  refine ⟨rfl, .inl ⟨by simp [first], by simp [first], by simp [first]⟩, ?_⟩
  intro i hi
  obtain rfl : i = 0 := by simpa using hi
  rfl

theorem Holds.size_eq (h : Holds q l) : q.size = l.length := by
  unfold size
  rcases h.room with ⟨hl, hh, ht⟩ | ⟨h0, rfl, hh, ht⟩
  · rcases Nat.lt_or_ge (q.head + l.length) q.allocationSize with hlt | hge
    · rw [Nat.mod_eq_of_lt hlt] at ht
      rw [if_pos (by omega)]
      omega
    · rw [Nat.mod_eq_sub_mod hge, Nat.mod_eq_of_lt (by omega)] at ht
      rw [if_neg (by omega)]
      omega
  · rw [hh, ht]
    rfl

theorem Holds.isEmpty_eq (h : Holds q l) : q.isEmpty = l.isEmpty := by
  have hs := h.size_eq
  unfold isEmpty
  rcases h.room with ⟨hl, hh, ht⟩ | ⟨h0, rfl, hh, ht⟩
  · cases l with
    | nil =>
      rw [List.length_nil, Nat.add_zero, Nat.mod_eq_of_lt hh] at ht
      simp [ht]
    | cons x l =>
      have hne : q.head ≠ q.tail := by
        intro he
        rw [size, he, if_pos (Nat.le_refl _), Nat.sub_self] at hs
        simp at hs
      simpa using hne
  · rw [hh, ht]
    rfl

/-- The elements in order, in an array with some room behind them. -/
theorem inOrder_holds {m n : Nat} (hm : m = l.length) (hn : m < n)
    (hi : ∀ i < l.length, q.load ((q.head + i) % q.allocationSize) = l[i]?) :
    Holds { array := q.inOrder m ++ newArray (n - m), head := 0, tail := m, allocationSize := n } l := by
  subst hm
  refine ⟨by simp [inOrder, newArray]; omega, .inl ⟨hn, by simp only []; omega, ?_⟩, ?_⟩
  · rw [Nat.zero_add, Nat.mod_eq_of_lt hn]
  · intro i hlt
    have hmod : (0 + i) % n = i := by rw [Nat.zero_add, Nat.mod_eq_of_lt (by omega)]
    simp only [load, hmod, inOrder, List.getD_eq_getElem?_getD]
    rw [List.getElem?_append_left (by simpa using hlt), ← hi i hlt]
    simp [hlt, load]

/-- A ring that has been added to is moved when it is full. -/
theorem settle_holds (hlen : q.array.length = q.allocationSize) (h0 : 0 < l.length) (hl : l.length ≤ q.allocationSize)
    (hh : q.head < q.allocationSize) (ht : q.tail = (q.head + l.length) % q.allocationSize)
    (hi : ∀ i < l.length, q.load ((q.head + i) % q.allocationSize) = l[i]?) :
    Holds (if q.tail = q.head then q.grow else q) l := by
  rcases Nat.lt_or_ge l.length q.allocationSize with hlt | hge
  · have hne : q.tail ≠ q.head := by
      intro he
      have hmod : (q.head + l.length) % q.allocationSize = (q.head + 0) % q.allocationSize := by
        rw [← ht, he, Nat.add_zero, Nat.mod_eq_of_lt hh]
      have := mod_inj hlt (by omega) hmod
      omega
    rw [if_neg hne]
    exact ⟨hlen, .inl ⟨hlt, hh, ht⟩, hi⟩
  · have hfull : q.allocationSize = l.length := Nat.le_antisymm hge hl
    have he : q.tail = q.head := by rw [ht, ← hfull, Nat.add_mod_right, Nat.mod_eq_of_lt hh]
    have hgrow := inOrder_holds (n := q.allocationSize * 2) hfull (by omega) hi
    rw [show q.allocationSize * 2 - q.allocationSize = q.allocationSize by omega] at hgrow
    rw [if_pos he]
    exact hgrow

/-! ## Calls -/

theorem push_holds (h : Holds q l) (x : α) : Holds (q.push x) (l ++ [x]) := by
  unfold push
  split
  · rename_i h0
    rcases h.room with ⟨hl, -, -⟩ | ⟨-, rfl, -, -⟩
    · omega
    · exact first_holds x
  · rename_i h0
    obtain ⟨hl, hh, ht⟩ := h.room.resolve_right fun hr => h0 hr.1
    have htail : q.tail < q.allocationSize := ht ▸ Nat.mod_lt _ (by omega)
    have hwrap : (if q.tail + 1 = q.allocationSize then 0 else q.tail + 1) =
        (q.head + (l ++ [x]).length) % q.allocationSize := by
      rw [wrap_mod htail, ht, List.length_append, List.length_singleton, ← Nat.add_assoc, Nat.mod_add_mod]
    refine settle_holds (by simpa using h.length) (by simp) (by simpa using Nat.succ_le_of_lt hl) hh hwrap ?_
    intro i hi
    rw [List.length_append, List.length_singleton] at hi
    show (q.array.set q.tail (some x)).getD _ none = _
    rw [load_set, h.length]
    by_cases he : i = l.length
    · subst he
      rw [if_pos ⟨ht.symm, htail⟩]
      simp
    · rw [if_neg, h.items i (by omega), List.getElem?_append_left (by omega)]
      intro hc
      exact he (mod_inj (by omega) hl (hc.1.trans ht))

theorem peek_eq {x : α} (h : Holds q (x :: l)) : q.peek = some x := by
  obtain ⟨-, hh, -⟩ := h.room.resolve_right fun hr => absurd hr.2.1 (by simp)
  have h0 := h.items 0 (by simp)
  rw [Nat.add_zero, Nat.mod_eq_of_lt hh] at h0
  exact h0

theorem pop_holds {x : α} (h : Holds q (x :: l)) : q.pop.1 = some x ∧ Holds q.pop.2 l := by
  obtain ⟨hl, hh, ht⟩ := h.room.resolve_right fun hr => absurd hr.2.1 (by simp)
  rw [List.length_cons] at hl ht
  have hhead : (if (if q.head + 1 = q.allocationSize then 0 else q.head + 1) = 0 then q.allocationSize - 1
      else (if q.head + 1 = q.allocationSize then 0 else q.head + 1) - 1) = q.head := by
    split <;> split <;> omega
  have hwrap := wrap_mod hh
  have hlt : (q.head + 1) % q.allocationSize < q.allocationSize := Nat.mod_lt _ (by omega)
  unfold pop
  simp only []
  rw [hhead, hwrap]
  refine ⟨peek_eq h, h.length, .inl ⟨by simp only []; omega, hlt, ?_⟩, ?_⟩
  · show q.tail = _
    rw [ht, Nat.mod_add_mod, Nat.add_assoc, Nat.add_comm 1]
  · intro i hi
    have hn := h.items (i + 1) (by simpa using hi)
    rw [List.getElem?_cons_succ] at hn
    show q.load (((q.head + 1) % q.allocationSize + i) % q.allocationSize) = _
    rw [Nat.mod_add_mod, Nat.add_assoc, Nat.add_comm 1 i]
    exact hn

theorem back_mod {n h : Nat} (hh : h < n) (i : Nat) : ((if h = 0 then n - 1 else h - 1) + (i + 1)) % n = (h + i) % n := by
  split
  · rename_i h0
    rw [h0, show n - 1 + (i + 1) = 0 + i + n by omega, Nat.add_mod_right]
  · rw [show h - 1 + (i + 1) = h + i by omega]

theorem shift_spec : ∀ (n p : Nat) (array : List (Option α)), p < array.length →
    ((shift n p array).isSome = true ↔ p + n < array.length) ∧
      ∀ array', shift n p array = some array' → array'.length = array.length ∧
        ∀ i, array'.getD i none = if p ≤ i ∧ i < p + n then array.getD (i + 1) none else array.getD i none := by
  intro n
  induction n with
  | zero =>
    intro p array hp
    refine ⟨⟨fun _ => hp, fun _ => rfl⟩, ?_⟩
    intro array' ha
    obtain rfl : array = array' := Option.some.inj ha
    refine ⟨rfl, ?_⟩
    intro i
    rw [if_neg (by omega)]
  | succ n ih =>
    intro p array hp
    unfold shift
    rcases Nat.lt_or_ge (p + 1) array.length with hlt | hge
    · rw [List.getElem?_eq_getElem hlt]
      obtain ⟨hsome, hget⟩ := ih (p + 1) (array.set p array[p + 1]) (by simpa using hlt)
      refine ⟨?_, ?_⟩
      · rw [List.length_set] at hsome
        exact hsome.trans (by omega)
      · intro array' ha
        obtain ⟨hlen, hg⟩ := hget array' ha
        refine ⟨by simpa using hlen, ?_⟩
        intro i
        have hset : ∀ j, (array.set p array[p + 1]).getD j none =
            if j = p then array.getD (p + 1) none else array.getD j none := by
          intro j
          have hj := load_set { array := array, head := 0, tail := 0, allocationSize := 0 } p j array[p + 1]
          simp only [load] at hj
          rw [hj]
          simp [hp, hlt]
        rw [hg]
        by_cases hin : p + 1 ≤ i ∧ i < p + 1 + n
        · have hp1 : ¬i + 1 = p := by omega
          rw [if_pos hin, hset, if_neg hp1, if_pos (by omega)]
        · rw [if_neg hin, hset]
          by_cases hip : i = p
          · rw [if_pos hip, if_pos (by omega), hip]
          · rw [if_neg hip, if_neg (by omega)]
    · rw [List.getElem?_eq_none hge]
      refine ⟨⟨nofun, fun _ => by omega⟩, nofun⟩

/-- `PushAtHead` stays inside the array exactly if the shifted elements do not run over its
    end, and then puts its element at the index. -/
theorem pushAtHead_spec (h : Holds q l) (x : α) {index : Nat} (hi : index ≤ l.length) :
    ((q.pushAtHead x index).isSome = true ↔
      q.allocationSize = 0 ∨ (if q.head = 0 then q.allocationSize - 1 else q.head - 1) + index < q.allocationSize) ∧
      ∀ q', q.pushAtHead x index = some q' → Holds q' (l.take index ++ x :: l.drop index) := by
  unfold pushAtHead
  split
  · rename_i h0
    rcases h.room with ⟨hl, -, -⟩ | ⟨-, rfl, -, -⟩
    · omega
    · refine ⟨⟨fun _ => .inl h0, fun _ => rfl⟩, ?_⟩
      intro q' hq
      obtain rfl := Option.some.inj hq
      simpa using first_holds x
  · rename_i h0
    obtain ⟨hl, hh, ht⟩ := h.room.resolve_right fun hr => h0 hr.1
    have hback := back_mod hh
    obtain ⟨head, hhead⟩ : ∃ head, (if q.head = 0 then q.allocationSize - 1 else q.head - 1) = head := ⟨_, rfl⟩
    have hlt : head < q.allocationSize := by
      rw [← hhead]
      split <;> omega
    rw [hhead] at hback
    simp only [hhead]
    obtain ⟨hsome, hget⟩ := shift_spec index head q.array (by rw [h.length]; exact hlt)
    rw [h.length] at hsome
    refine ⟨?_, ?_⟩
    · rw [Option.isSome_map, hsome]
      simp [h0]
    · intro q' hq
      obtain ⟨array, ha, rfl⟩ := Option.map_eq_some_iff.mp hq
      have hroom : head + index < q.allocationSize := hsome.mp (by rw [ha]; rfl)
      obtain ⟨hlen, hg⟩ := hget array ha
      rw [h.length] at hlen
      have hins : (l.take index ++ x :: l.drop index).length = l.length + 1 := by
        simp
        omega
      refine settle_holds (q := { q with head := head, array := array.set (head + index) (some x) })
        ((List.length_set ..).trans hlen) (by omega) (by rw [hins]; exact hl) hlt ?_ ?_
      · rw [hins]
        exact ht.trans (hback l.length).symm
      · intro i hi'
        rw [hins] at hi'
        show (array.set (head + index) (some x)).getD ((head + i) % q.allocationSize) none = _
        have hset := load_set { q with array := array } (head + index) ((head + i) % q.allocationSize) (some x)
        have hmin : min index l.length = index := Nat.min_eq_left hi
        simp only [load] at hset
        rw [hset, hlen]
        rcases Nat.lt_trichotomy i index with hlti | rfl | hgti
        · -- shifted down by one
          rw [Nat.mod_eq_of_lt (by omega), if_neg (by omega), hg, if_pos (by omega),
            List.getElem?_append_left (by simp; omega), List.getElem?_take_of_lt hlti, ← h.items i (by omega), ← hback,
            ← Nat.add_assoc, Nat.mod_eq_of_lt (by omega)]
          rfl
        · rw [Nat.mod_eq_of_lt hroom, if_pos ⟨rfl, hroom⟩, List.getElem?_append_right (by simp)]
          simp [hmin]
        · obtain ⟨j, rfl⟩ := Nat.exists_eq_succ_of_ne_zero (show i ≠ 0 by omega)
          have hne : ¬((head + (j + 1)) % q.allocationSize = head + index ∧ head + index < q.allocationSize) := by
            intro hat
            obtain ⟨he, -⟩ := hat
            have hmod : (head + (j + 1)) % q.allocationSize = (head + index) % q.allocationSize := by
              rw [he, Nat.mod_eq_of_lt hroom]
            have := mod_inj (by omega) (by omega) hmod
            omega
          have hout : ¬(head ≤ (head + (j + 1)) % q.allocationSize ∧
              (head + (j + 1)) % q.allocationSize < head + index) := by
            intro hc
            have hmod : (head + ((head + (j + 1)) % q.allocationSize - head)) % q.allocationSize =
                (head + (j + 1)) % q.allocationSize := by
              rw [show head + ((head + (j + 1)) % q.allocationSize - head) = (head + (j + 1)) % q.allocationSize by omega,
                Nat.mod_mod]
            have := mod_inj (by omega) (by omega) hmod
            omega
          rw [if_neg hne, hg, if_neg hout, List.getElem?_append_right (by simp; omega)]
          have hitem := h.items j (by omega)
          rw [hback]
          simp only [load] at hitem
          rw [hitem, List.length_take, hmin, show j + 1 - index = j - index + 1 by omega, List.getElem?_cons_succ,
            List.getElem?_drop, show index + (j - index) = j by omega]

theorem index_eq (hh : q.head < q.allocationSize) (position : Nat) (hp : position < q.allocationSize) :
    q.index position = (q.head + position) % q.allocationSize := by
  unfold index
  split
  · rename_i hge
    rw [Nat.mod_eq_sub_mod hge, Nat.mod_eq_of_lt (by omega)]
  · rename_i hlt
    rw [Nat.mod_eq_of_lt (by omega)]

theorem get_eq (h : Holds q l) {position : Nat} (hp : position < l.length) : q.get position = l[position]? := by
  obtain ⟨hl, hh, -⟩ := h.room.resolve_right fun hr => by simp [hr.2.1] at hp
  unfold get
  rw [index_eq hh _ (by omega)]
  exact h.items position hp

theorem delLoop_spec (head : Nat) {n len : Nat} (hlen : len < n) : ∀ (fuel p : Nat) (array : List (Option α)), array.length = n →
    len - p ≤ fuel → p < len →
    (delLoop n ((head + len) % n) fuel ((head + p) % n) ((head + p + 1) % n) array).length = n ∧
      ∀ i < n, (delLoop n ((head + len) % n) fuel ((head + p) % n) ((head + p + 1) % n) array).getD ((head + i) % n) none =
        if p ≤ i ∧ i + 1 < len then array.getD ((head + i + 1) % n) none else array.getD ((head + i) % n) none := by
  intro fuel
  induction fuel with
  | zero => intro p array _ hf hp; omega
  | succ fuel ih =>
    intro p array ha hf hp
    unfold delLoop
    by_cases he : (head + p + 1) % n = (head + len) % n
    · have hend : p + 1 = len := mod_inj (by omega) hlen he
      rw [if_pos he]
      refine ⟨ha, ?_⟩
      intro i _
      rw [if_neg (by omega)]
    · have hp1 : p + 1 ≠ len := by
        rintro rfl
        exact he rfl
      have hlt : (head + p + 1) % n < n := Nat.mod_lt _ (by omega)
      have hlt' : (head + p) % n < n := Nat.mod_lt _ (by omega)
      rw [if_neg he, wrap_mod hlt, Nat.mod_add_mod]
      obtain ⟨hl, hg⟩ := ih (p + 1) (array.set ((head + p) % n) (array.getD ((head + p + 1) % n) none)) (by simpa using ha)
        (by omega) (by omega)
      refine ⟨hl, ?_⟩
      intro i hi
      have hset : ∀ j < n, (array.set ((head + p) % n) (array.getD ((head + p + 1) % n) none)).getD ((head + j) % n) none =
          if j = p then array.getD ((head + p + 1) % n) none else array.getD ((head + j) % n) none := by
        intro j hj
        have hs := load_set { array := array, head := 0, tail := 0, allocationSize := 0 } ((head + p) % n)
          ((head + j) % n) (array.getD ((head + p + 1) % n) none)
        simp only [load] at hs
        rw [hs, ha]
        by_cases hjp : j = p
        · rw [if_pos ⟨by rw [hjp], hlt'⟩, if_pos hjp]
        · rw [if_neg (fun hc => hjp (mod_inj hj (by omega) hc.1)), if_neg hjp]
      have hgi := hg i hi
      rw [show head + (p + 1) = head + p + 1 from rfl] at hgi
      rw [hgi]
      by_cases hin : p + 1 ≤ i ∧ i + 1 < len
      · have hs := hset (i + 1) (by omega)
        rw [if_neg (by omega)] at hs
        rw [if_pos hin, if_pos (by omega)]
        exact hs
      · rw [if_neg hin, hset i hi]
        by_cases hip : i = p
        · rw [if_pos hip, if_pos (by omega), hip]
        · rw [if_neg hip, if_neg (by omega)]

theorem del_holds (h : Holds q l) (position : Nat) : Holds (q.del position) (l.eraseIdx position) := by
  have hs := h.size_eq
  have he := h.isEmpty_eq
  unfold del
  split
  · rename_i hout
    have hge : l.length ≤ position := by
      rcases hout with hht | hsz
      · have hnil : l.isEmpty = true := by rw [← he, isEmpty, hht, beq_self_eq_true]
        simp [List.isEmpty_iff.mp hnil]
      · omega
    rw [List.eraseIdx_of_length_le hge]
    exact h
  · rename_i hin
    have hp : position < l.length := by omega
    obtain ⟨hl, hh, ht⟩ := h.room.resolve_right fun hr => by simp [hr.2.1] at hp
    have hlen : (l.eraseIdx position).length = l.length - 1 := List.length_eraseIdx_of_lt hp
    have htail : q.tail < q.allocationSize := ht ▸ Nat.mod_lt _ (by omega)
    have hidx := index_eq hh position (by omega)
    have hat : (q.head + position) % q.allocationSize < q.allocationSize := Nat.mod_lt _ (by omega)
    obtain ⟨hdl, hdg⟩ := delLoop_spec q.head hl q.allocationSize position q.array h.length (by omega) hp
    simp only [hidx]
    rw [wrap_mod hat, Nat.mod_add_mod, ht]
    refine ⟨hdl, .inl ⟨by simp only []; omega, hh, ?_⟩, ?_⟩
    · show (if (q.head + l.length) % q.allocationSize = 0 then q.allocationSize - 1
        else (q.head + l.length) % q.allocationSize - 1) = _
      rw [show q.head + l.length = q.head + (l.length - 1) + 1 by omega, pred_mod (by omega), hlen]
    · intro i hi
      rw [hlen] at hi
      show (delLoop _ _ _ _ _ _).getD _ none = _
      rw [hdg i (by omega), List.getElem?_eraseIdx]
      by_cases hip : i < position
      · rw [if_neg (by omega), if_pos hip]
        exact h.items i (by omega)
      · rw [if_pos (by omega), if_neg hip]
        exact h.items (i + 1) (by omega)

theorem clear_holds (h : Holds q l) : Holds q.clear [] := by
  unfold clear
  split
  · rename_i h0
    rcases h.room with ⟨hl, -, -⟩ | ⟨-, -, hh, ht⟩
    · omega
    · exact ⟨h.length, .inr ⟨h0, rfl, hh, ht⟩, nofun⟩
  · rename_i h0
    split
    · exact ⟨rfl, .inr ⟨rfl, rfl, rfl, rfl⟩, nofun⟩
    · refine ⟨h.length, .inl ⟨by simp only [List.length_nil]; omega, by simp only []; omega, ?_⟩, nofun⟩
      simp

theorem lt_fit (size : Nat) : ∀ (fuel n : Nat), 0 < n → size < n + fuel → size < fit size fuel n := by
  intro fuel
  induction fuel with
  | zero => intro n _ h; exact h
  | succ fuel ih =>
    intro n hn h
    unfold fit
    split
    · exact ih (n * 2) (by omega) (by omega)
    · omega

theorem compress_holds (h : Holds q l) : Holds q.compress l := by
  unfold compress
  split
  · exact h
  · exact inOrder_holds h.size_eq (lt_fit q.size q.size 1 (by omega) (by omega)) h.items

theorem copied_holds (h : Holds q l) : Holds q.copied l := by
  have hc := inOrder_holds (n := q.size + 1) h.size_eq (by omega) h.items
  rwa [show q.size + 1 - q.size = 1 by omega] at hc

theorem copy_holds {x : α} (h : Holds q (x :: l)) : q.copy = some q.copied ∧ Holds q.copied (x :: l) := by
  have hne : q.size ≠ 0 := by simp [h.size_eq]
  exact ⟨if_neg hne, copied_holds h⟩

theorem clear_zero (h : Holds q l) : q.clear.head = 0 ∧ q.clear.tail = 0 := by
  unfold clear
  split
  · rename_i h0
    rcases h.room with ⟨hl, -, -⟩ | ⟨-, -, hz⟩
    · omega
    · exact hz
  · split <;> exact ⟨rfl, rfl⟩

theorem assign_holds {p : Queue α} {l' : List α} (hp : Holds p l') (h : Holds q l) : Holds (p.assign q) l := by
  unfold assign
  split
  · rename_i h0
    rw [h.size_eq] at h0
    rw [List.length_eq_zero_iff.mp h0]
    exact ⟨rfl, .inr ⟨rfl, rfl, clear_zero hp⟩, nofun⟩
  · exact copied_holds h

theorem findLoop_eq [DecidableEq α] (h : Holds q l) (h0 : q.allocationSize ≠ 0) (x : α) : ∀ (fuel i : Nat),
    i ≤ l.length → l.length - i < fuel → findLoop q x fuel ((q.head + i) % q.allocationSize) = decide (x ∈ l.drop i) := by
  obtain ⟨hl, hh, ht⟩ := h.room.resolve_right fun hr => h0 hr.1
  intro fuel
  induction fuel with
  | zero => intro i _ hf; omega
  | succ fuel ih =>
    intro i hi hf
    unfold findLoop
    rcases Nat.lt_or_ge i l.length with hlt | hge
    · have hne : (q.head + i) % q.allocationSize ≠ q.tail := by
        rw [ht]
        intro he
        have := mod_inj (by omega) hl he
        omega
      rw [if_neg hne, h.items i hlt, Nat.mod_add_mod, Nat.add_assoc, ih (i + 1) (by omega) (by omega),
        List.getElem?_eq_getElem hlt, List.drop_eq_getElem_cons hlt]
      by_cases he : x = l[i]
      · rw [if_pos (by rw [he])]
        exact (decide_eq_true (he ▸ List.mem_cons_self ..)).symm
      · rw [if_neg fun hc => he (Option.some.inj hc).symm]
        simp only [List.mem_cons, he, false_or]
    · have hil : i = l.length := by omega
      rw [hil, ← ht, if_pos rfl]
      simp

theorem find_eq [DecidableEq α] (h : Holds q l) (x : α) : q.find x = decide (x ∈ l) := by
  unfold find
  split
  · rename_i h0
    rcases h.room with ⟨hl, -, -⟩ | ⟨-, rfl, -, -⟩
    · omega
    · simp
  · rename_i h0
    obtain ⟨hl, hh, -⟩ := h.room.resolve_right fun hr => h0 hr.1
    have hf := findLoop_eq h h0 x q.allocationSize 0 (by omega) (by omega)
    rwa [Nat.add_zero, Nat.mod_eq_of_lt hh, List.drop_zero] at hf

/-! ## Runs -/

section

variable [DecidableEq α]

inductive Call (α : Type) where
  | push (x : α)
  | pushAtHead (x : α)
  | pop
  | peek
  | get (position : Nat)
  | del (position : Nat)
  | find (x : α)
  | size
  | isEmpty
  | clear
  | compress
  /-- Go on with a copy. -/
  | copy
  /-- Go on with a new queue that it is assigned to. -/
  | assign

inductive Answer (α : Type) where
  | void
  | item (x : Option α)
  | flag (b : Bool)
  | count (n : Nat)

/-- A call of the queue; `none` when it leaves the array. -/
def call (q : Queue α) : Call α → Option (Answer α × Queue α)
  | .push x => some (.void, q.push x)
  | .pushAtHead x => (q.pushAtHead x 0).map fun q => (.void, q)
  | .pop => some (.item q.pop.1, q.pop.2)
  | .peek => some (.item q.peek, q)
  | .get position => some (.item (q.get position), q)
  | .del position => some (.void, q.del position)
  | .find x => some (.flag (q.find x), q)
  | .size => some (.count q.size, q)
  | .isEmpty => some (.flag q.isEmpty, q)
  | .clear => some (.void, q.clear)
  | .compress => some (.void, q.compress)
  | .copy => q.copy.map fun q => (.void, q)
  | .assign => some (.void, empty.assign q)

/-- The same call of a list; `none` when it takes from an empty one, copies it, or asks behind
    its end. -/
def listCall (l : List α) : Call α → Option (Answer α × List α)
  | .push x => some (.void, l ++ [x])
  | .pushAtHead x => some (.void, x :: l)
  | .pop => l.head?.map fun x => (.item (some x), l.tail)
  | .peek => l.head?.map fun x => (.item (some x), l)
  | .get position => l[position]?.map fun x => (.item (some x), l)
  | .del position => some (.void, l.eraseIdx position)
  | .find x => some (.flag (decide (x ∈ l)), l)
  | .size => some (.count l.length, l)
  | .isEmpty => some (.flag l.isEmpty, l)
  | .clear => some (.void, [])
  | .compress => some (.void, l)
  | .copy => l.head?.map fun _ => (.void, l)
  | .assign => some (.void, l)

theorem call_refines {c : Call α} {a : Answer α} {l' : List α} (h : Holds q l) (hc : listCall l c = some (a, l')) :
    ∃ q', q.call c = some (a, q') ∧ Holds q' l' := by
  cases c with
  | push x =>
    cases hc
    exact ⟨_, rfl, push_holds h x⟩
  | pushAtHead x =>
    cases hc
    obtain ⟨hsome, hget⟩ := pushAtHead_spec h x (Nat.zero_le _)
    have hroom : q.allocationSize = 0 ∨
        (if q.head = 0 then q.allocationSize - 1 else q.head - 1) + 0 < q.allocationSize := by
      rcases h.room with ⟨hl, hh, -⟩ | ⟨h0, -⟩
      · refine .inr ?_
        split <;> omega
      · exact .inl h0
    obtain ⟨q', hq⟩ := Option.isSome_iff_exists.mp (hsome.mpr hroom)
    refine ⟨q', by simp [call, hq], ?_⟩
    simpa using hget q' hq
  | pop =>
    obtain ⟨x, hx, he⟩ := Option.map_eq_some_iff.mp hc
    cases he
    obtain ⟨l, rfl⟩ : ∃ t, l = x :: t := by
      cases l with
      | nil => cases hx
      | cons y t => cases hx; exact ⟨t, rfl⟩
    obtain ⟨hp, hq⟩ := pop_holds h
    exact ⟨_, by rw [call, hp], hq⟩
  | peek =>
    obtain ⟨x, hx, he⟩ := Option.map_eq_some_iff.mp hc
    cases he
    cases l with
    | nil => cases hx
    | cons y t =>
      cases hx
      exact ⟨_, by rw [call, peek_eq h], h⟩
  | get position =>
    obtain ⟨x, hx, he⟩ := Option.map_eq_some_iff.mp hc
    cases he
    obtain ⟨hlt, -⟩ := List.getElem?_eq_some_iff.mp hx
    exact ⟨_, by rw [call, get_eq h hlt, hx], h⟩
  | del position =>
    cases hc
    exact ⟨_, rfl, del_holds h position⟩
  | find x =>
    cases hc
    exact ⟨_, by rw [call, find_eq h], h⟩
  | size =>
    cases hc
    exact ⟨_, by rw [call, h.size_eq], h⟩
  | isEmpty =>
    cases hc
    exact ⟨_, by rw [call, h.isEmpty_eq], h⟩
  | clear =>
    cases hc
    exact ⟨_, rfl, clear_holds h⟩
  | compress =>
    cases hc
    exact ⟨_, rfl, compress_holds h⟩
  | copy =>
    obtain ⟨x, hx, he⟩ := Option.map_eq_some_iff.mp hc
    cases he
    cases l with
    | nil => cases hx
    | cons y t =>
      obtain ⟨hcopy, hq⟩ := copy_holds h
      exact ⟨_, by rw [call, hcopy, Option.map_some], hq⟩
  | assign =>
    cases hc
    exact ⟨_, rfl, assign_holds empty_holds h⟩

theorem pushAtHead_iff (cs : List (Call α)) {as as' : List (Answer α)} {l : List α} {q : Queue α}
    (h : Lib.Calls.run listCall [] cs = some (as, l)) (hq : Lib.Calls.run call empty cs = some (as', q)) (x : α) {index : Nat}
    (hi : index ≤ l.length) :
    ((q.pushAtHead x index).isSome = true ↔
      q.allocationSize = 0 ∨ (if q.head = 0 then q.allocationSize - 1 else q.head - 1) + index < q.allocationSize) ∧
      ∀ q', q.pushAtHead x index = some q' → Holds q' (l.take index ++ x :: l.drop index) := by
  obtain ⟨q₁, hq₁, hh⟩ := Lib.Calls.run_refines call_refines empty_holds h
  obtain rfl : q₁ = q := by
    rw [hq₁] at hq
    cases hq
    rfl
  exact pushAtHead_spec hh x hi

/-- Behind the first element of a new queue it writes over the end of the array. -/
theorem pushAtHead_iff_second : ∃ q, Lib.Calls.run call (empty : Queue Nat) [.push 1] = some ([.void], q) ∧
    ¬ (q.pushAtHead 2 1).isSome = true := by
  refine ⟨_, rfl, ?_⟩
  rw [(pushAtHead_iff [.push 1] rfl rfl 2 (show 1 ≤ 1 from le_rfl)).1]
  decide

end

end Queue

end RakHook
