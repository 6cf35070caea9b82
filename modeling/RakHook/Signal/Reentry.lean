/-
  RakHook.Signal.Reentry — `signal::call` with callbacks that use the signal they are on.

  `call` keeps an iterator into `functions_` while user code runs. What that code may do
  is one `Action` after another: register a callback, call the signal again, return. A
  `push_back` beyond the capacity moves the buffer and `erase` invalidates what is at or
  behind it; `valid` follows both, and `fault` is set where the loop uses an iterator that
  is not. Entries carry the number of their registration, so that a run can be counted.

  No `erase` ever hits an iterator of another call on the stack: in front of and at such an
  iterator there is no empty entry. Moving the buffer does, and the loop notices only if
  the callback returns true. `moved`, a ghost, says that the buffer moved while the
  callback of a frame was running.
-/

import RakHook.Lib.Run

namespace RakHook.Signal.Reentry

open Lib

/-- A `call` whose callback at `it` is running. -/
structure Frame where
  it : Nat
  valid : Bool
  moved : Bool
  deriving DecidableEq, Repr

/-- `frames` is innermost first; `log` are the callbacks the outermost call has run, and
    `result` is what it returned. -/
structure St where
  functions : List (Option Nat)
  capacity : Nat
  registered : Nat
  frames : List Frame
  log : List Nat
  result : Option Bool
  fault : Bool
  deriving DecidableEq, Repr

/-- What a callback does; one that returns nothing ends with `.ret true`. Assigning the signal and
    leaving it by an exception are not among it. -/
inductive Action where
  | pushBack (nonEmpty : Bool)
  | call
  | ret (value : Bool)
  deriving DecidableEq, Repr

/-- `functions_.erase` at `q`: the iterators of the calls on the stack. -/
def St.erase (s : St) (q : Nat) : St :=
  { s with
    functions := s.functions.eraseIdx q
    frames := s.frames.map fun fr => { fr with valid := fr.valid && decide (fr.it < q) } }

/-- `functions_.emplace_back`; `grow n` is how many entries more than needed a vector of
    `n` reserves when it grows. -/
def St.pushBack (grow : Nat → Nat) (s : St) (nonEmpty : Bool) : St :=
  let full := s.functions.length = s.capacity
  { s with
    functions := s.functions ++ [if nonEmpty then some s.registered else none]
    capacity := if full then s.capacity + 1 + grow s.capacity else s.capacity
    registered := s.registered + 1
    frames := if full then s.frames.map fun fr => { fr with valid := false, moved := true } else s.frames }

def St.leave (s : St) (value : Bool) : St := if s.frames = [] then { s with result := some value } else s

/-- The loop of `call` with a valid iterator at `it`, in front of the entries given: to the
    end or into the next callback. -/
def loop (it : Nat) : List (Option Nat) → St → St
  | [], s => s.leave true
  | none :: rest, s => loop it rest (s.erase it)
  | some f :: _, s =>
    { s with frames := ⟨it, true, false⟩ :: s.frames, log := if s.frames = [] then s.log ++ [f] else s.log }

def enter (it : Nat) (s : St) : St := loop it (s.functions.drop it) s

/-- What the running callback does next. -/
def step (grow : Nat → Nat) (s : St) (a : Action) : St :=
  match s.frames with
  | [] => s
  | fr :: frames =>
    if s.fault then s
    else
      match a with
      | .pushBack nonEmpty => s.pushBack grow nonEmpty
      | .call => enter 0 s
      | .ret value =>
        let s := { s with frames := frames }
        if value then if fr.valid then enter (fr.it + 1) s else { s with fault := true }
        else s.leave false

/-- The entries of registrations numbered from `n` on; an empty `std::function` is `false`. -/
def entriesFrom : (n : Nat) → List Bool → List (Option Nat)
  | _, [] => []
  | n, b :: nonEmpty => (if b then some n else none) :: entriesFrom (n + 1) nonEmpty

def entries (nonEmpty : List Bool) : List (Option Nat) := entriesFrom 0 nonEmpty

def start (nonEmpty : List Bool) (spare : Nat) : St :=
  enter 0
    { functions := entries nonEmpty, capacity := nonEmpty.length + spare, registered := nonEmpty.length, frames := [],
      log := [], result := none, fault := false }

/-! ## The law -/

/-- Once the outermost call has returned, it has run every callback that was registered
    before exactly once, unless an earlier one vetoed it. -/
def OnceEach (nonEmpty : List Bool) (s : St) : Prop :=
  ∀ value, s.result = some value → ∀ i, nonEmpty[i]? = some true →
    s.log.count i = 1 ∨ value = false ∧ s.log.count i = 0 ∧ ∃ j, j < i ∧ s.log.getLast? = some j

/-- The state a step leads to. -/
def Sane (grow : Nat → Nat) (nonEmpty : List Bool) (s : St) (a : Action) : Prop :=
  (step grow s a).fault = false ∧ OnceEach nonEmpty (step grow s a)

/-- The callback returns true after the buffer moved under it. -/
def PassesMoved (s : St) (a : Action) : Prop := a = .ret true ∧ ∃ fr frames, s.frames = fr :: frames ∧ fr.moved = true

/-! ## Invariant -/

/-- No empty entry among the first `n`. -/
def FilledTo (fs : List (Option Nat)) (n : Nat) : Prop := ∀ q < n, ∃ f, fs[q]? = some (some f)

/-- The registered callbacks in order of registration, those of before the call first. -/
structure Ordered (nonEmpty : List Bool) (s : St) : Prop where
  ids : ∃ pushed, s.functions.filterMap id = (entries nonEmpty).filterMap id ++ pushed
  sorted : (s.functions.filterMap id).Pairwise (· < ·)
  below : ∀ f ∈ s.functions.filterMap id, f < s.registered

/-- A call on the stack: only a moved buffer has invalidated its iterator. -/
structure Frame.Ok (fs : List (Option Nat)) (fr : Frame) : Prop where
  valid : fr.valid = !fr.moved
  filled : FilledTo fs (fr.it + 1)

/-- What the outermost call has run: `n` is how far it got. -/
def Logged (s : St) (n : Nat) : Prop := s.log = (s.functions.take n).filterMap id

structure Inv (nonEmpty : List Bool) (s : St) : Prop where
  ordered : Ordered nonEmpty s
  frames : ∀ fr ∈ s.frames, fr.Ok s.functions
  outer : ∀ fr, s.frames.getLast? = some fr → Logged s (fr.it + 1) ∧ s.result = none
  done : OnceEach nonEmpty s
  fault : s.fault = false

/-- The state in the loop of a call at `it`. -/
structure Looping (nonEmpty : List Bool) (it : Nat) (s : St) : Prop where
  ordered : Ordered nonEmpty s
  frames : ∀ fr ∈ s.frames, fr.Ok s.functions
  filled : FilledTo s.functions it
  outer : ∀ fr, s.frames.getLast? = some fr → Logged s (fr.it + 1)
  self : s.frames = [] → Logged s it
  result : s.result = none
  fault : s.fault = false

/-! ## Lists with empty entries -/

theorem filterMap_eraseIdx {fs : List (Option Nat)} {q : Nat} (h : fs[q]? = some none) :
    (fs.eraseIdx q).filterMap id = fs.filterMap id := by
  induction fs generalizing q with
  | nil => cases h
  | cons f fs ih =>
    cases q with
    | zero =>
      obtain rfl : f = none := by simpa using h
      rfl
    | succ q =>
      have hrest := ih (show fs[q]? = some none by simpa using h)
      cases f with
      | none => exact hrest
      | some f => exact congrArg (f :: ·) hrest

theorem take_eraseIdx {fs : List (Option Nat)} {q n : Nat} (h : n ≤ q) : (fs.eraseIdx q).take n = fs.take n := by
  apply List.ext_getElem?
  intro i
  rw [List.getElem?_take, List.getElem?_take]
  split
  · exact List.getElem?_eraseIdx_of_lt (by omega)
  · rfl

theorem filledTo_eraseIdx {fs : List (Option Nat)} {q n : Nat} (hf : FilledTo fs n) (h : n ≤ q) :
    FilledTo (fs.eraseIdx q) n := by
  intro i hi
  rw [List.getElem?_eraseIdx_of_lt (by omega)]
  exact hf i hi

theorem filledTo_append {fs : List (Option Nat)} {n : Nat} (hf : FilledTo fs n) (f : Option Nat) :
    FilledTo (fs ++ [f]) n := by
  intro i hi
  obtain ⟨x, hx⟩ := hf i hi
  exact ⟨x, by rw [List.getElem?_append_left (List.getElem?_eq_some_iff.mp hx).1]; exact hx⟩

theorem filledTo_le {fs : List (Option Nat)} {n : Nat} (hf : FilledTo fs n) : n ≤ fs.length := by
  apply Nat.le_of_not_lt
  intro hlt
  obtain ⟨x, hx⟩ := hf fs.length hlt
  simp at hx

theorem le_of_empty {fs : List (Option Nat)} {q n : Nat} (hf : FilledTo fs n) (hq : fs[q]? = some none) : n ≤ q := by
  apply Nat.le_of_not_lt
  intro hlt
  obtain ⟨x, hx⟩ := hf q hlt
  rw [hq] at hx
  cases hx

theorem filledTo_succ {fs : List (Option Nat)} {n f : Nat} (hf : FilledTo fs n) (hn : fs[n]? = some (some f)) :
    FilledTo fs (n + 1) := by
  intro i hi
  by_cases e : i = n
  · exact ⟨f, by rw [e]; exact hn⟩
  · exact hf i (by omega)

theorem take_succ_filterMap {fs : List (Option Nat)} {n f : Nat} (hn : fs[n]? = some (some f)) :
    (fs.take (n + 1)).filterMap id = (fs.take n).filterMap id ++ [f] := by
  rw [List.take_add_one, hn, List.filterMap_append]
  rfl

/-! ## Registrations -/

theorem mem_entriesFrom {nonEmpty : List Bool} {n i : Nat} (h : nonEmpty[i]? = some true) :
    n + i ∈ (entriesFrom n nonEmpty).filterMap id := by
  induction nonEmpty generalizing n i with
  | nil => cases h
  | cons b nonEmpty ih =>
    cases i with
    | zero =>
      obtain rfl : b = true := by simpa using h
      simp [entriesFrom]
    | succ i =>
      have := ih (n := n + 1) (show nonEmpty[i]? = some true by simpa using h)
      rw [show n + (i + 1) = n + 1 + i by omega]
      cases b
      · simpa [entriesFrom] using this
      · simp only [entriesFrom, if_true, List.filterMap_cons, id]
        exact List.mem_cons_of_mem _ this

theorem entriesFrom_ordered (n : Nat) (nonEmpty : List Bool) :
    ((entriesFrom n nonEmpty).filterMap id).Pairwise (· < ·) ∧
      ∀ f ∈ (entriesFrom n nonEmpty).filterMap id, n ≤ f ∧ f < n + nonEmpty.length := by
  induction nonEmpty generalizing n with
  | nil => exact ⟨.nil, nofun⟩
  | cons b nonEmpty ih =>
    obtain ⟨hs, hb⟩ := ih (n + 1)
    have hb' : ∀ f ∈ (entriesFrom (n + 1) nonEmpty).filterMap id, n < f ∧ f < n + (nonEmpty.length + 1) := fun f hf => by
      have := hb f hf
      omega
    cases b with
    | false =>
      simp only [entriesFrom, Bool.false_eq_true, if_false, List.filterMap_cons, id, List.length_cons]
      exact ⟨hs, fun f hf => ⟨Nat.le_of_lt (hb' f hf).1, (hb' f hf).2⟩⟩
    | true =>
      simp only [entriesFrom, if_true, List.filterMap_cons, id, List.length_cons]
      refine ⟨List.pairwise_cons.mpr ⟨fun f hf => (hb' f hf).1, hs⟩, ?_⟩
      intro f hf
      rcases List.mem_cons.mp hf with rfl | hf
      · omega
      · exact ⟨Nat.le_of_lt (hb' f hf).1, (hb' f hf).2⟩

/-! ## Counting -/

theorem count_of_sorted {l : List Nat} (h : l.Pairwise (· < ·)) {i : Nat} (hi : i ∈ l) : l.count i = 1 := by
  have hnodup : l.Nodup := h.imp Nat.ne_of_lt
  rw [hnodup.count, if_pos hi]

theorem once_all {nonEmpty : List Bool} {s : St} (ho : Ordered nonEmpty s) (hlog : s.log = s.functions.filterMap id)
    {i : Nat} (hi : nonEmpty[i]? = some true) : s.log.count i = 1 := by
  obtain ⟨pushed, hids⟩ := ho.ids
  have hmem := mem_entriesFrom (n := 0) hi
  rw [Nat.zero_add] at hmem
  rw [hlog]
  exact count_of_sorted ho.sorted (by rw [hids]; exact List.mem_append_left _ hmem)

/-- A log that stopped at entry `n`, whose callback vetoed. -/
theorem once_veto {nonEmpty : List Bool} {s : St} (ho : Ordered nonEmpty s) {n : Nat} (hf : FilledTo s.functions (n + 1))
    (hlog : Logged s (n + 1)) {i : Nat} (hi : nonEmpty[i]? = some true) :
    s.log.count i = 1 ∨ s.log.count i = 0 ∧ ∃ j, j < i ∧ s.log.getLast? = some j := by
  obtain ⟨pushed, hids⟩ := ho.ids
  have hmem := mem_entriesFrom (n := 0) hi
  rw [Nat.zero_add] at hmem
  obtain ⟨f, hn⟩ := hf n (Nat.lt_succ_self n)
  have hlast : s.log = (s.functions.take n).filterMap id ++ [f] := by rw [hlog, take_succ_filterMap hn]
  have hsplit : s.functions.filterMap id = s.log ++ (s.functions.drop (n + 1)).filterMap id := by
    rw [hlog, ← List.filterMap_append, List.take_append_drop]
  have hsorted := ho.sorted
  have hin : i ∈ s.functions.filterMap id := by rw [hids]; exact List.mem_append_left _ hmem
  rw [hsplit] at hsorted hin
  obtain ⟨h1, -, h12⟩ := List.pairwise_append.mp hsorted
  rcases List.mem_append.mp hin with hlogged | hrest
  · exact .inl (count_of_sorted h1 hlogged)
  · have hnot : i ∉ s.log := fun hm => Nat.lt_irrefl i (h12 i hm i hrest)
    refine .inr ⟨List.count_eq_zero.mpr hnot, f, h12 f (by rw [hlast]; simp) i hrest, by rw [hlast]; simp⟩

/-! ## What the loop keeps -/

variable {nonEmpty : List Bool}

theorem Looping.erase {it : Nat} {s : St} (h : Looping nonEmpty it s) (hq : s.functions[it]? = some none) :
    Looping nonEmpty it (s.erase it) := by
  have hids : (s.erase it).functions.filterMap id = s.functions.filterMap id := filterMap_eraseIdx hq
  -- every call on the stack stands in front of the empty entry
  have hframe : ∀ fr ∈ s.frames, fr.it < it := fun fr hfr => le_of_empty (h.frames fr hfr).filled hq
  have hframes : (s.erase it).frames = s.frames := by
    refine (List.map_congr_left ?_).trans (List.map_id s.frames)
    intro fr hfr
    rw [decide_eq_true (hframe fr hfr), Bool.and_true]
    rfl
  have hlogged : ∀ n ≤ it, Logged s n → Logged (s.erase it) n := fun n hn hl => by
    unfold Logged
    rw [show (s.erase it).log = s.log from rfl,
      show (s.erase it).functions.take n = s.functions.take n from take_eraseIdx hn]
    exact hl
  refine ⟨⟨?_, ?_, ?_⟩, ?_, filledTo_eraseIdx h.filled (Nat.le_refl it), ?_, ?_, h.result, h.fault⟩
  · rw [hids]; exact h.ordered.ids
  · rw [hids]; exact h.ordered.sorted
  · rw [hids]; exact h.ordered.below
  · rw [hframes]
    exact fun fr hfr => ⟨(h.frames fr hfr).valid, filledTo_eraseIdx (h.frames fr hfr).filled (hframe fr hfr)⟩
  · rw [hframes]
    exact fun fr hfr => hlogged _ (hframe fr (List.mem_of_getLast? hfr)) (h.outer fr hfr)
  · rw [hframes]
    exact fun hnil => hlogged it (Nat.le_refl it) (h.self hnil)

theorem loop_inv {it : Nat} : ∀ (rest : List (Option Nat)) {s : St}, Looping nonEmpty it s → s.functions.drop it = rest →
    Inv nonEmpty (loop it rest s) := by
  intro rest
  induction rest with
  | nil =>
    intro s h hrest
    have hend : s.functions.length ≤ it := List.drop_eq_nil_iff.mp hrest
    unfold loop St.leave
    by_cases hnil : s.frames = []
    · rw [if_pos hnil]
      refine ⟨⟨h.ordered.ids, h.ordered.sorted, h.ordered.below⟩, h.frames, ?_, ?_, h.fault⟩
      · intro fr hfr
        simp [hnil] at hfr
      · intro value _ i hi
        have hlog : s.log = s.functions.filterMap id := by
          have := h.self hnil
          unfold Logged at this
          rwa [List.take_of_length_le hend] at this
        exact .inl (once_all h.ordered hlog hi)
    · rw [if_neg hnil]
      refine ⟨h.ordered, h.frames, fun fr hfr => ⟨h.outer fr hfr, h.result⟩, ?_, h.fault⟩
      intro value hv
      rw [h.result] at hv
      cases hv
  | cons f rest ih =>
    intro s h hrest
    have hit : s.functions[it]? = some f := by
      have := congrArg List.head? hrest
      rwa [List.head?_drop] at this
    have htail : s.functions.drop (it + 1) = rest := by
      have := congrArg List.tail hrest
      rwa [List.tail_drop] at this
    cases f with
    | none =>
      refine ih (h.erase hit) ?_
      show (s.functions.eraseIdx it).drop it = rest
      have hlt := (List.getElem?_eq_some_iff.mp hit).1
      rw [List.eraseIdx_eq_take_drop_succ, List.drop_append_of_le_length (by rw [List.length_take]; omega),
        List.drop_of_length_le (by rw [List.length_take]; omega), List.nil_append, htail]
    | some f =>
      have hfilled : FilledTo s.functions (it + 1) := filledTo_succ h.filled hit
      unfold loop
      refine ⟨⟨h.ordered.ids, h.ordered.sorted, h.ordered.below⟩, ?_, ?_, ?_, h.fault⟩
      · intro fr hfr
        rcases List.mem_cons.mp hfr with rfl | hfr
        · exact ⟨rfl, hfilled⟩
        · exact h.frames fr hfr
      · intro fr hfr
        refine ⟨?_, h.result⟩
        by_cases hnil : s.frames = []
        · -- this call is the outermost one
          rw [hnil] at hfr
          cases hfr
          show (if s.frames = [] then s.log ++ [f] else s.log) = (s.functions.take (it + 1)).filterMap id
          rw [if_pos hnil, take_succ_filterMap hit, ← h.self hnil]
        · have hlast : s.frames.getLast? = some fr := by
            rw [← hfr]
            exact (List.getLast?_cons_of_ne_nil hnil).symm
          show (if s.frames = [] then s.log ++ [f] else s.log) = (s.functions.take (fr.it + 1)).filterMap id
          rw [if_neg hnil]
          exact h.outer fr hlast
      · intro value hv
        rw [show s.result = none from h.result] at hv
        cases hv

theorem enter_inv {it : Nat} {s : St} (h : Looping nonEmpty it s) : Inv nonEmpty (enter it s) := loop_inv _ h rfl

theorem start_inv (nonEmpty : List Bool) (spare : Nat) : Inv nonEmpty (start nonEmpty spare) := by
  obtain ⟨hs, hb⟩ := entriesFrom_ordered 0 nonEmpty
  refine enter_inv ⟨⟨⟨[], (List.append_nil _).symm⟩, hs, ?_⟩, nofun, nofun, nofun, fun _ => rfl, rfl, rfl⟩
  intro f hf
  have := (hb f hf).2
  rwa [Nat.zero_add] at this

/-! ## What a step keeps -/

theorem pushBack_inv (grow : Nat → Nat) {s : St} (h : Inv nonEmpty s) (b : Bool) : Inv nonEmpty (s.pushBack grow b) := by
  have hids : (s.pushBack grow b).functions.filterMap id =
      s.functions.filterMap id ++ (if b then [s.registered] else []) := by
    unfold St.pushBack
    rw [List.filterMap_append]
    cases b <;> rfl
  have hframes : ∀ fr' ∈ (s.pushBack grow b).frames, ∃ fr ∈ s.frames, fr'.it = fr.it ∧
      (fr' = fr ∨ fr'.valid = false ∧ fr'.moved = true) := by
    intro fr' hfr'
    unfold St.pushBack at hfr'
    dsimp only at hfr'
    split at hfr'
    · obtain ⟨fr, hfr, rfl⟩ := List.mem_map.mp hfr'
      exact ⟨fr, hfr, rfl, .inr ⟨rfl, rfl⟩⟩
    · exact ⟨fr', hfr', rfl, .inl rfl⟩
  have hlast : ∀ fr', (s.pushBack grow b).frames.getLast? = some fr' → ∃ fr,
      s.frames.getLast? = some fr ∧ fr'.it = fr.it := by
    intro fr' hfr'
    unfold St.pushBack at hfr'
    dsimp only at hfr'
    split at hfr'
    · rw [List.getLast?_map, Option.map_eq_some_iff] at hfr'
      obtain ⟨fr, hfr, rfl⟩ := hfr'
      exact ⟨fr, hfr, rfl⟩
    · exact ⟨fr', hfr', rfl⟩
  refine ⟨⟨?_, ?_, ?_⟩, ?_, ?_, h.done, h.fault⟩
  · obtain ⟨pushed, hp⟩ := h.ordered.ids
    exact ⟨pushed ++ (if b then [s.registered] else []), by rw [hids, hp, List.append_assoc]⟩
  · rw [hids]
    refine List.pairwise_append.mpr ⟨h.ordered.sorted, by cases b <;> simp, ?_⟩
    intro f hf g hg
    cases b with
    | false => cases hg
    | true =>
      rw [List.mem_singleton.mp hg]
      exact h.ordered.below f hf
  · rw [hids]
    intro f hf
    show f < s.registered + 1
    rcases List.mem_append.mp hf with hf | hf
    · exact Nat.lt_succ_of_lt (h.ordered.below f hf)
    · cases b with
      | false => cases hf
      | true => rw [List.mem_singleton.mp hf]; exact Nat.lt_succ_self _
  · intro fr' hfr'
    obtain ⟨fr, hfr, hit, hor⟩ := hframes fr' hfr'
    refine ⟨?_, ?_⟩
    · rcases hor with rfl | ⟨hv, hm⟩
      · exact (h.frames fr' hfr).valid
      · rw [hv, hm]; rfl
    · rw [hit]
      exact filledTo_append (h.frames fr hfr).filled _
  · intro fr' hfr'
    obtain ⟨fr, hfr, hit⟩ := hlast fr' hfr'
    obtain ⟨hl, hr⟩ := h.outer fr hfr
    refine ⟨?_, hr⟩
    have hle := filledTo_le (h.frames fr (List.mem_of_getLast? hfr)).filled
    show s.log = ((s.functions ++ [_]).take (fr'.it + 1)).filterMap id
    rw [hit, List.take_append_of_le_length hle]
    exact hl

theorem pop_outer {s : St} (h : Inv nonEmpty s) {fr : Frame} {frames : List Frame} (hfr : s.frames = fr :: frames) :
    s.result = none ∧ (∀ fr', frames.getLast? = some fr' → Logged s (fr'.it + 1)) ∧
      (frames = [] → Logged s (fr.it + 1)) := by
  have hne : (fr :: frames).getLast? ≠ none := by simp
  obtain ⟨last, hlast⟩ := Option.ne_none_iff_exists'.mp hne
  refine ⟨(h.outer last (by rw [hfr]; exact hlast)).2, fun fr' hfr' => (h.outer fr' ?_).1, fun hnil => (h.outer fr ?_).1⟩
  · have hframes : frames ≠ [] := by rintro rfl; cases hfr'
    rw [hfr, List.getLast?_cons_of_ne_nil hframes, hfr']
  · rw [hfr, hnil]
    rfl

theorem step_inv (grow : Nat → Nat) {s : St} (h : Inv nonEmpty s) {a : Action} (ha : ¬ PassesMoved s a) :
    Inv nonEmpty (step grow s a) := by
  rcases hfr : s.frames with _ | ⟨fr, frames⟩
  · unfold step
    simp only [hfr]
    exact h
  obtain ⟨hresult, houter, hself⟩ := pop_outer h hfr
  have hok : fr.Ok s.functions := h.frames fr (by rw [hfr]; exact List.mem_cons_self ..)
  have hframes : ∀ fr' ∈ frames, fr'.Ok s.functions := fun fr' hm =>
    h.frames fr' (by rw [hfr]; exact List.mem_cons_of_mem _ hm)
  unfold step
  simp only [hfr, h.fault, Bool.false_eq_true, if_false]
  cases a with
  | pushBack b => exact pushBack_inv grow h b
  | call =>
    refine enter_inv ⟨h.ordered, h.frames, nofun, fun fr' hl => (h.outer fr' hl).1, ?_, hresult, h.fault⟩
    intro hnil
    rw [hfr] at hnil
    cases hnil
  | ret value =>
    cases value with
    | true =>
      have hvalid : fr.valid = true := by
        rw [hok.valid, Bool.not_eq_true']
        exact Bool.eq_false_iff.mpr fun hm => ha ⟨rfl, fr, frames, hfr, hm⟩
      simp only [if_true, hvalid]
      exact enter_inv ⟨⟨h.ordered.ids, h.ordered.sorted, h.ordered.below⟩, hframes, hok.filled, houter, hself,
        hresult, rfl⟩
    | false =>
      simp only [Bool.false_eq_true, if_false, St.leave]
      by_cases hnil : frames = []
      · rw [if_pos hnil]
        refine ⟨⟨h.ordered.ids, h.ordered.sorted, h.ordered.below⟩, hframes, ?_, ?_, rfl⟩
        · intro fr' hl
          simp [hnil] at hl
        · intro value hv i hi
          cases hv
          rcases once_veto h.ordered hok.filled (hself hnil) hi with h1 | h0
          · exact .inl h1
          · exact .inr ⟨rfl, h0⟩
      · rw [if_neg hnil]
        refine ⟨⟨h.ordered.ids, h.ordered.sorted, h.ordered.below⟩, hframes, fun fr' hl => ⟨houter fr' hl, hresult⟩,
          ?_, rfl⟩
        intro value hv
        rw [show s.result = none from hresult] at hv
        cases hv

theorem sane_iff (grow : Nat → Nat) {s : St} (h : Inv nonEmpty s) (a : Action) :
    Sane grow nonEmpty s a ↔ ¬ PassesMoved s a := by
  refine ⟨?_, ?_⟩
  · intro hs hp
    obtain ⟨rfl, fr, frames, hfr, hm⟩ := hp
    have hvalid : fr.valid = false := by
      rw [(h.frames fr (by rw [hfr]; exact List.mem_cons_self ..)).valid, hm]
      rfl
    have hfault : (step grow s (.ret true)).fault = true := by
      unfold step
      simp only [hfr, h.fault, Bool.false_eq_true, if_false, if_true, hvalid]
    exact Bool.noConfusion (hs.1.symm.trans hfault)
  · intro ha
    have hi := step_inv grow h ha
    exact ⟨hi.fault, hi.done⟩

/-- Whatever the callbacks do, dispatch is sane exactly as long as none of them returns
    true after the buffer moved while it ran. -/
theorem dispatch_iff (grow : Nat → Nat) (nonEmpty : List Bool) (spare : Nat) (actions : List Action) :
    Along (step grow) (Sane grow nonEmpty) actions (start nonEmpty spare) ↔
      Along (step grow) (fun s a => ¬ PassesMoved s a) actions (start nonEmpty spare) :=
  Along.iff_of_inv (fun _ _ h ha => step_inv grow h ha) (fun _ a h => sane_iff grow h a) actions
    (start_inv nonEmpty spare)

/-- One callback in a full vector registers another and returns true. -/
theorem push_back_moves :
    ¬ Along (step fun n => n) (Sane (fun n => n) [true]) [.pushBack true, .ret true] (start [true] 0) := by
  rintro ⟨-, ⟨h, -⟩, -⟩
  revert h
  decide

end RakHook.Signal.Reentry
