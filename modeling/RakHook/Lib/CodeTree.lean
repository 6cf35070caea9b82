/-
  RakHook.Lib.CodeTree — binary code trees: each leaf is a symbol, the way down to it (0 is
  left, 1 is right) is its word.

  No word is a prefix of another, so a walk down the tree that starts over at every leaf
  decodes: whatever bits stand behind a sequence of whole words, the symbols of these
  words come out, and a string that breaks off inside a word adds nothing (`decode_take`,
  `decode_inside`). A tree of more than 2^n leaves has a word longer than n, and none has
  a word as long as it has leaves. The words satisfy Kraft's inequality with equality.
-/

import Mathlib.Data.List.Nodup
import Mathlib.Data.Real.Basic
import Mathlib.InformationTheory.Coding.UniquelyDecodable
import Mathlib.Tactic.Ring

namespace RakHook.Lib

inductive CodeTree (α : Type) where
  | leaf (a : α)
  | node (left right : CodeTree α)
  deriving DecidableEq, Repr

namespace CodeTree

variable {α : Type}

/-- The words with their symbols, from left to right. -/
def words : CodeTree α → List (List Bool × α)
  | leaf a => [([], a)]
  | node l r => (words l).map (fun x => (false :: x.1, x.2)) ++ (words r).map fun x => (true :: x.1, x.2)

def leaves : CodeTree α → List α
  | leaf a => [a]
  | node l r => leaves l ++ leaves r

/-- Where a bit leads. -/
def child : CodeTree α → Bool → Option (CodeTree α)
  | leaf _, _ => none
  | node l r, b => some (if b then r else l)

/-- The symbols that come out of `bs` from `c` on, down the tree `t`. -/
def decodeFrom (t : CodeTree α) : CodeTree α → List Bool → List α
  | _, [] => []
  | c, b :: bs =>
    match c.child b with
    | none => []
    | some (leaf a) => a :: decodeFrom t t bs
    | some (node l r) => decodeFrom t (node l r) bs

def decode (t : CodeTree α) (bs : List Bool) : List α := decodeFrom t t bs

/-! ## Words -/

theorem words_symbols (t : CodeTree α) : t.words.map (·.2) = t.leaves := by
  induction t with
  | leaf a => rfl
  | node l r ihl ihr => simp [words, leaves, Function.comp_def, ← ihl, ← ihr]

theorem exists_word {t : CodeTree α} {a : α} (h : a ∈ t.leaves) : ∃ w, (w, a) ∈ t.words := by
  rw [← words_symbols] at h
  obtain ⟨⟨w, b⟩, hx, rfl⟩ := List.mem_map.mp h
  exact ⟨w, hx⟩

theorem word_unique {t : CodeTree α} (hd : t.leaves.Nodup) {w w' : List Bool} {a : α} (h : (w, a) ∈ t.words)
    (h' : (w', a) ∈ t.words) : w = w' := by
  rw [← words_symbols] at hd
  exact (Prod.mk.inj (List.inj_on_of_nodup_map hd h h' rfl)).1

/-- The word of a symbol. -/
def word [DecidableEq α] (t : CodeTree α) (a : α) : List Bool := ((t.words.find? (·.2 = a)).map (·.1)).getD []

theorem word_mem [DecidableEq α] {t : CodeTree α} {a : α} (h : a ∈ t.leaves) : (t.word a, a) ∈ t.words := by
  obtain ⟨w, hw⟩ := exists_word h
  unfold word
  cases hf : t.words.find? (·.2 = a) with
  | none =>
    have hne := List.find?_eq_none.mp hf _ hw
    simp at hne
  | some x =>
    obtain rfl : x.2 = a := by simpa using List.find?_some hf
    exact List.mem_of_find?_eq_some hf

theorem mem_words_node {l r : CodeTree α} {w : List Bool} {a : α} :
    (w, a) ∈ (node l r).words ↔ (∃ v, w = false :: v ∧ (v, a) ∈ l.words) ∨ ∃ v, w = true :: v ∧ (v, a) ∈ r.words := by
  simp only [words, List.mem_append, List.mem_map, Prod.mk.injEq, Prod.exists]
  refine or_congr ⟨?_, ?_⟩ ⟨?_, ?_⟩
  · rintro ⟨v, a', hv, rfl, rfl⟩
    exact ⟨v, rfl, hv⟩
  · rintro ⟨v, rfl, hv⟩
    exact ⟨v, a, hv, rfl, rfl⟩
  · rintro ⟨v, a', hv, rfl, rfl⟩
    exact ⟨v, rfl, hv⟩
  · rintro ⟨v, rfl, hv⟩
    exact ⟨v, a, hv, rfl, rfl⟩

theorem word_leaf {a b : α} {w : List Bool} (h : (w, b) ∈ (leaf a).words) : w = [] ∧ b = a := by
  simpa [words] using h

theorem word_ne_nil {l r : CodeTree α} {w : List Bool} {a : α} (h : (w, a) ∈ (node l r).words) : w ≠ [] := by
  rcases mem_words_node.mp h with ⟨v, rfl, -⟩ | ⟨v, rfl, -⟩
  · simp
  · simp

/-- No word is a prefix of another. -/
theorem words_prefixFree {t : CodeTree α} : ∀ {w w' : List Bool} {a a' : α}, (w, a) ∈ t.words → (w', a') ∈ t.words →
    w <+: w' → w = w' ∧ a = a' := by
  induction t with
  | leaf b =>
    intro w w' a a' h h' _
    obtain ⟨rfl, rfl⟩ := word_leaf h
    obtain ⟨rfl, rfl⟩ := word_leaf h'
    exact ⟨rfl, rfl⟩
  | node l r ihl ihr =>
    intro w w' a a' h h' hp
    rcases mem_words_node.mp h with ⟨v, rfl, hv⟩ | ⟨v, rfl, hv⟩
    · rcases mem_words_node.mp h' with ⟨v', rfl, hv'⟩ | ⟨v', rfl, hv'⟩
      · obtain ⟨rfl, rfl⟩ := ihl hv hv' (List.cons_prefix_cons.mp hp).2
        exact ⟨rfl, rfl⟩
      · simp at hp
    · rcases mem_words_node.mp h' with ⟨v', rfl, hv'⟩ | ⟨v', rfl, hv'⟩
      · simp at hp
      · obtain ⟨rfl, rfl⟩ := ihr hv hv' (List.cons_prefix_cons.mp hp).2
        exact ⟨rfl, rfl⟩

/-! ## Decoding -/

theorem decodeFrom_leaf_child {t c : CodeTree α} {b : Bool} {a : α} (h : c.child b = some (leaf a)) (bs : List Bool) :
    decodeFrom t c (b :: bs) = a :: decode t bs := by
  rw [decodeFrom, h]
  rfl

theorem decodeFrom_node_child {t c l r : CodeTree α} {b : Bool} (h : c.child b = some (node l r)) (bs : List Bool) :
    decodeFrom t c (b :: bs) = decodeFrom t (node l r) bs := by
  rw [decodeFrom, h]

theorem decodeFrom_word {t : CodeTree α} (rest : List Bool) : ∀ {c : CodeTree α} {w : List Bool} {a : α},
    (w, a) ∈ c.words → w ≠ [] → decodeFrom t c (w ++ rest) = a :: decode t rest := by
  intro c
  induction c with
  | leaf b =>
    intro w a h hne
    exact absurd (word_leaf h).1 hne
  | node l r ihl ihr =>
    intro w a h _
    have hstep : ∀ (b : Bool) (s : CodeTree α) (v : List Bool), (node l r).child b = some s → (v, a) ∈ s.words →
        (∀ {w : List Bool} {a : α}, (w, a) ∈ s.words → w ≠ [] → decodeFrom t s (w ++ rest) = a :: decode t rest) →
        decodeFrom t (node l r) (b :: (v ++ rest)) = a :: decode t rest := by
      intro b s v hs hv ih
      cases s with
      | leaf a' =>
        obtain ⟨rfl, rfl⟩ := word_leaf hv
        exact decodeFrom_leaf_child hs rest
      | node l' r' =>
        rw [decodeFrom_node_child hs]
        exact ih hv (word_ne_nil hv)
    rcases mem_words_node.mp h with ⟨v, rfl, hv⟩ | ⟨v, rfl, hv⟩
    · exact hstep false l v rfl hv ihl
    · exact hstep true r v rfl hv ihr

/-- A walk that ends above a leaf has put out nothing. -/
theorem decodeFrom_inside {t : CodeTree α} : ∀ {c : CodeTree α} {w p : List Bool} {a : α}, (w, a) ∈ c.words → p <+: w →
    p ≠ w → decodeFrom t c p = [] := by
  intro c
  induction c with
  | leaf b =>
    intro w p a h hp hne
    obtain ⟨rfl, -⟩ := word_leaf h
    exact absurd (List.prefix_nil.mp hp) hne
  | node l r ihl ihr =>
    intro w p a h hp hne
    have hstep : ∀ (b : Bool) (s : CodeTree α) (v q : List Bool), (node l r).child b = some s → (v, a) ∈ s.words →
        q <+: v → q ≠ v → (∀ {w p : List Bool} {a : α}, (w, a) ∈ s.words → p <+: w → p ≠ w → decodeFrom t s p = []) →
        decodeFrom t (node l r) (b :: q) = [] := by
      intro b s v q hs hv hq hqv ih
      cases s with
      | leaf a' =>
        obtain ⟨rfl, -⟩ := word_leaf hv
        exact absurd (List.prefix_nil.mp hq) hqv
      | node l' r' =>
        rw [decodeFrom_node_child hs]
        exact ih hv hq hqv
    cases p with
    | nil => rfl
    | cons b q =>
      rcases mem_words_node.mp h with ⟨v, rfl, hv⟩ | ⟨v, rfl, hv⟩
      · obtain ⟨rfl, hq⟩ := List.cons_prefix_cons.mp hp
        exact hstep false l v q rfl hv hq (fun e => hne (by rw [e])) ihl
      · obtain ⟨rfl, hq⟩ := List.cons_prefix_cons.mp hp
        exact hstep true r v q rfl hv hq (fun e => hne (by rw [e])) ihr

/-- A string that breaks off inside a word decodes to nothing. -/
theorem decode_inside {t : CodeTree α} {w p : List Bool} {a : α} (h : (w, a) ∈ t.words) (hp : p <+: w) (hne : p ≠ w) :
    t.decode p = [] := decodeFrom_inside h hp hne

/-- The words that are there as a whole in the first `k` bits of a sequence. -/
def whole : Nat → List (List Bool × α) → List (List Bool × α)
  | _, [] => []
  | k, x :: xs => if x.1.length ≤ k then x :: whole (k - x.1.length) xs else []

theorem whole_all {k : Nat} {xs : List (List Bool × α)} (h : (xs.flatMap (·.1)).length ≤ k) : whole k xs = xs := by
  induction xs generalizing k with
  | nil => rfl
  | cons x xs ih =>
    rw [List.flatMap_cons, List.length_append] at h
    unfold whole
    rw [if_pos (by omega), ih (by omega)]

/-- A sequence of words cut off after `k` bits decodes to the words that are there as a whole; a
    piece of a word behind them (`tail`) adds nothing. -/
theorem decode_take {l r : CodeTree α} {tail w : List Bool} {a : α} (htail : tail <+: w) (hne : tail ≠ w)
    (hw : (w, a) ∈ (node l r).words) {xs : List (List Bool × α)} (h : ∀ x ∈ xs, x ∈ (node l r).words) (k : Nat) :
    (node l r).decode ((xs.flatMap (·.1) ++ tail).take k) = (whole k xs).map (·.2) := by
  induction xs generalizing k with
  | nil =>
    refine decode_inside hw ((List.take_prefix k _).trans htail) ?_
    intro he
    have hle := (List.take_prefix k tail).length_le
    have hlt := htail.length_le
    refine hne (htail.eq_of_length_le ?_)
    have hlen := congrArg List.length he
    simp only [List.flatMap_nil, List.nil_append] at hlen
    omega
  | cons x xs ih =>
    have hx := h x (List.mem_cons_self ..)
    rw [List.flatMap_cons, List.append_assoc, List.take_append]
    unfold whole
    split
    · rename_i hk
      have hone := decodeFrom_word (t := node l r) ((xs.flatMap (·.1) ++ tail).take (k - x.1.length)) hx (word_ne_nil hx)
      rw [List.take_of_length_le hk, decode, hone, ih fun y hy => h y (List.mem_cons_of_mem _ hy)]
      rfl
    · rename_i hk
      rw [show k - x.1.length = 0 by omega, List.take_zero, List.append_nil]
      refine decode_inside hx (List.take_prefix k _) ?_
      intro he
      have hlen := congrArg List.length he
      rw [List.length_take] at hlen
      omega

/-! ## Lengths -/

theorem leaves_pos (t : CodeTree α) : 0 < t.leaves.length := by
  induction t with
  | leaf a => exact Nat.one_pos
  | node l r ihl _ =>
    rw [leaves, List.length_append]
    omega

/-- No word is as long as there are leaves. -/
theorem word_length_lt {t : CodeTree α} : ∀ {x : List Bool × α}, x ∈ t.words → x.1.length < t.leaves.length := by
  induction t with
  | leaf a => simp [words, leaves]
  | node l r ihl ihr =>
    rintro ⟨w, a⟩ h
    simp only [leaves, List.length_append]
    rcases mem_words_node.mp h with ⟨v, rfl, hv⟩ | ⟨v, rfl, hv⟩
    · have hlt := ihl hv
      have hpos := r.leaves_pos
      simp only [List.length_cons] at hlt ⊢
      omega
    · have hlt := ihr hv
      have hpos := l.leaves_pos
      simp only [List.length_cons] at hlt ⊢
      omega

/-- Some word has as many bits as it takes to number the leaves. -/
theorem exists_long_word (t : CodeTree α) : ∃ x ∈ t.words, t.leaves.length ≤ 2 ^ x.1.length := by
  induction t with
  | leaf a => exact ⟨([], a), by simp [words], by simp [leaves]⟩
  | node l r ihl ihr =>
    obtain ⟨⟨w, a⟩, hw, hl⟩ := ihl
    obtain ⟨⟨v, b⟩, hv, hr⟩ := ihr
    simp only at hl hr
    simp only [leaves, List.length_append]
    rcases Nat.le_total v.length w.length with h | h
    · refine ⟨(false :: w, a), mem_words_node.mpr (.inl ⟨w, rfl, hw⟩), ?_⟩
      have hpow := Nat.pow_le_pow_right (Nat.zero_lt_two) h
      simp only [List.length_cons, Nat.pow_succ]
      omega
    · refine ⟨(true :: v, b), mem_words_node.mpr (.inr ⟨v, rfl, hv⟩), ?_⟩
      have hpow := Nat.pow_le_pow_right (Nat.zero_lt_two) h
      simp only [List.length_cons, Nat.pow_succ]
      omega

/-- Kraft's sum. -/
noncomputable def kraft (lengths : List Nat) : ℝ := (lengths.map fun n => (1 / 2 : ℝ) ^ n).sum

theorem kraft_words (t : CodeTree α) : kraft (t.words.map (·.1.length)) = 1 := by
  have hsucc : ∀ ws : List (List Bool × α), (ws.map fun x => (1 / 2 : ℝ) ^ (x.1.length + 1)).sum =
      1 / 2 * kraft (ws.map (·.1.length)) := by
    intro ws
    unfold kraft
    induction ws with
    | nil => simp
    | cons x ws ih =>
      simp only [List.map_cons, List.sum_cons, ih]
      ring
  induction t with
  | leaf a => simp [words, kraft]
  | node l r ihl ihr =>
    have hl := hsucc l.words
    have hr := hsucc r.words
    rw [ihl] at hl
    rw [ihr] at hr
    unfold kraft
    simp only [words, List.map_append, List.map_map, Function.comp_def, List.length_cons, List.sum_append, hl, hr]
    norm_num

end CodeTree

end RakHook.Lib
