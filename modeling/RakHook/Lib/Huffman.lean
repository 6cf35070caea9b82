/-
  RakHook.Lib.Huffman — merging the two lightest trees of a sorted forest until one is
  left.

  Whatever the weights are and however they are added, the tree that is left has the
  leaves of the forest (`mergeAll_leaves`). If the sums are exact, no uniquely decodable
  code of its symbols is cheaper (`mergeAll_optimal`). The proof forgets trees for
  lengths: lengths that satisfy Kraft's inequality can be exchanged until the two lightest
  weights have the two longest, and these shortened until they are equal, at no cost; then
  the two count as one weight with a length less by one.
-/

import Mathlib.Algebra.BigOperators.Group.Finset.Basic
import Mathlib.InformationTheory.Coding.KraftMcMillan
import Mathlib.Tactic.Linarith
import RakHook.Lib.CodeTree

namespace RakHook.Lib

open CodeTree
open scoped List

variable {α : Type}

/-- Trees with their weights. -/
abbrev Forest (α : Type) := List (Nat × CodeTree α)

/-- In front of the first tree that is not lighter. -/
def insertByWeight (x : Nat × CodeTree α) : Forest α → Forest α
  | [] => [x]
  | y :: f => if y.1 < x.1 then y :: insertByWeight x f else x :: y :: f

def mergeAll (add : Nat → Nat → Nat) : Forest α → Option (CodeTree α)
  | [] => none
  | [x] => some x.2
  | x :: y :: f => mergeAll add (insertByWeight (add x.1 y.1, .node x.2 y.2) f)
termination_by f => f.length
decreasing_by
  have hlen : ∀ (z : Nat × CodeTree α) (f : Forest α), (insertByWeight z f).length = f.length + 1 := by
    intro z f
    induction f with
    | nil => rfl
    | cons y f ih => unfold insertByWeight; split <;> simp [ih]
  simp [hlen]

/-! ## Forests -/

theorem insertByWeight_perm (x : Nat × CodeTree α) (f : Forest α) : insertByWeight x f ~ x :: f := by
  induction f with
  | nil => exact .refl _
  | cons y f ih =>
    unfold insertByWeight
    split
    · exact (ih.cons y).trans (.swap x y f)
    · exact .refl _

theorem insertByWeight_eq (x : Nat × CodeTree α) (f : Forest α) :
    insertByWeight x f = f.takeWhile (·.1 < x.1) ++ x :: f.dropWhile (·.1 < x.1) := by
  induction f with
  | nil => rfl
  | cons y f ih =>
    unfold insertByWeight
    by_cases hy : y.1 < x.1
    · rw [if_pos hy, ih, List.takeWhile_cons_of_pos (by simpa using hy), List.dropWhile_cons_of_pos (by simpa using hy)]
      rfl
    · rw [if_neg hy, List.takeWhile_cons_of_neg (by simpa using hy), List.dropWhile_cons_of_neg (by simpa using hy)]
      rfl

def Sorted (f : Forest α) : Prop := f.Pairwise (·.1 ≤ ·.1)

theorem insertByWeight_sorted {x : Nat × CodeTree α} {f : Forest α} (h : Sorted f) : Sorted (insertByWeight x f) := by
  induction f with
  | nil => exact List.pairwise_singleton _ _
  | cons y f ih =>
    obtain ⟨hy, hf⟩ := List.pairwise_cons.mp h
    unfold insertByWeight
    split
    · rename_i hlt
      refine List.pairwise_cons.mpr ⟨?_, ih hf⟩
      intro z hz
      rcases List.mem_cons.mp ((insertByWeight_perm x f).mem_iff.mp hz) with rfl | hz
      · exact Nat.le_of_lt hlt
      · exact hy z hz
    · rename_i hge
      refine List.pairwise_cons.mpr ⟨?_, h⟩
      intro z hz
      rcases List.mem_cons.mp hz with rfl | hz
      · exact Nat.le_of_not_lt hge
      · exact Nat.le_trans (Nat.le_of_not_lt hge) (hy z hz)

theorem mergeAll_isSome (add : Nat → Nat → Nat) (f : Forest α) : f ≠ [] → (mergeAll add f).isSome = true := by
  induction f using mergeAll.induct add with
  | case1 => exact fun h => absurd rfl h
  | case2 x => intro _; rw [mergeAll]; rfl
  | case3 x y f ih =>
    intro _
    rw [mergeAll]
    refine ih ?_
    intro hnil
    have hperm := insertByWeight_perm (add x.1 y.1, .node x.2 y.2) f
    rw [hnil] at hperm
    exact absurd hperm.length_eq (by simp)

theorem mergeAll_leaves {add : Nat → Nat → Nat} {f : Forest α} {t : CodeTree α} :
    mergeAll add f = some t → t.leaves ~ f.flatMap (·.2.leaves) := by
  induction f using mergeAll.induct add with
  | case1 => intro h; rw [mergeAll] at h; cases h
  | case2 x =>
    intro h
    rw [mergeAll] at h
    cases h
    simp
  | case3 x y f ih =>
    intro h
    rw [mergeAll] at h
    refine (ih h).trans (((insertByWeight_perm _ f).flatMap_right _).trans ?_)
    simp [leaves]

/-! ## Lengths -/

/-- Each weight with a length: what they cost. -/
def total (ps : List (Nat × Nat)) : Nat := (ps.map fun p => p.1 * p.2).sum

@[simp] theorem total_cons (p : Nat × Nat) (ps : List (Nat × Nat)) : total (p :: ps) = p.1 * p.2 + total ps := by
  simp [total]

theorem total_perm {ps qs : List (Nat × Nat)} (h : ps ~ qs) : total ps = total qs := (h.map _).sum_eq

theorem kraft_cons (n : Nat) (l : List Nat) : kraft (n :: l) = (1 / 2 : ℝ) ^ n + kraft l := by simp [kraft]

theorem kraft_perm {l l' : List Nat} (h : l ~ l') : kraft l = kraft l' := (h.map _).sum_eq

theorem kraft_nonneg (l : List Nat) : 0 ≤ kraft l := by
  induction l with
  | nil => simp [kraft]
  | cons n l ih =>
    rw [kraft_cons]
    have hpos : (0 : ℝ) ≤ (1 / 2 : ℝ) ^ n := by positivity
    linarith

theorem kraft_whole {n : Nat} {l : List Nat} (h : ∀ m ∈ l, m ≤ n) : ∃ k : Nat, kraft l * 2 ^ n = k := by
  induction l with
  | nil => exact ⟨0, by simp [kraft]⟩
  | cons m l ih =>
    obtain ⟨k, hk⟩ := ih fun i hi => h i (List.mem_cons_of_mem _ hi)
    obtain ⟨d, rfl⟩ := Nat.exists_eq_add_of_le (h m (List.mem_cons_self ..))
    refine ⟨2 ^ d + k, ?_⟩
    have hone : (1 / 2 : ℝ) ^ m * 2 ^ m = 1 := by rw [← mul_pow]; norm_num
    rw [kraft_cons, add_mul, hk, pow_add, ← mul_assoc, hone]
    push_cast
    ring

/-- The longest length can be brought down to the second longest. -/
theorem kraft_shorten {a b : Nat} {l : List Nat} (hab : b ≤ a) (hl : ∀ m ∈ l, m ≤ b) (hk : kraft (a :: b :: l) ≤ 1) :
    kraft (b :: b :: l) ≤ 1 := by
  have hall : ∀ m ∈ b :: l, m ≤ b := by
    intro m hm
    rcases List.mem_cons.mp hm with rfl | hm
    · exact Nat.le_refl _
    · exact hl m hm
  obtain ⟨k, hwhole⟩ := kraft_whole hall
  have hone : (1 / 2 : ℝ) ^ b * 2 ^ b = 1 := by rw [← mul_pow]; norm_num
  have hpos : (0 : ℝ) < (2 : ℝ) ^ b := by positivity
  -- the rest is a whole number of 2^-b and less than 1, so there is room for one more
  have hlt : kraft (b :: l) < 1 := by
    have ha : (0 : ℝ) < (1 / 2 : ℝ) ^ a := by positivity
    rw [kraft_cons] at hk
    linarith
  have hk1 : (k : ℝ) < 2 ^ b := by
    rw [← hwhole]
    nlinarith
  have hk2 : k + 1 ≤ 2 ^ b := by exact_mod_cast hk1
  have hk3 : (k : ℝ) + 1 ≤ 2 ^ b := by exact_mod_cast hk2
  rw [kraft_cons]
  by_contra hgt
  have hgt' : 1 < (1 / 2 : ℝ) ^ b + kraft (b :: l) := lt_of_not_ge hgt
  nlinarith

/-- Exchange: the lightest weight `a` takes the longest length. -/
theorem hoist (a c : Nat) (rest : List (Nat × Nat)) (ha : ∀ p ∈ rest, a ≤ p.1) :
    ∃ m rest', rest'.map (·.1) = rest.map (·.1) ∧ m :: rest'.map (·.2) ~ c :: rest.map (·.2) ∧ c ≤ m ∧
      (∀ p ∈ rest', p.2 ≤ m) ∧ a * m + total rest' ≤ a * c + total rest := by
  induction rest generalizing c with
  | nil => exact ⟨c, [], rfl, .refl _, Nat.le_refl _, by simp, Nat.le_refl _⟩
  | cons p rest ih =>
    obtain ⟨w, l⟩ := p
    have haw : a ≤ w := ha (w, l) (List.mem_cons_self ..)
    have harest : ∀ p ∈ rest, a ≤ p.1 := fun p hp => ha p (List.mem_cons_of_mem _ hp)
    rcases Nat.le_total l c with hlc | hlc
    · obtain ⟨m, rest', hw, hperm, hcm, hle, hcost⟩ := ih c harest
      refine ⟨m, (w, l) :: rest', by simp [hw], ?_, hcm, ?_, by simp only [total_cons]; omega⟩
      · exact (List.Perm.swap l m _).trans ((hperm.cons l).trans (.swap c l _))
      · intro p hp
        rcases List.mem_cons.mp hp with rfl | hp
        · exact Nat.le_trans hlc hcm
        · exact hle p hp
    · obtain ⟨m, rest', hw, hperm, hlm, hle, hcost⟩ := ih l harest
      refine ⟨m, (w, c) :: rest', by simp [hw], ?_, Nat.le_trans hlc hlm, ?_, ?_⟩
      · exact (List.Perm.swap c m _).trans (hperm.cons c)
      · intro p hp
        rcases List.mem_cons.mp hp with rfl | hp
        · exact Nat.le_trans hlc hlm
        · exact hle p hp
      · have hswap : a * l + w * c ≤ a * c + w * l := by
          obtain ⟨d, rfl⟩ := Nat.exists_eq_add_of_le haw
          obtain ⟨e, rfl⟩ := Nat.exists_eq_add_of_le hlc
          nlinarith [Nat.zero_le (d * e)]
        simp only [total_cons]
        omega

/-- The two lightest weights can have one length, the longest, at no cost. -/
theorem siblings {a b la lb : Nat} {rest : List (Nat × Nat)} (hab : a ≤ b) (hb : ∀ p ∈ rest, b ≤ p.1)
    (hk : kraft (la :: lb :: rest.map (·.2)) ≤ 1) :
    ∃ n rest', rest'.map (·.1) = rest.map (·.1) ∧ kraft (n :: rest'.map (·.2)) ≤ 1 ∧
      a * (n + 1) + b * (n + 1) + total rest' ≤ a * la + b * lb + total rest := by
  have hmin : ∀ p ∈ (b, lb) :: rest, a ≤ p.1 := by
    intro p hp
    rcases List.mem_cons.mp hp with rfl | hp
    · exact hab
    · exact Nat.le_trans hab (hb p hp)
  obtain ⟨ma, rest₁, hw₁, hperm₁, -, hle₁, hcost₁⟩ := hoist a la ((b, lb) :: rest) hmin
  match rest₁, hw₁ with
  | (b', lb₁) :: rest₁, hw₁' =>
    simp only [List.map_cons, List.cons.injEq] at hw₁' hperm₁
    obtain ⟨rfl, hw₂⟩ := hw₁'
    have hb₁ : ∀ p ∈ rest₁, b' ≤ p.1 := by
      intro p hp
      have hmem : p.1 ∈ rest.map (·.1) := hw₂ ▸ List.mem_map_of_mem hp
      obtain ⟨q, hq, hqp⟩ := List.mem_map.mp hmem
      rw [← hqp]
      exact hb q hq
    obtain ⟨mb, rest₂, hw₃, hperm₂, -, hle₂, hcost₂⟩ := hoist b' lb₁ rest₁ hb₁
    have hlong : ∀ m ∈ lb₁ :: rest₁.map (·.2), m ≤ ma := by
      intro m hm
      obtain ⟨p, hp, rfl⟩ : ∃ p ∈ (b', lb₁) :: rest₁, p.2 = m := by
        rcases List.mem_cons.mp hm with rfl | hm
        · exact ⟨_, List.mem_cons_self .., rfl⟩
        · obtain ⟨p, hp, rfl⟩ := List.mem_map.mp hm
          exact ⟨p, List.mem_cons_of_mem _ hp, rfl⟩
      exact hle₁ p hp
    have hmb : mb ≤ ma := hlong mb (hperm₂.mem_iff.mp (List.mem_cons_self ..))
    have hk₂ : kraft (ma :: mb :: rest₂.map (·.2)) ≤ 1 := by
      rw [kraft_perm ((hperm₂.cons ma).trans hperm₁)]
      exact hk
    have hshorter : ∀ m ∈ rest₂.map (·.2), m ≤ mb := by
      intro m hm
      obtain ⟨p, hp, rfl⟩ := List.mem_map.mp hm
      exact hle₂ p hp
    have hk₃ := kraft_shorten hmb hshorter hk₂
    have hmb0 : mb ≠ 0 := by
      rintro rfl
      simp only [kraft_cons, pow_zero] at hk₃
      linarith [kraft_nonneg (rest₂.map (·.2))]
    obtain ⟨n, rfl⟩ := Nat.exists_eq_succ_of_ne_zero hmb0
    refine ⟨n, rest₂, hw₃.trans hw₂, ?_, ?_⟩
    · simp only [kraft_cons, Nat.succ_eq_add_one, pow_succ] at hk₃ ⊢
      linarith
    · have hshort := Nat.mul_le_mul_left a hmb
      simp only [Nat.succ_eq_add_one, total_cons] at hshort hcost₁ hcost₂
      omega

/-! ## Optimality -/

theorem exists_perm_weights {ps : List (Nat × Nat)} {l : List Nat} (h : ps.map (·.1) ~ l) :
    ∃ qs, qs ~ ps ∧ qs.map (·.1) = l := by
  induction l generalizing ps with
  | nil => exact ⟨[], by simpa using h.eq_nil, rfl⟩
  | cons a l ih =>
    obtain ⟨p, hp, rfl⟩ := List.mem_map.mp (h.mem_iff.mpr (List.mem_cons_self ..))
    obtain ⟨s, t, rfl⟩ := List.append_of_mem hp
    have hmid : s ++ p :: t ~ p :: (s ++ t) := List.perm_middle
    have hrest : (s ++ t).map (·.1) ~ l := ((hmid.map (·.1)).symm.trans h).cons_inv
    obtain ⟨qs, hqs, hqf⟩ := ih hrest
    exact ⟨p :: qs, (hqs.cons p).trans hmid.symm, by simp [hqf]⟩

section

variable (w : α → Nat)

def weight (t : CodeTree α) : Nat := (t.leaves.map w).sum

/-- The bits spent when each symbol comes up as often as it weighs. -/
def cost (t : CodeTree α) : Nat := (t.words.map fun x => w x.2 * x.1.length).sum

theorem cost_node (l r : CodeTree α) :
    cost w (.node l r) = cost w l + cost w r + (weight w l + weight w r) := by
  have hsucc : ∀ t : CodeTree α, (t.words.map fun x => w x.2 * (x.1.length + 1)).sum = cost w t + weight w t := by
    intro t
    unfold cost weight
    rw [← words_symbols, List.map_map]
    induction t.words with
    | nil => rfl
    | cons x xs ih =>
      rw [List.map_cons, List.sum_cons, ih, Nat.mul_succ]
      simp only [List.map_cons, List.sum_cons, Function.comp_apply]
      omega
  have hnode : cost w (.node l r) = (l.words.map fun x => w x.2 * (x.1.length + 1)).sum +
      (r.words.map fun x => w x.2 * (x.1.length + 1)).sum := by
    simp [cost, words, Function.comp_def]
  rw [hnode, hsucc, hsucc]
  omega

/-- Every tree is listed with the weight of its leaves. -/
def Weighed (f : Forest α) : Prop := ∀ x ∈ f, x.1 = weight w x.2

/-- The tree costs no more than the trees of the forest under any lengths that satisfy Kraft's
    inequality. -/
theorem mergeAll_cost {add : Nat → Nat → Nat} {f : Forest α} {t : CodeTree α} :
    mergeAll add f = some t → Sorted f → Weighed w f →
    (∀ a b, a + b ≤ (f.map (·.1)).sum → add a b = a + b) →
    ∀ ps : List (Nat × Nat), ps.map (·.1) ~ f.map (·.1) → kraft (ps.map (·.2)) ≤ 1 →
      cost w t ≤ (f.map fun x => cost w x.2).sum + total ps := by
  induction f using mergeAll.induct add with
  | case1 => intro h; rw [mergeAll] at h; cases h
  | case2 x =>
    intro h _ _ _ ps _ _
    rw [mergeAll] at h
    cases h
    simp
  | case3 x y f ih =>
    intro h hs hw hadd ps hps hk
    rw [mergeAll] at h
    have hsum : add x.1 y.1 = x.1 + y.1 := hadd _ _ (by simp)
    rw [hsum] at h ih
    obtain ⟨z, hz⟩ : ∃ z, (x.1 + y.1, CodeTree.node x.2 y.2) = z := ⟨_, rfl⟩
    rw [hz] at h ih
    obtain ⟨hx, hs'⟩ := List.pairwise_cons.mp hs
    obtain ⟨hy, hs''⟩ := List.pairwise_cons.mp hs'
    have hperm := insertByWeight_perm z f
    have hwx : x.1 = weight w x.2 := hw x (List.mem_cons_self ..)
    have hwy : y.1 = weight w y.2 := hw y (List.mem_cons_of_mem _ (List.mem_cons_self ..))
    have hcz : cost w z.2 = cost w x.2 + cost w y.2 + (x.1 + y.1) := by
      rw [← hz, hwx, hwy]
      exact cost_node w x.2 y.2
    have hz1 : z.1 = x.1 + y.1 := by rw [← hz]
    have hweighed : Weighed w (insertByWeight z f) := by
      intro u hu
      rcases List.mem_cons.mp (hperm.mem_iff.mp hu) with rfl | hu
      · rw [hz1, ← hz, hwx, hwy]
        simp [weight, leaves]
      · exact hw u (List.mem_cons_of_mem _ (List.mem_cons_of_mem _ hu))
    -- bring the two lightest weights to the front of `ps`, as siblings
    obtain ⟨qs, hqs, hqf⟩ := exists_perm_weights hps
    rw [← total_perm hqs]
    rw [← kraft_perm (hqs.map (·.2))] at hk
    rcases qs with _ | ⟨⟨a, la⟩, _ | ⟨⟨b, lb⟩, rest⟩⟩
    · simp at hqf
    · simp at hqf
    · simp only [List.map_cons, List.cons.injEq] at hqf
      obtain ⟨rfl, rfl, hrest⟩ := hqf
      have hyr : ∀ p ∈ rest, y.1 ≤ p.1 := by
        intro p hp
        have hmem : p.1 ∈ f.map (·.1) := hrest ▸ List.mem_map_of_mem hp
        obtain ⟨u, hu, hup⟩ := List.mem_map.mp hmem
        rw [← hup]
        exact hy u hu
      obtain ⟨n, rest', hw', hk', hcost⟩ := siblings (hx y (List.mem_cons_self ..)) hyr hk
      have hfst : ((z.1, n) :: rest').map (·.1) ~ (insertByWeight z f).map (·.1) := by
        rw [List.map_cons, hw', hrest]
        exact (hperm.map (·.1)).symm
      have hsums : ((insertByWeight z f).map (·.1)).sum = ((x :: y :: f).map (·.1)).sum := by
        rw [(hperm.map _).sum_eq]
        simp only [List.map_cons, List.sum_cons, hz1]
        omega
      have hle := ih h (insertByWeight_sorted hs'') hweighed (fun a b hab => hadd a b (by omega)) _ hfst (by simpa using hk')
      rw [(hperm.map fun u => cost w u.2).sum_eq] at hle
      simp only [List.map_cons, List.sum_cons, total_cons, hcz, hz1] at hle ⊢
      dsimp only at hcost
      have hdist : (x.1 + y.1) * n + (x.1 + y.1) = x.1 * (n + 1) + y.1 * (n + 1) := by ring
      omega

/-- No uniquely decodable code of the symbols is cheaper. -/
theorem mergeAll_optimal {add : Nat → Nat → Nat} {f : Forest α} {t : CodeTree α} {symbols : List α}
    (h : mergeAll add f = some t) (hs : Sorted f) (hf : f ~ symbols.map fun a => (w a, .leaf a)) (hd : symbols.Nodup)
    (hadd : ∀ a b, a + b ≤ (symbols.map w).sum → add a b = a + b) {code : α → List Bool}
    (hinj : ∀ a ∈ symbols, ∀ b ∈ symbols, code a = code b → a = b)
    (hcode : InformationTheory.UniquelyDecodable {v | ∃ a ∈ symbols, code a = v}) :
    cost w t ≤ (symbols.map fun a => w a * (code a).length).sum := by
  classical
  have hsum : (f.map (·.1)).sum = (symbols.map w).sum := by
    rw [(hf.map _).sum_eq, List.map_map]
    rfl
  have hweighed : Weighed w f := by
    intro x hx
    obtain ⟨a, -, rfl⟩ := List.mem_map.mp (hf.mem_iff.mp hx)
    simp [weight, leaves]
  have hkraft : kraft (symbols.map fun a => (code a).length) ≤ 1 := by
    have hset : ((symbols.map code).toFinset : Set (List Bool)) = {v | ∃ a ∈ symbols, code a = v} := by
      ext v
      simp
    rw [← hset] at hcode
    have hmc := InformationTheory.kraft_mcmillan_inequality hcode
    have hdc : (symbols.map code).Nodup := hd.map_on fun a ha b hb he => hinj a ha b hb he
    rw [List.sum_toFinset _ hdc, List.map_map] at hmc
    simpa [kraft, Function.comp_def] using hmc
  have hle := mergeAll_cost w h hs hweighed (fun a b hab => hadd a b (by omega))
    (symbols.map fun a => (w a, (code a).length)) ?_ ?_
  · have hzero : (f.map fun x => cost w x.2).sum = 0 := by
      rw [(hf.map fun x => cost w x.2).sum_eq, List.map_map]
      simp [cost, words, Function.comp_def]
    have htotal : total (symbols.map fun a => (w a, (code a).length)) = (symbols.map fun a => w a * (code a).length).sum := by
      simp [total, Function.comp_def]
    omega
  · have hmap := hf.symm.map (·.1)
    rw [List.map_map] at hmap ⊢
    exact hmap
  · rwa [List.map_map]

end

end RakHook.Lib
