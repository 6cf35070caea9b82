/-
  RakHook.Signal.Fold — what a dispatch is for: the callbacks one after the other, each on
  what the one before it left, up to the first that refuses.

  `fold` is that, over the functions that are not empty, with what ran and on what.
  `call` computes it whatever empty functions it erases on its way (`call_fold`), and
  leaves the functions that are not empty as they were. `call_sim` compares two dispatches
  whose arguments are related.
-/

import RakHook.Lib.Run
import RakHook.Signal.Call

namespace RakHook.Signal

variable {φ α β σ ω ε : Type}

structure Outcome (φ α : Type) where
  ret : Bool
  args : α
  /-- Each callback that ran, with the arguments it was given. -/
  ran : List (φ × α)

def fold (invoke : φ → α → Bool × α) : List φ → α → Outcome φ α
  | [], a => ⟨true, a, []⟩
  | f :: fs, a =>
    let r := invoke f a
    if r.1 then
      let o := fold invoke fs r.2
      { o with ran := (f, a) :: o.ran }
    else ⟨false, r.2, [(f, a)]⟩

/-- The functions of a signal that are not empty. -/
def registered (fs : List (Option φ)) : List φ := fs.filterMap id

@[simp] theorem registered_none (fs : List (Option φ)) : registered (none :: fs) = registered fs := rfl

@[simp] theorem registered_some (f : φ) (fs : List (Option φ)) : registered (some f :: fs) = f :: registered fs := rfl

/-- Erasing empty functions loses no other, in a dispatch that is cut short or not. -/
theorem call_registered (invoke : φ → α → Bool × α) (fs : List (Option φ)) (a : α) :
    registered (call invoke fs a).functions = registered fs := by
  induction fs generalizing a with
  | nil => rfl
  | cons f fs ih =>
    cases f with
    | none => exact ih a
    | some f =>
      simp only [call]
      split
      · rw [registered_some, ih]; rfl
      · rfl

/-- What the loop of `call` does is the fold. -/
theorem call_eq_fold (invoke : φ → α → Bool × α) (fs : List (Option φ)) (a : α) :
    (call invoke fs a).ret = (fold invoke (registered fs) a).ret ∧
      (call invoke fs a).args = (fold invoke (registered fs) a).args := by
  induction fs generalizing a with
  | nil => exact ⟨rfl, rfl⟩
  | cons f fs ih =>
    cases f with
    | none => exact ih a
    | some f =>
      simp only [call, registered_some, fold]
      split
      · exact ih (invoke f a).2
      · exact ⟨rfl, rfl⟩

/-- Where each callback in turn keeps something and lets pass, the dispatch does. -/
theorem call_passes {invoke : φ → α → Bool × α} {P : α → Prop} (fs : List (Option φ)) {a : α} (ha : P a)
    (h : Lib.Along (fun a f => (invoke f a).2) (fun a f => (invoke f a).1 = true ∧ P (invoke f a).2) (registered fs) a) :
    (call invoke fs a).ret = true ∧ P (call invoke fs a).args := by
  induction fs generalizing a with
  | nil => exact ⟨rfl, ha⟩
  | cons f fs ih =>
    cases f with
    | none => exact ih ha h
    | some f =>
      obtain ⟨⟨hret, hP⟩, hrest⟩ := h
      rw [call, if_pos hret]
      exact ih hP hrest

/-! ## A record of what runs -/

def logged (entry : φ → σ → ε) (invoke : φ → σ × ω → Bool × σ × ω) (f : φ) (x : σ × ω × List ε) : Bool × σ × ω × List ε :=
  let r := invoke f (x.1, x.2.1)
  (r.1, r.2.1, r.2.2, x.2.2 ++ [entry f x.1])

def Outcome.entries (entry : φ → σ → ε) (o : Outcome φ (σ × ω)) : List ε := o.ran.map fun r => entry r.1 r.2.1

theorem call_fold (entry : φ → σ → ε) (invoke : φ → σ × ω → Bool × σ × ω) (fs : List (Option φ)) (a : σ) (w : ω)
    (log : List ε) :
    (call (logged entry invoke) fs (a, w, log)).ret = (fold invoke (registered fs) (a, w)).ret ∧
      (call (logged entry invoke) fs (a, w, log)).args =
        ((fold invoke (registered fs) (a, w)).args.1, (fold invoke (registered fs) (a, w)).args.2,
          log ++ (fold invoke (registered fs) (a, w)).entries entry) := by
  induction fs generalizing a w log with
  | nil => exact ⟨rfl, by simp [call, fold, registered, Outcome.entries]⟩
  | cons f fs ih =>
    cases f with
    | none => exact ih a w log
    | some f =>
      rw [registered_some]
      by_cases h : (invoke f (a, w)).1 = true
      · simp only [call, fold, logged, h, if_true]
        obtain ⟨hret, hargs⟩ := ih (invoke f (a, w)).2.1 (invoke f (a, w)).2.2 (log ++ [entry f a])
        refine ⟨hret, ?_⟩
        rw [hargs, List.append_assoc]
        rfl
      · simp only [call, fold, logged, h]
        exact ⟨rfl, rfl⟩

/-! ## Two dispatches -/

/-- Callbacks that answer alike and keep their arguments related make dispatches that do. -/
theorem call_sim {R : α → β → Prop} {invoke : φ → α → Bool × α} {invoke' : φ → β → Bool × β} {fs : List (Option φ)}
    (h : ∀ f, some f ∈ fs → ∀ a b, R a b →
      (invoke f a).1 = (invoke' f b).1 ∧ R (invoke f a).2 (invoke' f b).2)
    {a : α} {b : β} (hab : R a b) : (call invoke fs a).ret = (call invoke' fs b).ret ∧
      R (call invoke fs a).args (call invoke' fs b).args ∧
      (call invoke fs a).functions = (call invoke' fs b).functions := by
  induction fs generalizing a b with
  | nil => exact ⟨rfl, hab, rfl⟩
  | cons f fs ih =>
    have htail := fun k hk => h k (List.mem_cons_of_mem f hk)
    cases f with
    | none => exact ih htail hab
    | some f =>
      obtain ⟨hret, hR⟩ := h f (List.mem_cons_self ..) a b hab
      simp only [call, ← hret]
      split
      · obtain ⟨h1, h2, h3⟩ := ih htail hR
        exact ⟨h1, h2, by rw [h3]⟩
      · exact ⟨rfl, hR, rfl⟩

/-- A callback that passes and leaves what the others can tell apart (`view`) as it is can be
    inserted anywhere. -/
theorem call_insert (invoke : φ → α → Bool × α) (view : α → β) {pre post : List (Option φ)} {o : φ}
    (ho : ∀ a, (invoke o a).1 = true ∧ view (invoke o a).2 = view a)
    (hpost : ∀ f, some f ∈ post → ∀ a b, view a = view b →
      (invoke f a).1 = (invoke f b).1 ∧ view (invoke f a).2 = view (invoke f b).2)
    (a : α) : (call invoke (pre ++ some o :: post) a).ret = (call invoke (pre ++ post) a).ret ∧
      view (call invoke (pre ++ some o :: post) a).args = view (call invoke (pre ++ post) a).args := by
  induction pre generalizing a with
  | nil =>
    obtain ⟨hret, hview⟩ := ho a
    obtain ⟨h1, h2, -⟩ := call_sim (R := fun a b => view a = view b) hpost hview
    simp only [List.nil_append, call, hret, if_true]
    exact ⟨h1, h2⟩
  | cons f pre ih =>
    cases f with
    | none => exact ih a
    | some f =>
      simp only [List.cons_append, call]
      split
      · exact ih _
      · exact ⟨rfl, rfl⟩

end RakHook.Signal
