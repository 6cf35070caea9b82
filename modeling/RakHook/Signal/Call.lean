/-
  RakHook.Signal.Call — `signal<Func>::call` (include/RakHook/signal.hpp) for callbacks
  that do not touch the signal they are registered on.

  `functions_` is a list, an empty `std::function` is `none`. `invoke f a` runs callback
  `f`: `a` is everything it can change (the by-reference arguments, the objects they point
  to and the world behind them). Callbacks that call back into the signal are the subject
  of `RakHook.Signal.Reentry`.
-/

namespace RakHook.Signal

structure Dispatch (φ α : Type) where
  ret : Bool
  args : α
  functions : List (Option φ)

variable {φ α : Type} (invoke : φ → α → Bool × α)

/-- The loop of `call` from an iterator on: the functions behind it, as they are left. -/
def call : List (Option φ) → α → Dispatch φ α
  | [], a => ⟨true, a, []⟩
  | none :: fs, a => call fs a
  | some f :: fs, a =>
    let r := invoke f a
    if r.1 then
      let d := call fs r.2
      { d with functions := some f :: d.functions }
    else ⟨false, r.2, some f :: fs⟩

theorem call_pass {f : φ} {a : α} (h : (invoke f a).1 = true) (fs : List (Option φ)) :
    (call invoke (some f :: fs) a).args = (call invoke fs (invoke f a).2).args := by
  simp only [call, if_pos h]

theorem call_last (f : φ) (a : α) : (call invoke [some f] a).args = (invoke f a).2 := by
  simp only [call]
  split <;> rfl

/-- What every callback keeps, a dispatch keeps, vetoed or not. -/
theorem call_keeps {P : α → Prop} (h : ∀ f a, P a → P (invoke f a).2) (fs : List (Option φ)) {a : α} (ha : P a) :
    P (call invoke fs a).args := by
  induction fs generalizing a with
  | nil => exact ha
  | cons f fs ih =>
    cases f with
    | none => exact ih ha
    | some f =>
      simp only [call]
      split
      · exact ih (h f a ha)
      · exact h f a ha

end RakHook.Signal
