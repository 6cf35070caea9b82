/-
  RakHook.Lib.Run — runs of a machine that makes one step per input.

  `Along step P l s`: on the run from `s` over the inputs `l`, `P` holds of every state
  and the input it is about to take. A law about single steps that needs an invariant
  becomes a law about runs here.
-/

namespace RakHook.Lib

variable {σ α : Type}

def Along (step : σ → α → σ) (P : σ → α → Prop) : List α → σ → Prop
  | [], _ => True
  | a :: l, s => P s a ∧ Along step P l (step s a)

namespace Along

variable {step : σ → α → σ} {I : σ → Prop} {P Q : σ → α → Prop}

/-- Under an invariant that steps with `Q` keep, a step with `Q` has `P`: a run of such
    steps has `P` everywhere. -/
theorem imp_of_inv (hstep : ∀ s a, I s → Q s a → I (step s a)) (himp : ∀ s a, I s → Q s a → P s a)
    (l : List α) {s : σ} (hs : I s)
    (h : Along step Q l s) : Along step P l s := by
  induction l generalizing s with
  | nil => trivial
  | cons a l ih => exact ⟨himp s a hs h.1, ih (hstep s a hs h.1) h.2⟩

/-- Under such an invariant, a step has `P` everywhere on a run exactly if it has `Q`
    everywhere. -/
theorem iff_of_inv (hstep : ∀ s a, I s → Q s a → I (step s a)) (hiff : ∀ s a, I s → (P s a ↔ Q s a)) (l : List α) {s : σ}
    (hs : I s) : Along step P l s ↔ Along step Q l s :=
  ⟨imp_of_inv (fun s a hi hp => hstep s a hi ((hiff s a hi).mp hp)) (fun s a hi => (hiff s a hi).mp) l hs,
    imp_of_inv hstep (fun s a hi => (hiff s a hi).mpr) l hs⟩

theorem proj {ρ : Type} {f : σ → ρ} {step' : ρ → α → ρ} {R : ρ → α → Prop} (hf : ∀ s a, f (step s a) = step' (f s) a)
    (l : List α)
    {s : σ} (h : Along step' R l (f s)) : Along step (fun s a => R (f s) a) l s := by
  induction l generalizing s with
  | nil => trivial
  | cons a l ih => exact ⟨h.1, ih (by rw [hf]; exact h.2)⟩

/-- With an invariant every step keeps, what holds at each of its states holds along a run. -/
theorem of_inv (hstep : ∀ s a, I s → I (step s a)) (hP : ∀ s a, I s → P s a) (l : List α) {s : σ} (hs : I s) :
    Along step P l s := by
  induction l generalizing s with
  | nil => trivial
  | cons a l ih => exact ⟨hP s a hs, ih (hstep s a hs)⟩

end Along

end RakHook.Lib
