/-
  RakHook.Lib.Calls — an object that answers calls, against what it is for.

  A call of either is `none` where it must not be made. If every call the abstract object
  answers is answered the same by the concrete one, which stays related to it, the two
  answer alike on any sequence of calls (`run_refines`). If besides it answers no others,
  they also fail alike (`run_rel`).
-/

namespace RakHook.Lib.Calls

variable {κ ρ σ τ : Type}

/-- The answers to a sequence of calls, and the state it leaves. -/
def run (call : σ → κ → Option (ρ × σ)) : σ → List κ → Option (List ρ × σ)
  | s, [] => some ([], s)
  | s, k :: ks => do
    let (a, s) ← call s k
    let (as, s) ← run call s ks
    return (a :: as, s)

/-- Whatever the abstract object answers from `t`, the concrete one answers from `s`. By
    induction on the calls. -/
theorem run_refines {concrete : σ → κ → Option (ρ × σ)} {abstract : τ → κ → Option (ρ × τ)} {R : σ → τ → Prop}
    (hcall : ∀ {s t k a t'}, R s t → abstract t k = some (a, t') → ∃ s', concrete s k = some (a, s') ∧ R s' t') :
    ∀ {ks : List κ} {s : σ} {t t' : τ} {as : List ρ}, R s t → run abstract t ks = some (as, t') →
      ∃ s', run concrete s ks = some (as, s') ∧ R s' t' := by
  intro ks
  induction ks with
  | nil =>
    intro s t t' as h hr
    cases hr
    exact ⟨s, rfl, h⟩
  | cons k ks ih =>
    intro s t t' as h hr
    simp only [run, Option.bind_eq_bind, Option.bind_eq_some_iff, Option.pure_def] at hr
    obtain ⟨⟨a, t₁⟩, hk, ⟨as', t₂⟩, hrest, he⟩ := hr
    cases he
    obtain ⟨s₁, hs₁, h₁⟩ := hcall h hk
    obtain ⟨s₂, hs₂, h₂⟩ := ih h₁ hrest
    exact ⟨s₂, by simp [run, hs₁, hs₂], h₂⟩

/-- The same answer, and related states. -/
def Agree (R : σ → τ → Prop) (x : ρ × σ) (y : ρ × τ) : Prop := x.1 = y.1 ∧ R x.2 y.2

/-- The concrete object answers exactly what the abstract one does. -/
theorem run_rel {concrete : σ → κ → Option (ρ × σ)} {abstract : τ → κ → Option (ρ × τ)} {R : σ → τ → Prop}
    (hcall : ∀ {s t} (k : κ), R s t → Option.Rel (Agree R) (concrete s k) (abstract t k)) :
    ∀ (ks : List κ) {s : σ} {t : τ}, R s t → Option.Rel (Agree R) (run concrete s ks) (run abstract t ks) := by
  intro ks
  induction ks with
  | nil => exact fun h => .some ⟨rfl, h⟩
  | cons k ks ih =>
    intro s t h
    have hk := hcall k h
    simp only [run]
    generalize concrete s k = x at hk
    generalize abstract t k = y at hk
    cases hk with
    | none => exact .none
    | some hk =>
      rename_i x y
      have hr := ih hk.2
      simp only [Option.bind_eq_bind, Option.bind_some]
      generalize run concrete x.2 ks = xs at hr
      generalize run abstract y.2 ks = ys at hr
      cases hr with
      | none => exact .none
      | some hr => exact .some ⟨congr (congrArg List.cons hk.1) hr.1, hr.2⟩

end RakHook.Lib.Calls
