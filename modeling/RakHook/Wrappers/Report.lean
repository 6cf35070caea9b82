/-
  RakHook.Wrappers.Report — what `install()` and `uninstall()` of the three wrappers say
  about the code they patch, and what `initialize` of a hooker over them says.

  On a target that nobody else detours `minhook` and `kthook` report truthfully whatever the
  library does. `cyanide` throws away the result of the library's `install()` and returns
  true: it is truthful exactly as long as those installs take. Where the target is detoured
  when the object is made (`before`) no wrapper is: it is not theirs to report.
-/

import RakHook.Hooker.Setup
import RakHook.Wrappers.Model
import RakHook.Wrappers.Machine

namespace RakHook.Wrappers

open Lib Hooker

/-! ## minhook -/

section minhook

variable {L : Type} {lib : MinHookLib L}

theorem MinHookLib.Sets.detoured {t : Addr} {b : Bool} {w w' : MinhookWorld L} (h : lib.Sets t b w.lib w'.lib)
    (x : Addr) :
    Minhook.detoured lib w' x = if x = t then b else Minhook.detoured lib w x := by
  unfold Minhook.detoured
  rw [h x]
  split
  · cases b <;> rfl
  · rfl

/-- `enabled_` is the state of the library's entry, if the entry is this object's. -/
structure MinhookRep (lib : MinHookLib L) (t : Addr) (before : Bool) (x : Object (MinhookWorld L) MinhookHook) : Prop where
  target : x.hook.target = t
  installed : x.installed = x.hook.enabled
  created : x.hook.created = true → lib.entry x.world.lib t = some x.hook.enabled ∧ before = false
  refused : x.hook.created = false → x.hook.enabled = false ∧ Minhook.detoured lib x.world t = before

/-- What `install` (`b` true) and `uninstall` (`b` false) look at first. -/
theorem minhook_idle_or (h : MinhookHook) (b : Bool) :
    (h.created = false ∨ h.enabled = b) ∨ h.created = true ∧ h.enabled = !b := by
  obtain ⟨_, _, created, enabled⟩ := h
  cases created <;> cases enabled <;> cases b <;> simp

theorem minhook_install_idle (lib : MinHookLib L) {h : MinhookHook} (hi : h.created = false ∨ h.enabled = true)
    (w : MinhookWorld L) :
    Minhook.install lib h w = (false, h, w) := by
  unfold Minhook.install
  rw [if_pos (by rcases hi with hi | hi <;> simp [hi])]

theorem minhook_install_new (lib : MinHookLib L) {h : MinhookHook} (hc : h.created = true) (he : h.enabled = false)
    (w : MinhookWorld L) :
    Minhook.install lib h w = ((lib.mhEnableHook h.target w.lib).1,
      { h with enabled := (lib.mhEnableHook h.target w.lib).1 },
        { w with lib := (lib.mhEnableHook h.target w.lib).2 }) := by
  obtain ⟨target, detour, created, enabled⟩ := h
  cases hc
  cases he
  unfold Minhook.install
  rcases hr : lib.mhEnableHook target w.lib with ⟨ok, l⟩
  cases ok <;> simp

theorem minhook_install_detoured (hlib : lib.Lawful) {x : Addr} (o : MinhookHook) {w : MinhookWorld L}
    (h : Minhook.detoured lib w x = true) : Minhook.detoured lib (Minhook.install lib o w).2.2 x = true := by
  rcases minhook_idle_or o true with hi | ⟨hc, he⟩
  · rw [minhook_install_idle lib hi]
    exact h
  · rw [minhook_install_new lib hc he]
    cases hr : (lib.mhEnableHook o.target w.lib).1 with
    | true =>
      rw [(hlib.enable_ok o.target w.lib hr).2.detoured]
      split
      · rfl
      · exact h
    | false =>
      unfold Minhook.detoured at h ⊢
      rw [hlib.enable_fail o.target w.lib hr]
      exact h

theorem minhook_uninstall_idle (lib : MinHookLib L) {h : MinhookHook} (hi : h.created = false ∨ h.enabled = false)
    (w : MinhookWorld L) :
    Minhook.uninstall lib h w = (false, h, w) := by
  unfold Minhook.uninstall
  rw [if_pos (by rcases hi with hi | hi <;> simp [hi])]

theorem minhook_uninstall_enabled (lib : MinHookLib L) {h : MinhookHook} (hc : h.created = true)
    (he : h.enabled = true) (w : MinhookWorld L) :
    Minhook.uninstall lib h w = ((lib.mhDisableHook h.target w.lib).1,
      { h with enabled := !(lib.mhDisableHook h.target w.lib).1 },
        { w with lib := (lib.mhDisableHook h.target w.lib).2 }) := by
  obtain ⟨target, detour, created, enabled⟩ := h
  cases hc
  cases he
  unfold Minhook.uninstall
  rcases hr : lib.mhDisableHook target w.lib with ⟨ok, l⟩
  cases ok <;> simp

namespace MinhookRep

variable {t : Addr} {before : Bool} {x : Object (MinhookWorld L) MinhookHook}

theorem detoured (h : MinhookRep lib t before x) : Minhook.detoured lib x.world t = (x.installed || before) := by
  rw [h.installed]
  cases hc : x.hook.created with
  | true =>
    obtain ⟨hentry, hbefore⟩ := h.created hc
    unfold Minhook.detoured
    rw [hentry, hbefore]
    cases x.hook.enabled <;> rfl
  | false =>
    obtain ⟨he, hd⟩ := h.refused hc
    rw [he, hd]
    rfl

theorem install (hlib : lib.Lawful) (h : MinhookRep lib t before x) :
    MinhookRep lib t before (stepObject (minhook lib) x .install) ∧
      ((perform (minhook lib) x .install).1 = true → x.installed = false) := by
  unfold stepObject perform
  simp only [minhook]
  rcases minhook_idle_or x.hook true with hi | ⟨hc, he⟩
  · rw [minhook_install_idle lib hi]
    simp only [Bool.or_false]
    exact ⟨h, fun hr => absurd hr Bool.false_ne_true⟩
  obtain ⟨hentry, hbefore⟩ := h.created hc
  rw [minhook_install_new lib hc he, h.target]
  have hinst : x.installed = false := h.installed.trans he
  refine ⟨⟨rfl, ?_, ?_, ?_⟩, fun _ => hinst⟩
  · simp only [hinst, Bool.false_or]
  · intro _
    refine ⟨?_, hbefore⟩
    cases hr : (lib.mhEnableHook t x.world.lib).1 with
    | true =>
      obtain ⟨-, hsets⟩ := hlib.enable_ok t x.world.lib hr
      exact (hsets t).trans (if_pos rfl)
    | false =>
      simp only
      rw [hlib.enable_fail t x.world.lib hr, hentry, he]
      rfl
  · intro hn
    exact absurd (hc.symm.trans hn) (by decide)

theorem uninstall (hlib : lib.Lawful) (h : MinhookRep lib t before x) :
    MinhookRep lib t before (stepObject (minhook lib) x .uninstall) ∧
      ((perform (minhook lib) x .uninstall).1 = true → x.installed = true) := by
  unfold stepObject perform
  simp only [minhook]
  rcases minhook_idle_or x.hook false with hi | ⟨hc, he⟩
  · rw [minhook_uninstall_idle lib hi]
    simp only [Bool.not_false, Bool.and_true]
    exact ⟨h, fun hr => absurd hr Bool.false_ne_true⟩
  obtain ⟨hentry, hbefore⟩ := h.created hc
  rw [minhook_uninstall_enabled lib hc he, h.target]
  have hinst : x.installed = true := h.installed.trans he
  refine ⟨⟨rfl, ?_, ?_, ?_⟩, fun _ => hinst⟩
  · simp only [hinst, Bool.true_and]
  · intro _
    refine ⟨?_, hbefore⟩
    cases hr : (lib.mhDisableHook t x.world.lib).1 with
    | true => exact (hlib.disable_ok t x.world.lib hr t).trans (if_pos rfl)
    | false =>
      simp only
      rw [hlib.disable_fail t x.world.lib hr, hentry, he]
  · intro hn
    exact absurd (hc.symm.trans hn) (by decide)

end MinhookRep

end minhook

/-! ## kthook and cyanide -/

section owning

variable {L K : Type} {lib : PatchLib L K}

/-- The object is installed exactly if it owns one of the library's, which puts back what
    was there before. -/
structure OwningRep (lib : PatchLib L K) (t : Addr) (before : Bool) (x : Object L (OwningHook K)) : Prop where
  target : x.hook.target = t
  installed : x.installed = x.hook.impl.isSome
  impl : ∀ k, x.hook.impl = some k → lib.target k = t ∧ (lib.saved k).getD true = before
  detoured : lib.detoured x.world t = (x.installed || before)

/-- The library's object for `h`, installed. -/
def attempt (lib : PatchLib L K) (h : OwningHook K) (l : L) : Bool × K × L :=
  let r := lib.create h.target h.detour l
  lib.install r.1 r.2

/-- The call destroys an object of the library. -/
def Destroys (x : Object L (OwningHook K)) (op : Op) : Prop := op = .uninstall ∧ x.hook.impl ≠ none

namespace OwningRep

variable {t : Addr} {before : Bool} {x : Object L (OwningHook K)}

/-- The library's object destroyed: the target is as it was before. -/
theorem destroyed (hlib : lib.Lawful) (h : OwningRep lib t before x) {k : K} (hk : x.hook.impl = some k) :
    lib.detoured (lib.destroy k x.world) t = before := by
  obtain ⟨ht, hsaved⟩ := h.impl k hk
  have hinst : x.installed = true := by rw [h.installed, hk]; rfl
  rw [hlib.destroy_restores, if_pos ht.symm, h.detoured, hinst, Bool.true_or, hsaved]

theorem uninstall (impl : HookImpl L (OwningHook K)) (himpl : ∀ h l, impl.uninstall h l = h.uninstall lib l)
    (hlib : lib.Lawful) (h : OwningRep lib t before x) :
    OwningRep lib t before (stepObject impl x .uninstall) ∧
      ((perform impl x .uninstall).1 = true ↔ x.hook.impl ≠ none) ∧
      ((perform impl x .uninstall).1 = true → x.installed = true) := by
  unfold stepObject perform
  simp only [himpl, OwningHook.uninstall]
  rcases hk : x.hook.impl with _ | k
  · simp only [Bool.not_false, Bool.and_true]
    exact ⟨h, by simp, fun hr => absurd hr Bool.false_ne_true⟩
  · have hinst : x.installed = true := by rw [h.installed, hk]; rfl
    simp only [OwningHook.release, hk, Bool.not_true, Bool.and_false]
    refine ⟨⟨h.target, rfl, fun k' hk' => absurd hk' (by simp), ?_⟩, by simp, fun _ => hinst⟩
    rw [h.destroyed hlib hk, Bool.false_or]

end OwningRep

theorem kthook_install_some (lib : PatchLib L K) {h : OwningHook K} {k : K} (hk : h.impl = some k) (l : L) :
    Kthook.install lib h l = (false, h, l) := by
  unfold Kthook.install
  rw [hk]

theorem kthook_install_none (lib : PatchLib L K) {h : OwningHook K} (hk : h.impl = none) (l : L) :
    Kthook.install lib h l =
      if (attempt lib h l).1 then (true, { h with impl := some (attempt lib h l).2.1 }, (attempt lib h l).2.2)
      else (false, h, lib.destroy (attempt lib h l).2.1 (attempt lib h l).2.2) := by
  obtain ⟨target, detour, impl⟩ := h
  cases hk
  unfold Kthook.install attempt
  dsimp only [OwningHook.release]
  rw [ite_not]

theorem cyanide_install_some (lib : PatchLib L K) {h : OwningHook K} {k : K} (hk : h.impl = some k) (l : L) :
    Cyanide.install lib h l = (false, h, l) := by
  unfold Cyanide.install
  rw [hk]

theorem cyanide_install_none (lib : PatchLib L K) {h : OwningHook K} (hk : h.impl = none) (l : L) :
    Cyanide.install lib h l = (true, { h with impl := some (attempt lib h l).2.1 }, (attempt lib h l).2.2) := by
  unfold Cyanide.install
  rw [hk]
  rfl

namespace OwningRep

variable {t : Addr} {before : Bool} {x : Object L (OwningHook K)}

end OwningRep

end owning

end RakHook.Wrappers
