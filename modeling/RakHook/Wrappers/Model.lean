/-
  RakHook.Wrappers.Model — the three hook implementations (include/RakHook/wrappers/):
  `minhook`, `kthook` and `cyanide`.

  The libraries behind them are not part of the repository. `MinHookLib` and `PatchLib`
  are their interfaces, with what can be seen of their state; `Lawful` is what they
  document. Every call may fail.
-/

import RakHook.Hooker.Model

namespace RakHook.Wrappers

/-! ## The libraries -/

/-- MinHook, over its state `L`. -/
structure MinHookLib (L : Type) where
  /-- `MH_Initialize() == MH_OK`. -/
  mhInitialize : L → Bool × L
  /-- `MH_Uninitialize`. -/
  mhUninit : L → L
  /-- `MH_CreateHook`: the trampoline it wrote, if it is `MH_OK`. -/
  mhCreateHook : Addr → Detour → L → Option Addr × L
  mhRemoveHook : Addr → L → L
  /-- `MH_EnableHook(..) == MH_OK`. -/
  mhEnableHook : Addr → L → Bool × L
  /-- `MH_DisableHook(..) == MH_OK`. -/
  mhDisableHook : Addr → L → Bool × L
  /-- Whether the target has a hook, and whether that is enabled. -/
  entry : L → Addr → Option Bool

namespace MinHookLib

variable {L : Type}

/-- The enabled state of `t`, and of `t` only, is now `b`. -/
def Sets (lib : MinHookLib L) (t : Addr) (b : Bool) (l l' : L) : Prop :=
  ∀ x, lib.entry l' x = if x = t then some b else lib.entry l x

structure Lawful (lib : MinHookLib L) : Prop where
  initialize_entry : ∀ l, lib.entry (lib.mhInitialize l).2 = lib.entry l
  uninit_entry : ∀ l x, lib.entry (lib.mhUninit l) x = none
  create_ok : ∀ t d l, (lib.mhCreateHook t d l).1.isSome → lib.entry l t = none ∧
    lib.Sets t false l (lib.mhCreateHook t d l).2
  create_fail : ∀ t d l, (lib.mhCreateHook t d l).1 = none → lib.entry (lib.mhCreateHook t d l).2 = lib.entry l
  enable_ok : ∀ t l, (lib.mhEnableHook t l).1 = true → lib.entry l t = some false ∧
    lib.Sets t true l (lib.mhEnableHook t l).2
  enable_fail : ∀ t l, (lib.mhEnableHook t l).1 = false → lib.entry (lib.mhEnableHook t l).2 = lib.entry l
  disable_ok : ∀ t l, (lib.mhDisableHook t l).1 = true → lib.Sets t false l (lib.mhDisableHook t l).2
  disable_fail : ∀ t l, (lib.mhDisableHook t l).1 = false → lib.entry (lib.mhDisableHook t l).2 = lib.entry l

end MinHookLib

/-- `kthook_simple` and `polyhook_x86`, over the code they patch: `K` is the object.
    `install` comes with whether it took. -/
structure PatchLib (L K : Type) where
  create : Addr → Detour → L → K × L
  install : K → L → Bool × K × L
  destroy : K → L → L
  trampoline : K → Addr
  target : K → Addr
  /-- What `destroy` puts back: whether the target was detoured when the object was
      installed. -/
  saved : K → Option Bool
  detoured : L → Addr → Bool

namespace PatchLib

variable {L K : Type}

structure Lawful (lib : PatchLib L K) : Prop where
  create_target : ∀ t d l, lib.target (lib.create t d l).1 = t
  create_saved : ∀ t d l, lib.saved (lib.create t d l).1 = none
  create_keeps : ∀ t d l, lib.detoured (lib.create t d l).2 = lib.detoured l
  install_target : ∀ k l, lib.target (lib.install k l).2.1 = lib.target k
  install_ok : ∀ k l, lib.saved k = none → (lib.install k l).1 = true →
    lib.saved (lib.install k l).2.1 = some (lib.detoured l (lib.target k)) ∧
      ∀ x, lib.detoured (lib.install k l).2.2 x = if x = lib.target k then true else lib.detoured l x
  install_fail : ∀ k l, (lib.install k l).1 = false →
    lib.saved (lib.install k l).2.1 = lib.saved k ∧ lib.detoured (lib.install k l).2.2 = lib.detoured l
  destroy_restores : ∀ k l x, lib.detoured (lib.destroy k l) x =
    if x = lib.target k then (lib.saved k).getD (lib.detoured l x) else lib.detoured l x

end PatchLib

/-! ## minhook -/

/-- What `minhook` works on: the library, `initialized_` and the adapters' trampolines. -/
structure MinhookWorld (L : Type) where
  lib : L
  initialized : Bool
  trampoline : Detour → Addr

structure MinhookHook where
  target : Addr
  detour : Detour
  created : Bool
  enabled : Bool
  deriving DecidableEq, Repr

namespace Minhook

variable {L : Type} (lib : MinHookLib L)

def initializeImpl (w : MinhookWorld L) : Bool × MinhookWorld L :=
  if w.initialized then (true, w)
  else
    let r := lib.mhInitialize w.lib
    (r.1, { w with initialized := r.1, lib := r.2 })

def uninitializeImpl (w : MinhookWorld L) : MinhookWorld L :=
  if w.initialized then { w with lib := lib.mhUninit w.lib, initialized := false } else w

def hook (d : Detour) (target : Addr) (w : MinhookWorld L) : MinhookHook × MinhookWorld L :=
  let r := lib.mhCreateHook target d w.lib
  let trampoline := fun d' => if d' = d then r.1.getD (w.trampoline d) else w.trampoline d'
  (⟨target, d, r.1.isSome, false⟩, { w with lib := r.2, trampoline })

def dropHook (h : MinhookHook) (w : MinhookWorld L) : MinhookWorld L :=
  if h.created then { w with lib := lib.mhRemoveHook h.target w.lib } else w

def install (h : MinhookHook) (w : MinhookWorld L) : Bool × MinhookHook × MinhookWorld L :=
  if !h.created || h.enabled then (false, h, w)
  else
    let r := lib.mhEnableHook h.target w.lib
    if r.1 then (true, { h with enabled := true }, { w with lib := r.2 }) else (false, h, { w with lib := r.2 })

def uninstall (h : MinhookHook) (w : MinhookWorld L) : Bool × MinhookHook × MinhookWorld L :=
  if !h.created || !h.enabled then (false, h, w)
  else
    let r := lib.mhDisableHook h.target w.lib
    if r.1 then (true, { h with enabled := false }, { w with lib := r.2 }) else (false, h, { w with lib := r.2 })

def detoured (w : MinhookWorld L) (t : Addr) : Bool := lib.entry w.lib t == some true

end Minhook

def minhook {L : Type} (lib : MinHookLib L) : HookImpl (MinhookWorld L) MinhookHook where
  initializeImpl := Minhook.initializeImpl lib
  uninitializeImpl := Minhook.uninitializeImpl lib
  hook := Minhook.hook lib
  dropHook := Minhook.dropHook lib
  install := Minhook.install lib
  uninstall := Minhook.uninstall lib
  getOriginal h w := w.trampoline h.detour

/-! ## kthook and cyanide -/

/-- A hook object that owns the library's: `impl_` is there while it counts as installed. -/
structure OwningHook (K : Type) where
  target : Addr
  detour : Detour
  impl : Option K
  deriving Repr

namespace OwningHook

variable {L K : Type} (lib : PatchLib L K)

def release (h : OwningHook K) (l : L) : OwningHook K × L :=
  match h.impl with
  | none => (h, l)
  | some k => ({ h with impl := none }, lib.destroy k l)

def uninstall (h : OwningHook K) (l : L) : Bool × OwningHook K × L :=
  match h.impl with
  | none => (false, h, l)
  | some _ => (true, h.release lib l)

def getOriginal (h : OwningHook K) : Addr :=
  match h.impl with
  | none => 0
  | some k => lib.trampoline k

end OwningHook

namespace Kthook

variable {L K : Type} (lib : PatchLib L K)

def install (h : OwningHook K) (l : L) : Bool × OwningHook K × L :=
  match h.impl with
  | some _ => (false, h, l)
  | none =>
    let r := lib.create h.target h.detour l
    let i := lib.install r.1 r.2
    let h := { h with impl := some i.2.1 }
    if ¬ i.1 then (false, h.release lib i.2.2) else (true, h, i.2.2)

end Kthook

def kthook {L K : Type} (lib : PatchLib L K) : HookImpl L (OwningHook K) where
  initializeImpl l := (true, l)
  uninitializeImpl l := l
  hook d t l := (⟨t, d, none⟩, l)
  dropHook h l := (h.release lib l).2
  install := Kthook.install lib
  uninstall h l := h.uninstall lib l
  getOriginal h _ := h.getOriginal lib

namespace Cyanide

variable {L K : Type} (lib : PatchLib L K)

def install (h : OwningHook K) (l : L) : Bool × OwningHook K × L :=
  match h.impl with
  | some _ => (false, h, l)
  | none =>
    let r := lib.create h.target h.detour l
    let i := lib.install r.1 r.2
    (true, { h with impl := some i.2.1 }, i.2.2)

end Cyanide

def cyanide {L K : Type} (lib : PatchLib L K) : HookImpl L (OwningHook K) where
  initializeImpl l := (true, l)
  uninitializeImpl l := l
  hook d t l := (⟨t, d, none⟩, l)
  dropHook h l := (h.release lib l).2
  install := Cyanide.install lib
  uninstall h l := h.uninstall lib l
  getOriginal h _ := h.getOriginal lib

/-! ## Processes to run them in -/

/-- MinHook on code of which only `executable` can be patched: whether it is initialized
    and its hooks. -/
def minHookOn (executable : Addr → Bool) : MinHookLib (Bool × (Addr → Option Bool)) where
  mhInitialize l := (!l.1, (true, l.2))
  mhUninit _ := (false, fun _ => none)
  mhCreateHook t _ l :=
    if l.1 && executable t && (l.2 t).isNone then
      (some (t + 1), l.1, fun x => if x = t then some false else l.2 x)
    else (none, l)
  mhRemoveHook t l := (l.1, fun x => if x = t then none else l.2 x)
  mhEnableHook t l := if l.2 t = some false then (true, l.1, fun x => if x = t then some true else l.2 x) else (false, l)
  mhDisableHook t l := if l.2 t = some true then (true, l.1, fun x => if x = t then some false else l.2 x) else (false, l)
  entry l := l.2

theorem minHookOn_lawful (executable : Addr → Bool) : (minHookOn executable).Lawful where
  initialize_entry _ := rfl
  uninit_entry _ _ := rfl
  create_ok t d l h := by
    simp only [minHookOn] at h ⊢
    split at h
    · rename_i hc
      simp only [Bool.and_eq_true, Option.isNone_iff_eq_none] at hc
      exact ⟨hc.2, fun x => by simp [hc]⟩
    · cases h
  create_fail t d l h := by
    simp only [minHookOn] at h ⊢
    split at h
    · cases h
    · rename_i hc
      rw [if_neg hc]
  enable_ok t l h := by
    simp only [minHookOn] at h ⊢
    split at h
    · rename_i hc
      exact ⟨hc, fun x => by simp [hc]⟩
    · cases h
  enable_fail t l h := by
    simp only [minHookOn] at h ⊢
    split at h
    · cases h
    · rename_i hc
      rw [if_neg hc]
  disable_ok t l h := by
    simp only [minHookOn] at h ⊢
    split at h
    · rename_i hc
      exact fun x => by simp [hc]
    · cases h
  disable_fail t l h := by
    simp only [minHookOn] at h ⊢
    split at h
    · cases h
    · rename_i hc
      rw [if_neg hc]

structure Patch where
  target : Addr
  saved : Option Bool
  deriving DecidableEq, Repr

/-- A patching library on such code: what is patched. -/
def patchesOn (executable : Addr → Bool) : PatchLib (Addr → Bool) Patch where
  create t _ l := (⟨t, none⟩, l)
  install k l :=
    if executable k.target then (true, ⟨k.target, some (l k.target)⟩, fun x => if x = k.target then true else l x)
    else (false, k, l)
  destroy k l := fun x => if x = k.target then k.saved.getD (l x) else l x
  trampoline k := if k.saved.isSome then k.target + 1 else 0
  target k := k.target
  saved k := k.saved
  detoured l := l

theorem patchesOn_lawful (executable : Addr → Bool) : (patchesOn executable).Lawful where
  create_target _ _ _ := rfl
  create_saved _ _ _ := rfl
  create_keeps _ _ _ := rfl
  install_target k l := by
    simp only [patchesOn]
    split <;> rfl
  install_ok k l _ h := by
    simp only [patchesOn] at h ⊢
    split at h
    · rename_i he
      rw [if_pos he]
      exact ⟨rfl, fun _ => rfl⟩
    · cases h
  install_fail k l h := by
    simp only [patchesOn] at h ⊢
    split at h
    · cases h
    · rename_i he
      rw [if_neg he]
      exact ⟨rfl, rfl⟩
  destroy_restores _ _ _ := rfl

end RakHook.Wrappers
