/-
  RakHook.VersionHistory — runs of a version manager, and when its reports are right.

  `valid()` looks into the live map, `get()` is the copy the last `update()` made, and
  entry point 0 also stands for an absent module. `History` is a manager with what led to
  it: every addition, and what the last `update()` found. `reportsLatest_iff` says for which
  runs a manager that is valid has a base and the latest offsets of the loaded module.
-/

import RakHook.VersionManager
import RakHook.Lib.Run

namespace RakHook.VersionManager

open Lib

inductive Op where
  | addVersion (entryPoint : Addr) (offsets : VersionOffsets)
  | update (env : Env)

def perform (v : VersionManager) : Op → VersionManager
  | .addVersion entryPoint offsets => v.addVersion entryPoint offsets
  | .update env => v.update env

/-- The latest addition for an entry point, of additions listed latest first. -/
def latest (additions : List (Addr × VersionOffsets)) (entryPoint : Addr) : Option VersionOffsets :=
  (additions.find? fun a => a.1 = entryPoint).map (·.2)

structure History where
  manager : VersionManager
  /-- Latest first. -/
  additions : List (Addr × VersionOffsets)
  /-- The entry point the last `update()` read, if the module was loaded. -/
  loaded : Option Addr
  /-- The latest offsets for it at that moment, `{}` without any. -/
  found : VersionOffsets

namespace History

/-- The entry points `version_manager()` adds, latest first. -/
def knownEntryPoints : List Addr := [0xFDB60, 0xCBCB0, 0xCC4D0, 0x31DF13]

def readEntryPoint (env : Env) : Option Addr :=
  if env.getModuleHandle = 0 then none else some env.addressOfEntryPoint

def knownAdditions : List (Addr × VersionOffsets) := knownEntryPoints.filterMap fun e => (known.versions e).map (e, ·)

def findLoaded (additions : List (Addr × VersionOffsets)) (loaded : Option Addr) : VersionOffsets :=
  (loaded.bind (latest additions)).getD noOffsets

def start (env : Env) : History :=
  { manager := new env, additions := knownAdditions, loaded := readEntryPoint env,
    found := findLoaded knownAdditions (readEntryPoint env) }

def step (h : History) (op : Op) : History :=
  match op with
  | .addVersion entryPoint offsets =>
    { h with manager := h.manager.perform op, additions := (entryPoint, offsets) :: h.additions }
  | .update env =>
    { h with manager := h.manager.perform op, loaded := readEntryPoint env,
             found := findLoaded h.additions (readEntryPoint env) }

/-- A valid manager has a base, and its offsets are the latest for the loaded module. -/
def Reports (h : History) : Prop :=
  h.manager.valid = true →
    h.manager.base ≠ 0 ∧ ∃ e, h.loaded = some e ∧ latest h.additions e = some h.manager.get

/-- An addition for the loaded module comes before the `update()` that finds it, or adds
    what that found; entry point 0 is not added together with an absent module. -/
def Sound (h : History) : Op → Prop
  | .addVersion entryPoint offsets =>
    match h.loaded with
    | none => entryPoint ≠ 0
    | some e => entryPoint = e → offsets = h.found
  | .update env => env.getModuleHandle = 0 → ∀ a ∈ h.additions, a.1 ≠ 0

/-! ## What a manager is after a run -/

theorem latest_cons (a : Addr × VersionOffsets) (additions : List (Addr × VersionOffsets)) (e : Addr) :
    latest (a :: additions) e = if a.1 = e then some a.2 else latest additions e := by
  unfold latest
  rw [List.find?_cons]
  by_cases h : a.1 = e
  · simp [h]
  · simp [h]

theorem latest_eq_none {additions : List (Addr × VersionOffsets)} {e : Addr} :
    latest additions e = none ↔ ∀ a ∈ additions, a.1 ≠ e := by
  simp [latest]

/-- The manager against its history. -/
structure Agrees (h : History) : Prop where
  versions : ∀ e, h.manager.versions e = latest h.additions e
  absent : h.loaded = none → h.manager.base = 0 ∧ h.manager.currentEntryPoint = 0
  present : ∀ e, h.loaded = some e → h.manager.base ≠ 0 ∧ h.manager.currentEntryPoint = e
  found : h.manager.get = h.found

theorem known_versions (e : Addr) : known.versions e = latest knownAdditions e := by
  have hlist : knownAdditions =
      [(0xFDB60, (known.versions 0xFDB60).getD noOffsets), (0xCBCB0, (known.versions 0xCBCB0).getD noOffsets),
        (0xCC4D0, (known.versions 0xCC4D0).getD noOffsets), (0x31DF13, (known.versions 0x31DF13).getD noOffsets)] := rfl
  rw [hlist]
  simp only [latest_cons, known, addVersion, eq_comm (a := e)]
  rfl

theorem update_agrees {v : VersionManager} {additions : List (Addr × VersionOffsets)} (env : Env)
    (hv : ∀ e, v.versions e = latest additions e) :
    Agrees ⟨v.update env, additions, readEntryPoint env, findLoaded additions (readEntryPoint env)⟩ := by
  unfold update readEntryPoint findLoaded
  by_cases hm : env.getModuleHandle = 0
  · rw [if_pos hm, if_pos hm]
    exact ⟨hv, fun _ => ⟨rfl, rfl⟩, by simp, rfl⟩
  · rw [if_neg hm, if_neg hm]
    refine ⟨hv, by simp, ?_, by simp [get, hv]⟩
    intro e he
    exact ⟨hm, Option.some.inj he⟩

theorem start_agrees (env : Env) : Agrees (start env) := update_agrees env known_versions

theorem step_agrees {h : History} (hi : Agrees h) (op : Op) : Agrees (h.step op) := by
  cases op with
  | update env => exact update_agrees env hi.versions
  | addVersion entryPoint offsets =>
    refine ⟨?_, hi.absent, hi.present, hi.found⟩
    intro e
    show (h.manager.addVersion entryPoint offsets).versions e = latest ((entryPoint, offsets) :: h.additions) e
    rw [latest_cons, ← hi.versions e]
    simp only [addVersion, eq_comm]

/-! ## When it is right -/

/-- An absent module is the only thing an `update()` can be wrong about. -/
theorem update_reports {v : VersionManager} {additions : List (Addr × VersionOffsets)} (env : Env)
    (hv : ∀ e, v.versions e = latest additions e) :
    Reports ⟨v.update env, additions, readEntryPoint env, findLoaded additions (readEntryPoint env)⟩ ↔
      (env.getModuleHandle = 0 → ∀ a ∈ additions, a.1 ≠ 0) := by
  unfold Reports readEntryPoint valid
  by_cases hm : env.getModuleHandle = 0
  · simp only [update, hm, if_true, hv]
    rw [← latest_eq_none]
    cases latest additions 0 <;> simp
  · simp only [update, hm, if_false, hv, get, Option.some.injEq, exists_eq_left', ne_eq, not_false_eq_true, true_and,
      false_implies, iff_true]
    intro hs
    cases hl : latest additions env.addressOfEntryPoint with
    | none => rw [hl] at hs; cases hs
    | some offsets => rfl

theorem start_reports (env : Env) : Reports (start env) := by
  refine (update_reports env known_versions).mpr ?_
  intro _
  decide

/-- One addition leaves the report right exactly if it is sound. -/
theorem step_reports {h : History} (hi : Agrees h) (hr : Reports h) (op : Op) : Reports (h.step op) ↔ Sound h op := by
  cases op with
  | update env => exact update_reports env hi.versions
  | addVersion entryPoint offsets =>
    unfold Reports Sound
    simp only [step, perform, valid, addVersion, get, latest_cons]
    rcases hl : h.loaded with _ | e
    · obtain ⟨hb, hc⟩ := hi.absent hl
      rw [hc, hb]
      by_cases he : 0 = entryPoint
      · rw [if_pos he]
        simp [← he]
      · have hnone : h.manager.versions 0 = none := by
          have hnot : ¬ h.manager.valid = true := fun hv => (hr hv).1 hb
          rw [valid, hc] at hnot
          simpa using hnot
        rw [if_neg he, hnone]
        refine ⟨fun _ => Ne.symm he, ?_⟩
        intro _ hv
        cases hv
    · obtain ⟨hb, hc⟩ := hi.present e hl
      have hg : h.manager.currentOffsets = h.found := hi.found
      rw [hc, hg]
      by_cases he : e = entryPoint
      · subst he
        refine ⟨?_, ?_⟩
        · intro hrep _
          obtain ⟨-, e', he', hlat⟩ := hrep (by simp)
          cases he'
          simpa using hlat
        · intro hsound _
          exact ⟨hb, e, rfl, by rw [if_pos rfl, hsound rfl]⟩
      · rw [if_neg he]
        refine ⟨fun _ hee => absurd hee.symm he, ?_⟩
        intro _ hv
        obtain ⟨-, e', he', hlat⟩ := hr (by rw [valid, hc]; exact hv)
        rw [hl] at he'
        cases he'
        rw [← hg]
        exact ⟨hb, e, rfl, by rw [if_neg (Ne.symm he)]; exact hlat⟩

/-- In every state of a run the report is right exactly if every step of it is sound. -/
theorem reportsLatest_iff (env : Env) (ops : List Op) :
    Reports (start env) ∧ Along step (fun h op => Reports (h.step op)) ops (start env) ↔
      Along step Sound ops (start env) := by
  have hrun : Along step (fun h op => Reports (h.step op)) ops (start env) ↔ Along step Sound ops (start env) :=
    Along.iff_of_inv (I := fun h => Agrees h ∧ Reports h)
    (fun h op hi hq => ⟨step_agrees hi.1 op, (step_reports hi.1 hi.2 op).mpr hq⟩)
    (fun h op hi => step_reports hi.1 hi.2 op) ops ⟨start_agrees env, start_reports env⟩
  rw [← hrun]
  exact and_iff_right (start_reports env)

def unknownVersion : Env := { getModuleHandle := 0x10000000, addressOfEntryPoint := 0xCBC90, deref := fun _ => 0 }

/-- Offsets for the loaded module that are added after the constructor's `update()`: the
    manager is valid at once and `get()` still returns zeros. -/
theorem added_after_update :
    ¬ (Reports (start unknownVersion) ∧
      Along step (fun h op => Reports (h.step op)) [.addVersion 0xCBC90 ⟨0x26eb94, 0x2c, 0, 0, 0, 0, 0⟩]
        (start unknownVersion)) := by
  rintro ⟨-, h, -⟩
  obtain ⟨-, e, he, hl⟩ := h (by decide)
  cases he
  revert hl
  decide

end History

end RakHook.VersionManager
