/-
  RakHook.Wrappers.Sharing — a program that uses `minhook` for hooks of its own, next to a
  hooker over the same `minhook`.

  `initialized_` is one flag for both. A `destroy` of the hooker, or an `initialize` that
  fails to install, takes MinHook down with whatever the program has installed; every
  other call leaves the program's hooks alone.
-/

import RakHook.Wrappers.Report

namespace RakHook.Wrappers

open Lib Hooker

variable {L : Type}

/-- The hooker, whose world is `minhook`'s, and the program's hook objects. -/
structure Program (L : Type) where
  hooker : St (MinhookWorld L) MinhookHook
  host : List MinhookHook

inductive Input where
  /-- `wrappers::minhook::initialize()`. -/
  | initializeMinhook
  | create (n : Nat) (target : Addr)
  | install (i : Nat)
  | hooker (c : Call)

def Program.setWorld (p : Program L) (w : MinhookWorld L) : Program L := { p with hooker := { p.hooker with world := w } }

variable (lib : MinHookLib L)

def stepProgram (p : Program L) : Input → Program L
  | .initializeMinhook => p.setWorld (Minhook.initializeImpl lib p.hooker.world).2
  | .create n target =>
    let r := Minhook.hook lib (.host n) target p.hooker.world
    { p.setWorld r.2 with host := p.host ++ [r.1] }
  | .install i =>
    match p.host[i]? with
    | none => p
    | some h =>
      let r := Minhook.install lib h p.hooker.world
      { p.setWorld r.2.2 with host := p.host.set i r.2.1 }
  | .hooker c => { p with hooker := step (minhook lib) p.hooker c }

def Program.start (versions : VersionManager) (w : MinhookWorld L) : Program L := ⟨St.start versions w, []⟩

/-- `install()` of `h` returned true, and the library has its target detoured. -/
def Installed (h : MinhookHook) (w : MinhookWorld L) : Prop := h.enabled = true ∧ Minhook.detoured lib w h.target = true

/-- What the program has installed a call of the hooker leaves installed. -/
def KeepsHost (p : Program L) : Input → Prop
  | .hooker c => ∀ h ∈ p.host, Installed lib h p.hooker.world → Installed lib h (step (minhook lib) p.hooker c).world
  | _ => True

/-- The call gets to `minhook::uninitialize()`. -/
def TearsDown (s : St (MinhookWorld L) MinhookHook) : Call → Prop
  | .initializeHooker env => ∃ client, Begins (minhook lib) env client s ∧ (hookUp (minhook lib) env client s).1 = false
  | .destroy => s.initialized = true
  | .incomingRpc .. => False

/-- It does, while the program has a hook installed. -/
def Disrupts (p : Program L) : Input → Prop
  | .hooker c => TearsDown lib p.hooker c ∧ ∃ h ∈ p.host, Installed lib h p.hooker.world
  | _ => False

/-! ## What `minhook` keeps -/

section keeps

variable {lib}

theorem initializeImpl_flag {w : MinhookWorld L} (h : (Minhook.initializeImpl lib w).1 = true) :
    (Minhook.initializeImpl lib w).2.initialized = true := by
  unfold Minhook.initializeImpl at h ⊢
  split at h
  · rename_i hw; rw [if_pos hw]; exact hw
  · rename_i hw; rw [if_neg hw]; exact h

theorem initializeImpl_keeps_flag {w : MinhookWorld L} (h : w.initialized = true) :
    (Minhook.initializeImpl lib w).2.initialized = true := by
  unfold Minhook.initializeImpl
  rw [if_pos h]
  exact h

theorem install_flag (h : MinhookHook) (w : MinhookWorld L) :
    (Minhook.install lib h w).2.2.initialized = w.initialized := by
  unfold Minhook.install
  split
  · rfl
  · dsimp only
    split <;> rfl

theorem dropHook_flag (h : MinhookHook) (w : MinhookWorld L) :
    (Minhook.dropHook lib h w).initialized = w.initialized := by
  unfold Minhook.dropHook
  split <;> rfl

theorem uninitializeImpl_entry (hlib : lib.Lawful) {w : MinhookWorld L} (h : w.initialized = true) (x : Addr) :
    Minhook.detoured lib (Minhook.uninitializeImpl lib w) x = false := by
  unfold Minhook.uninitializeImpl Minhook.detoured
  rw [if_pos h]
  simp only [hlib.uninit_entry]
  rfl

theorem detoured_iff {w : MinhookWorld L} {x : Addr} :
    Minhook.detoured lib w x = true ↔ lib.entry w.lib x = some true := by
  unfold Minhook.detoured
  exact beq_iff_eq

theorem initializeImpl_detoured (hlib : lib.Lawful) (w : MinhookWorld L) (x : Addr) :
    Minhook.detoured lib (Minhook.initializeImpl lib w).2 x = Minhook.detoured lib w x := by
  unfold Minhook.initializeImpl Minhook.detoured
  split
  · rfl
  · simp only [hlib.initialize_entry]

theorem hook_detoured (hlib : lib.Lawful) {x : Addr} (d : Detour) (t : Addr) {w : MinhookWorld L}
    (h : Minhook.detoured lib w x = true) : Minhook.detoured lib (Minhook.hook lib d t w).2 x = true := by
  rw [detoured_iff] at h ⊢
  cases hr : (lib.mhCreateHook t d w.lib).1 with
  | none =>
    show lib.entry (lib.mhCreateHook t d w.lib).2 x = some true
    rw [hlib.create_fail t d w.lib hr]
    exact h
  | some a =>
    obtain ⟨hnone, hsets⟩ := hlib.create_ok t d w.lib (by rw [hr]; rfl)
    refine (hsets x).trans ?_
    rw [if_neg (fun e => by rw [e, hnone] at h; cases h)]
    exact h

/-! ## One call of the hooker -/

/-- Between calls: hook objects and the library's flag go with `initialized`. -/
structure Held (s : St (MinhookWorld L) MinhookHook) : Prop where
  noStray : NoStray s
  flag : s.initialized = true → s.world.initialized = true

variable {s : St (MinhookWorld L) MinhookHook} {env : Env} {client : Addr}

/-- What `HookImpl::initialize()` gives and hooks keep is there once the hooks are made. -/
theorem hookUp_keeps {P : MinhookWorld L → Prop} (hhook : ∀ d t w, P w → P (Minhook.hook lib d t w).2)
    (hinstall : ∀ h w, P w → P (Minhook.install lib h w).2.2) (hs : NoStray s) (hb : Begins (minhook lib) env client s)
    (h : P (Minhook.initializeImpl lib s.world).2) : P (hookUp (minhook lib) env client s).2.world := by
  obtain ⟨-, -, hkeep⟩ := makeHooks_spec (minhook lib) env (env.deref client) (begun (minhook lib) env client s)
  have hnone : ∀ k, s.hook k = none := hs (by rw [hb.1]; exact Bool.false_ne_true)
  exact installAll_keeps (minhook lib) hinstall slots (hkeep hhook hnone h)

theorem hookUp_flag (hs : NoStray s) (hb : Begins (minhook lib) env client s) :
    (hookUp (minhook lib) env client s).2.world.initialized = true :=
  hookUp_keeps (P := fun w => w.initialized = true) (fun _ _ _ h => h) (fun o w h => (install_flag o w).trans h) hs hb
    (initializeImpl_flag hb.2.2.2)

theorem step_held (h : Held s) (c : Call) : Held (step (minhook lib) s c) := by
  refine ⟨step_noStray (minhook lib) h.noStray c, ?_⟩
  intro hi'
  rcases step_initialized (minhook lib) hi' with ⟨hi, -, hworld⟩ | ⟨env, client, rfl, hb, -, he⟩
  · rw [hworld]
    exact h.flag hi
  · rw [show step (minhook lib) s (.initializeHooker env) = _ from congrArg Prod.snd he]
    exact hookUp_flag h.noStray hb

theorem destroy_detoured (hlib : lib.Lawful) (hi : s.initialized = true) (hf : s.world.initialized = true) (x : Addr) :
    Minhook.detoured lib (destroy (minhook lib) s).world x = false := by
  unfold destroy
  rw [if_pos hi]
  exact uninitializeImpl_entry hlib (resetAll_keeps (minhook lib) (P := fun w => w.initialized = true)
    (fun o w h => (dropHook_flag o w).trans h) slots hf) x

/-- A call that tears MinHook down leaves nothing detoured. -/
theorem tearsDown_detoured (hlib : lib.Lawful) (h : Held s) {c : Call} (ht : TearsDown lib s c) (x : Addr) :
    Minhook.detoured lib (step (minhook lib) s c).world x = false := by
  cases c with
  | initializeHooker env =>
    obtain ⟨client, hb, hr⟩ := ht
    simp only [step, initialize_begins (minhook lib) hb, hr]
    exact destroy_detoured hlib (s := { (hookUp (minhook lib) env client s).2 with initialized := true }) rfl
      (hookUp_flag h.noStray hb) x
  | destroy => exact destroy_detoured hlib ht (h.flag ht) x
  | incomingRpc rp playerid => exact ht.elim

theorem step_detoured (hlib : lib.Lawful) (h : Held s) {c : Call} (ht : ¬ TearsDown lib s c) {x : Addr}
    (hx : Minhook.detoured lib s.world x = true) : Minhook.detoured lib (step (minhook lib) s c).world x = true := by
  have hinit : Minhook.detoured lib (Minhook.initializeImpl lib s.world).2 x = true :=
    (initializeImpl_detoured hlib s.world x).trans hx
  cases c with
  | initializeHooker env =>
    simp only [step]
    by_cases hi : s.initialized = true
    · rw [initialize_idle (minhook lib) env hi]
      exact hx
    by_cases hb : ∃ client, Begins (minhook lib) env client s
    · obtain ⟨client, hb⟩ := hb
      have hr : (hookUp (minhook lib) env client s).1 = true := by
        by_cases hr : (hookUp (minhook lib) env client s).1 = true
        · exact hr
        · exact absurd ⟨client, hb, Bool.eq_false_iff.mpr hr⟩ ht
      rw [initialize_begins (minhook lib) hb, if_pos hr]
      exact hookUp_keeps (P := fun w => Minhook.detoured lib w x = true) (fun d t _ => hook_detoured hlib d t)
        (fun o _ => minhook_install_detoured hlib o) h.noStray hb hinit
    · obtain ⟨-, -, -, -, hworld⟩ := initialize_stops (minhook lib) (Bool.eq_false_iff.mpr hi) (not_exists.mp hb)
      rcases hworld with hworld | hworld
      · rw [hworld]; exact hx
      · rw [hworld]; exact hinit
  | destroy =>
    rw [show step (minhook lib) s .destroy = s from destroy_idle (minhook lib) ht]
    exact hx
  | incomingRpc rp playerid =>
    simp only [step]
    split <;> exact hx

end keeps

/-! ## Runs of the program -/

variable {lib}

theorem stepProgram_held {p : Program L} (h : Held p.hooker) (input : Input) : Held (stepProgram lib p input).hooker := by
  cases input with
  | initializeMinhook => exact ⟨h.noStray, fun hi => initializeImpl_keeps_flag (h.flag hi)⟩
  | create n target => exact ⟨h.noStray, h.flag⟩
  | install i =>
    simp only [stepProgram]
    split
    · exact h
    · rename_i o _
      exact ⟨h.noStray, fun hi => (install_flag o p.hooker.world).trans (h.flag hi)⟩
  | hooker c => exact step_held h c

theorem keepsHost_iff (hlib : lib.Lawful) {p : Program L} (h : Held p.hooker) (input : Input) :
    KeepsHost lib p input ↔ ¬ Disrupts lib p input := by
  cases input with
  | hooker c =>
    by_cases ht : TearsDown lib p.hooker c
    · refine ⟨?_, fun hn o hmem ho => absurd ⟨ht, o, hmem, ho⟩ hn⟩
      rintro hk ⟨_, o, hmem, ho⟩
      have hgone := tearsDown_detoured hlib h ht o.target
      rw [(hk o hmem ho).2] at hgone
      cases hgone
    · exact iff_of_true (fun o _ ho => ⟨ho.1, step_detoured hlib h ht ho.2⟩) fun hd => ht hd.1
  | initializeMinhook => exact iff_of_true trivial id
  | create n target => exact iff_of_true trivial id
  | install i => exact iff_of_true trivial id

/-- On a run from the start the program keeps its hooks exactly if the hooker never takes
    MinHook down while one of them is installed. -/
theorem host_hooks_iff (hlib : lib.Lawful) (versions : VersionManager) (w : MinhookWorld L) (inputs : List Input) :
    Along (stepProgram lib) (KeepsHost lib) inputs (Program.start versions w) ↔
      Along (stepProgram lib) (fun p i => ¬ Disrupts lib p i) inputs (Program.start versions w) :=
  Along.iff_of_inv (I := fun p => Held p.hooker) (fun _ i h _ => stepProgram_held h i)
    (fun _ i h => keepsHost_iff hlib h i) inputs
    ⟨start_noStray versions w, nofun⟩

/-- A program that installs its hook behind a hooker that is set up and stays so. -/
theorem host_hooks_behind :
    Along (stepProgram (minHookOn fun _ => true)) (KeepsHost (minHookOn fun _ => true))
      [.initializeMinhook, .hooker (.initializeHooker withClient), .create 0 0x53BEE0, .install 0,
        .hooker (.initializeHooker withClient)]
      (Program.start VersionManager.known ⟨(false, fun _ => none), false, fun _ => 0⟩) := by
  refine (host_hooks_iff (minHookOn_lawful _) _ _ _).mpr ⟨id, ?_, id, id, ?_, trivial⟩
  · intro hdisrupts
    obtain ⟨-, o, hmem, -⟩ := hdisrupts
    cases hmem
  · rintro ⟨⟨client, hb, -⟩, -⟩
    exact absurd hb.1 (by decide)

/-- The program installs a hook, then the hooker is set up and destroyed. -/
theorem destroy_removes_host_hook :
    ¬ Along (stepProgram (minHookOn fun _ => true)) (KeepsHost (minHookOn fun _ => true))
      [.initializeMinhook, .create 0 0x53BEE0, .install 0, .hooker (.initializeHooker withClient), .hooker .destroy]
      (Program.start VersionManager.known ⟨(false, fun _ => none), false, fun _ => 0⟩) := by
  intro hkeeps
  obtain ⟨-, -, -, -, h, -⟩ := hkeeps
  have hgone := (h ⟨0x53BEE0, .host 0, true, true⟩ (by decide) ⟨rfl, by decide⟩).2
  exact absurd hgone (by decide)

end RakHook.Wrappers
