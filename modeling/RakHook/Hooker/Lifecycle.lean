/-
  RakHook.Hooker.Lifecycle — what a caller of `initialize` and `destroy` can rely on.

  A hooker is `Up` (every hook installed, the back end held once) or `Down` (nothing left
  behind), whatever fails on the way, but for one slip: `orig` is assigned before the
  virtual table is checked and before `HookImpl::initialize()` is called, and a return
  there leaves it set. `Stalls` is that case; `lifecycle_iff` says it is the only one.
-/

import RakHook.Hooker.Setup
import RakHook.Lib.Run

namespace RakHook.Hooker

open Lib

variable {W H : Type}

/-! ## States -/

/-- Hooked up with `client`. -/
structure Up (client : Addr) (s : St W H) : Prop where
  initialized : s.initialized = true
  hooked : ∀ k, s.hooked k = true
  orig : s.orig = client
  client : client ≠ 0
  held : s.initializes = s.uninitializes + 1

/-- Nothing is left behind. -/
structure Down (s : St W H) : Prop where
  initialized : s.initialized = false
  hook : ∀ k, s.hook k = none
  orig : s.orig = 0
  rakpeer : s.rakpeer = 0
  held : s.initializes = s.uninitializes

theorem not_up_and_down {client : Addr} {s : St W H} : ¬ (Up client s ∧ Down s) := by
  rintro ⟨hu, hd⟩
  exact Bool.noConfusion (hu.initialized.symm.trans hd.initialized)

theorem start_down (versions : VersionManager) (world : W) : Down (St.start versions world : St W H) :=
  ⟨rfl, fun _ => rfl, rfl, rfl, rfl⟩

variable (impl : HookImpl W H)

theorem destroy_spec {client : Addr} {s : St W H} (h : Up client s) : Down (destroy impl s) := by
  obtain ⟨hs, hk⟩ := resetAll_spec impl slots s
  unfold destroy
  rw [if_pos h.initialized]
  refine ⟨rfl, fun k => hk k (mem_slots k), rfl, rfl, ?_⟩
  show (slots.foldl (reset impl) s).initializes = (slots.foldl (reset impl) s).uninitializes + 1
  rw [hs.initializes, hs.uninitializes]
  exact h.held

/-! ## `initialize` -/

/-- `initialize` gets a client and then returns early. -/
def Stalls (s : St W H) : Call → Prop
  | .initializeHooker env => s.initialized = false ∧ ∃ client, findClient env (s.versions.update env) = some client ∧
      (env.deref client = 0 ∨ (impl.initializeImpl s.world).1 = false)
  | _ => False

theorem findClient_ne_zero {env : Env} {v : VersionManager} {client : Addr} (h : findClient env v = some client) :
    client ≠ 0 := by
  unfold findClient at h
  dsimp only at h
  split at h
  · cases h
  · split at h
    · cases h
    · split at h
      · cases h
      · rename_i hne
        cases h
        exact hne

theorem initialize_cases (env : Env) {s : St W H} (h : Down s) :
    (findClient env (s.versions.update env) = none ∧ (initializeHooker impl env s).1 = false ∧
      Down (initializeHooker impl env s).2) ∨
    ∃ client, findClient env (s.versions.update env) = some client ∧
      (((env.deref client = 0 ∨ (impl.initializeImpl s.world).1 = false) ∧ (initializeHooker impl env s).1 = false ∧
          (initializeHooker impl env s).2.initialized = false ∧ (initializeHooker impl env s).2.orig = client) ∨
        (¬ (env.deref client = 0 ∨ (impl.initializeImpl s.world).1 = false) ∧
          ((initializeHooker impl env s).1 = true ∧ Up client (initializeHooker impl env s).2 ∨
            (initializeHooker impl env s).1 = false ∧ Down (initializeHooker impl env s).2))) := by
  rcases initialize_trichotomy impl env h.initialized with hf | ⟨client, hf, hstall⟩ | ⟨client, hb⟩
  · left
    rw [initialize_noClient impl h.initialized hf]
    exact ⟨hf, rfl, h.initialized, h.hook, h.orig, h.rakpeer, h.held⟩
  · right
    obtain ⟨w, -, he⟩ := initialize_stalls impl h.initialized hf hstall
    rw [he]
    exact ⟨client, hf, .inl ⟨hstall, rfl, h.initialized, rfl⟩⟩
  · right
    obtain ⟨-, hf, hv, himpl⟩ := id hb
    obtain ⟨hs, hall⟩ := hookUp_spec impl env client s
    have hheld : (hookUp impl env client s).2.initializes = (hookUp impl env client s).2.uninitializes + 1 := by
      rw [hs.initializes, hs.uninitializes]
      exact congrArg (· + 1) h.held
    refine ⟨client, hf, .inr ⟨?_, ?_⟩⟩
    · rintro (hv' | himpl')
      · exact hv hv'
      · rw [himpl] at himpl'; cases himpl'
    · rw [initialize_begins impl hb]
      by_cases hr : (hookUp impl env client s).1 = true
      · left
        rw [if_pos hr]
        exact ⟨rfl, rfl, hall hr, hs.orig, findClient_ne_zero hf, hheld⟩
      · right
        rw [if_neg hr]
        obtain ⟨hreset, hnone⟩ := resetAll_spec impl slots { (hookUp impl env client s).2 with initialized := true }
        refine ⟨rfl, rfl, fun k => hnone k (mem_slots k), rfl, rfl, ?_⟩
        refine Eq.trans ?_ (hheld.trans (congrArg (· + 1) ?_))
        · exact hreset.initializes
        · exact hreset.uninitializes.symm

/-! ## Runs -/

/-- The client pointer a run has come to rely on: the one read by the last `initialize`
    that found the hooker down. -/
def clientAfter (x : St W H × Addr) : Call → Addr
  | .initializeHooker env =>
    if x.1.initialized then x.2 else (findClient env (x.1.versions.update env)).getD 0
  | _ => x.2

def stepClient (x : St W H × Addr) (c : Call) : St W H × Addr := (step impl x.1 c, clientAfter x c)

/-- After the call exactly one of the two states holds, and `initialize` returned true
    exactly if it is `Up`. -/
def Settles (x : St W H × Addr) (c : Call) : Prop :=
  let s' := step impl x.1 c
  ((Up (clientAfter x c) s' ∨ Down s') ∧ ¬ (Up (clientAfter x c) s' ∧ Down s')) ∧
    ∀ env, c = .initializeHooker env → ((initializeHooker impl env x.1).1 = true ↔ Up (clientAfter x c) s')

section settles

variable {impl} {x : St W H × Addr} {c : Call}

theorem settles_of_up (hu : Up (clientAfter x c) (step impl x.1 c))
    (hret : ∀ env, c = .initializeHooker env → (initializeHooker impl env x.1).1 = true) : Settles impl x c := by
  refine ⟨⟨.inl hu, not_up_and_down⟩, ?_⟩
  intro env he
  exact iff_of_true (hret env he) hu

theorem settles_of_down (hd : Down (step impl x.1 c))
    (hret : ∀ env, c = .initializeHooker env → (initializeHooker impl env x.1).1 = false) : Settles impl x c := by
  refine ⟨⟨.inr hd, not_up_and_down⟩, ?_⟩
  intro env he
  refine iff_of_false ?_ fun hu => not_up_and_down ⟨hu, hd⟩
  rw [hret env he]
  exact Bool.false_ne_true

theorem not_stalls_of_up {client : Addr} {s : St W H} (hu : Up client s) : ¬ Stalls impl s c := by
  intro hs
  cases c with
  | initializeHooker env => exact Bool.noConfusion (hu.initialized.symm.trans hs.1)
  | destroy => exact hs
  | incomingRpc rp playerid => exact hs

theorem settles_up (hu : Up x.2 x.1) : Settles impl x c := by
  cases c with
  | initializeHooker env =>
    have hidle := initialize_idle impl env hu.initialized
    refine settles_of_up ?_ ?_
    · simp only [step, clientAfter, hidle, if_pos hu.initialized]
      exact hu
    · intro env' _
      rw [initialize_idle impl env' hu.initialized]
  | destroy => exact settles_of_down (destroy_spec impl hu) fun _ he => Call.noConfusion he
  | incomingRpc rp playerid =>
    refine settles_of_up ?_ fun _ he => Call.noConfusion he
    simp only [step, clientAfter]
    rw [if_pos (hu.hooked _)]
    exact ⟨hu.initialized, hu.hooked, hu.orig, hu.client, hu.held⟩

/-- From a hooker that is down `initialize` settles unless it stalls, and then `orig` stays
    behind. -/
theorem settles_initialize (hd : Down x.1) (env : Env) :
    Settles impl x (.initializeHooker env) ↔ ¬ Stalls impl x.1 (.initializeHooker env) := by
  have hneg : ¬ (x.1.initialized = true) := by rw [hd.initialized]; exact Bool.false_ne_true
  have hdown : (initializeHooker impl env x.1).1 = false → Down (initializeHooker impl env x.1).2 →
      Settles impl x (.initializeHooker env) := by
    intro hr hdn
    refine settles_of_down hdn ?_
    intro env' he
    cases he
    exact hr
  rcases initialize_cases impl env hd with ⟨hf, hr, hdn⟩ | ⟨cl, hf, ⟨hstall, -, hini, horig⟩ | ⟨hgo, hres⟩⟩
  · refine iff_of_true (hdown hr hdn) ?_
    rintro ⟨-, cl, hcl, -⟩
    rw [hf] at hcl
    cases hcl
  · refine iff_of_false ?_ fun h => h ⟨hd.initialized, cl, hf, hstall⟩
    intro h
    rcases h.1.1 with hu | hdn
    · exact Bool.noConfusion (hu.initialized.symm.trans hini)
    · exact absurd (horig.symm.trans hdn.orig) (findClient_ne_zero hf)
  · refine iff_of_true ?_ ?_
    · rcases hres with ⟨hr, hu⟩ | ⟨hr, hdn⟩
      · refine settles_of_up ?_ ?_
        · simp only [step, clientAfter, if_neg hneg, hf]
          exact hu
        · intro env' he
          cases he
          exact hr
      · exact hdown hr hdn
    · rintro ⟨-, cl', hcl, hor⟩
      rw [hf] at hcl
      cases hcl
      exact hgo hor

end settles

theorem settles_iff {x : St W H × Addr} (hx : Up x.2 x.1 ∨ Down x.1) (c : Call) :
    Settles impl x c ↔ ¬ Stalls impl x.1 c := by
  rcases hx with hu | hd
  · exact iff_of_true (settles_up hu) (not_stalls_of_up hu)
  have hneg : ¬ (x.1.initialized = true) := by rw [hd.initialized]; exact Bool.false_ne_true
  cases c with
  | initializeHooker env => exact settles_initialize hd env
  | destroy =>
    refine iff_of_true (settles_of_down ?_ fun _ he => Call.noConfusion he) id
    rw [show step impl x.1 .destroy = x.1 from destroy_idle impl hneg]
    exact hd
  | incomingRpc rp playerid =>
    refine iff_of_true (settles_of_down ?_ fun _ he => Call.noConfusion he) id
    have hnone : x.1.hook .handleRpcHook = none := hd.hook _
    simp only [step]
    rw [if_neg (by simp [St.hooked, hnone])]
    exact hd

/-- On a run from the start every call settles exactly if no `initialize` stalls. -/
theorem lifecycle_iff (versions : VersionManager) (world : W) (calls : List Call) :
    Along (stepClient impl) (Settles impl) calls (St.start versions world, 0) ↔
      Along (stepClient impl) (fun x c => ¬ Stalls impl x.1 c) calls (St.start versions world, 0) :=
  Along.iff_of_inv (I := fun x => Up x.2 x.1 ∨ Down x.1) (fun _ c hx hc => ((settles_iff impl hx c).mpr hc).1.1)
    (fun _ c hx => settles_iff impl hx c) calls (.inr (start_down versions world))

def willing : HookImpl Unit Unit where
  initializeImpl w := (true, w)
  uninitializeImpl w := w
  hook _ _ w := ((), w)
  dropHook _ w := w
  install h w := (true, h, w)
  uninstall h w := (true, h, w)
  getOriginal _ _ := 0

/-- 0.3.7 R1 with a client whose virtual table pointer is null. -/
def noVtable : Env where
  getModuleHandle := 0x10000000
  addressOfEntryPoint := 0x31DF13
  deref a := if a = 0x1021a0f8 then 0x20000000 else if a = 0x200003c9 then 0x30000000 else 0

/-- `initialize` returns false there and `orig` is set. -/
theorem initialize_keeps_orig :
    ¬ Along (stepClient willing) (Settles willing) [.initializeHooker noVtable]
      (St.start VersionManager.known (), 0) := by
  rintro ⟨h, -⟩
  have hdown : Down (St.start VersionManager.known () : St Unit Unit) := start_down _ _
  have hstall : Stalls willing (St.start VersionManager.known ()) (.initializeHooker noVtable) :=
    ⟨rfl, 0x30000000, by decide, .inl (by decide)⟩
  exact (settles_iff willing (.inr hdown) _).mp h hstall

end RakHook.Hooker
