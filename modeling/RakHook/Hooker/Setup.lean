/-
  RakHook.Hooker.Setup — what `initialize` and `destroy` change, part by part.

  `Begins` is an `initialize` that gets as far as making the hooks, `hookUp` what it makes
  and installs then; `initialize_begins` and `initialize_stops` are all it can do from a
  hooker that is not set up.
-/

import RakHook.Hooker.Model

namespace RakHook.Hooker

variable {W H : Type}

/-- Only hooks and the back end changed between `s` and `s'`. -/
structure OnlyHooks (s s' : St W H) : Prop where
  initialized : s'.initialized = s.initialized
  orig : s'.orig = s.orig
  rakpeer : s'.rakpeer = s.rakpeer
  versions : s'.versions = s.versions
  initializes : s'.initializes = s.initializes
  uninitializes : s'.uninitializes = s.uninitializes

namespace OnlyHooks

variable {s s' s'' : St W H}

theorem refl (s : St W H) : OnlyHooks s s := ⟨rfl, rfl, rfl, rfl, rfl, rfl⟩

theorem trans (h : OnlyHooks s s') (h' : OnlyHooks s' s'') : OnlyHooks s s'' :=
  ⟨h'.initialized.trans h.initialized, h'.orig.trans h.orig, h'.rakpeer.trans h.rakpeer, h'.versions.trans h.versions,
    h'.initializes.trans h.initializes, h'.uninitializes.trans h.uninitializes⟩

end OnlyHooks

theorem mem_slots (k : Slot) : k ∈ slots := by cases k <;> decide

variable (impl : HookImpl W H)

/-! ## `reset()` -/

theorem reset_spec (s : St W H) (k : Slot) :
    OnlyHooks s (reset impl s k) ∧ ∀ k', (reset impl s k).hook k' = if k' = k then none else s.hook k' := by
  unfold reset
  split
  · rename_i h
    refine ⟨.refl s, ?_⟩
    intro k'
    split
    · rename_i e; rw [e]; exact h
    · rfl
  · exact ⟨⟨rfl, rfl, rfl, rfl, rfl, rfl⟩, fun _ => rfl⟩

theorem reset_none {s : St W H} {k : Slot} (h : s.hook k = none) : reset impl s k = s := by
  unfold reset
  rw [h]

theorem resetAll_spec (ks : List Slot) (s : St W H) :
    OnlyHooks s (ks.foldl (reset impl) s) ∧ ∀ k ∈ ks, (ks.foldl (reset impl) s).hook k = none := by
  have hnone : ∀ (ks : List Slot) (s : St W H) k, s.hook k = none → (ks.foldl (reset impl) s).hook k = none := by
    intro ks
    induction ks with
    | nil => intro _ _ h; exact h
    | cons k' ks ih =>
      intro s k h
      refine ih _ _ ?_
      rw [(reset_spec impl s k').2]
      split
      · rfl
      · exact h
  induction ks generalizing s with
  | nil => exact ⟨.refl s, nofun⟩
  | cons k ks ih =>
    obtain ⟨hs, hk⟩ := reset_spec impl s k
    obtain ⟨hs', hk'⟩ := ih (reset impl s k)
    refine ⟨hs.trans hs', ?_⟩
    intro k' hmem
    rcases List.mem_cons.mp hmem with rfl | hmem
    · exact hnone ks _ _ (by rw [hk, if_pos rfl])
    · exact hk' k' hmem

theorem resetAll_keeps {P : W → Prop} (hP : ∀ h w, P w → P (impl.dropHook h w)) (ks : List Slot) {s : St W H}
    (h : P s.world) : P (ks.foldl (reset impl) s).world := by
  induction ks generalizing s with
  | nil => exact h
  | cons k ks ih =>
    refine ih ?_
    unfold reset
    split
    · exact h
    · exact hP _ _ h

theorem destroy_hook {s : St W H} (h : s.initialized = true) (k : Slot) : (destroy impl s).hook k = none := by
  unfold destroy
  rw [if_pos h]
  exact (resetAll_spec impl slots s).2 k (mem_slots k)

theorem destroy_idle {s : St W H} (h : ¬ s.initialized = true) : destroy impl s = s := by
  unfold destroy
  rw [if_neg h]

theorem destroy_initialized (s : St W H) : (destroy impl s).initialized = false := by
  unfold destroy
  split
  · rfl
  · rename_i h
    exact Bool.eq_false_iff.mpr h

/-! ## Making the hooks -/

theorem makeHook_spec (s : St W H) (k : Slot) (target : Addr) :
    OnlyHooks s (makeHook impl s k target) ∧
      (makeHook impl s k target).hook k = some ⟨(impl.hook k.detour target s.world).1, target, s.created, false⟩ ∧
      ∀ k', k' ≠ k → (makeHook impl s k target).hook k' = s.hook k' := by
  obtain ⟨hs, hk⟩ := reset_spec impl { s with world := (impl.hook k.detour target s.world).2 } k
  refine ⟨⟨hs.initialized, hs.orig, hs.rakpeer, hs.versions, hs.initializes, hs.uninitializes⟩, if_pos rfl, ?_⟩
  intro k' hne
  show (if k' = k then _ else (reset impl _ k).hook k') = s.hook k'
  rw [if_neg hne, hk, if_neg hne]

theorem makeHook_world {s : St W H} {k : Slot} (h : s.hook k = none) (target : Addr) :
    (makeHook impl s k target).world = (impl.hook k.detour target s.world).2 := by
  have hreset := reset_none impl (s := { s with world := (impl.hook k.detour target s.world).2 }) h
  exact congrArg St.world hreset

/-- Slot by slot, from a hooker without hooks: what is made, and what every
    construction keeps of the back end. -/
theorem makeHooks_spec (env : Env) (vtable : Addr) (s : St W H) :
    OnlyHooks s (makeHooks impl env vtable s) ∧
      (∀ k, ∃ w serial, (makeHooks impl env vtable s).hook k = some
        ⟨(impl.hook k.detour (target env s.versions vtable k) w).1, target env s.versions vtable k, serial, false⟩) ∧
      ∀ {P : W → Prop}, (∀ d t w, P w → P (impl.hook d t w).2) → (∀ k, s.hook k = none) → P s.world →
        P (makeHooks impl env vtable s).world := by
  let make := fun (s : St W H) k => makeHook impl s k (target env s.versions vtable k)
  have hfold : ∀ ks : List Slot, ks.Nodup → ∀ s : St W H, OnlyHooks s (ks.foldl make s) ∧
      (∀ k ∈ ks, ∃ w serial, (ks.foldl make s).hook k = some
        ⟨(impl.hook k.detour (target env s.versions vtable k) w).1, target env s.versions vtable k, serial, false⟩) ∧
      (∀ k, k ∉ ks → (ks.foldl make s).hook k = s.hook k) ∧
      ∀ {P : W → Prop}, (∀ d t w, P w → P (impl.hook d t w).2) → (∀ k ∈ ks, s.hook k = none) → P s.world →
        P (ks.foldl make s).world := by
    intro ks hks
    induction ks with
    | nil => exact fun s => ⟨.refl s, nofun, fun _ _ => rfl, fun _ _ h => h⟩
    | cons k ks ih =>
      intro s
      obtain ⟨hk, hks⟩ := List.nodup_cons.mp hks
      obtain ⟨hs, hmade, hother⟩ := makeHook_spec impl s k (target env s.versions vtable k)
      obtain ⟨hs', hmade', hother', hkeep⟩ := ih hks (make s k)
      refine ⟨hs.trans hs', ?_, ?_, ?_⟩
      · intro k' hmem
        rcases List.mem_cons.mp hmem with rfl | hmem
        · exact ⟨s.world, s.created, (hother' k' hk).trans hmade⟩
        · rw [← hs.versions]
          exact hmade' k' hmem
      · intro k' hmem
        obtain ⟨hne, hmem⟩ : k' ≠ k ∧ k' ∉ ks := by simpa using hmem
        exact (hother' k' hmem).trans (hother k' hne)
      · intro P hP hnone h
        refine hkeep hP ?_ ?_
        · intro k' hmem
          rw [show (make s k).hook k' = s.hook k' from hother k' (fun e => hk (e ▸ hmem))]
          exact hnone k' (List.mem_cons_of_mem k hmem)
        · rw [show (make s k).world = _ from makeHook_world impl (hnone k (List.mem_cons_self ..)) _]
          exact hP _ _ _ h
  obtain ⟨hs, hmade, -, hkeep⟩ := hfold slots (by decide) s
  exact ⟨hs, fun k => hmade k (mem_slots k), fun hP hnone h => hkeep hP (fun k _ => hnone k) h⟩

/-! ## Installing them -/

theorem installHook_spec (s : St W H) (k : Slot) :
    OnlyHooks s (installHook impl s k).2 ∧ ((installHook impl s k).1 = true → (installHook impl s k).2.hooked k = true) ∧
      ∀ k', k' ≠ k → (installHook impl s k).2.hook k' = s.hook k' := by
  unfold installHook
  split
  · exact ⟨.refl s, nofun, fun _ _ => rfl⟩
  · refine ⟨⟨rfl, rfl, rfl, rfl, rfl, rfl⟩, ?_, fun k' hne => if_neg hne⟩
    intro h
    simp only [St.hooked, St.setHook, if_true, Option.any_some]
    exact h

theorem installHook_some {s : St W H} {k : Slot} {h : Hook H} (hk : s.hook k = some h) :
    installHook impl s k = ((impl.install h.impl s.world).1,
      { s.setHook k (some { h with impl := (impl.install h.impl s.world).2.1, installed := (impl.install h.impl s.world).1 }) with
        world := (impl.install h.impl s.world).2.2 }) := by
  unfold installHook
  rw [hk]

theorem installAll_spec (ks : List Slot) (hks : ks.Nodup) (s : St W H) :
    OnlyHooks s (installAll impl ks s).2 ∧
      ((installAll impl ks s).1 = true → ∀ k ∈ ks, (installAll impl ks s).2.hooked k = true) ∧
      ∀ k, k ∉ ks → (installAll impl ks s).2.hook k = s.hook k := by
  induction ks generalizing s with
  | nil => exact ⟨.refl s, fun _ => nofun, fun _ _ => rfl⟩
  | cons k ks ih =>
    obtain ⟨hk, hks⟩ := List.nodup_cons.mp hks
    obtain ⟨hs, hin, hother⟩ := installHook_spec impl s k
    obtain ⟨hs', hin', hother'⟩ := ih hks (installHook impl s k).2
    have hrest : ∀ k', k' ∉ k :: ks → k' ≠ k ∧ k' ∉ ks := fun k' h => by simpa using h
    unfold installAll
    dsimp only
    split
    · rename_i hok
      refine ⟨hs.trans hs', ?_, ?_⟩
      · intro hall k' hmem
        rcases List.mem_cons.mp hmem with rfl | hmem
        · unfold St.hooked
          rw [hother' k' hk]
          exact hin hok
        · exact hin' hall k' hmem
      · intro k' hmem
        exact (hother' k' (hrest k' hmem).2).trans (hother k' (hrest k' hmem).1)
    · exact ⟨hs, nofun, fun k' hmem => hother k' (hrest k' hmem).1⟩

theorem installAll_keeps {P : W → Prop} (hP : ∀ h w, P w → P (impl.install h w).2.2) (ks : List Slot) {s : St W H}
    (h : P s.world) : P (installAll impl ks s).2.world := by
  induction ks generalizing s with
  | nil => exact h
  | cons k ks ih =>
    have hone : P (installHook impl s k).2.world := by
      unfold installHook
      split
      · exact h
      · exact hP _ _ h
    unfold installAll
    dsimp only
    split
    · exact ih hone
    · exact hone

/-! ## `initialize` -/

theorem initialize_idle (env : Env) {s : St W H} (h : s.initialized = true) :
    initializeHooker impl env s = (true, s) := by
  unfold initializeHooker
  rw [if_pos h]

/-- `initialize` has a client with a virtual table and `HookImpl::initialize()` succeeds. -/
def Begins (env : Env) (client : Addr) (s : St W H) : Prop :=
  s.initialized = false ∧ findClient env (s.versions.update env) = some client ∧ env.deref client ≠ 0 ∧
    (impl.initializeImpl s.world).1 = true

def begun (env : Env) (client : Addr) (s : St W H) : St W H :=
  { s with
    versions := s.versions.update env
    orig := client
    world := (impl.initializeImpl s.world).2
    initializes := s.initializes + 1 }

/-- The hooks made and installed from there. -/
def hookUp (env : Env) (client : Addr) (s : St W H) : Bool × St W H :=
  installAll impl slots (makeHooks impl env (env.deref client) (begun impl env client s))

theorem hookUp_spec (env : Env) (client : Addr) (s : St W H) :
    OnlyHooks (begun impl env client s) (hookUp impl env client s).2 ∧
      ((hookUp impl env client s).1 = true → ∀ k, (hookUp impl env client s).2.hooked k = true) := by
  obtain ⟨hmake, -⟩ := makeHooks_spec impl env (env.deref client) (begun impl env client s)
  obtain ⟨hins, hall, -⟩ := installAll_spec impl slots (by decide)
    (makeHooks impl env (env.deref client) (begun impl env client s))
  exact ⟨hmake.trans hins, fun h k => hall h k (mem_slots k)⟩

theorem initialize_begins {env : Env} {client : Addr} {s : St W H} (h : Begins impl env client s) :
    initializeHooker impl env s =
      if (hookUp impl env client s).1 then (true, { (hookUp impl env client s).2 with initialized := true })
      else (false, destroy impl { (hookUp impl env client s).2 with initialized := true }) := by
  obtain ⟨hi, hf, hv, himpl⟩ := h
  unfold initializeHooker
  rw [if_neg (by rw [hi]; exact Bool.false_ne_true)]
  simp only [hf]
  rw [if_neg hv, if_neg (by rw [himpl]; exact fun h => h rfl)]
  rfl

theorem initialize_noClient {env : Env} {s : St W H} (hi : s.initialized = false)
    (hf : findClient env (s.versions.update env) = none) :
    initializeHooker impl env s = (false, { s with versions := s.versions.update env }) := by
  unfold initializeHooker
  rw [if_neg (by rw [hi]; exact Bool.false_ne_true)]
  simp only [hf]

theorem initialize_stalls {env : Env} {client : Addr} {s : St W H} (hi : s.initialized = false)
    (hf : findClient env (s.versions.update env) = some client)
    (h : env.deref client = 0 ∨ (impl.initializeImpl s.world).1 = false) :
    ∃ w, (w = s.world ∨ w = (impl.initializeImpl s.world).2) ∧
      initializeHooker impl env s = (false, { s with versions := s.versions.update env, orig := client, world := w }) := by
  unfold initializeHooker
  rw [if_neg (by rw [hi]; exact Bool.false_ne_true)]
  simp only [hf]
  by_cases hv : env.deref client = 0
  · exact ⟨s.world, .inl rfl, if_pos hv⟩
  · have himpl : (impl.initializeImpl s.world).1 = false := h.resolve_left hv
    refine ⟨_, .inr rfl, ?_⟩
    rw [if_neg hv, if_pos (by rw [himpl]; exact Bool.false_ne_true)]

/-- The three ways `initialize` can go from a hooker that is not set up. -/
theorem initialize_trichotomy (env : Env) {s : St W H} (hi : s.initialized = false) :
    findClient env (s.versions.update env) = none ∨
      (∃ client, findClient env (s.versions.update env) = some client ∧
        (env.deref client = 0 ∨ (impl.initializeImpl s.world).1 = false)) ∨
      ∃ client, Begins impl env client s := by
  rcases hf : findClient env (s.versions.update env) with _ | client
  · exact .inl rfl
  · by_cases h : env.deref client = 0 ∨ (impl.initializeImpl s.world).1 = false
    · exact .inr (.inl ⟨client, rfl, h⟩)
    · obtain ⟨hv, himpl⟩ := not_or.mp h
      exact .inr (.inr ⟨client, hi, hf, hv, by simpa using himpl⟩)

/-- Short of `Begins` it returns false and leaves the hooks alone. -/
theorem initialize_stops {env : Env} {s : St W H} (hi : s.initialized = false)
    (h : ∀ client, ¬ Begins impl env client s) :
    (initializeHooker impl env s).1 = false ∧ (initializeHooker impl env s).2.initialized = false ∧
      (initializeHooker impl env s).2.hook = s.hook ∧ (initializeHooker impl env s).2.created = s.created ∧
      ((initializeHooker impl env s).2.world = s.world ∨
        (initializeHooker impl env s).2.world = (impl.initializeImpl s.world).2) := by
  rcases initialize_trichotomy impl env hi with hf | ⟨client, hf, hstall⟩ | ⟨client, hb⟩
  · rw [initialize_noClient impl hi hf]
    exact ⟨rfl, hi, rfl, rfl, .inl rfl⟩
  · obtain ⟨w, hw, he⟩ := initialize_stalls impl hi hf hstall
    rw [he]
    exact ⟨rfl, hi, rfl, rfl, hw⟩
  · exact absurd hb (h client)

/-- 0.3.7 R1 with a client; everywhere else memory holds its own address. -/
def withClient : Env where
  getModuleHandle := 0x10000000
  addressOfEntryPoint := 0x31DF13
  deref a :=
    if a = 0x1021a0f8 then 0x20000000
    else if a = 0x200003c9 then 0x30000000
    else if a = 0x30000000 then 0x40000000
    else a

example : findClient withClient (VersionManager.known.update withClient) = some 0x30000000 := by decide

/-! ## Hooks between calls -/

/-- Hook objects exist only while the hooker is set up. -/
def NoStray (s : St W H) : Prop := ¬ s.initialized = true → ∀ k, s.hook k = none

theorem start_noStray (versions : VersionManager) (world : W) : NoStray (St.start versions world : St W H) :=
  fun _ _ => rfl

theorem destroy_noStray {s : St W H} (h : NoStray s) : NoStray (destroy impl s) := by
  intro _ k
  by_cases hi : s.initialized = true
  · exact destroy_hook impl hi k
  · rw [destroy_idle impl hi]
    exact h hi k

theorem step_noStray {s : St W H} (h : NoStray s) (c : Call) : NoStray (step impl s c) := by
  cases c with
  | initializeHooker env =>
    simp only [step]
    by_cases hi : s.initialized = true
    · rw [initialize_idle impl env hi]
      exact h
    by_cases hb : ∃ client, Begins impl env client s
    · obtain ⟨client, hb⟩ := hb
      rw [initialize_begins impl hb]
      split
      · exact fun hn => absurd rfl hn
      · intro _ k
        exact destroy_hook impl (s := { (hookUp impl env client s).2 with initialized := true }) rfl k
    · obtain ⟨-, -, hhook, -, -⟩ := initialize_stops impl (Bool.eq_false_iff.mpr hi) (not_exists.mp hb)
      intro _ k
      rw [hhook]
      exact h hi k
  | destroy => exact destroy_noStray impl h
  | incomingRpc rp playerid =>
    simp only [step]
    split
    · exact h
    · exact h

/-- How a call can leave the hooker set up: it was and is as it was, or the call set it up. -/
theorem step_initialized {s : St W H} {c : Call} (h : (step impl s c).initialized = true) :
    (s.initialized = true ∧ (step impl s c).hook = s.hook ∧ (step impl s c).world = s.world) ∨
      ∃ env client, c = .initializeHooker env ∧ Begins impl env client s ∧ (hookUp impl env client s).1 = true ∧
        initializeHooker impl env s = (true, { (hookUp impl env client s).2 with initialized := true }) := by
  cases c with
  | initializeHooker env =>
    simp only [step] at h ⊢
    by_cases hi : s.initialized = true
    · rw [initialize_idle impl env hi]
      exact .inl ⟨hi, rfl, rfl⟩
    by_cases hb : ∃ client, Begins impl env client s
    · obtain ⟨client, hb⟩ := hb
      have he := initialize_begins impl hb
      by_cases hr : (hookUp impl env client s).1 = true
      · rw [if_pos hr] at he
        exact .inr ⟨env, client, rfl, hb, hr, he⟩
      · rw [he, if_neg hr, destroy_initialized] at h
        cases h
    · obtain ⟨-, hoff, -⟩ := initialize_stops impl (Bool.eq_false_iff.mpr hi) (not_exists.mp hb)
      rw [hoff] at h
      cases h
  | destroy =>
    rw [show step impl s .destroy = destroy impl s from rfl, destroy_initialized] at h
    cases h
  | incomingRpc rp playerid =>
    left
    simp only [step] at h ⊢
    split at h
    · rename_i hh
      rw [if_pos hh]
      exact ⟨h, rfl, rfl⟩
    · rename_i hh
      rw [if_neg hh]
      exact ⟨h, rfl, rfl⟩

end RakHook.Hooker
