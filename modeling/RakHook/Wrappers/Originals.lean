/-
  RakHook.Wrappers.Originals — hook objects of one type `hook<Fn, Detour>` that come and
  go, and which original each of them calls.

  `own a` is the target whose original the trampoline at `a` runs. `kthook` and `cyanide`
  keep the trampoline in the object, `cyanide` also that of an install that failed.
  `minhook` keeps it in a static of `adapter<Fn, Detour>`, which `MH_CreateHook` writes for
  every object of the type: all of them call the original of the one created last, be it
  installed, idle or gone.
-/

import RakHook.Wrappers.Report

namespace RakHook.Wrappers

open Lib

/-! ## Sets of hook objects -/

structure Member (H : Type) where
  hook : H
  target : Addr
  installed : Bool

/-- The objects that are there, and all there ever were, each as it was made. -/
structure Fleet (W H : Type) where
  world : W
  members : List (Member H)
  history : List (Member H)

inductive Change where
  | construct (t : Addr)
  | destroy (i : Nat)
  | call (i : Nat) (op : Op)
  deriving DecidableEq, Repr

section

variable {W H : Type} (impl : HookImpl W H)

def Member.after (o : Member H) (w : W) (op : Op) : Member H :=
  let x := stepObject impl ⟨w, o.hook, o.installed⟩ op
  ⟨x.hook, o.target, x.installed⟩

namespace Fleet

def construct (d : Detour) (f : Fleet W H) (t : Addr) : Fleet W H :=
  let x := made impl d t f.world
  let o : Member H := ⟨x.hook, t, x.installed⟩
  ⟨x.world, f.members ++ [o], f.history ++ [o]⟩

def destroy (f : Fleet W H) (i : Nat) : Fleet W H :=
  match f.members[i]? with
  | none => f
  | some o => { f with world := impl.dropHook o.hook f.world, members := f.members.eraseIdx i }

def call (f : Fleet W H) (i : Nat) (op : Op) : Fleet W H :=
  match f.members[i]? with
  | none => f
  | some o =>
    { f with
      world := (stepObject impl ⟨f.world, o.hook, o.installed⟩ op).world
      members := f.members.set i (o.after impl f.world op) }

def step (d : Detour) (f : Fleet W H) : Change → Fleet W H
  | .construct t => f.construct impl d t
  | .destroy i => f.destroy impl i
  | .call i op => f.call impl i op

def start (w : W) : Fleet W H := ⟨w, [], []⟩

end Fleet

/-- `get_original()` of every installed object, and what the detour is handed when its
    target is called (`passed`), are the trampoline of its own target. -/
def CallsOwn (passed : H → W → Addr) (own : Addr → Addr) (f : Fleet W H) : Prop :=
  ∀ o ∈ f.members, o.installed = true → own (impl.getOriginal o.hook f.world) = o.target ∧
    own (passed o.hook f.world) = o.target

/-- In every state of a run. -/
def AlwaysOwn (passed : H → W → Addr) (own : Addr → Addr) (d : Detour) (changes : List Change) (w : W) : Prop :=
  Along (Fleet.step impl d) (fun f c => CallsOwn impl passed own (f.step impl d c)) changes (Fleet.start w)

variable {impl}

theorem mem_step {d : Detour} {f : Fleet W H} {c : Change} {o : Member H} (h : o ∈ (f.step impl d c).members) :
    o ∈ f.members ∨ (∃ t, c = .construct t ∧ o = ⟨(made impl d t f.world).hook, t, (made impl d t f.world).installed⟩) ∨
      ∃ i op o', c = .call i op ∧ f.members[i]? = some o' ∧ o = o'.after impl f.world op := by
  cases c with
  | construct t =>
    rcases List.mem_append.mp h with h | h
    · exact .inl h
    · exact .inr (.inl ⟨t, rfl, List.mem_singleton.mp h⟩)
  | destroy i =>
    simp only [Fleet.step, Fleet.destroy] at h
    split at h
    · exact .inl h
    · exact .inl (List.mem_of_mem_eraseIdx h)
  | call i op =>
    simp only [Fleet.step, Fleet.call] at h
    split at h
    · exact .inl h
    · rename_i o' ho'
      rcases List.mem_or_eq_of_mem_set h with h | h
      · exact .inl h
      · exact .inr (.inr ⟨i, op, o', rfl, ho', h⟩)

theorem after_mem_call {f : Fleet W H} {i : Nat} {op : Op} {o : Member H} (h : f.members[i]? = some o) (d : Detour) :
    o.after impl f.world op ∈ (f.step impl d (.call i op)).members := by
  simp only [Fleet.step, Fleet.call, h]
  exact List.mem_set (List.getElem?_eq_some_iff.mp h).1 _

end

/-! ## kthook and cyanide -/

section owning

variable {L K : Type} {lib : PatchLib L K} {own : Addr → Addr}

/-- An object of the library that is installed has a trampoline to the original of its
    target. -/
def PatchLib.Traces (lib : PatchLib L K) (own : Addr → Addr) : Prop :=
  ∀ k l, (lib.install k l).1 = true → own (lib.trampoline (lib.install k l).2.1) = lib.target k

/-- What the lambda of `kthook::hook::install` hands to the detour. -/
def Kthook.passed (lib : PatchLib L K) (h : OwningHook K) (_ : L) : Addr := h.getOriginal lib

/-- What the library hands to the detour of `cyanide`, which is its own callback. -/
def Cyanide.passed (passes : K → Addr) (h : OwningHook K) (_ : L) : Addr := (h.impl.map passes).getD 0

structure OwnsImpl (o : Member (OwningHook K)) : Prop where
  target : o.hook.target = o.target
  impl : o.installed = o.hook.impl.isSome

/-- The trampoline in the object is that of its target. -/
def Right (lib : PatchLib L K) (own : Addr → Addr) (o : Member (OwningHook K)) : Prop :=
  ∀ k, o.hook.impl = some k → own (lib.trampoline k) = o.target

theorem attempt_traces (hlib : lib.Lawful) (htr : lib.Traces own) {h : OwningHook K} {l : L}
    (ht : (attempt lib h l).1 = true) : own (lib.trampoline (attempt lib h l).2.1) = h.target := by
  unfold attempt at ht ⊢
  rw [htr _ _ ht, hlib.create_target]

theorem after_uninstall (impl : HookImpl L (OwningHook K)) (himpl : ∀ h l, impl.uninstall h l = h.uninstall lib l)
    {o : Member (OwningHook K)} (h : OwnsImpl o) (l : L) :
    OwnsImpl (o.after impl l .uninstall) ∧ (o.after impl l .uninstall).hook.impl = none := by
  unfold Member.after stepObject perform
  simp only [himpl, OwningHook.uninstall]
  rcases hk : o.hook.impl with _ | k
  · simp only [Bool.not_false, Bool.and_true]
    exact ⟨h, hk⟩
  · simp only [OwningHook.release, hk, Bool.not_true, Bool.and_false]
    exact ⟨⟨h.target, rfl⟩, trivial⟩

theorem right_of_none {o : Member (OwningHook K)} (h : o.hook.impl = none) : Right lib own o := by
  intro k hk
  rw [h] at hk
  cases hk

theorem kthook_after (hlib : lib.Lawful) (htr : lib.Traces own) {o : Member (OwningHook K)} (h : OwnsImpl o)
    (hr : Right lib own o) (l : L) (op : Op) :
    OwnsImpl (o.after (kthook lib) l op) ∧ Right lib own (o.after (kthook lib) l op) := by
  cases op with
  | uninstall =>
    obtain ⟨ho, hnone⟩ := after_uninstall (kthook lib) (fun _ _ => rfl) h l
    exact ⟨ho, right_of_none hnone⟩
  | install =>
    unfold Member.after stepObject perform
    simp only [kthook]
    rcases hk : o.hook.impl with _ | k
    · rw [kthook_install_none lib hk]
      by_cases ht : (attempt lib o.hook l).1 = true
      · simp only [if_pos ht, Bool.or_true]
        refine ⟨⟨h.target, rfl⟩, ?_⟩
        intro k hk'
        rw [← Option.some.inj hk', attempt_traces hlib htr ht, h.target]
      · simp only [if_neg ht, Bool.or_false]
        exact ⟨h, hr⟩
    · rw [kthook_install_some lib hk]
      simp only [Bool.or_false]
      exact ⟨h, hr⟩

/-- The install of a new object of the library takes, or leaves it the trampoline of its
    target all the same. -/
def Provides (lib : PatchLib L K) (own : Addr → Addr) (o : Member (OwningHook K)) (l : L) (op : Op) : Prop :=
  op = .install → o.hook.impl = none →
    (attempt lib o.hook l).1 = true ∨ own (lib.trampoline (attempt lib o.hook l).2.1) = o.target

theorem cyanide_after (hlib : lib.Lawful) (htr : lib.Traces own) {o : Member (OwningHook K)} (h : OwnsImpl o)
    (hr : Right lib own o) (l : L) (op : Op) :
    OwnsImpl (o.after (cyanide lib) l op) ∧ (Right lib own (o.after (cyanide lib) l op) ↔ Provides lib own o l op) := by
  unfold Provides
  cases op with
  | uninstall =>
    obtain ⟨ho, hnone⟩ := after_uninstall (cyanide lib) (fun _ _ => rfl) h l
    exact ⟨ho, iff_of_true (right_of_none hnone) fun hop => Op.noConfusion hop⟩
  | install =>
    unfold Member.after stepObject perform
    simp only [cyanide]
    rcases hk : o.hook.impl with _ | k
    · rw [cyanide_install_none lib hk]
      simp only [Bool.or_true, Right, Option.some.injEq, forall_eq', forall_const]
      refine ⟨⟨h.target, rfl⟩, ⟨.inr, ?_⟩⟩
      intro ht
      rcases ht with ht | ht
      · rw [attempt_traces hlib htr ht, h.target]
      · exact ht
    · rw [cyanide_install_some lib hk]
      simp only [Bool.or_false]
      exact ⟨h, iff_of_true hr fun _ hn => absurd hn (by simp)⟩

/-- `q` holds of the object that is called. -/
def OnCall (q : Member (OwningHook K) → L → Op → Prop) (f : Fleet L (OwningHook K)) : Change → Prop
  | .call i op => ∀ o, f.members[i]? = some o → q o f.world op
  | _ => True

variable (lib) in
/-- With the trampoline in the object it is the calls on the object that decide. -/
theorem owning_alwaysOwn_iff {impl : HookImpl L (OwningHook K)} {passed : OwningHook K → L → Addr}
    {q : Member (OwningHook K) → L → Op → Prop}
    (hmake : ∀ d t l, impl.hook d t l = (⟨t, d, none⟩, l)) (horig : ∀ h l, impl.getOriginal h l = h.getOriginal lib)
    (hpassed : ∀ h l k, h.impl = some k → passed h l = lib.trampoline k)
    (hafter : ∀ o, OwnsImpl o → Right lib own o → ∀ l op,
      OwnsImpl (o.after impl l op) ∧ (Right lib own (o.after impl l op) ↔ q o l op))
    (d : Detour) (changes : List Change) (l : L) :
    AlwaysOwn impl passed own d changes l ↔ Along (Fleet.step impl d) (OnCall q) changes (Fleet.start l) := by
  have hright : ∀ f : Fleet L (OwningHook K), (∀ o ∈ f.members, OwnsImpl o) →
      (CallsOwn impl passed own f ↔ ∀ o ∈ f.members, Right lib own o) := by
    intro f hf
    constructor
    · intro h o ho k hk
      have hown := (h o ho (by rw [(hf o ho).impl, hk]; rfl)).1
      rwa [horig, OwningHook.getOriginal, hk] at hown
    · intro h o ho hi
      obtain ⟨k, hk⟩ := Option.isSome_iff_exists.mp ((hf o ho).impl.symm.trans hi)
      have ht := h o ho k hk
      rw [horig, hpassed o.hook f.world k hk, OwningHook.getOriginal, hk]
      exact ⟨ht, ht⟩
  have hnew : ∀ t l, OwnsImpl (⟨(made impl d t l).hook, t, (made impl d t l).installed⟩ : Member (OwningHook K)) ∧
      Right lib own ⟨(made impl d t l).hook, t, (made impl d t l).installed⟩ := by
    intro t l
    simp only [made, hmake]
    exact ⟨⟨rfl, rfl⟩, right_of_none rfl⟩
  let I := fun f : Fleet L (OwningHook K) => ∀ o ∈ f.members, OwnsImpl o ∧ Right lib own o
  have howns : ∀ f c, I f → ∀ o ∈ (f.step impl d c).members, OwnsImpl o := by
    intro f c hf o ho
    rcases mem_step ho with ho | ⟨t, -, rfl⟩ | ⟨i, op, o', -, ho', rfl⟩
    · exact (hf o ho).1
    · exact (hnew t f.world).1
    · obtain ⟨ho₁, hr₁⟩ := hf o' (List.mem_of_getElem? ho')
      exact (hafter o' ho₁ hr₁ f.world op).1
  have hone : ∀ f c, I f → ((∀ o ∈ (f.step impl d c).members, Right lib own o) ↔ OnCall q f c) := by
    intro f c hf
    constructor
    · intro h
      cases c with
      | construct t => trivial
      | destroy i => trivial
      | call i op =>
        intro o ho
        obtain ⟨ho₁, hr₁⟩ := hf o (List.mem_of_getElem? ho)
        exact (hafter o ho₁ hr₁ f.world op).2.mp (h _ (after_mem_call ho d))
    · intro h o ho
      rcases mem_step ho with ho | ⟨t, -, rfl⟩ | ⟨i, op, o', rfl, ho', rfl⟩
      · exact (hf o ho).2
      · exact (hnew t f.world).2
      · obtain ⟨ho₁, hr₁⟩ := hf o' (List.mem_of_getElem? ho')
        exact (hafter o' ho₁ hr₁ f.world op).2.mpr (h o' ho')
  have hI : ∀ f c, I f → (CallsOwn impl passed own (f.step impl d c) ↔ OnCall q f c) := fun f c hf =>
    (hright _ (howns f c hf)).trans (hone f c hf)
  refine Along.iff_of_inv (I := I) ?_ hI changes fun o ho => absurd ho List.not_mem_nil
  intro f c hf hq o ho
  exact ⟨howns f c hf o ho, (hone f c hf).mpr hq o ho⟩

end owning

/-! ## minhook -/

section minhook

variable {L : Type} {lib : MinHookLib L} {own : Addr → Addr}

/-- A trampoline that MinHook writes runs the original of the target it was made for. -/
def MinHookLib.Traces (lib : MinHookLib L) (own : Addr → Addr) : Prop :=
  ∀ t d l a, (lib.mhCreateHook t d l).1 = some a → own a = t

/-- What `thunk` hands to the detour. -/
def Minhook.passed (h : MinhookHook) (w : MinhookWorld L) : Addr := w.trampoline h.detour

/-- The target of the last object whose `MH_CreateHook` was `MH_OK`, there or gone. -/
def lastCreated (history : List (Member MinhookHook)) : Option Addr :=
  (history.filter fun o => o.hook.created).getLast?.map (·.target)

/-- An `install()` that enables a hook is on the object that was created last, and no object
    is created while one for another target is installed. -/
def OnLastCreated (lib : MinHookLib L) (d : Detour) (f : Fleet (MinhookWorld L) MinhookHook) : Change → Prop
  | .construct t => (lib.mhCreateHook t d f.world.lib).1.isSome = true → ∀ o ∈ f.members, o.installed = true → o.target = t
  | .call i op => op = .install → ∀ o, f.members[i]? = some o → o.hook.created = true → o.hook.enabled = false →
    (lib.mhEnableHook o.target f.world.lib).1 = true → lastCreated f.history = some o.target
  | .destroy _ => True

/-- All objects share the static of `d`, and it is the last one's. -/
structure SharesTrampoline (own : Addr → Addr) (d : Detour) (f : Fleet (MinhookWorld L) MinhookHook) : Prop where
  target : ∀ o ∈ f.members, o.hook.target = o.target
  detour : ∀ o ∈ f.members, o.hook.detour = d
  recorded : ∀ o ∈ f.members, o.hook.created = true → (lastCreated f.history).isSome = true
  shared : ∀ t, lastCreated f.history = some t → own (f.world.trampoline d) = t

theorem lastCreated_snoc (history : List (Member MinhookHook)) (o : Member MinhookHook) :
    lastCreated (history ++ [o]) = if o.hook.created then some o.target else lastCreated history := by
  unfold lastCreated
  cases h : o.hook.created <;> simp [h]

variable (lib) in
theorem minhook_stepObject (w : MinhookWorld L) (h : MinhookHook) (b : Bool) (op : Op) :
    (stepObject (minhook lib) ⟨w, h, b⟩ op).hook.created = h.created ∧
      (stepObject (minhook lib) ⟨w, h, b⟩ op).hook.target = h.target ∧
      (stepObject (minhook lib) ⟨w, h, b⟩ op).hook.detour = h.detour ∧
      (stepObject (minhook lib) ⟨w, h, b⟩ op).world.trampoline = w.trampoline := by
  unfold stepObject perform
  cases op with
  | install =>
    simp only [minhook]
    rcases minhook_idle_or h true with hi | ⟨hc, he⟩
    · rw [minhook_install_idle lib hi]
      exact ⟨rfl, rfl, rfl, rfl⟩
    · rw [minhook_install_new lib hc he]
      exact ⟨rfl, rfl, rfl, rfl⟩
  | uninstall =>
    simp only [minhook]
    rcases minhook_idle_or h false with hi | ⟨hc, he⟩
    · rw [minhook_uninstall_idle lib hi]
      exact ⟨rfl, rfl, rfl, rfl⟩
    · rw [minhook_uninstall_enabled lib hc he]
      exact ⟨rfl, rfl, rfl, rfl⟩

/-- An object that is installed after a call was before, or the call enabled its hook. -/
theorem minhook_installed {w : MinhookWorld L} {h : MinhookHook} {b : Bool} {op : Op}
    (hi : (stepObject (minhook lib) ⟨w, h, b⟩ op).installed = true) :
    b = true ∨ op = .install ∧ h.created = true ∧ h.enabled = false ∧ (lib.mhEnableHook h.target w.lib).1 = true := by
  unfold stepObject perform at hi
  cases op with
  | uninstall =>
    simp only [Bool.and_eq_true] at hi
    exact .inl hi.1
  | install =>
    simp only [minhook] at hi
    rcases minhook_idle_or h true with hidle | ⟨hc, he⟩
    · rw [minhook_install_idle lib hidle, Bool.or_false] at hi
      exact .inl hi
    · rw [minhook_install_new lib hc he] at hi
      rcases (Bool.or_eq_true _ _).mp hi with hi | hi
      · exact .inl hi
      · exact .inr ⟨rfl, hc, he, hi⟩

theorem minhook_installs {w : MinhookWorld L} {h : MinhookHook} (b : Bool) (hc : h.created = true)
    (he : h.enabled = false)
    (hok : (lib.mhEnableHook h.target w.lib).1 = true) :
    (stepObject (minhook lib) ⟨w, h, b⟩ .install).installed = true := by
  unfold stepObject perform
  simp only [minhook]
  rw [minhook_install_new lib hc he, hok, Bool.or_true]

theorem step_trampoline (d : Detour) (f : Fleet (MinhookWorld L) MinhookHook) (c : Change) :
    (f.step (minhook lib) d c).world.trampoline d = match c with
      | .construct t => (lib.mhCreateHook t d f.world.lib).1.getD (f.world.trampoline d)
      | _ => f.world.trampoline d := by
  cases c with
  | construct t => simp [Fleet.step, Fleet.construct, made, minhook, Minhook.hook]
  | destroy i =>
    simp only [Fleet.step, Fleet.destroy]
    split
    · rfl
    · simp only [minhook, Minhook.dropHook]
      split <;> rfl
  | call i op =>
    simp only [Fleet.step, Fleet.call]
    split
    · rfl
    · rename_i o _
      simp only [(minhook_stepObject lib f.world o.hook o.installed op).2.2.2]

theorem step_history (d : Detour) (f : Fleet (MinhookWorld L) MinhookHook) (c : Change) :
    lastCreated (f.step (minhook lib) d c).history = match c with
      | .construct t => if (lib.mhCreateHook t d f.world.lib).1.isSome then some t else lastCreated f.history
      | _ => lastCreated f.history := by
  cases c with
  | construct t => exact lastCreated_snoc ..
  | destroy i =>
    simp only [Fleet.step, Fleet.destroy]
    split <;> rfl
  | call i op =>
    simp only [Fleet.step, Fleet.call]
    split <;> rfl

theorem step_sharesTrampoline (htr : lib.Traces own) {d : Detour} {f : Fleet (MinhookWorld L) MinhookHook}
    (hf : SharesTrampoline own d f) (c : Change) : SharesTrampoline own d (f.step (minhook lib) d c) := by
  have hobject : ∀ o ∈ (f.step (minhook lib) d c).members, o.hook.target = o.target ∧ o.hook.detour = d := by
    intro o ho
    rcases mem_step ho with ho | ⟨t, -, rfl⟩ | ⟨i, op, o', -, ho', rfl⟩
    · exact ⟨hf.target o ho, hf.detour o ho⟩
    · exact ⟨rfl, rfl⟩
    · have hmem := List.mem_of_getElem? ho'
      obtain ⟨-, ht, hd, -⟩ := minhook_stepObject lib f.world o'.hook o'.installed op
      exact ⟨ht.trans (hf.target o' hmem), hd.trans (hf.detour o' hmem)⟩
  refine ⟨fun o ho => (hobject o ho).1, fun o ho => (hobject o ho).2, ?_, ?_⟩
  · intro o ho hc
    rw [step_history]
    rcases mem_step ho with ho | ⟨t, rfl, rfl⟩ | ⟨i, op, o', rfl, ho', rfl⟩
    · have hsome := hf.recorded o ho hc
      cases c with
      | construct t =>
        dsimp only
        split
        · rfl
        · exact hsome
      | destroy i => exact hsome
      | call i op => exact hsome
    · exact (congrArg Option.isSome (if_pos hc)).trans rfl
    · obtain ⟨hcreated, -⟩ := minhook_stepObject lib f.world o'.hook o'.installed op
      exact hf.recorded o' (List.mem_of_getElem? ho') (hcreated.symm.trans hc)
  · intro t ht
    rw [step_history] at ht
    rw [step_trampoline]
    cases c with
    | construct t' =>
      dsimp only at ht ⊢
      cases hr : (lib.mhCreateHook t' d f.world.lib).1 with
      | none =>
        rw [hr] at ht
        exact hf.shared t ht
      | some a =>
        rw [hr] at ht
        rw [← Option.some.inj ht]
        exact htr t' d f.world.lib a hr
    | destroy i => exact hf.shared t ht
    | call i op => exact hf.shared t ht

theorem callsOwn_iff {d : Detour} {f : Fleet (MinhookWorld L) MinhookHook} (hd : ∀ o ∈ f.members, o.hook.detour = d) :
    CallsOwn (minhook lib) Minhook.passed own f ↔
      ∀ o ∈ f.members, o.installed = true → own (f.world.trampoline d) = o.target := by
  refine forall_congr' fun o => forall_congr' fun ho => forall_congr' fun _ => ?_
  simp only [minhook, Minhook.passed, hd o ho, and_self]

/-- A new hook takes the static from every object that is installed; the call that enables a
    hook needs it. -/
theorem step_callsOwn (htr : lib.Traces own) {d : Detour} {f : Fleet (MinhookWorld L) MinhookHook}
    (hf : SharesTrampoline own d f) (hown : CallsOwn (minhook lib) Minhook.passed own f) (c : Change) :
    CallsOwn (minhook lib) Minhook.passed own (f.step (minhook lib) d c) ↔ OnLastCreated lib d f c := by
  rw [callsOwn_iff hf.detour] at hown
  rw [callsOwn_iff (step_sharesTrampoline htr hf c).detour, step_trampoline]
  cases c with
  | construct t =>
    dsimp only [OnLastCreated]
    cases hr : (lib.mhCreateHook t d f.world.lib).1 with
    | none =>
      refine iff_of_true ?_ fun h => absurd h Bool.false_ne_true
      intro o ho hi
      rcases List.mem_append.mp ho with ho | ho
      · exact hown o ho hi
      · rw [List.mem_singleton.mp ho] at hi
        cases hi
    | some a =>
      simp only [Option.getD_some, Option.isSome_some, forall_const, htr t d f.world.lib a hr]
      constructor
      · intro h o ho hi
        exact (h o (List.mem_append_left _ ho) hi).symm
      · intro h o ho hi
        rcases List.mem_append.mp ho with ho | ho
        · exact (h o ho hi).symm
        · rw [List.mem_singleton.mp ho] at hi
          cases hi
  | destroy i =>
    refine iff_of_true ?_ trivial
    intro o ho hi
    rcases mem_step ho with ho | ⟨t, he, -⟩ | ⟨j, op, o', he, -⟩
    · exact hown o ho hi
    · cases he
    · cases he
  | call i op =>
    constructor
    · intro h hop o ho hc he hok
      have hmem := List.mem_of_getElem? ho
      have hin : (o.after (minhook lib) f.world op).installed = true := by
        rw [hop]
        exact minhook_installs _ hc he (by rw [hf.target o hmem]; exact hok)
      have hstatic : own (f.world.trampoline d) = o.target :=
        h (o.after (minhook lib) f.world op) (after_mem_call ho d) hin
      obtain ⟨t, ht⟩ := Option.isSome_iff_exists.mp (hf.recorded o hmem hc)
      rw [ht, ← hf.shared t ht]
      exact congrArg some hstatic
    · intro h o ho hi
      rcases mem_step ho with ho | ⟨t, he, -⟩ | ⟨j, op', o', he, ho', rfl⟩
      · exact hown o ho hi
      · cases he
      · cases he
        have hmem := List.mem_of_getElem? ho'
        rcases minhook_installed hi with hb | ⟨hop, hc, he, hok⟩
        · exact hown o' hmem hb
        · exact hf.shared _ (h hop o' ho' hc he (by rw [← hf.target o' hmem]; exact hok))

/-- `minhook` objects of one type call their own originals exactly as long as only the one
    that was created last is installed. -/
theorem minhook_alwaysOwn_iff (htr : lib.Traces own) (d : Detour) (changes : List Change) (w : MinhookWorld L) :
    AlwaysOwn (minhook lib) Minhook.passed own d changes w ↔
      Along (Fleet.step (minhook lib) d) (OnLastCreated lib d) changes (Fleet.start w) := by
  have hnone : ∀ o ∈ (Fleet.start w : Fleet (MinhookWorld L) MinhookHook).members, False := fun o ho =>
    absurd ho List.not_mem_nil
  refine Along.iff_of_inv (I := fun f => SharesTrampoline own d f ∧ CallsOwn (minhook lib) Minhook.passed own f)
    (fun f c hi hq => ⟨step_sharesTrampoline htr hi.1 c, (step_callsOwn htr hi.1 hi.2 c).mpr hq⟩)
    (fun f c hi => step_callsOwn htr hi.1 hi.2 c) changes ⟨⟨?_, ?_, ?_, ?_⟩, ?_⟩
  · exact fun o ho => (hnone o ho).elim
  · exact fun o ho => (hnone o ho).elim
  · exact fun o ho => (hnone o ho).elim
  · intro t ht
    cases ht
  · exact fun o ho => (hnone o ho).elim

end minhook

/-! ## The three wrappers -/

theorem minHookOn_traces (executable : Addr → Bool) : (minHookOn executable).Traces (· - 1) := by
  intro t d l a h
  simp only [minHookOn] at h
  split at h
  · rw [← Option.some.inj h]
    exact BitVec.add_sub_cancel t 1
  · cases h

theorem patchesOn_traces (executable : Addr → Bool) : (patchesOn executable).Traces (· - 1) := by
  intro k l h
  simp only [patchesOn] at h ⊢
  split at h
  · rename_i he
    rw [if_pos he]
    exact BitVec.add_sub_cancel k.target 1
  · cases h

/-- The three wrappers, each on its own library, with the trampolines that library made. -/
structure AllOwn {M L₁ K₁ L₂ K₂ : Type} (mh : MinHookLib M) (kt : PatchLib L₁ K₁) (cy : PatchLib L₂ K₂)
    (passes : K₂ → Addr) (ownM ownK ownC : Addr → Addr) (d : Detour) (changes : List Change) (m : MinhookWorld M) (l₁ : L₁)
    (l₂ : L₂) : Prop where
  minhook : AlwaysOwn (minhook mh) Minhook.passed ownM d changes m
  kthook : AlwaysOwn (kthook kt) (Kthook.passed kt) ownK d changes l₁
  cyanide : AlwaysOwn (cyanide cy) (Cyanide.passed passes) ownC d changes l₂

theorem originals_iff {M L₁ K₁ L₂ K₂ : Type} {mh : MinHookLib M} {kt : PatchLib L₁ K₁} {cy : PatchLib L₂ K₂}
    {passes : K₂ → Addr} {ownM ownK ownC : Addr → Addr} (hmh : mh.Traces ownM) (hkt : kt.Lawful) (hktr : kt.Traces ownK)
    (hcy : cy.Lawful) (hcyr : cy.Traces ownC) (hpasses : ∀ k, passes k = cy.trampoline k) (d : Detour)
    (changes : List Change) (m : MinhookWorld M) (l₁ : L₁) (l₂ : L₂) :
    AllOwn mh kt cy passes ownM ownK ownC d changes m l₁ l₂ ↔
      Along (Fleet.step (minhook mh) d) (OnLastCreated mh d) changes (Fleet.start m) ∧
        Along (Fleet.step (cyanide cy) d) (OnCall (Provides cy ownC)) changes (Fleet.start l₂) := by
  have hminhook := minhook_alwaysOwn_iff hmh d changes m
  have hkthook : AlwaysOwn (kthook kt) (Kthook.passed kt) ownK d changes l₁ := by
    have hpassed : ∀ (h : OwningHook K₁) l k, h.impl = some k → Kthook.passed kt h l = kt.trampoline k := by
      intro h l k hk
      rw [Kthook.passed, OwningHook.getOriginal, hk]
    refine (owning_alwaysOwn_iff kt (q := fun _ _ _ => True) (fun _ _ _ => rfl) (fun _ _ => rfl) hpassed ?_ ..).mpr ?_
    · intro o ho hr l op
      obtain ⟨ho', hr'⟩ := kthook_after hkt hktr ho hr l op
      exact ⟨ho', iff_of_true hr' trivial⟩
    · refine Along.of_inv (I := fun _ => True) (fun _ _ _ => trivial) ?_ changes trivial
      intro f c _
      cases c with
      | construct t => trivial
      | destroy i => trivial
      | call i op => exact fun _ _ => trivial
  have hcyanide : AlwaysOwn (cyanide cy) (Cyanide.passed passes) ownC d changes l₂ ↔
      Along (Fleet.step (cyanide cy) d) (OnCall (Provides cy ownC)) changes (Fleet.start l₂) := by
    have hpassed : ∀ (h : OwningHook K₂) (l : L₂) k, h.impl = some k → Cyanide.passed passes h l = cy.trampoline k := by
      intro h l k hk
      rw [Cyanide.passed, hk, ← hpasses]
      rfl
    exact owning_alwaysOwn_iff cy (fun _ _ _ => rfl) (fun _ _ => rfl) hpassed (fun o ho hr => cyanide_after hcy hcyr ho hr) ..
  constructor
  · intro h
    exact ⟨hminhook.mp h.minhook, hcyanide.mp h.cyanide⟩
  · intro h
    exact ⟨hminhook.mpr h.1, hkthook, hcyanide.mpr h.2⟩

/-- One object is installed and uninstalled, then a second one of the type is made and
    installed, and the first destroyed. -/
theorem originals_of_the_second :
    AllOwn (minHookOn fun _ => true) (patchesOn fun _ => true) (patchesOn fun _ => true) (patchesOn fun _ => true).trampoline
      (· - 1) (· - 1) (· - 1) (.host 0)
      [.construct 0x53BEE0, .call 0 .install, .call 0 .uninstall, .construct 0x53BF10, .call 1 .install, .destroy 0]
      ⟨(true, fun _ => none), true, fun _ => 0⟩ (fun _ => false) (fun _ => false) := by
  refine (originals_iff (minHookOn_traces _) (patchesOn_lawful _) (patchesOn_traces _) (patchesOn_lawful _)
    (patchesOn_traces _) (fun _ => rfl) _ _ _ _ _).mpr
      ⟨⟨?_, ?_, ?_, ?_, ?_, trivial, trivial⟩, trivial, ?_, ?_, trivial, ?_, trivial, trivial⟩
  · intro _ o ho
    cases ho
  · intro _ o ho _ _ _
    rw [← Option.some.inj ho]
    decide
  · intro hop
    cases hop
  · intro _ o ho hi
    revert hi
    rw [List.mem_singleton.mp ho]
    decide
  · intro _ o ho _ _ _
    rw [← Option.some.inj ho]
    decide
  · intro o ho _ _
    rw [← Option.some.inj ho]
    exact .inl rfl
  · intro o ho hop
    cases hop
  · intro o ho _ _
    rw [← Option.some.inj ho]
    exact .inl rfl

/-- Two `minhook` objects of one type; the first is installed and calls the second's
    original. -/
theorem first_calls_second :
    ¬ AllOwn (minHookOn fun _ => true) (patchesOn fun _ => true) (patchesOn fun _ => true)
      (patchesOn fun _ => true).trampoline (· - 1) (· - 1) (· - 1) (.host 0)
      [.construct 0x53BEE0, .construct 0x53BF10, .call 0 .install] ⟨(true, fun _ => none), true, fun _ => 0⟩
        (fun _ => false) (fun _ => false) := by
  intro h
  have hfirst := (h.minhook.2.2.1 _ (List.mem_cons_self ..) rfl).1
  revert hfirst
  decide

end RakHook.Wrappers
