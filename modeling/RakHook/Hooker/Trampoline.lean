/-
  RakHook.Hooker.Trampoline — which trampolines the detours call.

  Every hook object has a serial of its own; its trampoline is good as long as one of the
  four pointers holds that object. A detour takes its trampoline when it is entered and
  calls it again, for `send_hooked`, `rpc_hooked` and `handle_rpc_packet`, behind the
  dispatch. A callback that destroyed the hooker in between has removed the hook, and a
  hooker set up again has other hooks. `receive_hooked` calls the original first and is
  always safe.
-/

import RakHook.Hooker.Lifecycle
import RakHook.Hooker.Detours

namespace RakHook.Hooker

open Lib

variable {W H : Type}

/-! ## Serials -/

/-- The hooks of `s'` are hooks of `s` or were created since. -/
structure Serials (s s' : St W H) : Prop where
  created : s.created ≤ s'.created
  hook : ∀ k h', s'.hook k = some h' →
    (∃ h, s.hook k = some h ∧ h.serial = h'.serial) ∨ s.created ≤ h'.serial ∧ h'.serial < s'.created

namespace Serials

variable {s s' s'' : St W H}

theorem refl (s : St W H) : Serials s s := ⟨Nat.le_refl _, fun _ h hk => .inl ⟨h, hk, rfl⟩⟩

theorem trans (h : Serials s s') (h' : Serials s' s'') : Serials s s'' := by
  refine ⟨Nat.le_trans h.created h'.created, ?_⟩
  intro k h2 hk
  have hc := h.created
  have hc' := h'.created
  rcases h'.hook k h2 hk with ⟨h1, hk1, he⟩ | hnew
  · rcases h.hook k h1 hk1 with ⟨h0, hk0, he0⟩ | hnew
    · exact .inl ⟨h0, hk0, he0.trans he⟩
    · exact .inr (by omega)
  · exact .inr (by omega)

theorem of_subset (hc : s'.created = s.created) (hk : ∀ k h, s'.hook k = some h → s.hook k = some h) : Serials s s' :=
  ⟨Nat.le_of_eq hc.symm, fun k h hs => .inl ⟨h, hk k h hs, rfl⟩⟩

end Serials

variable (impl : HookImpl W H)

theorem reset_serials (s : St W H) (k : Slot) : Serials s (reset impl s k) := by
  refine .of_subset ?_ ?_
  · unfold reset; split <;> rfl
  · intro k' h hk
    rw [(reset_spec impl s k).2] at hk
    split at hk
    · cases hk
    · exact hk

theorem resetAll_serials (ks : List Slot) (s : St W H) : Serials s (ks.foldl (reset impl) s) := by
  induction ks generalizing s with
  | nil => exact .refl s
  | cons k ks ih => exact (reset_serials impl s k).trans (ih _)

theorem makeHook_serials (s : St W H) (k : Slot) (target : Addr) : Serials s (makeHook impl s k target) := by
  refine ⟨Nat.le_succ s.created, ?_⟩
  intro k' h hk
  by_cases e : k' = k
  · subst e
    have he := Option.some.inj (hk.symm.trans (makeHook_spec impl s k' target).2.1)
    rw [he]
    exact .inr ⟨Nat.le_refl s.created, Nat.lt_succ_self s.created⟩
  · rw [(makeHook_spec impl s k target).2.2 k' e] at hk
    exact .inl ⟨h, hk, rfl⟩

theorem installHook_serials (s : St W H) (k : Slot) : Serials s (installHook impl s k).2 := by
  unfold installHook
  split
  · exact .refl s
  · rename_i h0 h0k
    refine ⟨Nat.le_refl _, fun k' h hk => .inl ?_⟩
    by_cases e : k' = k
    · subst e
      simp only [St.setHook, if_true, Option.some.injEq] at hk
      exact ⟨h0, h0k, by rw [← hk]⟩
    · exact ⟨h, by simpa only [St.setHook, if_neg e] using hk, rfl⟩

theorem installAll_serials (ks : List Slot) (s : St W H) : Serials s (installAll impl ks s).2 := by
  induction ks generalizing s with
  | nil => exact .refl s
  | cons k ks ih =>
    have hk := installHook_serials impl s k
    simp only [installAll]
    split
    · exact hk.trans (ih _)
    · exact hk

theorem destroy_serials (s : St W H) : Serials s (destroy impl s) := by
  unfold destroy
  split
  · exact (resetAll_serials impl slots s).trans (.of_subset rfl fun _ _ h => h)
  · exact .refl s

theorem makeHooks_serials (env : Env) (vtable : Addr) (s : St W H) : Serials s (makeHooks impl env vtable s) := by
  unfold makeHooks
  generalize slots = ks
  induction ks generalizing s with
  | nil => exact .refl s
  | cons k ks ih => exact (makeHook_serials impl s k _).trans (ih _)

theorem hookUp_serials (env : Env) (client : Addr) (s : St W H) : Serials s (hookUp impl env client s).2 := by
  have h1 : Serials s (begun impl env client s) := .of_subset rfl fun _ _ h => h
  exact (h1.trans (makeHooks_serials impl env (env.deref client) _)).trans (installAll_serials impl slots _)

theorem initialize_serials (env : Env) (s : St W H) : Serials s (initializeHooker impl env s).2 := by
  by_cases hi : s.initialized = true
  · rw [initialize_idle impl env hi]
    exact .refl s
  by_cases hb : ∃ client, Begins impl env client s
  · obtain ⟨client, hb⟩ := hb
    have h : Serials s { (hookUp impl env client s).2 with initialized := true } :=
      (hookUp_serials impl env client s).trans (.of_subset rfl fun _ _ h => h)
    rw [initialize_begins impl hb]
    split
    · exact h
    · exact h.trans (destroy_serials impl _)
  · obtain ⟨-, -, hhook, hcreated, -⟩ := initialize_stops impl (Bool.eq_false_iff.mpr hi) (not_exists.mp hb)
    exact .of_subset hcreated fun k h hk => by rw [← hhook]; exact hk

theorem step_serials (s : St W H) (c : Call) : Serials s (step impl s c) := by
  cases c with
  | initializeHooker env => exact initialize_serials impl env s
  | destroy => exact destroy_serials impl s
  | incomingRpc rp playerid =>
    simp only [step]
    split
    · exact .of_subset rfl fun _ _ h => h
    · exact .refl s

/-- One of the pointers holds the hook with this serial. -/
def live (s : St W H) (serial : Nat) : Bool := slots.any fun k => (s.hook k).any (·.serial == serial)

theorem live_iff (s : St W H) (serial : Nat) : live s serial = true ↔ ∃ k h, s.hook k = some h ∧ h.serial = serial := by
  simp only [live, List.any_eq_true, Option.any_eq_true, beq_iff_eq]
  exact ⟨fun ⟨k, _, h, hk, he⟩ => ⟨k, h, hk, he⟩, fun ⟨k, h, hk, he⟩ => ⟨k, mem_slots k, h, hk, he⟩⟩

/-- A removed hook does not come back. -/
theorem Serials.dead {s s' : St W H} (h : Serials s s') {serial : Nat} (hlt : serial < s.created)
    (hdead : live s serial = false) : live s' serial = false := by
  apply Bool.eq_false_iff.mpr
  intro hlive
  obtain ⟨k, h', hk, he⟩ := (live_iff s' serial).mp hlive
  rcases h.hook k h' hk with ⟨h0, hk0, he0⟩ | hnew
  · rw [(live_iff s serial).mpr ⟨k, h0, hk0, he0.trans he⟩] at hdead
    cases hdead
  · omega

/-! ## Soundness of the hook pointers -/

/-- Hook objects exist only while the hooker is set up, and their serials are used up. -/
structure Sound (s : St W H) : Prop where
  initialized : ∀ k h, s.hook k = some h → s.initialized = true
  serial : ∀ k h, s.hook k = some h → h.serial < s.created

theorem start_sound (versions : VersionManager) (world : W) : Sound (St.start versions world : St W H) := ⟨nofun, nofun⟩

theorem step_sound {s : St W H} (h : Sound s) (c : Call) : Sound (step impl s c) := by
  have hstray : NoStray s := fun hi k => by
    rcases hk : s.hook k with _ | hook
    · rfl
    · exact absurd (h.initialized k hook hk) hi
  refine ⟨?_, ?_⟩
  · intro k hook hk
    by_cases hi : (step impl s c).initialized = true
    · exact hi
    · rw [step_noStray impl hstray c hi k] at hk
      cases hk
  · intro k hook hk
    have hs := step_serials impl s c
    have hc := hs.created
    rcases hs.hook k hook hk with ⟨h0, hk0, he⟩ | hnew
    · have := h.serial k h0 hk0
      omega
    · exact hnew.2

/-! ## Callbacks that call the hooker -/

inductive Lifecycle where
  | initializeHooker (env : Env)
  | destroy

def Lifecycle.call : Lifecycle → Call
  | .initializeHooker env => .initializeHooker env
  | .destroy => .destroy

/-- What a callback does to its arguments, the calls it makes, and what it returns. -/
structure Callback (α : Type) where
  edit : α → α
  calls : List Lifecycle
  ret : Bool

/-- The hooker and, for every trampoline called so far, whether its hook was still there. -/
abbrev Traced (W H : Type) := St W H × List Bool

def runCalls (calls : List Lifecycle) (s : St W H) : St W H := calls.foldl (fun s c => step impl s c.call) s

def Callback.run {α : Type} (f : Callback α) (a : α × Traced W H) : Bool × α × Traced W H :=
  (f.ret, f.edit a.1, runCalls impl f.calls a.2.1, a.2.2)

/-- Calling the trampoline of the hook with this serial. -/
def trampoline {ρ : Type} (serial : Nat) (ret : ρ) (w : Traced W H) : ρ × Traced W H :=
  (ret, w.1, w.2 ++ [live w.1 serial])

def Passes {α : Type} (fs : List (Option (Callback α))) : Prop := ∀ f, some f ∈ fs → f.ret = true

def Destroys {α : Type} (fs : List (Option (Callback α))) : Prop := ∃ f, some f ∈ fs ∧ Lifecycle.destroy ∈ f.calls

/-- All calls the callbacks make, in order. -/
def scripts {α : Type} : List (Option (Callback α)) → List Lifecycle
  | [] => []
  | none :: fs => scripts fs
  | some f :: fs => f.calls ++ scripts fs

theorem mem_scripts {α : Type} {fs : List (Option (Callback α))} : Lifecycle.destroy ∈ scripts fs ↔ Destroys fs := by
  unfold Destroys
  induction fs with
  | nil => simp [scripts]
  | cons f fs ih => cases f <;> simp [scripts, ih]

/-- A dispatch makes calls and logs nothing; one that passes makes all of them. -/
theorem call_run {α : Type} (fs : List (Option (Callback α))) (a : α) (s : St W H) (log : List Bool) :
    ((Signal.call (Callback.run impl) fs (a, s, log)).ret = true ↔ Passes fs) ∧
      (∃ calls, (Signal.call (Callback.run impl) fs (a, s, log)).args.2 = (runCalls impl calls s, log)) ∧
      (Passes fs → (Signal.call (Callback.run impl) fs (a, s, log)).args.2 = (runCalls impl (scripts fs) s, log)) := by
  induction fs generalizing a s with
  | nil => exact ⟨⟨fun _ _ hf => absurd hf List.not_mem_nil, fun _ => rfl⟩, ⟨[], rfl⟩, fun _ => rfl⟩
  | cons f fs ih =>
    cases f with
    | none =>
      obtain ⟨h1, h2, h3⟩ := ih a s
      have hpass : Passes (none :: fs) ↔ Passes fs := by simp [Passes]
      rw [hpass]
      exact ⟨h1, h2, h3⟩
    | some f =>
      obtain ⟨h1, ⟨calls, h2⟩, h3⟩ := ih (f.edit a) (runCalls impl f.calls s)
      have hpass : Passes (some f :: fs) ↔ f.ret = true ∧ Passes fs := by simp [Passes]
      have happend : ∀ l, runCalls impl l (runCalls impl f.calls s) = runCalls impl (f.calls ++ l) s := fun l => by
        simp [runCalls, List.foldl_append]
      rw [hpass]
      simp only [Signal.call, Callback.run] at h1 h2 h3 ⊢
      by_cases hret : f.ret = true
      · simp only [hret, if_true, true_and]
        exact ⟨h1, ⟨f.calls ++ calls, by rw [h2, happend]⟩, fun hp => by rw [h3 hp, happend]; rfl⟩
      · simp only [hret]
        exact ⟨by simp, ⟨f.calls, rfl⟩, fun hp => absurd hp.1 Bool.false_ne_true⟩

theorem runCalls_sound {s : St W H} (h : Sound s) (calls : List Lifecycle) : Sound (runCalls impl calls s) := by
  induction calls generalizing s with
  | nil => exact h
  | cons c calls ih => exact ih (step_sound impl h c.call)

theorem runCalls_serials (s : St W H) (calls : List Lifecycle) : Serials s (runCalls impl calls s) := by
  induction calls generalizing s with
  | nil => exact .refl s
  | cons c calls ih => exact (step_serials impl s c.call).trans (ih _)

/-- From a hooker that is set up, calls keep the hooks exactly if `destroy` is not among them. -/
theorem runCalls_live {s : St W H} (h : Sound s) (hi : s.initialized = true) {serial : Nat} (hlive : live s serial = true)
    (calls : List Lifecycle) : live (runCalls impl calls s) serial = true ↔ Lifecycle.destroy ∉ calls := by
  induction calls with
  | nil => exact ⟨fun _ => nofun, fun _ => hlive⟩
  | cons c calls ih =>
    cases c with
    | initializeHooker env =>
      have hsame : step impl s (Lifecycle.initializeHooker env).call = s :=
        congrArg Prod.snd (initialize_idle impl env hi)
      have hrun : runCalls impl (.initializeHooker env :: calls) s = runCalls impl calls s := by
        rw [runCalls, List.foldl_cons, hsame]; rfl
      rw [hrun, ih]
      simp
    | destroy =>
      obtain ⟨k, hook, hk, rfl⟩ := (live_iff s serial).mp hlive
      have hdead : live (destroy impl s) hook.serial = false := by
        apply Bool.eq_false_iff.mpr
        intro hl
        obtain ⟨k', hook', hk', -⟩ := (live_iff _ _).mp hl
        rw [destroy_hook impl hi] at hk'
        cases hk'
      have hlt := Nat.lt_of_lt_of_le (h.serial k hook hk) (destroy_serials impl s).created
      have := (runCalls_serials impl (destroy impl s) calls).dead hlt hdead
      refine ⟨?_, fun hn => absurd (List.mem_cons_self ..) hn⟩
      intro hl
      rw [show runCalls impl (.destroy :: calls) s = runCalls impl calls (destroy impl s) from rfl, this] at hl
      cases hl

/-! ## Events -/

/-- The game enters a detour; `ret` and `packet` are what the original returns. -/
inductive Event where
  | send (callbacks : List (Option (Callback SendArgs))) (args : SendArgs) (ret : Bool)
  | receive (callbacks : List (Option (Callback Unit))) (packet : Option Addr)
  | sendRpc (callbacks : List (Option (Callback SendRpcArgs))) (uniqueId : Option (BitVec 32)) (args : RpcCallArgs)
    (ret : Bool)
  | incomingRpc (callbacks : List (Option (Callback Rpc.RpcArgs))) (g : Junk) (rp : Addr) (playerid : PlayerId)
      (data : List Byte) (ret : Bool)

def Event.slot : Event → Slot
  | .send .. => .sendHook
  | .receive .. => .receiveHook
  | .sendRpc .. => .rpcHook
  | .incomingRpc .. => .handleRpcHook

/-- The detour of the hook with this serial, and what it leaves. -/
def Event.run (serial : Nat) (s : St W H) : Event → Traced W H
  | .send fs args ret => (sendHooked (Callback.run impl) (fun _ _ => trampoline serial ret) fs s.orig args (s, [])).world
  | .receive fs packet =>
    (receiveHooked (fun f _ w => ((f.run impl ((), w)).1, (f.run impl ((), w)).2.2)) (fun _ => trampoline serial packet)
      (fun _ w => w) fs s.orig (s, [])).world
  | .sendRpc fs uniqueId args ret =>
    (rpcHooked (Callback.run impl) (fun _ _ _ => trampoline serial ret) fs s.orig uniqueId args (s, [])).world
  | .incomingRpc fs g rp playerid data ret =>
    (handleRpcPacket g (Callback.run impl) (fun _ _ _ _ => trampoline serial ret) fs rp playerid data (s, [])).world

/-- An event reaches its detour only where the hook is installed. -/
def Event.trace (s : St W H) (e : Event) : Traced W H :=
  match s.hook e.slot with
  | some h => if h.installed then e.run impl h.serial s else (s, [])
  | none => (s, [])

/-- The detour calls its trampoline behind a dispatch that passed and destroyed. -/
def Event.Removes : Event → Prop
  | .send fs _ _ => Passes fs ∧ Destroys fs
  | .receive .. => False
  | .sendRpc fs uniqueId _ _ => uniqueId ≠ none ∧ Passes fs ∧ Destroys fs
  | .incomingRpc fs g _ _ data _ => (Rpc.parseRpc g data).callbackBs ≠ none ∧ Passes fs ∧ Destroys fs

section Dispatch

variable {α : Type} {s : St W H} {fs : List (Option (Callback α))} {a : α}

theorem dispatch_pass (h : Sound s) (hi : s.initialized = true) {serial : Nat}
    (hlive : live s serial = true) {ρ : Type} (ret : ρ)
    (hret : (Signal.call (Callback.run impl) fs (a, s, [])).ret = true) :
    let w := (trampoline serial ret (Signal.call (Callback.run impl) fs (a, s, [])).args.2).2
    Sound w.1 ∧ ((∀ b ∈ w.2, b = true) ↔ ¬ (Passes fs ∧ Destroys fs)) := by
  obtain ⟨hpass, -, hall⟩ := call_run impl fs a s []
  have hp := hpass.mp hret
  intro w
  have hw : w = (runCalls impl (scripts fs) s, [live (runCalls impl (scripts fs) s) serial]) := by
    simp only [w, trampoline, hall hp, List.nil_append]
  rw [hw]
  refine ⟨runCalls_sound impl h _, ?_⟩
  simp only [List.mem_singleton, forall_eq, hp, true_and]
  rw [runCalls_live impl h hi hlive, mem_scripts]

theorem dispatch_veto (h : Sound s) (hret : ¬ (Signal.call (Callback.run impl) fs (a, s, [])).ret = true) :
    let w := (Signal.call (Callback.run impl) fs (a, s, [])).args.2
    Sound w.1 ∧ ((∀ b ∈ w.2, b = true) ↔ ¬ (Passes fs ∧ Destroys fs)) := by
  obtain ⟨hpass, ⟨calls, hcalls⟩, -⟩ := call_run impl fs a s []
  intro w
  rw [show w = (runCalls impl calls s, []) from hcalls]
  exact ⟨runCalls_sound impl h _, fun _ hd => hret (hpass.mpr hd.1), fun _ => nofun⟩

end Dispatch

theorem run_safe {s : St W H} (h : Sound s) (hi : s.initialized = true) {serial : Nat} (hlive : live s serial = true)
    (e : Event) :
    Sound (e.run impl serial s).1 ∧ ((∀ b ∈ (e.run impl serial s).2, b = true) ↔ ¬ e.Removes) := by
  have honce : ∀ w : Traced W H, w.2 = [live s serial] → (∀ b ∈ w.2, b = true) := fun w hw b hb => by
    rw [hw, hlive] at hb
    exact List.mem_singleton.mp hb
  cases e with
  | send fs args ret =>
    simp only [Event.run, sendHooked, Event.Removes]
    split
    · exact dispatch_pass impl h hi hlive ret ‹_›
    · exact dispatch_veto impl h ‹_›
  | receive fs packet =>
    have hcall : ∀ a : Unit × Traced W H, ∀ (fs : List (Option (Callback Unit))), Sound a.2.1 ∧ a.2.2 = [live s serial] →
        Sound (Signal.call (fun (f : Callback Unit) w =>
          ((f.run impl ((), w)).1, (f.run impl ((), w)).2.2)) fs a.2).args.1 ∧
          (Signal.call (fun (f : Callback Unit) w => ((f.run impl ((), w)).1, (f.run impl ((), w)).2.2)) fs a.2).args.2 =
            [live s serial] := fun a fs ha =>
      Signal.call_keeps (P := fun w : Traced W H => Sound w.1 ∧ w.2 = [live s serial]) _
        (fun f w hw => ⟨runCalls_sound impl hw.1 f.calls, hw.2⟩) fs ha
    have hrun : Sound (Event.run impl serial s (.receive fs packet)).1 ∧
        (Event.run impl serial s (.receive fs packet)).2 = [live s serial] := by
      simp only [Event.run, receiveHooked, trampoline]
      cases packet with
      | none => exact ⟨h, rfl⟩
      | some p =>
        have := hcall ((), s, [live s serial]) fs ⟨h, rfl⟩
        dsimp only
        split <;> exact this
    exact ⟨hrun.1, fun _ => id, fun _ => honce _ hrun.2⟩
  | sendRpc fs uniqueId args ret =>
    cases uniqueId with
    | none => exact ⟨h, fun _ hr => hr.1 rfl, fun _ => honce _ rfl⟩
    | some id =>
      have hne : some id ≠ none := nofun
      simp only [Event.run, rpcHooked, Event.Removes, hne, not_false_iff, true_and, ne_eq]
      split
      · exact dispatch_pass impl h hi hlive ret ‹_›
      · exact dispatch_veto impl h ‹_›
  | incomingRpc fs g rp playerid data ret =>
    have hpeer : Sound (s.recordPeer rp playerid) := ⟨h.initialized, h.serial⟩
    have hlive' : live (s.recordPeer rp playerid) serial = true := hlive
    simp only [Event.run, handleRpcPacket, Event.Removes]
    rcases hcb : (Rpc.parseRpc g data).callbackBs with _ | cb
    · rw [Rpc.handleRpcPacket_refused _ _ _ _ hcb]
      exact ⟨hpeer, fun _ hr => hr.1 rfl, fun _ => nofun⟩
    · have hne : some cb ≠ none := nofun
      rw [Rpc.handleRpcPacket_world _ _ _ _ hcb]
      simp only [hne, not_false_iff, true_and, ne_eq]
      split
      · exact dispatch_pass impl hpeer hi hlive' ret ‹_›
      · exact dispatch_veto impl hpeer ‹_›

/-! ## Runs -/

inductive Input where
  | lifecycle (c : Lifecycle)
  | event (e : Event)

def after (s : St W H) : Input → St W H
  | .lifecycle c => step impl s c.call
  | .event e => (e.trace impl s).1

/-- No trampoline of a hook that is gone is called. -/
def Safe (s : St W H) : Input → Prop
  | .lifecycle _ => True
  | .event e => ∀ b ∈ (e.trace impl s).2, b = true

/-- An event that reaches its detour and removes the hook under it. -/
def Removes (s : St W H) : Input → Prop
  | .lifecycle _ => False
  | .event e => s.hooked e.slot = true ∧ e.Removes

theorem after_safe {s : St W H} (h : Sound s) (i : Input) : Sound (after impl s i) ∧ (Safe impl s i ↔ ¬ Removes s i) := by
  cases i with
  | lifecycle c => exact ⟨step_sound impl h c.call, fun _ => id, fun _ => trivial⟩
  | event e =>
    simp only [after, Safe, Removes, Event.trace, St.hooked]
    rcases hk : s.hook e.slot with _ | hook
    · exact ⟨h, fun _ hr => absurd hr.1 (by simp), fun _ _ hb => absurd hb List.not_mem_nil⟩
    · by_cases hin : hook.installed = true
      · have hr := run_safe impl h (h.initialized _ _ hk) ((live_iff s hook.serial).mpr ⟨_, _, hk, rfl⟩) e
        simp only [hin, if_true, Option.any_some, true_and]
        exact hr
      · simp only [hin, Option.any_some]
        exact ⟨h, fun _ hr => Bool.noConfusion hr.1, fun _ _ hb => absurd hb List.not_mem_nil⟩

/-- On a run from the start no detour calls a stale trampoline exactly if no event removes
    its hook under its own detour. -/
theorem trampolines_iff (versions : VersionManager) (world : W) (inputs : List Input) :
    Along (after impl) (Safe impl) inputs (St.start versions world) ↔
      Along (after impl) (fun s i => ¬ Removes s i) inputs (St.start versions world) :=
  Along.iff_of_inv (fun _ i h _ => (after_safe impl h i).1) (fun _ i h => (after_safe impl h i).2) inputs
    (start_sound versions world)

/-- An on_send_packet callback destroys the hooker and lets the packet pass. -/
theorem send_after_destroy :
    ¬ Along (after willing) (Safe willing)
      [.lifecycle (.initializeHooker withClient),
        .event (.send [some ⟨id, [.destroy], true⟩] ⟨some (BitStream.empty fun _ _ => 0), .highPriority, .reliable, 0⟩ true)]
      (St.start VersionManager.known ()) := by
  rintro ⟨-, h, -⟩
  exact absurd (h false (by decide)) (by decide)

end RakHook.Hooker
