/-
  RakHook.Signal.Persist — callbacks with a state of their own, and arguments that are
  moved.

  A registered callback is a closure: `run` is its code, over the state `S` a stored
  `std::function` holds, the parameters and every object there is (`Store`). `call` runs
  a copy of each function (`auto func = *it`) and initialises the parameters of each from
  the same `std::forward<Args>(args)...`. `persists_iff` says for which calls that looks
  as if each callback were one object that gets what the caller passed.
-/

import RakHook.Signal.Call
import RakHook.Lib.Run

namespace RakHook.Signal

open Lib

variable {ℓ V S : Type} [DecidableEq ℓ]

abbrev Store (ℓ V : Type) := ℓ → V

/-- An argument of `call`: the object it refers to, whether it is an rvalue, and whether
    the parameter it is for is by value. -/
structure Arg (ℓ : Type) where
  object : ℓ
  rvalue : Bool
  byValue : Bool
  deriving DecidableEq, Repr

inductive Param (ℓ V : Type) where
  | value (v : V)
  | reference (object : ℓ)
  deriving DecidableEq, Repr

/-- What a callback does in its state: what it returns and leaves. A function that returns
    void counts as returning true. -/
abbrev Code (ℓ V S : Type) := S → List (Param ℓ V) → Store ℓ V → Bool × S × Store ℓ V

structure Invocation (ℓ V S : Type) where
  on : S
  params : List (Param ℓ V)
  leaves : S

section

variable (movedFrom : V → V) (run : Code ℓ V S)

/-- The parameters from `std::forward<Args>(args)...`: what is by value is copied from an
    lvalue and moved out of an rvalue. -/
def initParams : List (Arg ℓ) → Store ℓ V → List (Param ℓ V) × Store ℓ V
  | [], st => ([], st)
  | a :: args, st =>
    if a.byValue then
      let v := st a.object
      let r := initParams args (if a.rvalue then fun o => if o = a.object then movedFrom v else st o else st)
      (.value v :: r.1, r.2)
    else
      let r := initParams args st
      (.reference a.object :: r.1, r.2)

/-- `func(std::forward<Args>(args)...)` on a copy of `f`; what the copy leaves in its state
    goes into the log and nowhere else. -/
def invokeCopy (args : List (Arg ℓ)) (f : S) (x : Store ℓ V × List (Invocation ℓ V S)) :
    Bool × Store ℓ V × List (Invocation ℓ V S) :=
  let p := initParams movedFrom args x.1
  let r := run f p.1 p.2
  (r.1, r.2.2, x.2 ++ [⟨f, p.1, r.2.1⟩])

def callCopies (args : List (Arg ℓ)) (functions : List (Option S)) (st : Store ℓ V) :
    Dispatch S (Store ℓ V × List (Invocation ℓ V S)) :=
  call (invokeCopy movedFrom run args) functions (st, [])

/-- A signal, and the state each callback left behind when it last ran. -/
structure Registered (S : Type) where
  functions : List (Option S)
  left : List S

/-- A call, and the objects as the caller leaves them for it. -/
structure Input (ℓ V : Type) where
  args : List (Arg ℓ)
  store : Store ℓ V

def Registered.start (fs : List S) : Registered S := ⟨fs.map some, fs⟩

def Registered.step (r : Registered S) (c : Input ℓ V) : Registered S :=
  let d := callCopies movedFrom run c.args r.functions c.store
  ⟨d.functions, d.args.2.map (·.leaves) ++ r.left.drop d.args.2.length⟩

/-- The callbacks that run are the first ones, each on the state it left last, and each is
    given the parameters that a single call with the caller's arguments gives. -/
def Persists (r : Registered S) (c : Input ℓ V) : Prop :=
  let ran := (callCopies movedFrom run c.args r.functions c.store).args.2
  ran.map (·.on) <+: r.left ∧ ∀ i ∈ ran, i.params = (initParams movedFrom c.args c.store).1

/-- Along the callbacks of a call: each has left the state it is registered with, and one
    that lets another run leaves the arguments worth the same parameters, after being moved
    from and after what its code does to them. -/
def Undisturbed (args : List (Arg ℓ)) : List S → List S → Store ℓ V → Prop
  | [], _, _ => True
  | f :: fs, left, st =>
    let p := initParams movedFrom args st
    let r := run f p.1 p.2
    left.head? = some f ∧
      (r.1 = true → fs ≠ [] → (initParams movedFrom args r.2.2).1 = p.1 ∧ Undisturbed args fs left.tail r.2.2)

/-! ## What a call runs -/

def invocations (args : List (Arg ℓ)) : List S → Store ℓ V → List (Invocation ℓ V S)
  | [], _ => []
  | f :: fs, st =>
    let p := initParams movedFrom args st
    let r := run f p.1 p.2
    ⟨f, p.1, r.2.1⟩ :: if r.1 then invocations args fs r.2.2 else []

theorem call_invocations (args : List (Arg ℓ)) (fs : List S) (st : Store ℓ V) (log : List (Invocation ℓ V S)) :
    (call (invokeCopy movedFrom run args) (fs.map some) (st, log)).args.2 = log ++ invocations movedFrom run args fs st ∧
      (call (invokeCopy movedFrom run args) (fs.map some) (st, log)).functions = fs.map some := by
  induction fs generalizing st log with
  | nil => exact ⟨by simp [call, invocations], rfl⟩
  | cons f fs ih =>
    simp only [List.map_cons, call, invokeCopy, invocations]
    by_cases h : (run f (initParams movedFrom args st).1 (initParams movedFrom args st).2).1 = true
    · simp only [h, if_true]
      obtain ⟨hlog, hfs⟩ := ih (run f (initParams movedFrom args st).1 (initParams movedFrom args st).2).2.2
        (log ++ [⟨f, (initParams movedFrom args st).1,
          (run f (initParams movedFrom args st).1 (initParams movedFrom args st).2).2.1⟩])
      exact ⟨by rw [hlog, List.append_assoc]; rfl, by rw [hfs]⟩
    · simp only [h]
      exact ⟨rfl, rfl⟩

theorem step_functions {fs : List S} {r : Registered S} (h : r.functions = fs.map some) (c : Input ℓ V) :
    (r.step movedFrom run c).functions = fs.map some := by
  simp only [Registered.step, callCopies, h]
  exact (call_invocations movedFrom run c.args fs c.store []).2

theorem persists_from (args : List (Arg ℓ)) (fs left : List S) (st : Store ℓ V) :
    ((invocations movedFrom run args fs st).map (·.on) <+: left ∧
        ∀ i ∈ invocations movedFrom run args fs st, i.params = (initParams movedFrom args st).1) ↔
      Undisturbed movedFrom run args fs left st := by
  induction fs generalizing left st with
  | nil => simp [invocations, Undisturbed]
  | cons f fs ih =>
    rcases left with _ | ⟨l, ls⟩
    · simp [invocations, Undisturbed]
    obtain ⟨p, hp⟩ : ∃ p, initParams movedFrom args st = p := ⟨_, rfl⟩
    obtain ⟨r, hr⟩ : ∃ r, run f p.1 p.2 = r := ⟨_, rfl⟩
    simp only [invocations, Undisturbed, hp, hr, List.map_cons, List.cons_prefix_cons, List.head?_cons, List.tail_cons,
      Option.some.injEq]
    rcases r with ⟨_ | _, s, st'⟩
    · simp [eq_comm]
    rcases fs with _ | ⟨g, fs⟩
    · simp [invocations, eq_comm]
    have hrest := ih ls st'
    have hfirst : ∃ i ∈ invocations movedFrom run args (g :: fs) st', i.params = (initParams movedFrom args st').1 :=
      ⟨_, List.mem_cons_self .., rfl⟩
    refine ⟨?_, ?_⟩
    · rintro ⟨⟨hf, hpre⟩, hall⟩
      refine ⟨hf.symm, fun _ _ => ?_⟩
      obtain ⟨i, hi, hparams⟩ := hfirst
      have heq : (initParams movedFrom args st').1 = p.1 := hparams.symm.trans (hall i (List.mem_cons_of_mem _ hi))
      refine ⟨heq, hrest.mp ⟨hpre, fun j hj => ?_⟩⟩
      rw [heq]
      exact hall j (List.mem_cons_of_mem _ hj)
    · rintro ⟨hf, hnext⟩
      obtain ⟨heq, hun⟩ := hnext rfl (by simp)
      obtain ⟨hpre, hall⟩ := hrest.mpr hun
      refine ⟨⟨hf.symm, hpre⟩, fun j hj => ?_⟩
      rcases List.mem_cons.mp hj with rfl | hj
      · rfl
      · exact (hall j hj).trans heq

theorem persists_call {fs : List S} {r : Registered S} (h : r.functions = fs.map some) (c : Input ℓ V) :
    Persists movedFrom run r c ↔ Undisturbed movedFrom run c.args fs r.left c.store := by
  have hran := (call_invocations movedFrom run c.args fs c.store []).1
  rw [List.nil_append] at hran
  simp only [Persists, callCopies, h, hran]
  exact persists_from movedFrom run c.args fs r.left c.store

/-- The callbacks of a signal are persistent objects that get the caller's arguments, in
    every call of a run, exactly if every call of it is undisturbed. -/
theorem persists_iff (fs : List S) (calls : List (Input ℓ V)) :
    Along (Registered.step movedFrom run) (Persists movedFrom run) calls (.start fs) ↔
      Along (Registered.step movedFrom run) (fun r c => Undisturbed movedFrom run c.args fs r.left c.store) calls
        (.start fs) :=
  Along.iff_of_inv (I := fun r => r.functions = fs.map some) (fun _ c h _ => step_functions movedFrom run h c)
    (fun _ c h => persists_call movedFrom run h c) calls rfl

end

/-! ## A counter and a moved string -/

def counter : Code Unit Nat Nat := fun n _ st => (true, n + 1, st)

/-- A mutable lambda counts to 1 again in its second call; of two callbacks that take a
    value, the second is given what is left of an rvalue once the first was. -/
theorem counter_restarts :
    ¬ Along (Registered.step id counter) (Persists id counter) [⟨[], fun _ => 0⟩, ⟨[], fun _ => 0⟩] (.start [0]) ∧
      ¬ Along (Registered.step (fun _ => 0) counter) (Persists (fun _ => 0) counter)
        [⟨[⟨(), true, true⟩], fun _ => 5⟩] (.start [0, 0]) := by
  refine ⟨?_, ?_⟩
  · intro h
    have hsecond : [0] <+: [1] := h.2.1.1
    exact absurd hsecond (by decide)
  · intro h
    have hvalues := h.1.2 ⟨0, [.value 0], 1⟩ (List.mem_cons_of_mem _ (List.mem_cons_self ..))
    exact absurd hvalues (by decide)

end RakHook.Signal
