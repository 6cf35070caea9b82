/-
  RakHook.Wrappers.Machine — one hook object under any `install()` and `uninstall()`
  calls, and the machine with two states it should be.

  `installed` is what the caller knows: an `install()` returned true and no `uninstall()`
  did since. An implementation whose objects are related to the machine by `Refines`
  returns what the machine does, given what the back end left after each call.
-/

import RakHook.Hooker.Model
import RakHook.Lib.Run

namespace RakHook.Wrappers

open Lib

inductive Op where
  | install
  | uninstall
  deriving DecidableEq, Repr

/-- The machine: from a call and its outcome (`install`: the target is detoured now;
    `uninstall`: it is not) to what the call returns. -/
def machine : Bool → List (Op × Bool) → List Bool
  | _, [] => []
  | installed, (.install, outcome) :: l => (!installed && outcome) :: machine (installed || outcome) l
  | installed, (.uninstall, outcome) :: l => (installed && outcome) :: machine (installed && !outcome) l

/-- A hook object, the world around it and what the results so far say. -/
structure Object (W H : Type) where
  world : W
  hook : H
  installed : Bool

variable {W H : Type} (impl : HookImpl W H)

def made (d : Detour) (target : Addr) (w : W) : Object W H :=
  let r := impl.hook d target w
  ⟨r.2, r.1, false⟩

def perform (x : Object W H) : Op → Bool × Object W H
  | .install =>
    let r := impl.install x.hook x.world
    (r.1, ⟨r.2.2, r.2.1, x.installed || r.1⟩)
  | .uninstall =>
    let r := impl.uninstall x.hook x.world
    (r.1, ⟨r.2.2, r.2.1, x.installed && !r.1⟩)

def stepObject (x : Object W H) (op : Op) : Object W H := (perform impl x op).2

def results : List Op → Object W H → List Bool
  | [], _ => []
  | op :: ops, x => (perform impl x op).1 :: results ops (stepObject impl x op)

variable (detoured : W → Addr → Bool) (target : Addr)

/-- The outcome of a call that left `w`. -/
def outcome (w : W) : Op → Bool
  | .install => detoured w target
  | .uninstall => !detoured w target

def outcomes : List Op → Object W H → List Bool
  | [], _ => []
  | op :: ops, x => outcome detoured target (stepObject impl x op).world op :: outcomes ops (stepObject impl x op)

/-- `install()`: not installed before and detoured now. `uninstall()`: detoured before and
    not now. -/
def Truthful (x : Object W H) : Op → Prop
  | .install => (perform impl x .install).1 = true ↔
      x.installed = false ∧ detoured (stepObject impl x .install).world target = true
  | .uninstall => (perform impl x .uninstall).1 = true ↔
      detoured x.world target = true ∧ detoured (stepObject impl x .uninstall).world target = false

/-- Every call on the object is truthful, and together they return what the machine does. -/
def Reports (d : Detour) (w : W) (ops : List Op) : Prop :=
  Along (stepObject impl) (Truthful impl detoured target) ops (made impl d target w) ∧
    results impl ops (made impl d target w) =
      machine false (ops.zip (outcomes impl detoured target ops (made impl d target w)))

/-- `Rep` relates objects to the machine's states, as far as the back end is `Fair`. -/
structure Refines (Rep : Object W H → Prop) (Fair : Object W H → Op → Prop) : Prop where
  installed : ∀ x, Rep x → x.installed = true → detoured x.world target = true
  idle : ∀ x, Rep x → (perform impl x .uninstall).1 = true → x.installed = true
  truthful : ∀ x op, Rep x → (Truthful impl detoured target x op ↔ Fair x op)
  step : ∀ x op, Rep x → Fair x op → Rep (stepObject impl x op)

namespace Refines

variable {impl detoured target} {Rep : Object W H → Prop} {Fair : Object W H → Op → Prop}

end Refines

end RakHook.Wrappers
