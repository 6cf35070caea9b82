/-
  RakHook.Hooker.Drain — a game loop that calls the hooked `Receive` until it returns null.

  `receive_hooked` returns null for an empty queue and for a vetoed packet alike, so the
  loop stops behind the first veto. `verdicts` is what the callbacks would say of every
  packet; the loop hands out the accepted ones and drains the queue exactly if no verdict
  but the last is a veto.
-/

import RakHook.Hooker.Detours
import RakHook.Signal.Fold

namespace RakHook.Hooker

variable {φ π ω : Type}

/-- The queue behind the original `Receive`, the packets given to `DeallocatePacket`, and
    what belongs to the callbacks. -/
structure Net (π ω : Type) where
  queue : List π
  freed : List π
  user : ω
  deriving DecidableEq, Repr

def Net.receive (n : Net π ω) : Option π × Net π ω :=
  match n.queue with
  | [] => (none, n)
  | p :: queue => (some p, { n with queue := queue })

def Net.deallocatePacket (p : π) (n : Net π ω) : Net π ω := { n with freed := n.freed ++ [p] }

variable (invoke : φ → π → ω → Bool × ω)

def onNet (f : φ) (p : π) (n : Net π ω) : Bool × Net π ω :=
  ((invoke f p n.user).1, { n with user := (invoke f p n.user).2 })

def receiveNet (fs : List (Option φ)) (n : Net π ω) : Result (Option π) φ (Net π ω) :=
  receiveHooked (onNet invoke) (fun _ => Net.receive) Net.deallocatePacket fs 0 n

/-- The packets the loop got, the state it left, and whether it saw null. -/
structure Drained (φ π ω : Type) where
  got : List π
  net : Net π ω
  functions : List (Option φ)
  returnedNull : Bool

/-- The game loop, for at most `fuel` calls. -/
def drain : (fuel : Nat) → List (Option φ) → Net π ω → Drained φ π ω
  | 0, fs, n => ⟨[], n, fs, false⟩
  | fuel + 1, fs, n =>
    let r := receiveNet invoke fs n
    match r.ret with
    | none => ⟨[], r.world, r.functions, true⟩
    | some p =>
      let d := drain fuel r.functions r.world
      { d with got := p :: d.got }

/-- Every packet of a queue with what the callbacks say of it, run one after the other up to
    the first that refuses. -/
def verdicts (fs : List φ) : ω → List π → List (π × Bool)
  | _, [] => []
  | user, p :: queue =>
    let o := Signal.fold (fun f => invoke f p) fs user
    (p, o.ret) :: verdicts fs o.args queue

theorem verdicts_packets (fs : List φ) (user : ω) (queue : List π) : (verdicts invoke fs user queue).map (·.1) = queue := by
  induction queue generalizing user with
  | nil => rfl
  | cons p queue ih => exact congrArg (p :: ·) (ih _)

def accepted (v : List (π × Bool)) : List π := (v.filter (·.2)).map (·.1)

def vetoed (v : List (π × Bool)) : List π := (v.filter (!·.2)).map (·.1)

/-- What the loop has to do: it ends, hands out exactly the accepted packets in order,
    every vetoed one has been deallocated once and no other, nothing stays in the queue. -/
def DrainsAll (fs : List (Option φ)) (n : Net π ω) : Prop :=
  let d := drain invoke (n.queue.length + 1) fs n
  let v := verdicts invoke (Signal.registered fs) n.user n.queue
  d.returnedNull = true ∧ d.got = accepted v ∧ d.net.freed = n.freed ++ vetoed v ∧ d.net.queue = []

/-- A dispatch inside the net is the fold of the callbacks over what belongs to them. -/
theorem call_onNet (fs : List (Option φ)) (p : π) (n : Net π ω) :
    (Signal.call (fun f => onNet invoke f p) fs n).ret =
        (Signal.fold (fun f => invoke f p) (Signal.registered fs) n.user).ret ∧
      (Signal.call (fun f => onNet invoke f p) fs n).args =
        { n with user := (Signal.fold (fun f => invoke f p) (Signal.registered fs) n.user).args } := by
  obtain ⟨hret, hargs⟩ := Signal.call_eq_fold (fun f => invoke f p) fs n.user
  rw [← hret, ← hargs]
  have hstep : ∀ f, some f ∈ fs → ∀ (m : Net π ω) (user : ω), m = { n with user := user } →
      (onNet invoke f p m).1 = (invoke f p user).1 ∧ (onNet invoke f p m).2 = { n with user := (invoke f p user).2 } := by
    intro f _ m user hm
    rw [hm]
    exact ⟨rfl, rfl⟩
  obtain ⟨hret', hargs', -⟩ := Signal.call_sim (R := fun (m : Net π ω) user => m = { n with user := user }) hstep
    (show n = { n with user := n.user } from rfl)
  exact ⟨hret', hargs'⟩

theorem receiveNet_cons (fs : List (Option φ)) (p : π) (queue freed : List π) (user : ω) :
    let o := Signal.fold (fun f => invoke f p) (Signal.registered fs) user
    (receiveNet invoke fs ⟨p :: queue, freed, user⟩).ret = (if o.ret then some p else none) ∧
      (receiveNet invoke fs ⟨p :: queue, freed, user⟩).world = ⟨queue, if o.ret then freed else freed ++ [p], o.args⟩ ∧
      Signal.registered (receiveNet invoke fs ⟨p :: queue, freed, user⟩).functions = Signal.registered fs := by
  obtain ⟨h1, h2⟩ := call_onNet invoke fs p ⟨queue, freed, user⟩
  have h3 := Signal.call_registered (fun f => onNet invoke f p) fs ⟨queue, freed, user⟩
  simp only [receiveNet, receiveHooked, Net.receive, h1, h2]
  by_cases hv : (Signal.fold (fun f => invoke f p) (Signal.registered fs) user).ret = true
  · simp only [hv, if_true]
    exact ⟨trivial, trivial, h3⟩
  · simp only [hv]
    exact ⟨rfl, rfl, h3⟩

/-- The loop from any queue: it stops in front of what is behind the first veto. -/
theorem drain_spec (fs : List (Option φ)) (queue freed : List π) (user : ω) {fuel : Nat} (hfuel : queue.length < fuel) :
    let v := verdicts invoke (Signal.registered fs) user queue
    let d := drain invoke fuel fs ⟨queue, freed, user⟩
    d.returnedNull = true ∧ d.got = (v.takeWhile (·.2)).map (·.1) ∧
      d.net.freed = freed ++ ((v.dropWhile (·.2)).take 1).map (·.1) ∧
        d.net.queue = ((v.dropWhile (·.2)).drop 1).map (·.1) := by
  induction queue generalizing fs freed user fuel with
  | nil =>
    cases fuel with
    | zero => exact absurd hfuel (Nat.not_lt_zero _)
    | succ fuel => exact ⟨rfl, rfl, (List.append_nil freed).symm, rfl⟩
  | cons p queue ih =>
    cases fuel with
    | zero => exact absurd hfuel (Nat.not_lt_zero _)
    | succ fuel =>
      obtain ⟨h1, h2, h3⟩ := receiveNet_cons invoke fs p queue freed user
      simp only [drain, h1, h2, verdicts]
      by_cases hret : (Signal.fold (fun f => invoke f p) (Signal.registered fs) user).ret = true
      · simp only [hret, if_true, List.takeWhile_cons_of_pos, List.dropWhile_cons_of_pos, List.map_cons]
        obtain ⟨i1, i2, i3, i4⟩ := ih (receiveNet invoke fs ⟨p :: queue, freed, user⟩).functions freed
          (Signal.fold (fun f => invoke f p) (Signal.registered fs) user).args (Nat.lt_of_succ_lt_succ hfuel)
        rw [h3] at i2 i3 i4
        exact ⟨i1, congrArg (p :: ·) i2, i3, i4⟩
      · rw [Bool.not_eq_true] at hret
        simp [hret, verdicts_packets]

/-- What is behind the first veto is nothing exactly if all verdicts but the last accept. -/
theorem drop_veto_iff (v : List (π × Bool)) : (v.dropWhile (·.2)).drop 1 = [] ↔ ∀ x ∈ v.dropLast, x.2 = true := by
  induction v with
  | nil => simp
  | cons x v ih =>
    by_cases hx : x.2 = true
    · rw [List.dropWhile_cons_of_pos hx, ih]
      cases v with
      | nil => simp
      | cons y v => simp [hx]
    · rw [List.dropWhile_cons_of_neg hx]
      cases v with
      | nil => simp
      | cons y v => simp [hx]

theorem split_eq {v : List (π × Bool)} (h : ∀ x ∈ v.dropLast, x.2 = true) :
    (v.takeWhile (·.2)).map (·.1) = accepted v ∧ ((v.dropWhile (·.2)).take 1).map (·.1) = vetoed v := by
  induction v with
  | nil => exact ⟨rfl, rfl⟩
  | cons x v ih =>
    by_cases hx : x.2 = true
    · have htail : ∀ y ∈ v.dropLast, y.2 = true := by
        intro y hy
        cases v with
        | nil => cases hy
        | cons z v => exact h y (List.mem_cons_of_mem x hy)
      obtain ⟨h1, h2⟩ := ih htail
      simp only [accepted, vetoed] at h1 h2 ⊢
      rw [List.takeWhile_cons_of_pos hx, List.dropWhile_cons_of_pos hx, List.filter_cons_of_pos hx,
        List.filter_cons_of_neg (by simp [hx])]
      exact ⟨congrArg (x.1 :: ·) h1, h2⟩
    · cases v with
      | nil => simp [accepted, vetoed, hx]
      | cons y v => exact absurd (h x (by simp)) hx

/-- The game gets every packet it should exactly if no packet but the last is vetoed. -/
theorem drains_iff (fs : List (Option φ)) (n : Net π ω) :
    DrainsAll invoke fs n ↔ ∀ x ∈ (verdicts invoke (Signal.registered fs) n.user n.queue).dropLast, x.2 = true := by
  obtain ⟨queue, freed, user⟩ := n
  obtain ⟨h1, h2, h3, h4⟩ := drain_spec invoke fs queue freed user (Nat.lt_succ_self queue.length)
  unfold DrainsAll
  rw [← drop_veto_iff]
  refine ⟨?_, ?_⟩
  · intro h
    have hempty := h.2.2.2
    rw [h4] at hempty
    exact List.map_eq_nil_iff.mp hempty
  · intro h
    obtain ⟨hgot, hfreed⟩ := split_eq ((drop_veto_iff _).mp h)
    exact ⟨h1, h2.trans hgot, h3.trans (congrArg (freed ++ ·) hfreed), h4.trans (by rw [h]; rfl)⟩

theorem veto_hides : ¬ DrainsAll (fun (_ : Unit) (p : Nat) (user : Unit) => (p != 207, user)) [some ()]
    ⟨[207, 32], [], ()⟩ := by
  intro hdrains
  obtain ⟨-, h, -⟩ := hdrains
  revert h
  decide

end RakHook.Hooker
