import LispMachine.Proofs.Refinement.Start
import LispMachine.Sample

/-! # The machine refines the one without a stack

However many cells the stack has and however often frames and return points move to the heap, the
machine does what the one without a stack does, until it overflows or the other one gets stuck
because the program asks for too much.
-/

namespace LispMachine

open Machine

/-! ## Outcomes -/

inductive SameFault : Fault → Fault → Prop
  | same (f : Fault) : SameFault f f
  | slotIndex (index count : Nat) :
    SameFault (.stackSlotIndex index count) (.heapSlotIndex index count)

inductive SameOutcome :
    EStateM.Result Stop Machine Unit → EStateM.Result Stop HeapMachine Unit → Prop
  | ok {ρ : Naming} {m : Machine} {r : HeapMachine} :
    Mirrors ρ m r → SameOutcome (.ok () m) (.ok () r)
  | fault {ρ : Naming} {f g : Fault} {m : Machine} {r : HeapMachine} :
    SameFault f g → Mirrors ρ m r → SameOutcome (.error (.fault f) m) (.error (.fault g) r)
  | unfinished {m : Machine} {r : HeapMachine} :
    SameOutcome (.error .unfinished m) (.error .unfinished r)

def Overflowed (x : EStateM.Result Stop Machine Unit) : Prop :=
  ∃ f m, x = .error (.fault f) m ∧ f.IsOverflow

/-- The first result follows the second, when it is said no more how names have grown. -/
inductive Refines : EStateM.Result Stop Machine Unit → EStateM.Result Stop HeapMachine Unit → Prop
  | ok {ρ : Naming} {segs : List Segment} {lo : Nat} {m : Machine} {r : HeapMachine} :
    Represents ρ segs lo m r → Refines (.ok () m) (.ok () r)
  | fault {ρ : Naming} {segs : List Segment} {lo : Nat} {f g : Fault} {m : Machine}
      {r : HeapMachine} :
    SameFault f g → Represents ρ segs lo m r → Refines (.error (.fault f) m) (.error (.fault g) r)
  | unfinished {m : Machine} {r : HeapMachine} :
    Refines (.error .unfinished m) (.error .unfinished r)
  | overflow {f : Fault} {m : Machine} {y : EStateM.Result Stop HeapMachine Unit} :
    f.IsOverflow → m.capacity < HeapMachine.demanded y → Refines (.error (.fault f) m) y
  | stuck {x : EStateM.Result Stop Machine Unit} {r : HeapMachine} : Refines x (.error .stuck r)

variable {before : HostCalls} {ρ : Naming} {m : Machine} {r : HeapMachine}

theorem Raised.sameFault {lax : Prop} {f g : Fault} (h : Raised lax before ρ m r f g) :
    SameFault f g := by
  cases h with
  | ordinary hf =>
    cases hf with
    | same f => exact .same f
    | slotIndex index count => exact .slotIndex index count
  | orphaned => exact .same _
  | unwound => exact .same _

theorem Follows.refines {Q : Naming → Unit → Unit → Machine → HeapMachine → Prop}
    {x : EStateM.Result Stop Machine Unit} {y : EStateM.Result Stop HeapMachine Unit}
    (h : Follows True True before ρ Q x y)
    (hQ : ∀ {σ m r}, Q σ () () m r → ∃ segs lo, Represents σ segs lo m r) : Refines x y := by
  cases h with
  | ok _ h =>
    obtain ⟨segs, lo, h⟩ := hQ h
    exact .ok h
  | fault _ h =>
    obtain ⟨segs, lo, h', -⟩ := h.landed
    exact .fault h.sameFault h'
  | unfinished => exact .unfinished
  | broken => exact .stuck
  | overflow _ hf _ hcap => exact .overflow hf hcap
  | stuck => exact .stuck

namespace Refines

variable {x : Exec Unit} {y : HeapExec Unit}

theorem bind {f : Unit → Exec Unit} {g : Unit → HeapExec Unit} (h : Refines (x m) (y r))
    (hg : ∀ b, HeapMachine.Grows (g b))
    (hfg : ∀ {ρ segs lo m r}, Represents ρ segs lo m r → Refines (f () m) (g () r)) :
    Refines ((x >>= f) m) ((y >>= g) r) := by
  have hdemanded := HeapMachine.demanded_le_bind (x := y) (r := r) hg
  generalize hx : x m = X at h
  generalize hy : y r = Y at h hdemanded
  cases h with
  | ok h =>
    rw [bind_ok hx, bind_ok hy]
    exact hfg h
  | fault hf h =>
    rw [bind_error hx, bind_error hy]
    exact .fault hf h
  | unfinished =>
    rw [bind_error hx, bind_error hy]
    exact .unfinished
  | overflow hf hcap =>
    rw [bind_error hx]
    exact .overflow hf (hcap.trans_le hdemanded)
  | stuck =>
    rw [bind_error hy]
    exact .stuck

theorem sameOutcome {X : EStateM.Result Stop Machine Unit}
    {Y : EStateM.Result Stop HeapMachine Unit} (h : Refines X Y) (hY : ∀ r, Y ≠ .error .stuck r) :
    Overflowed X ∨ SameOutcome X Y := by
  cases h with
  | ok h => exact .inr (.ok h.mirrors)
  | fault hf h => exact .inr (.fault hf h.mirrors)
  | unfinished => exact .inr .unfinished
  | overflow hf => exact .inl ⟨_, _, rfl, hf⟩
  | stuck => exact absurd rfl (hY _)

end Refines

def ending {σ : Type} : EStateM.Result Stop σ Unit → Except Stop Unit
  | .ok _ _ => .ok ()
  | .error s _ => .error s

theorem ne_stuck_of_ending {σ : Type} {x : EStateM.Result Stop σ Unit}
    (h : ending x ≠ .error .stuck) (s : σ) : x ≠ .error .stuck s := by
  rintro rfl
  exact h rfl

theorem not_overflowed_of_ending {x : EStateM.Result Stop Machine Unit} (h : ending x = .ok ()) :
    ¬ Overflowed x := by
  rintro ⟨f, m, rfl, -⟩
  cases h

/-! ## Steps -/

/-- Executes `k` instructions, each with at most `n` steps for what it calls. -/
def Machine.steps {σ : Type} [Storage σ] (n : Nat) : Nat → EStateM Stop σ Unit
  | 0 => pure ()
  | k + 1 => step n *> steps n k

theorem Machine.preserves_steps {σ : Type} [Storage σ] {R : σ → σ → Prop} [StoragePreserves R]
    (n k : Nat) : Preserves R (steps n k) := by
  induction k with
  | zero => exact preserves_pure _
  | succ k ih => exact (preserves_step n).bind fun _ => ih

theorem Represents.step_refines {segs : List Segment} {lo : Nat} (h : Represents ρ segs lo m r)
    (n : Nat) : Refines (Machine.step n m) (Machine.step n r) := by
  have hi : InStep r.hosts true ρ m r := ⟨segs, lo, h, ⟨rfl, .inr fun _ h => h⟩, nofun⟩
  refine (hi.stepFollows (callsFollow n)).refines ?_
  rintro σ m r ⟨segs, lo, h, -⟩
  exact ⟨segs, lo, h⟩

theorem Represents.steps_refine {segs : List Segment} {lo : Nat} (h : Represents ρ segs lo m r)
    (n k : Nat) : Refines (Machine.steps n k m) (Machine.steps n k r) := by
  induction k generalizing ρ segs lo m r with
  | zero => exact .ok h
  | succ k ih => exact (h.step_refines n).bind (fun _ => preserves_steps n k) ih

theorem Setup.Closed.refines {s : Setup} (hs : s.Closed) (capacity : Nat) {x : Exec Unit}
    {y : HeapExec Unit} (hy : HeapMachine.Grows y)
    (hxy : ∀ {ρ segs lo m r}, Represents ρ segs lo m r → Refines (x m) (y r)) :
    Refines (s.onMachine capacity x) (s.onHeapMachine y) := by
  refine Refines.bind (hs.begin_follows.refines ?_) (fun _ => hy) hxy
  rintro σ m r ⟨segs, lo, h, -⟩
  exact ⟨segs, lo, h⟩

/-- After any number of instructions the machine has overflowed or has come to the same point as the
one without a stack, given that this one is not stuck. -/
theorem Setup.Closed.steps_sameOutcome {s : Setup} (hs : s.Closed) (capacity n k : Nat)
    (hstuck : ∀ r, s.onHeapMachine (Machine.steps n k) ≠ .error .stuck r) :
    Overflowed (s.onMachine capacity (Machine.steps n k)) ∨
      SameOutcome (s.onMachine capacity (Machine.steps n k))
        (s.onHeapMachine (Machine.steps n k)) :=
  (hs.refines capacity (preserves_steps n k) fun h => h.steps_refine n k).sameOutcome hstuck

def Setup.fibonacci (n : Int) : Setup where
  program := { code := Sample.fibonacci.code.toOption.getD #[], literals := #[.closure ⟨0⟩] }
  argc := 1
  args := [.fixnum n]
  heap := { closures := #[{ env := .empty, entry := 0 }] }

theorem Setup.fibonacci_closed (n : Int) : (fibonacci n).Closed where
  heap :=
    { pairs := nofun
      vectors := nofun
      closures := by simp [fibonacci, Env.ClosedIn]
      frames := nofun
      continuations := nofun
      procedures := nofun }
  globals := by simp [fibonacci]
  literals := by simp [fibonacci, Value.ClosedIn]
  acc := by simp [fibonacci, Value.ClosedIn]
  args := by simp [fibonacci, Value.ClosedIn]

/-- Six cells do not suffice for a frame below two return points, so some have moved by then. -/
theorem Setup.fibonacci_steps_sameOutcome :
    SameOutcome ((fibonacci 3).onMachine 6 (Machine.steps 10 40))
      ((fibonacci 3).onHeapMachine (Machine.steps 10 40)) :=
  ((fibonacci_closed 3).steps_sameOutcome 6 10 40
    (ne_stuck_of_ending (by decide +kernel))).resolve_left
    (not_overflowed_of_ending (by decide +kernel))

end LispMachine
