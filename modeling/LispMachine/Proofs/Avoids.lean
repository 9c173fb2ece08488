import LispMachine.Machine.Run

/-! # Which faults are about control

Two faults say where the code goes on: that the target of a jump is not in the code, and that a call
was unwound because another loop goes on in its place. Nothing that looks up a value fails with
either of them.
-/

namespace LispMachine

variable {α β : Type}

namespace Fault

def isUnwound : Fault → Bool
  | unwound => true
  | _ => false

/-- The fault says that a call was unwound or that a jump has no target. -/
def isControl : Fault → Bool
  | unwound | invalidJump .. => true
  | _ => false

theorem isControl_of_isUnwound {f : Fault} (h : f.isUnwound = true) : f.isControl = true := by
  cases f with
  | unwound => rfl
  | _ => cases h

end Fault

/-- The look-up does not fail with any of the faults in question. -/
def Avoids (bad : Fault → Bool) (x : Except Stop α) : Prop :=
  ∀ f, x = .error (.fault f) → bad f = false

variable {bad : Fault → Bool}

theorem avoids_ok (a : α) : Avoids bad (.ok a : Except Stop α) := fun _ h => by cases h

theorem avoids_stuck : Avoids bad (.error .stuck : Except Stop α) := fun _ h => by cases h

theorem avoids_unfinished : Avoids bad (.error .unfinished : Except Stop α) := fun _ h => by cases h

theorem avoids_fault {f : Fault} (hf : bad f = false) :
    Avoids bad (.error (.fault f) : Except Stop α) := by
  intro g h
  cases h
  exact hf

theorem Avoids.bind {x : Except Stop α} {f : α → Except Stop β} (hx : Avoids bad x)
    (hf : ∀ a, Avoids bad (f a)) : Avoids bad (x >>= f) := by
  cases x with
  | ok a => exact hf a
  | error s =>
    intro g h
    cases h
    exact hx g rfl

theorem Avoids.ite {c : Prop} [Decidable c] {x y : Except Stop α} (hx : Avoids bad x)
    (hy : Avoids bad y) : Avoids bad (if c then x else y) := by
  split
  · exact hx
  · exact hy

theorem avoids_present (o : Option α) : Avoids bad (present o) := by
  cases o with
  | none => exact avoids_stuck
  | some a => exact avoids_ok a

theorem avoids_orFault {f : Fault} (hf : bad f = false) (o : Option α) :
    Avoids bad (orFault f o) := by
  cases o with
  | none => exact avoids_fault hf
  | some a => exact avoids_ok a

namespace Heap

variable (h : Heap)

theorem avoids_car (v : Value) : Avoids Fault.isControl (h.car v) := by
  cases v with
  | pair r => exact (avoids_present _).bind fun _ => avoids_ok _
  | nil => exact avoids_ok _
  | _ => exact avoids_fault rfl

theorem avoids_cdr (v : Value) : Avoids Fault.isControl (h.cdr v) := by
  cases v with
  | pair r => exact (avoids_present _).bind fun _ => avoids_ok _
  | nil => exact avoids_ok _
  | _ => exact avoids_fault rfl

theorem avoids_walk (n : Nat) (v : Value) : Avoids Fault.isControl (h.walk n v) := by
  induction n generalizing v with
  | zero =>
    cases v with
    | pair r => exact avoids_unfinished
    | _ => exact avoids_ok _
  | succ n ih =>
    cases v with
    | pair r => exact (avoids_present _).bind fun _ => (ih _).bind fun _ => avoids_ok _
    | _ => exact avoids_ok _

theorem avoids_items (list : Value) : Avoids Fault.isControl (h.items list) := by
  refine (h.avoids_walk _ list).bind fun ⟨items, last⟩ => ?_
  cases last with
  | nil => exact avoids_ok _
  | _ => exact avoids_fault rfl

theorem avoids_element? (n : Nat) (v : Value) : Avoids Fault.isControl (h.element? n v) := by
  induction n generalizing v with
  | zero =>
    cases v with
    | pair r => exact (avoids_present _).bind fun _ => avoids_ok _
    | _ => exact avoids_ok _
  | succ n ih =>
    cases v with
    | pair r => exact (avoids_present _).bind fun _ => ih _
    | _ => exact avoids_ok _

theorem avoids_nth (list : Value) (index : Int) : Avoids Fault.isControl (h.nth list index) := by
  refine .ite ((avoids_ok _).bind fun found => ?_) ((h.avoids_element? _ _).bind fun found => ?_)
  · exact avoids_orFault rfl found
  · exact avoids_orFault rfl found

end Heap

namespace Machine

variable (m : Machine)

theorem avoids_cells (lo hi : Nat) : Avoids Fault.isControl (m.cells lo hi) :=
  .ite (avoids_ok _) avoids_stuck

theorem avoids_distance (hi lo : Nat) : Avoids Fault.isControl (distance hi lo) :=
  .ite (avoids_ok _) avoids_stuck

/-! ## Environments -/

theorem avoids_descriptor (e : Nat) : Avoids Fault.isControl (m.descriptor e) :=
  avoids_orFault rfl _

theorem avoids_resolve (env : Env) : Avoids Fault.isControl (m.resolve env) := by
  cases env with
  | onStack e =>
    refine (m.avoids_descriptor e).bind fun d => ?_
    cases d <;> exact avoids_ok _
  | _ => exact avoids_ok _

theorem avoids_liveFrames (n : Nat) (env : Env) : Avoids Fault.isControl (m.liveFrames n env) := by
  induction n generalizing env with
  | zero =>
    cases env with
    | onStack e =>
      refine (m.avoids_descriptor e).bind fun d => ?_
      cases d with
      | moved r => exact avoids_ok _
      | live start count parent => exact avoids_unfinished
    | _ => exact avoids_ok _
  | succ n ih =>
    cases env with
    | onStack e =>
      refine (m.avoids_descriptor e).bind fun d => ?_
      cases d with
      | moved r => exact avoids_ok _
      | live start count parent => exact (ih parent).bind fun _ => avoids_ok _
    | _ => exact avoids_ok _

theorem avoids_innermost (env : Env) : Avoids Fault.isControl (m.innermost env) := by
  cases env with
  | empty => exact avoids_fault rfl
  | onHeap r => exact (avoids_present _).bind fun _ => avoids_ok _
  | onStack e =>
    refine (m.avoids_descriptor e).bind fun d => ?_
    cases d with
    | moved r => exact (avoids_present _).bind fun _ => avoids_ok _
    | live start count parent => exact avoids_ok _

theorem avoids_slotsAt (env : Env) (depth : Nat) :
    Avoids Fault.isControl (m.slotsAt env depth) := by
  induction depth generalizing env with
  | zero => exact (m.avoids_innermost env).bind fun _ => avoids_ok _
  | succ depth ih => exact (m.avoids_innermost env).bind fun _ => ih _

theorem avoids_readSlot (depth index : Nat) : Avoids Fault.isControl (m.readSlot depth index) := by
  refine (m.avoids_slotsAt _ _).bind fun slots => ?_
  cases slots with
  | onStack start count => exact .ite (avoids_present _) (avoids_fault rfl)
  | onHeap r => exact (avoids_present _).bind fun _ => avoids_orFault rfl _

/-! ## Continuations -/

theorem avoids_returnPoint (c : Nat) : Avoids Fault.isControl (m.returnPoint c) := by
  refine .ite (avoids_fault rfl) ?_
  refine (avoids_orFault rfl _).bind fun ip => (avoids_orFault rfl _).bind fun bp => ?_
  refine (avoids_present _).bind fun v => (avoids_orFault rfl _).bind fun env => ?_
  refine (avoids_present _).bind fun v => (avoids_orFault rfl _).bind fun prev => ?_
  exact .ite (avoids_fault rfl) (avoids_ok _)

theorem avoids_returnPoints (n : Nat) (cont : Cont) :
    Avoids Fault.isControl (m.returnPoints n cont) := by
  induction n generalizing cont with
  | zero =>
    cases cont with
    | onStack c => exact (m.avoids_returnPoint c).bind fun _ => avoids_unfinished
    | _ => exact avoids_ok _
  | succ n ih =>
    cases cont with
    | onStack c =>
      exact (m.avoids_returnPoint c).bind fun _ => (ih _).bind fun _ => avoids_ok _
    | _ => exact avoids_ok _

theorem avoids_ownerOf (cont : Cont) : Avoids Fault.isControl (m.ownerOf cont) := by
  cases cont with
  | onHeap r => exact (avoids_present _).bind fun _ => avoids_ok _
  | _ => exact avoids_ok _

/-! ## Instructions -/

/-- A target is looked for only where the code may go on. -/
theorem avoids_relative (offset : Int) : Avoids Fault.isUnwound (m.relative offset) :=
  .ite (avoids_fault rfl) (avoids_ok _)

theorem avoids_literal (index : Int) : Avoids Fault.isControl (m.literal index) :=
  avoids_orFault rfl _

theorem avoids_literalName (index : Int) : Avoids Fault.isControl (m.literalName index) := by
  refine (m.avoids_literal index).bind fun v => ?_
  cases v with
  | symbol name => exact avoids_ok _
  | _ => exact avoids_fault rfl

theorem avoids_part {op : Heap → Value → Except Stop Value} (hop : ∀ h v, Avoids bad (op h v))
    (h : Heap) (v : Value) : Avoids bad (part op h v) := by
  cases v with
  | nil => exact avoids_ok _
  | unbound => exact avoids_ok _
  | _ => exact hop _ _

end Machine

/-! ## Numbers -/

namespace Value

/-- An operation on numbers says nothing about where the code goes on. -/
def OnNumbers (op : Value → Value → Except Fault Value) : Prop :=
  ∀ a b f, op a b = .error f → f.isControl = false

theorem isControl_operands {name : String} {a b : Value} {f : Fault}
    (h : operands name a b = .error f) : f.isControl = false := by
  cases a <;> cases b <;> cases h <;> rfl

theorem isControl_negate {a : Value} {f : Fault} (h : a.negate = .error f) :
    f.isControl = false := by
  cases a <;> cases h <;> rfl

theorem onNumbers_operands (name : String) {compute : Operands → Except Fault Value}
    (hcompute : ∀ o f, compute o = .error f → f.isControl = false) :
    OnNumbers fun a b => operands name a b >>= compute := by
  intro a b f hf
  cases ho : operands name a b with
  | ok o =>
    simp only [ho] at hf
    exact hcompute o f hf
  | error e =>
    simp only [ho] at hf
    cases hf
    exact isControl_operands ho

theorem onNumbers_add : OnNumbers add :=
  onNumbers_operands "add" fun o _ h => by cases o <;> cases h

theorem onNumbers_mul : OnNumbers mul :=
  onNumbers_operands "multiply" fun o _ h => by cases o <;> cases h

theorem onNumbers_div : OnNumbers div := by
  refine onNumbers_operands "divide" fun o f h => ?_
  cases o with
  | inexact x y => cases h
  | exact m n =>
    by_cases hn : n = 0
    · simp only [hn, if_true] at h
      cases h
      rfl
    · simp only [hn, if_false] at h
      cases h

theorem onNumbers_sub : OnNumbers sub := by
  intro a b f h
  rw [sub] at h
  cases hb : b.negate with
  | ok v =>
    rw [hb] at h
    exact onNumbers_add a v f h
  | error e =>
    rw [hb] at h
    cases h
    exact isControl_negate hb

theorem onNumbers_same : OnNumbers fun a b => .ok (.truth (a.same b)) :=
  fun _ _ _ h => by cases h

end Value

end LispMachine
