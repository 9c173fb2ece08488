import LispMachine.Proofs.Simulation.Runs

/-! # What machines have in common

A machine mirrors one without a stack if everything that a program can find out is the same: the
registers, the operands, the global names, the slots of all frames around, what is pending, and the
objects on the heap. Only the indices by which continuations are known may differ.
-/

namespace LispMachine

open Machine

/-- The same slots are around, counted from the environments outward. -/
def SameSlots (ρ : Naming) (m : Machine) (r : HeapMachine) (env env' : Env) : Prop :=
  ∀ depth index, ExceptAgree (Agree ρ) ({ m with env }.readSlot depth index)
    ({ r with env := env' }.readSlot depth index)

/-- The same is pending: where to go on, with which operands and in which environment. Below the
operands of a return point there may be cells that are not used any more. -/
inductive SamePending (ρ : Naming) (m : Machine) (r : HeapMachine) : Cont → Cont → Prop
  | empty : SamePending ρ m r .empty .empty
  | object {k q : Nat} : ρ.cont k = some q → SamePending ρ m r (.onHeap ⟨q⟩) (.onHeap ⟨k⟩)
  | point {start k : Nat} {p : ReturnPoint} {c : Continuation} :
    m.returnPoint (start + c.saved.size + 4) = .ok p → r.heap.continuations[k]? = some c →
    c.resume = .code p.ip → p.bp ≤ start → Holds (Agree ρ) m.stack start c.saved →
    SameSlots ρ m r p.env c.env → SamePending ρ m r p.prev c.prev →
    SamePending ρ m r (.onStack (start + c.saved.size + 4)) (.onHeap ⟨k⟩)

/-- Everything that a program can find out is the same. -/
structure Mirrors (ρ : Naming) (m : Machine) (r : HeapMachine) : Prop where
  ip : m.ip = r.ip
  current : m.current = r.current
  argc : m.argc = r.argc
  runnable : m.runnable = r.runnable
  hosts : m.hosts = r.hosts
  code : m.code = r.code
  literals : Each (Agree ρ) m.literals r.literals
  acc : Agree ρ m.acc r.acc
  globals : ∀ name : String, Option.Rel (Agree ρ) m.globals[name]? r.globals[name]?
  operands : ∃ lo, m.sp = lo + r.operands.size ∧ Holds (Agree ρ) m.stack lo r.operands
  slots : SameSlots ρ m r m.env r.env
  pending : SamePending ρ m r m.cont r.cont
  heap : HeapAgree ρ m.heap r.heap

variable {ρ : Naming} {segs : List Segment} {lo : Nat} {m : Machine} {r : HeapMachine}

theorem Core.sameSlots (h : Core ρ segs lo m r) {env env' : Env} (he : EnvOn ρ segs env env') :
    SameSlots ρ m r env env' := fun depth index =>
  Core.readSlot (m := { m with env }) (r := { r with env := env' }) { h with } he depth index

theorem Core.samePending (h : Core ρ segs lo m r) {sub : List Segment} (hs : sub <:+ segs)
    {cont cont' : Cont} (hc : ContOn ρ sub cont cont') : SamePending ρ m r cont cont' := by
  -- every return point lies below the one that was made after it
  induction hn : sub.length using Nat.strong_induction_on generalizing sub cont cont' with
  | _ n ih =>
    cases hc with
    | agree hc =>
      cases hc with
      | empty => exact .empty
      | onHeap hk => exact .object hk
    | @onStack start count k hmem =>
      obtain ⟨rest, hrest⟩ := exists_suffix hmem
      have hsuffix := hrest.trans hs
      obtain ⟨htop, ⟨p, c, hp⟩, -⟩ := h.stacked.at_suffix hsuffix
      obtain rfl := hp.size
      have hsp : start + c.saved.size + 4 ≤ m.sp := by
        have := h.sp
        rw [Segment.top_point] at htop
        omega
      have hlen : rest.length < n := by
        have := hrest.length_le
        rw [List.length_cons] at this
        omega
      have henv : EnvOn ρ segs p.env c.env :=
        hp.env.mono le_rfl fun _ _ _ hf => (suffix_of_cons_suffix hsuffix).mem hf
      exact .point (hp.returnPoint hsp) hp.continuation hp.resume hp.bp_le hp.saved
        (h.sameSlots henv) (ih _ hlen (suffix_of_cons_suffix hsuffix) hp.prev rfl)

theorem Represents.mirrors (h : Represents ρ segs lo m r) : Mirrors ρ m r :=
  { ip := h.ip
    current := h.current
    argc := h.argc
    runnable := h.runnable
    hosts := h.hosts
    code := h.code
    literals := h.literals
    acc := h.acc
    globals := h.globals
    operands := ⟨lo, h.sp, h.operands⟩
    slots := h.sameSlots h.env
    pending := h.samePending List.suffix_rfl h.cont
    heap := h.heap }

end LispMachine
