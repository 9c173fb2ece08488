import LispMachine.Proofs.Arrangement.Basic
import LispMachine.Proofs.Refinement.Mirrors

/-! # The start of a run

A run starts from a program with its literals and arguments, in front of a heap and global names
that are left from before. Nothing there may refer to a stack, and every continuation and frame that
is referred to has to be there. Then both machines start alike.
-/

namespace LispMachine

open Machine

/-! ## Closed heaps -/

/-- A continuation is on the heap. Other values are whatever they are. -/
def Value.ClosedIn (h : Heap) (v : Value) : Prop :=
  ∀ k, v = .continuation k → k.index < h.continuations.size

/-- Whatever the objects refer to is on the heap too, and no host procedure looks at names. -/
structure Heap.Closed (h : Heap) : Prop where
  pairs : ∀ p ∈ h.pairs, p.car.ClosedIn h ∧ p.cdr.ClosedIn h
  vectors : ∀ items ∈ h.vectors, ∀ v ∈ items, v.ClosedIn h
  closures : ∀ c ∈ h.closures, c.env.ClosedIn h
  frames : ∀ f ∈ h.frames, f.parent.ClosedIn h ∧ ∀ v ∈ f.slots, v.ClosedIn h
  continuations : ∀ k ∈ h.continuations,
    k.prev.ClosedIn h ∧ k.env.ClosedIn h ∧ ∀ v ∈ k.saved, v.ClosedIn h
  procedures : ∀ p ∈ h.procedures, p.body.Uniform

theorem Heap.closed_standard : ({ procedures := Standard.procedures.toArray } : Heap).Closed where
  pairs := by simp
  vectors := by simp
  closures := by simp
  frames := by simp
  continuations := by simp
  procedures p hp := Script.uniform_standard p (List.mem_toArray.1 hp)

def Naming.ofHeap (h : Heap) : Naming where
  frame j := if j < h.frames.size then some j else none
  cont k := if k < h.continuations.size then some k else none
  frame_inj := by
    intro i j q hi hj
    split at hi <;> split at hj <;> simp_all
  cont_inj := by
    intro i j q hi hj
    split at hi <;> split at hj <;> simp_all

section Closed

variable {h : Heap}

theorem agree_of_closed {v : Value} (hv : v.ClosedIn h) : Agree (.ofHeap h) v v := by
  cases v with
  | continuation k => exact .continuation (if_pos (hv k rfl))
  | _ => exact .same (by simp)

theorem envAgree_of_closed {env : Env} (he : env.ClosedIn h) : EnvAgree (.ofHeap h) env env := by
  cases env with
  | empty => exact .empty
  | onHeap f => exact .onHeap (if_pos he)
  | onStack => exact he.elim

theorem contAgree_of_closed {cont : Cont} (hc : cont.ClosedIn h) :
    ContAgree (.ofHeap h) cont cont := by
  cases cont with
  | empty => exact .empty
  | onHeap k => exact .onHeap (if_pos hc)
  | onStack => exact hc.elim

theorem each_self {α : Type} {R : α → α → Prop} {xs : Array α} (hx : ∀ a ∈ xs, R a a) :
    Each R xs xs := by
  refine ⟨rfl, fun i a hi => ⟨a, ?_, hx a (Array.mem_of_getElem? hi)⟩⟩
  rwa [Nat.zero_add]

theorem forall₂_self {vs : List Value} (hv : ∀ v ∈ vs, v.ClosedIn h) :
    List.Forall₂ (Agree (.ofHeap h)) vs vs :=
  List.forall₂_same.2 fun v hmem => agree_of_closed (hv v hmem)

theorem Heap.Closed.agree (hh : h.Closed) : HeapAgree (.ofHeap h) h h where
  pairs := each_self fun p hp =>
    ⟨agree_of_closed (hh.pairs p hp).1, agree_of_closed (hh.pairs p hp).2⟩
  vectors := each_self fun items hi => forall₂_self (hh.vectors items hi)
  closures := each_self fun c hc => ⟨envAgree_of_closed (hh.closures c hc), rfl⟩
  procedures := rfl
  frames := by
    intro j q hj
    simp only [Naming.ofHeap, Option.ite_none_right_eq_some, Option.some.injEq] at hj
    obtain ⟨hj, rfl⟩ := hj
    have hf := Array.getElem?_eq_getElem hj
    obtain ⟨hp, hs⟩ := hh.frames _ (Array.mem_of_getElem? hf)
    exact ⟨_, _, hf, hf, each_self fun v hv => agree_of_closed (hs v hv), envAgree_of_closed hp⟩
  continuations := by
    intro k q hk
    simp only [Naming.ofHeap, Option.ite_none_right_eq_some, Option.some.injEq] at hk
    obtain ⟨hk, rfl⟩ := hk
    have hc := Array.getElem?_eq_getElem hk
    obtain ⟨hp, he, hs⟩ := hh.continuations _ (Array.mem_of_getElem? hc)
    refine ⟨_, _, hc, hc, ⟨0, (Nat.zero_add _).symm, (each_self fun v hv => ?_).2⟩, fun v hv => ?_,
      contAgree_of_closed hp, envAgree_of_closed he, rfl, rfl⟩
    · exact agree_of_closed (hs v hv)
    · exact ⟨v, agree_of_closed (hs v hv)⟩
  named_frame q hq := ⟨q, if_pos hq⟩
  named_cont q hq := ⟨q, if_pos hq⟩

end Closed

/-! ## Starting -/

/-- A program with what is passed to it, in front of a heap and global names. -/
structure Setup where
  program : Program
  acc : Value := .nil
  argc : Nat := 0
  args : List Value := []
  heap : Heap := {}
  globals : Std.TreeMap String Value := ∅

namespace Setup

/-- Loads the program and passes it what it gets. -/
def begin (s : Setup) : Exec Unit := do
  load s.program
  setAcc s.acc
  setArgc s.argc
  pushAll s.args

@[inherit_doc begin]
def heapBegin (s : Setup) : HeapExec Unit := do
  Machine.setAcc s.acc
  Machine.setArgc s.argc
  HeapMachine.pushAll s.args

def onMachine (s : Setup) (capacity : Nat) (x : Exec Unit) : EStateM.Result Stop Machine Unit :=
  (s.begin *> x) { new capacity with heap := s.heap, globals := s.globals }

def onHeapMachine (s : Setup) (x : HeapExec Unit) : EStateM.Result Stop HeapMachine Unit :=
  (s.heapBegin *> x) (.load s.program s.heap s.globals)

structure Closed (s : Setup) : Prop where
  heap : s.heap.Closed
  globals : ∀ (name : String) (v : Value), s.globals[name]? = some v → v.ClosedIn s.heap
  literals : ∀ v ∈ s.program.literals, v.ClosedIn s.heap
  acc : s.acc.ClosedIn s.heap
  args : ∀ v ∈ s.args, v.ClosedIn s.heap

def loaded (s : Setup) (capacity : Nat) : Machine :=
  { stack := Array.replicate capacity .nil
    ip := s.program.entry
    current := s.program.entry
    code := s.program.code
    literals := s.program.literals
    globals := s.globals
    heap := s.heap }

variable {s : Setup} {capacity : Nat}

theorem Closed.represents (hs : s.Closed) :
    Represents (.ofHeap s.heap) [] 0 (s.loaded capacity)
      (.load s.program s.heap s.globals) where
  ip := rfl
  current := rfl
  argc := rfl
  runnable := rfl
  hosts := rfl
  sound := ⟨nofun, nofun⟩
  code := rfl
  acc := .nil
  literals := each_self fun v hv => agree_of_closed (hs.literals v hv)
  globals name := by
    cases hg : s.globals[name]? with
    | none =>
      simp only [loaded, HeapMachine.load, hg]
      exact .none
    | some v =>
      simp only [loaded, HeapMachine.load, hg]
      exact .some (agree_of_closed (hs.globals name v hg))
  heap := hs.heap.agree
  uniform := hs.heap.procedures
  saved := by
    intro k q c c' hk hc hc'
    simp only [Naming.ofHeap, Option.ite_none_right_eq_some, Option.some.injEq] at hk
    obtain ⟨-, rfl⟩ := hk
    cases hc.symm.trans hc'
    exact Nat.le_add_right ..
  born := by simp [HeapMachine.load]
  sp := rfl
  room := Nat.zero_le _
  least := Nat.zero_le _
  operands := .empty
  known v hv := by
    rw [loaded, Array.mem_replicate] at hv
    obtain ⟨-, rfl⟩ := hv
    exact ⟨.nil, .nil⟩
  stacked := .nil
  base := Nat.zero_le _
  bp _ := le_rfl
  frames_le := nofun
  env := .agree .empty
  cont := .agree .empty
  fresh := nofun
  slack := Nat.zero_le _

/-- Both machines start alike, unless there is no room for the arguments. -/
theorem Closed.begin_follows (hs : s.Closed) {lax : Prop} :
    Follows True lax {} (.ofHeap s.heap) (fun σ _ _ m r => InStep {} false σ m r)
      (s.begin { new capacity with heap := s.heap, globals := s.globals })
      (s.heapBegin (.load s.program s.heap s.globals)) := by
  have hi : InStep {} false (.ofHeap s.heap) (s.loaded capacity)
      (.load s.program s.heap s.globals) :=
    ⟨[], 0, hs.represents, ⟨rfl, .inr fun _ h => h⟩, fun _ => rfl⟩
  have hload : load s.program { new capacity with heap := s.heap, globals := s.globals } =
      .ok () (s.loaded capacity) := by
    simp [load, loaded, Machine.capacity, new]
  rw [begin, bind_ok hload, heapBegin]
  refine (hi.setAcc (agree_of_closed hs.acc)).bind ?_
  rintro σ - - m₁ r₁ hσ hi₁
  simp only [Machine.setArgc, adjust_bind_apply, HeapMachine.adjust_bind_apply]
  refine ((hi₁.withArgc s.argc).pushAll (.inr rfl) (forall₂_mono (forall₂_self hs.args) hσ)).imp ?_
  rintro τ - - m₂ r₂ - ⟨hi₂, -⟩
  exact hi₂

end Setup

end LispMachine
