import LispMachine.Proofs.Maintains
import LispMachine.Proofs.Safety.Known
import LispMachine.Proofs.Simulation.Operands

/-! # Intact machines

A machine is intact if all its references lead somewhere and the cells in use are cells of its
stack. What an operation does from there is safe: it is not stuck, and it leaves an intact machine
with a stack of the same size, whether it succeeds or not.
-/

namespace LispMachine

variable {α β : Type}

/-! ## Looking things up -/

/-- The computation is not stuck, and a result is as wanted. -/
def Found (P : α → Prop) : Except Stop α → Prop
  | .ok a => P a
  | .error s => s ≠ .stuck

namespace Found

variable {P : α → Prop} {Q : β → Prop}

theorem fault (f : Fault) : Found P (.error (.fault f)) := fun h => by cases h

theorem unfinished : Found P (.error .unfinished) := fun h => by cases h

theorem bind {x : Except Stop α} {f : α → Except Stop β} (hx : Found P x)
    (hf : ∀ a, P a → Found Q (f a)) : Found Q (x >>= f) := by
  cases x with
  | ok a => exact hf a hx
  | error s => exact hx

theorem ite {c : Prop} [Decidable c] {x y : Except Stop α} (hx : c → Found P x)
    (hy : ¬ c → Found P y) : Found P (if c then x else y) := by
  split
  · next hc => exact hx hc
  · next hc => exact hy hc

theorem orFault {f : Fault} {o : Option α} (ho : ∀ a, o = some a → P a) :
    Found P (LispMachine.orFault f o) := by
  cases o with
  | none => exact fault f
  | some a => exact ho a rfl

theorem object {xs : Array α} {i : Nat} (hi : i < xs.size) (hP : ∀ a ∈ xs, P a) :
    Found P (present xs[i]?) := by
  have ha := Array.getElem?_eq_getElem hi
  rw [ha]
  exact hP _ (Array.mem_of_getElem? ha)

theorem distance {hi lo : Nat} (h : lo ≤ hi) :
    Found (fun d => d = hi - lo) (Machine.distance hi lo) := by
  rw [Machine.distance_ok h]
  rfl

end Found

section Lists

variable {loose : Bool} {h : Heap} (hs : h.Sound loose)
include hs

theorem Heap.Sound.car {v : Value} (hv : v.KnownIn h) : Found (Value.KnownIn h) (h.car v) := by
  cases v with
  | pair r => exact (Found.object hv hs.pairs).bind fun p hp => hp.1
  | nil => trivial
  | _ => exact Found.fault _

theorem Heap.Sound.cdr {v : Value} (hv : v.KnownIn h) : Found (Value.KnownIn h) (h.cdr v) := by
  cases v with
  | pair r => exact (Found.object hv hs.pairs).bind fun p hp => hp.2
  | nil => trivial
  | _ => exact Found.fault _

theorem Heap.Sound.walk {v : Value} (hv : v.KnownIn h) (n : Nat) :
    Found (fun r => ∀ v ∈ r.1, v.KnownIn h) (h.walk n v) := by
  induction n generalizing v with
  | zero =>
    cases v with
    | pair r => exact Found.unfinished
    | _ => exact fun _ hm => by cases hm
  | succ n ih =>
    cases v with
    | pair r =>
      refine (Found.object hv hs.pairs).bind fun p hp => (ih hp.2).bind fun r hr v hm => ?_
      rcases List.mem_cons.1 hm with rfl | hm
      · exact hp.1
      · exact hr v hm
    | _ => exact fun _ hm => by cases hm

theorem Heap.Sound.items {v : Value} (hv : v.KnownIn h) :
    Found (fun vs => ∀ v ∈ vs, v.KnownIn h) (h.items v) := by
  refine (hs.walk hv _).bind fun ⟨vs, last⟩ hvs => ?_
  cases last with
  | nil => exact hvs
  | _ => exact Found.fault _

theorem Heap.Sound.element? {v : Value} (hv : v.KnownIn h) (n : Nat) :
    Found (fun o => ∀ v, o = some v → v.KnownIn h) (h.element? n v) := by
  induction n generalizing v with
  | zero =>
    cases v with
    | pair r =>
      refine (Found.object hv hs.pairs).bind fun p hp v he => ?_
      cases he
      exact hp.1
    | _ => exact fun _ he => by cases he
  | succ n ih =>
    cases v with
    | pair r => exact (Found.object hv hs.pairs).bind fun p hp => ih hp.2
    | _ => exact fun _ he => by cases he

theorem Heap.Sound.nth {v : Value} (hv : v.KnownIn h) (index : Int) :
    Found (Value.KnownIn h) (h.nth v index) := by
  rw [Heap.nth]
  split
  · exact Found.fault _
  · exact (hs.element? hv _).bind fun o ho => .orFault ho

end Lists

/-! ## Machines -/

namespace Machine

/-- What the machine refers to is there, and so are the cells that it uses. Its registers and cells
may hold any handles of the stack. -/
structure Intact (loose : Bool) (N : Nat) (m : Machine) : Prop where
  capacity : m.capacity = N
  sp_le : m.sp ≤ N
  heap : m.heap.Sound loose
  cells : ∀ v ∈ m.stack, v.KnownIn m.heap
  acc : m.acc.KnownIn m.heap
  env : m.env.LeadsIn true m.heap
  cont : m.cont.LeadsIn true m.heap
  literals : ∀ v ∈ m.literals, v.KnownIn m.heap
  globals : ∀ name v, m.global? name = some v → v.KnownIn m.heap

variable {loose : Bool} {N : Nat} {m : Machine} {env : Env} {cont : Cont}

/-- What a descriptor at position `e` of a stack of `N` cells may say. -/
def Fits (N : Nat) (h : Heap) (e : Nat) : Descriptor → Prop
  | .moved r => r.index < h.frames.size
  | .live start count parent => start + count ≤ e ∧ e < N ∧ parent.LeadsIn true h

/-- The slots are cells of a stack of `N` cells or an object. -/
def SlotsFit (N : Nat) (h : Heap) : Slots → Prop
  | .onStack start count => start + count ≤ N
  | .onHeap r => r.index < h.frames.size

namespace Intact

variable (hm : m.Intact loose N)
include hm

theorem size : m.stack.size = N := hm.capacity

theorem cell_known {i : Nat} {v : Value} (hv : m.stack[i]? = some v) : v.KnownIn m.heap :=
  hm.cells v (Array.mem_of_getElem? hv)

theorem cell {i : Nat} (hi : i < N) : Found (Value.KnownIn m.heap) (m.cell i) :=
  .object (by rwa [hm.size]) hm.cells

theorem literal (index : Int) : Found (Value.KnownIn m.heap) (m.literal index) := by
  refine .orFault fun v hv => ?_
  split at hv
  · cases hv
  · exact hm.literals v (Array.mem_of_getElem? hv)

theorem literalName (index : Int) : Found (fun _ => True) (m.literalName index) := by
  refine (hm.literal index).bind fun v _ => ?_
  cases v with
  | symbol name => trivial
  | _ => exact Found.fault _

/-! ### Environments -/

theorem descriptor (e : Nat) : Found (Fits N m.heap e) (m.descriptor e) := by
  -- a descriptor may be forged, but one whose slots are not below it counts as none
  refine .orFault fun d hd => ?_
  have hd' : m.descriptor e = .ok d := by
    rw [Machine.descriptor, hd]
    rfl
  rw [descriptor?] at hd
  split at hd
  · next r hr =>
    cases hd
    exact hm.cell_known hr
  · simp only [Option.bind_eq_bind, Option.bind_eq_some_iff] at hd
    obtain ⟨start, -, count, -, parent, ⟨v, hv, hp⟩, hd⟩ := hd
    split at hd
    · cases hd
      obtain ⟨hle, hlt⟩ := descriptor_bounds hd'
      exact ⟨hle, hm.size ▸ hlt, (hm.cell_known hv).toEnv hp⟩
    · cases hd

theorem resolve (he : env.LeadsIn true m.heap) :
    Found (Env.LeadsIn true m.heap) (m.resolve env) := by
  cases env with
  | onStack e =>
    refine (hm.descriptor e).bind fun d hd => ?_
    cases d with
    | moved r => exact hd
    | live => exact he
  | _ => exact he

/-- The live frames of an environment are cells of the stack, and outside of them it leaves the
stack. -/
theorem liveFrames (n : Nat) (he : env.LeadsIn true m.heap) :
    Found (fun r => (∀ f ∈ r.1, f.start + f.count ≤ f.pos ∧ f.pos < N) ∧ r.2.LeadsIn false m.heap)
      (m.liveFrames n env) := by
  -- outside of the stack there is nothing to follow, however many frames are left
  have hnone (env : Env) (he : env.LeadsIn false m.heap) :
      (∀ f ∈ ([] : List LiveFrame), f.start + f.count ≤ f.pos ∧ f.pos < N) ∧
        env.LeadsIn false m.heap := by
    refine ⟨fun f hf => ?_, he⟩
    cases hf
  induction n generalizing env with
  | zero =>
    cases env with
    | onStack e =>
      refine (hm.descriptor e).bind fun d hd => ?_
      cases d with
      | moved r => exact hnone (.onHeap r) hd
      | live => exact Found.unfinished
    | empty => exact hnone .empty he
    | onHeap r => exact hnone (.onHeap r) he
  | succ n ih =>
    cases env with
    | onStack e =>
      refine (hm.descriptor e).bind fun d hd => ?_
      cases d with
      | moved r => exact hnone (.onHeap r) hd
      | live start count parent =>
        refine (ih hd.2.2).bind fun r hr => ⟨fun f hf => ?_, hr.2⟩
        rcases List.mem_cons.1 hf with rfl | hf
        · exact ⟨hd.1, hd.2.1⟩
        · exact hr.1 f hf
    | empty => exact hnone .empty he
    | onHeap r => exact hnone (.onHeap r) he

theorem innermost (he : env.LeadsIn true m.heap) :
    Found (fun r => SlotsFit N m.heap r.1 ∧ r.2.LeadsIn true m.heap) (m.innermost env) := by
  have hframe {r : Ref .frame} (hr : r.index < m.heap.frames.size) :
      Found (fun f => f.parent.LeadsIn true m.heap) (m.heap.frame r) :=
    .object hr fun f hf => (hm.heap.frames f hf).2.inRegister
  cases env with
  | empty => exact Found.fault _
  | onHeap r => exact (hframe he).bind fun f hf => ⟨he, hf⟩
  | onStack e =>
    refine (hm.descriptor e).bind fun d hd => ?_
    cases d with
    | moved r => exact (hframe hd).bind fun f hf => ⟨hd, hf⟩
    | live start count parent => exact ⟨Nat.le_trans hd.1 (Nat.le_of_lt hd.2.1), hd.2.2⟩

theorem slotsAt (he : env.LeadsIn true m.heap) (depth : Nat) :
    Found (SlotsFit N m.heap) (m.slotsAt env depth) := by
  induction depth generalizing env with
  | zero => exact (hm.innermost he).bind fun r hr => hr.1
  | succ depth ih => exact (hm.innermost he).bind fun r hr => ih hr.2

theorem readSlot (depth index : Nat) :
    Found (Value.KnownIn m.heap) (m.readSlot depth index) := by
  refine (hm.slotsAt hm.env depth).bind fun slots hs => ?_
  cases slots with
  | onStack start count =>
    refine .ite (fun hi => hm.cell ?_) fun _ => Found.fault _
    have hle : start + count ≤ N := hs
    omega
  | onHeap r =>
    refine Found.bind (.object hs hm.heap.frames) fun f hf => .orFault fun v hv => ?_
    exact hf.1 v (Array.mem_of_getElem? hv)

/-! ### Continuations -/

theorem returnPoint (c : Nat) :
    Found (fun p => (4 ≤ c ∧ c ≤ m.sp ∧ p.bp + 4 ≤ c) ∧ p.env.LeadsIn true m.heap ∧
      p.prev.LeadsIn true m.heap) (m.returnPoint c) := by
  have hsp := hm.sp_le
  refine .ite (fun _ => Found.fault _) fun hc => ?_
  refine (Found.orFault fun _ _ => trivial).bind fun ip (_ : True) => ?_
  refine (Found.orFault fun _ _ => trivial).bind fun bp (_ : True) => ?_
  refine (hm.cell (by omega)).bind fun v hv => ?_
  refine (Found.orFault fun env he => hv.toEnv he).bind fun env he => ?_
  refine (hm.cell (by omega)).bind fun w hw => ?_
  refine (Found.orFault fun cont hc => hw.toCont hc).bind fun cont hcont => ?_
  exact .ite (fun _ => Found.fault _) fun hbp =>
    ⟨⟨by omega, by omega, by simp only; omega⟩, he, hcont⟩

/-- Return points are cells of the stack, and outside of them a continuation leaves the stack. -/
theorem returnPoints (n : Nat) (hc : cont.LeadsIn true m.heap) :
    Found (fun r => (∀ q ∈ r.1, (4 ≤ q.1 ∧ q.1 ≤ N ∧ q.2.bp + 4 ≤ q.1) ∧
        q.2.env.LeadsIn true m.heap) ∧ r.2.LeadsIn false m.heap) (m.returnPoints n cont) := by
  have hnone (cont : Cont) (hc : cont.LeadsIn false m.heap) :
      (∀ q ∈ ([] : List (Nat × ReturnPoint)), (4 ≤ q.1 ∧ q.1 ≤ N ∧ q.2.bp + 4 ≤ q.1) ∧
        q.2.env.LeadsIn true m.heap) ∧ cont.LeadsIn false m.heap := by
    refine ⟨fun q hq => ?_, hc⟩
    cases hq
  induction n generalizing cont with
  | zero =>
    cases cont with
    | onStack c => exact (hm.returnPoint c).bind fun _ _ => Found.unfinished
    | empty => exact hnone .empty hc
    | onHeap r => exact hnone (.onHeap r) hc
  | succ n ih =>
    cases cont with
    | onStack c =>
      refine (hm.returnPoint c).bind fun p hp => (ih hp.2.2).bind fun r hr => ⟨fun q hq => ?_, hr.2⟩
      rcases List.mem_cons.1 hq with rfl | hq
      · exact ⟨⟨hp.1.1, Nat.le_trans hp.1.2.1 hm.sp_le, hp.1.2.2⟩, hp.2.1⟩
      · exact hr.1 q hq
    | empty => exact hnone .empty hc
    | onHeap r => exact hnone (.onHeap r) hc

theorem ownerOf (hc : cont.LeadsIn loose m.heap) : Found (fun _ => True) (m.ownerOf cont) := by
  cases cont with
  | onHeap r => exact Found.bind (.object hc hm.heap.continuations) fun _ _ => trivial
  | _ => trivial

end Intact

/-! ## Safe operations -/

/-- What an operation on `m` has come to leaves an intact machine that knows all that `m` knew. The
operation was not stuck, and a result is as wanted. -/
inductive Safe (loose : Bool) (N : Nat) (m : Machine) (Q : α → Machine → Prop) :
    EStateM.Result Stop Machine α → Prop
  | done {a : α} {m' : Machine} (hm : m'.Intact loose N) (hw : m.heap.Within m'.heap)
    (ha : Q a m') :
    Safe loose N m Q (.ok a m')
  | stopped {s : Stop} {m' : Machine} (hm : m'.Intact loose N) (hw : m.heap.Within m'.heap)
    (hs : s ≠ .stuck) : Safe loose N m Q (.error s m')

namespace Safe

variable {x : Exec α} {f : α → Exec β} {Q : α → Machine → Prop} {R : β → Machine → Prop}
  {m' : Machine} {r : EStateM.Result Stop Machine α}

theorem ok {a : α} (hm : m.Intact loose N) (ha : Q a m) : Safe loose N m Q (.ok a m) :=
  .done hm (.refl _) ha

theorem fault {f : Fault} (hm : m.Intact loose N) : Safe loose N m Q (.error (.fault f) m) :=
  .stopped hm (.refl _) fun h => by cases h

theorem imp {P : α → Machine → Prop} (hr : Safe loose N m P r)
    (h : ∀ a m', m'.Intact loose N → P a m' → Q a m') : Safe loose N m Q r := by
  cases hr with
  | done hm hw ha => exact .done hm hw (h _ _ hm ha)
  | stopped hm hw hs => exact .stopped hm hw hs

theorem and_final {P : Machine → Prop} (hr : Safe loose N m Q r) (h : P (final r)) :
    Safe loose N m (fun a m' => Q a m' ∧ P m') r := by
  cases hr with
  | done hm hw ha => exact .done hm hw ⟨ha, h⟩
  | stopped hm hw hs => exact .stopped hm hw hs

theorem before (hw : m.heap.Within m'.heap) (hr : Safe loose N m' Q r) : Safe loose N m Q r := by
  cases hr with
  | done hm hw' ha => exact .done hm (hw.trans hw') ha
  | stopped hm hw' hs => exact .stopped hm (hw.trans hw') hs

theorem bind (hx : Safe loose N m Q (x m))
    (hf : ∀ a m', m'.Intact loose N → m.heap.Within m'.heap → Q a m' → Safe loose N m' R (f a m')) :
    Safe loose N m R ((x >>= f) m) := by
  generalize h : x m = r at hx
  cases hx with
  | done hm hw ha =>
    rw [bind_ok h]
    exact (hf _ _ hm hw ha).before hw
  | stopped hm hw hs =>
    rw [bind_error h]
    exact .stopped hm hw hs

theorem ite {c : Prop} [Decidable c] {y : Exec α} (hx : c → Safe loose N m Q (x m))
    (hy : ¬ c → Safe loose N m Q (y m)) : Safe loose N m Q ((if c then x else y) m) := by
  split
  · next hc => exact hx hc
  · next hc => exact hy hc

theorem query {φ : Machine → Except Stop α} {P : α → Prop} (hm : m.Intact loose N)
    (hφ : Found P (φ m)) : Safe loose N m (fun a m' => m' = m ∧ P a) (Machine.query φ m) := by
  rw [Machine.query]
  cases h : φ m with
  | ok a =>
    rw [h] at hφ
    exact ok hm ⟨rfl, hφ⟩
  | error s =>
    rw [h] at hφ
    exact .stopped hm (.refl _) hφ

theorem look {φ : Machine → Except Stop α} {P : Heap → α → Prop} (hm : m.Intact loose N)
    (hφ : Found (P m.heap) (φ m)) :
    Safe loose N m (fun a m' => P m'.heap a) (Machine.query φ m) := by
  refine (query hm hφ).imp fun a m' _ h => ?_
  obtain ⟨rfl, ha⟩ := h
  exact ha

theorem query_bind {φ : Machine → Except Stop α} {P : α → Prop} (hm : m.Intact loose N)
    (hφ : Found P (φ m)) (hf : ∀ a, P a → Safe loose N m R (f a m)) :
    Safe loose N m R ((Machine.query φ >>= f) m) := by
  refine (query hm hφ).bind fun a m' _ _ h => ?_
  obtain ⟨rfl, ha⟩ := h
  exact hf a ha

theorem after_modify {g : Machine → Machine} {f : Unit → Exec β} (hw : m.heap.Within (g m).heap)
    (hf : Safe loose N (g m) R (f () (g m))) : Safe loose N m R ((modify g >>= f) m) :=
  hf.before hw

end Safe

/-! ## Operations that may get stuck -/

/-- What an operation on `m` has come to leaves an intact machine that knows all that `m` knew, even
if it was stuck. -/
structure KeepsIntact (loose : Bool) (N : Nat) (m : Machine) (r : EStateM.Result Stop Machine α) :
    Prop where
  intact : (final r).Intact loose N
  within : m.heap.Within (final r).heap

theorem Safe.keepsIntact {Q : α → Machine → Prop} {r : EStateM.Result Stop Machine α}
    (hr : Safe loose N m Q r) : KeepsIntact loose N m r := by
  cases hr with
  | done hm hw => exact ⟨hm, hw⟩
  | stopped hm hw => exact ⟨hm, hw⟩

namespace KeepsIntact

variable {x : Exec α} {f : α → Exec β}

theorem ok {a : α} (hm : m.Intact loose N) : KeepsIntact loose N m (.ok a m) := ⟨hm, .refl _⟩

theorem error {s : Stop} (hm : m.Intact loose N) : KeepsIntact (α := α) loose N m (.error s m) :=
  ⟨hm, .refl _⟩

theorem bind (hx : KeepsIntact loose N m (x m))
    (hf : ∀ a m', m'.Intact loose N → m.heap.Within m'.heap → KeepsIntact loose N m' (f a m')) :
    KeepsIntact loose N m ((x >>= f) m) := by
  obtain ⟨hm, hw⟩ := hx
  cases h : x m with
  | ok a m' =>
    rw [h] at hm hw
    obtain ⟨hm', hw'⟩ := hf a m' hm hw
    rw [bind_ok h]
    exact ⟨hm', hw.trans hw'⟩
  | error s m' =>
    rw [h] at hm hw
    rw [bind_error h]
    exact ⟨hm, hw⟩

end KeepsIntact

theorem Safe.bind_keepsIntact {x : Exec α} {f : α → Exec β} {Q : α → Machine → Prop}
    (hx : Safe loose N m Q (x m))
    (hf : ∀ a m', m'.Intact loose N → m.heap.Within m'.heap → Q a m' →
      KeepsIntact loose N m' (f a m')) :
    KeepsIntact loose N m ((x >>= f) m) := by
  generalize h : x m = r at hx
  cases hx with
  | done hm hw ha =>
    obtain ⟨hm', hw'⟩ := hf _ _ hm hw ha
    rw [bind_ok h]
    exact ⟨hm', hw.trans hw'⟩
  | stopped hm hw =>
    rw [bind_error h]
    exact ⟨hm, hw⟩

end Machine

end LispMachine
