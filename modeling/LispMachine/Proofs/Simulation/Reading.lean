import LispMachine.Machine.Activation
import LispMachine.Proofs.Simulation.State

/-! # Reading the stack

What a machine finds in its cells: descriptors of frames, return points, and the slots of any frame
that is in reach. Reading a slot gives the same on both machines.
-/

namespace LispMachine

open Machine

section Cells

variable {m : Machine} {start count : Nat}

theorem position?_eq {i n : Nat} (h : m.stack[i]? = some (.fixnum n)) : m.position? i = some n := by
  simp [position?, h]

theorem descriptor_moved {e : Nat} {q : Ref .frame} (h : m.stack[e]? = some (.frame q)) :
    m.descriptor e = .ok (.moved q) := by
  simp [descriptor, descriptor?, h, orFault]

theorem FrameCells.descriptor {parent : Env} (h : FrameCells m.stack start count parent) :
    m.descriptor (start + count) = .ok (.live start count parent) := by
  have h₁ := position?_eq h.start_cell
  have h₂ := position?_eq h.count_cell
  simp [Machine.descriptor, descriptor?, h.start_cell, h.parent_cell, h₁, h₂, orFault]

theorem PointCells.returnPoint {p : ReturnPoint} (h : PointCells m.stack start count p)
    (hsp : start + count + 4 ≤ m.sp) :
    m.returnPoint (start + count + 4) = .ok p := by
  have h₁ := position?_eq h.ip_cell
  have h₂ := position?_eq h.bp_cell
  have hbp : ¬ start + count < p.bp := by have := h.bp_le; omega
  rw [Machine.returnPoint, if_neg (by omega)]
  simp [h₁, h₂, cell, h.env_cell, h.prev_cell, present, orFault, bind, Except.bind, pure,
    Except.pure, hbp]

end Cells

section Slots

variable {ρ : Naming} {segs : List Segment} {lo : Nat} {m : Machine} {r : HeapMachine}

/-- Where the slots of the frame are, and the environment around it. -/
inductive SlotsAgree (ρ : Naming) (segs : List Segment) (m : Machine) (r : HeapMachine) :
    Slots → Env → Ref .frame × Frame → Prop
  | onHeap {j q : Nat} {f f' : Frame} : ρ.frame j = some q → m.heap.frames[q]? = some f →
    r.heap.frames[j]? = some f' → FrameAgree ρ f f' →
    SlotsAgree ρ segs m r (.onHeap ⟨q⟩) f.parent (⟨j⟩, f')
  | onStack {start count j : Nat} {rest : List Segment} {parent : Env} {f : Frame} :
    .frame start count j :: rest <:+ segs →
    LiveAt ρ m.stack r.heap rest start count j parent f →
    SlotsAgree ρ segs m r (.onStack start count) parent (⟨j⟩, f)

theorem SlotsAgree.parent {slots : Slots} {parent : Env} {j : Ref .frame} {f : Frame}
    (h : SlotsAgree ρ segs m r slots parent (j, f)) : EnvOn ρ segs parent f.parent := by
  cases h with
  | onHeap _ _ _ ha => exact .agree ha.parent
  | onStack hs hl =>
    exact hl.parent.mono le_rfl fun _ _ _ hr => (suffix_of_cons_suffix hs).mem hr

theorem Core.innermost_onHeap (h : Core ρ segs lo m r) {j q : Nat} (hj : ρ.frame j = some q) :
    ∃ f f' : Frame, m.innermost (.onHeap ⟨q⟩) = .ok (.onHeap ⟨q⟩, f.parent) ∧
      r.heap.frame ⟨j⟩ = .ok f' ∧ SlotsAgree ρ segs m r (.onHeap ⟨q⟩) f.parent (⟨j⟩, f') := by
  obtain ⟨f, f', hf, hf', ha⟩ := h.heap.frames j q hj
  refine ⟨f, f', ?_, ?_, .onHeap hj hf hf' ha⟩
  · simp [innermost, Heap.frame, hf, present, bind, Except.bind, pure, Except.pure]
  · simp [Heap.frame, hf', present]

theorem Core.innermost (h : Core ρ segs lo m r) {env : Env} {j : Nat}
    (he : EnvOn ρ segs env (.onHeap ⟨j⟩)) :
    ∃ slots parent f, m.innermost env = .ok (slots, parent) ∧ r.heap.frame ⟨j⟩ = .ok f ∧
      SlotsAgree ρ segs m r slots parent (⟨j⟩, f) := by
  cases he with
  | agree he =>
    cases he with
    | onHeap hj =>
      obtain ⟨f, f', hm, hr, hs⟩ := h.innermost_onHeap hj
      exact ⟨_, _, f', hm, hr, hs⟩
  | @onStack start count _ hmem =>
    obtain ⟨rest, hs⟩ := exists_suffix hmem
    rcases (h.stacked.at_suffix hs).2.1 with ⟨q, hq, hj⟩ | ⟨parent, f, hl⟩
    · -- a frame that has moved is read where it has gone
      obtain ⟨f, f', hm, hr, hs⟩ := h.innermost_onHeap hj
      refine ⟨_, _, f', ?_, hr, hs⟩
      rw [Machine.innermost, descriptor_moved hq]
      exact hm
    · refine ⟨_, parent, f, ?_, ?_, .onStack hs hl⟩
      · rw [Machine.innermost, hl.descriptor]
        rfl
      · simp [Heap.frame, hl.frame, present]

theorem Core.slotsAt (h : Core ρ segs lo m r) {env env' : Env} (he : EnvOn ρ segs env env')
    (depth : Nat) :
    ExceptAgree (fun slots frame => ∃ parent, SlotsAgree ρ segs m r slots parent frame)
      (m.slotsAt env depth) (HeapMachine.frameAt r.heap env' depth) := by
  induction depth generalizing env env' with
  | zero =>
    cases env' with
    | empty =>
      rw [he.eq_empty]
      exact .fault _
    | onStack => exact he.not_onStack.elim
    | onHeap j =>
      obtain ⟨slots, parent, f, hm, hr, hs⟩ := h.innermost he
      simp only [Machine.slotsAt, hm, HeapMachine.frameAt, hr]
      exact .ok ⟨parent, hs⟩
  | succ depth ih =>
    cases env' with
    | empty =>
      rw [he.eq_empty]
      exact .fault _
    | onStack => exact he.not_onStack.elim
    | onHeap j =>
      obtain ⟨slots, parent, f, hm, hr, hs⟩ := h.innermost he
      simp only [Machine.slotsAt, hm, HeapMachine.frameAt, hr]
      exact ih hs.parent

theorem Core.readSlot (h : Core ρ segs lo m r) (he : EnvOn ρ segs m.env r.env) (depth index : Nat) :
    ExceptAgree (Agree ρ) (m.readSlot depth index) (r.readSlot depth index) := by
  refine (h.slotsAt he depth).bind ?_
  rintro slots ⟨j, f⟩ ⟨parent, ⟨hj, hf, -, ha⟩ | ⟨hs, hl⟩⟩
  · simp only [readHeapSlot, Heap.frame, hf, present]
    rw [← ha.slots.1]
    exact .orFault ha.slots (.same _) index
  · simp only
    split
    · next hi =>
      rw [← hl.size] at hi
      obtain ⟨v, hv, hag⟩ := hl.slots index f.slots[index] (Array.getElem?_eq_getElem hi)
      simp only [cell, hv, Array.getElem?_eq_getElem hi, present, orFault]
      exact .ok hag
    · next hi =>
      rw [← hl.size] at hi ⊢
      rw [Array.getElem?_eq_none (by omega)]
      exact .error (.fault (.slotIndex _ _))

end Slots

end LispMachine
