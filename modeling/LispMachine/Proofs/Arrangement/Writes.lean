import LispMachine.Proofs.Arrangement.Paths

/-! # Writing a slot

A slot is written in the cells or on the heap, wherever its frame is. Nothing else changes: no
descriptor, no return point and no slot of another frame.
-/

namespace LispMachine

open Machine

def Path.out (depth : Nat) : Path := Path.outward^[depth] .current

variable {segs rest : List Segment} {m m' : Machine} {start count id depth index : Nat} {v : Value}
  {home env parent : Env}

namespace Machine

theorem envAt_out (depth : Nat) : m.envAt (.out depth) = m.around^[depth] m.env := by
  induction depth with
  | zero => rfl
  | succ depth ih =>
    rw [Path.out, Function.iterate_succ_apply', Function.iterate_succ_apply', envAt, ← ih]
    rfl

theorem around_of_innermost {slots : Slots} (h : m.innermost env = .ok (slots, parent)) :
    m.around env = parent := by
  cases slots with
  | onStack start count => rw [around, frame?, h]
  | onHeap r =>
    obtain ⟨f, hf, hp⟩ := exists_frame_of_innermost h
    rw [around, frame?, h]
    simp only [hf, hp]

theorem innermost_of_slotsAt {slots : Slots} (h : m.slotsAt env depth = .ok slots) :
    ∃ parent, m.innermost (m.around^[depth] env) = .ok (slots, parent) := by
  induction depth generalizing env with
  | zero =>
    rw [slotsAt] at h
    cases hi : m.innermost env with
    | error s =>
      rw [hi] at h
      cases h
    | ok x =>
      rw [hi] at h
      cases h
      exact ⟨x.2, hi⟩
  | succ depth ih =>
    rw [slotsAt] at h
    cases hi : m.innermost env with
    | error s =>
      rw [hi] at h
      cases h
    | ok x =>
      rw [hi] at h
      rw [Function.iterate_succ_apply, around_of_innermost hi]
      exact ih h

def withSlot (m : Machine) (r : Ref .frame) (index : Nat) (v : Value) : Machine :=
  { m with heap.frames := m.heap.frames.modify r.index fun f =>
      { f with slots := f.slots.setIfInBounds index v } }

/-- A write takes place in a cell or in an object, or it fails and changes nothing. -/
theorem writeSlot_cases (m : Machine) (depth index : Nat) (v : Value) :
    (∃ start count parent, m.innermost (m.envAt (.out depth)) = .ok (.onStack start count, parent) ∧
      index < count ∧ writeSlot depth index v m =
        .ok () { m with stack := m.stack.setIfInBounds (start + index) v }) ∨
    (∃ r parent f, m.innermost (m.envAt (.out depth)) = .ok (.onHeap r, parent) ∧
      m.heap.frames[r.index]? = some f ∧ index < f.slots.size ∧
      writeSlot depth index v m = .ok () (m.withSlot r index v)) ∨
    ∃ e, writeSlot depth index v m = .error e m := by
  rw [writeSlot, envAt_out]
  cases hs : m.slotsAt m.env depth with
  | error e => exact .inr (.inr ⟨e, query_bind_error hs⟩)
  | ok slots =>
    rw [query_bind_ok hs]
    obtain ⟨parent, hi⟩ := innermost_of_slotsAt hs
    cases slots with
    | onStack start count =>
      by_cases hlt : index < count
      · by_cases hcap : start + index < m.capacity
        · exact .inl ⟨start, count, parent, hi, hlt,
            by simp only [if_pos hlt, writeCell, if_pos hcap]⟩
        · exact .inr (.inr ⟨.stuck, by simp only [if_pos hlt, writeCell, if_neg hcap]⟩)
      · exact .inr (.inr ⟨.fault (.stackSlotIndex index count), by simp only [if_neg hlt]; rfl⟩)
    | onHeap r =>
      obtain ⟨f, hf, -⟩ := exists_frame_of_innermost hi
      have hframe : m.heap.frame r = .ok f := by
        rw [Heap.frame, hf]
        rfl
      simp only [writeHeapSlot]
      rw [query_bind_ok hframe]
      by_cases hlt : index < f.slots.size
      · refine .inr (.inl ⟨r, parent, f, hi, hf, hlt, ?_⟩)
        simp only [if_pos hlt]
        rfl
      · exact .inr (.inr
          ⟨.fault (.heapSlotIndex index f.slots.size), by simp only [if_neg hlt]; rfl⟩)

end Machine

theorem Machine.home?_of_innermost {r : Ref .frame}
    (h : m.innermost env = .ok (.onHeap r, parent)) :
    m.home? env = some (.onHeap r) := by
  have hr {r' : Ref .frame} (h : m.innermost (.onHeap r') = .ok (.onHeap r, parent)) : r' = r := by
    rw [innermost_onHeap] at h
    cases hf : m.heap.frame r' with
    | error =>
      rw [hf] at h
      cases h
    | ok f =>
      rw [hf] at h
      cases h
      rfl
  cases env with
  | empty => cases h
  | onHeap r' =>
    rw [hr h]
    rfl
  | onStack e =>
    rw [innermost] at h
    rw [home?, Machine.resolve]
    cases hd : m.descriptor e with
    | error s =>
      rw [hd] at h
      cases h
    | ok d =>
      rw [hd] at h
      cases d with
      | live => cases h
      | moved r' =>
        rw [← hr h]
        rfl

theorem Arranged.frameCells_of_innermost (hm : Arranged segs m) (he : EnvIn m.heap segs env)
    (hi : m.innermost env = .ok (.onStack start count, parent)) :
    ∃ id rest, env = .onStack (start + count) ∧ .frame start count id :: rest <:+ segs ∧
      FrameCells m.stack start count parent := by
  cases env with
  | empty => cases hi
  | onHeap r =>
    rw [innermost_onHeap] at hi
    cases hf : m.heap.frame r <;> rw [hf] at hi <;> cases hi
  | onStack e =>
    obtain ⟨start', count', id, rest, rfl, hs, -, ⟨q, hq, -⟩ | ⟨parent', hf, -⟩⟩ := hm.frameIn he
    · rw [innermost, descriptor_moved hq] at hi
      cases hf : m.heap.frame ⟨q⟩ <;> simp [hf, bind, Except.bind, pure, Except.pure] at hi
    · rw [innermost, hf.descriptor] at hi
      cases hi
      exact ⟨id, rest, rfl, hs, hf⟩

structure Overwritten (segs : List Segment) (home : Env) (index : Nat) (v : Value)
    (m m' : Machine) :
    Prop where
  rest : m' = { m with stack := m'.stack, heap := m'.heap }
  arranged : Arranged segs m'
  closures : m'.heap.closures = m.heap.closures
  continuations : m'.heap.continuations = m.heap.continuations
  resolve : ∀ env, EnvIn m.heap segs env → m'.resolve env = m.resolve env
  callers : ∀ cont, ContIn m.heap segs cont → m'.caller cont = m.caller cont
  frames : ∀ env, EnvIn m.heap segs env → m'.frame? env = (m.frame? env).map fun f =>
    if m.home? env = some home then { f with slots := f.slots.setIfInBounds index v } else f

/-! ## In a cell -/

theorem Arranged.slot_cell_ne (hm : Arranged segs m) (hs : .frame start count id :: rest <:+ segs)
    (hlt : index < count) {s : Segment} {rs : List Segment} (ht : s :: rs <:+ segs) {i : Nat}
    (hlo : s.start ≤ i) (hhi : i < s.top) (hi : i = start + index) : s = .frame start count id := by
  subst hi
  rcases hm.stacked.apart ht hs with ⟨heq, -⟩ | ⟨-, hbelow⟩ | ⟨-, habove⟩
  · exact heq
  · rw [Segment.start_frame] at hbelow
    omega
  · rw [Segment.top_frame] at habove
    omega

theorem Cells.extract_setIfInBounds {stack : Array Value} (hbound : start + count ≤ stack.size)
    (hlt : index < count) :
    (stack.setIfInBounds (start + index) v).extract start (start + count) =
      (stack.extract start (start + count)).setIfInBounds index v := by
  refine Array.ext_getElem? fun i => ?_
  simp only [Array.getElem?_extract, Array.getElem?_setIfInBounds, Array.size_extract,
    Array.size_setIfInBounds]
  grind

namespace Arranged

theorem getElem?_frame_withCell (hm : Arranged segs m) (hs : .frame start count id :: rest <:+ segs)
    (hlt : index < count) {start' count' id' i : Nat} {rs : List Segment}
    (ht : .frame start' count' id' :: rs <:+ segs) (hlo : start' + count' ≤ i)
    (hhi : i < start' + count' + 3) :
    (m.stack.setIfInBounds (start + index) v)[i]? = m.stack[i]? := by
  refine Array.getElem?_setIfInBounds_ne fun hi => ?_
  have hstart : start' ≤ i := (Nat.le_add_right ..).trans hlo
  cases hm.slot_cell_ne hs hlt ht hstart hhi hi.symm
  omega

theorem getElem?_point_withCell (hm : Arranged segs m) (hs : .frame start count id :: rest <:+ segs)
    (hlt : index < count) {start' count' id' i : Nat} {rs : List Segment}
    (ht : .point start' count' id' :: rs <:+ segs) (hlo : start' + count' ≤ i)
    (hhi : i < start' + count' + 4) :
    (m.stack.setIfInBounds (start + index) v)[i]? = m.stack[i]? := by
  refine Array.getElem?_setIfInBounds_ne fun hi => ?_
  have hstart : start' ≤ i := (Nat.le_add_right ..).trans hlo
  cases hm.slot_cell_ne hs hlt ht hstart hhi hi.symm

theorem frameCells_withCell (hm : Arranged segs m) (hs : .frame start count id :: rest <:+ segs)
    (hlt : index < count) {start' count' id' : Nat} {rs : List Segment} {parent' : Env}
    (ht : .frame start' count' id' :: rs <:+ segs) (hf : FrameCells m.stack start' count' parent') :
    FrameCells (m.stack.setIfInBounds (start + index) v) start' count' parent' :=
  ⟨(hm.getElem?_frame_withCell hs hlt ht (by omega) (by omega)).trans hf.start_cell,
    (hm.getElem?_frame_withCell hs hlt ht (by omega) (by omega)).trans hf.count_cell,
    (hm.getElem?_frame_withCell hs hlt ht (by omega) (by omega)).trans hf.parent_cell⟩

theorem withCell (hm : Arranged segs m) (hs : .frame start count id :: rest <:+ segs)
    (hlt : index < count) (v : Value) :
    Arranged segs { m with stack := m.stack.setIfInBounds (start + index) v } := by
  refine { hm with room := ?_, stacked := ?_ }
  · simpa [capacity] using hm.room
  · refine hm.stacked.imp fun s rs ht hseg => ?_
    cases s with
    | frame start' count' id' =>
      rcases hseg with ⟨q, hq, hq'⟩ | ⟨parent', hf', hp⟩
      · exact .inl ⟨q, (hm.getElem?_frame_withCell hs hlt ht (by omega) (by omega)).trans hq, hq'⟩
      · exact .inr ⟨parent', hm.frameCells_withCell hs hlt ht hf', hp⟩
    | point start' count' id' =>
      obtain ⟨p, hp⟩ := hseg
      exact ⟨p, hp.congr (fun i hlo hhi => hm.getElem?_point_withCell hs hlt ht hlo hhi) (.refl _)⟩

theorem resolve_withCell (hm : Arranged segs m) (hs : .frame start count id :: rest <:+ segs)
    (hlt : index < count) (he : EnvIn m.heap segs env) :
    Machine.resolve { m with stack := m.stack.setIfInBounds (start + index) v } env =
      m.resolve env := by
  cases env with
  | empty => rfl
  | onHeap => rfl
  | onStack e =>
    obtain ⟨start', count', id', rs, rfl, ht, -, ⟨q, hq, -⟩ | ⟨parent', hf', -⟩⟩ := hm.frameIn he
    · rw [Machine.resolve, Machine.resolve, descriptor_moved hq,
        descriptor_moved ((hm.getElem?_frame_withCell hs hlt ht (by omega) (by omega)).trans hq)]
    · rw [Machine.resolve, Machine.resolve, hf'.descriptor,
        FrameCells.descriptor (hm.frameCells_withCell hs hlt ht hf')]

theorem caller_withCell (hm : Arranged segs m) (hs : .frame start count id :: rest <:+ segs)
    (hlt : index < count) {cont : Cont} (hc : ContIn m.heap segs cont) :
    Machine.caller { m with stack := m.stack.setIfInBounds (start + index) v } cont =
      m.caller cont := by
  cases cont with
  | empty => rfl
  | onHeap => rfl
  | onStack c =>
    obtain ⟨start', count', id', rs, p, rfl, ht, hle, hp, hpt⟩ := hm.pointIn hc
    have hpt' := hpt.congr (fun i hlo hhi => hm.getElem?_point_withCell (v := v) hs hlt ht hlo hhi)
      (.refl _)
    rw [caller_point hp]
    exact caller_point (hpt'.returnPoint hle)

theorem frame?_withCell (hm : Arranged segs m) (hs : .frame start count id :: rest <:+ segs)
    (hf : FrameCells m.stack start count parent) (hlt : index < count)
    (he : EnvIn m.heap segs env) :
    Machine.frame? { m with stack := m.stack.setIfInBounds (start + index) v } env =
      (m.frame? env).map fun f => if m.home? env = some (.onStack (start + count)) then
        { f with slots := f.slots.setIfInBounds index v } else f := by
  have hbound : start + count < m.stack.size := (Array.getElem?_eq_some_iff.1 hf.start_cell).1
  have hhome {start' count' : Nat} {parent' : Env}
      (hf' : FrameCells m.stack start' count' parent') :
      m.home? (.onStack (start' + count')) = some (.onStack (start' + count')) := by
    rw [home?, Machine.resolve, hf'.descriptor]
    rfl
  cases env with
  | empty => rfl
  | onHeap r =>
    rw [frame?_onHeap, frame?_onHeap]
    simp [home?, Machine.resolve]
  | onStack e =>
    obtain ⟨start', count', id', rs, rfl, ht, -, ⟨q, hq, -⟩ | ⟨parent', hf', -⟩⟩ := hm.frameIn he
    · rw [frame?_moved hq,
        frame?_moved ((hm.getElem?_frame_withCell hs hlt ht (by omega) (by omega)).trans hq)]
      simp [home?, Machine.resolve, descriptor_moved hq, bind, Except.bind, pure, Except.pure]
    · rw [frame?_live hf', frame?_live (hm.frameCells_withCell hs hlt ht hf'), Option.map_some,
        hhome hf']
      by_cases heq : start' + count' = start + count
      · obtain ⟨rfl, rfl, rfl⟩ := hf'.unique hf heq
        rw [if_pos rfl, Cells.extract_setIfInBounds hbound.le hlt]
      · rw [if_neg fun h => heq (Env.onStack.inj (Option.some.inj h))]
        congr 2
        refine Moved.extract_eq (by simp) fun i hlo hhi => ?_
        refine Array.getElem?_setIfInBounds_ne fun hi => heq ?_
        cases hm.slot_cell_ne hs hlt ht hlo (by rw [Segment.top_frame]; omega) hi.symm
        rfl

theorem setCell (hm : Arranged segs m) (hs : .frame start count id :: rest <:+ segs)
    (hf : FrameCells m.stack start count parent) (hlt : index < count) :
    Overwritten segs (.onStack (start + count)) index v m
      { m with stack := m.stack.setIfInBounds (start + index) v } where
  rest := rfl
  arranged := hm.withCell hs hlt v
  closures := rfl
  continuations := rfl
  resolve _ he := hm.resolve_withCell hs hlt he
  callers _ hc := hm.caller_withCell hs hlt hc
  frames _ he := hm.frame?_withCell hs hf hlt he

end Arranged

/-! ## In an object -/

theorem Arranged.withSlot (hm : Arranged segs m) (r : Ref .frame) (index : Nat) (v : Value) :
    Overwritten segs (.onHeap r) index v m (m.withSlot r index v) := by
  have henv {env : Env} : env.ClosedIn (m.withSlot r index v).heap ↔ env.ClosedIn m.heap :=
    Env.closedIn_iff (by simp [Machine.withSlot])
  have hget (q : Nat) : (m.withSlot r index v).heap.frames[q]? =
      (m.heap.frames[q]?).map fun f =>
        if q = r.index then { f with slots := f.slots.setIfInBounds index v } else f := by
    simp only [Machine.withSlot, Array.getElem?_modify]
    by_cases hq : r.index = q
    · simp [hq]
    · have hq' : ¬q = r.index := fun h => hq h.symm
      simp [hq, hq']
  have hlinked : (m.withSlot r index v).heap.Linked := by
    refine ⟨fun f hf => ?_, fun c hc => henv.2 (hm.linked.closures c hc), fun k hk =>
      (hm.linked.continuations k hk).imp_left henv.2⟩
    obtain ⟨q, hq⟩ := Array.mem_iff_getElem?.1 hf
    rw [hget, Option.map_eq_some_iff] at hq
    obtain ⟨g, hg, rfl⟩ := hq
    have hp := henv.2 (hm.linked.frames g (Array.mem_of_getElem? hg))
    by_cases hq : q = r.index
    · rwa [if_pos hq]
    · rwa [if_neg hq]
  have hmoved {q : Nat} {env : Env} (h : m.home? env = some (.onHeap ⟨q⟩)) :
      (m.withSlot r index v).heap.frames[q]? = (m.heap.frames[q]?).map fun f =>
        if m.home? env = some (.onHeap r) then { f with slots := f.slots.setIfInBounds index v }
        else f := by
    obtain ⟨i⟩ := r
    simp only [hget, h, Option.some.injEq, Env.onHeap.injEq, Ref.mk.injEq]
  refine
    { rest := rfl
      arranged := hm.withHeap (by simp) rfl hlinked
      closures := rfl
      continuations := rfl
      resolve := fun env he => rfl
      callers := fun cont hc => rfl
      frames := fun env he => ?_ }
  cases env with
  | empty => rfl
  | onHeap q =>
    rw [frame?_onHeap, frame?_onHeap]
    exact hmoved rfl
  | onStack e =>
    obtain ⟨start', count', id', rs, rfl, ht, -, ⟨q, hq, -⟩ | ⟨parent', hf', -⟩⟩ := hm.frameIn he
    · have hhome : m.home? (.onStack (start' + count')) = some (.onHeap ⟨q⟩) := by
        rw [home?, Machine.resolve, descriptor_moved hq]
        rfl
      rw [frame?_moved hq, frame?_moved (m := m.withSlot r index v) hq]
      exact hmoved hhome
    · have hhome : m.home? (.onStack (start' + count')) ≠ some (.onHeap r) := by
        rw [home?, Machine.resolve, hf'.descriptor]
        intro h
        cases h
      rw [frame?_live hf', frame?_live (m := m.withSlot r index v) hf', Option.map_some,
        if_neg hhome]
      rfl

end LispMachine
