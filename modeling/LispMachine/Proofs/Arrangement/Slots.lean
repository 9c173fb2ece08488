import LispMachine.Proofs.Arrangement.Moves

/-! # Slots, wherever they are

A handle leads to a frame whose slots are in cells or on the heap. Which of the two it is makes no
difference for what is read, so a frame that has moved reads the same.
-/

namespace LispMachine

namespace Machine

def frame? (m : Machine) (env : Env) : Option Frame :=
  match m.innermost env with
  | .ok (.onStack start count, parent) => some ⟨m.stack.extract start (start + count), parent⟩
  | .ok (.onHeap r, _) => m.heap.frames[r.index]?
  | .error _ => none

def slot? (m : Machine) (env : Env) : Nat → Nat → Option Value
  | 0, index => do (← m.frame? env).slots[index]?
  | depth + 1, index => do m.slot? (← m.frame? env).parent depth index

variable {m : Machine}

@[simp] theorem frame?_empty : m.frame? .empty = none := rfl

theorem innermost_onHeap (r : Ref .frame) :
    m.innermost (.onHeap r) = (m.heap.frame r).map fun f => (.onHeap r, f.parent) := by
  rw [innermost]
  cases m.heap.frame r <;> rfl

theorem exists_frame_of_innermost {env parent : Env} {r : Ref .frame}
    (h : m.innermost env = .ok (.onHeap r, parent)) :
    ∃ f, m.heap.frames[r.index]? = some f ∧ f.parent = parent := by
  have hr : ∀ r', m.innermost (.onHeap r') = .ok (.onHeap r, parent) →
      ∃ f, m.heap.frames[r.index]? = some f ∧ f.parent = parent := by
    intro r' h
    rw [innermost_onHeap, Heap.frame] at h
    cases hf : m.heap.frames[r'.index]? with
    | none =>
      rw [hf] at h
      cases h
    | some f =>
      rw [hf] at h
      cases h
      exact ⟨f, hf, rfl⟩
  cases env with
  | empty => cases h
  | onHeap r' => exact hr r' h
  | onStack e =>
    rw [innermost] at h
    cases hd : m.descriptor e with
    | error s =>
      rw [hd] at h
      cases h
    | ok d =>
      rw [hd] at h
      cases d with
      | live => cases h
      | moved r' => exact hr r' h

@[simp] theorem frame?_onHeap (r : Ref .frame) :
    m.frame? (.onHeap r) = m.heap.frames[r.index]? := by
  rw [frame?, innermost_onHeap, Heap.frame]
  cases h : m.heap.frames[r.index]? <;> simp [present, Except.map, h]

theorem frame?_moved {e : Nat} {r : Ref .frame} (h : m.stack[e]? = some (.frame r)) :
    m.frame? (.onStack e) = m.heap.frames[r.index]? := by
  rw [← frame?_onHeap, frame?, frame?, innermost, innermost, descriptor_moved h]
  rfl

theorem frame?_live {start count : Nat} {parent : Env}
    (h : FrameCells m.stack start count parent) :
    m.frame? (.onStack (start + count)) =
      some ⟨m.stack.extract start (start + count), parent⟩ := by
  rw [frame?, innermost, h.descriptor]
  rfl

theorem frame?_resolve {env env' : Env} (h : m.resolve env = .ok env') :
    m.frame? env' = m.frame? env := by
  cases env with
  | empty =>
    cases h
    rfl
  | onHeap =>
    cases h
    rfl
  | onStack e =>
    rw [resolve] at h
    cases hd : m.descriptor e with
    | error s =>
      rw [hd] at h
      cases h
    | ok d =>
      rw [hd] at h
      cases d with
      | live => cases h; rfl
      | moved r =>
        cases h
        rw [frame?, frame?, innermost, innermost, hd]
        rfl

theorem resolve_idem {env env' : Env} (h : m.resolve env = .ok env') :
    m.resolve env' = .ok env' := by
  cases env with
  | empty => cases h; rfl
  | onHeap => cases h; rfl
  | onStack e =>
    have h' := h
    rw [resolve] at h
    cases hd : m.descriptor e with
    | error s =>
      rw [hd] at h
      cases h
    | ok d =>
      rw [hd] at h
      cases d with
      | live => cases h; exact h'
      | moved r => cases h; rfl

theorem frame?_congr {a b : Env} (h : m.resolve a = m.resolve b) : m.frame? a = m.frame? b := by
  have hnone {env : Env} {s : Stop} (h : m.resolve env = .error s) : m.frame? env = none := by
    cases env with
    | empty => cases h
    | onHeap => cases h
    | onStack e =>
      cases hd : m.descriptor e with
      | error s => rw [frame?, innermost, hd]; rfl
      | ok d =>
        rw [resolve, hd] at h
        cases d <;> cases h
  cases ha : m.resolve a with
  | error s => rw [hnone ha, hnone (h ▸ ha)]
  | ok env => exact (frame?_resolve ha).symm.trans (frame?_resolve (h ▸ ha))

theorem toOption_readSlot (depth index : Nat) :
    (m.readSlot depth index).toOption = m.slot? m.env depth index := by
  rw [readSlot]
  generalize m.env = env
  induction depth generalizing env with
  | zero =>
    rw [slotsAt, slot?, frame?]
    rcases hi : m.innermost env with s | ⟨⟨start, count⟩ | r, parent⟩
    · rfl
    · simp only [bind, Except.bind, pure, Except.pure, Option.bind, Array.getElem?_extract]
      by_cases hlt : index < count
      · cases hs : m.stack[start + index]? with
        | none =>
          have := Array.getElem?_eq_none_iff.1 hs
          simp [hlt, cell, hs, present, Except.toOption]
        | some v =>
          have := (Array.getElem?_eq_some_iff.1 hs).1
          simp only [hlt, cell, hs, present, Except.toOption, if_true]
          rw [if_pos (by omega)]
      · rw [if_neg hlt, if_neg (by omega)]
        rfl
    · obtain ⟨f, hf, -⟩ := exists_frame_of_innermost hi
      simp only [bind, Except.bind, pure, Except.pure, readHeapSlot, Heap.frame, hf, present]
      cases hs : f.slots[index]? <;> simp [orFault, hs, Except.toOption]
  | succ depth ih =>
    rw [slotsAt, slot?, frame?]
    rcases hi : m.innermost env with s | ⟨⟨start, count⟩ | r, parent⟩
    · rfl
    · exact ih parent
    · obtain ⟨f, hf, rfl⟩ := exists_frame_of_innermost hi
      simp only [hf]
      exact ih f.parent

theorem slot?_eq_of_same (m m' : Machine) (hs : m'.stack = m.stack) (hh : m'.heap = m.heap)
    (env : Env) (depth index : Nat) : m'.slot? env depth index = m.slot? env depth index := by
  have hd (e : Nat) : m'.descriptor e = m.descriptor e := by
    simp only [descriptor, descriptor?, position?, hs]
  have hf (env : Env) : m'.frame? env = m.frame? env := by
    cases env <;> simp only [frame?, innermost, hd, hs, hh]
  induction depth generalizing env with
  | zero => rw [slot?, slot?, hf]
  | succ depth ih => simp only [slot?, hf, ih]

/-- Handles read the same if they lead to frames with the same slots and with such handles
around. -/
theorem slot?_congr {A B : Machine} {R : Env → Env → Prop}
    (hR : ∀ a b, R a b → Option.Rel (fun f g => f.slots = g.slots ∧ R f.parent g.parent)
      (A.frame? a) (B.frame? b)) {a b : Env} (h : R a b) (depth index : Nat) :
    A.slot? a depth index = B.slot? b depth index := by
  induction depth generalizing a b with
  | zero =>
    have hf := hR a b h
    rw [slot?, slot?]
    generalize A.frame? a = x, B.frame? b = y at hf
    cases hf with
    | none => rfl
    | some hf => exact congrArg (·[index]?) hf.1
  | succ depth ih =>
    have hf := hR a b h
    rw [slot?, slot?]
    generalize A.frame? a = x, B.frame? b = y at hf
    cases hf with
    | none => rfl
    | some hf => exact ih hf.2

end Machine

open Machine

variable {segs : List Segment} {target : Nat → Option Nat} {m w A B : Machine} {env env' : Env}
  {h : Heap}

/-- The handle leads to nothing or to a frame, with another such handle around it. -/
theorem Arranged.frame? (hm : Arranged segs m) (he : EnvIn m.heap segs env) :
    env = .empty ∨ ∃ f, m.frame? env = some f ∧ EnvIn m.heap segs f.parent := by
  cases env with
  | empty => exact .inl rfl
  | onHeap r =>
    cases he with
    | closed he =>
      have hf := Array.getElem?_eq_getElem he
      exact .inr ⟨_, by rw [frame?_onHeap, hf],
        .closed (hm.linked.frames _ (Array.mem_of_getElem? hf))⟩
  | onStack e =>
    obtain ⟨start, count, id, rest, rfl, hs, -, ⟨q, hq, hlt⟩ | ⟨parent, hf, hp⟩⟩ := hm.frameIn he
    · have hf := Array.getElem?_eq_getElem hlt
      exact .inr ⟨_, by rw [frame?_moved hq, hf],
        .closed (hm.linked.frames _ (Array.mem_of_getElem? hf))⟩
    · exact .inr ⟨_, frame?_live hf, hp.mono (.refl _) (suffix_of_cons_suffix hs).subset⟩

theorem Heap.Linked.slot?_eq (hl : h.Linked) (he : env.ClosedIn h) (hA : h.Grown A.heap)
    (hB : h.Grown B.heap) (depth index : Nat) :
    A.slot? env depth index = B.slot? env depth index := by
  refine slot?_congr (R := fun a b => a = b ∧ a.ClosedIn h) ?_ ⟨rfl, he⟩ depth index
  rintro a _ ⟨rfl, ha⟩
  cases a with
  | empty => exact .none
  | onStack => exact ha.elim
  | onHeap r =>
    have hf := Array.getElem?_eq_getElem ha
    rw [frame?_onHeap, frame?_onHeap, hA.frames _ _ hf, hB.frames _ _ hf]
    exact .some ⟨rfl, rfl, hl.frames _ (Array.mem_of_getElem? hf)⟩

theorem Arranged.resolve_eq (hm : Arranged segs m) (he : EnvIn m.heap segs env)
    (hcells : ∀ i < m.sp, A.stack[i]? = m.stack[i]?) : A.resolve env = m.resolve env := by
  cases env with
  | empty => rfl
  | onHeap => rfl
  | onStack e =>
    obtain ⟨start, count, id, rest, rfl, -, htop, ⟨q, hq, -⟩ | ⟨parent, hf, -⟩⟩ := hm.frameIn he
    · rw [Machine.resolve, Machine.resolve, descriptor_moved hq,
        descriptor_moved ((hcells _ (by omega)).trans hq)]
    · have hfA : FrameCells A.stack start count parent := hf.congr fun i _ hi => hcells i (by omega)
      rw [Machine.resolve, Machine.resolve, hf.descriptor, hfA.descriptor]

theorem Arranged.frame?_eq (hm : Arranged segs m) (he : EnvIn m.heap segs env)
    (hsize : A.stack.size = m.stack.size) (hcells : ∀ i < m.sp, A.stack[i]? = m.stack[i]?)
    (hframes : Extended m.heap.frames A.heap.frames) : A.frame? env = m.frame? env := by
  cases env with
  | empty => rfl
  | onHeap r =>
    cases he with
    | closed he =>
      have hf := Array.getElem?_eq_getElem he
      rw [frame?_onHeap, frame?_onHeap, hf, hframes _ _ hf]
  | onStack e =>
    obtain ⟨start, count, id, rest, rfl, -, htop, ⟨q, hq, hlt⟩ | ⟨parent, hf, -⟩⟩ := hm.frameIn he
    · have hf := Array.getElem?_eq_getElem hlt
      rw [frame?_moved hq, frame?_moved ((hcells _ (by omega)).trans hq), hf, hframes _ _ hf]
    · have hfA : FrameCells A.stack start count parent := hf.congr fun i _ hi => hcells i (by omega)
      rw [frame?_live hf, frame?_live hfA,
        Moved.extract_eq hsize fun i _ hi => hcells i (by omega)]

theorem Arranged.slot?_eq (hm : Arranged segs m) (he : EnvIn m.heap segs env)
    (hsize : A.stack.size = m.stack.size) (hcells : ∀ i < m.sp, A.stack[i]? = m.stack[i]?)
    (hheap : A.heap = m.heap) (depth index : Nat) :
    A.slot? env depth index = m.slot? env depth index := by
  refine slot?_congr (R := fun a b => a = b ∧ EnvIn m.heap segs a) ?_ ⟨rfl, he⟩ depth index
  rintro a _ ⟨rfl, ha⟩
  rw [hm.frame?_eq ha hsize hcells (hheap ▸ .refl _)]
  rcases hm.frame? ha with rfl | ⟨f, hf, hp⟩
  · exact .none
  · rw [hf]
    exact .some ⟨rfl, rfl, hp⟩

/-- A frame keeps its slots when it moves, and the handle of the frame around it leads to the same
frame. -/
theorem Moved.frame?_rel (hw : Moved segs target m w) (hm : Arranged segs m)
    (he : EnvIn m.heap segs env) :
    Option.Rel (fun f g => f.slots = g.slots ∧ EnvIn m.heap segs f.parent ∧
      w.resolve g.parent = w.resolve f.parent) (m.frame? env) (w.frame? env) := by
  have hheap {r : Ref .frame} (hr : r.index < m.heap.frames.size) :
      ∃ f, m.heap.frames[r.index]? = some f ∧ w.heap.frames[r.index]? = some f ∧
        EnvIn m.heap segs f.parent := by
    have hf := Array.getElem?_eq_getElem hr
    exact ⟨_, hf, hw.heap.frames _ _ hf, .closed (hm.linked.frames _ (Array.mem_of_getElem? hf))⟩
  cases env with
  | empty => exact .none
  | onHeap r =>
    cases he with
    | closed he =>
      obtain ⟨f, hf, hfw, hp⟩ := hheap he
      rw [frame?_onHeap, frame?_onHeap, hf, hfw]
      exact .some ⟨rfl, hp, rfl⟩
  | onStack e =>
    obtain ⟨start, count, id, rest, rfl, hs, -, ⟨q, hq, hlt⟩ | ⟨parent, hf, hp⟩⟩ := hm.frameIn he
    · obtain ⟨f, hf, hfw, hp⟩ := hheap (r := ⟨q⟩) hlt
      rw [frame?_moved hq, frame?_moved ((hw.stays _ (hw.stays_gone hq)).trans hq), hf, hfw]
      exact .some ⟨rfl, hp, rfl⟩
    · have hmem := mem_of_cons_suffix hs
      have hp := hp.mono (.refl _) (suffix_of_cons_suffix hs).subset
      rw [frame?_live hf]
      cases ht : target (start + count) with
      | none =>
        rw [frame?_live (hw.frameCells hm hmem ht hf), hw.slots_eq hm hmem]
        exact .some ⟨rfl, hp, rfl⟩
      | some q =>
        obtain ⟨start', count', id', parent', new, hmem', heq, hf', hq, hn, hr⟩ := hw.source _ q ht
        obtain ⟨rfl, rfl, rfl⟩ := hf.unique hf' heq
        rw [frame?_moved (hw.gone _ q ht), hq]
        exact .some ⟨rfl, hp, (hn.resolve w).trans hr.symm⟩

theorem Moved.slot?_eq (hw : Moved segs target m w) (hm : Arranged segs m)
    (he : EnvIn m.heap segs env) (hr : w.resolve env = .ok env') (depth index : Nat) :
    m.slot? env depth index = w.slot? env' depth index := by
  refine slot?_congr (R := fun a b => EnvIn m.heap segs a ∧ w.resolve b = w.resolve a) ?_
    ⟨he, (resolve_idem hr).trans hr.symm⟩ depth index
  rintro a b ⟨ha, hb⟩
  rw [frame?_congr hb]
  exact hw.frame?_rel hm ha

end LispMachine
