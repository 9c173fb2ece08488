import LispMachine.Proofs.Arrangement.Basic
import LispMachine.Proofs.Maintains
import LispMachine.Proofs.Simulation.Promotion

/-! # Frames that have moved

Moving to the heap changes one cell for each frame that moves and adds objects. The rest of the
stack stays as it is: the slots, the return points and the values that are pending below them.
-/

namespace LispMachine

open Machine

/-- Some frames have moved to the heap of the second machine, each to an object of its own that
holds its slots. Nothing else has changed in the cells. The frame at position `e` has gone to
`target e`. -/
structure Moved (segs : List Segment) (target : Nat → Option Nat) (m w : Machine) : Prop where
  size : w.stack.size = m.stack.size
  heap : m.heap.Grown w.heap
  stays : ∀ i, target i = none → w.stack[i]? = m.stack[i]?
  gone : ∀ e q, target e = some q → w.stack[e]? = some (.frame ⟨q⟩)
  source : ∀ e q, target e = some q → ∃ start count id parent new,
    .frame start count id ∈ segs ∧ e = start + count ∧ FrameCells m.stack start count parent ∧
    w.heap.frames[q]? = some ⟨m.stack.extract start e, new⟩ ∧ new.ClosedIn w.heap ∧
    w.resolve parent = .ok new
  fresh : ∀ e q, target e = some q → m.heap.frames.size ≤ q
  inj : ∀ e e' q, target e = some q → target e' = some q → e = e'

theorem Stacked.eq_of_position {P : List Segment → Segment → Prop} {hi : Nat} {segs : List Segment}
    (h : Stacked P hi segs) {s : Segment} {start count id : Nat} (hs : s ∈ segs)
    (hf : .frame start count id ∈ segs) (hle : s.start ≤ start + count)
    (hlt : start + count < s.top) : s = .frame start count id := by
  obtain ⟨rs, hrs⟩ := exists_suffix hs
  obtain ⟨rf, hrf⟩ := exists_suffix hf
  rcases h.apart hrs hrf with ⟨heq, -⟩ | ⟨-, hbelow⟩ | ⟨-, habove⟩
  · exact heq
  · simp only [Segment.start_frame] at hbelow
    omega
  · simp only [Segment.top_frame] at habove
    omega

namespace Moved

variable {segs rest : List Segment} {target target' : Nat → Option Nat} {m w w' : Machine}
  {start count id : Nat} {parent link new : Env}

theorem capacity (h : Moved segs target m w) : w.capacity = m.capacity := h.size

theorem refl (segs : List Segment) (m : Machine) : Moved segs (fun _ => none) m m where
  size := rfl
  heap := .refl _
  stays _ _ := rfl
  gone _ _ h := by cases h
  source _ _ h := by cases h
  fresh _ _ h := by cases h
  inj _ _ _ h := by cases h

theorem target_eq_none (h : Moved segs target m w) {i : Nat}
    (hi : ∀ start count id, .frame start count id ∈ segs → i ≠ start + count) :
    target i = none := by
  cases ht : target i with
  | none => rfl
  | some q =>
    obtain ⟨start, count, id, -, -, hmem, he, -⟩ := h.source i q ht
    exact absurd he (hi start count id hmem)

/-- A frame moves only once. -/
theorem stays_gone (h : Moved segs target m w) {e : Nat} {r : Ref .frame}
    (hr : m.stack[e]? = some (.frame r)) : target e = none := by
  cases ht : target e with
  | none => rfl
  | some q =>
    obtain ⟨start, count, id, parent, new, -, rfl, hf, -⟩ := h.source e q ht
    rw [hf.start_cell] at hr
    cases hr

theorem resolve_closed (h : Moved segs target m w) (hm : Arranged segs m)
    (he : EnvIn m.heap segs link) (hr : m.resolve link = .ok new) (hn : new.ClosedIn m.heap) :
    w.resolve link = .ok new := by
  cases link with
  | empty => exact hr
  | onHeap => exact hr
  | onStack e =>
    obtain ⟨start, count, id, rest, rfl, -, -, ⟨q, hq, -⟩ | ⟨parent, hf, -⟩⟩ := hm.frameIn he
    · rw [Machine.resolve, descriptor_moved hq] at hr
      rw [Machine.resolve, descriptor_moved ((h.stays _ (h.stays_gone hq)).trans hq)]
      exact hr
    · rw [Machine.resolve, hf.descriptor] at hr
      cases hr
      exact hn.elim

theorem stays_inside (h : Moved segs target m w) (hm : Arranged segs m)
    (hmem : .frame start count id ∈ segs) {i : Nat} (hle : start ≤ i) (hlt : i < start + count + 3)
    (hne : i ≠ start + count) : w.stack[i]? = m.stack[i]? := by
  refine h.stays i (h.target_eq_none fun start' count' id' hmem' hi => ?_)
  subst hi
  have heq := hm.stacked.eq_of_position hmem hmem' hle hlt
  cases heq
  exact hne rfl

theorem frameCells (h : Moved segs target m w) (hm : Arranged segs m)
    (hmem : .frame start count id ∈ segs) (ht : target (start + count) = none)
    (hf : FrameCells m.stack start count parent) : FrameCells w.stack start count parent where
  start_cell := by rw [h.stays _ ht, hf.start_cell]
  count_cell := by rw [h.stays_inside hm hmem (by omega) (by omega) (by omega), hf.count_cell]
  parent_cell := by rw [h.stays_inside hm hmem (by omega) (by omega) (by omega), hf.parent_cell]

theorem extract_eq {xs ys : Array Value} {lo hi : Nat} (hsize : xs.size = ys.size)
    (h : ∀ i, lo ≤ i → i < hi → xs[i]? = ys[i]?) : xs.extract lo hi = ys.extract lo hi := by
  refine Array.ext_getElem? fun i => ?_
  simp only [Array.getElem?_extract, hsize]
  split
  · next hi => exact h _ (by omega) (by omega)
  · rfl

theorem slots_eq (h : Moved segs target m w) (hm : Arranged segs m)
    (hmem : .frame start count id ∈ segs) :
    w.stack.extract start (start + count) = m.stack.extract start (start + count) :=
  extract_eq h.size fun _ hle hlt => h.stays_inside hm hmem hle (by omega) (by omega)

/-- No frame lies in a return point or among the values below it. -/
theorem stays_point (h : Moved segs target m w) (hm : Arranged segs m) {p : ReturnPoint}
    (hs : .point start count id :: rest <:+ segs)
    (hp : PointIn m.heap m.stack rest start count p) {i : Nat} (hle : p.bp ≤ i)
    (hlt : i < start + count + 4) : w.stack[i]? = m.stack[i]? := by
  refine h.stays i (h.target_eq_none fun start' count' id' hmem' hi => ?_)
  obtain ⟨rf, hrf⟩ := exists_suffix hmem'
  rcases hm.stacked.apart hs hrf with ⟨heq, -⟩ | ⟨-, hbelow⟩ | ⟨hrest, -⟩
  · cases heq
  · simp only [Segment.top_point, Segment.start_frame] at hbelow
    omega
  · have := hp.frames_le start' count' id' (mem_of_cons_suffix hrest)
    omega

theorem pointCells (h : Moved segs target m w) (hm : Arranged segs m) {p : ReturnPoint}
    (hs : .point start count id :: rest <:+ segs)
    (hp : PointIn m.heap m.stack rest start count p) : PointCells w.stack start count p := by
  have hbp := hp.bp_le
  exact
    { ip_cell := by rw [h.stays_point hm hs hp (by omega) (by omega), hp.ip_cell]
      bp_cell := by rw [h.stays_point hm hs hp (by omega) (by omega), hp.bp_cell]
      env_cell := by rw [h.stays_point hm hs hp (by omega) (by omega), hp.env_cell]
      prev_cell := by rw [h.stays_point hm hs hp (by omega) (by omega), hp.prev_cell]
      bp_le := hbp }

theorem saved_eq (h : Moved segs target m w) (hm : Arranged segs m) {p : ReturnPoint}
    (hs : .point start count id :: rest <:+ segs)
    (hp : PointIn m.heap m.stack rest start count p) :
    w.stack.extract p.bp (start + count) = m.stack.extract p.bp (start + count) :=
  extract_eq h.size fun _ hle hlt => h.stays_point hm hs hp hle (by omega)

theorem arranged (h : Moved segs target m w) (hr : SameRegisters m w) (hm : Arranged segs m)
    (hl : w.heap.Linked) : Arranged segs w where
  room := by
    rw [hr.sp, h.capacity]
    exact hm.room
  stacked := by
    rw [hr.sp]
    refine hm.stacked.imp fun s rest hs hseg => ?_
    cases s with
    | frame start count id =>
      have hmem := mem_of_cons_suffix hs
      rcases hseg with ⟨q, hq, hlt⟩ | ⟨parent, hf, hp⟩
      · refine .inl ⟨q, ?_, Nat.lt_of_lt_of_le hlt h.heap.frames.size_le⟩
        rw [h.stays _ (h.stays_gone hq), hq]
      · cases ht : target (start + count) with
        | none =>
          exact .inr ⟨parent, h.frameCells hm hmem ht hf, hp.mono h.heap (List.Subset.refl _)⟩
        | some q =>
          obtain ⟨_, _, _, _, _, -, -, -, hq, -⟩ := h.source _ q ht
          exact .inl ⟨q, h.gone _ q ht, (Array.getElem?_eq_some_iff.1 hq).1⟩
    | point start count id =>
      obtain ⟨p, hp⟩ := hseg
      exact ⟨p, { h.pointCells hm hs hp with
        frames_le := hp.frames_le
        env := hp.env.mono h.heap (List.Subset.refl _)
        prev := hp.prev.mono h.heap (List.Subset.refl _) }⟩
  env := by
    rw [hr.env]
    exact hm.env.mono h.heap (List.Subset.refl _)
  cont := by
    rw [hr.cont]
    exact hm.cont.mono h.heap (List.Subset.refl _)
  linked := hl

theorem trans (h : Moved segs target m w) (h' : Moved segs target' w w') (hm : Arranged segs m)
    (hw : Arranged segs w) : Moved segs (fun e => (target e).or (target' e)) m w' where
  size := h'.size.trans h.size
  heap := h.heap.trans h'.heap
  stays i hi := by
    obtain ⟨hi, hi'⟩ := Option.or_eq_none_iff.1 hi
    rw [h'.stays i hi', h.stays i hi]
  gone e q hq := by
    rcases Option.or_eq_some_iff.1 hq with hq | ⟨-, hq⟩
    · rw [h'.stays e (h'.stays_gone (h.gone e q hq)), h.gone e q hq]
    · exact h'.gone e q hq
  source e q hq := by
    rcases Option.or_eq_some_iff.1 hq with hq | ⟨hnone, hq⟩
    · obtain ⟨start, count, id, parent, new, hmem, rfl, hf, hfr, hn, hr⟩ := h.source e q hq
      refine ⟨start, count, id, parent, new, hmem, rfl, hf, h'.heap.frames _ _ hfr,
        hn.mono h'.heap, ?_⟩
      -- the parent was in order before and has moved by now
      obtain ⟨start', count', id', rest, heq, hs, -, hseg⟩ := hm.frameIn (.onStack hmem)
      have hp : EnvIn w.heap segs parent := by
        rcases hseg with ⟨q', hq', -⟩ | ⟨parent', hf', hp⟩
        · rw [hf.start_cell] at hq'
          cases hq'
        · obtain ⟨-, -, rfl⟩ := hf.unique hf' heq
          exact hp.mono h.heap (suffix_of_cons_suffix hs).subset
      exact h'.resolve_closed hw hp hr hn
    · obtain ⟨start, count, id, parent, new, hmem, rfl, hf, hfr, hn, hr⟩ := h'.source e q hq
      obtain ⟨start', count', id', rest, heq, hs, -, hseg⟩ := hm.frameIn (.onStack hmem)
      refine ⟨start, count, id, parent, new, hmem, rfl, ?_, ?_, hn, hr⟩
      · exact
          { start_cell := by rw [← h.stays _ hnone, hf.start_cell]
            count_cell := by
              rw [← h.stays_inside hm hmem (by omega) (by omega) (by omega), hf.count_cell]
            parent_cell := by
              rw [← h.stays_inside hm hmem (by omega) (by omega) (by omega), hf.parent_cell] }
      · rw [hfr, h.slots_eq hm hmem]
  fresh e q hq := by
    rcases Option.or_eq_some_iff.1 hq with hq | ⟨-, hq⟩
    · exact h.fresh e q hq
    · exact h.heap.frames.size_le.trans (h'.fresh e q hq)
  inj e e' q hq hq' := by
    rcases Option.or_eq_some_iff.1 hq with hq | ⟨-, hq⟩ <;>
      rcases Option.or_eq_some_iff.1 hq' with hq' | ⟨-, hq'⟩
    · exact h.inj e e' q hq hq'
    · obtain ⟨_, _, _, _, _, -, -, -, hfr, -⟩ := h.source e q hq
      have := (Array.getElem?_eq_some_iff.1 hfr).1
      have := h'.fresh e' q hq'
      omega
    · obtain ⟨_, _, _, _, _, -, -, -, hfr, -⟩ := h.source e' q hq'
      have := (Array.getElem?_eq_some_iff.1 hfr).1
      have := h'.fresh e q hq
      omega
    · exact h'.inj e e' q hq hq'

end Moved

end LispMachine
