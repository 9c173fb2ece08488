import LispMachine.Proofs.Simulation.Room

/-! # Operands

Pushing and popping work above all segments. If there is room, a number of pushes writes a run of
cells and changes nothing else.
-/

namespace LispMachine

namespace Cells

def write (stack : Array Value) (lo : Nat) : List Value → Array Value
  | [] => stack
  | v :: vs => write (stack.setIfInBounds lo v) (lo + 1) vs

variable {stack : Array Value} {lo i : Nat} {vs : List Value} {v : Value}

@[simp] theorem write_nil : write stack lo [] = stack := rfl

@[simp] theorem write_cons :
    write stack lo (v :: vs) = write (stack.setIfInBounds lo v) (lo + 1) vs := rfl

-- Machines are compared field by field, which must not run through the cells.
attribute [irreducible] write

theorem write_append {ws : List Value} :
    write stack lo (vs ++ ws) = write (write stack lo vs) (lo + vs.length) ws := by
  induction vs generalizing stack lo with
  | nil => simp
  | cons v vs ih =>
    rw [List.cons_append, write_cons, ih, write_cons, List.length_cons,
      show lo + 1 + vs.length = lo + (vs.length + 1) by omega]

@[simp] theorem size_write : (write stack lo vs).size = stack.size := by
  induction vs generalizing stack lo with
  | nil => simp
  | cons v vs ih => simp [ih]

theorem getElem?_write_lt (hi : i < lo) : (write stack lo vs)[i]? = stack[i]? := by
  induction vs generalizing stack lo with
  | nil => rw [write_nil]
  | cons v vs ih => rw [write_cons, ih (by omega), Array.getElem?_setIfInBounds_ne (by omega)]

theorem getElem?_write (h : lo + vs.length ≤ stack.size) (hi : i < vs.length) :
    (write stack lo vs)[lo + i]? = vs[i]? := by
  induction vs generalizing stack lo i with
  | nil => simp at hi
  | cons v vs ih =>
    simp only [List.length_cons] at h hi
    cases i with
    | zero =>
      rw [write_cons, getElem?_write_lt (by omega), Nat.add_zero,
        Array.getElem?_setIfInBounds_self_of_lt (by omega)]
      rfl
    | succ i =>
      rw [write_cons, show lo + (i + 1) = lo + 1 + i by omega, ih (by simp; omega) (by omega)]
      rfl

theorem extract_write {us : Array Value} (h : lo + us.size ≤ stack.size) :
    (write stack lo us.toList).extract lo (lo + us.size) = us := by
  refine Array.ext_getElem? fun i => ?_
  rw [Array.getElem?_extract, size_write]
  by_cases hi : i < us.size
  · rw [if_pos (by omega), getElem?_write (by rwa [Array.length_toList])
      (by rwa [Array.length_toList]), Array.getElem?_toList]
  · rw [if_neg (by omega), Array.getElem?_eq_none (by omega)]

theorem mem_write (h : v ∈ write stack lo vs) : v ∈ vs ∨ v ∈ stack := by
  induction vs generalizing stack lo with
  | nil =>
    rw [write_nil] at h
    exact .inr h
  | cons w vs ih =>
    rw [write_cons] at h
    rcases ih h with h | h
    · exact .inl (List.mem_cons_of_mem _ h)
    · rcases mem_setIfInBounds h with rfl | h
      · exact .inl List.mem_cons_self
      · exact .inr h

theorem mem_clear {n : Nat} (h : v ∈ clear stack lo n) : v = .nil ∨ v ∈ stack := by
  induction n generalizing stack lo with
  | zero => exact .inr h
  | succ n ih =>
    rcases ih h with h | h
    · exact .inl h
    · exact mem_setIfInBounds h

theorem getElem?_clear_lt {n : Nat} (hi : i < lo) : (clear stack lo n)[i]? = stack[i]? := by
  induction n generalizing stack lo with
  | zero => rfl
  | succ n ih => rw [clear, ih (by omega), Array.getElem?_setIfInBounds_ne (by omega)]

end Cells

open Machine

variable {ρ σ : Naming} {segs : List Segment} {lo : Nat} {m : Machine} {r : HeapMachine}

/-! ## Above the segments -/

theorem Core.frame_id_lt (h : Core ρ segs lo m r) {start count j : Nat}
    (hm : .frame start count j ∈ segs) : j < r.heap.frames.size := by
  obtain ⟨rest, hs⟩ := exists_suffix hm
  rcases (h.stacked.at_suffix hs).2.1 with ⟨q, -, hq⟩ | ⟨parent, f, hl⟩
  · exact (h.heap.frame_lt hq).2
  · exact (Array.getElem?_eq_some_iff.1 hl.frame).1

theorem Core.point_id_lt (h : Core ρ segs lo m r) {start count k : Nat}
    (hm : .point start count k ∈ segs) : k < r.heap.continuations.size := by
  obtain ⟨rest, hs⟩ := exists_suffix hm
  obtain ⟨-, ⟨p, c, hp⟩, -⟩ := h.stacked.at_suffix hs
  exact (Array.getElem?_eq_some_iff.1 hp.continuation).1

/-- The segments stay as they are if the cells below the operands do and only new objects are
made. -/
theorem Core.stacked_congr (h : Core ρ segs lo m r) {stack : Array Value} {g : Heap}
    {born : Array Birth} (hρ : ρ ≤ σ)
    (hnew : ∀ j, j < r.heap.frames.size → ρ.frame j = none → σ.frame j = none)
    (hcells : ∀ i, i < lo → stack[i]? = m.stack[i]?) (hf : Extended r.heap.frames g.frames)
    (hc : Extended r.heap.continuations g.continuations) (hb : Extended r.born born) :
    Stacked (SegmentAt σ stack g born) lo segs := by
  refine h.stacked.imp fun s rest hs hseg => hseg.congr hρ (fun i _ hi => hcells i ?_) ?_ hc hb
  · have := (h.stacked.at_suffix hs).1
    omega
  · rintro start count j f - hj hfj
    exact ⟨hnew j (Array.getElem?_eq_some_iff.1 hfj).1 hj, hf j f hfj⟩

/-- What is above the segments may change at will. -/
theorem Represents.above (h : Represents ρ segs lo m r) {stack : Array Value} {lo' sp bp : Nat}
    {operands : Array Value} {leaving : Bool} {demand : Demand} (hsize : stack.size = m.stack.size)
    (hcells : ∀ i, i < lo → stack[i]? = m.stack[i]?) (hknown : ∀ v ∈ stack, Known ρ v)
    (hlo : lo ≤ lo') (hsp : sp = lo' + operands.size) (hroom : sp ≤ m.capacity)
    (hops : Holds (Agree ρ) stack lo' operands) (hbp : leaving = false → bp ≤ lo')
    (hframes : leaving = false → ∀ start count j, .frame start count j ∈ segs →
      start + count + 3 ≤ bp) (hleast : demand.least ≤ m.capacity) (hbase : lo' ≤ bp + demand.base)
    (hslack : lo' ≤ max bp m.cont.top + demand.slack) :
    Represents ρ segs lo' { m with stack, sp, bp } { r with operands, leaving, demand } :=
  { h with
    sp := hsp
    room := by
      change sp ≤ stack.size
      rw [hsize]
      exact hroom
    least := by
      change demand.least ≤ stack.size
      rw [hsize]
      exact hleast
    base := hbase
    slack := hslack
    operands := hops
    known := hknown
    stacked :=
      (h.stacked_congr le_rfl (fun _ _ h => h) hcells (.refl _) (.refl _) (.refl _)).mono hlo
    bp := hbp
    frames_le := hframes }

/-! ## Pushing -/

theorem push_room {v : Value} (hroom : m.sp < m.capacity) :
    push v m = .ok () { m with stack := m.stack.setIfInBounds m.sp v, sp := m.sp + 1 } := by
  have hm : Machine.makeRoom 1 .stackOverflow m = .ok () m := by
    simp only [Machine.makeRoom, get_bind_apply, if_neg (Nat.not_lt.2 (Nat.succ_le_of_lt hroom))]
    rfl
  have hw : writeCell m.sp v m = .ok () { m with stack := m.stack.setIfInBounds m.sp v } :=
    if_pos hroom
  rw [push, bind_ok hm]
  simp only [get_bind_apply]
  rw [bind_ok hw]
  rfl

theorem pushAll_cons (v : Value) (vs : List Value) :
    pushAll (v :: vs) = push v >>= fun _ => pushAll vs := rfl

theorem pushAll_room {vs : List Value} (hroom : m.sp + vs.length ≤ m.capacity) :
    pushAll vs m =
      .ok () { m with stack := Cells.write m.stack m.sp vs, sp := m.sp + vs.length } := by
  induction vs generalizing m with
  | nil =>
    rw [Cells.write_nil]
    rfl
  | cons v vs ih =>
    rw [List.length_cons] at hroom
    rw [pushAll_cons, bind_ok (push_room (by omega)), ih (by simp [capacity] at hroom ⊢; omega)]
    simp only [Cells.write_cons, List.length_cons, Nat.add_assoc, Nat.add_comm 1]

theorem Represents.pushCell (h : Represents ρ segs lo m r) {v u : Value} (hroom : m.sp < m.capacity)
    (hv : Agree ρ v u) :
    Represents ρ segs lo { m with stack := m.stack.setIfInBounds m.sp v, sp := m.sp + 1 }
      { r with
        operands := r.operands.push u, demand := r.demand.ask (r.operands.size + 1) } := by
  have hsp := h.sp
  refine h.above (by simp) (fun i hi => ?_) ?_ le_rfl (by simp [hsp, Nat.add_assoc]) hroom ?_ h.bp
    h.frames_le (max_le h.least (by omega)) h.base h.slack
  · exact Array.getElem?_setIfInBounds_ne (by omega)
  · intro w hw
    rcases mem_setIfInBounds hw with rfl | hw
    · exact hv.known
    · exact h.known w hw
  · refine Holds.push (h.operands.congr fun i _ hi => ?_) ?_ hv
    · exact Array.getElem?_setIfInBounds_ne (by omega)
    · rw [hsp]
      exact Array.getElem?_setIfInBounds_self_of_lt (hsp ▸ hroom)

theorem Represents.dropOperands (h : Represents ρ segs lo m r) :
    Represents ρ segs m.sp m
      { r with operands := #[], demand := r.demand.bury r.operands.size } := by
  have hsp := h.sp
  have hbase := h.base
  have hslack := h.slack
  exact h.above rfl (fun _ _ => rfl) h.known (by omega) (by simp) h.room .empty
    (fun hl => by have := h.bp hl; omega) h.frames_le h.least (by simp only [Demand.bury]; omega)
    (by simp only [Demand.bury]; omega)

/-- Pushing succeeds, after a collection if need be, or the stack overflows. -/
theorem Represents.push (h : Represents ρ segs lo m r) (hbp : m.bp ≤ lo) {v u : Value}
    (hv : Agree ρ v u) :
    (∃ σ segs' lo' m', Machine.push v m = .ok () m' ∧ ρ ≤ σ ∧
      Represents σ segs' lo' m' { r with
        operands := r.operands.push u, demand := r.demand.ask (r.operands.size + 1) }) ∨
    ∃ σ segs' lo' m', Machine.push v m = .error (.fault .stackOverflow) m' ∧
      Represents σ segs' lo' m' r ∧ m'.capacity < r.demand.slack + r.operands.size + 1 := by
  rcases h.makeRoom (.inl hbp) 1 .stackOverflow with
    ⟨σ, segs', lo', m₁, hm₁, hρ, h₁, -, hroom, -⟩ | ⟨σ, segs', lo', m₁, hm₁, h₁⟩
  · refine .inl ⟨σ, segs', lo', _, ?_, hρ, h₁.pushCell hroom (hv.mono hρ)⟩
    have hw : writeCell m₁.sp v m₁ = .ok () { m₁ with stack := m₁.stack.setIfInBounds m₁.sp v } :=
      if_pos hroom
    rw [Machine.push, bind_ok hm₁]
    simp only [get_bind_apply]
    rw [bind_ok hw]
    rfl
  · refine .inr ⟨σ, segs', lo', m₁, ?_, h₁⟩
    rw [Machine.push, bind_error hm₁]

/-! ## Popping -/

theorem Represents.top (h : Represents ρ segs lo m r) {u : Value}
    (hu : r.operands.back? = some u) :
    ∃ v sp, m.sp = sp + 1 ∧ m.stack[sp]? = some v ∧ Agree ρ v u := by
  obtain ⟨v, hv, hag⟩ := h.operands.back hu
  have hpos : 0 < r.operands.size := by
    rw [Array.back?_eq_getElem?] at hu
    have := (Array.getElem?_eq_some_iff.1 hu).1
    omega
  have hsp := h.sp
  refine ⟨v, lo + r.operands.size - 1, by omega, hv, hag⟩

theorem Represents.popCell (h : Represents ρ segs lo m r) {u : Value}
    (hu : r.operands.back? = some u) :
    ∃ v m', Machine.pop m = .ok v m' ∧ Agree ρ v u ∧
      Represents ρ segs lo m' { r with operands := r.operands.pop } := by
  obtain ⟨v, sp, hsp, hv, hag⟩ := h.top hu
  have hroom := h.room
  have hlo := h.sp
  have hpos : 0 < r.operands.size := by
    rw [Array.back?_eq_getElem?] at hu
    have := (Array.getElem?_eq_some_iff.1 hu).1
    omega
  refine ⟨v, { m with stack := m.stack.setIfInBounds sp .nil, sp }, ?_, hag, ?_⟩
  · have hq : m.cell sp = .ok v := by simp [cell, hv, present]
    have hw : writeCell sp .nil m = .ok () { m with stack := m.stack.setIfInBounds sp .nil } :=
      if_pos (by omega)
    simp only [Machine.pop, get_bind_apply, hsp]
    rw [query_bind_ok hq, bind_ok hw]
    rfl
  · refine h.above (by simp) (fun i hi => ?_) ?_ le_rfl (by simp; omega) (by omega) ?_ h.bp
      h.frames_le h.least h.base h.slack
    · exact Array.getElem?_setIfInBounds_ne (by omega)
    · intro w hw
      rcases mem_setIfInBounds hw with rfl | hw
      · exact ⟨_, .nil⟩
      · exact h.known w hw
    · refine h.operands.pop.congr fun i _ hi => ?_
      rw [Array.size_pop] at hi
      exact Array.getElem?_setIfInBounds_ne (by omega)

end LispMachine
