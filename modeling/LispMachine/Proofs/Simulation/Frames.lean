import LispMachine.Proofs.Simulation.Follows

/-! # Entering and leaving frames

A new frame takes its slots off the operands, on the stack or on the heap. Leaving a frame gives its
cells back, which is safe as long as no return point lies above it.
-/

namespace LispMachine

open Machine

variable {ρ : Naming} {segs : List Segment} {lo taken extra : Nat} {m : Machine} {r : HeapMachine}
  {tail : List Value}

def HeapMachine.framed (r : HeapMachine) (taken extra : Nat) : HeapMachine :=
  { r with
    operands := #[]
    leaving := false
    demand := r.demand.rebase 0
    env := .onHeap ⟨r.heap.frames.size⟩
    heap.frames :=
      r.heap.frames.push ⟨r.lastOperands taken ++ Array.replicate extra .unbound, r.env⟩ }

theorem HeapMachine.pushFrame_eq (h : taken ≤ r.operands.size) :
    HeapMachine.pushFrame taken extra r = .ok () (r.framed taken extra) :=
  if_neg (Nat.not_lt.2 h)

theorem HeapMachine.size_lastOperands (h : taken ≤ r.operands.size) :
    (r.lastOperands taken).size = taken := by
  simp only [lastOperands, Array.size_extract]
  omega

/-! ## On the stack -/

def Machine.framed (m : Machine) (taken extra : Nat) : Machine :=
  let e := m.sp + extra
  { m with
    stack := Cells.write m.stack m.sp (List.replicate extra .unbound ++
      [.fixnum ↑(m.sp - taken), .fixnum ↑(taken + extra), m.env.toValue])
    sp := e + 3
    bp := e + 3
    env := .onStack e }

/-- The machine after a frame was built on its stack, whose slots are the `taken` values on top and
those of `tail`. -/
def Machine.framedWith (m : Machine) (taken : Nat) (tail : List Value) : Machine :=
  let e := m.sp + tail.length
  { m with
    stack := Cells.write m.stack m.sp
      (tail ++ [.fixnum ↑(m.sp - taken), .fixnum ↑(taken + tail.length), m.env.toValue])
    sp := e + 3
    bp := e + 3
    env := .onStack e }

theorem framed_eq_framedWith :
    m.framed taken extra = m.framedWith taken (List.replicate extra .unbound) := by
  simp only [Machine.framed, framedWith, List.length_replicate]

theorem pushFrame_room (htaken : taken ≤ m.sp) (hroom : m.sp + extra + 3 ≤ m.capacity) :
    pushFrame taken extra m = .ok () (m.framed taken extra) := by
  have hall : pushAll (List.replicate extra .unbound) m =
      .ok () { m with
        stack := Cells.write m.stack m.sp (List.replicate extra .unbound),
          sp := m.sp + extra } := by
    rw [pushAll_room (by rw [List.length_replicate]; omega), List.length_replicate]
  have hdist : distance (m.sp + extra) (taken + extra) = .ok (m.sp - taken) := by
    rw [distance, if_pos (by omega), show m.sp + extra - (taken + extra) = m.sp - taken by omega]
  have hcap : m.capacity = m.stack.size := rfl
  simp only [pushFrame, get_bind_apply, if_neg (Nat.not_lt.2 htaken),
    if_neg (Nat.not_lt.2 hroom)]
  rw [bind_ok hall]
  simp only [get_bind_apply]
  rw [query_bind_ok hdist]
  rw [bind_ok (push_room (by simp [capacity]; omega)),
    bind_ok (push_room (by simp [capacity]; omega)),
    bind_ok (push_room (by simp [capacity]; omega))]
  simp only [modify_apply, framed, Cells.write_append, Cells.write_cons, Cells.write_nil,
    List.length_replicate, Nat.add_assoc, Nat.reduceAdd]

theorem framedWith_frameCells (htaken : taken ≤ m.sp)
    (hroom : m.sp + tail.length + 3 ≤ m.capacity) :
    FrameCells (m.framedWith taken tail).stack (m.sp - taken) (taken + tail.length) m.env := by
  have hlen : ∀ vs : List Value, (tail ++ vs).length = tail.length + vs.length := fun _ =>
    List.length_append
  have hcell {i : Nat} (hi : i < 3) :
      (m.framedWith taken tail).stack[m.sp - taken + (taken + tail.length) + i]? =
        [Value.fixnum ↑(m.sp - taken), .fixnum ↑(taken + tail.length), m.env.toValue][i]? := by
    rw [show m.sp - taken + (taken + tail.length) + i = m.sp + (tail.length + i) by omega,
      framedWith, Cells.getElem?_write (by rw [hlen]; exact hroom)
      (by rw [hlen]; exact Nat.add_lt_add_left hi _),
      List.getElem?_append_right (Nat.le_add_right ..), Nat.add_sub_cancel_left]
  exact ⟨hcell (i := 0) (by omega), hcell (i := 1) (by omega), hcell (i := 2) (by omega)⟩

namespace Represents

theorem slots_framed (h : Represents ρ segs lo m r) (htaken : taken ≤ r.operands.size)
    (hroom : m.sp + extra + 3 ≤ m.capacity) :
    Holds (Agree ρ) (m.framed taken extra).stack (m.sp - taken)
      (r.lastOperands taken ++ Array.replicate extra .unbound) := by
  have hsp := h.sp
  have hlast := HeapMachine.size_lastOperands htaken
  refine Holds.append ?_ (.replicate fun i hi => ⟨.unbound, ?_, .unbound⟩)
  · have hheld := h.operands.last (n := taken)
    rw [show lo + (r.operands.size - taken) = m.sp - taken by omega] at hheld
    refine hheld.congr fun i _ hi => Cells.getElem?_write_lt ?_
    change i < m.sp - taken + (r.lastOperands taken).size at hi
    omega
  · rw [hlast, show m.sp - taken + taken + i = m.sp + i by omega, Machine.framed,
      Cells.getElem?_write (by simpa [capacity, Nat.add_assoc] using hroom) (by simp; omega),
      List.getElem?_append_left (by simpa using hi), List.getElem?_replicate_of_lt hi]

theorem liveAt_framed (h : Represents ρ segs lo m r) (htaken : taken ≤ r.operands.size)
    (hroom : m.sp + extra + 3 ≤ m.capacity) :
    LiveAt ρ (m.framed taken extra).stack (r.framed taken extra).heap segs (m.sp - taken)
      (taken + extra) r.heap.frames.size m.env
      ⟨r.lastOperands taken ++ Array.replicate extra .unbound, r.env⟩ := by
  have hsp := h.sp
  have hcells : FrameCells (m.framed taken extra).stack (m.sp - taken) (taken + extra) m.env := by
    have hlen : (List.replicate extra Value.unbound).length = extra := List.length_replicate
    have htop : taken ≤ m.sp := by omega
    have hframe := framedWith_frameCells htop (hlen.symm ▸ hroom)
    rwa [← framed_eq_framedWith, hlen] at hframe
  exact
    { hcells with
      frame := by simp [HeapMachine.framed]
      unnamed := h.heap.frame_size
      unique := fun start' count' hm => absurd (h.frame_id_lt hm) (Nat.lt_irrefl _)
      parent := h.env
      size := by simp [HeapMachine.size_lastOperands htaken]
      slots := h.slots_framed htaken hroom }

theorem stacked_framed (h : Represents ρ segs lo m r) (taken extra : Nat) :
    Stacked (SegmentAt ρ (m.framed taken extra).stack (r.framed taken extra).heap
      (r.framed taken extra).born) lo segs := by
  have hsp := h.sp
  refine h.stacked_congr le_rfl (fun _ _ h => h) (fun i hi => ?_) (.push _ _) (.refl _) (.refl _)
  exact Cells.getElem?_write_lt (by omega)

theorem known_framed (h : Represents ρ segs lo m r) (taken extra : Nat) :
    ∀ v ∈ (m.framed taken extra).stack, Known ρ v := by
  intro v hv
  rcases Cells.mem_write hv with hv | hv
  · simp only [List.mem_append, List.mem_replicate, List.mem_cons, List.not_mem_nil, or_false] at hv
    rcases hv with ⟨-, rfl⟩ | rfl | rfl | rfl
    · exact ⟨_, .unbound⟩
    · exact ⟨_, .fixnum⟩
    · exact ⟨_, .fixnum⟩
    · exact .env _
  · exact h.known v hv

theorem framed (h : Represents ρ segs lo m r) (htaken : taken ≤ r.operands.size)
    (hroom : m.sp + extra + 3 ≤ m.capacity) :
    Represents ρ (.frame (m.sp - taken) (taken + extra) r.heap.frames.size :: segs)
      (m.sp + extra + 3) (m.framed taken extra) (r.framed taken extra) := by
  have hsp := h.sp
  have hcap : (m.framed taken extra).capacity = m.capacity := by simp [Machine.framed, capacity]
  have henv : EnvOn ρ (.frame (m.sp - taken) (taken + extra) r.heap.frames.size :: segs)
      (.onStack (m.sp + extra)) (.onHeap ⟨r.heap.frames.size⟩) := by
    rw [show m.sp + extra = m.sp - taken + (taken + extra) by omega]
    exact .onStack List.mem_cons_self
  refine
    { h with
      heap := h.heap.pushFrame
      sp := rfl
      room := hcap ▸ hroom
      least := hcap ▸ h.least
      base := le_rfl
      operands := .empty
      known := h.known_framed taken extra
      stacked := ⟨?_, .inr ⟨m.env, _, h.liveAt_framed htaken hroom⟩,
        (h.stacked_framed taken extra).mono ?_⟩
      bp := fun _ => le_rfl
      frames_le := fun _ start count j hm => ?_
      env := henv
      cont := h.cont.mono le_rfl fun _ _ _ hm => List.mem_cons_of_mem _ hm
      fresh := fun start count k hm => ?_
      slack := le_max_left (m.sp + extra + 3) m.cont.top }
  · rw [Segment.top_frame]
    omega
  · rw [Segment.start_frame]
    omega
  · change start + count + 3 ≤ m.sp + extra + 3
    rcases List.mem_cons.1 hm with hm | hm
    · cases hm
      omega
    · have := h.stacked.top_le_of_mem hm
      rw [Segment.top_frame] at this
      omega
  · rcases List.mem_cons.1 hm with hm | hm
    · cases hm
    · exact h.fresh start count k hm

end Represents

/-! ## On the heap -/

def Machine.framedOnHeap (m : Machine) (taken : Nat) (tail : List Value) (parent : Env) : Machine :=
  { m with
    stack := Cells.clear m.stack (m.sp - taken) (m.sp - (m.sp - taken))
    heap.frames := m.heap.frames.push
      ⟨m.stack.extract (m.sp - taken) m.sp ++ tail.toArray, parent⟩
    sp := m.sp - taken
    bp := m.sp - taken
    env := .onHeap ⟨m.heap.frames.size⟩ }

theorem pushHeapFrame_promoted {new : Env} {w : Machine} (hw : promoteCurrent m = .ok new w)
    (htaken : taken ≤ w.sp) (hroom : w.sp ≤ w.capacity) :
    pushHeapFrame taken extra m =
      .ok () (w.framedOnHeap taken (List.replicate extra .unbound) new) := by
  have hdist : distance w.sp taken = .ok (w.sp - taken) := if_pos htaken
  have hcells : w.cells (w.sp - taken) w.sp = .ok (w.stack.extract (w.sp - taken) w.sp) :=
    if_pos ⟨Nat.sub_le .., hroom⟩
  have hclear : clearCells (w.sp - taken) w.sp w = .ok () { w with
      stack := Cells.clear w.stack (w.sp - taken) (w.sp - (w.sp - taken)) } :=
    if_pos ⟨Nat.sub_le .., hroom⟩
  rw [pushHeapFrame, bind_ok hw]
  simp only [get_bind_apply]
  rw [query_bind_ok hdist, query_bind_ok hcells, bind_ok hclear]
  simp only [newFrame, allocate_bind_apply, modify_apply, framedOnHeap, Heap.addFrame,
    List.toArray_replicate]

namespace Represents

theorem frameAgree_framedOnHeap {new : Env} (h : Represents ρ segs lo m r)
    (htaken : taken ≤ r.operands.size) (extra : Nat) (hnew : EnvAgree ρ new r.env) :
    FrameAgree ρ
      ⟨m.stack.extract (m.sp - taken) m.sp ++ (List.replicate extra Value.unbound).toArray, new⟩
      ⟨r.lastOperands taken ++ Array.replicate extra .unbound, r.env⟩ := by
  have hsp := h.sp
  have hroom : m.sp ≤ m.stack.size := h.room
  have hlast := HeapMachine.size_lastOperands htaken
  have hsize : (m.stack.extract (m.sp - taken) m.sp).size = taken := by
    rw [Array.size_extract]
    omega
  rw [List.toArray_replicate]
  refine ⟨⟨by simp [hsize, hlast], Holds.append ?_ (.replicate fun i hi => ?_)⟩, hnew⟩
  · have hops : Holds (Agree ρ) (m.stack.extract (m.sp - taken) m.sp)
        (lo + (r.operands.size - taken) - (m.sp - taken)) (r.lastOperands taken) :=
      h.operands.last.extract (by omega) (by change _ + (r.lastOperands taken).size ≤ _; omega)
    rw [show lo + (r.operands.size - taken) - (m.sp - taken) = 0 by omega] at hops
    exact hops.congr fun i _ hi => Array.getElem?_append_left (by omega)
  · refine ⟨.unbound, ?_, .unbound⟩
    rw [hlast, Array.getElem?_append_right (by omega), hsize, Array.getElem?_replicate,
      if_pos (by omega)]

/-- The new frame has a name, and what there was keeps its own. -/
theorem framedOnHeap {new : Env} (h : Represents ρ segs lo m r) (htaken : taken ≤ r.operands.size)
    (extra : Nat) (hnew : EnvAgree ρ new r.env) :
    ∃ σ, ρ ≤ σ ∧ Represents σ segs (m.sp - taken)
      (m.framedOnHeap taken (List.replicate extra .unbound) new) (r.framed taken extra) := by
  have hsp := h.sp
  have hσ : ρ ≤ ρ.addFrame r.heap.frames.size m.heap.frames.size h.heap.frame_fresh :=
    Naming.le_addFrame h.heap.frame_size
  have hcap : (m.framedOnHeap taken (List.replicate extra .unbound) new).capacity = m.capacity := by
    simp [Machine.framedOnHeap, capacity]
  have hframe := h.frameAgree_framedOnHeap htaken extra hnew
  refine ⟨_, hσ,
    { h with
      acc := h.acc.mono hσ
      literals := h.literals.mono fun _ _ h => h.mono hσ
      globals := fun name => optionRel_mono (h.globals name) hσ
      heap := h.heap.pushFrame.nameFrame h.heap.frame_size (by simp) hframe
      sp := rfl
      room := ((Nat.sub_le ..).trans h.room).trans_eq hcap.symm
      least := h.least.trans_eq hcap.symm
      base := le_rfl
      operands := .empty
      known := fun v hv => ?_
      stacked := ?_
      bp := fun _ => le_rfl
      frames_le := fun _ start count j hm => ?_
      env := .agree (.onHeap Naming.addFrame_frame_self)
      cont := h.cont.of_le hσ
      fresh := h.fresh
      slack := le_max_left (m.sp - taken) m.cont.top }⟩
  · rcases Cells.mem_clear hv with rfl | hv
    · exact ⟨_, .nil⟩
    · exact (h.known v hv).mono hσ
  · refine Stacked.mono (h.stacked_congr hσ (fun j hj hn => ?_)
      (fun i hi => Cells.getElem?_clear_lt (by omega)) (.push _ _) (.refl _) (.refl _)) (by omega)
    rw [Naming.addFrame_frame_ne (by omega), hn]
  · have := h.stacked.top_le_of_mem hm
    rw [Segment.top_frame] at this
    change start + count + 3 ≤ m.sp - taken
    omega

theorem heapFramed (h : Represents ρ segs lo m r) (htaken : taken ≤ r.operands.size) (extra : Nat) :
    ∃ σ m', pushHeapFrame taken extra m = .ok () m' ∧ ρ ≤ σ ∧
      Represents σ segs (m.sp - taken) m' (r.framed taken extra) := by
  obtain ⟨σ, new, m₁, hm₁, hρ, hnew, henv, h₁, -⟩ := h.promoteCurrent
  obtain ⟨τ, hτ, hframed⟩ := h₁.framedOnHeap htaken extra hnew
  have heq : m₁.sp = m.sp := h₁.sp.trans h.sp.symm
  have hsp := h₁.sp
  rw [heq] at hframed
  exact ⟨τ, _, pushHeapFrame_promoted hm₁ (by omega) h₁.room, hρ.trans hτ, hframed⟩

end Represents

theorem Represents.pushFrame (h : Represents ρ segs lo m r) (htaken : taken ≤ r.operands.size) :
    ∃ σ segs' lo' m', Machine.pushFrame taken extra m = .ok () m' ∧ ρ ≤ σ ∧
      Represents σ segs' lo' m' (r.framed taken extra) := by
  have hle : taken ≤ m.sp := by
    have := h.sp
    omega
  by_cases hroom : m.capacity < m.sp + extra + 3
  · obtain ⟨σ, m', hm', hρ, h'⟩ := h.heapFramed htaken extra
    refine ⟨σ, segs, _, m', ?_, hρ, h'⟩
    simp only [Machine.pushFrame, get_bind_apply, if_neg (Nat.not_lt.2 hle), if_pos hroom, hm']
  · exact ⟨ρ, _, _, _, pushFrame_room hle (by omega), le_rfl, h.framed htaken (by omega)⟩

/-! ## Slots -/

theorem Represents.writeLive (h : Represents ρ segs lo m r) {start count j index : Nat}
    {rest : List Segment} {parent : Env} {f : Frame} {v u : Value}
    (hs : .frame start count j :: rest <:+ segs)
    (hl : LiveAt ρ m.stack r.heap rest start count j parent f) (hi : index < count)
    (hv : Agree ρ v u) :
    Represents ρ segs lo { m with stack := m.stack.setIfInBounds (start + index) v }
      { r with
        heap.frames := r.heap.frames.modify j fun frame =>
          { frame with slots := frame.slots.setIfInBounds index u } } := by
  have hlo : start + count + 3 ≤ lo := (h.stacked.at_suffix hs).1
  have hcells {i : Nat} (hi : i ≠ start + index) :
      (m.stack.setIfInBounds (start + index) v)[i]? = m.stack[i]? :=
    Array.getElem?_setIfInBounds_ne (Ne.symm hi)
  exact
    { h with
      heap := h.heap.modifyFrame_of_none hl.unnamed
      room := by simpa [capacity] using h.room
      least := by simpa [capacity] using h.least
      operands := h.operands.congr fun i hi _ => hcells (by omega)
      known := by
        intro w hw
        rcases mem_setIfInBounds hw with rfl | hw
        · exact hv.known
        · exact h.known w hw
      stacked := by
        refine h.stacked.update hs (fun _ => ?_) fun s rs hss ho hseg => ?_
        · refine .inr ⟨parent, { f with slots := f.slots.setIfInBounds index u }, ?_⟩
          exact
            { hl with
              start_cell := by rw [hcells (by omega), hl.start_cell]
              count_cell := by rw [hcells (by omega), hl.count_cell]
              parent_cell := by rw [hcells (by omega), hl.parent_cell]
              frame := by simp [Array.getElem?_modify, hl.frame]
              size := by simpa using hl.size
              slots := hl.slots.set (by rwa [hl.size]) hv }
        · refine hseg.congr le_rfl (fun i hi hi' => hcells ?_) ?_ (.refl _) (.refl _)
          · simp only [Segment.start_frame, Segment.top_frame] at ho
            omega
          · rintro start' count' j' f' rfl hj' hf'
            have hne := hl.ne hseg hj' (ho.imp And.left And.left)
            exact ⟨hj', by rw [Array.getElem?_modify, if_neg hne.symm, hf']⟩ }

theorem Represents.writeHeap (h : Represents ρ segs lo m r) {j q index : Nat} {v u : Value}
    (hj : ρ.frame j = some q) (hv : Agree ρ v u) :
    Represents ρ segs lo
      { m with
        heap.frames := m.heap.frames.modify q fun frame =>
          { frame with slots := frame.slots.setIfInBounds index v } }
      { r with
        heap.frames := r.heap.frames.modify j fun frame =>
          { frame with slots := frame.slots.setIfInBounds index u } } :=
  { h with
    heap := h.heap.modifyFrame hj fun _ _ ha => ⟨ha.slots.set hv, ha.parent⟩
    stacked := by
      refine h.stacked.imp fun s rs _ hseg =>
        hseg.congr le_rfl (fun _ _ _ => rfl) ?_ (.refl _) (.refl _)
      rintro start' count' j' f' rfl hj' hf'
      have hne : j ≠ j' := by
        rintro rfl
        rw [hj'] at hj
        cases hj
      exact ⟨hj', by rw [Array.getElem?_modify, if_neg hne, hf']⟩ }

theorem Represents.writeSlot (h : Represents ρ segs lo m r) {before : HostCalls} {left : Bool}
    (hhosts : r.hosts.Since before False) (hleft : left = false → r.leaving = false) {v u : Value}
    (hv : Agree ρ v u) (depth index : Nat) :
    ResultAgree before left ρ
      (fun _ _ m' r' => Represents ρ segs lo m' r' ∧ r'.hosts = r.hosts ∧ r'.leaving = r.leaving)
      (Machine.writeSlot depth index v m) (HeapMachine.writeSlot depth index u r) := by
  have hi : InStep before left ρ m r := ⟨segs, lo, h, hhosts, hleft⟩
  refine .query_bind hi (h.slotsAt h.env depth) ?_
  rintro slots frame ⟨parent, hslots⟩
  cases hslots with
  | @onHeap j q f f' hj hf _ ha =>
    have hq : m.heap.frame ⟨q⟩ = .ok f := by
      rw [Heap.frame, hf]
      rfl
    simp only [writeHeapSlot]
    rw [query_bind_ok hq, ha.slots.1]
    split
    · exact .ok ⟨h.writeHeap hj hv, rfl, rfl⟩
    · exact .raise hi (.same _)
  | @onStack start count j rest _ f hs hl =>
    simp only [hl.size]
    split
    · next hlt =>
      have hcap : start + index < m.capacity := by
        have htop := (h.stacked.at_suffix hs).1
        have := h.sp
        have := h.room
        rw [Segment.top_frame] at htop
        omega
      rw [writeCell, if_pos hcap]
      exact .ok ⟨h.writeLive hs hl hlt hv, rfl, rfl⟩
    · exact .raise hi (.slotIndex _ _)

/-! ## Leaving -/

section Leaving

variable {start count j n : Nat} {rest : List Segment} {parent : Env} {f : Frame}

/-- If no pending continuation is younger than a frame, no return point lies above it. -/
theorem Represents.top_le_of_not_needed (h : Represents ρ segs lo m r)
    (hs : .frame start count j :: rest <:+ segs) (hn : r.isNeeded ⟨j⟩ = false) :
    m.cont.top ≤ start := by
  have hc := h.cont
  unfold HeapMachine.isNeeded at hn
  generalize m.cont = cont, r.cont = cont' at hc hn
  cases hc with
  | agree hc => cases hc <;> exact Nat.zero_le _
  | @onStack s c k hmem =>
    obtain ⟨rs, hs'⟩ := exists_suffix hmem
    rcases h.stacked.apart hs' hs with ⟨heq, -⟩ | ⟨-, htop⟩ | ⟨hbelow, -⟩
    · cases heq
    · exact htop
    · obtain ⟨-, ⟨p, c, hp⟩, -⟩ := h.stacked.at_suffix hs'
      obtain ⟨b, hb, -, hlt⟩ := hp.born
      have := hlt _ _ _ (mem_of_cons_suffix hbelow)
      simp only [hb, Option.elim_some, decide_eq_false_iff_not] at hn
      omega

/-- The cells of the frame are given back, and the last operands take their place. -/
theorem Represents.leaveLive (h : Represents ρ segs lo m r)
    (hs : .frame start count j :: rest <:+ segs)
    (hl : LiveAt ρ m.stack r.heap rest start count j parent f) (hn : n ≤ r.operands.size)
    (htop : m.cont.top ≤ start) :
    Represents ρ rest start
      { m with
        stack := Cells.slide m.stack start (m.sp - n) n
        sp := start + n
        env := parent }
      (r.leaveFor f.parent n) := by
  obtain ⟨hlo, -, hrest⟩ := h.stacked.at_suffix hs
  rw [Segment.top_frame] at hlo
  have hsp := h.sp
  have hroom := h.room
  have hsize : m.sp - n + n ≤ m.stack.size := by
    unfold capacity at hroom
    omega
  have hcells (i : Nat) (hi : i < start) :
      (Cells.slide m.stack start (m.sp - n) n)[i]? = m.stack[i]? := by
    rw [Cells.getElem?_slide (by omega) hsize, if_neg (by omega), if_neg (by omega)]
  have hlast := HeapMachine.size_lastOperands hn
  exact
    { h with
      sp := by simp [HeapMachine.leaveFor, hlast]
      room := by
        simp only [capacity, Cells.size_slide] at hroom ⊢
        omega
      least := by
        change r.demand.least ≤ _
        simpa [capacity] using h.least
      base := by
        have := h.base
        simp only [HeapMachine.leaveFor, Demand.bury]
        omega
      operands := by
        refine h.operands.last.shift fun i hi => ?_
        change i < (r.lastOperands n).size at hi
        rw [Cells.getElem?_slide (by omega) hsize, if_pos (by omega)]
        congr 1
        omega
      known := by
        intro v hv
        rcases mem_slide (by omega) hsize hv with rfl | hv
        · exact ⟨_, .nil⟩
        · exact h.known v hv
      stacked := hrest.congr_cells hcells
      bp := fun hl => by cases hl
      frames_le := fun hl => by cases hl
      env := hl.parent
      cont := by
        have hc := h.cont
        change ContOn ρ rest m.cont r.cont
        generalize m.cont = cont, r.cont = cont' at hc htop
        cases hc with
        | agree hc => exact .agree hc
        | @onStack s c k hmem =>
          obtain ⟨rs, hs'⟩ := exists_suffix hmem
          rcases h.stacked.apart hs' hs with ⟨heq, -⟩ | ⟨hbelow, -⟩ | ⟨-, habove⟩
          · cases heq
          · exact .onStack (mem_of_cons_suffix hbelow)
          · simp only [Segment.top_frame, Segment.start_point] at habove
            simp only [Cont.top] at htop
            omega
      fresh := fun start count k hm =>
        h.fresh start count k ((suffix_of_cons_suffix hs).mem hm)
      slack := by
        have := h.slack
        simp only [HeapMachine.leaveFor, Demand.bury]
        omega }

theorem Represents.leaveHeap (h : Represents ρ segs lo m r) {env env' : Env}
    (he : EnvOn ρ segs env env') (hn : n ≤ r.operands.size) :
    Represents ρ segs (m.sp - n) { m with env } (r.leaveFor env' n) := by
  have hsp := h.sp
  have hbase := h.base
  have hslack := h.slack
  have hlast := HeapMachine.size_lastOperands hn
  have h' : Represents ρ segs (m.sp - n) m { r with
      operands := r.lastOperands n
      leaving := true
      demand := r.demand.bury (r.operands.size - n) } :=
    h.above rfl (fun _ _ => rfl) h.known (by omega) (by rw [hlast]; omega) h.room
      (by
        have := h.operands.last (n := n)
        rwa [show lo + (r.operands.size - n) = m.sp - n by omega] at this)
      (fun hl => by cases hl) (fun hl => by cases hl) h.least
      (by simp only [Demand.bury]; omega) (by simp only [Demand.bury]; omega)
  exact { h' with env := he }

theorem reuseFrame_eq {slots : Slots} (hne : m.env ≠ .empty)
    (hm : m.innermost m.env = .ok (slots, parent)) :
    Machine.reuseFrame n m = (match slots with
      | .onHeap _ => modify ({ · with env := parent })
      | .onStack start _ =>
        if m.sp < n ∨ m.sp - n < start then raise .stackUnderflow
        else do
          slideCells start (m.sp - n) n
          modify ({ · with sp := start + n, env := parent }) : Exec Unit) m := by
  simp only [Machine.reuseFrame, get_bind_apply]
  rw [query_bind_ok hm]
  cases slots <;> rfl

theorem Represents.reuseFrame (h : Represents ρ segs lo m r) (hn : n ≤ r.operands.size)
    (htop : ∀ start count parent, m.innermost m.env = .ok (.onStack start count, parent) →
      m.cont.top ≤ start) :
    ∃ segs' lo' m' env, Machine.reuseFrame n m = .ok () m' ∧
      Represents ρ segs' lo' m' (r.leaveFor env n) ∧
      (r.env = .empty ∧ env = .empty ∨ ∃ j f, r.env = .onHeap j ∧ r.heap.frame j = .ok f ∧
        env = f.parent) := by
  have he := h.env
  cases hr : r.env with
  | onStack =>
    rw [hr] at he
    exact he.not_onStack.elim
  | empty =>
    rw [hr] at he
    have hm := he.eq_empty
    have hsame : { m with env := .empty } = m := by rw [← hm]
    refine ⟨segs, m.sp - n, m, .empty, ?_, ?_, .inl ⟨rfl, rfl⟩⟩
    · simp only [Machine.reuseFrame, get_bind_apply, hm]
      rfl
    · have := h.leaveHeap (.agree .empty) hn
      rwa [hsame] at this
  | onHeap j =>
    rw [hr] at he
    obtain ⟨slots, parent, f, hm, hf, hslots⟩ := h.innermost he
    have hp := hslots.parent
    have hne : m.env ≠ .empty := by
      intro hm
      rw [hm] at he
      cases he with
      | agree he => cases he
    have hrun := reuseFrame_eq (n := n) hne hm
    cases hslots with
    | onHeap =>
      exact ⟨segs, m.sp - n, _, f.parent, hrun, h.leaveHeap hp hn, .inr ⟨j, f, rfl, hf, rfl⟩⟩
    | @onStack start count _ rest _ _ hs hl =>
      have hlo := (h.stacked.at_suffix hs).1
      have hsp := h.sp
      have hroom := h.room
      rw [Segment.top_frame] at hlo
      have hslide : slideCells start (m.sp - n) n m =
          .ok () { m with stack := Cells.slide m.stack start (m.sp - n) n } :=
        if_pos ⟨by omega, by omega⟩
      refine ⟨rest, start, _, f.parent, ?_, h.leaveLive hs hl hn (htop start count parent hm),
        .inr ⟨j, f, rfl, hf, rfl⟩⟩
      rw [hrun]
      simp only
      rw [if_neg (by omega), bind_ok hslide]
      rfl

end Leaving

end LispMachine
