import LispMachine.Proofs.Arrangement.Collection

/-! # Building a frame

The values on top become the first slots of a new frame, which is a segment of its own or an object.
What lies below them stays as it was. Only if the frame is built on the heap, the frames around it
move there first.
-/

namespace LispMachine

open Machine

theorem Cells.setIfInBounds_write_lt {stack : Array Value} {lo i : Nat} {vs : List Value}
    {v : Value} (hi : i < lo) :
    (write stack lo vs).setIfInBounds i v = write (stack.setIfInBounds i v) lo vs := by
  induction vs generalizing stack lo with
  | nil => simp
  | cons u vs ih =>
    rw [write_cons, write_cons, ih (by omega), Array.setIfInBounds_comm _ _ (by omega)]

theorem Cells.setIfInBounds_write {stack : Array Value} {lo : Nat} {us vs : List Value}
    {u v : Value} :
    (write stack lo (us ++ u :: vs)).setIfInBounds (lo + us.length) v =
      write stack lo (us ++ v :: vs) := by
  rw [write_append, write_append, write_cons, write_cons,
    setIfInBounds_write_lt (Nat.lt_succ_self _), Array.setIfInBounds_setIfInBounds]

variable {segs : List Segment} {target : Nat → Option Nat} {m w m' : Machine} {taken extra lo : Nat}
  {tail : List Value} {parent new env : Env}

/-- A frame was built in one of the two places. -/
inductive Built (segs : List Segment) (m : Machine) (taken : Nat) (tail : List Value) :
    Machine → Prop
  | onStack : m.sp + tail.length + 3 ≤ m.capacity →
    Built segs m taken tail (m.framedWith taken tail)
  | onHeap {target : Nat → Option Nat} {w : Machine} {parent : Env} : Moved segs target m w →
    SameRegisters m w → Arranged segs w → parent.ClosedIn w.heap → w.resolve m.env = .ok parent →
    w.heap.continuations = m.heap.continuations →
    Built segs m taken tail (w.framedOnHeap taken tail parent)

theorem pushHeapFrame_eq (hw : promoteEnv m.env m = .ok parent w) (hregs : SameRegisters m w)
    (htaken : taken ≤ m.sp) (hroom : w.sp ≤ w.capacity) :
    pushHeapFrame taken extra m =
      .ok () (w.framedOnHeap taken (List.replicate extra .unbound) parent) := by
  have hcurrent : promoteCurrent m = .ok parent { w with env := parent } := by
    simp only [promoteCurrent, get_bind_apply]
    rw [bind_ok hw]
    rfl
  exact pushHeapFrame_promoted (w := { w with env := parent }) hcurrent
    (htaken.trans_eq hregs.sp.symm) hroom

/-- There is nothing that keeps a frame from being built. -/
theorem Arranged.pushFrame_built (hm : Arranged segs m) (htaken : taken ≤ m.sp) (extra : Nat) :
    ∃ m', Machine.pushFrame taken extra m = .ok () m' ∧
      Built segs m taken (List.replicate extra .unbound) m' := by
  by_cases hroom : m.sp + extra + 3 ≤ m.capacity
  · refine ⟨_, pushFrame_room htaken hroom, ?_⟩
    rw [framed_eq_framedWith]
    exact .onStack (by rwa [List.length_replicate])
  · obtain ⟨parent, w, target, hw, hmoved, hregs, harr, hparent, hres, hsame⟩ :=
      hm.promoteEnv hm.env
    refine ⟨_, ?_, .onHeap hmoved hregs harr hparent hres hsame⟩
    simp only [Machine.pushFrame, get_bind_apply, if_neg (Nat.not_lt.2 htaken),
      if_pos (Nat.not_le.1 hroom)]
    exact pushHeapFrame_eq hw hregs htaken harr.room

/-! ## The slots -/

theorem Cells.toList_extract_take (stack : Array Value) {lo mid hi : Nat} (h : mid ≤ hi) :
    (stack.extract lo mid).toList = (stack.extract lo hi).toList.take (mid - lo) := by
  rw [Array.toList_extract, Array.toList_extract, List.extract_eq_take_drop,
    List.extract_eq_take_drop, List.take_take, Nat.min_eq_left (Nat.sub_le_sub_right h lo)]

theorem Cells.extract_write_append {stack : Array Value} {lo hi : Nat} {us vs : List Value}
    (hlo : lo ≤ hi) (hroom : hi + (us ++ vs).length ≤ stack.size) :
    (write stack hi (us ++ vs)).extract lo (hi + us.length) =
      stack.extract lo hi ++ us.toArray := by
  rw [List.length_append] at hroom
  have hsize : (stack.extract lo hi).size = hi - lo := by
    rw [Array.size_extract]
    omega
  refine Array.ext_getElem? fun i => ?_
  have hus (i : Nat) : us.toArray[i]? = us[i]? := List.getElem?_toArray ..
  rw [Array.getElem?_extract, size_write, Array.getElem?_append, hsize, Array.getElem?_extract, hus]
  by_cases hi' : i < hi - lo
  · rw [if_pos (by omega), if_pos hi', if_pos (by omega), getElem?_write_lt (by omega)]
  · rw [if_neg hi']
    by_cases hus : i - (hi - lo) < us.length
    · rw [if_pos (by omega), show lo + i = hi + (i - (hi - lo)) by omega,
        getElem?_write (by rw [List.length_append]; omega) (by rw [List.length_append]; omega),
        List.getElem?_append_left hus]
    · rw [if_neg (by omega), List.getElem?_eq_none (by omega)]

theorem framedWith_frame? (htaken : taken ≤ m.sp) (hroom : m.sp + tail.length + 3 ≤ m.capacity) :
    (m.framedWith taken tail).frame? (m.framedWith taken tail).env =
      some ⟨m.stack.extract (m.sp - taken) m.sp ++ tail.toArray, m.env⟩ := by
  have hframe := frame?_live (framedWith_frameCells htaken hroom)
  have he : m.sp - taken + (taken + tail.length) = m.sp + tail.length := by omega
  rw [he] at hframe
  refine hframe.trans ?_
  congr 2
  exact Cells.extract_write_append (Nat.sub_le ..) (by rw [List.length_append]; exact hroom)

theorem framedOnHeap_frame? :
    (m.framedOnHeap taken tail parent).frame? (m.framedOnHeap taken tail parent).env =
      some ⟨m.stack.extract (m.sp - taken) m.sp ++ tail.toArray, parent⟩ := by
  change (m.framedOnHeap taken tail parent).frame? (.onHeap ⟨m.heap.frames.size⟩) = _
  rw [frame?_onHeap]
  exact Array.getElem?_push_size

theorem modify_push_size {α : Type} (xs : Array α) (a : α) (f : α → α) :
    (xs.push a).modify xs.size f = xs.push (f a) := by
  grind

/-- Overwriting the last slot gives what building the frame with another last slot gives. -/
theorem Built.writeLast {u : Value} (h : Built segs m taken (tail ++ [u]) m')
    (htaken : taken ≤ m.sp) (v : Value) :
    ∃ m'', writeSlot 0 (taken + tail.length) v m' = .ok () m'' ∧
      Built segs m taken (tail ++ [v]) m'' := by
  have hlen (v : Value) : (tail ++ [v]).length = tail.length + 1 := List.length_append
  cases h with
  | onStack hfit =>
    have hcells := framedWith_frameCells htaken hfit
    have hslots :
        (m.framedWith taken (tail ++ [u])).slotsAt (m.framedWith taken (tail ++ [u])).env 0 =
        .ok (.onStack (m.sp - taken) (taken + (tail ++ [u]).length)) := by
      have hd := hcells.descriptor
      rw [show m.sp - taken + (taken + (tail ++ [u]).length) = m.sp + (tail ++ [u]).length by omega]
        at hd
      rw [slotsAt]
      change (do return (← (m.framedWith taken (tail ++ [u])).innermost
        (.onStack (m.sp + (tail ++ [u]).length))).1) = _
      rw [innermost, hd]
      rfl
    have hwrite : writeSlot 0 (taken + tail.length) v (m.framedWith taken (tail ++ [u])) =
        .ok () (m.framedWith taken (tail ++ [v])) := by
      have hstack : (m.framedWith taken (tail ++ [u])).stack.setIfInBounds
          (m.sp - taken + (taken + tail.length)) v = (m.framedWith taken (tail ++ [v])).stack := by
        rw [show m.sp - taken + (taken + tail.length) = m.sp + tail.length by omega]
        simp only [framedWith, hlen, List.append_assoc, List.singleton_append]
        exact Cells.setIfInBounds_write
      rw [hlen] at hfit
      have hcap :
          m.sp - taken + (taken + tail.length) < (m.framedWith taken (tail ++ [u])).capacity := by
        simp only [framedWith, capacity, Cells.size_write] at hfit ⊢
        omega
      rw [writeSlot, query_bind_ok hslots]
      simp only [hlen, ← Nat.add_assoc taken, if_pos (Nat.lt_succ_self _)]
      rw [writeCell, if_pos hcap, hstack]
      simp only [framedWith, hlen]
    exact ⟨_, hwrite, .onStack (by rwa [hlen] at hfit ⊢)⟩
  | @onHeap target w parent hmoved hregs harr hparent hres hsame =>
    have hsp := hregs.sp
    have hsize : (w.stack.extract (w.sp - taken) w.sp).size = taken := by
      have := harr.room
      simp only [capacity] at this
      rw [Array.size_extract]
      omega
    have hframe : (w.framedOnHeap taken (tail ++ [u]) parent).heap.frame ⟨w.heap.frames.size⟩ =
        .ok ⟨w.stack.extract (w.sp - taken) w.sp ++ (tail ++ [u]).toArray, parent⟩ := by
      rw [Heap.frame]
      simp only [framedOnHeap, Array.getElem?_push_size]
      rfl
    have hslots : (w.framedOnHeap taken (tail ++ [u]) parent).slotsAt
        (w.framedOnHeap taken (tail ++ [u]) parent).env 0 = .ok (.onHeap ⟨w.heap.frames.size⟩) := by
      rw [slotsAt]
      change (do return (← (w.framedOnHeap taken (tail ++ [u]) parent).innermost
        (.onHeap ⟨w.heap.frames.size⟩)).1) = _
      rw [innermost, hframe]
      rfl
    refine ⟨_, ?_, .onHeap hmoved hregs harr hparent hres hsame⟩
    rw [writeSlot, query_bind_ok hslots]
    simp only [writeHeapSlot]
    rw [query_bind_ok hframe]
    have hlt : taken + tail.length <
        (w.stack.extract (w.sp - taken) w.sp ++ (tail ++ [u]).toArray).size := by
      rw [Array.size_append, hsize, List.size_toArray, hlen]
      omega
    have hset : (w.stack.extract (w.sp - taken) w.sp ++ (tail ++ [u]).toArray).setIfInBounds
        (taken + tail.length) v = w.stack.extract (w.sp - taken) w.sp ++ (tail ++ [v]).toArray := by
      nth_rewrite 2 [← hsize]
      simp
    simp only [if_pos hlt, modify_apply, framedOnHeap, modify_push_size, hset]

/-! ## What both ways have in common -/

/-- What was below position `lo` is there, but for frames that have moved to the heap. -/
def KeptBelow (segs : List Segment) (lo : Nat) (m m' : Machine) : Prop :=
  ∃ w target, Moved segs target m w ∧ Arranged segs { w with sp := lo } ∧ w.heap.Grown m'.heap ∧
    m'.capacity = m.capacity ∧ ∀ i < lo, m'.stack[i]? = w.stack[i]?

/-- A frame with these slots was built, inside the environment that was current, from cells above
position `lo`. -/
structure Framed (segs : List Segment) (lo : Nat) (slots : Array Value) (m m' : Machine) :
    Prop where
  rest : m' = { m with
    stack := m'.stack, sp := m'.sp, bp := m'.bp, env := m'.env, heap := m'.heap }
  bp : m'.bp = m'.sp
  keptBelow : KeptBelow segs lo m m'
  continuations : m'.heap.continuations = m.heap.continuations
  arranged : ∃ segs', Arranged segs' m' ∧ segs ⊆ segs' ∧ ∀ s ∈ segs', s ∈ segs ∨ s.isFrame = true
  frame : ∃ parent, m'.frame? m'.env = some ⟨slots, parent⟩ ∧ EnvIn m'.heap segs parent ∧
    m'.resolve parent = m'.resolve m.env

theorem Moved.stays_above (h : Moved segs target m w) (hm : Arranged segs { m with sp := lo })
    {i : Nat} (hi : lo ≤ i) : w.stack[i]? = m.stack[i]? := by
  refine h.stays i (h.target_eq_none fun start count id hmem he => ?_)
  have htop := hm.stacked.top_le_of_mem hmem
  rw [Segment.top_frame] at htop
  change start + count + 3 ≤ lo at htop
  omega

theorem Moved.arranged_below (h : Moved segs target m w) (hregs : SameRegisters m w)
    (hm : Arranged segs { m with sp := lo }) (hl : w.heap.Linked) :
    Arranged segs { w with sp := lo } :=
  Moved.arranged (m := { m with sp := lo }) (w := { w with sp := lo }) { h with }
    (by rw [hregs]; rfl) hm hl

theorem Arranged.raise (hm : Arranged segs { m with sp := lo }) (hlo : lo ≤ m.sp)
    (hroom : m.sp ≤ m.capacity) : Arranged segs m :=
  { hm with room := hroom, stacked := hm.stacked.mono hlo }

theorem Arranged.framedWith (hm : Arranged segs { m with sp := m.sp - taken })
    (htaken : taken ≤ m.sp) (hroom : m.sp + tail.length + 3 ≤ m.capacity) :
    Arranged (.frame (m.sp - taken) (taken + tail.length) 0 :: segs) (m.framedWith taken tail) where
  room := by simpa [Machine.framedWith, capacity] using hroom
  stacked := by
    refine ⟨?_, .inr ⟨m.env, framedWith_frameCells htaken hroom, hm.env⟩, ?_⟩
    · change m.sp - taken + (taken + tail.length) + 3 ≤ m.sp + tail.length + 3
      omega
    · refine hm.stacked.congr_below (fun i hi => Cells.getElem?_write_lt ?_) (.refl _)
      change i < m.sp - taken at hi
      omega
  env := by
    have : EnvIn m.heap (.frame (m.sp - taken) (taken + tail.length) 0 :: segs)
      (.onStack (m.sp - taken + (taken + tail.length))) := .onStack List.mem_cons_self
    rwa [show m.sp - taken + (taken + tail.length) = m.sp + tail.length by omega] at this
  cont := hm.cont.mono (.refl _) (List.subset_cons_self ..)
  linked := hm.linked

theorem Arranged.framedOnHeap (hm : Arranged segs { m with sp := m.sp - taken })
    (hp : parent.ClosedIn m.heap) : Arranged segs (m.framedOnHeap taken tail parent) where
  room := by simpa [Machine.framedOnHeap, capacity] using hm.room
  stacked := by
    refine hm.stacked.congr_below (fun i hi => Cells.getElem?_clear_lt ?_) (.pushFrame _)
    exact hi
  env := .closed (by simp [Env.ClosedIn, Machine.framedOnHeap])
  cont := hm.cont.mono (.pushFrame _) (List.Subset.refl _)
  linked := hm.linked.pushFrame hp

theorem Built.framed (h : Built segs m taken tail m')
    (hm : Arranged segs { m with sp := m.sp - taken }) (htaken : taken ≤ m.sp) :
    Framed segs (m.sp - taken) (m.stack.extract (m.sp - taken) m.sp ++ tail.toArray) m m' := by
  cases h with
  | onStack hfit =>
    refine
      { rest := rfl
        bp := rfl
        keptBelow :=
          ⟨m, _, .refl segs m, hm, .refl _, by simp [framedWith, capacity], fun i hi => ?_⟩
        continuations := rfl
        arranged := ⟨_, hm.framedWith htaken hfit, List.subset_cons_self .., fun s hs => ?_⟩
        frame := ⟨m.env, framedWith_frame? htaken hfit, hm.env, rfl⟩ }
    · exact Cells.getElem?_write_lt (by omega)
    · rcases List.mem_cons.1 hs with rfl | hs
      · exact .inr rfl
      · exact .inl hs
  | @onHeap target w parent hmoved hregs harr hparent hres hsame =>
    have hsp := hregs.sp
    have hw : Arranged segs { w with sp := w.sp - taken } := by
      rw [hsp]
      exact hmoved.arranged_below hregs hm harr.linked
    have hslots : w.stack.extract (w.sp - taken) w.sp = m.stack.extract (m.sp - taken) m.sp := by
      rw [hsp]
      exact Moved.extract_eq hmoved.size fun i hi _ => hmoved.stays_above hm hi
    refine
      { rest := ?_
        bp := rfl
        keptBelow := ⟨w, target, hmoved, hsp ▸ hw, .pushFrame _, ?_, fun i hi => ?_⟩
        continuations := hsame
        arranged := ⟨segs, hw.framedOnHeap hparent, List.Subset.refl _, fun s hs => .inl hs⟩
        frame := ⟨parent, ?_, .closed (hparent.mono (.pushFrame _)), ?_⟩ }
    · rw [framedOnHeap, hregs]
    · simpa [framedOnHeap, capacity] using hmoved.size
    · exact Cells.getElem?_clear_lt (by omega)
    · rw [framedOnHeap_frame?, hslots]
    · refine (hparent.resolve _).trans (Eq.symm ?_)
      refine (hw.resolve_eq (hm.env.mono hmoved.heap (List.Subset.refl _)) fun i hi => ?_).trans
        hres
      exact Cells.getElem?_clear_lt hi

/-! ## What lasts -/

/-- A cell below `hi` that has changed is the position of a frame that has moved. There stands where
it has gone, with its slots and inside the environment in which it was. -/
def Forwarded (segs : List Segment) (hi : Nat) (m m' : Machine) : Prop :=
  ∀ i < hi, m'.stack[i]? = m.stack[i]? ∨ ∃ start count id parent q new,
    .frame start count id ∈ segs ∧ i = start + count ∧ FrameCells m.stack start count parent ∧
    m'.stack[i]? = some (.frame ⟨q⟩) ∧ m'.heap.frames[q]? = some ⟨m.stack.extract start i, new⟩ ∧
    m'.resolve parent = .ok new

theorem KeptBelow.forwarded (h : KeptBelow segs lo m m') (hm : Arranged segs { m with sp := lo }) :
    Forwarded segs lo m m' := by
  obtain ⟨w, target, hmoved, hw, hgrown, -, hcells⟩ := h
  intro i hi
  cases ht : target i with
  | none => exact .inl ((hcells i hi).trans (hmoved.stays i ht))
  | some q =>
    obtain ⟨start, count, id, parent, new, hmem, rfl, hf, hq, hnew, hres⟩ := hmoved.source i q ht
    refine .inr ⟨start, count, id, parent, q, new, hmem, rfl, hf,
      (hcells _ hi).trans (hmoved.gone _ q ht), hgrown.frames _ _ hq, ?_⟩
    obtain ⟨start', count', id', rest, heq, hs, -, hseg⟩ := hm.frameIn (.onStack hmem)
    rcases hseg with ⟨q', hq', -⟩ | ⟨parent', hf', hp⟩
    · rw [hf.start_cell] at hq'
      cases hq'
    · obtain ⟨-, -, rfl⟩ := hf.unique hf' heq
      have hin : EnvIn w.heap segs parent := hp.mono hmoved.heap (suffix_of_cons_suffix hs).subset
      exact (hw.resolve_eq hin hcells).trans hres

theorem KeptBelow.frame?_rel (h : KeptBelow segs lo m m') (hm : Arranged segs { m with sp := lo })
    (he : EnvIn m.heap segs env) :
    Option.Rel (fun f g => f.slots = g.slots ∧ EnvIn m.heap segs f.parent ∧
      m'.resolve g.parent = m'.resolve f.parent) (m.frame? env) (m'.frame? env) := by
  obtain ⟨w, target, hmoved, hw, hgrown, hcap, hcells⟩ := h
  have hew : EnvIn w.heap segs env := he.mono hmoved.heap (List.Subset.refl _)
  have hframe : m'.frame? env = w.frame? env :=
    hw.frame?_eq hew (hcap.trans hmoved.size.symm) hcells hgrown.frames
  have hrel : Option.Rel _ (m.frame? env) (w.frame? env) :=
    Moved.frame?_rel (m := { m with sp := lo }) { hmoved with } hm he
  rw [hframe]
  rcases hw.frame? hew with rfl | ⟨g, hg, hin⟩
  · exact .none
  · change w.frame? env = some g at hg
    rw [hg] at hrel ⊢
    generalize m.frame? env = x at hrel
    cases hrel with
    | some hfg =>
      obtain ⟨hslots, hf, hres⟩ := hfg
      refine .some ⟨hslots, hf, ?_⟩
      rw [hw.resolve_eq hin hcells, hw.resolve_eq (hf.mono hmoved.heap (List.Subset.refl _)) hcells]
      exact hres

namespace Framed

variable {slots : Array Value}

theorem readSlot_zero (h : Framed segs lo slots m m') (index : Nat) :
    (m'.readSlot 0 index).toOption = slots[index]? := by
  obtain ⟨parent, hf, -⟩ := h.frame
  rw [toOption_readSlot, slot?, hf]
  rfl

/-- From the new frame one gets out to where one was. -/
theorem readSlot_succ (h : Framed segs lo slots m m') (hlo : Arranged segs { m with sp := lo })
    (hm : Arranged segs m) (depth index : Nat) :
    (m'.readSlot (depth + 1) index).mapError Stop.onHeap =
      (m.readSlot depth index).mapError Stop.onHeap := by
  obtain ⟨parent, hf, hin, hres⟩ := h.frame
  obtain ⟨segs', hm', hsub, -⟩ := h.arranged
  rw [readSlot_eq, readSlot_eq, readFrom_succ hf, hm.readFrom hm.env depth index,
    hm'.readFrom (hin.mono (.refl _) hsub) depth index]
  refine (slotOf_congr (R := fun a b => EnvIn m.heap segs a ∧ m'.resolve b = m'.resolve a) ?_
    ⟨hm.env, hres⟩ depth index).symm
  rintro a b ⟨ha, hb⟩
  rw [frame?_congr hb]
  exact h.keptBelow.frame?_rel hlo ha

end Framed

end LispMachine
