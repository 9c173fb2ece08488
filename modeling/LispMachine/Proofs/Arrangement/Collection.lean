import LispMachine.Proofs.Arrangement.Sharing

/-! # Collections cannot be noticed

A collection of the stack changes where frames and pending values are, and nothing else: every slot
reads as before, returns go on as before, and the activation that is kept has moved down to the
first cell. A second collection finds nothing to do.
-/

namespace LispMachine

/-- The error that a frame gives on the heap where it gave `s` on the stack. -/
def Stop.onHeap : Stop → Stop
  | .fault (.stackSlotIndex index count) => .fault (.heapSlotIndex index count)
  | s => s

namespace Machine

def readAt (m : Machine) (index : Nat) : Slots → Except Stop Value
  | .onStack start count =>
    if index < count then m.cell (start + index)
    else .error (.fault (.stackSlotIndex index count))
  | .onHeap r => m.readHeapSlot r index

/-- Slot `index` of the frame that is `depth` frames out from where a handle leads. -/
def readFrom (m : Machine) (env : Env) (depth index : Nat) : Except Stop Value :=
  m.slotsAt env depth >>= m.readAt index

def frameAt? (m : Machine) (env : Env) : Nat → Option Frame
  | 0 => m.frame? env
  | depth + 1 => do m.frameAt? (← m.frame? env).parent depth

def slotOf (index : Nat) : Option Frame → Except Stop Value
  | none => .error (.fault .depthExceeded)
  | some f => orFault (.heapSlotIndex index f.slots.size) f.slots[index]?

variable {m : Machine} {env : Env} {f : Frame}

theorem innermost_of_frame? (h : m.frame? env = some f) :
    (∃ r, m.innermost env = .ok (.onHeap r, f.parent) ∧ m.heap.frames[r.index]? = some f) ∨
    ∃ start count, m.innermost env = .ok (.onStack start count, f.parent) ∧
      f.slots = m.stack.extract start (start + count) ∧ start + count ≤ m.stack.size := by
  rw [frame?] at h
  rcases hi : m.innermost env with s | ⟨⟨start, count⟩ | r, parent⟩
  · rw [hi] at h
    cases h
  · rw [hi] at h
    cases h
    refine .inr ⟨start, count, rfl, rfl, ?_⟩
    cases env with
    | empty => cases hi
    | onHeap r =>
      rw [innermost_onHeap] at hi
      cases hf : m.heap.frame r with
      | error s =>
        rw [hf] at hi
        cases hi
      | ok f =>
        rw [hf] at hi
        cases hi
    | onStack e =>
      rw [innermost] at hi
      obtain ⟨d, hd, hi⟩ := except_bind_eq_ok hi
      cases d with
      | moved r =>
        obtain ⟨f, -, hi⟩ := except_bind_eq_ok hi
        cases hi
      | live start' count' parent' =>
        cases hi
        have := descriptor_bounds hd
        omega
  · rw [hi] at h
    obtain ⟨g, hg, rfl⟩ := exists_frame_of_innermost hi
    cases hg.symm.trans h
    exact .inl ⟨r, rfl, hg⟩

theorem readSlot_eq (depth index : Nat) :
    m.readSlot depth index = m.readFrom m.env depth index := by
  rw [readSlot, readFrom]
  congr 1

theorem readAt_onHeap {r : Ref .frame} (hf : m.heap.frames[r.index]? = some f) (index : Nat) :
    m.readAt index (.onHeap r) = slotOf index (some f) := by
  rw [readAt, readHeapSlot, Heap.frame, hf]
  rfl

theorem readFrom_succ (h : m.frame? env = some f) (depth index : Nat) :
    m.readFrom env (depth + 1) index = m.readFrom f.parent depth index := by
  have hi : ∃ slots, m.innermost env = .ok (slots, f.parent) := by
    rcases innermost_of_frame? h with ⟨r, hi, -⟩ | ⟨start, count, hi, -⟩
    · exact ⟨_, hi⟩
    · exact ⟨_, hi⟩
  obtain ⟨slots, hi⟩ := hi
  rw [readFrom, slotsAt, hi]
  rfl

/-- A frame that is still on the stack has an error of its own for an index that is too large. -/
theorem readFrom_zero (h : m.frame? env = some f) (index : Nat) :
    (m.readFrom env 0 index).mapError Stop.onHeap = slotOf index (some f) := by
  rw [readFrom, slotsAt]
  rcases innermost_of_frame? h with ⟨r, hi, hf⟩ | ⟨start, count, hi, hslots, hle⟩
  · rw [hi]
    change (m.readAt index (.onHeap r)).mapError Stop.onHeap = _
    rw [readAt_onHeap hf, slotOf]
    cases f.slots[index]? <;> rfl
  · have hsize : f.slots.size = count := by
      rw [hslots, Array.size_extract]
      omega
    rw [hi]
    change (m.readAt index (.onStack start count)).mapError Stop.onHeap = _
    rw [readAt, slotOf, hsize]
    by_cases hlt : index < count
    · rw [if_pos hlt, hslots, Array.getElem?_extract, if_pos (by omega), cell,
        Array.getElem?_eq_getElem (by omega)]
      rfl
    · rw [if_neg hlt, Array.getElem?_eq_none (by omega)]
      rfl

theorem slotOf_congr {A B : Machine} {R : Env → Env → Prop}
    (hR : ∀ a b, R a b → Option.Rel (fun f g => f.slots = g.slots ∧ R f.parent g.parent)
      (A.frame? a) (B.frame? b)) {a b : Env} (h : R a b) (depth index : Nat) :
    slotOf index (A.frameAt? a depth) = slotOf index (B.frameAt? b depth) := by
  induction depth generalizing a b with
  | zero =>
    have hf := hR a b h
    rw [frameAt?, frameAt?]
    generalize A.frame? a = x, B.frame? b = y at hf
    cases hf with
    | none => rfl
    | some hf => rw [slotOf, slotOf, hf.1]
  | succ depth ih =>
    have hf := hR a b h
    rw [frameAt?, frameAt?]
    generalize A.frame? a = x, B.frame? b = y at hf
    cases hf with
    | none => rfl
    | some hf => exact ih hf.2

end Machine

open Machine

variable {segs : List Segment} {target : Nat → Option Nat} {m w m' : Machine} {env env' : Env}

theorem Arranged.readFrom (hm : Arranged segs m) (he : EnvIn m.heap segs env) (depth index : Nat) :
    (m.readFrom env depth index).mapError Stop.onHeap = slotOf index (m.frameAt? env depth) := by
  induction depth generalizing env with
  | zero =>
    rcases hm.frame? he with rfl | ⟨f, hf, -⟩
    · rfl
    · rw [readFrom_zero hf, frameAt?, hf]
  | succ depth ih =>
    rcases hm.frame? he with rfl | ⟨f, hf, hp⟩
    · rfl
    · rw [readFrom_succ hf, ih hp, frameAt?, hf]
      rfl

/-- On the heap alone there are no errors of the stack. -/
theorem Heap.Linked.readFrom (hl : m.heap.Linked) (he : env.ClosedIn m.heap) (depth index : Nat) :
    m.readFrom env depth index = slotOf index (m.frameAt? env depth) := by
  induction depth generalizing env with
  | zero =>
    cases env with
    | empty => rfl
    | onStack => exact he.elim
    | onHeap r =>
      have hf := Array.getElem?_eq_getElem he
      rw [frameAt?, frame?_onHeap, Machine.readFrom, slotsAt, innermost, Heap.frame, hf]
      exact readAt_onHeap hf index
  | succ depth ih =>
    cases env with
    | empty => rfl
    | onStack => exact he.elim
    | onHeap r =>
      have hf := Array.getElem?_eq_getElem he
      have hframe : m.frame? (.onHeap r) = some m.heap.frames[r.index] := by rw [frame?_onHeap, hf]
      rw [readFrom_succ hframe, ih (hl.frames _ (Array.mem_of_getElem? hf)), frameAt?, hframe]
      rfl

/-- What has moved reads the same from the heap to which it has moved, whatever is in the cells. -/
theorem Moved.readFrom (hw : Moved segs target m w) (hm : Arranged segs m) (hl : w.heap.Linked)
    (hheap : m'.heap = w.heap) (he : EnvIn m.heap segs env) (hr : w.resolve env = .ok env')
    (hc : env'.ClosedIn w.heap) (depth index : Nat) :
    m'.readFrom env' depth index = (m.readFrom env depth index).mapError Stop.onHeap := by
  rw [hm.readFrom he, Heap.Linked.readFrom (hheap ▸ hl) (hheap ▸ hc)]
  refine (slotOf_congr (R := fun a b => EnvIn m.heap segs a ∧ w.resolve a = .ok b ∧
    b.ClosedIn w.heap) ?_ ⟨he, hr, hc⟩ depth index).symm
  rintro a b ⟨ha, hb, hcb⟩
  have hframe : m'.frame? b = w.frame? a := by
    rw [← frame?_resolve hb]
    cases b with
    | empty => rfl
    | onStack => exact hcb.elim
    | onHeap r => rw [frame?_onHeap, frame?_onHeap, hheap]
  have hparent {g : Frame} (hg : w.frame? a = some g) : g.parent.ClosedIn w.heap := by
    rw [← frame?_resolve hb] at hg
    cases b with
    | empty => cases hg
    | onStack => exact hcb.elim
    | onHeap r =>
      rw [frame?_onHeap] at hg
      exact hl.frames g (Array.mem_of_getElem? hg)
  have hrel := hw.frame?_rel hm ha
  rw [hframe]
  generalize m.frame? a = x, hy : w.frame? a = y at hrel
  cases hrel with
  | none => exact .none
  | some hfg =>
    obtain ⟨hslots, hin, hres⟩ := hfg
    have hclosed := hparent hy
    exact .some ⟨hslots, hin, hres.symm.trans (hclosed.resolve w), hclosed⟩

/-! ## The chain of continuations -/

/-- The second continuation takes the second machine where the first one takes the first: to the
same places in the code, with the same pending values, in frames that read the same. -/
inductive Retraced (m m' : Machine) : Cont → Cont → Prop
  | same {cont : Cont} : (∀ c, cont ≠ .onStack c) → Retraced m m' cont cont
  | point {c : Nat} {p : ReturnPoint} {k : Ref .continuation} {o : Continuation} :
    m.returnPoint c = .ok p → m'.heap.continuation k = .ok o → o.resume = .code p.ip →
    o.saved = m.stack.extract p.bp (c - 4) →
    (∀ depth index, m'.readFrom o.env depth index =
      (m.readFrom p.env depth index).mapError Stop.onHeap) →
    Retraced m m' p.prev o.prev → Retraced m m' (.onStack c) (.onHeap k)

theorem Copied.retraced {cont cont' : Cont} (hc : Copied w cont cont') (hw : Moved segs target m w)
    (hsp : w.sp = m.sp) (hm : Arranged segs m) (hl : w.heap.Linked) (hheap : m'.heap = w.heap)
    (hin : ContIn m.heap segs cont) : Retraced m m' cont cont' := by
  induction hc with
  | same hne => exact .same hne
  | @point c p k env prev owner hp hr hprev hk ih =>
    obtain ⟨start, count, id, rest, q, rfl, hs, hle, hq, hpoint⟩ := hm.pointIn hin
    have hpq := (hw.pointCells hm hs hpoint).returnPoint (by rwa [hsp])
    cases hpq.symm.trans hp
    have hrest := (suffix_of_cons_suffix hs).subset
    have henv := (hl.continuations _ (Heap.mem_of_continuation hk)).1
    refine .point hq (by rwa [hheap]) rfl ?_ (fun depth index => ?_)
      (ih (hpoint.prev.mono (.refl _) hrest))
    · rw [Nat.add_sub_cancel]
      exact hw.saved_eq hm hs hpoint
    · exact hw.readFrom hm hl hheap (hpoint.env.mono (.refl _) hrest) hr henv depth index

/-! ## Collecting twice -/

/-- With both registers on the heap and no cell below the activation, there is nothing to
collect. -/
theorem reclaim_of_closed (he : m.env.ClosedIn m.heap) (hc : m.cont.ClosedIn m.heap)
    (hbp : m.bp = 0) (hroom : m.sp ≤ m.capacity) : Machine.reclaim m = .ok () m := by
  have henv : promoteEnv m.env m = .ok m.env m := by
    refine promoteFrom_done ?_
    generalize m.env = env at he
    cases env with
    | onStack => exact he.elim
    | _ => cases m.capacity <;> rfl
  have hcont : promoteCont m.cont m = .ok m.cont m := by
    refine promotePoints_done ?_
    generalize m.cont = cont at hc
    cases cont with
    | onStack => exact hc.elim
    | _ => cases m.capacity <;> rfl
  have htop : m.cont.top = 0 := by
    cases hk : m.cont with
    | onStack => exact (hk ▸ hc : (Cont.onStack _).ClosedIn m.heap).elim
    | _ => rfl
  have hkept : m.kept = 0 := by
    rw [Machine.kept, hbp, htop]
    omega
  rw [reclaim_eq henv hcont (fun e h => ?_) (fun c h => ?_) rfl rfl hroom, if_pos hkept]
  · rw [h] at he
    exact he
  · rw [h] at hc
    exact hc

/-! ## The whole effect -/

theorem Arranged.top_le (hm : Arranged segs m) : m.cont.top ≤ m.sp := by
  cases hc : m.cont with
  | onStack c =>
    obtain ⟨-, -, -, -, -, -, -, hle, -⟩ := hm.pointIn (hc ▸ hm.cont)
    exact hle
  | _ => exact Nat.zero_le _

theorem WellLaid.stays (hm : WellLaid segs m) (hw : Moved segs target m w) {i : Nat}
    (hi : m.bp ≤ i) :
    w.stack[i]? = m.stack[i]? := by
  refine hw.stays i (hw.target_eq_none fun start count id hmem he => ?_)
  have := hm.frames_le start count id hmem
  omega

theorem Reclaimed.extract_eq (h : Reclaimed segs m m') (hm : WellLaid segs m) :
    m'.stack.extract 0 m'.sp = m.stack.extract m.kept m.sp := by
  obtain ⟨w, target, hw, -, hcol, -⟩ := h
  have hsize : m'.stack.size = m.stack.size := hcol.capacity
  have hsp := hcol.sp
  have hroom : m.sp ≤ m.stack.size := hm.room
  have hbp : m.bp ≤ m.kept := Nat.le_min.2 ⟨Nat.le_max_left .., hm.bp_le⟩
  refine Array.ext_getElem? fun i => ?_
  rw [Array.getElem?_extract, Array.getElem?_extract, hsize]
  by_cases hi : i < m'.sp
  · rw [if_pos (by omega), if_pos (by omega), Nat.zero_add, hcol.cells i hi]
    exact hm.stays hw (by omega)
  · rw [if_neg (by omega), if_neg (by omega)]

/-- After a collection the activation above its continuation is at the bottom of the stack and the
registers lead to the heap, where every slot reads and every return goes on as before. All else is
as it was, and collecting again changes nothing. -/
theorem WellLaid.collection_transparent (hm : WellLaid segs m) :
    ∃ m', Machine.reclaim m = .ok () m' ∧
      (∀ e, m'.env ≠ .onStack e) ∧ (∀ c, m'.cont ≠ .onStack c) ∧
      m'.sp + max m.bp m.cont.top = m.sp ∧ m'.bp = 0 ∧
      (∀ i < m'.sp, m'.stack[i]? = m.stack[max m.bp m.cont.top + i]?) ∧
      (∀ depth index, m'.readSlot depth index = (m.readSlot depth index).mapError Stop.onHeap) ∧
      Retraced m m' m.cont m'.cont ∧ m.heap.Grown m'.heap ∧ m'.capacity = m.capacity ∧
      m' = { m with
        stack := m'.stack, sp := m'.sp, bp := m'.bp, env := m'.env, cont := m'.cont,
          heap := m'.heap } ∧
      Machine.reclaim m' = .ok () m' := by
  obtain ⟨m', hrun, w, target, hw, hsp, hcol, harr⟩ := hm.toArranged.reclaim
  have hle : max m.bp m.cont.top ≤ m.sp := Nat.max_le.2 ⟨hm.bp_le, hm.top_le⟩
  have hkept : m.kept = max m.bp m.cont.top := Nat.min_eq_left hle
  have hsp' := hcol.sp
  have hbp' := hcol.bp hm.bp_le
  rw [hkept] at hsp' hbp'
  have hbp : m'.bp = 0 := by omega
  have henv : m'.env.ClosedIn m'.heap := harr.env.closed_of_nil
  have hcont : m'.cont.ClosedIn m'.heap := harr.cont.closed_of_nil
  have hlinked : w.heap.Linked := hcol.heap ▸ harr.linked
  refine ⟨m', hrun, fun e he => ?_, fun c hc => ?_, by omega, hbp, fun i hi => ?_,
    fun depth index => ?_, hcol.cont.retraced hw hsp hm.toArranged hlinked hcol.heap hm.cont,
    hcol.heap ▸ hw.heap, hcol.capacity, ?_, reclaim_of_closed henv hcont hbp harr.room⟩
  · rw [he] at henv
    exact henv
  · rw [hc] at hcont
    exact hcont
  · rw [hcol.cells i hi, hkept]
    exact hm.stays hw (by omega)
  · rw [readSlot_eq, readSlot_eq]
    exact hw.readFrom hm.toArranged hlinked hcol.heap hm.env hcol.env (hcol.heap ▸ henv) depth index
  · rw [hcol.heap]
    exact hcol.rest

/-- The value above the return point becomes the first one, and the slots are read on the heap. -/
theorem Machine.insideCall_collection :
    WellLaid [.point 5 1 0, .frame 0 2 0] insideCall ∧
    ∃ m', reclaim insideCall = .ok () m' ∧ m'.sp = 1 ∧ m'.stack[0]? = some (.fixnum 3) ∧
      m'.readSlot 0 0 = .ok (.fixnum 1) ∧
      m'.readSlot 0 2 = .error (.fault (.heapSlotIndex 2 2)) ∧ reclaim m' = .ok () m' := by
  obtain ⟨m', hrun, -, -, hsp, -, hcells, hslots, -, -, -, -, hagain⟩ :=
    insideCall_wellLaid.collection_transparent
  have hsp : m'.sp = 1 := by
    change m'.sp + 10 = 11 at hsp
    omega
  refine ⟨insideCall_wellLaid, m', hrun, hsp, (hcells 0 (by omega)).trans (by decide),
    (hslots 0 0).trans rfl, (hslots 0 2).trans rfl, hagain⟩

end LispMachine
