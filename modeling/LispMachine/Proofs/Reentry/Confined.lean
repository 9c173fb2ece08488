import LispMachine.Proofs.Control.Protocol
import LispMachine.Proofs.Layout.Steps
import LispMachine.Proofs.Programs.Operations

/-! # Operations that keep to the upper part of the stack

If all that a machine refers to on its stack lies above some position, and it takes nothing from
below, then its operations leave the cells below as they are. They must not collect, since a
collection moves what it keeps to the first cell.
-/

namespace LispMachine

open Machine

variable {α β : Type} {lo : Nat} {cells : Array Value} {segs : List Segment} {m m' : Machine}

namespace Machine

/-- The segments begin at position `lo` or above it, and the frames lie below the base. -/
structure LaidAbove (lo : Nat) (segs : List Segment) (m : Machine) :
    Prop extends Arranged segs m where
  above : ∀ s ∈ segs, lo ≤ s.start
  frames_le : ∀ start count id, .frame start count id ∈ segs → start + count + 3 ≤ m.bp

/-- All that the machine refers to on its stack lies above position `lo`, and below there are these
cells. -/
structure Confined (lo : Nat) (cells : Array Value) (m : Machine) : Prop where
  lo_le : lo ≤ m.sp
  size : m.stack.size = cells.size
  below : ∀ i < lo, m.stack[i]? = cells[i]?
  laid : ∃ segs, LaidAbove lo segs m

structure OffStack (m : Machine) : Prop where
  env : m.env.ClosedIn m.heap
  cont : m.cont.ClosedIn m.heap

/-- What may be taken lies above this position: above the return point that is the current
continuation, the descriptor of the current frame, and position `lo`. -/
def ground (lo : Nat) (m : Machine) : Nat := max (max m.cont.top m.env.top) lo

end Machine

inductive Confines (lo : Nat) (cells : Array Value) (Q : α → Machine → Prop) :
    EStateM.Result Stop Machine α → Prop
  | ok {a : α} {m : Machine} : m.Confined lo cells → Q a m → Confines lo cells Q (.ok a m)
  | error {s : Stop} {m : Machine} : m.Confined lo cells → Confines lo cells Q (.error s m)

abbrev RemainsAbove (lo : Nat) (cells : Array Value) (r : EStateM.Result Stop Machine α) : Prop :=
  Confines lo cells (fun _ _ => True) r

namespace Confines

variable {Q : α → Machine → Prop} {R : β → Machine → Prop} {x : Exec α} {f : α → Exec β}

theorem bind (hx : Confines lo cells Q (x m))
    (hf : ∀ a m', m'.Confined lo cells → Q a m' → Confines lo cells R (f a m')) :
    Confines lo cells R ((x >>= f) m) := by
  generalize hr : x m = r at hx
  cases hx with
  | ok hm hq =>
    rw [bind_ok hr]
    exact hf _ _ hm hq
  | error hm =>
    rw [bind_error hr]
    exact .error hm

theorem imp {Q' : α → Machine → Prop} {r : EStateM.Result Stop Machine α}
    (h : Confines lo cells Q r) (hq : ∀ a m, Q a m → Q' a m) : Confines lo cells Q' r := by
  cases h with
  | ok hm h => exact .ok hm (hq _ _ h)
  | error hm => exact .error hm

theorem remains {r : EStateM.Result Stop Machine α} (h : Confines lo cells Q r) :
    RemainsAbove lo cells r :=
  h.imp fun _ _ _ => trivial

end Confines

namespace Machine.Confined

/-! ## Changing a machine -/

theorem change (hm : m.Confined lo cells) (segs : List Segment) (hlaid : LaidAbove lo segs m')
    (hlo : lo ≤ m'.sp) (hsize : m'.stack.size = m.stack.size)
    (hbelow : ∀ i < lo, m'.stack[i]? = m.stack[i]?) : m'.Confined lo cells :=
  ⟨hlo, hsize.trans hm.size, fun i hi => (hbelow i hi).trans (hm.below i hi), segs, hlaid⟩

theorem detach (hm : m.Confined lo cells) (hd : m'.OffStack) (hl : m'.heap.Linked)
    (hlo : lo ≤ m'.sp) (hroom : m'.sp ≤ m'.capacity) (hsize : m'.stack.size = m.stack.size)
    (hbelow : ∀ i < lo, m'.stack[i]? = m.stack[i]?) : m'.Confined lo cells := by
  refine hm.change [] ⟨.of_closed hroom hd.env hd.cont hl, ?_, ?_⟩ hlo hsize hbelow
  · intro s hs
    cases hs
  · intro start count id hs
    cases hs

theorem congr (hm : m.Confined lo cells) (hstack : m'.stack = m.stack) (hsp : m'.sp = m.sp)
    (hbp : m'.bp = m.bp) (henv : m'.env = m.env) (hcont : m'.cont = m.cont)
    (hf : m'.heap.frames.size = m.heap.frames.size)
    (hk : m'.heap.continuations.size = m.heap.continuations.size) (hl : m'.heap.Linked) :
    m'.Confined lo cells := by
  obtain ⟨segs, hs⟩ := hm.laid
  have harr := hs.toArranged.withHeap hf hk hl
  refine hm.change segs ⟨⟨?_, ?_, ?_, ?_, hl⟩, hs.above, ?_⟩ ?_ ?_ ?_
  · rw [capacity, hsp, hstack]
    exact hs.room
  · rw [hsp, hstack]
    exact harr.stacked
  · rw [henv]
    exact harr.env
  · rw [hcont]
    exact harr.cont
  · rw [hbp]
    exact hs.frames_le
  · rw [hsp]
    exact hm.lo_le
  · rw [hstack]
  · rw [hstack]
    exact fun _ _ => rfl

theorem linked (hm : m.Confined lo cells) : m.heap.Linked := by
  obtain ⟨segs, hs⟩ := hm.laid
  exact hs.linked

theorem room (hm : m.Confined lo cells) : m.sp ≤ m.capacity := by
  obtain ⟨segs, hs⟩ := hm.laid
  exact hs.room

theorem registers (hm : m.Confined lo cells) (hstack : m'.stack = m.stack) (hsp : m'.sp = m.sp)
    (hbp : m'.bp = m.bp) (henv : m'.env = m.env) (hcont : m'.cont = m.cont)
    (hheap : m'.heap = m.heap) : m'.Confined lo cells :=
  hm.congr hstack hsp hbp henv hcont (by rw [hheap]) (by rw [hheap])
    (by rw [hheap]; exact hm.linked)

theorem ground_le (hm : m.Confined lo cells) : m.ground lo ≤ m.sp := by
  obtain ⟨segs, hs⟩ := hm.laid
  have henv : m.env.top ≤ m.sp := by
    cases he : m.env with
    | onStack e =>
      obtain ⟨-, -, -, -, -, -, hle, -⟩ := hs.frameIn (he ▸ hs.env)
      exact hle
    | _ => exact Nat.zero_le _
  have := hs.top_le
  have := hm.lo_le
  unfold ground
  omega

/-- Only what lies on the ground matters, so the stack may end there. -/
theorem lowered (hm : m.Confined lo cells) (base : Nat) (hground : m.ground lo ≤ base)
    (hbase : base ≤ m.sp) : ∃ sub, LaidAbove lo sub { m with sp := base } := by
  obtain ⟨segs, hs⟩ := hm.laid
  unfold ground at hground
  obtain ⟨sub, hsub, harr⟩ := hs.toArranged.lowered hbase (by omega) (by omega)
  exact ⟨sub, harr, fun s h => hs.above s (hsub.mem h),
    fun start count id h => hs.frames_le start count id (hsub.mem h)⟩

theorem withOperands (hm : m.Confined lo cells) (base : Nat) {sp : Nat} {stack : Array Value}
    (hground : m.ground lo ≤ base) (hbase : base ≤ m.sp) (hle : base ≤ sp) (hroom : sp ≤ m.capacity)
    (hsize : stack.size = m.stack.size) (hcells : ∀ i < base, stack[i]? = m.stack[i]?) :
    ({ m with stack, sp } : Machine).Confined lo cells := by
  obtain ⟨sub, hs⟩ := hm.lowered base hground hbase
  have hlo : lo ≤ base := (Nat.le_max_right ..).trans hground
  refine hm.change sub ⟨{ hs.toArranged with room := ?_, stacked := ?_ }, hs.above, hs.frames_le⟩
    (hlo.trans hle) hsize fun i hi => hcells i (Nat.lt_of_lt_of_le hi hlo)
  · change sp ≤ stack.size
    rw [hsize]
    exact hroom
  · exact (hs.stacked.congr_below hcells (.refl _)).mono hle

/-- Frames may move to the heap from where they are. -/
theorem stays_below (hs : LaidAbove lo segs m) {target : Nat → Option Nat} {w : Machine}
    (hw : Moved segs target m w) {i : Nat} (hi : i < lo) : w.stack[i]? = m.stack[i]? := by
  refine hw.stays i (hw.target_eq_none fun start count id hmem heq => ?_)
  have := hs.above _ hmem
  rw [Segment.start_frame] at this
  omega

/-! ## Looking things up -/

theorem query_bind (hm : m.Confined lo cells) {φ : Machine → Except Stop α} {f : α → Exec β}
    {Q : β → Machine → Prop} (hf : ∀ a, φ m = .ok a → Confines lo cells Q (f a m)) :
    Confines lo cells Q ((query φ >>= f) m) := by
  cases h : φ m with
  | ok a =>
    rw [query_bind_ok h]
    exact hf a h
  | error s =>
    rw [query_bind_error h]
    exact .error hm

theorem query (hm : m.Confined lo cells) (φ : Machine → Except Stop α) :
    RemainsAbove lo cells (Machine.query φ m) := by
  rw [← bind_pure (Machine.query φ)]
  exact hm.query_bind fun _ _ => .ok hm trivial

theorem fetchByte (hm : m.Confined lo cells) :
    Confines lo cells (fun _ m' => m' = { m with ip := m.ip + 1 }) (Machine.fetchByte m) := by
  cases h : m.code[m.ip]? with
  | none =>
    rw [fetchByte_none h]
    exact .error hm
  | some b =>
    rw [fetchByte_some h]
    exact .ok (hm.registers rfl rfl rfl rfl rfl rfl) rfl

theorem fetchNat (hm : m.Confined lo cells) :
    Confines lo cells (fun n m' => m' = { m with ip := m.ip + 1 } ∧ m.operand? 0 = some n)
      (Machine.fetchNat m) := by
  have hbyte : Confines lo cells (fun _ m' => m' = { m with ip := m.ip + 1 })
      (Machine.fetchNat m) :=
    hm.fetchByte.bind fun b m' hm' h => .ok hm' h
  generalize hr : Machine.fetchNat m = r at hbyte
  cases hbyte with
  | ok hm' h => exact .ok hm' ⟨h, (fetchNat_eq_ok hr).1⟩
  | error hm' => exact .error hm'

theorem fetchWord (hm : m.Confined lo cells) :
    Confines lo cells (fun _ m' => m' = { m with ip := m.ip + 4 }) (Machine.fetchWord m) := by
  rcases fetchWord_cases m with ⟨n, h⟩ | h
  · rw [h]
    exact .ok (hm.registers rfl rfl rfl rfl rfl rfl) rfl
  · rw [h]
    exact .error hm

theorem checkArgc_bind (hm : m.Confined lo cells) {least most : Nat} {f : Unit → Exec α}
    {Q : α → Machine → Prop}
    (hf : least ≤ m.argc → m.argc ≤ most → Confines lo cells Q (f () m)) :
    Confines lo cells Q ((checkArgc least most >>= f) m) := by
  cases h : checkArgc least most m with
  | ok _ m' =>
    obtain ⟨hleast, hmost, rfl⟩ := checkArgc_eq_ok h
    rw [bind_ok h]
    exact hf hleast hmost
  | error s m' =>
    have hsame : m' = m := by
      simp only [checkArgc, get_bind_apply] at h
      split at h
      · cases h
        rfl
      · split at h
        · cases h
          rfl
        · cases h
    rw [bind_error h]
    exact .error (hsame ▸ hm)

/-! ## Values -/

theorem setAcc (hm : m.Confined lo cells) (v : Value) :
    RemainsAbove lo cells (Machine.setAcc v m) :=
  .ok (hm.registers rfl rfl rfl rfl rfl rfl) trivial

theorem setIp (hm : m.Confined lo cells) (ip : Nat) : RemainsAbove lo cells (Machine.setIp ip m) :=
  .ok (hm.registers rfl rfl rfl rfl rfl rfl) trivial

theorem halt (hm : m.Confined lo cells) : RemainsAbove lo cells (Machine.halt m) :=
  .ok (hm.registers rfl rfl rfl rfl rfl rfl) trivial

theorem withHeap (hm : m.Confined lo cells) {h : Heap} (hf : h.frames = m.heap.frames)
    (hc : h.closures = m.heap.closures) (hk : h.continuations = m.heap.continuations) :
    ({ m with heap := h } : Machine).Confined lo cells := by
  have hl := hm.linked
  refine hm.congr rfl rfl rfl rfl rfl (congrArg _ hf) (congrArg _ hk) ⟨?_, ?_, ?_⟩
  · intro f h'
    change f ∈ h.frames at h'
    exact (Env.closedIn_iff (congrArg _ hf)).2 (hl.frames f (hf ▸ h'))
  · intro c h'
    change c ∈ h.closures at h'
    exact (Env.closedIn_iff (congrArg _ hf)).2 (hl.closures c (hc ▸ h'))
  · intro k h'
    change k ∈ h.continuations at h'
    exact (hl.continuations k (hk ▸ h')).imp (Env.closedIn_iff (congrArg _ hf)).2
      (Cont.closedIn_iff (congrArg _ hk)).2

theorem cons (hm : m.Confined lo cells) (car cdr : Value) :
    Confines lo cells (fun _ m' => ∃ pairs, m' = { m with heap.pairs := pairs })
      (Machine.cons car cdr m) :=
  .ok (hm.withHeap rfl rfl rfl) ⟨_, rfl⟩

theorem newVector (hm : m.Confined lo cells) (items : List Value) :
    RemainsAbove lo cells (Machine.newVector items m) :=
  .ok (hm.withHeap rfl rfl rfl) trivial

theorem setCar (hm : m.Confined lo cells) (cell v : Value) :
    RemainsAbove lo cells (Machine.setCar cell v m) := by
  cases cell with
  | pair r =>
    exact hm.query_bind fun _ _ => .ok (hm.withHeap rfl rfl rfl) trivial
  | _ => exact .error hm

theorem setCdr (hm : m.Confined lo cells) (cell v : Value) :
    RemainsAbove lo cells (Machine.setCdr cell v m) := by
  cases cell with
  | pair r =>
    exact hm.query_bind fun _ _ => .ok (hm.withHeap rfl rfl rfl) trivial
  | _ => exact .error hm

theorem define (hm : m.Confined lo cells) (name : String) (v : Value) :
    RemainsAbove lo cells (Machine.define name v m) := by
  rw [Machine.define]
  cases Value.ofName name with
  | symbol s => exact .ok (hm.registers rfl rfl rfl rfl rfl rfl) trivial
  | _ => exact .ok hm trivial

theorem setVector (hm : m.Confined lo cells) (r : Ref .vector) (items : List Value) :
    RemainsAbove lo cells (Machine.setVector r items m) :=
  hm.query_bind fun _ _ => .ok (hm.withHeap rfl rfl rfl) trivial

theorem splice (hm : m.Confined lo cells) (list tail : Value) :
    RemainsAbove lo cells (Machine.splice list tail m) := by
  refine hm.query_bind fun items _ => ?_
  obtain ⟨pairs, hchain⟩ := chain_eq m.heap items tail
  exact .ok (hm.withHeap (h := (m.heap.chain items tail).2) (by rw [hchain]) (by rw [hchain])
    (by rw [hchain])) trivial

theorem newClosure (hm : m.Confined lo cells) {c : Closure} (hc : c.env.ClosedIn m.heap) :
    RemainsAbove lo cells (Machine.newClosure c m) := by
  have hl := hm.linked
  refine .ok (hm.congr rfl rfl rfl rfl rfl rfl rfl ⟨hl.frames, fun c' h => ?_, hl.continuations⟩)
    trivial
  rcases Array.mem_push.1 h with h | rfl
  · exact hl.closures c' h
  · exact hc

/-! ## Operands -/

theorem popped (hm : m.Confined lo cells) (htake : m.ground lo + 1 ≤ m.sp) :
    m.popped.Confined lo cells :=
  hm.withOperands (m.sp - 1) (by omega) (by omega) le_rfl (by have := hm.room; omega) (by simp)
    fun _ hi => Array.getElem?_setIfInBounds_ne (by omega)

theorem pop (hm : m.Confined lo cells) (htake : m.ground lo + 1 ≤ m.sp) :
    Confines lo cells (fun _ m' => m' = m.popped) (Machine.pop m) := by
  rw [pop_eq]
  cases m.top? with
  | none => exact .error hm
  | some v => exact .ok (hm.popped htake) rfl

theorem top (hm : m.Confined lo cells) : RemainsAbove lo cells (Machine.top m) := by
  simp only [Machine.top, get_bind_apply]
  cases m.sp with
  | zero => exact .error hm
  | succ sp => exact hm.query _

theorem pushAll (hm : m.Confined lo cells) {vs : List Value}
    (hroom : m.sp + vs.length ≤ m.capacity) :
    Confines lo cells (fun _ m' => m' = { m with
      stack := Cells.write m.stack m.sp vs, sp := m.sp + vs.length }) (Machine.pushAll vs m) := by
  rw [pushAll_room hroom]
  exact .ok (hm.withOperands m.sp hm.ground_le le_rfl (Nat.le_add_right ..) hroom (by simp)
    fun _ hi => Cells.getElem?_write_lt hi) rfl

theorem push (hm : m.Confined lo cells) (hroom : m.sp + 1 ≤ m.capacity) (v : Value) :
    RemainsAbove lo cells (Machine.push v m) := by
  rw [push_room hroom]
  exact .ok (hm.withOperands m.sp hm.ground_le le_rfl (Nat.le_add_right ..) hroom (by simp)
    fun _ hi => Array.getElem?_setIfInBounds_ne (by omega)) trivial

theorem binary (hm : m.Confined lo cells) (htake : m.ground lo + 1 ≤ m.sp)
    (op : Value → Value → Except Fault Value) : RemainsAbove lo cells (Machine.binary op m) := by
  refine (hm.pop htake).bind fun a m' hm' _ => ?_
  rw [get_bind_apply]
  cases op a m'.acc with
  | ok v => exact hm'.setAcc v
  | error f => exact .error hm'

theorem update (hm : m.Confined lo cells) (htake : m.ground lo + 1 ≤ m.sp)
    {change : Value → Value → Exec Unit}
    (hchange : ∀ m', m'.Confined lo cells → ∀ cell v, RemainsAbove lo cells (change cell v m')) :
    RemainsAbove lo cells (Machine.update change m) := by
  refine (hm.pop htake).bind fun a m' hm' _ => ?_
  rw [get_bind_apply]
  exact (hchange m' hm' a _).bind fun _ _ hm'' _ => hm''.setAcc a

theorem unary (hm : m.Confined lo cells) (op : Heap → Value → Except Stop Value) :
    RemainsAbove lo cells (Machine.unary op m) :=
  hm.query_bind fun v _ => hm.setAcc v

theorem jumpIf (hm : m.Confined lo cells) (wanted : Value → Bool) :
    RemainsAbove lo cells (Machine.jumpIf wanted m) := by
  refine hm.fetchWord.bind fun offset m' hm' _ => ?_
  rw [get_bind_apply]
  split
  · exact hm'.query_bind fun ip _ => hm'.setIp ip
  · exact .ok hm' trivial

/-! ## Frames -/

theorem promoteCurrent (hm : m.Confined lo cells) :
    Confines lo cells (fun env m' => env.ClosedIn m'.heap) (Machine.promoteCurrent m) := by
  obtain ⟨segs, hs⟩ := hm.laid
  obtain ⟨new, w, target, hw, hmoved, hregs, harr, hnew, -⟩ := hs.promoteEnv hs.env
  rw [Machine.promoteCurrent, get_bind_apply, bind_ok hw]
  refine .ok (hm.change segs ⟨{ harr with env := .closed hnew }, hs.above, ?_⟩ ?_ hmoved.size
    fun i hi => stays_below hs hmoved hi) hnew
  · change ∀ start count id, _ → _ ≤ w.bp
    rw [hregs.bp]
    exact hs.frames_le
  · change lo ≤ w.sp
    rw [hregs.sp]
    exact hm.lo_le

/-- The frame is built from what lies above the ground. -/
theorem pushFrame (hm : m.Confined lo cells) {taken : Nat} (htake : m.ground lo + taken ≤ m.sp)
    (extra : Nat) : RemainsAbove lo cells (Machine.pushFrame taken extra m) := by
  have hroom := hm.room
  have hlo : lo ≤ m.ground lo := Nat.le_max_right ..
  obtain ⟨sub, hs⟩ := hm.lowered (m.sp - taken) (by omega) (by omega)
  obtain ⟨m', hrun, hbuilt⟩ := (hs.toArranged.raise (by omega) hroom).pushFrame_built
    (by omega : taken ≤ m.sp) extra
  rw [hrun]
  refine .ok ?_ trivial
  have htop {s : Segment} (h : s ∈ sub) : s.top ≤ m.sp - taken := hs.stacked.top_le_of_mem h
  generalize List.replicate extra Value.unbound = tail at hbuilt
  cases hbuilt with
  | onStack hfit =>
    refine hm.change (.frame (m.sp - taken) (taken + tail.length) 0 :: sub)
      ⟨hs.toArranged.framedWith (by omega) hfit, ?_, ?_⟩ ?_ (by simp [framedWith]) ?_
    · intro s h
      rcases List.mem_cons.1 h with rfl | h
      · rw [Segment.start_frame]
        omega
      · exact hs.above s h
    · intro start count id h
      change start + count + 3 ≤ m.sp + tail.length + 3
      rcases List.mem_cons.1 h with h | h
      · cases h
        omega
      · have := htop h
        rw [Segment.top_frame] at this
        omega
    · change lo ≤ m.sp + tail.length + 3
      omega
    · exact fun i hi => Cells.getElem?_write_lt (by omega)
  | @onHeap target w parent hmoved hregs harr hparent _ _ =>
    have hbelow := hmoved.arranged_below hregs hs.toArranged harr.linked
    rw [← hregs.sp] at hbelow
    refine hm.change sub ⟨hbelow.framedOnHeap hparent, hs.above, ?_⟩ ?_ ?_ ?_
    · intro start count id h
      change start + count + 3 ≤ w.sp - taken
      rw [hregs.sp]
      exact htop h
    · change lo ≤ w.sp - taken
      rw [hregs.sp]
      omega
    · simp [framedOnHeap, hmoved.size]
    · intro i hi
      have hcell : (w.framedOnHeap taken tail parent).stack[i]? = w.stack[i]? :=
        Cells.getElem?_clear_lt (by rw [hregs.sp]; omega)
      exact hcell.trans (stays_below (m := { m with sp := m.sp - taken }) hs { hmoved with } hi)

theorem popOnto (hm : m.Confined lo cells) {n : Nat} (htake : m.ground lo + n ≤ m.sp)
    (list : Value) :
    Confines lo cells (fun _ m' => m'.ground lo = m.ground lo ∧ m'.sp = m.sp - n)
      (Machine.popOnto n list m) := by
  induction n generalizing m list with
  | zero => exact .ok hm ⟨rfl, rfl⟩
  | succ n ih =>
    refine (hm.pop (by omega)).bind ?_
    rintro v _ hm₁ rfl
    refine (hm₁.cons v list).bind ?_
    rintro v' _ hm₂ ⟨pairs, rfl⟩
    refine (ih hm₂ ?_ v').imp ?_
    · change m.ground lo + n ≤ m.sp - 1
      omega
    · rintro - m' ⟨hground, hsp⟩
      refine ⟨hground, hsp.trans ?_⟩
      change m.sp - 1 - n = _
      omega

theorem writeSlot (hm : m.Confined lo cells) (depth index : Nat) (v : Value) :
    RemainsAbove lo cells (Machine.writeSlot depth index v m) := by
  obtain ⟨segs, hs⟩ := hm.laid
  rcases writeSlot_cases m depth index v with
    ⟨start, count, parent, hin, hlt, hrun⟩ | ⟨r, parent, f, hin, hf, hlt, hrun⟩ | ⟨e, hrun⟩
  · rw [hrun]
    obtain ⟨id, rest, -, hsuf, hcells⟩ := hs.frameCells_of_innermost (hs.envAt _) hin
    refine .ok (hm.change segs ⟨(hs.setCell hsuf hcells hlt).arranged, hs.above, hs.frames_le⟩
      hm.lo_le (by simp) fun i hi => Array.getElem?_setIfInBounds_ne ?_) trivial
    have := hs.above _ (mem_of_cons_suffix hsuf)
    rw [Segment.start_frame] at this
    omega
  · rw [hrun]
    exact .ok (hm.change segs ⟨(hs.withSlot r index v).arranged, hs.above, hs.frames_le⟩
      hm.lo_le rfl fun _ _ => rfl) trivial
  · rw [hrun]
    exact .error hm

theorem enterFrame (hm : m.Confined lo cells) (a : Arity)
    (htake : a.Accepts m.argc → m.ground lo + m.argc ≤ m.sp) :
    RemainsAbove lo cells (Machine.enterFrame a m) := by
  simp only [Machine.enterFrame, layOutFrame, get_bind_apply, registers_eq]
  split
  · next hvar =>
    refine hm.checkArgc_bind fun hleast _ => ?_
    have htake := htake ⟨hleast, .inl hvar⟩
    refine (hm.popOnto (by omega) .nil).bind ?_
    rintro rest m₁ hm₁ ⟨hground, hsp⟩
    refine (hm₁.pushFrame ?_ _).bind fun _ _ hm₂ _ => hm₂.writeSlot ..
    rw [hground, hsp]
    omega
  · exact hm.checkArgc_bind fun hleast hmost => hm.query_bind fun missing _ =>
      hm.pushFrame (htake ⟨hleast, .inr hmost⟩) _

/-- Arguments that take the place of the slots were above the frame. -/
theorem reuseFrame (hm : m.Confined lo cells) {n : Nat}
    (htake : m.liveStart?.isSome = true → m.ground lo + n ≤ m.sp)
    (hleave : ∀ start ∈ m.liveStart?, m.cont.top ≤ start) :
    RemainsAbove lo cells (Machine.reuseFrame n m) := by
  by_cases hne : m.env = .empty
  · simp only [Machine.reuseFrame, get_bind_apply, hne]
    exact .ok hm trivial
  obtain ⟨segs, hs⟩ := hm.laid
  cases hin : m.innermost m.env with
  | error s =>
    have hrun : Machine.reuseFrame n m = .error s m := by
      cases henv : m.env with
      | empty => exact absurd henv hne
      | _ =>
        rw [henv] at hin
        simp only [Machine.reuseFrame, get_bind_apply, henv]
        exact query_bind_error hin
    rw [hrun]
    exact .error hm
  | ok x =>
    obtain ⟨slots, parent⟩ := x
    cases slots with
    | onHeap r =>
      rw [reuseFrame_eq hne hin]
      obtain ⟨f, hf, rfl⟩ := exists_frame_of_innermost hin
      have hparent := hs.linked.frames f (Array.mem_of_getElem? hf)
      exact .ok (hm.change segs ⟨{ hs.toArranged with env := .closed hparent }, hs.above,
        hs.frames_le⟩ hm.lo_le rfl fun _ _ => rfl) trivial
    | onStack start count =>
      have hlive := liveStart?_of_innermost hin
      obtain ⟨id, rest, henv, hsuf, hcells⟩ := hs.frameCells_of_innermost hs.env hin
      have habove := hs.above _ (mem_of_cons_suffix hsuf)
      rw [Segment.start_frame] at habove
      have hn : start + n ≤ m.sp := by
        have htake := htake (by rw [hlive]; rfl)
        rw [ground, henv] at htake
        simp only [Env.top] at htake
        omega
      have hroom := hm.room
      have hvacated := hs.toArranged.vacated hsuf (hs.parentIn hsuf hcells) (hleave start hlive) hn
      have hsize : (m.vacated start n parent).stack.size = m.stack.size := by simp [vacated]
      rw [reuseFrame_onStack hin hn hroom]
      refine .ok (hm.change rest ⟨hvacated.raise (Nat.le_add_right ..) ?_, ?_, ?_⟩ ?_ hsize ?_)
        trivial
      · change start + n ≤ (m.vacated start n parent).stack.size
        rw [hsize]
        exact hn.trans hroom
      · exact fun s h => hs.above s ((suffix_of_cons_suffix hsuf).mem h)
      · exact fun _ _ _ h => hs.frames_le _ _ _ ((suffix_of_cons_suffix hsuf).mem h)
      · exact habove.trans (Nat.le_add_right ..)
      · exact fun i hi => getElem?_vacated hn hroom parent (by omega)

/-! ## Return points and continuations -/

theorem pushReturnPoint (hm : m.Confined lo cells) (hbp : m.bp ≤ m.sp)
    (hroom : m.sp + 4 ≤ m.capacity) (offset : Int) :
    RemainsAbove lo cells (Machine.pushReturnPoint offset m) := by
  obtain ⟨segs, hs⟩ := hm.laid
  refine hm.query_bind fun target _ => ?_
  rw [bind_ok (makeRoom_of_room hroom), pushReturnCells hroom]
  have hlaid : WellLaid segs m := { hs.toArranged with bp_le := hbp, frames_le := hs.frames_le }
  obtain ⟨hcalled, -⟩ := hlaid.called hroom target
  refine .ok (hm.change _ ⟨hcalled.toArranged, ?_, hcalled.frames_le⟩ ?_ (by simp [called]) ?_)
    trivial
  · intro s h
    rcases List.mem_cons.1 h with rfl | h
    · exact hm.lo_le
    · exact hs.above s h
  · exact hm.lo_le.trans (Nat.le_add_right ..)
  · exact fun i hi => Cells.getElem?_write_lt (Nat.lt_of_lt_of_le hi hm.lo_le)

theorem capture (hm : m.Confined lo cells) : RemainsAbove lo cells (Machine.capture m) := by
  obtain ⟨segs, hs⟩ := hm.laid
  obtain ⟨k, w, target, hrun, hmoved, hregs, harr, -⟩ := hs.toArranged.capture
  rw [hrun]
  refine .ok (hm.change segs ⟨harr, hs.above, ?_⟩ ?_ hmoved.size
    fun i hi => stays_below hs hmoved hi) trivial
  · change ∀ start count id, _ → _ ≤ w.bp
    rw [hregs.bp]
    exact hs.frames_le
  · change lo ≤ w.sp
    rw [hregs.sp]
    exact hm.lo_le

end Machine.Confined

/-- The number of pending values that a return brings back to the stack. -/
def Machine.restored (m : Machine) : Nat :=
  match m.cont with
  | .onHeap r => match m.heap.continuation r with
    | .ok k => k.saved.size
    | .error _ => 0
  | _ => 0

namespace Machine.Confined

/-- The pending values of a continuation are put on top. A result for a host call leaves nothing on
the stack that is referred to. -/
theorem ret (hm : m.Confined lo cells) (hroom : m.sp + m.restored ≤ m.capacity) :
    Confines lo cells (fun _ m' => m'.hosts = m.hosts ∨ m'.OffStack) (Machine.ret m) := by
  obtain ⟨segs, hs⟩ := hm.laid
  cases hcont : m.cont with
  | empty =>
    rw [ret_of_empty hcont]
    exact .ok (hm.registers rfl rfl rfl rfl rfl rfl) (.inl rfl)
  | onStack c =>
    obtain ⟨start, count, id, rest, p, env, rfl, hsuf, hp, -, hrun, harr⟩ := hs.ret_point hcont
    have habove := hs.above _ (mem_of_cons_suffix hsuf)
    rw [Segment.start_point] at habove
    rw [hrun]
    refine .ok (hm.change rest ⟨harr, ?_, hp.frames_le⟩ ?_ (by simp [returned]) ?_) (.inl rfl)
    · exact fun s h => hs.above s ((suffix_of_cons_suffix hsuf).mem h)
    · change lo ≤ start + count + 4 - 4
      omega
    · exact fun i hi => Cells.getElem?_clear_lt (by omega)
  | onHeap r =>
    rw [ret_of_onHeap hcont]
    cases hk : m.heap.continuation r with
    | error e =>
      rw [resume, query_bind_error hk]
      exact .error hm
    | ok k =>
      obtain ⟨henv, hprev⟩ := hs.linked.continuations k (Heap.mem_of_continuation hk)
      cases hres : k.resume with
      | halt =>
        rw [resume_halt hk hres]
        exact .ok (hm.registers rfl rfl rfl rfl rfl rfl) (.inl rfl)
      | host id =>
        rw [resume_host hk hres]
        split
        · exact .ok (hm.detach ⟨henv, hprev⟩ hs.linked hm.lo_le hs.room rfl fun _ _ => rfl)
            (.inr ⟨henv, hprev⟩)
        · exact .error hm
      | code ip =>
        have hfit : m.sp + k.saved.toList.length ≤ m.capacity := by
          rw [restored, hcont] at hroom
          simpa only [hk, Array.length_toList] using hroom
        have hfit' : m.sp + k.saved.size ≤ m.capacity := by rwa [Array.length_toList] at hfit
        rw [resume_code hk hres, resumeCode, bind_ok (makeRoom_of_room hfit'), modify_bind_apply,
          bind_ok (pushAll_room (m := { m with bp := m.sp }) hfit)]
        refine .ok (hm.detach ⟨henv, hprev⟩ hs.linked ?_ ?_ (by simp) ?_) (.inl rfl)
        · exact hm.lo_le.trans (Nat.le_add_right ..)
        · change _ ≤ (Cells.write m.stack m.sp _).size
          rw [Cells.size_write]
          exact hfit
        · exact fun i hi => Cells.getElem?_write_lt (Nat.lt_of_lt_of_le hi hm.lo_le)

/-! ## Applying -/

theorem passArguments (hm : m.Confined lo cells) (callee : Value) {args : List Value}
    (hroom : m.sp + args.length ≤ m.capacity) :
    Confines lo cells (fun _ m' => m'.ground lo + m'.argc ≤ m'.sp)
      (Machine.passArguments callee args m) := by
  have hm₁ : ({ m with argc := args.length } : Machine).Confined lo cells :=
    hm.registers rfl rfl rfl rfl rfl rfl
  change Confines lo cells _ ((Machine.pushAll args >>= fun _ => Machine.setAcc callee)
    { m with argc := args.length })
  refine (hm₁.pushAll hroom).bind ?_
  rintro - _ hm₂ rfl
  refine .ok (hm₂.registers rfl rfl rfl rfl rfl rfl) ?_
  have hground : m.ground lo ≤ m.sp := hm.ground_le
  exact Nat.add_le_add_right hground args.length

theorem enterClosure (hm : m.Confined lo cells) (r : Ref .closure) :
    RemainsAbove lo cells (Machine.enterClosure r m) := by
  refine hm.query_bind fun c hc => ?_
  obtain ⟨segs, hs⟩ := hm.laid
  have henv := hs.linked.closures c (Array.mem_of_getElem? (present_eq_ok.1 hc))
  exact .ok (hm.change segs ⟨{ hs.toArranged with env := .closed henv }, hs.above, hs.frames_le⟩
    hm.lo_le rfl fun _ _ => rfl) trivial

theorem handOver (hm : m.Confined lo cells) (r : Ref .continuation)
    (htake : m.argc = 1 → m.ground lo + 1 ≤ m.sp) :
    RemainsAbove lo cells (Machine.handOver r m) := by
  refine hm.checkArgc_bind fun hleast hmost => ?_
  refine (hm.pop (htake (by omega))).bind ?_
  rintro v _ hm₁ rfl
  refine (hm₁.setAcc v).bind fun _ m₂ hm₂ _ => ?_
  refine hm₂.query_bind fun k hk => ?_
  obtain ⟨segs, hs⟩ := hm₂.laid
  have hclosed : (Cont.onHeap r).ClosedIn m₂.heap :=
    (Array.getElem?_eq_some_iff.1 (Heap.continuation_eq_ok.1 hk)).1
  exact .ok (hm₂.change segs ⟨{ hs.toArranged with cont := .closed hclosed }, hs.above,
    hs.frames_le⟩ hm₂.lo_le rfl fun _ _ => rfl) trivial

theorem pickItem (hm : m.Confined lo cells) (list : Value)
    (htake : (Arity.fixed 1).Accepts m.argc → m.ground lo + m.argc ≤ m.sp) :
    RemainsAbove lo cells (Machine.pickItem list m) := by
  refine (hm.enterFrame _ htake).bind fun _ m₁ hm₁ _ => hm₁.query_bind fun v _ => ?_
  cases v with
  | fixnum index => exact hm₁.query_bind fun v _ => hm₁.setAcc v
  | _ => exact .error hm₁

theorem enterProcedure (hm : m.Confined lo cells) (r : Ref .procedure)
    (htake : ∀ p, m.heap.procedure r = .ok p → p.arity.Accepts m.argc →
      m.ground lo + m.argc ≤ m.sp) : RemainsAbove lo cells (Machine.enterProcedure r m) := by
  exact hm.query_bind fun p hp =>
    (hm.enterFrame _ (htake p hp)).bind fun _ _ hm₁ _ => .ok hm₁ trivial

theorem answer (hm : m.Confined lo cells) {q : Request} (hq : ∀ callee args, q ≠ .call callee args)
    (call : Value → List Value → Exec Value) : RemainsAbove lo cells (Machine.answer call q m) := by
  cases q with
  | slot depth index =>
    rw [Machine.answer]
    exact hm.query _
  | setSlot depth index v => exact hm.writeSlot depth index v
  | global name =>
    rw [Machine.answer]
    exact hm.query _
  | define name v => exact hm.define name v
  | setCar cell v => exact hm.setCar cell v
  | setCdr cell v => exact hm.setCdr cell v
  | elements r =>
    rw [Machine.answer]
    exact hm.query _
  | setElements r items => exact hm.setVector r items
  | call callee args => exact absurd rfl (hq callee args)
  | capture => exact hm.capture.bind fun _ _ hm' _ => .ok hm' trivial
  | items list =>
    rw [Machine.answer]
    exact hm.query _
  | car v =>
    rw [Machine.answer]
    exact hm.query _
  | cdr v =>
    rw [Machine.answer]
    exact hm.query _
  | pair car cdr => exact (hm.cons car cdr).remains
  | vector items => exact (hm.newVector items).bind fun _ _ hm' _ => .ok hm' trivial

end Machine.Confined

/-! ## Beginning a call -/

/-- A call has begun. Nothing on the stack is referred to any more, and the cells are as they were
but for the descriptors of frames. -/
structure Begun (segs : List Segment) (m : Machine) (w : Waiting) (m' : Machine) : Prop where
  off : m'.OffStack
  linked : m'.heap.Linked
  size : m'.stack.size = m.stack.size
  cells : ∀ i, (∀ start count id, .frame start count id ∈ segs → i ≠ start + count) →
    m'.stack[i]? = m.stack[i]?
  sp : m'.sp = m.sp
  bp : m'.bp = m.bp
  height : w.sp = m.sp
  returned : m'.hosts.returned = m.hosts.returned
  procedures : m'.heap.procedures = m.heap.procedures

theorem Arranged.beginWaiting (hm : Arranged segs m)
    (next : Option (Except Fault Value → Script Outcome)) :
    ∃ w m', Machine.beginWaiting next m = .ok w m' ∧ w.next = next ∧ Begun segs m w m' := by
  have hawake : Arranged segs m.awake := { hm with }
  obtain ⟨env, w₁, t₁, hw₁, hmoved₁, hregs₁, harr₁, henv, -⟩ := hawake.promoteEnv hawake.env
  have harr₁' : Arranged segs { w₁ with env } := { harr₁ with env := .closed henv }
  obtain ⟨cont, w₂, t₂, hw₂, hmoved₂, hregs₂, harr₂, hcont, -⟩ := harr₁'.promoteCont harr₁'.cont
  have hcurrent : Machine.promoteCurrent m.awake = .ok env { w₁ with env } := by
    rw [Machine.promoteCurrent, get_bind_apply]
    exact (bind_ok hw₁).trans rfl
  have hbegin : beginCall m.awake = .ok w₂.hosts.next (w₂.marked cont env) := by
    rw [beginCall, bind_ok hcurrent, get_bind_apply]
    exact (bind_ok hw₂).trans rfl
  have hrun : Machine.beginWaiting next m =
      .ok (m.waitingFor next w₂.hosts.next w₂.sp) (w₂.marked cont env) := by
    change (do return m.waitingFor next (← beginCall) (← get).sp : Exec Waiting) m.awake = _
    rw [bind_ok hbegin]
    rfl
  have henv₂ := henv.mono hmoved₂.heap
  have hsp : w₂.sp = m.sp := hregs₂.sp.trans hregs₁.sp
  refine ⟨_, _, hrun, rfl,
    { off := ⟨?_, ?_⟩
      linked := harr₂.linked.pushContinuation henv₂ hcont
      size := hmoved₂.size.trans hmoved₁.size
      cells := fun i hi => ?_
      sp := hsp
      bp := hregs₂.bp.trans hregs₁.bp
      height := hsp
      returned := ?_
      procedures := hmoved₂.heap.procedures.trans hmoved₁.heap.procedures }⟩
  · change w₂.env.ClosedIn _
    rw [hregs₂.env]
    exact henv₂.mono (.pushContinuation _)
  · simp [Cont.ClosedIn, marked, Heap.addContinuation]
  · exact (hmoved₂.stays i (hmoved₂.target_eq_none hi)).trans
      (hmoved₁.stays i (hmoved₁.target_eq_none hi))
  · change w₂.hosts.returned = _
    rw [hregs₂, hregs₁]
    rfl

theorem Begun.confined {w : Waiting} (h : Begun segs m w m') (hs : LaidAbove lo segs m)
    (hm : m.Confined lo cells) : m'.Confined lo cells := by
  refine hm.detach h.off h.linked (h.sp ▸ hm.lo_le) ?_ h.size fun i hi => h.cells i ?_
  · rw [capacity, h.sp, h.size]
    exact hs.room
  · intro start count id hmem heq
    have := hs.above _ hmem
    rw [Segment.start_frame] at this
    omega

end LispMachine
