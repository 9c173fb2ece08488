import LispMachine.Proofs.Arrangement.Leaving
import LispMachine.Proofs.Reentry.Callers

/-! # Accounts of what is pending

Beside the machine an account is kept of what each activation has pushed and not taken back. As long
as an operation takes no more than the current activation has, the account is right: the operands
are on top of the stack, and the continuation leads back through the callers with theirs.
-/

namespace LispMachine

open Machine

/-- What the code of a procedure does to the stack, and what the host does that calls one. -/
inductive Act
  | push (v : Value)
  | pop
  | enter (taken extra : Nat)
  | leave (n : Nat)
  | write (depth index : Nat) (v : Value)
  | promote
  | scope (env : Env)
  | call (offset : Int)
  | ret
  | capture
  | reenter (k : Ref .continuation)
  | collect
  | hostCall
  | hostDone (id ip argc sp : Nat)
  | hostFail (id : Nat) (f : Fault)
  deriving DecidableEq

def Act.exec : Act → Exec Unit
  | push v => Machine.push v
  | pop => do let _ ← Machine.pop
  | enter taken extra => pushFrame taken extra
  | leave n => reuseFrame n
  | write depth index v => writeSlot depth index v
  | promote => do let _ ← promoteCurrent
  | scope env => modify ({ · with env })
  | call offset => pushReturnPoint offset
  | ret => Machine.ret
  | capture => do let _ ← Machine.capture
  | reenter k => do
    modify ({ · with argc := 1 })
    enterContinuation k
  | collect => reclaim
  | hostCall => do let _ ← beginCall
  | hostDone id ip argc sp => do
    awaitReturn 1 id
    let _ ← endCall false id ip argc sp (.ok ())
  | hostFail id f => do let _ ← attempt (endCall false id 0 0 0 (.error f))

structure Session where
  machine : Machine
  /-- What the current activation has pushed and not taken back. -/
  operands : List Value := []
  /-- It has left no return point since its base was set. -/
  direct : Bool := true
  /-- Its frame was left for a last call. -/
  left : Bool := false
  /-- Those to which it returns, the last one first. -/
  callers : List Caller := []
  /-- The continuations that were captured, with those to which they return. -/
  captured : List (Ref .continuation × List Caller) := []
  /-- Whoever has left a return point or a marker. -/
  log : List Caller := []

namespace Session

def callersOf (s : Session) (k : Ref .continuation) : List Caller :=
  ((s.captured.find? (·.1 = k)).map (·.2)).getD []

def ownsFrame (m : Machine) : Bool :=
  match m.innermost m.env with
  | .ok (.onStack start _, _) => m.cont.top ≤ start
  | _ => true

/-- What is left on top when a frame is left with `n` values. A frame on the heap leaves the stack
as it is. -/
def kept (s : Session) (n : Nat) : List Value :=
  match s.machine.innermost s.machine.env with
  | .ok (.onStack .., _) => s.operands.drop (s.operands.length - n)
  | _ => s.operands

/-- The registers name nothing on the stack, as when a result has been handed to the host. -/
def offStack (m : Machine) : Bool :=
  match m.env, m.cont with
  | .onStack _, _ | _, .onStack _ => false
  | _, _ => true

/-- The operation takes no more than the current activation has. After a frame was left its last
values are taken before others are pushed. -/
def allows (s : Session) : Act → Bool
  | .push _ | .call _ | .collect | .hostCall => !s.left
  | .pop => s.operands ≠ []
  | .enter taken _ => taken ≤ s.operands.length
  | .leave n => !s.left && n ≤ s.operands.length && ownsFrame s.machine
  | .write .. | .promote | .capture | .hostFail .. => true
  | .scope env =>
    match env with
    | .empty => true
    | .onHeap r => r.index < s.machine.heap.frames.size
    | .onStack _ => false
  | .ret => s.callers ≠ []
  | .reenter k => s.operands ≠ [] && s.callersOf k ≠ []
  | .hostDone .. => offStack s.machine

def calledBy (s : Session) (a : Caller) (m : Machine) : Session :=
  { s with
    machine := m, operands := [], direct := false, callers := a :: s.callers, log := a :: s.log }

/-- The last of these callers goes on. The host finds the stack as it was left. -/
def backTo (s : Session) (m : Machine) : List Caller → Session
  | [] => { s with machine := m }
  | a :: callers => { s with
    machine := m, operands := a.operands, direct := a.direct && !a.host, left := a.host && s.left,
      callers }

def next (s : Session) (m : Machine) : Act → Session
  | .push v => { s with machine := m, operands := s.operands ++ [v] }
  | .pop => { s with machine := m, operands := s.operands.dropLast }
  | .enter .. => { s with machine := m, operands := [], direct := true, left := false }
  | .leave n => { s with machine := m, operands := s.kept n, left := true }
  | .write .. | .promote | .scope _ | .collect | .hostFail .. => { s with machine := m }
  | .call _ =>
    let under := m.sp - 4 - m.bp - s.operands.length
    s.calledBy { operands := s.operands, under, direct := s.direct } m
  | .hostCall => s.calledBy .ofHost m
  | .hostDone .. => { s with machine := m, operands := [], direct := true, left := false }
  | .ret => s.backTo m s.callers
  | .capture =>
    match m.cont with
    | .onHeap k => { s with machine := m, captured := (k, s.callers) :: s.captured }
    | _ => { s with machine := m }
  | .reenter k => s.backTo m (s.callersOf k)

def step (s : Session) (act : Act) : Option Session :=
  if s.allows act then
    match act.exec s.machine with
    | .ok _ m => some (s.next m act)
    | .error .. => none
  else none

def run (s : Session) (acts : List Act) : Option Session := acts.foldlM step s

theorem step_eq_some {s s' : Session} {act : Act} (h : s.step act = some s') :
    s.allows act = true ∧ ∃ m, act.exec s.machine = .ok () m ∧ s' = s.next m act := by
  unfold step at h
  split at h
  · next hallow =>
    split at h
    · next m hexec =>
      cases h
      exact ⟨hallow, m, hexec, rfl⟩
    · cases h
  · cases h

end Session

variable {segs rest : List Segment} {s : Session} {m m' : Machine} {a : Caller}
  {callers : List Caller} {vs : List Value} {v : Value} {lo n : Nat}

/-! ## Values on top -/

theorem OnTop.of_values (lo : Nat) (hlaid : Arranged segs { m with sp := lo })
    (hsp : m.sp = lo + vs.length) (hroom : m.sp ≤ m.capacity)
    (hvalues : ∀ i < vs.length, m.stack[lo + i]? = vs[i]?) : OnTop segs vs m where
  laid := by
    rw [hsp, Nat.add_sub_cancel]
    exact hlaid
  values := by
    unfold capacity at hroom
    refine List.ext_getElem? fun i => ?_
    rw [Array.getElem?_toList, Array.getElem?_extract, hsp, Nat.add_sub_cancel]
    by_cases hi : i < vs.length
    · rw [if_pos (by omega)]
      exact hvalues i hi
    · rw [if_neg (by omega), List.getElem?_eq_none (by omega)]

theorem OnTop.of_same (h : OnTop segs vs m)
    (hlaid : Arranged segs { m' with sp := m.sp - vs.length })
    (hsp : m'.sp = m.sp) (hsize : m'.capacity = m.capacity)
    (hcells : ∀ i, m.sp - vs.length ≤ i → i < m.sp → m'.stack[i]? = m.stack[i]?) :
    OnTop segs vs m' where
  laid := by rwa [hsp]
  values := by
    rw [hsp, Moved.extract_eq hsize hcells]
    exact h.values

theorem OnTop.keptIn (h : OnTop segs a.operands m) (hlo : lo + a.under = m.sp - a.operands.length) :
    a.KeptIn (m.stack.extract lo m.sp) := by
  obtain ⟨hle, hroom⟩ := h.bounds
  unfold capacity at hroom
  refine ⟨(m.stack.extract lo (m.sp - a.operands.length)).toList, ?_, ?_⟩
  · rw [Array.length_toList, Array.size_extract]
    omega
  · nth_rewrite 2 [← h.values]
    rw [← Array.toList_append, Array.extract_append_extract, Nat.min_eq_left (by omega),
      Nat.max_eq_right (by omega)]

theorem Caller.KeptIn.getElem? (hk : a.KeptIn (m.stack.extract lo m.sp)) (hroom : m.sp ≤ m.capacity)
    (hlo : lo ≤ m.sp) :
    m.sp = lo + a.under + a.operands.length ∧
      ∀ i < a.operands.length, m.stack[lo + a.under + i]? = a.operands[i]? := by
  obtain ⟨below, hlen, hsaved⟩ := hk
  unfold capacity at hroom
  have hsize := congrArg List.length hsaved
  rw [Array.length_toList, Array.size_extract, List.length_append, hlen] at hsize
  refine ⟨by omega, fun i hi => ?_⟩
  have hcell : (m.stack.extract lo m.sp).toList[a.under + i]? =
      (below ++ a.operands)[a.under + i]? := by
    rw [hsaved]
  rw [Array.getElem?_toList, Array.getElem?_extract, if_pos (by omega), ← hlen,
    List.getElem?_append_right (Nat.le_add_right ..), Nat.add_sub_cancel_left] at hcell
  rw [← hcell, hlen, Nat.add_assoc]

theorem Arranged.congr_below (hm : Arranged segs { m with sp := lo }) (henv : m'.env = m.env)
    (hcont : m'.cont = m.cont) (hheap : m'.heap = m.heap) (hsize : m'.capacity = m.capacity)
    (hcells : ∀ i < lo, m'.stack[i]? = m.stack[i]?) : Arranged segs { m' with sp := lo } where
  room := by
    change lo ≤ m'.capacity
    rw [hsize]
    exact hm.room
  stacked := by
    change Stacked (SegmentIn m'.heap m'.stack) lo segs
    rw [hheap]
    exact hm.stacked.congr_below hcells (.refl _)
  env := by
    change EnvIn m'.heap segs m'.env
    rw [hheap, henv]
    exact hm.env
  cont := by
    change ContIn m'.heap segs m'.cont
    rw [hheap, hcont]
    exact hm.cont
  linked := by
    change m'.heap.Linked
    rw [hheap]
    exact hm.linked

/-! ## Where a session stands -/

/-- The operands are on top of the stack, and the continuation leads back through the callers. -/
structure Placed (segs : List Segment) (s : Session) : Prop extends
    OnTop segs s.operands s.machine where
  wellLaid : s.left = false →
    WellLaid segs { s.machine with sp := s.machine.sp - s.operands.length }
  direct : s.left = false → s.direct = true →
    s.machine.bp + s.operands.length = s.machine.sp
  recalls : Recalls s.machine.stack s.machine.heap segs s.machine.cont s.callers

structure Session.Grows (s : Session) (m : Machine) : Prop where
  extended : Extended s.machine.heap.continuations m.heap.continuations
  created : ∀ i o, s.machine.heap.continuations.size ≤ i → m.heap.continuations[i]? = some o →
    o = .halting ∨ ∃ a ∈ s.callers, a.KeptIn o.saved

theorem Session.Grows.of_eq (h : m.heap.continuations = s.machine.heap.continuations) :
    s.Grows m where
  extended := h ▸ .refl _
  created i o hi ho := by
    have := (Array.getElem?_eq_some_iff.1 ho).1
    rw [h] at this
    omega

theorem Session.Grows.mono (h : s.Grows m) (hs : s.callers ⊆ callers) {log : List Caller} :
    Session.Grows { s with callers, log } m where
  extended := h.extended
  created i o hi ho := (h.created i o hi ho).imp_right fun ⟨a, ha, hkept⟩ => ⟨a, hs ha, hkept⟩

namespace Placed

theorem collect (h : Placed segs s) (hleft : s.left = false) (hrun : reclaim s.machine = .ok () m) :
    Placed [] { s with machine := m } ∧ s.Grows m := by
  obtain ⟨_, hrun', w, target, hw, hsp, hcol, harr⟩ := h.arranged.reclaim
  cases hrun'.symm.trans hrun
  obtain ⟨hle, hroom⟩ := h.bounds
  have hlaid := h.wellLaid hleft
  have hbp : s.machine.bp ≤ s.machine.sp - s.operands.length := hlaid.bp_le
  have htop : s.machine.cont.top ≤ s.machine.sp - s.operands.length := hlaid.toArranged.top_le
  have hkept : s.machine.kept = max s.machine.bp s.machine.cont.top := by
    unfold Machine.kept
    omega
  have hsp' := hcol.sp
  have hbp' := hcol.bp (by omega)
  have hclosed (lo : Nat) (hlo : lo ≤ m.sp) : Arranged [] { m with sp := lo } :=
    { harr with room := hlo.trans harr.room, stacked := .nil }
  have hcells (i : Nat) (hi : i < s.operands.length) :
      m.stack[m.sp - s.operands.length + i]? = s.operands[i]? := by
    rw [hcol.cells _ (by omega),
      show s.machine.kept + (m.sp - s.operands.length + i) =
          s.machine.sp - s.operands.length + i by omega,
      hw.stays_above h.laid (Nat.le_add_right ..)]
    exact h.value hi
  have hrecalls : Recalls w.stack w.heap [] m.cont s.callers :=
    (h.recalls.carry List.suffix_rfl h.laid.stacked hw.undisturbed hw.heap.continuations).copied
      hcol.cont
  have hheap := hcol.heap
  have hlen : m.sp = m.sp - s.operands.length + s.operands.length := by omega
  refine ⟨?_, ?_, fun i o hi ho => .inr ?_⟩
  · exact
      { toOnTop := .of_values _ (hclosed _ (Nat.sub_le ..)) hlen harr.room hcells
        wellLaid := fun _ => .of_nil (hclosed _ (Nat.sub_le ..)) (by
          change m.bp ≤ m.sp - s.operands.length
          omega)
        direct := fun _ hdirect => by
          have := h.direct hleft hdirect
          change m.bp + s.operands.length = m.sp
          omega
        recalls := hrecalls.of_heap (hheap ▸ .refl _) }
  · rw [hheap]
    exact hw.heap.continuations
  · exact h.recalls.of_copies h.arranged hw hcol.copies hi (hheap ▸ ho)

theorem makeRoom {f : Fault} (h : Placed segs s) (hleft : s.left = false)
    (hrun : Machine.makeRoom n f s.machine = .ok () m) :
    ∃ segs', Placed segs' { s with machine := m } ∧ s.Grows m := by
  rcases Nat.lt_or_ge s.machine.capacity (s.machine.sp + n) with hfull | hroom
  · obtain ⟨hp, hg⟩ := h.collect hleft (reclaim_of_makeRoom hrun hfull)
    exact ⟨[], hp, hg⟩
  · cases (makeRoom_of_room hroom).symm.trans hrun
    exact ⟨segs, h, .of_eq rfl⟩

theorem carry {stack : Array Value} {heap : Heap} (h : Placed segs s)
    (hu : Undisturbed segs (s.machine.sp - s.operands.length) s.machine.stack stack)
    (hg : Extended s.machine.heap.continuations heap.continuations) :
    Recalls stack heap segs s.machine.cont s.callers :=
  h.recalls.carry List.suffix_rfl h.laid.stacked hu hg

theorem replace {s' : Session} (h : Placed segs s) (htop : OnTop segs s'.operands s'.machine)
    (hlo : s'.machine.sp - s'.operands.length = s.machine.sp - s.operands.length)
    (hbp : s'.machine.bp = s.machine.bp) (hleft : s'.left = s.left) (hdirect : s'.direct = s.direct)
    (hrec : Recalls s'.machine.stack s'.machine.heap segs s'.machine.cont s'.callers) :
    Placed segs s' where
  toOnTop := htop
  wellLaid hl := (h.wellLaid (hleft ▸ hl)).of_arranged htop.laid hlo hbp
  direct hl hd := by
    have := h.direct (hleft ▸ hl) (hdirect ▸ hd)
    have := htop.bounds.1
    omega
  recalls := hrec

theorem push_top (h : Placed segs s) (hroom : s.machine.sp < s.machine.capacity) (v : Value) :
    Placed segs { s with
      machine := { s.machine with
        stack := s.machine.stack.setIfInBounds s.machine.sp v
        sp := s.machine.sp + 1 }
      operands := s.operands ++ [v] } := by
  obtain ⟨hle, -⟩ := h.bounds
  have hcell {i : Nat} (hi : i < s.machine.sp) :
      (s.machine.stack.setIfInBounds s.machine.sp v)[i]? = s.machine.stack[i]? :=
    Array.getElem?_setIfInBounds_ne (by omega)
  have hlen : (s.operands ++ [v]).length = s.operands.length + 1 := List.length_append
  refine h.replace ?_ ?_ rfl rfl rfl (h.carry ?_ (.refl _))
  · refine .of_values (s.machine.sp - s.operands.length) ?_ ?_ ?_ fun i hi => ?_
    · exact h.laid.congr_below rfl rfl rfl (by simp [capacity]) fun i hi => hcell (by omega)
    · change s.machine.sp + 1 = _
      rw [hlen]
      omega
    · simpa [capacity] using Nat.succ_le_of_lt hroom
    · rw [hlen] at hi
      by_cases hlast : i < s.operands.length
      · rw [List.getElem?_append_left hlast, ← h.value hlast]
        exact hcell (by omega)
      · obtain rfl : i = s.operands.length := by omega
        rw [List.getElem?_concat_length, Nat.sub_add_cancel hle]
        exact Array.getElem?_setIfInBounds_self_of_lt hroom
  · change s.machine.sp + 1 - (s.operands ++ [v]).length = _
    rw [hlen]
    omega
  · exact .of_cells Array.size_setIfInBounds fun i hi => hcell (by omega)

theorem push (h : Placed segs s) (hleft : s.left = false)
    (hrun : Machine.push v s.machine = .ok () m) :
    ∃ segs', Placed segs' { s with machine := m, operands := s.operands ++ [v] } ∧ s.Grows m := by
  obtain ⟨m₁, hm₁, hfit, rfl⟩ := push_eq_ok hrun
  obtain ⟨segs', hp, hg⟩ := h.makeRoom hleft hm₁
  exact ⟨segs', hp.push_top hfit v, hg.extended, hg.created⟩

theorem pop (h : Placed segs s) (hne : s.operands ≠ [])
    (hrun : Machine.pop s.machine = .ok v m) :
    Placed segs { s with machine := m, operands := s.operands.dropLast } := by
  obtain ⟨-, rfl⟩ := pop_eq_ok hrun
  obtain ⟨hle, hroom⟩ := h.bounds
  have hpos : 0 < s.operands.length := List.length_pos_iff.2 hne
  have hcell {i : Nat} (hi : i < s.machine.sp - 1) :
      s.machine.popped.stack[i]? = s.machine.stack[i]? :=
    Array.getElem?_setIfInBounds_ne (by omega)
  have hlen : s.operands.dropLast.length = s.operands.length - 1 := List.length_dropLast
  have hcap : s.machine.popped.capacity = s.machine.capacity := by simp [capacity, popped]
  refine h.replace ?_ ?_ rfl rfl rfl (h.carry ?_ (.refl _))
  · refine .of_values (s.machine.sp - s.operands.length) ?_ ?_ ?_ fun i hi => ?_
    · exact h.laid.congr_below rfl rfl rfl hcap fun i hi => hcell (by omega)
    · change s.machine.sp - 1 = _ + s.operands.dropLast.length
      omega
    · change s.machine.sp - 1 ≤ s.machine.popped.capacity
      omega
    · change i < s.operands.dropLast.length at hi
      rw [List.getElem?_dropLast, if_pos (by omega), ← h.value (by omega)]
      exact hcell (by omega)
  · change s.machine.sp - 1 - s.operands.dropLast.length = _
    omega
  · exact .of_cells hcap fun i hi => hcell (by omega)

theorem fresh (hm : Arranged segs s.machine) (hops : s.operands = [])
    (hbp : s.machine.bp = s.machine.sp)
    (hrec : Recalls s.machine.stack s.machine.heap segs s.machine.cont s.callers) :
    Placed segs s := by
  have hlen : s.machine.sp - s.operands.length = s.machine.sp := by rw [hops]; rfl
  refine ⟨?_, fun _ => ?_, fun _ _ => by rw [hops, hbp]; rfl, hrec⟩
  · rw [hops]
    exact .of_values s.machine.sp hm rfl hm.room fun i hi => by cases hi
  · rw [hlen]
    refine ⟨hm, hbp.le, fun start count id hmem => ?_⟩
    change start + count + 3 ≤ s.machine.bp
    rw [hbp]
    exact hm.stacked.top_le_of_mem hmem

theorem enter {taken extra : Nat} (h : Placed segs s) (htaken : taken ≤ s.operands.length)
    (hrun : pushFrame taken extra s.machine = .ok () m) :
    (∃ segs', Placed segs' { s with machine := m, operands := [], direct := true, left := false }) ∧
      m.heap.continuations = s.machine.heap.continuations := by
  obtain ⟨hle, hroom⟩ := h.bounds
  have hlow : Arranged segs { s.machine with sp := s.machine.sp - taken } :=
    Arranged.raise (m := { s.machine with sp := s.machine.sp - taken }) h.laid
      (by change s.machine.sp - s.operands.length ≤ s.machine.sp - taken; omega)
      (by change s.machine.sp - taken ≤ s.machine.capacity; omega)
  have hrec (m' : Machine) (hu : Undisturbed segs (s.machine.sp - taken) s.machine.stack m'.stack)
      (hg : m'.heap.continuations = s.machine.heap.continuations) :
      Recalls m'.stack m'.heap segs s.machine.cont s.callers :=
    h.recalls.carry List.suffix_rfl hlow.stacked hu (hg ▸ .refl _)
  obtain ⟨_, hrun', hbuilt⟩ := h.arranged.pushFrame_built (htaken.trans hle) extra
  cases hrun'.symm.trans hrun
  cases hbuilt with
  | onStack hfit =>
    refine ⟨⟨_, fresh (hlow.framedWith (htaken.trans hle) hfit) rfl rfl ?_⟩, rfl⟩
    refine (hrec (s.machine.framedWith taken _) (.of_cells ?_ fun i hi => ?_) rfl).mono
      (List.suffix_cons ..)
    · simp [framedWith]
    · exact Cells.getElem?_write_lt (by omega)
  | @onHeap target w parent hmoved hregs harr hparent hres hsame =>
    have hsp := hregs.sp
    have hw : Arranged segs { w with sp := w.sp - taken } := by
      rw [hsp]
      exact hmoved.arranged_below hregs hlow harr.linked
    refine ⟨⟨segs, fresh (hw.framedOnHeap hparent) rfl rfl ?_⟩, hsame⟩
    change Recalls _ _ segs w.cont s.callers
    rw [hregs.cont]
    refine hrec _ ⟨?_, fun i hi hclear => ?_⟩ hsame
    · simp [framedOnHeap, hmoved.size]
    · refine (Cells.getElem?_clear_lt ?_).trans (hmoved.undisturbed.cells i hi hclear)
      omega

theorem withCont {target : Nat → Option Nat} {w : Machine} {cont : Cont} (h : Placed segs s)
    (hmoved : Moved segs target s.machine w) (hregs : SameRegisters s.machine w)
    (hl : w.heap.Linked) (hc : cont.ClosedIn w.heap)
    (hrec : Recalls w.stack w.heap segs cont s.callers) :
    Placed segs { s with machine := { w with cont } } := by
  have hlow : Arranged segs { w with cont, sp := s.machine.sp - s.operands.length } :=
    { hmoved.arranged_below hregs h.laid hl with cont := .closed hc }
  have htop : OnTop segs s.operands { w with cont } :=
    h.toOnTop.of_same hlow hregs.sp hmoved.size fun i hi _ => hmoved.stays_above h.laid hi
  refine h.replace htop ?_ hregs.bp rfl rfl hrec
  change w.sp - _ = _
  rw [hregs.sp]

theorem capture {k : Ref .continuation} (h : Placed segs s)
    (hrun : Machine.capture s.machine = .ok k m) :
    Placed segs { s with machine := m } ∧ s.Grows m ∧ m.cont = .onHeap k := by
  obtain ⟨_, w, target, hrun', hmoved, hregs, harr, hcases⟩ := h.arranged.capture
  cases hrun'.symm.trans hrun
  have hcarried := h.carry hmoved.undisturbed hmoved.heap.continuations
  have hcont : (Cont.onHeap k).ClosedIn w.heap := by
    have := harr.cont
    change ContIn w.heap segs (.onHeap k) at this
    cases this with
    | closed hc => exact hc
  have hplaced := h.withCont hmoved hregs harr.linked hcont
  rcases hcases with ⟨hcopied, hcopies⟩ | ⟨hempty, hhalt, hpush⟩
  · exact ⟨hplaced ((hcarried.copied hcopied).mono List.nil_suffix),
      ⟨hmoved.heap.continuations, fun i o hi ho => .inr
        (h.recalls.of_copies h.arranged hmoved hcopies hi ho)⟩, rfl⟩
  · have hnone : s.callers = [] := by
      have hrec := h.recalls
      rw [hempty] at hrec
      generalize s.callers = callers at hrec
      cases hrec
      rfl
    refine ⟨hplaced ?_, ⟨hmoved.heap.continuations, fun i o hi ho => .inl ?_⟩, rfl⟩
    · rw [hnone]
      exact .base hcont
    · change w.heap.continuations[i]? = some o at ho
      have hlt := (Array.getElem?_eq_some_iff.1 ho).1
      rw [hpush, Array.size_push] at hlt
      obtain rfl : i = s.machine.heap.continuations.size := by omega
      rw [hpush, Array.getElem?_push_size] at ho
      exact (Option.some.inj ho).symm

theorem write {depth index : Nat} (h : Placed segs s)
    (hrun : writeSlot depth index v s.machine = .ok () m) :
    Placed segs { s with machine := m } ∧ m.heap.continuations = s.machine.heap.continuations := by
  rcases writeSlot_cases s.machine depth index v with ⟨start, count, parent, hi, hlt, hexec⟩ |
    ⟨r, parent, f, hi, hf, hlt, hexec⟩ | ⟨e, herr⟩
  · cases hexec.symm.trans hrun
    obtain ⟨id, rest, -, hs, hcells⟩ :=
      h.arranged.frameCells_of_innermost (h.arranged.envAt (.out depth)) hi
    have hbelow := (h.laid.stacked.at_suffix hs).1
    change start + count + 3 ≤ s.machine.sp - s.operands.length at hbelow
    have hcell {i : Nat} (hne : i ≠ start + index) :
        (s.machine.stack.setIfInBounds (start + index) v)[i]? = s.machine.stack[i]? :=
      Array.getElem?_setIfInBounds_ne (Ne.symm hne)
    have hset : Overwritten segs _ index v _ _ := h.laid.setCell hs hcells hlt
    have htop : OnTop segs s.operands
        { s.machine with stack := s.machine.stack.setIfInBounds (start + index) v } :=
      h.toOnTop.of_same hset.arranged rfl Array.size_setIfInBounds fun i hi _ => hcell (by omega)
    refine ⟨h.replace htop rfl rfl rfl rfl
      (h.carry ⟨Array.size_setIfInBounds, fun i _ hclear => hcell ?_⟩ (.refl _)), rfl⟩
    have := hclear start count id (mem_of_cons_suffix hs)
    omega
  · cases hexec.symm.trans hrun
    have hset := h.laid.withSlot r index v
    have htop : OnTop segs s.operands (s.machine.withSlot r index v) :=
      h.toOnTop.of_same hset.arranged rfl rfl fun _ _ _ => rfl
    exact ⟨h.replace htop rfl rfl rfl rfl (h.carry (.of_cells rfl fun _ _ => rfl) (.refl _)), rfl⟩
  · cases herr.symm.trans hrun

theorem promote {env : Env} (h : Placed segs s) (hrun : promoteCurrent s.machine = .ok env m) :
    Placed segs { s with machine := m } ∧ m.heap.continuations = s.machine.heap.continuations ∧
      m.env = env ∧ env.ClosedIn m.heap := by
  obtain ⟨env', w, target, hw, hmoved, hregs, harr, henv, -, hsame⟩ :=
    h.arranged.promoteEnv h.arranged.env
  have hcurrent : promoteCurrent s.machine = .ok env' { w with env := env' } := by
    simp only [promoteCurrent, get_bind_apply]
    rw [bind_ok hw]
    rfl
  cases hcurrent.symm.trans hrun
  have hlow := hmoved.arranged_below hregs h.laid harr.linked
  have hlow' : Arranged segs { w with env, sp := s.machine.sp - s.operands.length } :=
    { hlow with env := .closed henv }
  have htop : OnTop segs s.operands { w with env } :=
    h.toOnTop.of_same hlow' hregs.sp hmoved.size fun i hi _ => hmoved.stays_above h.laid hi
  refine ⟨h.replace htop ?_ hregs.bp rfl rfl ?_, hsame, rfl, henv⟩
  · change w.sp - _ = _
    rw [hregs.sp]
  · change Recalls w.stack w.heap segs w.cont s.callers
    rw [hregs.cont]
    exact h.carry hmoved.undisturbed hmoved.heap.continuations

theorem scope {env : Env} (h : Placed segs s) (hc : env.ClosedIn s.machine.heap) :
    Placed segs { s with machine.env := env } := by
  have htop : OnTop segs s.operands { s.machine with env } :=
    h.toOnTop.of_same { h.laid with env := .closed hc } rfl rfl fun _ _ _ => rfl
  exact h.replace htop rfl rfl rfl rfl h.recalls

theorem call_top (h : Placed segs s) (hleft : s.left = false)
    (hroom : s.machine.sp + 4 ≤ s.machine.capacity) (target : Nat) (offset : Int) :
    ∃ segs', Placed segs' (s.next (s.machine.called target) (.call offset)) := by
  obtain ⟨hle, -⟩ := h.bounds
  have hlo : s.machine.sp - s.operands.length + s.operands.length = s.machine.sp := by omega
  obtain ⟨hpoint, hlaid⟩ := (h.wellLaid hleft).called_above hlo.symm hroom target
  have hcell {i : Nat} (hi : i < s.machine.sp) :
      (s.machine.called target).stack[i]? = s.machine.stack[i]? :=
    getElem?_called hi target
  have hsize := s.machine.size_called target
  refine ⟨_, ?_, fun _ => hlaid, fun _ hd => (by cases hd), ?_⟩
  · exact .of_values (s.machine.sp + 4) hlaid.toArranged rfl hlaid.room fun i hi => by cases hi
  · refine .point rfl ?_ List.suffix_rfl hpoint ?_
      (h.carry (.of_cells hsize fun i hi => hcell (by omega)) (.refl _))
    · change s.machine.sp + 4 = s.machine.sp - s.operands.length + s.operands.length + 4
      omega
    · change Caller.KeptIn _ ((s.machine.called target).stack.extract s.machine.bp _)
      rw [hlo, Moved.extract_eq hsize fun i _ hi => hcell hi]
      refine h.keptIn ?_
      have hbp : s.machine.bp ≤ s.machine.sp - s.operands.length := (h.wellLaid hleft).bp_le
      change s.machine.bp + (s.machine.sp + 4 - 4 - s.machine.bp - s.operands.length) =
        s.machine.sp - s.operands.length
      omega

theorem call {offset : Int} (h : Placed segs s) (hleft : s.left = false)
    (hrun : pushReturnPoint offset s.machine = .ok () m) :
    (∃ segs', Placed segs' (s.next m (.call offset))) ∧ s.Grows m ∧
      (s.direct = true → m.sp - 4 - m.bp - s.operands.length = 0) := by
  obtain ⟨target, m₁, hm₁, hfit, rfl⟩ := pushReturnPoint_eq_ok hrun
  obtain ⟨segs', hp, hg⟩ := h.makeRoom hleft hm₁
  refine ⟨hp.call_top hleft hfit target offset, ⟨hg.extended, hg.created⟩, fun hd => ?_⟩
  have := hp.direct hleft hd
  change m₁.bp + s.operands.length = m₁.sp at this
  change m₁.sp + 4 - 4 - m₁.bp - s.operands.length = 0
  omega

end Placed

/-! ## Returning -/

/-- The last caller goes on with its operands. The host does not set the base anew. -/
structure WentBack (segs : List Segment) (a : Caller) (callers : List Caller) (m m' : Machine) :
    Prop where
  top : OnTop segs a.operands m'
  wellLaid : (a.host = true → m.bp ≤ m.sp) →
    WellLaid segs { m' with sp := m'.sp - a.operands.length }
  sp : a.host = false → m'.sp = m'.bp + a.under + a.operands.length
  recalls : Recalls m'.stack m'.heap segs m'.cont callers
  continuations : m'.heap.continuations = m.heap.continuations

/-- A return through the stack finds the operands of the caller where they were. -/
theorem Arranged.back_through_point {c start id : Nat} {p : ReturnPoint} (hm : Arranged segs m)
    (hcont : m.cont = .onStack c) (hc : c = start + a.operands.length + 4)
    (hs : .point start a.operands.length id :: rest <:+ segs)
    (hp : PointCells m.stack start a.operands.length p)
    (hkept : a.KeptIn (m.stack.extract p.bp (start + a.operands.length)))
    (hprev : Recalls m.stack m.heap rest p.prev callers) (hrun : Machine.ret m = .ok () m') :
    WentBack rest a callers m m' := by
  subst hc
  obtain ⟨htop, ⟨q, hq⟩, hstacked⟩ := hm.stacked.at_suffix hs
  have hpoint := hp.returnPoint htop
  cases hpoint.symm.trans (hq.returnPoint htop)
  obtain ⟨env, hres, henv⟩ := hm.resolve (suffix_of_cons_suffix hs).subset hq.env
  have hret := hm.returned hs hq henv
  obtain rfl : m.returned (start + a.operands.length + 4) p env = m' := by
    cases (ret_of_point hcont hpoint hres htop hm.room).symm.trans hrun
    rfl
  generalize hm' : m.returned (start + a.operands.length + 4) p env = m' at hret
  have hsp : m'.sp = start + a.operands.length := by rw [← hm']; rfl
  have hbp : m'.bp = p.bp := by rw [← hm']; rfl
  have hheap : m'.heap = m.heap := by rw [← hm']; rfl
  have hcell {i : Nat} (hi : i < start + a.operands.length) : m'.stack[i]? = m.stack[i]? := by
    rw [← hm']
    exact Cells.getElem?_clear_lt hi
  have hsize : m'.stack.size = m.stack.size := by
    rw [← hm']
    simp [Machine.returned]
  have hlow : Arranged rest { m' with sp := start } :=
    { hret with
      room := (Nat.le_add_right start a.operands.length).trans (hsp ▸ hret.room)
      stacked := by
        change Stacked (SegmentIn m'.heap m'.stack) start rest
        rw [hheap]
        exact hstacked.congr_below (fun i hi => hcell (Nat.lt_add_right _ hi)) (.refl _) }
  have hle := hp.bp_le
  rw [← hbp, ← hsp, ← Moved.extract_eq hsize fun i _ hi => hcell (hsp ▸ hi)] at hkept
  obtain ⟨hlen, hvalues⟩ := hkept.getElem? hret.room (by omega)
  have hstart : m'.bp + a.under = start := by omega
  rw [hstart] at hvalues
  refine
    { top := .of_values _ hlow hsp hret.room hvalues
      wellLaid := fun _ => ⟨?_, ?_, ?_⟩
      sp := fun _ => hlen
      recalls := ?_
      continuations := by rw [hheap] }
  · rw [hsp, Nat.add_sub_cancel]
    exact hlow
  · change m'.bp ≤ m'.sp - a.operands.length
    omega
  · change ∀ start count id, _ → _ ≤ m'.bp
    rw [hbp]
    exact hq.frames_le
  · have hcont' : m'.cont = p.prev := by rw [← hm']; rfl
    rw [hheap, hcont']
    exact hprev.carry List.suffix_rfl hstacked
      (.of_cells hsize fun i hi => hcell (Nat.lt_add_right _ hi)) (.refl _)

theorem Arranged.back_through_object {k : Ref .continuation} {o : Continuation} {ip : Nat}
    (hm : Arranged segs m) (hcont : m.cont = .onHeap k) (ho : m.heap.continuation k = .ok o)
    (hcode : o.resume = .code ip) (hkept : a.KeptIn o.saved)
    (hprev : Recalls m.stack m.heap [] o.prev callers) (hrun : Machine.ret m = .ok () m') :
    WentBack [] a callers m m' := by
  have hroom : m.sp - m.bp + o.saved.size ≤ m.capacity := by
    by_contra hover
    obtain ⟨_, herr⟩ := (hm.ret_overflow_iff hcont ho hcode).1.2 (Nat.not_le.1 hover)
    cases herr.symm.trans hrun
  obtain ⟨_, hresume, hres, harr⟩ := hm.resume hcont ho hcode hroom
  cases ((ret_of_onHeap hcont).trans hresume).symm.trans hrun
  have hclosed (lo : Nat) (hlo : lo ≤ m'.sp) : Arranged [] { m' with sp := lo } :=
    { harr with room := hlo.trans harr.room, stacked := .nil }
  have hbp : m'.bp ≤ m'.sp := hres.sp ▸ Nat.le_add_right ..
  have hsame : m'.heap.continuations = m.heap.continuations :=
    hres.heap.continuations.eq_of_size hres.size
  rw [← hres.values] at hkept
  obtain ⟨hlen, hvalues⟩ := hkept.getElem? harr.room hbp
  refine
    { top := .of_values _ (hclosed _ (by omega)) hlen harr.room hvalues
      wellLaid := fun _ => .of_nil (hclosed _ (Nat.sub_le ..)) ?_
      sp := fun _ => hlen
      recalls := ?_
      continuations := hsame }
  · change m'.bp ≤ m'.sp - a.operands.length
    omega
  · have hcont' : m'.cont = o.prev := by rw [hres.rest]
    rw [hcont']
    exact hprev.of_heap (hsame ▸ .refl _)

/-- A marker hands the result to the host and leaves the stack alone. -/
theorem Arranged.back_through_marker {k : Ref .continuation} {o : Continuation} {id : Nat}
    (hm : Arranged segs m) (hcont : m.cont = .onHeap k) (ho : m.heap.continuation k = .ok o)
    (hhost : o.resume = .host id) (hprev : Recalls m.stack m.heap [] o.prev callers)
    (hrun : Machine.ret m = .ok () m') : WentBack [] .ofHost callers m m' := by
  rw [ret_of_onHeap hcont, resume_host ho hhost] at hrun
  split at hrun
  next =>
    cases hrun
    obtain ⟨henv, hclosed⟩ := hm.linked.continuations o (Heap.mem_of_continuation ho)
    have harr : Arranged [] { m with env := o.env, cont := o.prev, hosts.returned := some id } :=
      .of_closed hm.room henv hclosed hm.linked
    exact
      { top := .of_values m.sp harr rfl hm.room fun i hi => by cases hi
        wellLaid := fun hbp => .of_nil harr (hbp rfl)
        sp := fun h => by cases h
        recalls := hprev
        continuations := rfl }
  next => cases hrun

theorem Arranged.back (hm : Arranged segs m)
    (hr : Recalls m.stack m.heap segs m.cont (a :: callers)) (hrun : Machine.ret m = .ok () m') :
    ∃ segs', WentBack segs' a callers m m' := by
  generalize hcont : m.cont = cont at hr
  cases hr with
  | point _ hc hs hp hkept hprev => exact ⟨_, hm.back_through_point hcont hc hs hp hkept hprev hrun⟩
  | @object _ k o _ _ ho ha hkept hprev =>
    cases hres : o.resume with
    | code ip => exact ⟨_, hm.back_through_object hcont ho hres hkept hprev hrun⟩
    | host id =>
      rw [hres] at ha
      obtain rfl : a = .ofHost := ha
      exact ⟨_, hm.back_through_marker hcont ho hres hprev hrun⟩
    | halt =>
      rw [hres] at ha
      exact ha.elim

namespace Placed

theorem backTo (hback : WentBack segs a callers m m') (hbp : s.left = false → m.bp ≤ m.sp)
    (hdirect : a.direct = true → a.under = 0) : Placed segs (s.backTo m' (a :: callers)) where
  toOnTop := hback.top
  wellLaid hl := by
    refine hback.wellLaid fun hhost => hbp ?_
    simpa [Session.backTo, hhost] using hl
  direct _ hd := by
    simp only [Session.backTo, Bool.and_eq_true, Bool.not_eq_true'] at hd
    have hsp := hback.sp hd.2
    rw [hdirect hd.1] at hsp
    exact hsp.symm
  recalls := hback.recalls

theorem bp_le (h : Placed segs s) (hleft : s.left = false) :
    s.machine.bp ≤ s.machine.sp - s.operands.length :=
  (h.wellLaid hleft).bp_le

theorem ret (h : Placed segs s)
    (hr : Recalls s.machine.stack s.machine.heap segs s.machine.cont (a :: callers))
    (hdirect : a.direct = true → a.under = 0) (hrun : Machine.ret s.machine = .ok () m) :
    (∃ segs', Placed segs' (s.backTo m (a :: callers))) ∧
      m.heap.continuations = s.machine.heap.continuations := by
  obtain ⟨segs', hback⟩ := h.arranged.back hr hrun
  exact ⟨⟨segs', backTo hback (fun hl => (h.bp_le hl).trans (Nat.sub_le ..)) hdirect⟩,
    hback.continuations⟩

/-- What is applied to a value goes on as if it had been returned through. -/
theorem reenter {k : Ref .continuation} (h : Placed segs s) (hne : s.operands ≠ [])
    (hr : Recalls s.machine.stack s.machine.heap [] (.onHeap k) (a :: callers))
    (hdirect : a.direct = true → a.under = 0) (hrun : (Act.reenter k).exec s.machine = .ok () m) :
    (∃ segs', Placed segs' (s.backTo m (a :: callers))) ∧
      m.heap.continuations = s.machine.heap.continuations := by
  obtain ⟨hle, hroom⟩ := h.bounds
  have hpos : 0 < s.operands.length := List.length_pos_iff.2 hne
  obtain ⟨v, hv⟩ : ∃ v, s.machine.stack[s.machine.sp - 1]? = some v := by
    unfold capacity at hroom
    exact ⟨_, Array.getElem?_eq_getElem (by omega)⟩
  have hlow : Arranged segs { s.machine with sp := s.machine.sp - 1 } :=
    Arranged.raise (m := { s.machine with sp := s.machine.sp - 1 }) h.laid
      (by change s.machine.sp - s.operands.length ≤ s.machine.sp - 1; omega)
      (by change s.machine.sp - 1 ≤ s.machine.capacity; omega)
  have hone : OnTop segs [v] { s.machine with argc := 1 } := by
    refine .of_values (s.machine.sp - 1) { hlow with } ?_ hroom fun i hi => ?_
    · change s.machine.sp = s.machine.sp - 1 + 1
      omega
    · obtain rfl : i = 0 := Nat.lt_one_iff.1 hi
      exact hv
  have hpassed : Passed segs [v] { s.machine with argc := 1 } := { hone with argc := rfl }
  obtain ⟨o, ho⟩ : ∃ o, s.machine.heap.continuation k = .ok o := by
    cases hr with
    | object ho => exact ⟨_, ho⟩
  change enterContinuation k { s.machine with argc := 1 } = .ok () m at hrun
  rw [hpassed.enterContinuation_eq ho] at hrun
  obtain ⟨segs', hback⟩ :=
    (hpassed.handed ho).back ((hr.of_heap (.refl _)).mono List.nil_suffix) hrun
  refine ⟨⟨segs', backTo hback (fun hl => ?_) hdirect⟩, hback.continuations⟩
  have := h.bp_le hl
  change s.machine.bp ≤ s.machine.sp - 1
  omega

end Placed

/-! ## Calls from the host -/

theorem awaitReturn_one_eq_ok {id : Nat} (h : awaitReturn 1 id m = .ok () m') :
    ∃ hosts, m' = { m with hosts } := by
  rw [awaitReturn, modifyGet_bind_apply] at h
  simp only [registers_eq] at h
  cases hturn : (m.hosts.turn m.runnable id).1 with
  | done =>
    rw [hturn] at h
    cases h
    exact ⟨_, rfl⟩
  | unwind =>
    rw [hturn] at h
    cases h
  | step =>
    rw [hturn] at h
    obtain ⟨_, _, _, hzero⟩ := bind_eq_ok h
    cases hzero

theorem Arranged.closed_of_offStack (hm : Arranged segs m) (hoff : Session.offStack m = true) :
    m.env.ClosedIn m.heap ∧ m.cont.ClosedIn m.heap := by
  obtain ⟨-, -, henv, hcont, -⟩ := hm
  unfold Session.offStack at hoff
  generalize m.env = env at henv hoff
  generalize m.cont = cont at hcont hoff
  cases henv with
  | onStack => cases hoff
  | closed henv =>
    cases hcont with
    | onStack => cases env <;> cases hoff
    | closed hcont => exact ⟨henv, hcont⟩

namespace Placed

/-- What the registers name has moved to the heap, and a marker is left in front of it. -/
theorem marked {cont : Cont} (h : Placed segs s) (hleft : s.left = false)
    (henv : s.machine.env.ClosedIn s.machine.heap) (hcont : cont.ClosedIn s.machine.heap)
    (hrec : Recalls s.machine.stack s.machine.heap [] cont s.callers) :
    Placed [] (s.calledBy .ofHost (s.machine.marked cont s.machine.env)) := by
  have hgrown := Heap.Grown.pushContinuation (h := s.machine.heap)
    (.marker s.machine.hosts.next cont s.machine.env)
  have harr : Arranged [] (s.machine.marked cont s.machine.env) :=
    .of_closed h.bounds.2 (henv.mono hgrown)
      (by simp [Cont.ClosedIn, Machine.marked, Heap.addContinuation])
      (h.laid.linked.pushContinuation henv hcont)
  have hbp := (h.bp_le hleft).trans (Nat.sub_le ..)
  refine
    { toOnTop := .of_values s.machine.sp harr rfl harr.room fun i hi => by cases hi
      wellLaid := fun _ => .of_nil harr hbp
      direct := fun _ hd => by cases hd
      recalls := ?_ }
  refine .object (Heap.continuation_eq_ok.2 Array.getElem?_push_size) rfl ⟨[], rfl, rfl⟩ ?_
  exact hrec.of_heap hgrown.continuations

theorem hostCall {id : Nat} (h : Placed segs s) (hleft : s.left = false)
    (hrun : beginCall s.machine = .ok id m) :
    Placed [] (s.calledBy .ofHost m) ∧
      Session.Grows { s with callers := .ofHost :: s.callers } m := by
  obtain ⟨env, m₁, hpromote, hrun⟩ := bind_eq_ok hrun
  obtain ⟨h₁, hsame, rfl, hclosed⟩ := h.promote hpromote
  rw [get_bind_apply] at hrun
  obtain ⟨cont, m₂, hcont, hrun⟩ := bind_eq_ok hrun
  obtain ⟨_, _, target, hcont', hmoved, hregs, harr, hcl, hcopied, hcopies⟩ :=
    h₁.arranged.promoteCont h₁.arranged.cont
  cases hcont'.symm.trans hcont
  obtain rfl : m₂.marked cont m₁.env = m := by
    cases hrun
    rfl
  have hrec := (h₁.carry hmoved.undisturbed hmoved.heap.continuations).copied hcopied
  have h₂ := h₁.withCont hmoved hregs harr.linked hcl (hrec.mono List.nil_suffix)
  refine ⟨?_, ?_, fun i o hi ho => .inr ?_⟩
  · have henv : m₂.env.ClosedIn m₂.heap := hregs.env ▸ hclosed.mono hmoved.heap
    rw [← hregs.env]
    exact h₂.marked hleft henv hcl hrec
  · exact (hsame ▸ hmoved.heap.continuations).trans (.push _ _)
  · change (m₂.heap.continuations.push _)[i]? = some o at ho
    change s.machine.heap.continuations.size ≤ i at hi
    rw [Array.getElem?_push] at ho
    split at ho
    · cases ho
      exact ⟨.ofHost, List.mem_cons_self, [], rfl, rfl⟩
    · obtain ⟨a, ha, hkept⟩ := h₁.recalls.of_copies h₁.arranged hmoved hcopies (hsame ▸ hi) ho
      exact ⟨a, List.mem_cons_of_mem _ ha, hkept⟩

theorem hostDone {id ip argc sp : Nat} (h : Placed segs s)
    (hoff : Session.offStack s.machine = true)
    (hrun : (Act.hostDone id ip argc sp).exec s.machine = .ok () m) :
    Placed [] { s with machine := m, operands := [], direct := true, left := false } ∧
      m.heap.continuations = s.machine.heap.continuations := by
  obtain ⟨_, m₁, hawait, hrun⟩ := bind_eq_ok hrun
  obtain ⟨hosts, rfl⟩ := awaitReturn_one_eq_ok hawait
  cases hrun
  obtain ⟨henv, hcont⟩ := h.arranged.closed_of_offStack hoff
  refine ⟨fresh ?_ rfl rfl ?_, rfl⟩
  · exact .of_closed ((Nat.min_le_right ..).trans h.bounds.2) henv hcont h.laid.linked
  · refine h.recalls.offStack fun c hc => ?_
    rw [hc] at hcont
    exact hcont

theorem hostFail {id : Nat} {f : Fault} (h : Placed segs s)
    (hrun : (Act.hostFail id f).exec s.machine = .ok () m) :
    Placed segs { s with machine := m } ∧ m.heap.continuations = s.machine.heap.continuations := by
  cases hrun
  have htop : OnTop segs s.operands (s.machine.released id) :=
    h.toOnTop.of_same { h.laid with } rfl rfl fun _ _ _ => rfl
  exact ⟨h.replace htop rfl rfl rfl rfl h.recalls, rfl⟩

end Placed

/-! ## Leaving a frame -/

theorem reuseFrame_eq_ok (hrun : reuseFrame n m = .ok () m') :
    m.env = .empty ∧ m' = m ∨
      (∃ r parent, m.innermost m.env = .ok (.onHeap r, parent) ∧ m' = { m with env := parent }) ∨
      ∃ start count parent, m.innermost m.env = .ok (.onStack start count, parent) := by
  by_cases hempty : m.env = .empty
  · simp only [reuseFrame, get_bind_apply, hempty] at hrun
    cases hrun
    exact .inl ⟨hempty, rfl⟩
  · rcases hi : m.innermost m.env with e | ⟨⟨start, count⟩ | r, parent⟩
    · cases henv : m.env with
      | empty => exact absurd henv hempty
      | _ =>
        rw [henv] at hi
        simp only [reuseFrame, get_bind_apply, henv] at hrun
        rw [query_bind_error hi] at hrun
        cases hrun
    · exact .inr (.inr ⟨start, count, parent, rfl⟩)
    · rw [reuseFrame_eq hempty hi] at hrun
      cases hrun
      exact .inr (.inl ⟨r, parent, rfl, rfl⟩)

theorem OnTop.last (h : OnTop segs vs m) (hn : n ≤ vs.length) :
    (m.stack.extract (m.sp - n) m.sp).toList = vs.drop (vs.length - n) := by
  obtain ⟨hle, hroom⟩ := h.bounds
  unfold capacity at hroom
  refine List.ext_getElem? fun i => ?_
  rw [Array.getElem?_toList, Array.getElem?_extract, List.getElem?_drop]
  by_cases hi : i < n
  · rw [if_pos (by omega), ← h.value (by omega)]
    congr 1
    omega
  · rw [if_neg (by omega), List.getElem?_eq_none (by omega)]

theorem Placed.withLeft (htop : OnTop segs vs m)
    (hrec : Recalls m.stack m.heap segs m.cont s.callers) :
    Placed segs { s with machine := m, operands := vs, left := true } where
  toOnTop := htop
  wellLaid hl := by cases hl
  direct hl := by cases hl
  recalls := hrec

/-- A frame on the stack is left. Of the operands the last ones take its place. -/
theorem Placed.leave_onStack {start count : Nat} {parent : Env} (h : Placed segs s)
    (hi : s.machine.innermost s.machine.env = .ok (.onStack start count, parent))
    (htop : s.machine.cont.top ≤ start) (hn : n ≤ s.operands.length)
    (hrun : reuseFrame n s.machine = .ok () m) :
    (∃ segs', Placed segs' { s with
      machine := m, operands := s.operands.drop (s.operands.length - n), left := true }) ∧
      m.heap.continuations = s.machine.heap.continuations := by
  obtain ⟨id, rest, henv, hs, hf⟩ := h.arranged.frameCells_of_innermost h.arranged.env hi
  have hbelow := (h.laid.stacked.at_suffix hs).1
  change start + count + 3 ≤ s.machine.sp - s.operands.length at hbelow
  obtain ⟨hle, hroom⟩ := h.bounds
  have hfit : start + n ≤ s.machine.sp := by omega
  cases (reuseFrame_live henv hf hfit hroom).symm.trans hrun
  have hlen : (s.operands.drop (s.operands.length - n)).length = n := by
    rw [List.length_drop]
    omega
  have hlast := h.last hn
  generalize s.operands.drop (s.operands.length - n) = args at hlen hlast ⊢
  subst hlen
  have hpassed := h.arranged.passed_vacated hs (h.arranged.parentIn hs hf) htop hfit hlast
  refine ⟨⟨rest, withLeft ⟨{ hpassed.laid with }, hpassed.values⟩ ?_⟩, rfl⟩
  exact (h.recalls.below_frame h.arranged hs htop).carry List.suffix_rfl
    (h.arranged.stacked.at_suffix hs).2.2
    (.of_cells (by simp [vacated]) fun i hi => getElem?_vacated hfit hroom parent hi) (.refl _)

theorem Placed.leave (h : Placed segs s) (howns : Session.ownsFrame s.machine = true)
    (hn : n ≤ s.operands.length) (hrun : reuseFrame n s.machine = .ok () m) :
    (∃ segs', Placed segs' { s with machine := m, operands := s.kept n, left := true }) ∧
      m.heap.continuations = s.machine.heap.continuations := by
  unfold Session.kept
  unfold Session.ownsFrame at howns
  rcases reuseFrame_eq_ok hrun with
    ⟨hempty, rfl⟩ | ⟨r, parent, hi, rfl⟩ | ⟨start, count, parent, hi⟩
  · rw [hempty]
    exact ⟨⟨segs, withLeft h.toOnTop h.recalls⟩, rfl⟩
  · obtain ⟨f, hf, rfl⟩ := exists_frame_of_innermost hi
    have hparent := h.laid.linked.frames f (Array.mem_of_getElem? hf)
    rw [hi]
    exact ⟨⟨segs, withLeft (h.scope hparent).toOnTop h.recalls⟩, rfl⟩
  · rw [hi] at howns ⊢
    exact h.leave_onStack hi (of_decide_eq_true howns) hn hrun

end LispMachine
