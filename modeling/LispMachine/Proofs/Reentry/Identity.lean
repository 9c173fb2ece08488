import LispMachine.Proofs.Arrangement.Unwinding
import LispMachine.Proofs.Control.Escape
import LispMachine.Proofs.Reentry.Order

/-! # Continuations that are entered again

A continuation that was captured stays what it was. Whenever it is applied later, the machine
resumes what a return at the time of the capture would have resumed, however often this is done and
whatever stands on the stack by then.
-/

namespace LispMachine

open Machine LispMachine.Configuration

/-! ## Machines that represent others -/

section Represented

variable {ρ : Naming} {segs : List Segment} {lo : Nat} {m : Machine} {r : HeapMachine} {h g : Heap}
  {env env' : Env} {cont cont' : Cont}

theorem HeapAgree.env_closed (hh : HeapAgree ρ h g) (he : EnvAgree ρ env env') :
    env.ClosedIn h := by
  cases he with
  | empty => trivial
  | onHeap hj =>
    obtain ⟨f, -, hf, -⟩ := hh.frames _ _ hj
    exact (Array.getElem?_eq_some_iff.1 hf).1

theorem HeapAgree.cont_closed (hh : HeapAgree ρ h g) (hc : ContAgree ρ cont cont') :
    cont.ClosedIn h := by
  cases hc with
  | empty => trivial
  | onHeap hk =>
    obtain ⟨c, -, hc, -⟩ := hh.continuations _ _ hk
    exact (Array.getElem?_eq_some_iff.1 hc).1

theorem HeapAgree.envIn (hh : HeapAgree ρ h g) (he : EnvOn ρ segs env env') : EnvIn h segs env := by
  cases he with
  | onStack hmem => exact .onStack hmem
  | agree he => exact .closed (hh.env_closed he)

theorem HeapAgree.contIn (hh : HeapAgree ρ h g) (hc : ContOn ρ segs cont cont') :
    ContIn h segs cont := by
  cases hc with
  | onStack hmem => exact .onStack hmem
  | agree hc => exact .closed (hh.cont_closed hc)

theorem HeapAgree.linked (hh : HeapAgree ρ h g) : h.Linked where
  frames f hf := by
    obtain ⟨q, hq, rfl⟩ := Array.mem_iff_getElem.1 hf
    obtain ⟨j, hj⟩ := hh.named_frame q hq
    obtain ⟨f, _, hf, -, ha⟩ := hh.frames j q hj
    rw [Array.getElem?_eq_getElem hq] at hf
    cases hf
    exact hh.env_closed ha.parent
  closures c hc := by
    obtain ⟨q, hq, rfl⟩ := Array.mem_iff_getElem.1 hc
    have hlt : q < g.closures.size := hh.closures.1 ▸ hq
    have hc := hh.closures.rel (Array.getElem?_eq_getElem hq) (Array.getElem?_eq_getElem hlt)
    exact hh.env_closed hc.env
  continuations c hc := by
    obtain ⟨q, hq, rfl⟩ := Array.mem_iff_getElem.1 hc
    obtain ⟨k, hk⟩ := hh.named_cont q hq
    obtain ⟨c, _, hc, -, ha⟩ := hh.continuations k q hk
    rw [Array.getElem?_eq_getElem hq] at hc
    cases hc
    exact ⟨hh.env_closed ha.env, hh.cont_closed ha.prev⟩

theorem Core.segmentIn (hm : Core ρ segs lo m r) {rest : List Segment} {s : Segment}
    (hs : SegmentAt ρ m.stack r.heap r.born rest s) : SegmentIn m.heap m.stack rest s := by
  cases s with
  | frame start count j =>
    rcases hs with ⟨q, hq, hj⟩ | ⟨parent, f, hf⟩
    · obtain ⟨f, -, hf, -⟩ := hm.heap.frames _ _ hj
      exact .inl ⟨q, hq, (Array.getElem?_eq_some_iff.1 hf).1⟩
    · exact .inr ⟨parent, hf.toFrameCells, hm.heap.envIn hf.parent⟩
  | point start count k =>
    obtain ⟨p, c, hp⟩ := hs
    exact ⟨p, { hp.toPointCells with
      frames_le := hp.frames_le
      env := hm.heap.envIn hp.env
      prev := hm.heap.contIn hp.prev }⟩

theorem Represents.arranged (hm : Represents ρ segs lo m r) : Arranged segs m where
  room := hm.room
  stacked := (hm.stacked.imp fun _ _ _ hs => hm.segmentIn hs).mono (by have := hm.sp; omega)
  env := hm.heap.envIn hm.env
  cont := hm.heap.contIn hm.cont
  linked := hm.heap.linked

/-- Nothing below the base is of any use: the machine represents one without a stack, whatever
stands in those cells. -/
def Machine.Detached (m : Machine) : Prop :=
  ∃ ρ r, Represents ρ [] m.bp m r ∧ ∀ stack : Array Value, stack.size = m.stack.size →
    (∀ i, m.bp ≤ i → stack[i]? = m.stack[i]?) → (∀ v ∈ stack, Known ρ v) →
      Represents ρ [] m.bp { m with stack } r

/-- A machine that refers only to the heap has no use for what lies below its base. -/
theorem Represents.detached (hm : Represents ρ segs lo m r) (he : m.env.ClosedIn m.heap)
    (hc : m.cont.ClosedIn m.heap) (hbp : m.bp ≤ m.sp) : m.Detached := by
  have henv : m.env.top = 0 := by
    generalize m.env = env at he
    cases env with
    | onStack => exact he.elim
    | _ => rfl
  have hcont : m.cont.top = 0 := by
    generalize m.cont = cont at hc
    cases cont with
    | onStack => exact hc.elim
    | _ => rfl
  obtain ⟨sub, operands, -, hsize, h⟩ :=
    hm.regroup r.leaving id (by omega) (by omega) hbp fun _ => le_rfl
  have henv' : EnvAgree ρ m.env r.env := by
    have hon := hm.env
    generalize m.env = env, r.env = env' at hon he
    cases hon with
    | onStack => exact he.elim
    | agree h => exact h
  have hcont' : ContAgree ρ m.cont r.cont := by
    have hon := hm.cont
    generalize m.cont = cont, r.cont = cont' at hon hc
    cases hon with
    | onStack => exact hc.elim
    | agree h => exact h
  have hnil : Represents ρ [] m.bp m { r with operands, demand := r.demand.rebase m.bp } :=
    h.toCore.represents_nil henv' hcont' (Nat.le_add_right ..)
  refine ⟨ρ, _, hnil, fun stack hstack hcells hknown => ?_⟩
  exact
    { hnil with
      room := hnil.room.trans_eq hstack.symm
      least := hnil.least.trans_eq hstack.symm
      operands := hnil.operands.congr fun i hi _ => hcells i hi
      known := hknown
      stacked := .nil }

end Represented

/-! ## Returning and entering -/

section Returning

variable {segs : List Segment} {target : Nat → Option Nat} {m w t A B : Machine}
  {r : Ref .continuation} {o : Continuation} {v : Value}

/-- Two machines have resumed the same: code at the same place, with the same operands, environment
and rest of the continuation, or the same host call, or nothing at all. Frames of the first one are
found as `w` has moved them. -/
inductive SameResumption (w A B : Machine) : Resume → Prop
  | code {ip : Nat} : A.ip = ip → B.ip = ip →
    B.stack.extract B.bp B.sp = A.stack.extract A.bp A.sp → w.resolve A.env = .ok B.env →
    (∀ depth index, w.slot? B.env depth index = A.slot? A.env depth index) →
    Copied w A.cont B.cont → SameResumption w A B (.code ip)
  | host {id : Nat} : A.hosts.returned = some id → B.hosts.returned = some id →
    B.env = A.env → B.cont = A.cont → SameResumption w A B (.host id)
  | halt : A.runnable = false → B.runnable = false → SameResumption w A B .halt

/-- There is room for the values of the continuation, and a host call that it ends is in
progress. -/
def Machine.CanReturn (m : Machine) (o : Continuation) : Prop :=
  m.sp - m.bp + o.saved.size ≤ m.capacity ∧ ∀ id, o.resume = .host id → id ∈ m.hosts.active

/-- The machine `A` has come from `m` through a continuation on the heap. -/
structure Continuation.Restored (o : Continuation) (m A : Machine) : Prop where
  code : ∀ ip, o.resume = .code ip → Resumed m o ip A
  host : ∀ id, o.resume = .host id → A = m.handedBack o id
  halt : o.resume = .halt → A = { m with runnable := false }

theorem Arranged.ret_object (hm : Arranged segs m) (hr : m.cont = .onHeap r)
    (ho : m.heap.continuation r = .ok o) (hA : ret m = .ok () A) : o.Restored m A := by
  rw [ret_of_onHeap hr] at hA
  refine ⟨fun ip hres => ?_, fun id hres => ?_, fun hres => ?_⟩
  · have hroom : m.sp - m.bp + o.saved.size ≤ m.capacity := by
      by_contra hlt
      obtain ⟨m', hm', -⟩ := hm.resume_overflow hr ho hres (Nat.not_le.1 hlt)
      cases hm'.symm.trans hA
    obtain ⟨A', hA', hresumed, -⟩ := hm.resume hr ho hres hroom
    cases hA'.symm.trans hA
    exact hresumed
  · rw [resume_host ho hres] at hA
    split at hA
    · cases hA
      rfl
    · cases hA
  · cases (resume_halt ho hres).symm.trans hA
    rfl

theorem Continuation.Restored.hosts (h : o.Restored m A) :
    A.hosts = { m.hosts with returned := A.hosts.returned } := by
  cases hres : o.resume with
  | code ip => rw [(h.code ip hres).rest]
  | host id => rw [h.host id hres, handedBack]
  | halt => rw [h.halt hres]

theorem ret_acc (hA : ret m = .ok () A) : A.acc = m.acc := by
  rcases ret_ways m with hret | ⟨s, hret, -⟩ | ⟨r, k, id, -, -, -, -, hret⟩ | ⟨x, hret, hx⟩
  · cases hret.symm.trans hA
    rfl
  · cases hret.symm.trans hA
  · cases hret.symm.trans hA
    rfl
  · exact (hx SameAcc).ok (hret.symm.trans hA)

theorem Arranged.exists_ret_object (hm : Arranged segs m) (hr : m.cont = .onHeap r)
    (ho : m.heap.continuation r = .ok o) (hreturn : m.CanReturn o) : ∃ A, ret m = .ok () A := by
  rw [ret_of_onHeap hr]
  cases hres : o.resume with
  | code ip =>
    obtain ⟨A, hA, -⟩ := hm.resume hr ho hres hreturn.1
    exact ⟨A, hA⟩
  | host id => exact ⟨_, (resume_host ho hres).trans (if_pos (hreturn.2 id hres))⟩
  | halt => exact ⟨_, resume_halt ho hres⟩

def Captured (m w : Machine) (r : Ref .continuation) (o : Continuation) : Prop :=
  w.heap.continuation r = .ok o ∧
    (Copied w m.cont (.onHeap r) ∨ m.cont = .empty ∧ o = .halting)

theorem Arranged.captured_object (hm : Arranged segs m) (hw : Moved segs target m w)
    (ho : Captured m w r o) {k : Ref .continuation} (hk : m.cont = .onHeap k) :
    k = r ∧ m.heap.continuation k = .ok o := by
  obtain ⟨ho, hcopied | ⟨hempty, -⟩⟩ := ho
  · have hclosed : (Cont.onHeap k).ClosedIn m.heap := by
      have hc := hm.cont
      rw [hk] at hc
      cases hc
      assumption
    rw [hk] at hcopied
    cases hcopied
    obtain ⟨c, hc⟩ := hclosed.exists_continuation
    cases (hw.heap.continuation hc).symm.trans ho
    exact ⟨rfl, hc⟩
  · rw [hk] at hempty
    cases hempty

theorem Arranged.exists_ret_captured (hm : Arranged segs m) (hw : Moved segs target m w)
    (ho : Captured m w r o) (hreturn : m.CanReturn o) : ∃ A, ret m = .ok () A := by
  cases hk : m.cont with
  | empty => exact ⟨_, ret_of_empty hk⟩
  | onStack c =>
    obtain ⟨_, _, _, _, _, _, -, -, -, -, hret, -⟩ := hm.ret_point hk
    exact ⟨_, hret⟩
  | onHeap k => exact hm.exists_ret_object hk (hm.captured_object hw ho hk).2 hreturn

/-- A return at the time of the capture and one through what was captured resume the same. -/
theorem Arranged.sameResumption (hm : Arranged segs m) (hw : Moved segs target m w)
    (hsp : w.sp = m.sp) (ho : Captured m w r o) (hA : ret m = .ok () A) (hB : o.Restored t B) :
    SameResumption w A B o.resume := by
  cases hk : m.cont with
  | empty =>
    obtain ⟨ho, hcopied | ⟨-, rfl⟩⟩ := ho
    · rw [hk] at hcopied
      cases hcopied
    · cases (ret_of_empty hk).symm.trans hA
      rw [hB.halt rfl]
      exact .halt rfl rfl
  | onStack c =>
    obtain ⟨ho, hcopied | ⟨hempty, -⟩⟩ := ho
    · rw [hk] at hcopied
      obtain ⟨-, p, env, k, o', -, hret, -, -, -, hkr, ho', hholds⟩ := hm.ret_copied hw hsp hm
        List.suffix_rfl rfl le_rfl rfl (fun _ _ => rfl) hk hcopied
      cases hkr
      cases ho'.symm.trans ho
      cases hret.symm.trans hA
      have hresumed := hB.code _ hholds.resume
      rw [hholds.resume]
      refine .code rfl (by rw [hresumed.rest]) (hresumed.values.trans hholds.values) ?_ ?_ ?_
      · rw [hresumed.rest]
        exact hholds.env
      · rw [hresumed.rest]
        exact hholds.slots
      · rw [hresumed.rest]
        exact hholds.cont
    · rw [hk] at hempty
      cases hempty
  | onHeap k =>
    obtain ⟨rfl, ho'⟩ := hm.captured_object hw ho hk
    have hA' := hm.ret_object hk ho' hA
    obtain ⟨henv, hprev⟩ := hm.linked.continuations o (Heap.mem_of_continuation ho')
    cases hres : o.resume with
    | halt =>
      rw [hA'.halt hres, hB.halt hres]
      exact .halt rfl rfl
    | host id =>
      rw [hA'.host id hres, hB.host id hres]
      exact .host rfl rfl rfl rfl
    | code ip =>
      have hresumedA := hA'.code ip hres
      have hresumedB := hB.code ip hres
      have henvA : A.env = o.env := by rw [hresumedA.rest]
      have henvB : B.env = o.env := by rw [hresumedB.rest]
      refine .code (by rw [hresumedA.rest]) (by rw [hresumedB.rest])
        (hresumedB.values.trans hresumedA.values.symm) ?_ (fun depth index => ?_) ?_
      · rw [henvA, henvB]
        exact henv.resolve w
      · rw [henvA, henvB]
        exact hm.linked.slot?_eq henv hw.heap hresumedA.heap depth index
      · rw [hresumedA.rest, hresumedB.rest]
        refine .same fun pos hpos => ?_
        change o.prev = .onStack pos at hpos
        rw [hpos] at hprev
        exact hprev

end Returning

/-! ## Orderly runs -/

def Continuation.ReturnsThrough (o : Continuation) (call : Option Nat) : Prop :=
  o.owner = call ∧ ∀ id, o.resume = .host id → call = some id

/-- The continuation is applied to one value. It returns through the innermost host call, and there
is room for its values besides what the current activation has left. -/
structure Machine.Applies (t : Machine) (r : Ref .continuation) (o : Continuation) (v : Value) :
    Prop where
  acc : t.acc = .continuation r
  argc : t.argc = 1
  top : t.top? = some v
  through : o.ReturnsThrough t.hosts.active.head?
  room : t.sp - 1 - t.bp + o.saved.size ≤ t.capacity

/-- Applied to a value, the continuation that was captured in `m` resumes what a return in `m` with
that value would have resumed. The host calls stay what they are, the continuation and all frames
are those from the time of the capture, and code goes on without regard to what else is on the
stack. -/
structure Machine.Reenters (t m w : Machine) (r : Ref .continuation) (o : Continuation) (v : Value)
    (B : Machine) : Prop where
  entered : enterContinuation r t = .ok () B
  acc : B.acc = v
  alike : ∀ A, ret { m with acc := v } = .ok () A → A.acc = v ∧ SameResumption w A B o.resume
  hosts : B.hosts = { t.hosts with returned := B.hosts.returned }
  kept : B.heap.continuation r = .ok o
  frames : w.heap.FramesKept B.heap
  detached : ∀ ip, o.resume = .code ip → B.Detached

namespace Configuration

variable {left : Bool} {c : Configuration} {m : Machine} {k : Context}

theorem InOrder.represented (h : c.InOrder left) (hp : ∀ f, ¬ c.activity.Passes f)
    (he : ∀ o, c.activity ≠ .ended o) : Represented c.machine := by
  cases h with
  | loop _ hs => exact hs.represented
  | enter _ hi => exact hi.landed.represented
  | apply _ hi => exact hi.landed.represented
  | script _ hi => exact hi.landed.represented
  | ret _ hi => exact hi.landed.represented
  | returned _ h =>
    obtain ⟨lo, h, -⟩ := h
    exact ⟨_, _, lo, _, h⟩
  | unwound _ hs => exact hs.represented
  | failed _ _ ha => exact absurd ha (hp _)
  | ended => exact absurd rfl (he _)

variable {t : Machine} {r : Ref .continuation} {o : Continuation} {v : Value}

theorem advance_capture {w : Machine} {next : Except Fault Value → Script Outcome}
    (h : capture m = .ok r w) :
    advance ⟨m, k, .script (.ask .capture next)⟩ =
      ⟨w, k, .script (next (.ok (.continuation r)))⟩ := by
  have hanswer : answer (fun _ _ => throw .stuck) .capture m = .ok (.continuation r) w := bind_ok h
  change settle k (fun reply => .script (next reply))
    (answer (fun _ _ => throw .stuck) .capture m) = _
  rw [hanswer]
  rfl

/-- Applying a continuation takes two steps, after which everything is in order again. -/
theorem InOrder.reenter (h : InOrder left ⟨t, k, .apply⟩) (ho : t.heap.continuation r = .ok o)
    (happ : t.Applies r o v) :
    ∃ B, enterContinuation r t = .ok () B ∧ Configuration.advance^[2] ⟨t, k, .apply⟩ =
      ⟨B, k, .loop⟩ ∧ B.acc = v ∧ B.hosts = { t.hosts with returned := B.hosts.returned } ∧
      o.Restored (t.handed r o.owner v) B ∧ ∀ ip, o.resume = .code ip → B.Detached := by
  have hhosts : (t.handed r o.owner v).hosts = t.hosts :=
    HostCalls.noteEntry_head happ.through.1.symm
  have hover := advance_handOver happ.acc ho happ.argc happ.top k
  have h₁ := h.advance (along_nil (P := Orderly))
  rw [hover] at h₁
  obtain ⟨ρ, segs, lo, x, hx⟩ := h₁.represented (fun f hf => by cases hf) (fun o h => by cases h)
  have hreturn : (t.handed r o.owner v).CanReturn o := by
    refine ⟨?_, fun id hid => ?_⟩
    · have hroom := happ.room
      simpa [handed, popped, capacity] using hroom
    · rw [hhosts]
      exact List.mem_of_head? (happ.through.2 id hid)
  obtain ⟨B, hB⟩ := hx.arranged.exists_ret_object rfl ho hreturn
  have hrestored := hx.arranged.ret_object rfl ho hB
  obtain ⟨henter, h₂⟩ := advance_apply_continuation happ.acc ho happ.argc happ.top hB k
  refine ⟨B, henter, h₂, ret_acc hB, hhosts ▸ hrestored.hosts, hrestored, fun ip hres => ?_⟩
  have hresumed := hrestored.code ip hres
  have hret : Configuration.advance ⟨t.handed r o.owner v, k, .ret⟩ = ⟨B, k, .loop⟩ := by
    rw [← hover]
    exact h₂
  -- What was resumed is on the heap, as all that the continuation refers to is.
  have h₃ := h₁.advance (along_nil (P := Orderly))
  rw [hret] at h₃
  obtain ⟨σ, segs', lo', y, hy⟩ := h₃.represented (fun f hf => by cases hf) (fun o h => by cases h)
  obtain ⟨henv, hprev⟩ := hx.arranged.linked.continuations o (Heap.mem_of_continuation ho)
  refine hy.detached ?_ ?_ (by have := hresumed.sp; change B.bp ≤ B.sp; omega)
  · change B.env.ClosedIn B.heap
    rw [hresumed.rest]
    exact henv.mono hresumed.heap
  · change B.cont.ClosedIn B.heap
    rw [hresumed.rest]
    exact hprev.mono hresumed.heap

end Configuration

/-- In an orderly run, whenever a continuation is applied that was captured before, the machine
resumes what a return would have resumed when it was captured. -/
theorem Setup.Closed.capture_reenters {s : Setup} (hs : s.Closed) {capacity i : Nat}
    {m₀ m : Machine} {k : Context} {next : Except Fault Value → Script Outcome}
    (hbegin : s.begin { new capacity with heap := s.heap, globals := s.globals } = .ok () m₀)
    (ho : Along Orderly false ((Task.start m₀ .run).visits i))
    (hask : advance^[i] (Task.start m₀ .run) = ⟨m, k, .script (.ask .capture next)⟩) :
    ∃ r w o, capture m = .ok r { w with cont := .onHeap r } ∧ w.heap.continuation r = .ok o ∧
      (m.CanReturn o → ∀ v, ∃ A, ret { m with acc := v } = .ok () A) ∧
      ∀ j t k' v, i < j → Along Orderly false ((Task.start m₀ .run).visits j) →
        advance^[j] (Task.start m₀ .run) = ⟨t, k', .apply⟩ → t.Applies r o v →
        ∃ B, t.Reenters m w r o v B ∧ advance^[j + 2] (Task.start m₀ .run) = ⟨B, k', .loop⟩ := by
  have hstart := hs.inOrder hbegin
  have hi := hstart.iterate ho
  rw [hask] at hi
  obtain ⟨ρ, segs, lo, x, hx⟩ := hi.represented (fun f hf => by cases hf) (fun o h => by cases h)
  have harr : Arranged segs m := hx.arranged
  obtain ⟨r, w, target, hcapture, hmoved, hregs, harr', hcopied⟩ := harr.capture
  obtain ⟨o, ho', hcaptured⟩ : ∃ o, w.heap.continuation r = .ok o ∧ Captured m w r o := by
    rcases hcopied with ⟨hcopied, -⟩ | ⟨hempty, hhalt, -⟩
    · have hclosed := harr'.cont
      cases hclosed with
      | closed hclosed =>
        obtain ⟨o, ho⟩ := hclosed.exists_continuation
        exact ⟨o, ho, ho, .inl hcopied⟩
    · exact ⟨_, hhalt, hhalt, .inr ⟨hempty, rfl⟩⟩
  -- The value that is returned has no part in the arrangement of the stack.
  have hm (v : Value) : Arranged segs { m with acc := v } := { harr with }
  have hmoved' (v : Value) : Moved segs target { m with acc := v } w := { hmoved with }
  refine ⟨r, w, o, hcapture, ho', fun hreturn v => ?_, fun j t k' v hij hoj happly happ => ?_⟩
  · exact (hm v).exists_ret_captured (hmoved' v) hcaptured hreturn
  · have hj := hstart.iterate hoj
    have hreach :
        Reaches (advance^[i + 1] (Task.start m₀ .run)) (advance^[j] (Task.start m₀ .run)) := by
      refine ⟨j - (i + 1), ?_⟩
      rw [← Function.iterate_add_apply, Nat.sub_add_cancel hij]
    rw [Function.iterate_succ_apply', hask, advance_capture hcapture, happly] at hreach
    have hkept : t.heap.continuation r = .ok o := hreach.kept ho'
    rw [happly] at hj
    obtain ⟨B, henter, hadvance, hacc, hhosts, hrestored, hdetached⟩ := hj.reenter hkept happ
    have hreach' : Reaches ⟨t, k', .apply⟩ ⟨B, k', .loop⟩ := ⟨2, hadvance⟩
    refine ⟨B, ?_, ?_⟩
    · exact
        { entered := henter
          acc := hacc
          alike := fun A hA =>
            ⟨ret_acc hA, (hm v).sameResumption (hmoved' v) hregs.sp hcaptured hA hrestored⟩
          hosts := hhosts
          kept := hreach'.kept hkept
          frames := hreach.frames.trans hreach'.frames
          detached := hdetached }
    · rw [Nat.add_comm, Function.iterate_add_apply, happly, hadvance]

section Reentry

open Sample

/-- Keeps a continuation and applies it again and again. -/
def Sample.reentry : Sample where
  body :=
    [ frame 1, count .loadLocal 0, plain .push,
      .branch .returnPoint "after",
      .branch .closure "receiver", plain .push, number .loadLiteral 0, count .apply 1,
      .label "after", plain .push, plain .push, number .loadGlobal 1, count .apply 1,
      .label "receiver", frame 1, count .loadLocal 0, number .storeGlobal 1,
      number .loadInteger 7, plain .ret ]

def Setup.reentry : Setup where
  program :=
    { code := Sample.reentry.code.toOption.getD #[], literals := #[.procedure ⟨0⟩, .symbol "k"] }
  argc := 1
  args := [.fixnum 5]
  heap := { procedures := Standard.procedures.toArray }

end Reentry

theorem Setup.reentry_closed : reentry.Closed where
  heap := Heap.closed_standard
  globals := by simp [reentry]
  literals := by simp [reentry, Value.ClosedIn]
  acc := by simp [reentry, Value.ClosedIn]
  args := by simp [reentry, Value.ClosedIn]

def Configuration.reentry : Configuration :=
  Task.start (final (Setup.reentry.begin
    { new 14 with heap := Setup.reentry.heap, globals := Setup.reentry.globals })) .run

def Configuration.captures : Configuration → Bool
  | ⟨_, _, .script (.ask .capture _)⟩ => true
  | _ => false

theorem Configuration.eq_of_captures {c : Configuration} (h : c.captures = true) :
    ∃ next, c = ⟨c.machine, c.context, .script (.ask .capture next)⟩ := by
  unfold captures at h
  split at h
  next m k next => exact ⟨next, rfl⟩
  · cases h

def Configuration.applies : Configuration → Bool
  | ⟨_, _, .apply⟩ => true
  | _ => false

theorem Configuration.eq_of_applies {c : Configuration} (h : c.applies = true) :
    c = ⟨c.machine, c.context, .apply⟩ := by
  unfold applies at h
  split at h
  · rfl
  · cases h

def Machine.reentering (n : Nat) : Machine := (advance^[n] Configuration.reentry).machine

def Continuation.reentry : Continuation where
  saved := #[.fixnum 5]
  prev := .empty
  env := .onHeap ⟨0⟩
  resume := .code 25
  owner := none

/-- Both times that the continuation is applied the same operand is pending again, although the
cells have run full since it was captured. -/
theorem Setup.reentry_capture_reenters :
    ∃ w A B B', capture (reentering 10) = .ok ⟨0⟩ { w with cont := .onHeap ⟨0⟩ } ∧
      ret { reentering 10 with acc := .fixnum 7 } = .ok () A ∧
      (reentering 23).Reenters (reentering 10) w ⟨0⟩ .reentry (.fixnum 7) B ∧
      (reentering 29).Reenters (reentering 10) w ⟨0⟩ .reentry (.fixnum 7) B' ∧
      A.stack.extract A.bp A.sp = #[.fixnum 5] ∧ B.stack.extract B.bp B.sp = #[.fixnum 5] ∧
      B'.stack.extract B'.bp B'.sp = #[.fixnum 5] := by
  have hbegin : result? (Setup.reentry.begin
      { new 14 with heap := Setup.reentry.heap, globals := Setup.reentry.globals }) = some () := by
    decide +kernel
  obtain ⟨next, hask⟩ :=
    eq_of_captures (c := advance^[10] Configuration.reentry) (by decide +kernel)
  obtain ⟨r, w, o, hcapture, ho, -, hreenters⟩ :=
    Setup.reentry_closed.capture_reenters (eq_ok_of_result? hbegin) (by decide +kernel) hask
  have hresult : result? (capture (reentering 10)) = some ⟨0⟩ := by decide +kernel
  have hheap : (final (capture (reentering 10))).heap.continuation ⟨0⟩ = .ok .reentry := by
    decide +kernel
  rw [reentering, hcapture] at hresult hheap
  cases hresult
  cases hheap.symm.trans ho
  have hA : result? (ret { reentering 10 with acc := .fixnum 7 }) = some () := by decide +kernel
  have hvalues (A : Machine) (h : ret { reentering 10 with acc := .fixnum 7 } = .ok () A) :
      A.stack.extract A.bp A.sp = #[.fixnum 5] := by
    have hfinal : final (ret { reentering 10 with acc := .fixnum 7 }) = A := congrArg final h
    rw [← hfinal]
    decide +kernel
  have hsame (t B : Machine) (h : t.Reenters (reentering 10) w ⟨0⟩ .reentry (.fixnum 7) B) :
      B.stack.extract B.bp B.sp = #[.fixnum 5] := by
    have halike := (h.alike _ (eq_ok_of_result? hA)).2
    generalize hresume : Continuation.reentry.resume = resume at halike
    cases halike with
    | code _ _ h => exact h.trans (hvalues _ (eq_ok_of_result? hA))
    | host => cases hresume
    | halt => cases hresume
  obtain ⟨B, hB, -⟩ := hreenters 23 _ _ (.fixnum 7) (by decide) (by decide +kernel)
    (eq_of_applies (by decide +kernel)) ⟨by decide +kernel, by decide +kernel, by decide +kernel,
      ⟨by decide +kernel, fun _ h => by cases h⟩, by decide +kernel⟩
  obtain ⟨B', hB', -⟩ := hreenters 29 _ _ (.fixnum 7) (by decide) (by decide +kernel)
    (eq_of_applies (by decide +kernel)) ⟨by decide +kernel, by decide +kernel, by decide +kernel,
      ⟨by decide +kernel, fun _ h => by cases h⟩, by decide +kernel⟩
  exact ⟨w, _, B, B', hcapture, eq_ok_of_result? hA, hB, hB', hvalues _ (eq_ok_of_result? hA),
    hsame _ B hB, hsame _ B' hB'⟩

end LispMachine
