import LispMachine.Proofs.Arrangement.Entering
import LispMachine.Proofs.Reentry.Identity

/-! # Room for a continuation

The values of a continuation come from the stack, so they have room there. When it is resumed they
may still not fit: the values that are pending in the activation that is given up are kept as well,
although nobody takes them any more.
-/

namespace LispMachine

open Machine

variable {segs : List Segment} {m m' : Machine} {k : Ref .continuation} {o : Continuation}
  {ip N : Nat} {v : Value}

/-- The continuation was made when return points moved to the heap from a stack of `N` cells. -/
def FromStack (N : Nat) (k : Ref .continuation) (o : Continuation) : Prop :=
  ∃ segs m cont new w, Arranged segs m ∧ m.capacity = N ∧ ContIn m.heap segs cont ∧
    promoteCont cont m = .ok new w ∧ m.heap.continuations.size ≤ k.index ∧
    w.heap.continuation k = .ok o

theorem FromStack.saved_le (h : FromStack N k o) :
    o.saved.size + 4 ≤ N ∧ ∃ ip, o.resume = .code ip := by
  obtain ⟨segs, m, cont, new, w, hm, rfl, hcont, hw, hnew, ho⟩ := h
  obtain ⟨new', w', target, hw', hmoved, hregs, harr, -, -, hcopies⟩ := hm.promoteCont hcont
  cases hw.symm.trans hw'
  have hlt : k.index < w.heap.continuations.size :=
    (Array.getElem?_eq_some_iff.1 (Heap.continuation_eq_ok.1 ho)).1
  have hcopied := hcopies (w.heap.continuations.size - 1 - k.index) (by omega)
  rw [show w.heap.continuations.size - 1 - (w.heap.continuations.size - 1 - k.index) =
    k.index by omega]
    at hcopied
  have hin := hm.contAfter hcont (w.heap.continuations.size - 1 - k.index)
  generalize m.contAfter cont (w.heap.continuations.size - 1 - k.index) = cont' at hcopied hin
  cases hcopied with
  | same =>
    -- what is on the heap already has a smaller number
    cases hin with
    | closed hin =>
      change k.index < m.heap.continuations.size at hin
      omega
  | @point c p _ env prev owner hp hres hprev hk =>
    cases hk.symm.trans ho
    have hbounds := returnPoint_bounds hp
    have hroom := harr.room
    have hcap := hmoved.capacity
    refine ⟨?_, p.ip, rfl⟩
    simp only [Array.size_extract]
    omega

/-- Returning through the heap takes room for all that is above the base and for what comes back. -/
theorem Arranged.ret_overflow_iff (hm : Arranged segs m) (hcont : m.cont = .onHeap k)
    (ho : m.heap.continuation k = .ok o) (hr : o.resume = .code ip) :
    ((∃ m', ret m = .error (.fault .stackOverflow) m') ↔ m.capacity < m.sp - m.bp + o.saved.size) ∧
    (m.sp - m.bp + o.saved.size ≤ m.capacity → ∃ m', ret m = .ok () m' ∧ Resumed m o ip m') := by
  have hret := ret_of_onHeap hcont
  have hfit (hroom : m.sp - m.bp + o.saved.size ≤ m.capacity) :
      ∃ m', ret m = .ok () m' ∧ Resumed m o ip m' := by
    obtain ⟨m', hm', hres, -⟩ := hm.resume hcont ho hr hroom
    exact ⟨m', hret.trans hm', hres⟩
  refine ⟨⟨?_, fun hroom => ?_⟩, hfit⟩
  · rintro ⟨m', hover⟩
    by_contra hroom
    obtain ⟨m'', hok, -⟩ := hfit (Nat.not_lt.1 hroom)
    cases hok.symm.trans hover
  · obtain ⟨m', hm', -⟩ := hm.resume_overflow hcont ho hr hroom
    exact ⟨m', hret.trans hm'⟩

theorem Passed.handed (hm : Passed segs [v] m) (ho : m.heap.continuation k = .ok o) :
    Arranged segs (m.handed k o.owner v) := by
  have hcells (i : Nat) (hi : i < m.sp - 1) :
      (m.handed k o.owner v).stack[i]? = m.stack[i]? :=
    Array.getElem?_setIfInBounds_ne (by omega)
  exact
    { room := by simpa [Machine.handed, popped, capacity] using hm.laid.room
      stacked := hm.laid.stacked.congr_below hcells (.refl _)
      env := hm.laid.env
      cont := .closed (Array.getElem?_eq_some_iff.1 (Heap.continuation_eq_ok.1 ho)).1
      linked := hm.laid.linked }

theorem Passed.enterContinuation_eq (hm : Passed segs [v] m) (ho : m.heap.continuation k = .ok o) :
    enterContinuation k m = ret (m.handed k o.owner v) := by
  have hle : 1 ≤ m.sp := hm.bounds.1
  have htop : m.top? = some v := by
    have hvalue := hm.value (show 0 < [v].length from Nat.one_pos)
    rw [top?, if_neg (by omega)]
    exact hvalue
  rw [Machine.enterContinuation_eq, bind_ok (handOver_ok ho hm.argc htop)]

/-- The values of a continuation that was moved from the stack fit in there by themselves. Returning
through it, or applying it to a value, overflows just if they do not fit in together with the values
that are pending in the activation that is given up. Otherwise its values come back. -/
theorem FromStack.restore_overflows_iff (hk : FromStack m.capacity k o)
    (ho : m.heap.continuation k = .ok o) :
    o.saved.size + 4 ≤ m.capacity ∧
    (∀ segs, Arranged segs m → m.cont = .onHeap k →
      ((∃ m', ret m = .error (.fault .stackOverflow) m') ↔
        m.capacity < m.sp - m.bp + o.saved.size) ∧
      (m.sp - m.bp + o.saved.size ≤ m.capacity → ∃ ip m', ret m = .ok () m' ∧ Resumed m o ip m')) ∧
    ∀ segs v, Passed segs [v] m →
      ((∃ m', enterContinuation k m = .error (.fault .stackOverflow) m') ↔
        m.capacity < m.sp - 1 - m.bp + o.saved.size) ∧
      (m.sp - 1 - m.bp + o.saved.size ≤ m.capacity → ∃ ip m', enterContinuation k m = .ok () m' ∧
        Resumed (m.handed k o.owner v) o ip m') := by
  obtain ⟨hsaved, ip, hr⟩ := hk.saved_le
  refine ⟨hsaved, fun segs hm hcont => ?_, fun segs v hm => ?_⟩
  · obtain ⟨hiff, hfit⟩ := hm.ret_overflow_iff hcont ho hr
    exact ⟨hiff, fun hroom => ⟨ip, hfit hroom⟩⟩
  · obtain ⟨hiff, hfit⟩ := (hm.handed ho).ret_overflow_iff rfl ho hr
    have hcap : (m.handed k o.owner v).capacity = m.capacity := by
      simp [Machine.handed, popped, capacity]
    rw [hcap] at hiff hfit
    rw [hm.enterContinuation_eq ho]
    exact ⟨hiff, fun hroom => ⟨ip, hfit hroom⟩⟩

/-- Two values are pending below a return point that takes the last cells. -/
def Machine.fullAtCall : Machine :=
  { stack := #[.fixnum 1, .fixnum 2, .fixnum 0, .fixnum 0, .nil, .nil]
    sp := 6
    cont := .onStack 6 }

def Machine.fullCaptured : Machine :=
  { fullAtCall with
    cont := .onHeap ⟨0⟩
    heap.continuations := #[{
      saved := #[.fixnum 1, .fixnum 2], prev := .empty, env := .empty, resume := .code 0,
      owner := none }] }

theorem Machine.fullAtCall_wellLaid : WellLaid [.point 0 2 0] fullAtCall where
  room := by decide
  stacked := by
    have hpoint : PointCells fullAtCall.stack 0 2 ⟨0, 0, .empty, .empty⟩ :=
      ⟨rfl, rfl, rfl, rfl, by decide⟩
    refine ⟨by decide,
      ⟨_, { hpoint with frames_le := ?_, env := .closed trivial, prev := .closed trivial }⟩,
      trivial⟩
    intro start count id h
    cases h
  env := .closed trivial
  cont := .onStack List.mem_cons_self
  linked := by constructor <;> simp [fullAtCall]
  bp_le := by decide
  frames_le start count id h := by simp at h

theorem Machine.fullCaptured_arranged (bp : Nat) : Arranged [] { fullCaptured with bp } :=
  .of_closed (show 6 ≤ 6 by decide) trivial (show 0 < 1 by decide)
    (by constructor <;> simp [fullCaptured, fullAtCall, Env.ClosedIn, Cont.ClosedIn])

/-- With four values pending there is still room for the two that come back, with five there is
not. -/
theorem Machine.fullCaptured_restore :
    FromStack 6 ⟨0⟩ fullCaptured.heap.continuations[0] ∧
    (∃ m', ret { fullCaptured with bp := 2 } = .ok () m' ∧
      m'.stack.extract m'.bp m'.sp = #[.fixnum 1, .fixnum 2]) ∧
    ∃ m', ret { fullCaptured with bp := 1 } = .error (.fault .stackOverflow) m' := by
  have hk : FromStack 6 ⟨0⟩ fullCaptured.heap.continuations[0] :=
    ⟨_, fullAtCall, fullAtCall.cont, _, _, fullAtCall_wellLaid.toArranged, rfl,
      fullAtCall_wellLaid.cont, rfl, Nat.zero_le _, rfl⟩
  have hiff (bp : Nat) :=
    (FromStack.restore_overflows_iff (m := { fullCaptured with bp }) hk rfl).2.1 []
    (fullCaptured_arranged bp) rfl
  obtain ⟨ip, m', hret, hres⟩ := (hiff 2).2 (by decide)
  exact ⟨hk, ⟨m', hret, hres.values⟩, (hiff 1).1.2 (by decide)⟩

/-- Returning through a continuation right after it was captured overflows, if it was captured when
the stack was full. -/
theorem Machine.fullAtCall_overflows :
    WellLaid [.point 0 2 0] fullAtCall ∧ capture fullAtCall = .ok ⟨0⟩ fullCaptured ∧
    ∃ m', ret fullCaptured = .error (.fault .stackOverflow) m' :=
  ⟨fullAtCall_wellLaid, rfl, _, rfl⟩

end LispMachine
