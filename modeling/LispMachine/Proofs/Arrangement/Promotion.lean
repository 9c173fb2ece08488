import LispMachine.Proofs.Arrangement.Moves

/-! # The effect of moving to the heap

An environment moves frame by frame, and a continuation is copied return point by return point with
the values that are pending there. The copy goes on in the same frames.
-/

namespace LispMachine

open Machine

variable {segs sub rest : List Segment} {target : Nat → Option Nat} {m w : Machine}
  {start count id : Nat} {parent new : Env}

/-! ## Environments -/

theorem Moved.single (hm : Arranged segs m) (hs : .frame start count id :: rest <:+ segs)
    (hf : FrameCells m.stack start count parent) (hp : EnvIn m.heap segs parent)
    (hn : new.ClosedIn m.heap) (hr : m.resolve parent = .ok new) :
    Moved segs (fun e => if e = start + count then some m.heap.frames.size else none) m
      { m with
        stack := m.stack.setIfInBounds (start + count) (.frame ⟨m.heap.frames.size⟩)
        heap.frames := m.heap.frames.push ⟨m.stack.extract start (start + count), new⟩ } := by
  have hlt : start + count < m.stack.size := (Array.getElem?_eq_some_iff.1 hf.start_cell).1
  have hstays (i : Nat) (hi : i ≠ start + count) :
      (m.stack.setIfInBounds (start + count) (.frame ⟨m.heap.frames.size⟩))[i]? = m.stack[i]? :=
    Array.getElem?_setIfInBounds_ne (Ne.symm hi)
  refine
    { size := by simp
      heap := .pushFrame _
      stays := ?_
      gone := ?_
      source := ?_
      fresh := ?_
      inj := ?_ }
  · intro i hi
    exact hstays i fun heq => by simp [heq] at hi
  · intro e q hq
    simp only [Option.ite_none_right_eq_some, Option.some.injEq] at hq
    obtain ⟨rfl, rfl⟩ := hq
    exact Array.getElem?_setIfInBounds_self_of_lt hlt
  · intro e q hq
    simp only [Option.ite_none_right_eq_some, Option.some.injEq] at hq
    obtain ⟨rfl, rfl⟩ := hq
    refine ⟨start, count, id, parent, new, mem_of_cons_suffix hs, rfl, hf, by simp,
      hn.mono (.pushFrame _), ?_⟩
    cases parent with
    | empty => exact hr
    | onHeap => exact hr
    | onStack e =>
      -- the parent has moved before, so it is another frame
      obtain ⟨start', count', id', rest', rfl, -, -, ⟨q, hq, -⟩ | ⟨parent', hf', -⟩⟩ :=
        hm.frameIn hp
      · have hne : start' + count' ≠ start + count := by
          intro heq
          rw [heq, hf.start_cell] at hq
          cases hq
        rw [Machine.resolve, descriptor_moved hq] at hr
        rw [Machine.resolve, descriptor_moved ((hstays _ hne).trans hq)]
        exact hr
      · rw [Machine.resolve, hf'.descriptor] at hr
        cases hr
        exact hn.elim
  · intro e q hq
    simp only [Option.ite_none_right_eq_some, Option.some.injEq] at hq
    omega
  · intro e e' q hq hq'
    simp only [Option.ite_none_right_eq_some, Option.some.injEq] at hq hq'
    omega

/-- An environment moves to the heap from its outermost live frame inward. -/
theorem Arranged.promoteFrom (hm : Arranged segs m) (hs : sub <:+ segs) {env : Env}
    (he : EnvIn m.heap sub env) {n : Nat} (hn : sub.length ≤ n) :
    ∃ new w target, promoteFrom n env m = .ok new w ∧ Moved segs target m w ∧
      SameRegisters m w ∧ Arranged segs w ∧ new.ClosedIn w.heap ∧
      w.resolve env = .ok new ∧ w.heap.continuations = m.heap.continuations ∧
      ∀ i, (∀ s ∈ sub, s.top ≤ i) → w.stack[i]? = m.stack[i]? := by
  induction sub generalizing env n with
  | nil =>
    have hclosed := he.closed_of_nil
    refine ⟨env, m, _, promoteFrom_done ?_, .refl segs m, .refl m, hm, hclosed, hclosed.resolve m,
      rfl, fun _ _ => rfl⟩
    cases env with
    | onStack => exact hclosed.elim
    | _ => cases n <;> rfl
  | cons s rest ih =>
    have hrest := suffix_of_cons_suffix hs
    rw [List.length_cons] at hn
    by_cases hr : EnvIn m.heap rest env
    · obtain ⟨new, w, target, hw, hmoved, hregs, harr, hnew, hres, hcont, hcells⟩ :=
        ih hrest hr (n := n) (by omega)
      exact ⟨new, w, target, hw, hmoved, hregs, harr, hnew, hres, hcont,
        fun i hi => hcells i fun t ht => hi t (List.mem_cons_of_mem _ ht)⟩
    · obtain ⟨start, count, id, rfl, rfl⟩ : ∃ start count id, s = .frame start count id ∧
          env = .onStack (start + count) := by
        cases he with
        | closed he => exact absurd (.closed he) hr
        | @onStack start count id hmem =>
          rcases List.mem_cons.1 hmem with rfl | hmem
          · exact ⟨start, count, id, rfl, rfl⟩
          · exact absurd (.onStack hmem) hr
      obtain ⟨-, hseg, hbelow⟩ := hm.stacked.at_suffix hs
      rcases hseg with ⟨q, hq, hlt⟩ | ⟨parent, hf, hp⟩
      · refine ⟨.onHeap ⟨q⟩, m, _, promoteFrom_done ?_, .refl segs m, .refl m, hm, hlt, ?_, rfl,
          fun _ _ => rfl⟩
        · cases n <;> simp [liveFrames, descriptor_moved hq, bind, Except.bind, pure, Except.pure]
        · rw [Machine.resolve, descriptor_moved hq]
          rfl
      · obtain ⟨n, rfl⟩ : ∃ n', n = n' + 1 := ⟨n - 1, by omega⟩
        obtain ⟨new, w, target, hw, hmoved, hregs, harr, hnew, hres, hcont, hcells⟩ :=
          ih hrest hp (n := n) (by omega)
        -- the frame is still live after the frames around it have moved
        have hcell : w.stack[start + count]? = some (.fixnum start) := by
          rw [hcells _ fun t ht => ?_, hf.start_cell]
          have := hbelow.top_le_of_mem ht
          simp only [Segment.start_frame] at this
          omega
        have hnone : target (start + count) = none := by
          cases ht : target (start + count) with
          | none => rfl
          | some q =>
            rw [hmoved.gone _ q ht] at hcell
            cases hcell
        have hfw := hmoved.frameCells hm (mem_of_cons_suffix hs) hnone hf
        have hsingle := Moved.single harr hs hfw (hp.mono hmoved.heap hrest.subset) hnew hres
        have hlt : start + count < w.capacity := (Array.getElem?_eq_some_iff.1 hcell).1
        refine ⟨.onHeap ⟨w.heap.frames.size⟩, _, _, ?_, hmoved.trans hsingle hm harr,
          hregs.trans rfl, hsingle.arranged rfl harr (harr.linked.pushFrame hnew), ?_, ?_, hcont,
          ?_⟩
        · rw [promoteFrom_live hf.descriptor, bind_ok hw, promoteFrame_eq hlt]
        · simp [Env.ClosedIn]
        · rw [Machine.resolve, descriptor_moved (hsingle.gone _ _ (if_pos rfl))]
          rfl
        · intro i hi
          have htop := hi _ List.mem_cons_self
          rw [Segment.top_frame] at htop
          rw [hsingle.stays i (if_neg (by omega)),
            hcells i fun t ht => hi t (List.mem_cons_of_mem _ ht)]

theorem Arranged.promoteEnv (hm : Arranged segs m) {env : Env} (he : EnvIn m.heap segs env) :
    ∃ new w target, promoteEnv env m = .ok new w ∧ Moved segs target m w ∧
      SameRegisters m w ∧ Arranged segs w ∧ new.ClosedIn w.heap ∧ w.resolve env = .ok new ∧
      w.heap.continuations = m.heap.continuations := by
  obtain ⟨new, w, target, hw, hmoved, hregs, harr, hnew, hres, hcont, -⟩ :=
    hm.promoteFrom List.suffix_rfl he hm.length_le
  exact ⟨new, w, target, (promoteEnv_eq env).trans hw, hmoved, hregs, harr, hnew, hres, hcont⟩

/-! ## Continuations -/

def Machine.caller (m : Machine) : Cont → Env × Cont
  | .empty => (.empty, .empty)
  | .onStack c =>
    match m.returnPoint c with
    | .ok p => (p.env, p.prev)
    | .error _ => (.empty, .empty)
  | .onHeap k =>
    match m.heap.continuation k with
    | .ok c => (c.env, c.prev)
    | .error _ => (.empty, .empty)

def Machine.contAfter (m : Machine) (cont : Cont) : Nat → Cont
  | 0 => cont
  | n + 1 => m.contAfter (m.caller cont).2 n

theorem Machine.caller_point {c : Nat} {p : ReturnPoint} (h : m.returnPoint c = .ok p) :
    m.caller (.onStack c) = (p.env, p.prev) := by
  rw [caller, h]

theorem Machine.caller_object {k : Ref .continuation} {c : Continuation}
    (h : m.heap.continuation k = .ok c) : m.caller (.onHeap k) = (c.env, c.prev) := by
  rw [caller, h]

/-- The second continuation does what the first one does, without the stack: it goes on at the same
place, with the same pending values, in the same frame, and then likewise. -/
inductive Copied (m : Machine) : Cont → Cont → Prop
  | same {cont : Cont} : (∀ c, cont ≠ .onStack c) → Copied m cont cont
  | point {c : Nat} {p : ReturnPoint} {k : Ref .continuation} {env : Env} {prev : Cont}
    {owner : Option Nat} : m.returnPoint c = .ok p → m.resolve p.env = .ok env →
    Copied m p.prev prev →
    m.heap.continuation k =
      .ok { saved := m.stack.extract p.bp (c - 4), prev, env, resume := .code p.ip, owner } →
    Copied m (.onStack c) (.onHeap k)

/-- Copies of the continuation are the objects that `w` has in addition, the newest one of which is
the innermost. -/
def Copies (m w : Machine) (cont : Cont) : Prop :=
  ∀ n, n < w.heap.continuations.size - m.heap.continuations.size →
    Copied w (m.contAfter cont n) (.onHeap ⟨w.heap.continuations.size - 1 - n⟩)

theorem Moved.continuation (segs : List Segment) (m : Machine) (k : Continuation) :
    Moved segs (fun _ => none) m
      { m with heap.continuations := m.heap.continuations.push k } :=
  { Moved.refl segs m with
    heap := .pushContinuation k
    source := fun _ _ h => by cases h }

theorem Arranged.caller (hm : Arranged segs m) {cont : Cont} (hc : ContIn m.heap segs cont) :
    EnvIn m.heap segs (m.caller cont).1 ∧ ContIn m.heap segs (m.caller cont).2 := by
  cases cont with
  | empty => exact ⟨.closed trivial, .closed trivial⟩
  | onStack c =>
    obtain ⟨start, count, id, rest, p, -, hs, -, hp, hpoint⟩ := hm.pointIn hc
    have hrest := (suffix_of_cons_suffix hs).subset
    rw [caller_point hp]
    exact ⟨hpoint.env.mono (.refl _) hrest, hpoint.prev.mono (.refl _) hrest⟩
  | onHeap k =>
    cases hc with
    | closed hc =>
      obtain ⟨c, hk⟩ := hc.exists_continuation
      rw [caller_object hk]
      exact (hm.linked.continuations c (Heap.mem_of_continuation hk)).imp .closed .closed

theorem Arranged.contAfter (hm : Arranged segs m) {cont : Cont} (hc : ContIn m.heap segs cont)
    (n : Nat) : ContIn m.heap segs (m.contAfter cont n) := by
  induction n generalizing cont with
  | zero => exact hc
  | succ n ih => exact ih (hm.caller hc).2

theorem Moved.caller (h : Moved segs target m w) (hsp : w.sp = m.sp) (hm : Arranged segs m)
    {cont : Cont} (hc : ContIn m.heap segs cont) : w.caller cont = m.caller cont := by
  cases cont with
  | empty => rfl
  | onStack c =>
    obtain ⟨start, count, id, rest, p, rfl, hs, hle, hp, hpoint⟩ := hm.pointIn hc
    rw [caller_point hp,
      caller_point ((h.pointCells hm hs hpoint).returnPoint (by rwa [hsp]))]
  | onHeap k =>
    cases hc with
    | closed hc =>
      obtain ⟨c, hk⟩ := hc.exists_continuation
      rw [caller_object hk, caller_object (h.heap.continuation hk)]

theorem Moved.contAfter (h : Moved segs target m w) (hsp : w.sp = m.sp) (hm : Arranged segs m)
    {cont : Cont} (hc : ContIn m.heap segs cont) (n : Nat) :
    w.contAfter cont n = m.contAfter cont n := by
  induction n generalizing cont with
  | zero => rfl
  | succ n ih =>
    rw [Machine.contAfter, Machine.contAfter, h.caller hsp hm hc]
    exact ih (hm.caller hc).2

theorem Copied.moved {cont cont' : Cont} (hc : Copied m cont cont') (h : Moved segs target m w)
    (hsp : w.sp = m.sp) (hm : Arranged segs m) (hin : ContIn m.heap segs cont) :
    Copied w cont cont' := by
  induction hc with
  | same hne => exact .same hne
  | @point c p k env prev owner hp hr hprev hk ih =>
    obtain ⟨start, count, id, rest, p', rfl, hs, hle, hp', hpoint⟩ := hm.pointIn hin
    rw [hp] at hp'
    cases hp'
    have hrest := (suffix_of_cons_suffix hs).subset
    have hpw : w.returnPoint (start + count + 4) = .ok p :=
      (h.pointCells hm hs hpoint).returnPoint (by rwa [hsp])
    have hrw : w.resolve p.env = .ok env :=
      h.resolve_closed hm (hpoint.env.mono (.refl _) hrest) hr
        (hm.linked.continuations _ (Heap.mem_of_continuation hk)).1
    have hkw := h.heap.continuation hk
    rw [Nat.add_sub_cancel, ← h.saved_eq hm hs hpoint] at hkw
    exact .point hpw hrw (ih (hpoint.prev.mono (.refl _) hrest)) hkw

/-- A return point is copied below a continuation that is on the heap already. -/
theorem Arranged.promoteReturnPoint (hm : Arranged segs m)
    (hs : .point start count id :: rest <:+ segs) {p : ReturnPoint}
    (hp : PointIn m.heap m.stack rest start count p) {prev : Cont} (hprev : prev.ClosedIn m.heap) :
    ∃ k env owner w target,
      promoteReturnPoint (start + count + 4, p) prev m = .ok (.onHeap k) w ∧
      Moved segs target m w ∧ SameRegisters m w ∧ Arranged segs w ∧
      k.index = m.heap.continuations.size ∧ w.heap.continuations.size = k.index + 1 ∧
      w.resolve p.env = .ok env ∧
      w.heap.continuation k =
        .ok { saved := w.stack.extract p.bp (start + count), prev, env, resume := .code p.ip,
              owner } := by
  obtain ⟨env, w, target, hw, hmoved, hregs, harr, henv, hres, hcont⟩ :=
    hm.promoteEnv (hp.env.mono (.refl _) (suffix_of_cons_suffix hs).subset)
  have htop := (hm.stacked.at_suffix hs).1
  rw [Segment.top_point] at htop
  have hbp := hp.bp_le
  have hroom := hm.room
  have hcells : w.cells p.bp (start + count) = .ok (w.stack.extract p.bp (start + count)) := by
    rw [cells, if_pos ⟨by omega, by rw [hmoved.capacity]; omega⟩]
  have hprevw : prev.ClosedIn w.heap := hprev.mono hmoved.heap
  obtain ⟨owner, howner⟩ : ∃ owner, w.ownerOf prev = .ok owner := by
    cases prev with
    | empty => exact ⟨none, rfl⟩
    | onStack => exact hprev.elim
    | onHeap r =>
      obtain ⟨c, hc⟩ := hprevw.exists_continuation
      exact ⟨c.owner, by rw [Machine.ownerOf, hc]; rfl⟩
  obtain ⟨k, hk⟩ : ∃ k : Continuation, k =
      { saved := w.stack.extract p.bp (start + count), prev, env, resume := .code p.ip, owner } :=
    ⟨_, rfl⟩
  have hpush := Moved.continuation segs w k
  refine ⟨⟨w.heap.continuations.size⟩, env, owner, _, _, ?_, hmoved.trans hpush hm harr,
    hregs.trans rfl, hpush.arranged rfl harr (harr.linked.pushContinuation ?_ ?_), by rw [hcont],
    Array.size_push _, ?_, ?_⟩
  · simp only [Machine.promoteReturnPoint, newCodeContinuation, bind_assoc]
    rw [bind_ok hw, query_bind_ok (distance_ok (Nat.le_add_left ..)), Nat.add_sub_cancel,
      query_bind_ok hcells, query_bind_ok howner, ← hk]
    rfl
  · rwa [hk]
  · rwa [hk]
  · exact hpush.resolve_closed harr
      (hp.env.mono hmoved.heap (suffix_of_cons_suffix hs).subset) hres henv
  · rw [← hk]
    simp [Heap.continuation, present]

/-- A continuation is copied from its outermost return point inward. -/
theorem Arranged.promotePoints (hm : Arranged segs m) (hs : sub <:+ segs) {cont : Cont}
    (hc : ContIn m.heap sub cont) {n : Nat} (hn : sub.length ≤ n) :
    ∃ new w target, promotePoints n cont m = .ok new w ∧ Moved segs target m w ∧
      SameRegisters m w ∧ Arranged segs w ∧ new.ClosedIn w.heap ∧ Copied w cont new ∧
      Copies m w cont := by
  induction sub generalizing cont n with
  | nil =>
    have hclosed := hc.closed_of_nil
    refine ⟨cont, m, _, promotePoints_done ?_, .refl segs m, .refl m, hm, hclosed, .same ?_,
      fun n hn => by omega⟩
    · cases cont with
      | onStack => exact hclosed.elim
      | _ => cases n <;> rfl
    · rintro c rfl
      exact hclosed
  | cons s rest ih =>
    have hrest := suffix_of_cons_suffix hs
    rw [List.length_cons] at hn
    by_cases hr : ContIn m.heap rest cont
    · exact ih hrest hr (by omega)
    · obtain ⟨start, count, id, rfl, rfl⟩ : ∃ start count id, s = .point start count id ∧
          cont = .onStack (start + count + 4) := by
        cases hc with
        | closed hc => exact absurd (.closed hc) hr
        | @onStack start count id hmem =>
          rcases List.mem_cons.1 hmem with rfl | hmem
          · exact ⟨start, count, id, rfl, rfl⟩
          · exact absurd (.onStack hmem) hr
      obtain ⟨n, rfl⟩ : ∃ n', n = n' + 1 := ⟨n - 1, by omega⟩
      obtain ⟨htop, ⟨p, hp⟩, -⟩ := hm.stacked.at_suffix hs
      rw [Segment.top_point] at htop
      obtain ⟨prev, w, target, hw, hmoved, hregs, harr, hprev, hcopied, hcopies⟩ :=
        ih hrest hp.prev (n := n) (by omega)
      have hpw : PointIn w.heap w.stack rest start count p :=
        { hmoved.pointCells hm hs hp with
          frames_le := hp.frames_le
          env := hp.env.mono hmoved.heap (List.Subset.refl _)
          prev := hp.prev.mono hmoved.heap (List.Subset.refl _) }
      obtain ⟨k, env, owner, w', target', hw', hmoved', hregs', harr', hk, hsize, hres, hobj⟩ :=
        harr.promoteReturnPoint hs hpw hprev
      have hpw' : w'.returnPoint (start + count + 4) = .ok p :=
        (hmoved'.pointCells harr hs hpw).returnPoint (by rwa [hregs'.sp, hregs.sp])
      have hcopied' : Copied w' (.onStack (start + count + 4)) (.onHeap k) :=
        .point hpw' hres
          (hcopied.moved hmoved' hregs'.sp harr (hpw.prev.mono (.refl _) hrest.subset)) hobj
      refine ⟨.onHeap k, w', _, ?_, hmoved.trans hmoved' hm harr, hregs.trans hregs', harr',
        Nat.lt_of_lt_of_eq (Nat.lt_succ_self _) hsize.symm, hcopied', ?_⟩
      · rw [promotePoints_point (hp.returnPoint htop), bind_ok hw, hw']
      · intro n hn
        cases n with
        | zero =>
          obtain rfl : k = ⟨w'.heap.continuations.size - 1 - 0⟩ := by
            cases k
            simp only [Ref.mk.injEq] at hsize ⊢
            omega
          exact hcopied'
        | succ n =>
          have hin : ContIn w.heap segs (m.contAfter p.prev n) :=
            (hm.contAfter (hp.prev.mono (.refl _) hrest.subset) n).mono hmoved.heap
              (List.Subset.refl _)
          rw [Machine.contAfter, caller_point (hp.returnPoint htop), hsize,
            show k.index + 1 - 1 - (n + 1) = w.heap.continuations.size - 1 - n by omega]
          exact (hcopies n (by omega)).moved hmoved' hregs'.sp harr hin

theorem Arranged.promoteCont (hm : Arranged segs m) {cont : Cont} (hc : ContIn m.heap segs cont) :
    ∃ new w target, promoteCont cont m = .ok new w ∧ Moved segs target m w ∧
      SameRegisters m w ∧ Arranged segs w ∧ new.ClosedIn w.heap ∧ Copied w cont new ∧
      Copies m w cont := by
  obtain ⟨new, w, target, hw, h⟩ := hm.promotePoints List.suffix_rfl hc hm.length_le
  exact ⟨new, w, target, (promoteCont_eq cont).trans hw, h⟩

end LispMachine
