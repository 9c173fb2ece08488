import LispMachine.Proofs.Arrangement.Room
import LispMachine.Proofs.Arrangement.Slots

/-! # Returning through the stack and through the heap

A continuation may be returned through where it lies on the stack or, after it was copied, on the
heap. Both ways go on at the same places with the same values in the same frames, all the way down
the chain.
-/

namespace LispMachine

open Machine

namespace Machine

def unwind : Nat → Exec Unit
  | 0 => pure ()
  | n + 1 => do
    ret
    unwind n

/-- On each of `n` returns the values that a continuation on the heap has saved fit on the stack,
beside those of the activation that is left. -/
def HasRoomToUnwind : Nat → Machine → Prop
  | 0, _ => True
  | n + 1, m =>
    (∀ k o ip, m.cont = .onHeap k → m.heap.continuation k = .ok o → o.resume = .code ip →
      m.sp - m.bp + o.saved.size ≤ m.capacity) ∧
    ∀ m', ret m = .ok () m' → m'.HasRoomToUnwind n

end Machine

/-- Two machines go on at the same place. What the first has left to return through is where `w` has
copied it. -/
structure SameControl (w A B : Machine) : Prop where
  ip : B.ip = A.ip
  acc : B.acc = A.acc
  runnable : B.runnable = A.runnable
  hosts : B.hosts = A.hosts
  cont : Copied w A.cont B.cont

/-- Two machines are at the same point of a computation, where frames of the first are found as `w`
has moved them. -/
structure SamePoint (w A B : Machine) : Prop extends SameControl w A B where
  values : B.stack.extract B.bp B.sp = A.stack.extract A.bp A.sp
  env : w.resolve A.env = .ok B.env
  slots : ∀ depth index, (B.readSlot depth index).toOption = (A.readSlot depth index).toOption

variable {segs sub rest : List Segment} {target : Nat → Option Nat} {m w A A' B : Machine}
  {start count id : Nat} {p : ReturnPoint} {env new : Env}

/-! ## Side by side -/

/-- The first machine returns through the stack of `m` and the second through the heap to which `w`
has copied it. Once the first one has come to the heap, both go on from there. -/
structure Unwinding (segs : List Segment) (m w A B : Machine) : Prop extends
    SameControl w A B where
  left : ∃ sub, Arranged sub A
  right : ∃ sub, Arranged sub B
  base : (∃ sub, sub <:+ segs ∧ Arranged sub A ∧ A.heap = m.heap ∧ A.sp ≤ m.sp ∧
      ∀ i < A.sp, A.stack[i]? = m.stack[i]?) ∨
    A.env.ClosedIn m.heap ∧ A.cont.ClosedIn m.heap ∧ m.heap.Grown A.heap
  heap : w.heap.Grown B.heap
  size : A.stack.size = m.stack.size

theorem Moved.resolve_resolve (hw : Moved segs target m w) (hm : Arranged segs m) {link : Env}
    (he : EnvIn m.heap segs env) (hr : m.resolve env = .ok link) (hrw : w.resolve env = .ok new) :
    w.resolve link = .ok new := by
  cases env with
  | empty =>
    cases hr
    exact hrw
  | onHeap =>
    cases hr
    exact hrw
  | onStack e =>
    obtain ⟨start, count, id, rest, rfl, -, -, ⟨q, hq, -⟩ | ⟨parent, hf, -⟩⟩ := hm.frameIn he
    · rw [Machine.resolve, descriptor_moved ((hw.stays _ (hw.stays_gone hq)).trans hq)] at hrw
      rw [Machine.resolve, descriptor_moved hq] at hr
      cases hr
      cases hrw
      rfl
    · rw [Machine.resolve, hf.descriptor] at hr
      cases hr
      exact hrw

/-- The continuation on the heap holds what a return through the stack has brought back, where
frames are found as `w` has moved them. -/
structure Continuation.Holds (o : Continuation) (w A : Machine) : Prop where
  resume : o.resume = .code A.ip
  values : o.saved = A.stack.extract A.bp A.sp
  env : w.resolve A.env = .ok o.env
  slots : ∀ depth index, w.slot? o.env depth index = A.slot? A.env depth index
  cont : Copied w A.cont o.prev

/-- A return through what is left of the stack of `m`, and what the copy of the return point
holds. -/
theorem Arranged.ret_copied (hm : Arranged segs m) (hw : Moved segs target m w) (hsp : w.sp = m.sp)
    (hA : Arranged sub A) (hsub : sub <:+ segs) (hheap : A.heap = m.heap) (hle : A.sp ≤ m.sp)
    (hcap : A.stack.size = m.stack.size) (hcells : ∀ i < A.sp, A.stack[i]? = m.stack[i]?) {c : Nat}
    {cont : Cont} (hc : A.cont = .onStack c) (hcopied : Copied w (.onStack c) cont) :
    ∃ rest p env k o, rest <:+ segs ∧ Machine.ret A = .ok () (A.returned c p env) ∧
      Arranged rest (A.returned c p env) ∧ (A.returned c p env).sp ≤ m.sp ∧
      (∀ i < (A.returned c p env).sp, (A.returned c p env).stack[i]? = m.stack[i]?) ∧
      cont = .onHeap k ∧ w.heap.continuation k = .ok o ∧ o.Holds w (A.returned c p env) := by
  obtain ⟨start, count, id, rest, p, env, rfl, hs, hpA, hresA, hret, hA'⟩ := hA.ret_point hc
  have htop := (hA.stacked.at_suffix hs).1
  rw [Segment.top_point] at htop
  have hroomA : A.sp ≤ A.stack.size := hA.room
  have hrest := (suffix_of_cons_suffix hs).trans hsub
  have hcells' (i : Nat) (hi : i < start + count) :
      (A.returned (start + count + 4) p env).stack[i]? = m.stack[i]? := by
    rw [← hcells i (by omega)]
    exact Cells.getElem?_clear_lt hi
  -- the same return point is in the cells of all three machines
  have hpm : PointIn m.heap m.stack rest start count p :=
    hpA.congr (fun i _ hi => (hcells i (by omega)).symm) (hheap ▸ .refl _)
  have hpw := (hw.pointCells hm (hs.trans hsub) hpm).returnPoint (by omega)
  have hsaved : w.stack.extract p.bp (start + count) = m.stack.extract p.bp (start + count) :=
    hw.saved_eq hm (hs.trans hsub) hpm
  have hresm : m.resolve p.env = .ok env := by
    rw [hA.resolve_eq (hpA.env.mono (.refl _) (suffix_of_cons_suffix hs).subset) fun i hi =>
      (hcells i hi).symm, hresA]
  have henv : EnvIn m.heap rest env := hheap ▸ hA'.env
  cases hcopied with
  | same hne => exact absurd rfl (hne _)
  | @point _ p' k new prev owner hpw' hresw hprev hk =>
    rw [hpw] at hpw'
    cases hpw'
    rw [Nat.add_sub_cancel, hsaved] at hk
    have hresw' : w.resolve env = .ok new :=
      hw.resolve_resolve hm (hpm.env.mono (.refl _) hrest.subset) hresm hresw
    refine ⟨rest, p, env, k, _, hrest, hret, hA', by change start + count ≤ m.sp; omega, hcells',
      rfl, hk, ?_⟩
    refine ⟨rfl, ?_, hresw', fun depth index => ?_, hprev⟩
    · refine Moved.extract_eq (by simp [Machine.returned, hcap]) fun i _ hi => ?_
      exact (hcells' i hi).symm
    · rw [← hw.slot?_eq hm (henv.mono (.refl _) hrest.subset) hresw' depth index]
      exact hA'.slot?_eq hA'.env (by simp [Machine.returned, hcap])
        (fun i hi => (hcells' i hi).symm) hheap.symm depth index

theorem Unwinding.point (hu : Unwinding segs m w A B) (hm : Arranged segs m)
    (hw : Moved segs target m w) (hsp : w.sp = m.sp) (hl : w.heap.Linked) {c n : Nat}
    (hc : A.cont = .onStack c) (hroom : B.HasRoomToUnwind (n + 1)) :
    ∃ A' B', Machine.ret A = .ok () A' ∧ Machine.ret B = .ok () B' ∧ Unwinding segs m w A' B' ∧
      SamePoint w A' B' := by
  obtain ⟨sub, hsub, hA, hheap, hle, hcells⟩ : ∃ sub, sub <:+ segs ∧ Arranged sub A ∧
      A.heap = m.heap ∧ A.sp ≤ m.sp ∧ ∀ i < A.sp, A.stack[i]? = m.stack[i]? := by
    rcases hu.base with h | ⟨-, h, -⟩
    · exact h
    · rw [hc] at h
      exact h.elim
  have hcopied := hu.cont
  rw [hc] at hcopied
  obtain ⟨rest, p, env, k, o, hrest, hret, hA', hle', hcells', hkB, hk, hholds⟩ :=
    hm.ret_copied hw hsp hA hsub hheap hle hu.size hcells hc hcopied
  obtain ⟨subB, hB⟩ := hu.right
  have hclosed := (hl.continuations _ (Heap.mem_of_continuation hk)).1
  have hkB' := hu.heap.continuation hk
  obtain ⟨B', hretB, hres, hB'⟩ :=
    hB.resume hkB hkB' hholds.resume (hroom.1 k o _ hkB hkB' hholds.resume)
  have hsame : SamePoint w (A.returned c p env) B' :=
    { ip := by rw [hres.rest]
      acc := by rw [hres.rest]; exact hu.acc
      runnable := by rw [hres.rest]; exact hu.runnable
      hosts := by rw [hres.rest]; exact hu.hosts
      cont := by rw [hres.rest]; exact hholds.cont
      values := by rw [hres.values, hholds.values]
      env := hholds.env.trans (by rw [hres.rest])
      slots := by
        intro depth index
        rw [toOption_readSlot, toOption_readSlot, ← hholds.slots,
          show B'.env = o.env by rw [hres.rest]]
        exact hl.slot?_eq hclosed (hu.heap.trans hres.heap) (.refl _) depth index }
  refine ⟨_, B', hret, (ret_of_onHeap hkB).trans hretB, ?_, hsame⟩
  exact
    { toSameControl := hsame.toSameControl
      left := ⟨rest, hA'⟩
      right := ⟨[], hB'⟩
      base := .inl ⟨rest, hrest, hA', hheap, hle', hcells'⟩
      heap := hu.heap.trans hres.heap
      size := by simpa [Machine.returned] using hu.size }

/-! ## From one heap -/

section Object

variable {k : Ref .continuation} {o : Continuation}

theorem Unwinding.cont_eq (hu : Unwinding segs m w A B) (hne : ∀ c, A.cont ≠ .onStack c) :
    B.cont = A.cont := by
  have hcopied := hu.cont
  generalize A.cont = contA at hcopied hne
  generalize B.cont = contB at hcopied
  cases hcopied with
  | same => rfl
  | point => exact absurd rfl (hne _)

theorem Unwinding.grown_left (hu : Unwinding segs m w A B) : m.heap.Grown A.heap := by
  rcases hu.base with ⟨-, -, -, hheap, -⟩ | ⟨-, -, hg⟩
  · rw [hheap]
    exact .refl _
  · exact hg

theorem Unwinding.cont_closed (hu : Unwinding segs m w A B) (hk : A.cont = .onHeap k) :
    (Cont.onHeap k).ClosedIn m.heap := by
  rcases hu.base with ⟨sub, -, hA, hheap, -⟩ | ⟨-, h, -⟩
  · have hcont := hA.cont
    rw [hheap, hk] at hcont
    cases hcont
    assumption
  · exact hk ▸ h

theorem Unwinding.halted (hu : Unwinding segs m w A B) (hsame : SamePoint w A B) :
    Unwinding segs m w { A with runnable := false } { B with runnable := false } ∧
      SamePoint w { A with runnable := false } { B with runnable := false } := by
  obtain ⟨subA, hA⟩ := hu.left
  obtain ⟨subB, hB⟩ := hu.right
  refine ⟨?_, { hsame with runnable := rfl, slots := fun depth index => ?_ }⟩
  · exact
      { hu with
        left := ⟨subA, { hA with }⟩
        right := ⟨subB, { hB with }⟩
        base := hu.base.imp (fun ⟨sub, hs, hA, h⟩ => ⟨sub, hs, { hA with }, h⟩) fun h => h
        runnable := rfl }
  · have := hsame.slots depth index
    rw [toOption_readSlot, toOption_readSlot] at this ⊢
    rwa [slot?_eq_of_same A { A with runnable := false } rfl rfl,
      slot?_eq_of_same B { B with runnable := false } rfl rfl]

theorem Heap.Linked.readSlot_eq (hl : m.heap.Linked) (hclosed : env.ClosedIn m.heap)
    (hA : A.env = env) (hB : B.env = env) (hgA : m.heap.Grown A.heap) (hgB : m.heap.Grown B.heap)
    (depth index : Nat) :
    (B.readSlot depth index).toOption = (A.readSlot depth index).toOption := by
  rw [toOption_readSlot, toOption_readSlot, hA, hB]
  exact hl.slot?_eq hclosed hgB hgA depth index

theorem Copied.of_closed {cont : Cont} (h : cont.ClosedIn m.heap) : Copied w cont cont := by
  refine .same fun pos hpos => ?_
  rw [hpos] at h
  exact h

theorem Unwinding.marker (hu : Unwinding segs m w A B) (hsame : SamePoint w A B)
    (hl : m.heap.Linked) (hg : m.heap.Grown w.heap) (ho : m.heap.continuation k = .ok o) {id : Nat}
    (hr : o.resume = .host id) (hA' : Machine.resume k A = .ok () A') :
    ∃ B', Machine.resume k B = .ok () B' ∧ Unwinding segs m w A' B' ∧ SamePoint w A' B' := by
  obtain ⟨henv, hprev⟩ := hl.continuations o (Heap.mem_of_continuation ho)
  obtain ⟨subA, hA⟩ := hu.left
  obtain ⟨subB, hB⟩ := hu.right
  have hgA := hu.grown_left
  have hgB := hg.trans hu.heap
  have hhosts := congrArg (fun hosts : HostCalls => { hosts with returned := some id }) hu.hosts
  rw [resume_host (hgA.continuation ho) hr] at hA'
  split at hA'
  next hid =>
    cases hA'
    refine ⟨_, (resume_host (hgB.continuation ho) hr).trans (if_pos (hu.hosts ▸ hid)), ?_, ?_⟩
    · exact
        { hu with
          left := ⟨[], .of_closed hA.room (henv.mono hgA) (hprev.mono hgA) hA.linked⟩
          right := ⟨[], .of_closed hB.room (henv.mono hgB) (hprev.mono hgB) hB.linked⟩
          base := .inr ⟨henv, hprev, hgA⟩
          hosts := hhosts
          cont := .of_closed hprev }
    · exact
        { hsame with
          hosts := hhosts
          env := henv.resolve w
          slots := hl.readSlot_eq henv rfl rfl hgA hgB
          cont := .of_closed hprev }
  next => cases hA'

theorem Unwinding.code (hu : Unwinding segs m w A B) (hl : m.heap.Linked)
    (hg : m.heap.Grown w.heap) (ho : m.heap.continuation k = .ok o) (hkA : A.cont = .onHeap k)
    (hkB : B.cont = .onHeap k) {ip n : Nat} (hr : o.resume = .code ip)
    (hroom : B.HasRoomToUnwind (n + 1)) (hA' : Machine.resume k A = .ok () A') :
    ∃ B', Machine.resume k B = .ok () B' ∧ Unwinding segs m w A' B' ∧ SamePoint w A' B' := by
  obtain ⟨henv, hprev⟩ := hl.continuations o (Heap.mem_of_continuation ho)
  obtain ⟨subA, hA⟩ := hu.left
  obtain ⟨subB, hB⟩ := hu.right
  have hoA := hu.grown_left.continuation ho
  have hoB := (hg.trans hu.heap).continuation ho
  -- the first machine has returned, so there was room for it
  have hfit : A.sp - A.bp + o.saved.size ≤ A.capacity := by
    by_contra hover
    obtain ⟨A'', hA'', -⟩ := hA.resume_overflow hkA hoA hr (Nat.not_le.1 hover)
    rw [hA''] at hA'
    cases hA'
  obtain ⟨A₁, hA₁, hresA, harrA⟩ := hA.resume hkA hoA hr hfit
  rw [hA₁] at hA'
  cases hA'
  obtain ⟨B', hB', hresB, harrB⟩ := hB.resume hkB hoB hr (hroom.1 k o ip hkB hoB hr)
  have hgA := hu.grown_left.trans hresA.heap
  have hgB := (hg.trans hu.heap).trans hresB.heap
  have hsame : SamePoint w A' B' :=
    { ip := by rw [hresA.rest, hresB.rest]
      acc := by rw [hresA.rest, hresB.rest]; exact hu.acc
      runnable := by rw [hresA.rest, hresB.rest]; exact hu.runnable
      hosts := by rw [hresA.rest, hresB.rest]; exact hu.hosts
      cont := by rw [hresA.rest, hresB.rest]; exact .of_closed hprev
      values := by rw [hresA.values, hresB.values]
      env := by rw [hresA.rest, hresB.rest]; exact henv.resolve w
      slots := hl.readSlot_eq henv (by rw [hresA.rest]) (by rw [hresB.rest]) hgA hgB }
  refine ⟨B', hB', ?_, hsame⟩
  exact
    { toSameControl := hsame.toSameControl
      left := ⟨[], harrA⟩
      right := ⟨[], harrB⟩
      base := .inr ⟨by rw [hresA.rest]; exact henv, by rw [hresA.rest]; exact hprev, hgA⟩
      heap := hu.heap.trans hresB.heap
      size := hresA.capacity.trans hu.size }

theorem Unwinding.object (hu : Unwinding segs m w A B) (hsame : SamePoint w A B)
    (hl : m.heap.Linked) (hg : m.heap.Grown w.heap) (hne : ∀ c, A.cont ≠ .onStack c) {n : Nat}
    (hroom : B.HasRoomToUnwind (n + 1)) (hA' : Machine.ret A = .ok () A') :
    ∃ B', Machine.ret B = .ok () B' ∧ Unwinding segs m w A' B' ∧ SamePoint w A' B' := by
  have hcont := hu.cont_eq hne
  cases hk : A.cont with
  | onStack c => exact absurd hk (hne c)
  | empty =>
    rw [hk] at hcont
    rw [ret_of_empty hk] at hA'
    cases hA'
    exact ⟨_, ret_of_empty hcont, hu.halted hsame⟩
  | onHeap k =>
    rw [hk] at hcont
    obtain ⟨o, ho⟩ := (hu.cont_closed hk).exists_continuation
    rw [ret_of_onHeap hk] at hA'
    rw [ret_of_onHeap hcont]
    cases hr : o.resume with
    | halt =>
      rw [resume_halt (hu.grown_left.continuation ho) hr] at hA'
      cases hA'
      exact ⟨_, resume_halt ((hg.trans hu.heap).continuation ho) hr, hu.halted hsame⟩
    | host id => exact hu.marker hsame hl hg ho hr hA'
    | code ip => exact hu.code hl hg ho hk hcont hr hroom hA'

end Object

theorem Unwinding.unwind (hm : Arranged segs m) (hw : Moved segs target m w) (hsp : w.sp = m.sp)
    (hl : w.heap.Linked) {n : Nat} (hu : Unwinding segs m w A B) (hsame : SamePoint w A B)
    (hroom : B.HasRoomToUnwind n) (hA' : Machine.unwind n A = .ok () A') :
    ∃ B', Machine.unwind n B = .ok () B' ∧ SamePoint w A' B' := by
  induction n generalizing A B with
  | zero =>
    cases hA'
    exact ⟨B, rfl, hsame⟩
  | succ n ih =>
    cases hret : Machine.ret A with
    | error e A₁ =>
      rw [Machine.unwind, bind_error hret] at hA'
      cases hA'
    | ok u A₁ =>
      rw [Machine.unwind, bind_ok hret] at hA'
      obtain ⟨B₁, hB₁, hu₁, hsame₁⟩ : ∃ B₁, Machine.ret B = .ok () B₁ ∧
          Unwinding segs m w A₁ B₁ ∧ SamePoint w A₁ B₁ := by
        by_cases hc : ∃ c, A.cont = .onStack c
        · obtain ⟨c, hc⟩ := hc
          obtain ⟨A₂, B₁, hA₂, h⟩ := hu.point hm hw hsp hl hc hroom
          rw [hret] at hA₂
          cases hA₂
          exact ⟨B₁, h⟩
        · exact hu.object hsame hm.linked hw.heap (fun c h => hc ⟨c, h⟩) hroom hret
      obtain ⟨B', hB', h⟩ := ih hu₁ hsame₁ (hroom.2 B₁ hB₁) hA'
      refine ⟨B', ?_, h⟩
      rw [Machine.unwind, bind_ok hB₁, hB']

/-! ## The whole chain -/

/-- Returning through the stack comes to the heap or to the end. -/
theorem Arranged.exists_unwind (hm : Arranged segs m) :
    ∃ n A, Machine.unwind n m = .ok () A ∧ ∀ c, A.cont ≠ .onStack c := by
  induction hlen : segs.length using Nat.strong_induction_on generalizing segs m with
  | _ len ih =>
    by_cases hc : ∃ c, m.cont = .onStack c
    · obtain ⟨c, hc⟩ := hc
      obtain ⟨start, count, id, rest, p, env, -, hs, -, -, hret, hA⟩ := hm.ret_point hc
      have hlt : rest.length < len := by
        have := hs.length_le
        rw [List.length_cons] at this
        omega
      obtain ⟨n, A, hn, hend⟩ := ih rest.length hlt hA rfl
      refine ⟨n + 1, A, ?_, hend⟩
      rw [Machine.unwind, bind_ok hret, hn]
    · exact ⟨0, m, rfl, fun c h => hc ⟨c, h⟩⟩

/-- However far both are unwound, they come to the same point, if the second one has room for what
comes back from the heap. -/
def UnwindAlike (w m B : Machine) : Prop :=
  ∀ n A, B.HasRoomToUnwind (n + 1) → Machine.unwind (n + 1) m = .ok () A →
    ∃ B', Machine.unwind (n + 1) B = .ok () B' ∧ SamePoint w A B'

theorem Unwinding.init (hm : Arranged segs m) (hB : Arranged sub B)
    (hrest : B = { m with
      stack := B.stack, sp := B.sp, bp := B.bp, env := B.env, cont := B.cont, heap := w.heap })
    (hc : Copied w m.cont B.cont) : Unwinding segs m w m B where
  ip := by rw [hrest]
  acc := by rw [hrest]
  runnable := by rw [hrest]
  hosts := by rw [hrest]
  cont := hc
  left := ⟨segs, hm⟩
  right := ⟨sub, hB⟩
  base := .inl ⟨segs, List.suffix_rfl, hm, rfl, le_rfl, fun _ _ => rfl⟩
  heap := by
    rw [hrest]
    exact .refl _
  size := rfl

theorem Unwinding.alike (hu : Unwinding segs m w m B) (hm : Arranged segs m)
    (hw : Moved segs target m w) (hsp : w.sp = m.sp) (hl : w.heap.Linked) {c : Nat}
    (hc : m.cont = .onStack c) : UnwindAlike w m B := by
  intro n A hroom hA
  obtain ⟨A₁, B₁, hA₁, hB₁, hu₁, hsame⟩ := hu.point hm hw hsp hl hc hroom
  rw [Machine.unwind, bind_ok hA₁] at hA
  obtain ⟨B', hB', hsame'⟩ := Unwinding.unwind hm hw hsp hl hu₁ hsame (hroom.2 B₁ hB₁) hA
  refine ⟨B', ?_, hsame'⟩
  rw [Machine.unwind, bind_ok hB₁, hB']

/-- The continuation on the stack can be returned through to its end. After it was captured, and
also after a collection, returning goes through the heap instead and comes to the same points. -/
theorem Arranged.unwind_alike (hm : Arranged segs m) {c : Nat} (hc : m.cont = .onStack c) :
    (∃ A, Machine.ret m = .ok () A) ∧
    (∃ n A, Machine.unwind n m = .ok () A ∧ ∀ c, A.cont ≠ .onStack c) ∧
    (∃ k w target, Machine.capture m = .ok k { w with cont := .onHeap k } ∧
      Moved segs target m w ∧ UnwindAlike w m { w with cont := .onHeap k }) ∧
    ∃ w target m', Machine.reclaim m = .ok () m' ∧ Moved segs target m w ∧ m'.heap = w.heap ∧
      UnwindAlike w m m' := by
  refine ⟨?_, hm.exists_unwind, ?_, ?_⟩
  · obtain ⟨_, _, _, _, p, env, -, -, -, -, hret, -⟩ := hm.ret_point hc
    exact ⟨_, hret⟩
  · obtain ⟨k, w, target, hk, hw, hregs, harr, hcopied⟩ := hm.capture
    have hcopied : Copied w m.cont (.onHeap k) := by
      rcases hcopied with ⟨h, -⟩ | ⟨h, -⟩
      · exact h
      · rw [hc] at h
        cases h
    refine ⟨k, w, target, hk, hw, Unwinding.alike ?_ hm hw hregs.sp harr.linked hc⟩
    refine .init hm harr ?_ hcopied
    rw [hregs]
  · obtain ⟨m', hm', w, target, hw, hsp, hcol, harr⟩ := hm.reclaim
    have hu : Unwinding segs m w m m' := .init hm harr hcol.rest hcol.cont
    exact ⟨w, target, m', hm', hw, hcol.heap, hu.alike hm hw hsp (hcol.heap ▸ harr.linked) hc⟩

/-- A frame with two slots, a value that is pending below a return point, and one more above. The
stack is full. -/
def Machine.insideCall : Machine :=
  { stack := #[.fixnum 1, .unbound, .fixnum 0, .fixnum 2, .nil, .fixnum 2, .fixnum 9, .fixnum 5,
      .stackFrame 2, .nil, .fixnum 3]
    sp := 11
    bp := 5
    env := .onStack 2
    cont := .onStack 10 }

theorem Machine.insideCall_arranged : Arranged [.point 5 1 0, .frame 0 2 0] insideCall where
  room := by decide
  stacked := by
    have hframe : FrameCells insideCall.stack 0 2 .empty := ⟨rfl, rfl, rfl⟩
    have hpoint : PointCells insideCall.stack 5 1 ⟨9, 5, .onStack 2, .empty⟩ :=
      ⟨rfl, rfl, rfl, rfl, by decide⟩
    refine ⟨by decide, ⟨_, { hpoint with frames_le := ?_, env := ?_, prev := .closed trivial }⟩,
      by decide, .inr ⟨_, hframe, .closed trivial⟩, trivial⟩
    · intro start count id h
      simp only [List.mem_singleton, Segment.frame.injEq] at h
      change start + count + 3 ≤ 5
      omega
    · exact .onStack List.mem_cons_self
  env := .onStack (List.mem_cons_of_mem _ List.mem_cons_self)
  cont := .onStack List.mem_cons_self
  linked := by constructor <;> simp [insideCall]

/-- Captured, collected or neither, the value is pending again after the return. -/
theorem Machine.insideCall_unwind_alike :
    (∃ A, ret insideCall = .ok () A ∧ A.stack.extract A.bp A.sp = #[.fixnum 2]) ∧
    (∃ k C B, capture insideCall = .ok k C ∧ unwind 1 C = .ok () B ∧
      B.stack.extract B.bp B.sp = #[.fixnum 2]) ∧
    ∃ C B, reclaim insideCall = .ok () C ∧ unwind 1 C = .ok () B ∧
      B.stack.extract B.bp B.sp = #[.fixnum 2] := by
  have hret : ∃ A, ret insideCall = .ok () A ∧ A.stack.extract A.bp A.sp = #[.fixnum 2] :=
    ⟨_, rfl, by decide⟩
  have hcapture : ∃ k C, capture insideCall = .ok k C ∧ C.HasRoomToUnwind 1 := by
    refine ⟨_, _, rfl, fun k o ip hk ho _ => ?_, fun _ _ => trivial⟩
    cases hk
    cases ho
    decide
  have hreclaim : ∃ C, reclaim insideCall = .ok () C ∧ C.HasRoomToUnwind 1 := by
    refine ⟨_, rfl, fun k o ip hk ho _ => ?_, fun _ _ => trivial⟩
    cases hk
    cases ho
    decide
  obtain ⟨A, hA, hvalues⟩ := hret
  have hunwind : unwind 1 insideCall = .ok () A := by
    rw [unwind, bind_ok hA]
    rfl
  obtain ⟨-, -, ⟨k, w, -, hk, -, hcaptured⟩, w', -, m', hm', -, -, hcollected⟩ :=
    insideCall_arranged.unwind_alike rfl
  refine ⟨⟨A, hA, hvalues⟩, ?_, ?_⟩
  · obtain ⟨k', C, hC, hroom⟩ := hcapture
    rw [hk] at hC
    cases hC
    obtain ⟨B, hB, hsame⟩ := hcaptured 0 A hroom hunwind
    exact ⟨k, _, B, hk, hB, hsame.values.trans hvalues⟩
  · obtain ⟨C, hC, hroom⟩ := hreclaim
    rw [hm'] at hC
    cases hC
    obtain ⟨B, hB, hsame⟩ := hcollected 0 A hroom hunwind
    exact ⟨m', B, hm', hB, hsame.values.trans hvalues⟩

end LispMachine
