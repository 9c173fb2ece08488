import LispMachine.Proofs.Arrangement.Promotion
import LispMachine.Proofs.Simulation.Returns

/-! # The effect of a collection

A collection moves all that the registers name to the heap and keeps the cells of the current
activation above its continuation. What is resumed from the heap afterwards finds room if the
activation and the pending values fit together.
-/

namespace LispMachine

open Machine

variable {segs : List Segment} {target : Nat → Option Nat} {m w m' : Machine}

/-- A collection, after which the registers lead where they led in `w` and the cells that were kept
are the first ones. -/
structure Collected (m w m' : Machine) : Prop where
  rest : m' = { m with
    stack := m'.stack, sp := m'.sp, bp := m'.bp, env := m'.env, cont := m'.cont, heap := w.heap }
  capacity : m'.capacity = m.capacity
  env : w.resolve m.env = .ok m'.env
  cont : Copied w m.cont m'.cont
  copies : Copies m w m.cont
  sp : m'.sp = m.sp - m.kept
  bp : m.bp ≤ m.sp → m'.bp = m.bp - m.kept
  cells : ∀ i < m'.sp, m'.stack[i]? = w.stack[m.kept + i]?

theorem Collected.heap (h : Collected m w m') : m'.heap = w.heap := by rw [h.rest]

/-- Frames have moved, and after the collection no segment is left. -/
def Reclaimed (segs : List Segment) (m m' : Machine) : Prop :=
  ∃ w target, Moved segs target m w ∧ w.sp = m.sp ∧ Collected m w m' ∧ Arranged [] m'

theorem Arranged.reclaim (hm : Arranged segs m) :
    ∃ m', Machine.reclaim m = .ok () m' ∧ Reclaimed segs m m' := by
  obtain ⟨env, w₁, t₁, hw₁, hmoved₁, hregs₁, harr₁, henv, hres, hsame⟩ := hm.promoteEnv hm.env
  have harr₁' : Arranged segs { w₁ with env } := { harr₁ with env := .closed henv }
  have hcont₁ : ContIn w₁.heap segs w₁.cont := harr₁.cont
  obtain ⟨cont, w, t₂, hw, hmoved₂, hregs₂, harr, hcont, hcopied, hcopies⟩ :=
    harr₁'.promoteCont hcont₁
  have hmoved : Moved segs _ m w :=
    Moved.trans (w := { w₁ with env }) { hmoved₁ with } hmoved₂ hm harr₁'
  have hsp : w.sp = m.sp := hregs₂.sp.trans hregs₁.sp
  have hbp : w.bp = m.bp := hregs₂.bp.trans hregs₁.bp
  have henvw : env.ClosedIn w.heap := henv.mono hmoved₂.heap
  have hrun := reclaim_eq hw₁ hw (fun e he => by subst he; exact henv)
    (fun c hc => by subst hc; exact hcont) hsp hbp (by rw [hsp, hmoved.capacity]; exact hm.room)
  have hwm : w = { m with stack := w.stack, env, heap := w.heap } := by rw [hregs₂, hregs₁]
  have hresw : w.resolve m.env = .ok env :=
    hmoved₂.resolve_closed harr₁' (hm.env.mono hmoved₁.heap (List.Subset.refl _)) hres henv
  have hcopiedw : Copied w m.cont cont := by
    have := hregs₁.cont
    rwa [this] at hcopied
  have hcopiesw : Copies m w m.cont := by
    intro n hn
    have hin : ContIn m.heap segs w₁.cont := hregs₁.cont ▸ hm.cont
    have hafter := Moved.contAfter (w := { w₁ with env }) { hmoved₁ with } hregs₁.sp hm hin n
    have h := hcopies n (by rwa [hsame])
    rwa [hafter, hregs₁.cont] at h
  have henv' : w.env = env := by rw [hwm]
  have hkept : m.kept ≤ m.sp := Nat.min_le_right _ _
  have hcap : w.stack.size = m.stack.size := hmoved.size
  have hroom : m.sp ≤ m.stack.size := hm.room
  refine ⟨_, hrun, w, _, hmoved, hsp, ?_⟩
  by_cases hk : m.kept = 0
  · rw [if_pos hk]
    refine ⟨⟨by rw [hwm], hcap, hresw.trans (by rw [henv']), hcopiedw, hcopiesw, ?_, fun _ => ?_,
      ?_⟩, ?_⟩
    · rw [hk, ← hsp]
      rfl
    · rw [hk, ← hbp]
      rfl
    · intro i _
      rw [hk, Nat.zero_add]
    · refine .of_closed ?_ ?_ hcont harr.linked
      · change w.sp ≤ w.stack.size
        omega
      · change w.env.ClosedIn w.heap
        rwa [henv']
  · rw [if_neg hk]
    refine ⟨⟨by rw [hwm], ?_, hresw.trans (by rw [henv']), hcopiedw, hcopiesw, rfl, fun hle => ?_,
      ?_⟩, ?_⟩
    · simp [capacity, hcap]
    · change min (m.bp - m.kept) (m.sp - m.kept) = m.bp - m.kept
      omega
    · intro i hi
      change i < m.sp - m.kept at hi
      rw [Cells.getElem?_slide (Nat.zero_le _) (by omega), if_pos (by omega)]
      rfl
    · refine .of_closed ?_ ?_ hcont harr.linked
      · change m.sp - m.kept ≤ (Cells.slide w.stack 0 m.kept (m.sp - m.kept)).size
        rw [Cells.size_slide]
        omega
      · change w.env.ClosedIn w.heap
        rwa [henv']

/-- There is room, or a collection makes it if the current activation leaves enough. -/
theorem Arranged.makeRoom (hm : Arranged segs m) {n : Nat} {f : Fault}
    (hroom : m.sp - m.kept + n ≤ m.capacity) :
    ∃ m', Machine.makeRoom n f m = .ok () m' ∧ m'.sp + n ≤ m'.capacity ∧
      (m' = m ∨ Reclaimed segs m m') := by
  by_cases hfit : m.sp + n ≤ m.capacity
  · exact ⟨m, makeRoom_of_room hfit, hfit, .inl rfl⟩
  · obtain ⟨m', hm', hrec⟩ := hm.reclaim
    obtain ⟨w, target, -, -, hcol, -⟩ := id hrec
    have hfit' : m'.sp + n ≤ m'.capacity := by rwa [hcol.sp, hcol.capacity]
    exact ⟨m', (makeRoom_of_reclaim hfit hm').trans (if_pos hfit'), hfit', .inr hrec⟩

theorem Arranged.makeRoom_overflow (hm : Arranged segs m) {n : Nat} {f : Fault}
    (hroom : m.capacity < m.sp - m.kept + n) :
    ∃ m', Machine.makeRoom n f m = .error (.fault f) m' ∧ Reclaimed segs m m' := by
  obtain ⟨m', hm', hrec⟩ := hm.reclaim
  obtain ⟨w, target, -, -, hcol, -⟩ := id hrec
  refine ⟨m', (makeRoom_of_reclaim (by omega) hm').trans (if_neg ?_), hrec⟩
  rw [hcol.sp, hcol.capacity]
  omega

/-- The machine has resumed a continuation from the heap: its values are the new activation. -/
structure Resumed (m : Machine) (c : Continuation) (ip : Nat) (m' : Machine) : Prop where
  rest : m' = { m with
    stack := m'.stack, sp := m'.sp, bp := m'.bp, ip, env := c.env, cont := c.prev, heap := m'.heap }
  capacity : m'.capacity = m.capacity
  sp : m'.sp = m'.bp + c.saved.size
  values : m'.stack.extract m'.bp m'.sp = c.saved
  heap : m.heap.Grown m'.heap
  size : m'.heap.continuations.size = m.heap.continuations.size

theorem Copies.size_eq {cont : Cont} (h : Copies m w cont) (hg : m.heap.Grown w.heap)
    (hc : cont.ClosedIn m.heap) :
    w.heap.continuations.size = m.heap.continuations.size := by
  have hle := hg.continuations.size_le
  by_contra hne
  have h := h 0 (by omega)
  rw [Machine.contAfter] at h
  cases h with
  | same =>
    change w.heap.continuations.size - 1 - 0 < m.heap.continuations.size at hc
    omega
  | point => exact hc

theorem Machine.sp_sub_kept {k : Ref .continuation} (hk : m.cont = .onHeap k) :
    m.sp - m.kept = m.sp - m.bp := by
  rw [Machine.kept, hk]
  change m.sp - min (max m.bp 0) m.sp = m.sp - m.bp
  omega

/-- Resuming needs room for the pending values besides the current activation. -/
theorem Arranged.resume (hm : Arranged segs m) {k : Ref .continuation} {c : Continuation} {ip : Nat}
    (hk : m.cont = .onHeap k) (hc : m.heap.continuation k = .ok c) (hr : c.resume = .code ip)
    (hroom : m.sp - m.bp + c.saved.size ≤ m.capacity) :
    ∃ m', Machine.resume k m = .ok () m' ∧ Resumed m c ip m' ∧ Arranged [] m' := by
  rw [← sp_sub_kept hk] at hroom
  obtain ⟨m₁, hm₁, hfit, hcases⟩ := hm.makeRoom (f := .stackOverflow) hroom
  have hclosed : (Cont.onHeap k).ClosedIn m.heap := by
    have := hm.cont
    rw [hk] at this
    cases this
    assumption
  obtain ⟨hrest, hcap, hgrown, hlinked, hsize⟩ : m₁ = { m with
      stack := m₁.stack, sp := m₁.sp, bp := m₁.bp, env := m₁.env, cont := m₁.cont,
        heap := m₁.heap } ∧
      m₁.capacity = m.capacity ∧ m.heap.Grown m₁.heap ∧ m₁.heap.Linked ∧
      m₁.heap.continuations.size = m.heap.continuations.size := by
    rcases hcases with rfl | ⟨w, target, hmoved, -, hcol, harr⟩
    · exact ⟨rfl, rfl, .refl _, hm.linked, rfl⟩
    · have hlinked := harr.linked
      rw [hcol.heap] at hlinked ⊢
      exact ⟨hcol.rest, hcol.capacity, hmoved.heap, hlinked,
        hcol.copies.size_eq hmoved.heap (hk ▸ hclosed)⟩
  have hlen : c.saved.toList.length = c.saved.size := Array.length_toList
  have hall : pushAll c.saved.toList { m₁ with bp := m₁.sp } = .ok () { m₁ with
      bp := m₁.sp
      stack := Cells.write m₁.stack m₁.sp c.saved.toList
      sp := m₁.sp + c.saved.size } := by
    rw [pushAll_room (by rw [hlen]; exact hfit), hlen]
  refine ⟨{ m₁ with
    stack := Cells.write m₁.stack m₁.sp c.saved.toList
    sp := m₁.sp + c.saved.size
    bp := m₁.sp
    ip
    env := c.env
    cont := c.prev }, ?_, ⟨?_, ?_, rfl, ?_, hgrown, hsize⟩, ?_⟩
  · rw [Machine.resume, query_bind_ok hc, hr]
    simp only
    rw [bind_ok hm₁]
    simp only [modify_bind_apply]
    rw [bind_ok hall]
    rfl
  · rw [hrest]
  · simpa [Machine.capacity] using hcap
  · exact Cells.extract_write hfit
  · obtain ⟨henv, hprev⟩ := hm.linked.continuations c (Heap.mem_of_continuation hc)
    refine .of_closed ?_ (henv.mono hgrown) (hprev.mono hgrown) hlinked
    simpa [Machine.capacity] using hfit

theorem Arranged.resume_overflow (hm : Arranged segs m) {k : Ref .continuation} {c : Continuation}
    {ip : Nat} (hk : m.cont = .onHeap k) (hc : m.heap.continuation k = .ok c)
    (hr : c.resume = .code ip) (hroom : m.capacity < m.sp - m.bp + c.saved.size) :
    ∃ m', Machine.resume k m = .error (.fault .stackOverflow) m' ∧ Reclaimed segs m m' := by
  rw [← sp_sub_kept hk] at hroom
  obtain ⟨m', hm', hrec⟩ := hm.makeRoom_overflow (f := .stackOverflow) hroom
  refine ⟨m', ?_, hrec⟩
  rw [Machine.resume, query_bind_ok hc, hr]
  simp only
  rw [bind_error hm']

/-! ## Returning through the stack -/

theorem Arranged.resolve (hm : Arranged segs m) {sub : List Segment} {env : Env} (hs : sub ⊆ segs)
    (he : EnvIn m.heap sub env) :
    ∃ new, m.resolve env = .ok new ∧ EnvIn m.heap sub new := by
  cases env with
  | empty => exact ⟨_, rfl, he⟩
  | onHeap => exact ⟨_, rfl, he⟩
  | onStack e =>
    obtain ⟨start, count, id, rest, rfl, -, -, ⟨q, hq, hlt⟩ | ⟨parent, hf, -⟩⟩ :=
      hm.frameIn (he.mono (.refl _) hs)
    · refine ⟨.onHeap ⟨q⟩, ?_, .closed hlt⟩
      rw [Machine.resolve, descriptor_moved hq]
      rfl
    · refine ⟨.onStack (start + count), ?_, he⟩
      rw [Machine.resolve, hf.descriptor]
      rfl

theorem Arranged.returned (hm : Arranged segs m) {start count id : Nat} {rest : List Segment}
    {p : ReturnPoint} {env : Env} (hs : .point start count id :: rest <:+ segs)
    (hp : PointIn m.heap m.stack rest start count p) (he : EnvIn m.heap rest env) :
    Arranged rest (m.returned (start + count + 4) p env) := by
  obtain ⟨htop, -, hstacked⟩ := hm.stacked.at_suffix hs
  rw [Segment.top_point] at htop
  have hroom := hm.room
  refine ⟨?_, ?_, he, hp.prev, hm.linked⟩
  · simp only [Machine.returned, capacity, Cells.size_clear] at hroom ⊢
    omega
  · refine (hstacked.mono (Nat.le_add_right start count)).congr_below (fun i hi => ?_) (.refl _)
    exact Cells.getElem?_clear_lt (by omega)

theorem Arranged.ret_point (hm : Arranged segs m) {c : Nat} (hc : m.cont = .onStack c) :
    ∃ start count id rest p env, c = start + count + 4 ∧ .point start count id :: rest <:+ segs ∧
      PointIn m.heap m.stack rest start count p ∧ m.resolve p.env = .ok env ∧
      Machine.ret m = .ok () (m.returned c p env) ∧ Arranged rest (m.returned c p env) := by
  obtain ⟨start, count, id, rest, p, rfl, hs, hsp, hret, hp⟩ := hm.pointIn (hc ▸ hm.cont)
  obtain ⟨env, hres, henv⟩ := hm.resolve (suffix_of_cons_suffix hs).subset hp.env
  exact ⟨start, count, id, rest, p, env, rfl, hs, hp, hres, ret_of_point hc hret hres hsp hm.room,
    hm.returned hs hp henv⟩

/-! ## Capturing -/

/-- Capturing copies the current continuation, and the copy becomes current. If nothing is left to
do, the copy halts. -/
theorem Arranged.capture (hm : Arranged segs m) :
    ∃ k w target, Machine.capture m = .ok k { w with cont := .onHeap k } ∧
      Moved segs target m w ∧ SameRegisters m w ∧ Arranged segs { w with cont := .onHeap k } ∧
      (Copied w m.cont (.onHeap k) ∧ Copies m w m.cont ∨
        m.cont = .empty ∧ w.heap.continuation k = .ok .halting ∧
          w.heap.continuations = m.heap.continuations.push .halting) := by
  obtain ⟨new, w, target, hw, hmoved, hregs, harr, hnew, hcopied, hcopies⟩ := hm.promoteCont hm.cont
  cases new with
  | onStack => exact hnew.elim
  | onHeap k =>
    refine ⟨k, w, target, ?_, hmoved, hregs, { harr with cont := .closed hnew },
      .inl ⟨hcopied, hcopies⟩⟩
    simp only [Machine.capture, get_bind_apply]
    rw [bind_ok hw]
    rfl
  | empty =>
    have hcont : m.cont = .empty := by
      generalize m.cont = cont at hcopied
      cases hcopied
      rfl
    obtain rfl : w = m := by
      have hdone := (promoteCont_eq .empty).trans
        (promotePoints_done (by cases m.capacity <;> rfl : m.returnPoints m.capacity .empty = _))
      rw [hcont, hdone] at hw
      cases hw
      rfl
    have hpush := Moved.continuation segs w .halting
    have harr' := hpush.arranged rfl harr (harr.linked.pushContinuation trivial trivial)
    refine ⟨⟨w.heap.continuations.size⟩, _, _, ?_, hmoved.trans hpush hm harr, hregs.trans rfl,
      { harr' with cont := .closed ?_ }, .inr ⟨hcont, ?_, rfl⟩⟩
    · simp only [Machine.capture, get_bind_apply]
      rw [bind_ok hw]
      rfl
    · simp [Cont.ClosedIn]
    · simp [Heap.continuation, present]

end LispMachine
