import LispMachine.Proofs.Arrangement.Unwinding
import LispMachine.Proofs.Arrangement.Writes

/-! # Each frame is one vector of slots

Frames move to the heap while handles of them are kept in registers, in descriptors, in return
points, in continuations and in closures. Through all of these a frame stays one mutable vector:
what is written on one way is read on every other way to the frame, and nothing else changes.
-/

namespace LispMachine

open Machine

/-- Operations that move frames or come between such moves. -/
inductive FrameOp
  | write (depth index : Nat) (v : Value)
  | promote
  | reclaim
  | capture
  | call (offset : Int)
  | ret

structure Write where
  path : Path
  index : Nat
  value : Value

/-- There is nothing to return to. -/
def Machine.atEnd (m : Machine) : Bool :=
  match m.cont with
  | .empty => true
  | .onStack _ => false
  | .onHeap k =>
    match m.heap.continuation k with
    | .ok c => c.resume = .halt
    | .error _ => true

namespace FrameOp

def exec : FrameOp → Exec Unit
  | write depth index v => writeSlot depth index v
  | promote => do let _ ← promoteCurrent
  | reclaim => Machine.reclaim
  | capture => do let _ ← Machine.capture
  | call offset => pushReturnPoint offset
  | ret => Machine.ret

def succeeds (op : FrameOp) (m : Machine) : Bool :=
  match op.exec m with
  | .ok .. => true
  | .error .. => false

def after (op : FrameOp) (m : Machine) : Machine :=
  match op.exec m with
  | .ok _ m' | .error _ m' => m'

def shift (op : FrameOp) (m : Machine) : Shift :=
  match op with
  | call _ => if op.succeeds m then .push else .stay
  | ret => if op.succeeds m && !m.atEnd then .pop else .stay
  | _ => .stay

/-- The way that led before the operation to the frame to which a way leads after it. -/
def before (op : FrameOp) (m : Machine) : Path → Path :=
  Path.before (op.shift m) m.heap.continuations.size (op.after m).heap.continuations.size

def writes (op : FrameOp) (m : Machine) : List Write :=
  match op with
  | write depth index v => if op.succeeds m then [⟨.out depth, index, v⟩] else []
  | _ => []

/-! ## Sequences of operations -/

def afterAll : List FrameOp → Machine → Machine
  | [], m => m
  | op :: ops, m => afterAll ops (op.after m)

def beforeAll : List FrameOp → Machine → Path → Path
  | [], _, p => p
  | op :: ops, m, p => op.before m (beforeAll ops (op.after m) p)

/-- All that was written, each on the way that led there before the first operation. -/
def allWrites : List FrameOp → Machine → List Write
  | [], _ => []
  | op :: ops, m =>
    op.writes m ++ (allWrites ops (op.after m)).map fun w => { w with path := op.before m w.path }

end FrameOp

def Machine.slotAfter (m : Machine) (writes : List Write) (p : Path) (index : Nat) : Option Value :=
  writes.foldl (fun x w => if w.index = index ∧ m.SameFrame w.path p then some w.value else x)
    (m.slotAt p index)

/-- The stack is as building frames and leaving return points leaves it. -/
structure WellLaid (segs : List Segment) (m : Machine) : Prop extends Arranged segs m where
  bp_le : m.bp ≤ m.sp
  frames_le : ∀ start count id, .frame start count id ∈ segs → start + count + 3 ≤ m.bp

theorem WellLaid.of_arranged {segs : List Segment} {m m' : Machine} (hm : WellLaid segs m)
    (h : Arranged segs m') (hsp : m'.sp = m.sp) (hbp : m'.bp = m.bp) : WellLaid segs m' where
  toArranged := h
  bp_le := by
    rw [hbp, hsp]
    exact hm.bp_le
  frames_le start count id hmem := by
    rw [hbp]
    exact hm.frames_le start count id hmem

theorem WellLaid.of_nil {m : Machine} (h : Arranged [] m) (hbp : m.bp ≤ m.sp) : WellLaid [] m where
  toArranged := h
  bp_le := hbp
  frames_le _ _ _ h := by cases h

/-- The operation leaves the stack well laid out and each frame one vector. -/
structure FrameOp.Sound (op : FrameOp) (m : Machine) : Prop where
  laid : ∃ segs, WellLaid segs (op.after m)
  same : ∀ p q, (op.after m).SameFrame p q ↔ m.SameFrame (op.before m p) (op.before m q)
  slots : ∀ p index, (op.after m).slotAt p index = m.slotAfter (op.writes m) (op.before m p) index

variable {segs : List Segment} {m m' : Machine}

theorem Kept.sound {op : FrameOp} {w : Machine} (h : Kept (Path.before (op.shift m)
    m.heap.continuations.size w.heap.continuations.size) m w) (hafter : op.after m = w)
    (hw : op.writes m = []) (hlaid : ∃ segs, WellLaid segs w) : op.Sound m := by
  subst hafter
  refine ⟨hlaid, h.same, fun p index => ?_⟩
  rw [hw]
  exact h.slots p index

/-! ## One operation -/

theorem Kept.refl (hm : Arranged segs m) (hs : m'.stack = m.stack) (hsp : m'.sp = m.sp)
    (hh : m'.heap = m.heap) (he : m'.env = m.env) (hc : m'.cont = m.cont) :
    Kept (Path.before .stay m.heap.continuations.size m'.heap.continuations.size) m m' := by
  have hmoved : Moved segs (fun _ => none) m m' := by
    have := Moved.refl segs m
    exact
      { this with
        size := by rw [hs]
        heap := hh ▸ .refl _
        stays := fun i _ => by rw [hs]
        gone := fun _ _ h => by cases h
        source := fun _ _ h => by cases h }
  refine (hmoved.carries hsp hm).kept ⟨⟨hm.env, by rw [he]⟩, .inl ⟨hm.cont, .inl hc⟩⟩ ?_
  intro k hlo hhi
  rw [hh] at hhi
  omega

theorem WellLaid.promote (hm : WellLaid segs m) : FrameOp.promote.Sound m := by
  obtain ⟨new, w, target, hw, hmoved, hregs, harr, hnew, hres, hsame⟩ := hm.promoteEnv hm.env
  have hexec : FrameOp.promote.exec m = .ok () { w with env := new } := by
    simp only [FrameOp.exec, promoteCurrent, bind_assoc, get_bind_apply]
    rw [bind_ok hw]
    rfl
  have hcarries : Carries _ _ m { w with env := new } :=
    Moved.carries (show Moved segs target m _ from { hmoved with }) hregs.sp hm.toArranged
  refine Kept.sound (hcarries.kept (s := .stay)
    ⟨⟨hm.env, (resolve_idem hres).trans hres.symm⟩, .inl ⟨hm.cont, .inl hregs.cont⟩⟩ ?_)
    (by rw [FrameOp.after, hexec]) rfl ⟨segs, ?_⟩
  · intro k hlo hhi
    change k < w.heap.continuations.size at hhi
    rw [hsame] at hhi
    omega
  · exact hm.of_arranged { harr with env := .closed hnew } hregs.sp hregs.bp

/-- A collection keeps the ways: the frames and continuations that were on the stack are found on
the heap, and there the stack does not matter. -/
theorem Reclaimed.kept (h : Reclaimed segs m m') (hm : Arranged segs m) :
    Kept (Path.before .stay m.heap.continuations.size m'.heap.continuations.size) m m' := by
  obtain ⟨w, target, hmoved, hsp, hcol, harr⟩ := h
  have hheap := hcol.heap
  have hlinked : w.heap.Linked := hheap ▸ harr.linked
  have henv : m'.env.ClosedIn w.heap := hheap ▸ harr.env.closed_of_nil
  have hcont : m'.cont.ClosedIn w.heap := hheap ▸ harr.cont.closed_of_nil
  have hcarries : Carries _ _ m { w with env := m'.env, cont := m'.cont } :=
    Moved.carries (show Moved segs target m _ from { hmoved with }) hsp hm
  have hcopied {x y : Cont} (h : Copied w x y) :
      Copied { w with env := m'.env, cont := m'.cont } x y :=
    h.of_same rfl rfl rfl
  have hkept := hcarries.kept (s := .stay)
    ⟨⟨hm.env, (henv.resolve _).trans hcol.env.symm⟩, .inl ⟨hm.cont, .inr (hcopied hcol.cont)⟩⟩ (by
      intro k hlo hhi
      change k < w.heap.continuations.size at hhi
      refine .inl ⟨hm.contAfter hm.cont _, .inr (hcopied ?_)⟩
      have := hcol.copies (w.heap.continuations.size - 1 - k) (by omega)
      rwa [show w.heap.continuations.size - 1 - (w.heap.continuations.size - 1 - k) = k by omega]
        at this)
  have hslide : Carries _ _ { w with env := m'.env, cont := m'.cont } m' :=
    Heap.Linked.carries hlinked (by rw [hheap]; exact .refl _)
  have hkept' := hslide.kept (s := .stay) ⟨⟨rfl, henv⟩, rfl, hcont⟩ (by
    intro k hlo hhi
    change w.heap.continuations.size ≤ k at hlo
    rw [hheap] at hhi
    omega)
  rw [hheap] at hkept' ⊢
  exact hkept.before_stay hkept'

theorem Reclaimed.wellLaid (h : Reclaimed segs m m') (hbp : m.bp ≤ m.sp) : WellLaid [] m' := by
  obtain ⟨w, target, hmoved, hsp, hcol, harr⟩ := h
  refine .of_nil harr ?_
  rw [hcol.bp hbp, hcol.sp]
  omega

theorem WellLaid.reclaim (hm : WellLaid segs m) : FrameOp.reclaim.Sound m := by
  obtain ⟨m', hm', hrec⟩ := hm.toArranged.reclaim
  exact Kept.sound (hrec.kept hm.toArranged) (by rw [FrameOp.after, FrameOp.exec, hm']) rfl
    ⟨[], hrec.wellLaid hm.bp_le⟩

theorem WellLaid.capture (hm : WellLaid segs m) : FrameOp.capture.Sound m := by
  obtain ⟨k, w, target, hk, hmoved, hregs, harr, hcases⟩ := hm.toArranged.capture
  have hexec : FrameOp.capture.exec m = .ok () { w with cont := .onHeap k } := by
    rw [FrameOp.exec, bind_ok hk]
    rfl
  have hcarries : Carries _ _ m { w with cont := .onHeap k } :=
    Moved.carries (show Moved segs target m _ from { hmoved with }) hregs.sp hm.toArranged
  have hcopied {x y : Cont} (h : Copied w x y) : Copied { w with cont := .onHeap k } x y :=
    h.of_same rfl rfl rfl
  have hcont : SameOrCopied segs m { w with cont := .onHeap k } m.cont (.onHeap k) ∧
      ∀ k', m.heap.continuations.size ≤ k' → k' < w.heap.continuations.size →
        SameOrCopied segs m { w with cont := .onHeap k }
          (m.contAfter m.cont (w.heap.continuations.size - 1 - k')) (.onHeap ⟨k'⟩) := by
    rcases hcases with ⟨hcop, hcopies⟩ | ⟨hempty, hhalt, hpush⟩
    · refine ⟨.inl ⟨hm.cont, .inr (hcopied hcop)⟩, fun k' hlo hhi => ?_⟩
      refine .inl ⟨hm.contAfter hm.cont _, .inr (hcopied ?_)⟩
      have := hcopies (w.heap.continuations.size - 1 - k') (by omega)
      rwa [show w.heap.continuations.size - 1 - (w.heap.continuations.size - 1 - k') = k' by omega]
        at this
    · have hhalts {k' : Ref .continuation} (h : w.heap.continuation k' = .ok .halting) :
          SameOrCopied segs m { w with cont := .onHeap k } .empty (.onHeap k') :=
        .inr ⟨rfl, caller_object (m := { w with cont := .onHeap k }) h⟩
      have hsize : w.heap.continuations.size = m.heap.continuations.size + 1 := by
        rw [hpush, Array.size_push]
      rw [hempty]
      refine ⟨hhalts hhalt, fun k' hlo hhi => ?_⟩
      obtain rfl : k' = m.heap.continuations.size := by omega
      rw [hsize, Nat.add_sub_cancel, Nat.sub_self]
      refine hhalts ?_
      rw [Heap.continuation, hpush, Array.getElem?_push_size]
      rfl
  refine Kept.sound (hcarries.kept (s := .stay) ⟨⟨hm.env, ?_⟩, hcont.1⟩ hcont.2)
    (by rw [FrameOp.after, hexec]) rfl ⟨segs, ?_⟩
  · change w.resolve w.env = w.resolve m.env
    rw [hregs.env]
  · exact hm.of_arranged harr hregs.sp hregs.bp

/-! ## Leaving and taking return points -/

/-- A new return point is a segment together with the values right below it. -/
theorem WellLaid.called_above {lo n : Nat} (hm : WellLaid segs { m with sp := lo })
    (hsp : m.sp = lo + n) (hroom : m.sp + 4 ≤ m.capacity) (target : Nat) :
    PointCells (m.called target).stack lo n ⟨target, m.bp, m.env, m.cont⟩ ∧
      WellLaid (.point lo n 0 :: segs) (m.called target) := by
  have hbp : m.bp ≤ lo := hm.bp_le
  have hpoint := pointCells_called hsp hbp hroom target
  have hcont : ContIn m.heap (.point lo n 0 :: segs) (.onStack (m.sp + 4)) := by
    rw [hsp]
    exact .onStack List.mem_cons_self
  have hstacked : Stacked (SegmentIn m.heap (m.called target).stack) lo segs := by
    refine hm.stacked.congr_below (fun i hi => getElem?_called ?_ target) (.refl _)
    rw [hsp]
    exact Nat.lt_add_right n hi
  refine ⟨hpoint, ?_⟩
  exact
    { room := hroom.trans_eq (m.size_called target).symm
      stacked := by
        refine ⟨?_, ⟨_, { hpoint with frames_le := hm.frames_le, env := hm.env, prev := hm.cont }⟩,
          hstacked⟩
        change lo + n + 4 ≤ m.sp + 4
        omega
      env := hm.env.mono (.refl _) (List.subset_cons_self ..)
      cont := hcont
      linked := hm.linked
      bp_le := by
        change m.bp ≤ m.sp + 4
        omega
      frames_le := fun start count id hmem => by
        rcases List.mem_cons.1 hmem with heq | hmem
        · cases heq
        · exact hm.frames_le start count id hmem }

/-- A new return point is a segment of its own, above all that is in use. -/
theorem WellLaid.called (hm : WellLaid segs m) (hroom : m.sp + 4 ≤ m.capacity) (target : Nat) :
    WellLaid (.point m.sp 0 0 :: segs) (m.called target) ∧
      Kept (Path.before .push m.heap.continuations.size
        (m.called target).heap.continuations.size) m (m.called target) := by
  obtain ⟨hpoint, hlaid⟩ := hm.called_above (n := 0) rfl hroom target
  refine ⟨hlaid, ?_⟩
  have hsame : SameSegments segs m (m.called target) :=
    hm.sameSegments (Nat.le_add_right ..) (m.size_called target)
      (fun i hi => getElem?_called hi target) rfl
  have hcaller : (m.called target).caller (m.called target).cont = (m.env, m.cont) :=
    caller_point (m := m.called target) (hpoint.returnPoint le_rfl)
  refine (hsame.carries hm.linked).kept ⟨⟨rfl, hm.env⟩, ?_⟩ fun k hlo hhi => ?_
  · rw [hcaller]
    exact ⟨⟨rfl, hm.env⟩, rfl, hm.cont⟩
  · change k < m.heap.continuations.size at hhi
    omega

theorem WellLaid.call (hm : WellLaid segs m) (offset : Int) : (FrameOp.call offset).Sound m := by
  -- nothing has happened, or a collection has, and there is no new return point
  have hfail {e : Stop} {w : Machine} (herr : pushReturnPoint offset m = .error e w)
      (h : w = m ∨ Reclaimed segs m w) : (FrameOp.call offset).Sound m := by
    have hshift : (FrameOp.call offset).shift m = .stay := by
      simp [FrameOp.shift, FrameOp.succeeds, FrameOp.exec, herr]
    refine Kept.sound (w := w) ?_ (by rw [FrameOp.after, FrameOp.exec, herr]) rfl ?_
    · rw [hshift]
      rcases h with rfl | h
      · exact .refl hm.toArranged rfl rfl rfl rfl rfl
      · exact h.kept hm.toArranged
    · rcases h with rfl | h
      · exact ⟨segs, hm⟩
      · exact ⟨[], h.wellLaid hm.bp_le⟩
  cases ht : m.relative offset with
  | error e => exact hfail (w := m) (query_bind_error ht) (.inl rfl)
  | ok target =>
    by_cases hroom : m.sp - m.kept + 4 ≤ m.capacity
    · obtain ⟨m₁, hm₁, hfit, hcases⟩ := hm.toArranged.makeRoom (f := .continuationOverflow) hroom
      have hexec : pushReturnPoint offset m = .ok () (m₁.called target) := by
        rw [Machine.pushReturnPoint, query_bind_ok ht, bind_ok hm₁, pushReturnCells hfit]
      have hshift : (FrameOp.call offset).shift m = .push := by
        simp [FrameOp.shift, FrameOp.succeeds, FrameOp.exec, hexec]
      have hafter : (FrameOp.call offset).after m = m₁.called target := by
        rw [FrameOp.after, FrameOp.exec, hexec]
      rcases hcases with rfl | hrec
      · obtain ⟨hlaid, hkept⟩ := hm.called hfit target
        exact Kept.sound (hshift ▸ hkept) hafter rfl ⟨_, hlaid⟩
      · obtain ⟨hlaid, hkept⟩ := (hrec.wellLaid hm.bp_le).called hfit target
        refine Kept.sound ?_ hafter rfl ⟨_, hlaid⟩
        rw [hshift]
        exact (hrec.kept hm.toArranged).before_stay hkept
    · obtain ⟨m', hm', hrec⟩ :=
        hm.toArranged.makeRoom_overflow (f := .continuationOverflow) (Nat.not_le.1 hroom)
      refine hfail (w := m') (e := .fault .continuationOverflow) ?_ (.inr hrec)
      rw [Machine.pushReturnPoint, query_bind_ok ht, bind_error hm']

theorem WellLaid.returned (hm : WellLaid segs m) {c : Nat} (hc : m.cont = .onStack c) :
    ∃ m' rest, Machine.ret m = .ok () m' ∧ WellLaid rest m' ∧
      Kept (Path.before .pop m.heap.continuations.size m'.heap.continuations.size) m m' := by
  obtain ⟨start, count, id, rest, p, env, rfl, hs, hp, hres, hret, harr⟩ := hm.ret_point hc
  obtain ⟨htop, -, -⟩ := hm.stacked.at_suffix hs
  rw [Segment.top_point] at htop
  have hbelow : SameSegments rest (m.returned (start + count + 4) p env) m := by
    refine harr.sameSegments ?_ (by simp [Machine.returned]) (fun i hi => ?_) rfl
    · change start + count ≤ m.sp
      omega
    · exact (Cells.getElem?_clear_lt hi).symm
  have hcaller : m.caller m.cont = (p.env, p.prev) := by
    rw [hc, caller_point (hp.returnPoint htop)]
  refine ⟨_, rest, hret, { harr with bp_le := ?_, frames_le := hp.frames_le }, ?_⟩
  · exact hp.bp_le.trans (Nat.le_add_right ..)
  refine (hbelow.symm.carries hm.linked).kept (s := .pop) ?_ fun k hlo hhi => ?_
  · rw [Shifted, hcaller]
    exact ⟨⟨hres.trans (resolve_idem hres).symm, harr.env⟩, rfl, hp.prev⟩
  · change k < m.heap.continuations.size at hhi
    omega

theorem WellLaid.popped (hm : WellLaid segs m) {k : Ref .continuation} {c : Continuation}
    (hk : m.cont = .onHeap k) (hc : m.heap.continuation k = .ok c) (hg : m.heap.Grown m'.heap)
    (hsize : m'.heap.continuations.size = m.heap.continuations.size) (he : m'.env = c.env)
    (hp : m'.cont = c.prev) :
    Kept (Path.before .pop m.heap.continuations.size m'.heap.continuations.size) m m' := by
  obtain ⟨henv, hprev⟩ := hm.linked.continuations c (Heap.mem_of_continuation hc)
  refine (hm.linked.carries hg).kept (s := .pop) ?_ fun k hlo hhi => ?_
  · rw [Shifted, hk, caller_object hc]
    exact ⟨⟨he.symm, henv⟩, hp.symm, hprev⟩
  · omega

theorem WellLaid.ret (hm : WellLaid segs m) : FrameOp.ret.Sound m := by
  have hpop (hend : m.atEnd = false) {m' : Machine} {s : List Segment}
      (hret : Machine.ret m = .ok () m')
      (hlaid : WellLaid s m') (hkept : Kept (Path.before .pop m.heap.continuations.size
        m'.heap.continuations.size) m m') : FrameOp.ret.Sound m := by
    refine Kept.sound (w := m') ?_ (by rw [FrameOp.after, FrameOp.exec, hret]) rfl ⟨s, hlaid⟩
    rwa [show FrameOp.ret.shift m = .pop by
      simp [FrameOp.shift, FrameOp.succeeds, FrameOp.exec, hret, hend]]
  have hhalt (hend : m.atEnd = true) (hret : Machine.ret m = .ok () { m with runnable := false }) :
      FrameOp.ret.Sound m := by
    refine Kept.sound (w := { m with runnable := false }) ?_
      (by rw [FrameOp.after, FrameOp.exec, hret]) rfl ⟨segs, { hm with }⟩
    rw [show FrameOp.ret.shift m = .stay by simp [FrameOp.shift, hend]]
    exact .refl hm.toArranged rfl rfl rfl rfl rfl
  cases hcont : m.cont with
  | empty => exact hhalt (by rw [atEnd, hcont]) (ret_of_empty hcont)
  | onStack c =>
    obtain ⟨m', rest, hret, hlaid, hkept⟩ := hm.returned hcont
    exact hpop (by rw [atEnd, hcont]) hret hlaid hkept
  | onHeap k =>
    have hclosed : (Cont.onHeap k).ClosedIn m.heap := by
      have := hm.cont
      rw [hcont] at this
      cases this
      assumption
    obtain ⟨c, hc⟩ := hclosed.exists_continuation
    obtain ⟨henv, hprev⟩ := hm.linked.continuations c (Heap.mem_of_continuation hc)
    have hend : m.atEnd = decide (c.resume = .halt) := by
      simp only [atEnd, hcont, hc]
    have hret := ret_of_onHeap hcont
    cases hr : c.resume with
    | halt => exact hhalt (by rw [hend, hr]; rfl) (hret.trans (resume_halt hc hr))
    | host id =>
      rw [resume_host hc hr] at hret
      by_cases hid : id ∈ m.hosts.active
      · rw [if_pos hid] at hret
        refine hpop (by rw [hend, hr]; rfl) hret (s := []) ?_
          (hm.popped hcont hc (.refl _) rfl rfl rfl)
        exact .of_nil (.of_closed hm.room henv hprev hm.linked) hm.bp_le
      · rw [if_neg hid] at hret
        refine Kept.sound (w := m) ?_ (by rw [FrameOp.after, FrameOp.exec, hret]) rfl ⟨segs, hm⟩
        rw [show FrameOp.ret.shift m = .stay by
          simp [FrameOp.shift, FrameOp.succeeds, FrameOp.exec, hret]]
        exact .refl hm.toArranged rfl rfl rfl rfl rfl
    | code ip =>
      by_cases hroom : m.sp - m.bp + c.saved.size ≤ m.capacity
      · obtain ⟨m', hm', hres, harr⟩ := hm.resume hcont hc hr hroom
        refine hpop (by rw [hend, hr]; rfl) (hret.trans hm') (s := []) ?_
          (hm.popped hcont hc hres.heap hres.size (by rw [hres.rest]) (by rw [hres.rest]))
        exact .of_nil harr (hres.sp ▸ Nat.le_add_right ..)
      · obtain ⟨m', hm', hrec⟩ := hm.resume_overflow hcont hc hr (Nat.not_le.1 hroom)
        refine Kept.sound (w := m') ?_ (by rw [FrameOp.after, FrameOp.exec, hret, hm']) rfl
          ⟨[], hrec.wellLaid hm.bp_le⟩
        rw [show FrameOp.ret.shift m = .stay by
          simp [FrameOp.shift, FrameOp.succeeds, FrameOp.exec, hret, hm']]
        exact hrec.kept hm.toArranged

/-! ## Writing -/

theorem Arranged.envAt (hm : Arranged segs m) (p : Path) : EnvIn m.heap segs (m.envAt p) := by
  induction p with
  | current => exact hm.env
  | pending n => exact (hm.caller (hm.contAfter hm.cont n)).1
  | closure c =>
    rw [Machine.envAt, Heap.closure]
    cases hc : m.heap.closures[c.index]? with
    | none => exact .closed trivial
    | some c' => exact .closed (hm.linked.closures c' (Array.mem_of_getElem? hc))
  | continuation k =>
    rw [Machine.envAt, Machine.caller, Heap.continuation]
    cases hk : m.heap.continuations[k.index]? with
    | none => exact .closed trivial
    | some c => exact .closed (hm.linked.continuations c (Array.mem_of_getElem? hk)).1
  | outward p ih =>
    rw [Machine.envAt, around]
    rcases hm.frame? ih with h | ⟨f, hf, hp⟩
    · rw [h]
      exact .closed trivial
    · rw [hf]
      exact hp

namespace Overwritten

variable {home : Env} {index : Nat} {v : Value}

theorem contAfter (h : Overwritten segs home index v m m') (hm : Arranged segs m) {cont : Cont}
    (hc : ContIn m.heap segs cont) (n : Nat) : m'.contAfter cont n = m.contAfter cont n := by
  induction n generalizing cont with
  | zero => rfl
  | succ n ih =>
    rw [Machine.contAfter, Machine.contAfter, h.callers cont hc]
    exact ih (hm.caller hc).2

theorem envAt (h : Overwritten segs home index v m m') (hm : Arranged segs m) (p : Path) :
    m'.envAt p = m.envAt p := by
  have henv : m'.env = m.env := by rw [h.rest]
  have hcont : m'.cont = m.cont := by rw [h.rest]
  induction p with
  | current => exact henv
  | pending n =>
    rw [Machine.envAt, Machine.envAt, hcont, h.contAfter hm hm.cont,
      h.callers _ (hm.contAfter hm.cont n)]
  | closure c => rw [Machine.envAt, Machine.envAt, Heap.closure, Heap.closure, h.closures]
  | continuation k =>
    rw [Machine.envAt, Machine.envAt, Machine.caller, Machine.caller, Heap.continuation,
      Heap.continuation, h.continuations]
  | outward p ih =>
    rw [Machine.envAt, Machine.envAt, ih, around, around, h.frames _ (hm.envAt p)]
    cases m.frame? (m.envAt p) with
    | none => rfl
    | some f => by_cases hp : m.home? (m.envAt p) = some home <;> simp [hp]

theorem sameFrame (h : Overwritten segs home index v m m') (hm : Arranged segs m) (p q : Path) :
    m'.SameFrame p q ↔ m.SameFrame p q := by
  have hhome (p : Path) : m'.home? (m'.envAt p) = m.home? (m.envAt p) := by
    rw [h.envAt hm, home?, home?, h.resolve _ (hm.envAt p)]
  rw [SameFrame, SameFrame, hhome, hhome]

theorem slotAt (h : Overwritten segs home index v m m') (hm : Arranged segs m) {target : Path}
    (ht : m.home? (m.envAt target) = some home)
    (hlt : ∀ f, m.frame? (m.envAt target) = some f → index < f.slots.size) (p : Path) (i : Nat) :
    m'.slotAt p i = if index = i ∧ m.SameFrame target p then some v else m.slotAt p i := by
  have hsame : m.SameFrame target p ↔ m.home? (m.envAt p) = some home := by
    rw [SameFrame, ht]
    exact ⟨fun h => h.1.symm, fun h => ⟨h.symm, by simp⟩⟩
  rw [Machine.slotAt, h.envAt hm, h.frames _ (hm.envAt p), Machine.slotAt]
  by_cases hp : m.home? (m.envAt p) = some home
  · -- the frame is the one that was written to, so the index is one of its slots
    have hframe : m.frame? (m.envAt p) = m.frame? (m.envAt target) := by
      refine frame?_congr ?_
      have hres {env : Env} (h : m.home? env = some home) : m.resolve env = .ok home := by
        rw [home?] at h
        split at h <;> simp_all
      rw [hres hp, hres ht]
    rw [hframe]
    cases hf : m.frame? (m.envAt target) with
    | none =>
      rcases hm.frame? (hm.envAt target) with he | ⟨f, hf', -⟩
      · rw [he] at ht
        cases ht
      · rw [hf'] at hf
        cases hf
    | some f =>
      have hlt := hlt f hf
      simp only [Option.map_some, hsame, hp, hlt, if_true, and_true, Option.bind_eq_bind,
        Option.bind_some, Array.getElem?_setIfInBounds]
  · rw [if_neg (fun h => hp (hsame.1 h.2))]
    cases m.frame? (m.envAt p) with
    | none => rfl
    | some f => simp only [Option.map_some, if_neg hp]

end Overwritten

theorem WellLaid.write (hm : WellLaid segs m) (depth index : Nat) (v : Value) :
    (FrameOp.write depth index v).Sound m := by
  have hwritten {home : Env} {m' : Machine} (hexec : writeSlot depth index v m = .ok () m')
      (h : Overwritten segs home index v m m') (ht : m.home? (m.envAt (.out depth)) = some home)
      (hlt : ∀ f, m.frame? (m.envAt (.out depth)) = some f → index < f.slots.size) :
      (FrameOp.write depth index v).Sound m := by
    have hafter : (FrameOp.write depth index v).after m = m' := by
      rw [FrameOp.after, FrameOp.exec, hexec]
    have hwrites : (FrameOp.write depth index v).writes m = [⟨.out depth, index, v⟩] := by
      simp [FrameOp.writes, FrameOp.succeeds, FrameOp.exec, hexec]
    have hbefore (p : Path) : (FrameOp.write depth index v).before m p = p := by
      rw [FrameOp.before, hafter, h.continuations]
      exact p.before_stay_self
    refine ⟨⟨segs, ?_⟩, fun p q => ?_, fun p i => ?_⟩
    · rw [hafter]
      exact hm.of_arranged h.arranged (by rw [h.rest]) (by rw [h.rest])
    · rw [hafter, hbefore, hbefore]
      exact h.sameFrame hm.toArranged p q
    · rw [hafter, hbefore, hwrites]
      exact h.slotAt hm.toArranged ht hlt p i
  have hin := hm.envAt (.out depth)
  rcases writeSlot_cases m depth index v with ⟨start, count, parent, hi, hlt, hexec⟩ |
    ⟨r, parent, f, hi, hf, hlt, hexec⟩ | ⟨e, herr⟩
  · obtain ⟨id, rest, he, hs, hcells⟩ := hm.frameCells_of_innermost hin hi
    refine hwritten hexec (hm.setCell hs hcells hlt) ?_ fun f hf => ?_
    · rw [he, home?, Machine.resolve, hcells.descriptor]
      rfl
    · rw [he, frame?_live hcells] at hf
      cases hf
      have := (Array.getElem?_eq_some_iff.1 hcells.start_cell).1
      simp only [Array.size_extract]
      omega
  · refine hwritten hexec (hm.withSlot r index v) ?_ fun g hg => ?_
    · exact home?_of_innermost hi
    · rw [frame?, hi] at hg
      cases hf.symm.trans hg
      exact hlt
  · refine Kept.sound (w := m) ?_ (by rw [FrameOp.after, FrameOp.exec, herr]) ?_ ⟨segs, hm⟩
    · exact .refl hm.toArranged rfl rfl rfl rfl rfl
    · simp [FrameOp.writes, FrameOp.succeeds, FrameOp.exec, herr]

/-! ## Any number of operations -/

theorem WellLaid.sound (hm : WellLaid segs m) (op : FrameOp) : op.Sound m := by
  cases op with
  | write depth index v => exact hm.write depth index v
  | promote => exact hm.promote
  | reclaim => exact hm.reclaim
  | capture => exact hm.capture
  | call offset => exact hm.call offset
  | ret => exact hm.ret

/-- Writing after an operation is writing before it, on the ways that led there then. -/
theorem FrameOp.Sound.slotAfter {op : FrameOp} (h : op.Sound m) (writes : List Write) (p : Path)
    (index : Nat) : (op.after m).slotAfter writes p index =
      m.slotAfter (op.writes m ++ writes.map fun w => { w with path := op.before m w.path })
        (op.before m p) index := by
  simp only [Machine.slotAfter, List.foldl_append, List.foldl_map, h.same, h.slots]

/-- After any number of operations the stack is still well laid out, two ways lead to one frame just
if they did before, and each slot holds what was last written to it on any way to its frame or else
what it held before. -/
theorem WellLaid.frames_shared (hm : WellLaid segs m) (ops : List FrameOp) :
    (∃ segs', WellLaid segs' (FrameOp.afterAll ops m)) ∧
    (∀ p q, (FrameOp.afterAll ops m).SameFrame p q ↔
      m.SameFrame (FrameOp.beforeAll ops m p) (FrameOp.beforeAll ops m q)) ∧
    ∀ p index, (FrameOp.afterAll ops m).slotAt p index =
      m.slotAfter (FrameOp.allWrites ops m) (FrameOp.beforeAll ops m p) index := by
  induction ops generalizing segs m with
  | nil => exact ⟨⟨segs, hm⟩, fun p q => Iff.rfl, fun p index => rfl⟩
  | cons op ops ih =>
    have hop := hm.sound op
    obtain ⟨segs', hm'⟩ := hop.laid
    obtain ⟨hlaid, hsame, hslots⟩ := ih hm'
    refine ⟨hlaid, fun p q => (hsame p q).trans (hop.same _ _), fun p index => ?_⟩
    exact (hslots p index).trans (hop.slotAfter _ _ index)

theorem Machine.insideCall_wellLaid : WellLaid [.point 5 1 0, .frame 0 2 0] insideCall where
  toArranged := insideCall_arranged
  bp_le := by decide
  frames_le start count id h := by
    simp only [List.mem_cons, Segment.frame.injEq, reduceCtorEq, List.not_mem_nil, or_false,
      false_or] at h
    change start + count + 3 ≤ 5
    omega

/-- The frame moves, is written to, and is read by the handle that the return point has kept. -/
theorem Machine.insideCall_frames_shared :
    (FrameOp.afterAll [.promote, .write 0 1 (.fixnum 8), .capture, .ret] insideCall).slotAt
      .current 1 = some (.fixnum 8) :=
  (insideCall_wellLaid.frames_shared [.promote, .write 0 1 (.fixnum 8), .capture, .ret]).2.2
    .current 1 |>.trans (by decide +kernel)

end LispMachine
