import LispMachine.Proofs.Simulation.Reading

/-! # How the stack is arranged

Building frames and leaving return points arranges the stack in segments that do not overlap. A
frame is in its cells until it moves to the heap; from then on the first cell of its descriptor says
where it has gone. Whatever a segment refers to is on the heap or in a segment below it.
-/

namespace LispMachine

open Machine

/-! ## Links between objects -/

def Env.ClosedIn (h : Heap) : Env → Prop
  | .empty => True
  | .onHeap f => f.index < h.frames.size
  | .onStack _ => False

def Cont.ClosedIn (h : Heap) : Cont → Prop
  | .empty => True
  | .onHeap k => k.index < h.continuations.size
  | .onStack _ => False

/-- The links between the objects lead to objects. -/
structure Heap.Linked (h : Heap) : Prop where
  frames : ∀ f ∈ h.frames, f.parent.ClosedIn h
  closures : ∀ c ∈ h.closures, c.env.ClosedIn h
  continuations : ∀ k ∈ h.continuations, k.env.ClosedIn h ∧ k.prev.ClosedIn h

/-- Only frames and continuations were added. -/
structure Heap.Grown (h h' : Heap) : Prop where
  frames : Extended h.frames h'.frames
  continuations : Extended h.continuations h'.continuations
  pairs : h'.pairs = h.pairs
  vectors : h'.vectors = h.vectors
  closures : h'.closures = h.closures
  procedures : h'.procedures = h.procedures

section Heaps

variable {α : Type} {xs ys zs : Array α} {h h' h'' : Heap} {env : Env} {cont : Cont}

theorem Extended.trans (hx : Extended xs ys) (hy : Extended ys zs) : Extended xs zs :=
  fun i a hi => hy i a (hx i a hi)

theorem Extended.size_le (hx : Extended xs ys) : xs.size ≤ ys.size := by
  by_contra hlt
  have hi : ys.size < xs.size := by omega
  have := hx ys.size _ (Array.getElem?_eq_getElem hi)
  simp at this

namespace Heap.Grown

theorem refl (h : Heap) : Grown h h := ⟨.refl _, .refl _, rfl, rfl, rfl, rfl⟩

theorem trans (hg : Grown h h') (hg' : Grown h' h'') : Grown h h'' where
  frames := hg.frames.trans hg'.frames
  continuations := hg.continuations.trans hg'.continuations
  pairs := hg'.pairs.trans hg.pairs
  vectors := hg'.vectors.trans hg.vectors
  closures := hg'.closures.trans hg.closures
  procedures := hg'.procedures.trans hg.procedures

theorem pushFrame (f : Frame) : Grown h { h with frames := h.frames.push f } :=
  ⟨.push _ _, .refl _, rfl, rfl, rfl, rfl⟩

theorem pushContinuation (k : Continuation) :
    Grown h { h with continuations := h.continuations.push k } :=
  ⟨.refl _, .push _ _, rfl, rfl, rfl, rfl⟩

theorem continuation (hg : Grown h h') {k : Ref .continuation} {c : Continuation}
    (hc : h.continuation k = .ok c) : h'.continuation k = .ok c := by
  unfold Heap.continuation at hc ⊢
  cases hk : h.continuations[k.index]? with
  | none =>
    rw [hk] at hc
    cases hc
  | some c' =>
    rw [hk] at hc
    rw [hg.continuations _ _ hk]
    exact hc

end Heap.Grown

theorem Env.ClosedIn.mono (he : env.ClosedIn h) (hg : h.Grown h') : env.ClosedIn h' := by
  cases env with
  | empty => trivial
  | onStack => exact he.elim
  | onHeap => exact Nat.lt_of_lt_of_le he hg.frames.size_le

theorem Cont.ClosedIn.mono (hc : cont.ClosedIn h) (hg : h.Grown h') : cont.ClosedIn h' := by
  cases cont with
  | empty => trivial
  | onStack => exact hc.elim
  | onHeap => exact Nat.lt_of_lt_of_le hc hg.continuations.size_le

theorem Env.closedIn_iff (hf : h'.frames.size = h.frames.size) :
    env.ClosedIn h' ↔ env.ClosedIn h := by
  cases env <;> simp [ClosedIn, hf]

theorem Cont.closedIn_iff (hk : h'.continuations.size = h.continuations.size) :
    cont.ClosedIn h' ↔ cont.ClosedIn h := by
  cases cont <;> simp [ClosedIn, hk]

theorem Env.ClosedIn.resolve (he : env.ClosedIn h) (m : Machine) : m.resolve env = .ok env := by
  cases env with
  | onStack => exact he.elim
  | _ => rfl

theorem Heap.Linked.pushFrame (hl : h.Linked) {f : Frame} (hf : f.parent.ClosedIn h) :
    Heap.Linked { h with frames := h.frames.push f } where
  frames g hg := by
    rcases Array.mem_push.1 hg with hg | rfl
    · exact (hl.frames g hg).mono (.pushFrame f)
    · exact hf.mono (.pushFrame _)
  closures c hc := (hl.closures c hc).mono (.pushFrame f)
  continuations k hk := (hl.continuations k hk).imp (·.mono (.pushFrame f)) (·.mono (.pushFrame f))

theorem Heap.Linked.pushContinuation (hl : h.Linked) {k : Continuation} (he : k.env.ClosedIn h)
    (hp : k.prev.ClosedIn h) :
    Heap.Linked { h with continuations := h.continuations.push k } where
  frames g hg := (hl.frames g hg).mono (.pushContinuation k)
  closures c hc := (hl.closures c hc).mono (.pushContinuation k)
  continuations k' hk' := by
    rcases Array.mem_push.1 hk' with hk' | rfl
    · exact (hl.continuations k' hk').imp (·.mono (.pushContinuation k))
        (·.mono (.pushContinuation k))
    · exact ⟨he.mono (.pushContinuation _), hp.mono (.pushContinuation _)⟩

theorem Heap.mem_of_continuation {k : Ref .continuation} {c : Continuation}
    (hc : h.continuation k = .ok c) : c ∈ h.continuations := by
  unfold Heap.continuation at hc
  cases hk : h.continuations[k.index]? with
  | none =>
    rw [hk] at hc
    cases hc
  | some c' =>
    rw [hk] at hc
    cases hc
    exact Array.mem_of_getElem? hk

theorem Cont.ClosedIn.exists_continuation {k : Ref .continuation}
    (hk : (Cont.onHeap k).ClosedIn h) : ∃ c, h.continuation k = .ok c := by
  refine ⟨h.continuations[k.index], ?_⟩
  rw [Heap.continuation, Array.getElem?_eq_getElem hk]
  rfl

end Heaps

/-! ## Segments -/

theorem Env.toValue_inj {a b : Env} (h : a.toValue = b.toValue) : a = b := by
  have := congrArg Env.ofValue? h
  simpa using this

theorem FrameCells.unique {stack : Array Value} {start count start' count' : Nat}
    {parent parent' : Env} (h : FrameCells stack start count parent)
    (h' : FrameCells stack start' count' parent') (he : start + count = start' + count') :
    start = start' ∧ count = count' ∧ parent = parent' := by
  have hs := h.start_cell
  have hp := h.parent_cell
  rw [he, h'.start_cell] at hs
  rw [he, h'.parent_cell] at hp
  simp only [Option.some.injEq, Value.fixnum.injEq] at hs
  exact ⟨by omega, by omega, (Env.toValue_inj (Option.some.inj hp)).symm⟩

/-- The handle leads to the heap or to a frame in a segment. -/
inductive EnvIn (h : Heap) (segs : List Segment) : Env → Prop
  | closed {env : Env} : env.ClosedIn h → EnvIn h segs env
  | onStack {start count id : Nat} : .frame start count id ∈ segs →
    EnvIn h segs (.onStack (start + count))

/-- The handle leads to the heap or to a return point in a segment. -/
inductive ContIn (h : Heap) (segs : List Segment) : Cont → Prop
  | closed {cont : Cont} : cont.ClosedIn h → ContIn h segs cont
  | onStack {start count id : Nat} : .point start count id ∈ segs →
    ContIn h segs (.onStack (start + count + 4))

/-- A return point in the cells. No frame lies among the pending values that it restores. -/
structure PointIn (h : Heap) (stack : Array Value) (rest : List Segment) (start count : Nat)
    (p : ReturnPoint) : Prop extends PointCells stack start count p where
  frames_le : ∀ start' count' id, .frame start' count' id ∈ rest → start' + count' + 3 ≤ p.bp
  env : EnvIn h rest p.env
  prev : ContIn h rest p.prev

/-- What stands in the cells of a segment. -/
def SegmentIn (h : Heap) (stack : Array Value) (rest : List Segment) : Segment → Prop
  | .frame start count _ =>
    (∃ q, stack[start + count]? = some (.frame ⟨q⟩) ∧ q < h.frames.size) ∨
      ∃ parent, FrameCells stack start count parent ∧ EnvIn h rest parent
  | .point start count _ => ∃ p, PointIn h stack rest start count p

/-- The cells in use are arranged in the segments, with which the registers are in order too. -/
structure Arranged (segs : List Segment) (m : Machine) : Prop where
  room : m.sp ≤ m.capacity
  stacked : Stacked (SegmentIn m.heap m.stack) m.sp segs
  env : EnvIn m.heap segs m.env
  cont : ContIn m.heap segs m.cont
  linked : m.heap.Linked

section Segments

variable {h h' : Heap} {segs sub : List Segment} {env : Env} {cont : Cont} {m : Machine}

theorem EnvIn.mono (he : EnvIn h sub env) (hg : h.Grown h') (hs : sub ⊆ segs) :
    EnvIn h' segs env := by
  cases he with
  | closed he => exact .closed (he.mono hg)
  | onStack hmem => exact .onStack (hs hmem)

theorem ContIn.mono (hc : ContIn h sub cont) (hg : h.Grown h') (hs : sub ⊆ segs) :
    ContIn h' segs cont := by
  cases hc with
  | closed hc => exact .closed (hc.mono hg)
  | onStack hmem => exact .onStack (hs hmem)

theorem EnvIn.closed_of_nil (he : EnvIn h [] env) : env.ClosedIn h := by
  cases he with
  | closed he => exact he
  | onStack hmem => cases hmem

theorem ContIn.closed_of_nil (hc : ContIn h [] cont) : cont.ClosedIn h := by
  cases hc with
  | closed hc => exact hc
  | onStack hmem => cases hmem

theorem FrameCells.congr {stack stack' : Array Value} {start count : Nat} {parent : Env}
    (hf : FrameCells stack start count parent)
    (hcells : ∀ i, start ≤ i → i < start + count + 3 → stack'[i]? = stack[i]?) :
    FrameCells stack' start count parent where
  start_cell := (hcells _ (by omega) (by omega)).trans hf.start_cell
  count_cell := (hcells _ (by omega) (by omega)).trans hf.count_cell
  parent_cell := (hcells _ (by omega) (by omega)).trans hf.parent_cell

theorem PointIn.congr {stack stack' : Array Value} {rest : List Segment} {start count : Nat}
    {p : ReturnPoint} (hp : PointIn h stack rest start count p)
    (hcells : ∀ i, start + count ≤ i → i < start + count + 4 → stack'[i]? = stack[i]?)
    (hg : h.Grown h') : PointIn h' stack' rest start count p where
  ip_cell := (hcells _ (by omega) (by omega)).trans hp.ip_cell
  bp_cell := (hcells _ (by omega) (by omega)).trans hp.bp_cell
  env_cell := (hcells _ (by omega) (by omega)).trans hp.env_cell
  prev_cell := (hcells _ (by omega) (by omega)).trans hp.prev_cell
  bp_le := hp.bp_le
  frames_le := hp.frames_le
  env := hp.env.mono hg (List.Subset.refl _)
  prev := hp.prev.mono hg (List.Subset.refl _)

theorem Stacked.congr_below {stack stack' : Array Value} {hi : Nat}
    (hs : Stacked (SegmentIn h stack) hi segs) (hcells : ∀ i < hi, stack'[i]? = stack[i]?)
    (hg : h.Grown h') : Stacked (SegmentIn h' stack') hi segs := by
  refine hs.imp fun s rest hsuf hseg => ?_
  have htop := (hs.at_suffix hsuf).1
  cases s with
  | frame start count id =>
    rw [Segment.top_frame] at htop
    rcases hseg with ⟨q, hq, hlt⟩ | ⟨parent, hf, hp⟩
    · exact .inl ⟨q, (hcells _ (by omega)).trans hq, Nat.lt_of_lt_of_le hlt hg.frames.size_le⟩
    · exact .inr ⟨parent, hf.congr fun i _ hi => hcells i (by omega),
        hp.mono hg (List.Subset.refl _)⟩
  | point start count id =>
    rw [Segment.top_point] at htop
    obtain ⟨p, hp⟩ := hseg
    exact ⟨p, hp.congr (fun i _ hi => hcells i (by omega)) hg⟩

theorem Arranged.of_closed (hroom : m.sp ≤ m.capacity) (he : m.env.ClosedIn m.heap)
    (hc : m.cont.ClosedIn m.heap) (hl : m.heap.Linked) : Arranged [] m :=
  ⟨hroom, .nil, .closed he, .closed hc, hl⟩

/-- What the objects hold does not matter to the stack, as long as their links lead somewhere. -/
theorem Arranged.withHeap (hm : Arranged segs m) (hf : h.frames.size = m.heap.frames.size)
    (hk : h.continuations.size = m.heap.continuations.size) (hl : h.Linked) :
    Arranged segs { m with heap := h } := by
  have henv {sub : List Segment} {env : Env} (he : EnvIn m.heap sub env) : EnvIn h sub env := by
    cases he with
    | closed he => exact .closed ((Env.closedIn_iff hf).2 he)
    | onStack hmem => exact .onStack hmem
  have hcont {sub : List Segment} {cont : Cont} (hc : ContIn m.heap sub cont) :
      ContIn h sub cont := by
    cases hc with
    | closed hc => exact .closed ((Cont.closedIn_iff hk).2 hc)
    | onStack hmem => exact .onStack hmem
  refine
    { room := hm.room
      stacked := hm.stacked.imp fun s rest _ hseg => ?_
      env := henv hm.env
      cont := hcont hm.cont
      linked := hl }
  cases s with
  | frame start count id =>
    rcases hseg with ⟨q, hq, hlt⟩ | ⟨parent, hcells, hp⟩
    · exact .inl ⟨q, hq, hf ▸ hlt⟩
    · exact .inr ⟨parent, hcells, henv hp⟩
  | point start count id =>
    obtain ⟨p, hp⟩ := hseg
    exact ⟨p, { hp with env := henv hp.env, prev := hcont hp.prev }⟩

theorem Arranged.length_le (hm : Arranged segs m) : segs.length ≤ m.capacity :=
  hm.stacked.length_le.trans hm.room

/-- What stands where a handle of a return point leads. -/
theorem Arranged.pointIn (hm : Arranged segs m) {c : Nat} (hc : ContIn m.heap segs (.onStack c)) :
    ∃ start count id rest p, c = start + count + 4 ∧ .point start count id :: rest <:+ segs ∧
      c ≤ m.sp ∧ m.returnPoint c = .ok p ∧ PointIn m.heap m.stack rest start count p := by
  generalize hpos : Cont.onStack c = cont at hc
  cases hc with
  | closed hc =>
    subst hpos
    exact hc.elim
  | @onStack start count id hmem =>
    cases hpos
    obtain ⟨rest, hs⟩ := exists_suffix hmem
    obtain ⟨htop, ⟨p, hp⟩, -⟩ := hm.stacked.at_suffix hs
    exact ⟨start, count, id, rest, p, rfl, hs, htop, hp.returnPoint htop, hp⟩

/-- What stands where a handle of a frame leads. -/
theorem Arranged.frameIn (hm : Arranged segs m) {e : Nat} (he : EnvIn m.heap segs (.onStack e)) :
    ∃ start count id rest, e = start + count ∧ .frame start count id :: rest <:+ segs ∧
      e + 3 ≤ m.sp ∧ ((∃ q, m.stack[e]? = some (.frame ⟨q⟩) ∧ q < m.heap.frames.size) ∨
        ∃ parent, FrameCells m.stack start count parent ∧ EnvIn m.heap rest parent) := by
  generalize hpos : Env.onStack e = env at he
  cases he with
  | closed he =>
    subst hpos
    exact he.elim
  | @onStack start count id hmem =>
    cases hpos
    obtain ⟨rest, hs⟩ := exists_suffix hmem
    obtain ⟨htop, hseg, -⟩ := hm.stacked.at_suffix hs
    exact ⟨start, count, id, rest, rfl, hs, htop, hseg⟩

end Segments

end LispMachine
