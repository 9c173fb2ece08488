import LispMachine.Proofs.HeapMachine.Basic
import LispMachine.Proofs.Simulation.Scripts
import LispMachine.Proofs.Simulation.Segments

/-! # Machines that represent each other

A machine represents one without a stack if its stack consists of segments for frames and
continuations that are not on its heap yet, with the operands of the current activation above them,
and if all else agrees. The cells between the segments may hold anything.
-/

namespace LispMachine

/-! ## Handles -/

/-- The handles name the same environment, which is in a segment or on both heaps. -/
inductive EnvOn (ρ : Naming) (segs : List Segment) : Env → Env → Prop
  | onStack {start count j : Nat} : .frame start count j ∈ segs →
    EnvOn ρ segs (.onStack (start + count)) (.onHeap ⟨j⟩)
  | agree {env env' : Env} : EnvAgree ρ env env' → EnvOn ρ segs env env'

@[inherit_doc EnvOn]
inductive ContOn (ρ : Naming) (segs : List Segment) : Cont → Cont → Prop
  | onStack {start count k : Nat} : .point start count k ∈ segs →
    ContOn ρ segs (.onStack (start + count + 4)) (.onHeap ⟨k⟩)
  | agree {cont cont' : Cont} : ContAgree ρ cont cont' → ContOn ρ segs cont cont'

section Handles

variable {ρ σ : Naming} {segs sub : List Segment} {env env' : Env} {cont cont' : Cont}

theorem EnvOn.mono (h : EnvOn ρ sub env env') (hρ : ρ ≤ σ)
    (hs : ∀ start count j, .frame start count j ∈ sub → .frame start count j ∈ segs) :
    EnvOn σ segs env env' := by
  cases h with
  | onStack h => exact .onStack (hs _ _ _ h)
  | agree h => exact .agree (h.mono hρ)

theorem ContOn.mono (h : ContOn ρ sub cont cont') (hρ : ρ ≤ σ)
    (hs : ∀ start count k, .point start count k ∈ sub → .point start count k ∈ segs) :
    ContOn σ segs cont cont' := by
  cases h with
  | onStack h => exact .onStack (hs _ _ _ h)
  | agree h => exact .agree (h.mono hρ)

theorem EnvOn.of_le (h : EnvOn ρ segs env env') (hρ : ρ ≤ σ) : EnvOn σ segs env env' :=
  h.mono hρ fun _ _ _ h => h

theorem ContOn.of_le (h : ContOn ρ segs cont cont') (hρ : ρ ≤ σ) : ContOn σ segs cont cont' :=
  h.mono hρ fun _ _ _ h => h

theorem EnvOn.eq_empty (h : EnvOn ρ segs env .empty) : env = .empty := by
  cases h with
  | agree h =>
    cases h
    rfl

theorem EnvOn.not_onStack {pos : Nat} (h : EnvOn ρ segs env (.onStack pos)) : False := by
  cases h with
  | agree h => cases h

theorem ContOn.eq_empty (h : ContOn ρ segs cont .empty) : cont = .empty := by
  cases h with
  | agree h =>
    cases h
    rfl

theorem ContOn.not_onStack {pos : Nat} (h : ContOn ρ segs cont (.onStack pos)) : False := by
  cases h with
  | agree h => cases h

theorem ContOn.known (h : ContOn ρ segs cont cont') : Known ρ cont.toValue := by
  cases h with
  | onStack => exact ⟨_, .same (by simp [Cont.toValue])⟩
  | agree h =>
    cases h with
    | empty => exact ⟨_, .nil⟩
    | onHeap h => exact ⟨_, .continuation h⟩

end Handles

/-! ## Segments in the cells -/

structure FrameCells (stack : Array Value) (start count : Nat) (parent : Env) : Prop where
  start_cell : stack[start + count]? = some (.fixnum start)
  count_cell : stack[start + count + 1]? = some (.fixnum count)
  parent_cell : stack[start + count + 2]? = some parent.toValue

structure PointCells (stack : Array Value) (start count : Nat) (p : ReturnPoint) : Prop where
  ip_cell : stack[start + count]? = some (.fixnum p.ip)
  bp_cell : stack[start + count + 1]? = some (.fixnum p.bp)
  env_cell : stack[start + count + 2]? = some p.env.toValue
  prev_cell : stack[start + count + 3]? = some p.prev.toValue
  bp_le : p.bp ≤ start

/-- A frame whose slots are in the cells. Its number stands in no segment below, and it has no name
on the heap. -/
structure LiveAt (ρ : Naming) (stack : Array Value) (g : Heap) (rest : List Segment)
    (start count j : Nat) (parent : Env) (f : Frame) : Prop
    extends FrameCells stack start count parent where
  frame : g.frames[j]? = some f
  unnamed : ρ.frame j = none
  unique : ∀ start' count', .frame start' count' j ∉ rest
  parent : EnvOn ρ rest parent f.parent
  size : f.slots.size = count
  slots : Holds (Agree ρ) stack start f.slots

/-- A return point in the cells with the pending values below it. The frames below are older than
the continuation that it stands for, and none of them lies above the base that it restores. -/
structure PointAt (ρ : Naming) (stack : Array Value) (g : Heap) (born : Array Birth)
    (rest : List Segment) (start count k : Nat) (p : ReturnPoint) (c : Continuation) : Prop
    extends PointCells stack start count p where
  continuation : g.continuations[k]? = some c
  unique : ∀ start' count', .point start' count' k ∉ rest
  frames_le : ∀ start' count' j, .frame start' count' j ∈ rest → start' + count' + 3 ≤ p.bp
  resume : c.resume = .code p.ip
  owner : HeapMachine.ownerOf g c.prev = .ok c.owner
  env : EnvOn ρ rest p.env c.env
  prev : ContOn ρ rest p.prev c.prev
  size : c.saved.size = count
  saved : Holds (Agree ρ) stack start c.saved
  born : ∃ b, born[k]? = some b ∧ start ≤ p.bp + b.base ∧
    ∀ start' count' j, .frame start' count' j ∈ rest → j < b.frames

/-- A segment that stands for a frame holds it or says where it has gone. -/
def SegmentAt (ρ : Naming) (stack : Array Value) (g : Heap) (born : Array Birth)
    (rest : List Segment) : Segment → Prop
  | .frame start count j =>
    (∃ q, stack[start + count]? = some (.frame ⟨q⟩) ∧ ρ.frame j = some q) ∨
      ∃ parent f, LiveAt ρ stack g rest start count j parent f
  | .point start count k => ∃ p c, PointAt ρ stack g born rest start count k p c

def Extended {α : Type} (xs ys : Array α) : Prop :=
  ∀ (i : Nat) (a : α), xs[i]? = some a → ys[i]? = some a

theorem Extended.refl {α : Type} (xs : Array α) : Extended xs xs := fun _ _ h => h

theorem Extended.push {α : Type} (xs : Array α) (a : α) : Extended xs (xs.push a) := by
  intro i b hi
  have : i < xs.size := (Array.getElem?_eq_some_iff.1 hi).1
  rw [Array.getElem?_push, if_neg (by omega), hi]

theorem ownerOf_extended {g g' : Heap} (h : Extended g.continuations g'.continuations) {cont : Cont}
    {owner : Option Nat} (ho : HeapMachine.ownerOf g cont = .ok owner) :
    HeapMachine.ownerOf g' cont = .ok owner := by
  cases cont with
  | empty => exact ho
  | onStack => cases ho
  | onHeap k =>
    simp only [HeapMachine.ownerOf, Heap.continuation] at ho ⊢
    cases hk : g.continuations[k.index]? with
    | none =>
      rw [hk] at ho
      cases ho
    | some c =>
      rw [h _ _ hk]
      rwa [hk] at ho

section Segments

variable {ρ σ : Naming} {stack stack' : Array Value} {g g' : Heap} {born born' : Array Birth}
  {rest : List Segment} {s : Segment}

theorem SegmentAt.congr (h : SegmentAt ρ stack g born rest s) (hρ : ρ ≤ σ)
    (hstack : ∀ i, s.start ≤ i → i < s.top → stack'[i]? = stack[i]?)
    (hframe : ∀ start count j f, s = .frame start count j → ρ.frame j = none →
      g.frames[j]? = some f → σ.frame j = none ∧ g'.frames[j]? = some f)
    (hg : Extended g.continuations g'.continuations) (hborn : Extended born born') :
    SegmentAt σ stack' g' born' rest s := by
  cases s with
  | frame start count j =>
    simp only [Segment.start_frame, Segment.top_frame] at hstack
    rcases h with ⟨q, hq, hj⟩ | ⟨parent, f, h⟩
    · exact .inl ⟨q, by rw [hstack _ (by omega) (by omega), hq], hρ.1 _ _ hj⟩
    · obtain ⟨hj, hf⟩ := hframe start count j f rfl h.unnamed h.frame
      refine .inr ⟨parent, f, ?_⟩
      exact
        { start_cell := by rw [hstack _ (by omega) (by omega), h.start_cell]
          count_cell := by rw [hstack _ (by omega) (by omega), h.count_cell]
          parent_cell := by rw [hstack _ (by omega) (by omega), h.parent_cell]
          frame := hf
          unnamed := hj
          unique := h.unique
          parent := h.parent.of_le hρ
          size := h.size
          slots := (h.slots.congr fun i _ hi => hstack i (by omega) (by have := h.size; omega)).mono
            fun _ _ h => h.mono hρ }
  | point start count k =>
    simp only [Segment.start_point, Segment.top_point] at hstack
    obtain ⟨p, c, h⟩ := h
    obtain ⟨b, hb, hbj⟩ := h.born
    refine ⟨p, c, ?_⟩
    exact
      { h with
        ip_cell := by rw [hstack _ (by omega) (by omega), h.ip_cell]
        bp_cell := by rw [hstack _ (by omega) (by omega), h.bp_cell]
        env_cell := by rw [hstack _ (by omega) (by omega), h.env_cell]
        prev_cell := by rw [hstack _ (by omega) (by omega), h.prev_cell]
        continuation := hg k c h.continuation
        owner := ownerOf_extended hg h.owner
        env := h.env.of_le hρ
        prev := h.prev.of_le hρ
        saved := (h.saved.congr fun i _ hi => hstack i (by omega) (by have := h.size; omega)).mono
          fun _ _ h => h.mono hρ
        born := ⟨b, hborn k b hb, hbj⟩ }

theorem Stacked.congr_cells {segs : List Segment} {hi : Nat}
    (h : Stacked (SegmentAt ρ stack g born) hi segs)
    (hcells : ∀ i, i < hi → stack'[i]? = stack[i]?) :
    Stacked (SegmentAt ρ stack' g born) hi segs := by
  refine h.imp fun s rest hs hseg => hseg.congr le_rfl (fun i _ hi => hcells i ?_)
    (fun _ _ _ _ _ hj hf => ⟨hj, hf⟩) (.refl _) (.refl _)
  have := (h.at_suffix hs).1
  omega

theorem LiveAt.ne {rest' : List Segment} {start count j start' count' j' : Nat} {parent : Env}
    {f : Frame} (hl : LiveAt ρ stack g rest start count j parent f)
    (h : SegmentAt ρ stack g born rest' (.frame start' count' j')) (hj' : ρ.frame j' = none)
    (ho : .frame start' count' j' :: rest' <:+ rest ∨ .frame start count j :: rest <:+ rest') :
    j' ≠ j := by
  rintro rfl
  rcases ho with ho | ho
  · exact hl.unique _ _ (mem_of_cons_suffix ho)
  · rcases h with ⟨q, -, hq⟩ | ⟨parent', f', hl'⟩
    · rw [hj'] at hq
      cases hq
    · exact hl'.unique _ _ (mem_of_cons_suffix ho)

end Segments

/-! ## Machines -/

/-- The numbers of host calls are used up one after the other. -/
structure HostCalls.Sound (hosts : HostCalls) : Prop where
  active : ∀ id ∈ hosts.active, id < hosts.next
  returned : ∀ id, hosts.returned = some id → id < hosts.next

/-- A continuation saves the cells from the base of its activation on. -/
def SavedWithin (ρ : Naming) (h g : Heap) (born : Array Birth) : Prop :=
  ∀ (k q : Nat) (c c' : Continuation), ρ.cont k = some q → h.continuations[q]? = some c →
    g.continuations[k]? = some c' → c.saved.size ≤ c'.saved.size + (born[k]?).elim 0 Birth.base

/-- All that a machine and one without a stack have in common but for the environment and the
continuation. The operands start at cell `lo`, above all segments and not too far above the base. -/
structure Core (ρ : Naming) (segs : List Segment) (lo : Nat) (m : Machine) (r : HeapMachine) :
    Prop where
  ip : m.ip = r.ip
  current : m.current = r.current
  argc : m.argc = r.argc
  runnable : m.runnable = r.runnable
  hosts : m.hosts = r.hosts
  sound : r.hosts.Sound
  code : m.code = r.code
  acc : Agree ρ m.acc r.acc
  literals : Each (Agree ρ) m.literals r.literals
  globals : ∀ name : String, Option.Rel (Agree ρ) m.globals[name]? r.globals[name]?
  heap : HeapAgree ρ m.heap r.heap
  uniform : ∀ p ∈ r.heap.procedures, p.body.Uniform
  born : r.born.size = r.heap.continuations.size
  sp : m.sp = lo + r.operands.size
  room : m.sp ≤ m.capacity
  operands : Holds (Agree ρ) m.stack lo r.operands
  known : ∀ v ∈ m.stack, Known ρ v
  stacked : Stacked (SegmentAt ρ m.stack r.heap r.born) lo segs
  saved : SavedWithin ρ m.heap r.heap r.born
  least : r.demand.least ≤ m.capacity
  base : lo ≤ m.bp + r.demand.base
  bp : r.leaving = false → m.bp ≤ lo
  frames_le : r.leaving = false → ∀ start count j, .frame start count j ∈ segs →
    start + count + 3 ≤ m.bp

/-- The position of a return point, or zero if the continuation is not on the stack. -/
def Cont.top : Cont → Nat
  | .onStack c => c
  | _ => 0

/-- The machine represents the one without a stack. The continuations in its segments are not on its
heap. -/
structure Represents (ρ : Naming) (segs : List Segment) (lo : Nat) (m : Machine)
    (r : HeapMachine) : Prop extends Core ρ segs lo m r where
  env : EnvOn ρ segs m.env r.env
  cont : ContOn ρ segs m.cont r.cont
  fresh : ∀ start count k, .point start count k ∈ segs → ρ.cont k = none
  slack : lo ≤ max m.bp m.cont.top + r.demand.slack

end LispMachine
