import LispMachine.Proofs.Simulation.Follows
import LispMachine.Proofs.Simulation.Returns

/-! # The layout of the stack

The registers have some continuations and environments in reach. The stack is laid out well if each
handle of these leads to a frame or to a return point that lies where it should, above all that it
refers to. Every machine that represents one without a stack is laid out well.
-/

namespace LispMachine

namespace Machine

/-- The current continuation and those to which it goes on. -/
inductive OnChain (m : Machine) : Cont → Prop
  | current : OnChain m m.cont
  | point {c : Nat} {p : ReturnPoint} :
    OnChain m (.onStack c) → m.returnPoint c = .ok p → OnChain m p.prev
  | object {k : Ref .continuation} {c : Continuation} :
    OnChain m (.onHeap k) → m.heap.continuation k = .ok c → OnChain m c.prev

/-- The current environment, those of the continuations to which it goes on, and those around
them. -/
inductive InScope (m : Machine) : Env → Prop
  | current : InScope m m.env
  | point {c : Nat} {p : ReturnPoint} :
    m.OnChain (.onStack c) → m.returnPoint c = .ok p → InScope m p.env
  | object {k : Ref .continuation} {c : Continuation} :
    m.OnChain (.onHeap k) → m.heap.continuation k = .ok c → InScope m c.env
  | around {env parent : Env} {slots : Slots} :
    InScope m env → m.innermost env = .ok (slots, parent) → InScope m parent

/-- A handle of a frame leads to where the frame has gone, or to a descriptor right above the
slots. -/
def FrameInPlace (m : Machine) (e : Nat) : Prop :=
  (∃ q, m.stack[e]? = some (.frame q)) ∨
    ∃ start count parent, m.descriptor e = .ok (.live start count parent) ∧ start + count = e ∧
      e + 3 ≤ m.sp ∧ ∀ e', parent = .onStack e' → e' + 3 ≤ start

/-- A handle of a return point leads to one that lies above what it restores. -/
def PointInPlace (m : Machine) (c : Nat) : Prop :=
  4 ≤ c ∧ c ≤ m.sp ∧ ∃ p, m.returnPoint c = .ok p ∧ p.bp + 4 ≤ c ∧
    ∀ c', p.prev = .onStack c' → c' + 4 ≤ c

/-- The flag admits that a frame was left and no other entered. -/
structure LaidOut (left : Bool) (m : Machine) : Prop where
  sp_le : m.sp ≤ m.capacity
  bp_le : left = false → m.bp ≤ m.sp
  frames : ∀ e, m.InScope (.onStack e) → m.FrameInPlace e
  points : ∀ c, m.OnChain (.onStack c) → m.PointInPlace c

end Machine

/-- The position above the descriptor of a frame, or zero if the frame is not on the stack. -/
def Env.top : Env → Nat
  | .onStack e => e + 3
  | _ => 0

section

variable {ρ : Naming} {segs : List Segment} {lo : Nat} {m : Machine} {r : HeapMachine}

/-! ## Handles in reach -/

theorem EnvOn.top_le {P : List Segment → Segment → Prop} {hi : Nat} {env env' : Env}
    (he : EnvOn ρ segs env env') (h : Stacked P hi segs) : env.top ≤ hi := by
  cases he with
  | onStack hmem => exact h.top_le_of_mem hmem
  | agree he => cases he <;> exact Nat.zero_le _

theorem Core.pointAt (h : Core ρ segs lo m r) {c : Nat} {k' : Cont}
    (hk : ContOn ρ segs (.onStack c) k') :
    ∃ start count k rest p c', c = start + count + 4 ∧ .point start count k :: rest <:+ segs ∧
      m.returnPoint c = .ok p ∧ PointAt ρ m.stack r.heap r.born rest start count k p c' := by
  generalize hc : Cont.onStack c = cont at hk
  cases hk with
  | agree hk => cases hk <;> cases hc
  | @onStack start count k hmem =>
    cases hc
    obtain ⟨rest, hs⟩ := exists_suffix hmem
    obtain ⟨htop, ⟨p, c', hp⟩, -⟩ := h.stacked.at_suffix hs
    have hsp := h.sp
    rw [Segment.top_point] at htop
    exact ⟨start, count, k, rest, p, c', rfl, hs, hp.returnPoint (by omega), hp⟩

theorem Core.objectAt (h : Core ρ segs lo m r) {k : Ref .continuation} {k' : Cont}
    {c : Continuation} (hk : ContOn ρ segs (.onHeap k) k') (hc : m.heap.continuation k = .ok c) :
    ∃ c', ContinuationAgree ρ c c' := by
  cases hk with
  | agree hk =>
    cases hk with
    | onHeap hk =>
      obtain ⟨a, a', ha, -, haa⟩ := h.continuation hk
      rw [hc] at ha
      cases ha
      exact ⟨a', haa⟩

theorem Represents.contOn_of_onChain (h : Represents ρ segs lo m r) {k : Cont} (hk : m.OnChain k) :
    ∃ k', ContOn ρ segs k k' := by
  induction hk with
  | current => exact ⟨_, h.cont⟩
  | point _ hp ih =>
    obtain ⟨k', hk'⟩ := ih
    obtain ⟨_, _, _, rest, p, c', -, hs, hp', hpoint⟩ := h.pointAt hk'
    rw [hp] at hp'
    cases hp'
    exact ⟨_, hpoint.prev.mono le_rfl fun _ _ _ hm => (suffix_of_cons_suffix hs).mem hm⟩
  | object _ hc ih =>
    obtain ⟨k', hk'⟩ := ih
    obtain ⟨c', hcc⟩ := h.objectAt hk' hc
    exact ⟨_, .agree hcc.prev⟩

theorem Represents.envOn_of_inScope (h : Represents ρ segs lo m r) {env : Env}
    (he : m.InScope env) :
    ∃ env', EnvOn ρ segs env env' := by
  induction he with
  | current => exact ⟨_, h.env⟩
  | point hk hp =>
    obtain ⟨k', hk'⟩ := h.contOn_of_onChain hk
    obtain ⟨_, _, _, rest, p, c', -, hs, hp', hpoint⟩ := h.pointAt hk'
    rw [hp] at hp'
    cases hp'
    exact ⟨_, hpoint.env.mono le_rfl fun _ _ _ hm => (suffix_of_cons_suffix hs).mem hm⟩
  | object hk hc =>
    obtain ⟨k', hk'⟩ := h.contOn_of_onChain hk
    obtain ⟨c', hcc⟩ := h.objectAt hk' hc
    exact ⟨_, .agree hcc.env⟩
  | around _ hm ih =>
    obtain ⟨env', he'⟩ := ih
    cases env' with
    | empty =>
      rw [he'.eq_empty] at hm
      cases hm
    | onStack => exact he'.not_onStack.elim
    | onHeap j =>
      obtain ⟨slots, parent, f, hm', -, hslots⟩ := h.innermost he'
      rw [hm] at hm'
      cases hm'
      exact ⟨_, hslots.parent⟩

theorem Represents.frameInPlace (h : Represents ρ segs lo m r) {e : Nat} {env' : Env}
    (he : EnvOn ρ segs (.onStack e) env') : m.FrameInPlace e := by
  generalize henv : Env.onStack e = env at he
  cases he with
  | agree he => cases he <;> cases henv
  | @onStack start count j hmem =>
    cases henv
    obtain ⟨rest, hs⟩ := exists_suffix hmem
    obtain ⟨htop, hseg, hrest⟩ := h.stacked.at_suffix hs
    rcases hseg with ⟨q, hq, -⟩ | ⟨parent, f, hl⟩
    · exact .inl ⟨_, hq⟩
    · have hsp := h.sp
      rw [Segment.top_frame] at htop
      refine .inr ⟨start, count, parent, hl.descriptor, rfl, by omega, ?_⟩
      rintro e' rfl
      exact hl.parent.top_le hrest

theorem Represents.pointInPlace (h : Represents ρ segs lo m r) {c : Nat} {k' : Cont}
    (hk : ContOn ρ segs (.onStack c) k') : m.PointInPlace c := by
  obtain ⟨start, count, k, rest, p, c', rfl, hs, hp, hpoint⟩ := h.pointAt hk
  obtain ⟨htop, -, hrest⟩ := h.stacked.at_suffix hs
  have hsp := h.sp
  have hbp := hpoint.bp_le
  rw [Segment.top_point] at htop
  refine ⟨by omega, by omega, p, hp, by omega, ?_⟩
  intro c' hc'
  have hprev : p.prev.top ≤ start := hpoint.prev.top_le hrest
  rw [hc'] at hprev
  change c' ≤ start at hprev
  omega

theorem Represents.laidOut (h : Represents ρ segs lo m r) {left : Bool}
    (hl : left = false → r.leaving = false) : m.LaidOut left where
  sp_le := h.room
  bp_le hleft := by
    have hbp := h.bp (hl hleft)
    have hsp := h.sp
    omega
  frames e he := by
    obtain ⟨env', he'⟩ := h.envOn_of_inScope he
    exact h.frameInPlace he'
  points c hc := by
    obtain ⟨k', hk'⟩ := h.contOn_of_onChain hc
    exact h.pointInPlace hk'

/-! ## Choosing the operands -/

theorem Stacked.below {P : List Segment → Segment → Prop} {hi : Nat} (h : Stacked P hi segs)
    (base : Nat) :
    ∃ sub, sub <:+ segs ∧ Stacked P base sub ∧ ∀ s ∈ segs, s.top ≤ base → s ∈ sub := by
  induction segs generalizing hi with
  | nil => exact ⟨[], List.suffix_refl _, .nil, fun _ h _ => h⟩
  | cons s rest ih =>
    by_cases hs : s.top ≤ base
    · exact ⟨s :: rest, List.suffix_refl _, ⟨hs, h.2⟩, fun _ h _ => h⟩
    · obtain ⟨sub, hsub, hst, hmem⟩ := ih h.2.2
      refine ⟨sub, hsub.trans (List.suffix_cons s rest), hst, fun t ht htop => ?_⟩
      rcases List.mem_cons.1 ht with rfl | ht
      · exact absurd htop hs
      · exact hmem t ht htop

theorem Core.exists_holds (h : Core ρ segs lo m r) {base n : Nat} (hn : base + n ≤ m.sp) :
    ∃ items : Array Value, items.size = n ∧ Holds (Agree ρ) m.stack base items := by
  induction n with
  | zero => exact ⟨#[], rfl, .empty⟩
  | succ n ih =>
    obtain ⟨items, hsize, hitems⟩ := ih (by omega)
    have hlt : base + items.size < m.stack.size := by
      have := h.room
      unfold Machine.capacity at this
      omega
    obtain ⟨u, hu⟩ := h.known m.stack[base + items.size] (Array.getElem_mem hlt)
    exact ⟨items.push u, by simp [hsize], hitems.push (Array.getElem?_eq_getElem hlt) hu⟩

/-- The operands may be taken to start anywhere above what the registers name. -/
theorem Represents.regroup (h : Represents ρ segs lo m r) {base : Nat} (leaving : Bool)
    (hleaving : leaving = false → r.leaving = false) (hcont : m.cont.top ≤ base)
    (henv : m.env.top ≤ base) (hsp : base ≤ m.sp) (hbp : leaving = false → m.bp ≤ base) :
    ∃ sub operands, sub <:+ segs ∧ operands.size = m.sp - base ∧
      Represents ρ sub base m { r with operands, leaving, demand := r.demand.rebase base } := by
  obtain ⟨sub, hsub, hst, hmem⟩ := h.stacked.below base
  obtain ⟨items, hsize, hitems⟩ := h.exists_holds (show base + (m.sp - base) ≤ m.sp by omega)
  refine ⟨sub, items, hsub, hsize, ?_⟩
  have he : EnvOn ρ sub m.env r.env := by
    have he := h.env
    generalize m.env = env, r.env = env' at he henv
    cases he with
    | onStack hm => exact .onStack (hmem _ hm henv)
    | agree he => exact .agree he
  have hc : ContOn ρ sub m.cont r.cont := by
    have hc := h.cont
    generalize m.cont = cont, r.cont = cont' at hc hcont
    cases hc with
    | onStack hm => exact .onStack (hmem _ hm hcont)
    | agree hc => exact .agree hc
  exact
    { h with
      sp := by
        simp only [hsize]
        omega
      operands := hitems
      stacked := hst
      base := Nat.le_add_left ..
      bp := hbp
      frames_le := fun hl start count j hm => h.frames_le (hleaving hl) start count j (hsub.mem hm)
      env := he
      cont := hc
      fresh := fun start count k hm => h.fresh start count k (hsub.mem hm)
      slack := Nat.le_add_left .. }

end

end LispMachine
