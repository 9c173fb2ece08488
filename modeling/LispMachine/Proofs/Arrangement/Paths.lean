import LispMachine.Proofs.Arrangement.Room
import LispMachine.Proofs.Arrangement.Slots

/-! # The ways to a frame

A frame is found through the current environment, through the environments that continuations and
closures keep, and from another frame outward. An operation may change the handles along a way, but
the way goes on leading to the frame it led to, and ways that met in one frame still do.
-/

namespace LispMachine

open Machine

inductive Path
  /-- Through the current environment. -/
  | current
  /-- Through the environment that is current again after `n + 1` returns. -/
  | pending (n : Nat)
  | closure (c : Ref .closure)
  | continuation (k : Ref .continuation)
  /-- To the frame around the one that another way leads to. -/
  | outward (p : Path)

namespace Machine

def around (m : Machine) (env : Env) : Env :=
  match m.frame? env with
  | some f => f.parent
  | none => .empty

/-- The handle at the end of a way. It is empty if the way leads nowhere. -/
def envAt (m : Machine) : Path → Env
  | .current => m.env
  | .pending n => (m.caller (m.contAfter m.cont n)).1
  | .closure c =>
    match m.heap.closure c with
    | .ok c => c.env
    | .error _ => .empty
  | .continuation k => (m.caller (.onHeap k)).1
  | .outward p => m.around (m.envAt p)

/-- Where the frame is that a handle leads to. -/
def home? (m : Machine) (env : Env) : Option Env :=
  match m.resolve env with
  | .ok .empty | .error _ => none
  | .ok home => some home

def SameFrame (m : Machine) (p q : Path) : Prop :=
  m.home? (m.envAt p) = m.home? (m.envAt q) ∧ m.home? (m.envAt p) ≠ none

instance (m : Machine) (p q : Path) : Decidable (m.SameFrame p q) :=
  inferInstanceAs (Decidable (_ ∧ _))

def slotAt (m : Machine) (p : Path) (index : Nat) : Option Value := do
  (← m.frame? (m.envAt p)).slots[index]?

theorem home?_congr {m : Machine} {a b : Env} (h : m.resolve a = m.resolve b) :
    m.home? a = m.home? b := by
  rw [home?, home?, h]

end Machine

/-- How the registers come to name other frames than before. -/
inductive Shift
  | stay
  /-- The current environment is saved in a new return point. -/
  | push
  /-- The innermost continuation becomes current. -/
  | pop

/-- Which way led to a frame before. Continuations with numbers from `old` up to `new` are copies of
those that were pending, the newest one of the innermost. -/
def Path.before (s : Shift) (old new : Nat) : Path → Path
  | .current =>
    match s with
    | .pop => .pending 0
    | _ => .current
  | .pending n =>
    match s, n with
    | .stay, n => .pending n
    | .push, 0 => .current
    | .push, n + 1 => .pending n
    | .pop, n => .pending (n + 1)
  | .closure c => .closure c
  | .continuation k =>
    if old ≤ k.index ∧ k.index < new then .pending (new - 1 - k.index) else .continuation k
  | .outward p => .outward (p.before s old new)

/-- Ways lead to the same frames as before, with the same values in the slots. -/
structure Kept (before : Path → Path) (m m' : Machine) : Prop where
  same : ∀ p q, m'.SameFrame p q ↔ m.SameFrame (before p) (before q)
  slots : ∀ p index, m'.slotAt p index = m.slotAt (before p) index

/-- Handles after an operation lead to the frames to which related handles led before. -/
structure Carries (E : Env → Env → Prop) (C : Cont → Cont → Prop) (m m' : Machine) : Prop where
  heap : m.heap.Grown m'.heap
  linked : m.heap.Linked
  env_closed : ∀ env, env.ClosedIn m.heap → E env env
  cont_closed : ∀ cont, cont.ClosedIn m.heap → C cont cont
  frames : ∀ a b, E a b → Option.Rel (fun f g => f.slots = g.slots ∧ E f.parent g.parent)
    (m.frame? a) (m'.frame? b)
  homes : ∀ a b a' b', E a b → E a' b' → (m'.home? b = m'.home? b' ↔ m.home? a = m.home? a')
  callers : ∀ x y, C x y → E (m.caller x).1 (m'.caller y).1 ∧ C (m.caller x).2 (m'.caller y).2

/-- The registers name what they named before the shift. -/
def Shifted (E : Env → Env → Prop) (C : Cont → Cont → Prop) (m m' : Machine) : Shift → Prop
  | .stay => E m.env m'.env ∧ C m.cont m'.cont
  | .push => E m.env m'.env ∧ E m.env (m'.caller m'.cont).1 ∧ C m.cont (m'.caller m'.cont).2
  | .pop => E (m.caller m.cont).1 m'.env ∧ C (m.caller m.cont).2 m'.cont

variable {segs sub : List Segment} {target : Nat → Option Nat} {m m' m'' : Machine}
  {E : Env → Env → Prop} {C : Cont → Cont → Prop} {s : Shift} {f g : Path → Path}

theorem Kept.trans (h : Kept f m m') (h' : Kept g m' m'') : Kept (fun p => f (g p)) m m'' where
  same p q := (h'.same p q).trans (h.same (g p) (g q))
  slots p index := (h'.slots p index).trans (h.slots (g p) index)

theorem Path.before_stay {a b : Nat} (s : Shift) (p : Path) :
    (p.before s b b).before .stay a b = p.before s a b := by
  induction p with
  | current => cases s <;> rfl
  | pending n => cases s <;> cases n <;> rfl
  | closure => rfl
  | continuation k =>
    have hne : ¬(b ≤ k.index ∧ k.index < b) := by omega
    simp only [Path.before, if_neg hne]
  | outward p ih => rw [Path.before, Path.before, ih, Path.before]

theorem Path.before_stay_self {n : Nat} (p : Path) : p.before .stay n n = p := by
  induction p with
  | current => rfl
  | pending n => rfl
  | closure => rfl
  | continuation k =>
    have hne : ¬(n ≤ k.index ∧ k.index < n) := by omega
    rw [Path.before, if_neg hne]
  | outward p ih => rw [Path.before, ih]

/-- Ways that were kept may be followed by a shift that makes no continuations. -/
theorem Kept.before_stay {a b : Nat} (h : Kept (Path.before .stay a b) m m')
    (h' : Kept (Path.before s b b) m' m'') : Kept (Path.before s a b) m m'' := by
  have hfun : (fun p => Path.before .stay a b (Path.before s b b p)) = Path.before s a b :=
    funext (Path.before_stay s)
  exact hfun ▸ h.trans h'

namespace Carries

theorem contAfter (h : Carries E C m m') {x y : Cont} (hc : C x y) (n : Nat) :
    C (m.contAfter x n) (m'.contAfter y n) := by
  induction n generalizing x y with
  | zero => exact hc
  | succ n ih => exact ih (h.callers x y hc).2

theorem pending (h : Carries E C m m') (hs : Shifted E C m m' s) (n : Nat) (old new : Nat) :
    E (m.envAt ((Path.pending n).before s old new)) (m'.envAt (.pending n)) := by
  cases s with
  | stay => exact (h.callers _ _ (h.contAfter hs.2 n)).1
  | push =>
    cases n with
    | zero => exact hs.2.1
    | succ n => exact (h.callers _ _ (h.contAfter hs.2.2 n)).1
  | pop => exact (h.callers _ _ (h.contAfter hs.2 n)).1

theorem closure (h : Carries E C m m') (c : Ref .closure) :
    E (m.envAt (.closure c)) (m'.envAt (.closure c)) := by
  have hsame : m'.heap.closure c = m.heap.closure c := by
    rw [Heap.closure, Heap.closure, h.heap.closures]
  rw [envAt, envAt, hsame]
  refine h.env_closed _ ?_
  cases hc : m.heap.closure c with
  | error => trivial
  | ok c' =>
    rw [Heap.closure] at hc
    cases hget : m.heap.closures[c.index]? with
    | none =>
      rw [hget] at hc
      cases hc
    | some c'' =>
      rw [hget] at hc
      cases hc
      exact h.linked.closures _ (Array.mem_of_getElem? hget)

theorem continuation (h : Carries E C m m')
    (hnew : ∀ k, m.heap.continuations.size ≤ k → k < m'.heap.continuations.size →
      C (m.contAfter m.cont (m'.heap.continuations.size - 1 - k)) (.onHeap ⟨k⟩))
    (k : Ref .continuation) :
    E (m.envAt ((Path.continuation k).before s m.heap.continuations.size
      m'.heap.continuations.size)) (m'.envAt (.continuation k)) := by
  rw [Path.before]
  split
  · next hk => exact (h.callers _ _ (hnew k.index hk.1 hk.2)).1
  · next hk =>
    by_cases hlt : k.index < m.heap.continuations.size
    · exact (h.callers _ _ (h.cont_closed (.onHeap k) hlt)).1
    · have hnone {w : Machine} (hw : w.heap.continuations.size ≤ k.index) :
          w.envAt (.continuation k) = .empty := by
        rw [envAt, caller, Heap.continuation, Array.getElem?_eq_none hw]
        rfl
      rw [hnone (by omega), hnone (by omega)]
      exact h.env_closed .empty trivial

theorem envAt (h : Carries E C m m') (hs : Shifted E C m m' s)
    (hnew : ∀ k, m.heap.continuations.size ≤ k → k < m'.heap.continuations.size →
      C (m.contAfter m.cont (m'.heap.continuations.size - 1 - k)) (.onHeap ⟨k⟩)) (p : Path) :
    E (m.envAt (p.before s m.heap.continuations.size m'.heap.continuations.size))
      (m'.envAt p) := by
  induction p with
  | current => cases s <;> exact hs.1
  | pending n => exact h.pending hs n _ _
  | closure c => exact h.closure c
  | continuation k => exact h.continuation hnew k
  | outward p ih =>
    have hf := h.frames _ _ ih
    rw [Path.before, Machine.envAt, Machine.envAt, around, around]
    generalize m.frame? _ = x, m'.frame? _ = y at hf
    cases hf with
    | none => exact h.env_closed .empty trivial
    | some hf => exact hf.2

theorem kept (h : Carries E C m m') (hs : Shifted E C m m' s)
    (hnew : ∀ k, m.heap.continuations.size ≤ k → k < m'.heap.continuations.size →
      C (m.contAfter m.cont (m'.heap.continuations.size - 1 - k)) (.onHeap ⟨k⟩)) :
    Kept (Path.before s m.heap.continuations.size m'.heap.continuations.size) m m' where
  same p q := by
    have hp := h.envAt hs hnew p
    have hq := h.envAt hs hnew q
    -- a handle that leads nowhere is like the empty one
    have hnone := h.homes _ _ _ _ hp (h.env_closed .empty trivial)
    exact and_congr (h.homes _ _ _ _ hp hq) (not_congr hnone)
  slots p index := by
    have hf := h.frames _ _ (h.envAt hs hnew p)
    rw [slotAt, slotAt]
    generalize m.frame? _ = x, m'.frame? _ = y at hf
    cases hf with
    | none => rfl
    | some hf => exact (congrArg (·[index]?) hf.1).symm

end Carries

/-! ## Frames that move -/

/-- Where a frame is after some have moved. -/
def Env.moved (target : Nat → Option Nat) : Env → Env
  | .onStack e =>
    match target e with
    | some q => .onHeap ⟨q⟩
    | none => .onStack e
  | env => env

theorem Moved.resolve (hw : Moved segs target m m') (hm : Arranged segs m) {env : Env}
    (he : EnvIn m.heap segs env) :
    ∃ home, m.resolve env = .ok home ∧ m'.resolve env = .ok (home.moved target) ∧
      (home.ClosedIn m.heap ∨ ∃ e, home = .onStack e) := by
  cases env with
  | empty => exact ⟨_, rfl, rfl, .inl trivial⟩
  | onHeap r =>
    cases he with
    | closed he => exact ⟨_, rfl, rfl, .inl he⟩
  | onStack e =>
    obtain ⟨start, count, id, rest, rfl, hs, -, ⟨q, hq, hlt⟩ | ⟨parent, hf, -⟩⟩ := hm.frameIn he
    · refine ⟨.onHeap ⟨q⟩, ?_, ?_, .inl hlt⟩
      · rw [Machine.resolve, descriptor_moved hq]
        rfl
      · rw [Machine.resolve, descriptor_moved ((hw.stays _ (hw.stays_gone hq)).trans hq)]
        rfl
    · refine ⟨.onStack (start + count), ?_, ?_, .inr ⟨_, rfl⟩⟩
      · rw [Machine.resolve, hf.descriptor]
        rfl
      · rw [Env.moved]
        cases ht : target (start + count) with
        | none =>
          rw [Machine.resolve, (hw.frameCells hm (mem_of_cons_suffix hs) ht hf).descriptor]
          rfl
        | some q =>
          rw [Machine.resolve, descriptor_moved (hw.gone _ q ht)]
          rfl

/-- Frames stay apart, since each moves to an object of its own. -/
theorem Moved.moved_inj (hw : Moved segs target m m') {a b : Env}
    (ha : a.ClosedIn m.heap ∨ ∃ e, a = .onStack e) (hb : b.ClosedIn m.heap ∨ ∃ e, b = .onStack e) :
    a.moved target = b.moved target ↔ a = b := by
  refine ⟨fun h => ?_, fun h => by rw [h]⟩
  -- an object that was there before is none to which a frame has moved
  have hfresh {e : Nat} {env : Env} (henv : env.ClosedIn m.heap)
      (h : Env.moved target (.onStack e) = env) : False := by
    rw [Env.moved] at h
    cases ht : target e with
    | none =>
      rw [ht] at h
      subst h
      exact henv
    | some q =>
      rw [ht] at h
      subst h
      have := hw.fresh e q ht
      exact absurd henv (Nat.not_lt.2 this)
  have hclosed {env : Env} (henv : env.ClosedIn m.heap) : env.moved target = env := by
    cases env with
    | onStack => exact henv.elim
    | _ => rfl
  rcases ha with ha | ⟨e, rfl⟩ <;> rcases hb with hb | ⟨e', rfl⟩
  · rwa [hclosed ha, hclosed hb] at h
  · rw [hclosed ha] at h
    exact (hfresh ha h.symm).elim
  · rw [hclosed hb] at h
    exact (hfresh hb h).elim
  · simp only [Env.moved] at h
    cases ht : target e with
    | none =>
      cases ht' : target e' with
      | none => simpa [ht, ht'] using h
      | some q' => simp [ht, ht'] at h
    | some q =>
      cases ht' : target e' with
      | none => simp [ht, ht'] at h
      | some q' =>
        simp only [ht, ht', Env.onHeap.injEq, Ref.mk.injEq] at h
        subst h
        rw [hw.inj e e' q ht ht']

theorem Moved.home?_eq_iff (hw : Moved segs target m m') (hm : Arranged segs m) {a b : Env}
    (ha : EnvIn m.heap segs a) (hb : EnvIn m.heap segs b) :
    m'.home? a = m'.home? b ↔ m.home? a = m.home? b := by
  obtain ⟨x, hx, hx', hxin⟩ := hw.resolve hm ha
  obtain ⟨y, hy, hy', hyin⟩ := hw.resolve hm hb
  have hhome {w : Machine} {env home : Env} (h : w.resolve env = .ok home) :
      w.home? env = if home = .empty then none else some home := by
    rw [home?, h]
    cases home <;> rfl
  have hempty {env : Env} : env.moved target = .empty ↔ env = .empty := by
    cases env with
    | empty => rfl
    | onHeap => simp [Env.moved]
    | onStack e => cases ht : target e <;> simp [Env.moved, ht]
  rw [hhome hx, hhome hy, hhome hx', hhome hy']
  have hinj := hw.moved_inj hxin hyin
  by_cases hxe : x = .empty <;> by_cases hye : y = .empty <;> simp [hempty, hxe, hye, hinj]

/-- A continuation is the same one as before or a copy of it. Where nothing was left to do, the
machine may halt by an object. -/
def SameOrCopied (segs : List Segment) (m m' : Machine) (x y : Cont) : Prop :=
  ContIn m.heap segs x ∧ (y = x ∨ Copied m' x y) ∨ x = .empty ∧ m'.caller y = (.empty, .empty)

theorem Copied.of_same {x y : Cont} (h : Copied m x y) (hs : m'.stack = m.stack)
    (hsp : m'.sp = m.sp) (hh : m'.heap = m.heap) : Copied m' x y := by
  induction h with
  | same h => exact .same h
  | @point c p k env prev owner hp hr _ hk ih =>
    have hp' : m'.returnPoint c = .ok p := by
      rw [← hp]
      simp only [returnPoint, position?, cell, hs, hsp]
    have hr' : m'.resolve p.env = .ok env := by
      rw [← hr]
      cases p.env <;> simp only [Machine.resolve, descriptor, descriptor?, position?, hs]
    exact .point hp' hr' ih (by rw [hh, hs, hk])

theorem Moved.carries (hw : Moved segs target m m') (hsp : m'.sp = m.sp) (hm : Arranged segs m) :
    Carries (fun a b => EnvIn m.heap segs a ∧ m'.resolve b = m'.resolve a)
      (SameOrCopied segs m m') m m' where
  heap := hw.heap
  linked := hm.linked
  env_closed _ h := ⟨.closed h, rfl⟩
  cont_closed _ h := .inl ⟨.closed h, .inl rfl⟩
  frames := by
    rintro a b ⟨ha, hb⟩
    rw [frame?_congr hb]
    exact hw.frame?_rel hm ha
  homes := by
    rintro a b a' b' ⟨ha, hb⟩ ⟨ha', hb'⟩
    rw [home?_congr hb, home?_congr hb']
    exact hw.home?_eq_iff hm ha ha'
  callers := by
    have hempty : EnvIn m.heap segs .empty ∧ m'.resolve .empty = m'.resolve .empty :=
      ⟨.closed trivial, rfl⟩
    rintro x y (⟨hx, rfl | hy⟩ | ⟨rfl, hy⟩)
    · have hin := hm.caller hx
      rw [hw.caller hsp hm hx]
      exact ⟨⟨hin.1, rfl⟩, .inl ⟨hin.2, .inl rfl⟩⟩
    · have hin := hm.caller hx
      cases hy with
      | same =>
        rw [hw.caller hsp hm hx]
        exact ⟨⟨hin.1, rfl⟩, .inl ⟨hin.2, .inl rfl⟩⟩
      | @point c p k env prev owner hp hres hprev hk =>
        have hsame := hw.caller hsp hm hx
        rw [caller_point hp] at hsame
        rw [← hsame] at hin ⊢
        rw [caller_object hk]
        exact ⟨⟨hin.1, (resolve_idem hres).trans hres.symm⟩, .inl ⟨hin.2, .inr hprev⟩⟩
    · rw [hy]
      exact ⟨hempty, .inr ⟨rfl, rfl⟩⟩

/-! ## Handles on the heap -/

theorem Heap.Linked.carries (hl : m.heap.Linked) (hg : m.heap.Grown m'.heap) :
    Carries (fun a b => a = b ∧ a.ClosedIn m.heap) (fun x y => x = y ∧ x.ClosedIn m.heap) m m' where
  heap := hg
  linked := hl
  env_closed _ h := ⟨rfl, h⟩
  cont_closed _ h := ⟨rfl, h⟩
  frames := by
    rintro a _ ⟨rfl, ha⟩
    cases a with
    | empty => exact .none
    | onStack => exact ha.elim
    | onHeap r =>
      have hf := Array.getElem?_eq_getElem ha
      rw [frame?_onHeap, frame?_onHeap, hf, hg.frames _ _ hf]
      exact .some ⟨rfl, rfl, hl.frames _ (Array.mem_of_getElem? hf)⟩
  homes := by
    rintro a _ b _ ⟨rfl, ha⟩ ⟨rfl, hb⟩
    rw [home?, home?, home?, home?, ha.resolve, hb.resolve, ha.resolve, hb.resolve]
  callers := by
    rintro x _ ⟨rfl, hx⟩
    cases x with
    | empty => exact ⟨⟨rfl, trivial⟩, rfl, trivial⟩
    | onStack => exact hx.elim
    | onHeap k =>
      obtain ⟨c, hk⟩ := hx.exists_continuation
      obtain ⟨henv, hprev⟩ := hl.continuations c (Heap.mem_of_continuation hk)
      rw [caller_object hk, caller_object (hg.continuation hk)]
      exact ⟨⟨rfl, henv⟩, rfl, hprev⟩

/-! ## Segments that stay -/

/-- What is arranged in the segments is the same in both machines. -/
structure SameSegments (sub : List Segment) (m m' : Machine) : Prop where
  heap : m'.heap = m.heap
  inside : ∀ env, EnvIn m.heap sub env → env = .empty ∨
    ∃ f, m.frame? env = some f ∧ EnvIn m.heap sub f.parent
  frames : ∀ env, EnvIn m.heap sub env → m'.frame? env = m.frame? env
  resolve : ∀ env, EnvIn m.heap sub env → m'.resolve env = m.resolve env
  callers : ∀ cont, ContIn m.heap sub cont → m'.caller cont = m.caller cont ∧
    EnvIn m.heap sub (m.caller cont).1 ∧ ContIn m.heap sub (m.caller cont).2

theorem Arranged.caller_eq (hm : Arranged segs m) {cont : Cont} (hc : ContIn m.heap segs cont)
    (hsp : m.sp ≤ m'.sp) (hcells : ∀ i < m.sp, m'.stack[i]? = m.stack[i]?)
    (hheap : m'.heap = m.heap) : m'.caller cont = m.caller cont := by
  cases cont with
  | empty => rfl
  | onHeap k => rw [Machine.caller, Machine.caller, hheap]
  | onStack c =>
    obtain ⟨start, count, id, rest, p, rfl, hs, hle, hp, hpoint⟩ := hm.pointIn hc
    have hp' := (hpoint.congr (fun i _ hi => hcells i (by omega)) (.refl _)).returnPoint
      (hle.trans hsp)
    rw [caller_point hp, caller_point hp']

theorem Arranged.sameSegments (hm : Arranged segs m) (hsp : m.sp ≤ m'.sp)
    (hsize : m'.stack.size = m.stack.size) (hcells : ∀ i < m.sp, m'.stack[i]? = m.stack[i]?)
    (hheap : m'.heap = m.heap) : SameSegments segs m m' where
  heap := hheap
  inside _ he := hm.frame? he
  frames _ he := hm.frame?_eq he hsize hcells (hheap ▸ .refl _)
  resolve _ he := hm.resolve_eq he hcells
  callers _ hc := ⟨hm.caller_eq hc hsp hcells hheap, hm.caller hc⟩

theorem SameSegments.symm (h : SameSegments sub m m') : SameSegments sub m' m := by
  have hheap := h.heap
  exact
    { heap := hheap.symm
      inside := fun env he => by
        rw [hheap] at he ⊢
        rw [h.frames env he]
        exact h.inside env he
      frames := fun env he => (h.frames env (hheap ▸ he)).symm
      resolve := fun env he => (h.resolve env (hheap ▸ he)).symm
      callers := fun cont hc => by
        rw [hheap] at hc ⊢
        rw [(h.callers cont hc).1]
        exact ⟨rfl, (h.callers cont hc).2⟩ }

theorem SameSegments.carries (h : SameSegments sub m m') (hl : m.heap.Linked) :
    Carries (fun a b => m.resolve a = m.resolve b ∧ EnvIn m.heap sub b)
      (fun x y => x = y ∧ ContIn m.heap sub x) m m' where
  heap := by
    rw [h.heap]
    exact .refl _
  linked := hl
  env_closed _ he := ⟨rfl, .closed he⟩
  cont_closed _ hc := ⟨rfl, .closed hc⟩
  frames := by
    rintro a b ⟨hab, hb⟩
    rw [frame?_congr hab, h.frames b hb]
    rcases h.inside b hb with rfl | ⟨f, hf, hp⟩
    · exact .none
    · rw [hf]
      exact .some ⟨rfl, rfl, hp⟩
  homes := by
    rintro a b a' b' ⟨hab, hb⟩ ⟨hab', hb'⟩
    have hsame {env : Env} (he : EnvIn m.heap sub env) : m'.home? env = m.home? env := by
      rw [home?, home?, h.resolve env he]
    rw [hsame hb, hsame hb', home?_congr hab, home?_congr hab']
  callers := by
    rintro x _ ⟨rfl, hx⟩
    obtain ⟨heq, henv, hprev⟩ := h.callers x hx
    rw [heq]
    exact ⟨⟨rfl, henv⟩, rfl, hprev⟩

end LispMachine
