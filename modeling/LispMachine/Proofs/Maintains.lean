import LispMachine.Proofs.Avoids
import LispMachine.Proofs.Preserves

/-! # What operations maintain

An operation maintains a relation between machines if, however it ends, the machine that it leaves
is related to the one before. It has nothing to do with host calls or halting, and it does not fail
with the faults in question. Moving frames and return points to the heap maintains every relation
that does not look there, and so does making room.
-/

namespace LispMachine

open Fault (isControl isUnwound)

/-- The continuation is not the marker of a host call. -/
def Continuation.IsPlain (k : Continuation) : Prop := ∀ id, k.resume ≠ .host id

namespace Machine

/-- A relation between machines that does not look at the cells of the stack, nor at what moves from
there to the heap. -/
class CellBlind (R : Machine → Machine → Prop) : Prop extends IsPreorder Machine R where
  cells (m : Machine) (stack : Array Value) : stack.size = m.stack.size → R m { m with stack }
  frame (m : Machine) (f : Frame) : R m { m with heap := (m.heap.addFrame f).2 }
  continuation {m : Machine} {k : Continuation} : k.IsPlain → m.ownerOf k.prev = .ok k.owner →
    R m { m with heap := (m.heap.addContinuation k).2 }

/-- A relation that does not look at the registers either that name something on the stack. -/
class StackBlind (R : Machine → Machine → Prop) : Prop extends CellBlind R where
  registers (m : Machine) (sp bp : Nat) (env : Env) (cont : Cont) : R m { m with sp, bp, env, cont }

abbrev RelatedTo {α : Type} (R : Machine → Machine → Prop) (m : Machine)
    (r : EStateM.Result Stop Machine α) : Prop := R m (final r)

/-- Changes the machine that an operation leaves. -/
def onFinal {α : Type} (g : Machine → Machine) :
    EStateM.Result Stop Machine α → EStateM.Result Stop Machine α
  | .ok a m => .ok a (g m)
  | .error e m => .error e (g m)

theorem final_onFinal {α : Type} (g : Machine → Machine) (r : EStateM.Result Stop Machine α) :
    final (onFinal g r) = g (final r) := by
  cases r <;> rfl

structure Maintains {α : Type} (bad : Fault → Bool) (R : Machine → Machine → Prop)
    (x : Exec α) : Prop extends Preserves R x where
  avoids {m m' : Machine} {f : Fault} : x m = .error (.fault f) m' → bad f = false
  oblivious (m : Machine) (hosts : HostCalls) (runnable : Bool) :
    x { m with hosts, runnable } = onFinal ({ · with hosts, runnable }) (x m)

/-! ## Operations in sequence -/

section Sequence

variable {α β : Type} {bad : Fault → Bool} {R : Machine → Machine → Prop} {x : Exec α}
  {f : α → Exec β} {m m' : Machine}

namespace Maintains

theorem ok (h : Maintains bad R x) {a : α} (hx : x m = .ok a m') : R m m' := by
  have hm := h.related m
  rwa [hx] at hm

theorem error (h : Maintains bad R x) {e : Stop} (hx : x m = .error e m') : R m m' := by
  have hm := h.related m
  rwa [hx] at hm

theorem unwound (h : Maintains isControl R x) : Maintains isUnwound R x where
  toPreserves := h.toPreserves
  avoids {m m' f} hx := by
    refine Bool.eq_false_iff.2 fun hf => ?_
    cases (h.avoids hx).symm.trans (Fault.isControl_of_isUnwound hf)
  oblivious := h.oblivious

theorem ne_unwound (h : Maintains isUnwound R x) (m m' : Machine) :
    x m ≠ .error (.fault .unwound) m' := by
  intro hx
  cases h.avoids hx

theorem final_eq (h : Maintains bad R x) (m : Machine) :
    final (x m) = { final (x m) with hosts := m.hosts, runnable := m.runnable } := by
  have hx := congrArg final (h.oblivious m m.hosts m.runnable)
  rwa [final_onFinal] at hx

theorem hosts_eq (h : Maintains bad R x) (m : Machine) : (final (x m)).hosts = m.hosts := by
  rw [h.final_eq m]

theorem runnable_eq (h : Maintains bad R x) (m : Machine) :
    (final (x m)).runnable = m.runnable := by
  rw [h.final_eq m]

theorem bind [IsPreorder Machine R] (hx : Maintains bad R x) (hf : ∀ a, Maintains bad R (f a)) :
    Maintains bad R (x >>= f) where
  toPreserves := hx.toPreserves.bind fun a => (hf a).toPreserves
  avoids {m m' e} h := by
    cases hm : x m with
    | error s m₁ =>
      rw [bind_error hm] at h
      cases h
      exact hx.avoids hm
    | ok a m₁ =>
      rw [bind_ok hm] at h
      exact (hf a).avoids h
  oblivious m hosts runnable := by
    have hm' := hx.oblivious m hosts runnable
    cases hm : x m with
    | error e m₁ =>
      rw [hm] at hm'
      rw [bind_error hm, bind_error hm', onFinal]
    | ok a m₁ =>
      rw [hm] at hm'
      rw [bind_ok hm, bind_ok hm']
      exact (hf a).oblivious m₁ hosts runnable

theorem get {f : Machine → Exec α}
    (hsame : ∀ m hosts runnable, f { m with hosts, runnable } = f m)
    (hf : ∀ m, Maintains bad R (f m)) : Maintains bad R (get >>= f) where
  related m := (hf m).related m
  avoids {m _ _} := (hf m).avoids
  oblivious m hosts runnable := by
    rw [get_bind_apply, hsame]
    exact (hf m).oblivious m hosts runnable

theorem ite {c : Prop} [Decidable c] {y : Exec α} (hx : Maintains bad R x)
    (hy : Maintains bad R y) : Maintains bad R (if c then x else y) := by
  split
  · exact hx
  · exact hy

end Maintains

section Preorder

variable [IsPreorder Machine R]

theorem maintains_pure (a : α) : Maintains bad R (pure a) where
  toPreserves := preserves_pure a
  avoids h := by cases h
  oblivious _ _ _ := rfl

theorem maintains_raise {f : Fault} (hf : bad f = false) : Maintains bad R (raise f : Exec α) where
  toPreserves := preserves_raise f
  avoids h := by
    cases h
    exact hf
  oblivious _ _ _ := rfl

theorem maintains_query {φ : Machine → Except Stop α}
    (hsame : ∀ m hosts runnable, φ { m with hosts, runnable } = φ m)
    (hφ : ∀ m, Avoids bad (φ m)) : Maintains bad R (query φ) where
  toPreserves := preserves_query φ
  avoids {m m' f} h := by
    cases hm : φ m with
    | ok a =>
      rw [query_ok hm] at h
      cases h
    | error s =>
      rw [query, hm] at h
      cases h
      exact hφ m f hm
  oblivious m hosts runnable := by
    rw [query, query, hsame]
    cases φ m <;> rfl

theorem Maintains.forM {l : List α} {f : α → Exec Unit} (hf : ∀ a, Maintains bad R (f a)) :
    Maintains bad R (l.forM f) := by
  induction l with
  | nil => exact maintains_pure _
  | cons a l ih => exact (hf a).bind fun _ => ih

theorem Maintains.foldrM {l : List α} {f : α → β → Exec β} (hf : ∀ a b, Maintains bad R (f a b))
    (b : β) : Maintains bad R (l.foldrM f b) := by
  induction l with
  | nil => exact maintains_pure _
  | cons a l ih =>
    rw [List.foldrM_cons]
    exact ih.bind fun b => hf a b

end Preorder

theorem maintains_modifyGet {g : Machine → α × Machine}
    (hsame : ∀ m hosts runnable,
      g { m with hosts, runnable } = ((g m).1, { (g m).2 with hosts, runnable }))
    (hg : ∀ m, R m (g m).2) : Maintains bad R (modifyGet g) where
  related := hg
  avoids h := by cases h
  oblivious m hosts runnable := by
    rw [modifyGet_apply, hsame]
    rfl

theorem maintains_modify {g : Machine → Machine}
    (hsame : ∀ m hosts runnable, g { m with hosts, runnable } = { g m with hosts, runnable })
    (hg : ∀ m, R m (g m)) : Maintains bad R (modify g) where
  related := hg
  avoids h := by cases h
  oblivious m hosts runnable := by
    rw [modify_apply, hsame]
    rfl

end Sequence

/-! ## The stack and the heap -/

section Cells

variable {bad : Fault → Bool} {R : Machine → Machine → Prop} [CellBlind R]

theorem maintains_cells {c : Machine → Prop} [∀ m, Decidable (c m)] {g : Machine → Array Value}
    (hc : ∀ m hosts runnable, c { m with hosts, runnable } ↔ c m)
    (hg : ∀ m hosts runnable, g { m with hosts, runnable } = g m)
    (hsize : ∀ m, (g m).size = m.stack.size) :
    Maintains bad R fun m => if c m then .ok () { m with stack := g m } else .error .stuck m where
  related m := by
    by_cases h : c m
    · simp only [if_pos h]
      exact CellBlind.cells m _ (hsize m)
    · simp only [if_neg h]
      exact refl_of R m
  avoids {m m' f} hf := by
    by_cases h : c m <;> simp [h] at hf
  oblivious m hosts runnable := by
    by_cases h : c m
    · simp only [if_pos h, if_pos ((hc m hosts runnable).2 h), hg]
      rfl
    · simp only [if_neg h, if_neg (mt (hc m hosts runnable).1 h)]
      rfl

theorem maintains_writeCell (i : Nat) (v : Value) : Maintains bad R (writeCell i v) :=
  maintains_cells (fun _ _ _ => .rfl) (fun _ _ _ => rfl) fun _ => Array.size_setIfInBounds

theorem maintains_clearCells (lo hi : Nat) : Maintains bad R (clearCells lo hi) :=
  maintains_cells (fun _ _ _ => .rfl) (fun _ _ _ => rfl) fun _ => Cells.size_clear

theorem maintains_slideCells (target source n : Nat) :
    Maintains bad R (slideCells target source n) :=
  maintains_cells (fun _ _ _ => .rfl) (fun _ _ _ => rfl) fun _ => Cells.size_slide

theorem maintains_readCells (lo hi : Nat) : Maintains isControl R (query (·.cells lo hi)) :=
  maintains_query (fun _ _ _ => rfl) fun m => m.avoids_cells lo hi

theorem maintains_distance (hi lo : Nat) : Maintains isControl R (query fun _ => distance hi lo) :=
  maintains_query (fun _ _ _ => rfl) fun _ => avoids_distance hi lo

theorem maintains_newFrame (f : Frame) : Maintains bad R (newFrame f) :=
  maintains_modifyGet (fun _ _ _ => rfl) fun m => CellBlind.frame m f

theorem maintains_promoteFrame (f : LiveFrame) (parent : Env) :
    Maintains isControl R (promoteFrame f parent) := by
  refine (maintains_readCells ..).bind fun slots => ?_
  refine (maintains_newFrame _).bind fun r => ?_
  exact (maintains_writeCell ..).bind fun _ => maintains_pure _

theorem liveFrames_same (m : Machine) (hosts : HostCalls) (runnable : Bool) (n : Nat) (env : Env) :
    ({ m with hosts, runnable } : Machine).liveFrames n env = m.liveFrames n env := by
  induction n generalizing env with
  | zero => cases env <;> rfl
  | succ n ih =>
    cases env with
    | onStack e => simp only [liveFrames, ih]; rfl
    | _ => rfl

theorem maintains_promoteEnv (env : Env) : Maintains isControl R (promoteEnv env) := by
  refine .bind ?_ fun frames => .foldrM maintains_promoteFrame _
  exact maintains_query (fun _ _ _ => liveFrames_same ..) fun m => m.avoids_liveFrames _ env

/-- The new continuation has the owner of the one that comes next. -/
theorem maintains_newCodeContinuation (saved : Array Value) (prev : Cont) (env : Env) (ip : Nat) :
    Maintains isControl R (newCodeContinuation saved prev env ip) where
  related m := by
    rw [newCodeContinuation]
    cases ho : m.ownerOf prev with
    | error e =>
      rw [query_bind_error ho]
      exact refl_of R m
    | ok owner =>
      rw [query_bind_ok ho]
      exact CellBlind.continuation (fun id h => by cases h) ho
  avoids {m m' f} h := by
    rw [newCodeContinuation] at h
    cases ho : m.ownerOf prev with
    | error e =>
      rw [query_bind_error ho] at h
      cases h
      exact m.avoids_ownerOf prev f ho
    | ok owner =>
      rw [query_bind_ok ho] at h
      cases h
  oblivious m hosts runnable := by
    have ho' : ({ m with hosts, runnable } : Machine).ownerOf prev = m.ownerOf prev := rfl
    rw [newCodeContinuation]
    cases ho : m.ownerOf prev with
    | error e =>
      rw [query_bind_error ho, query_bind_error (ho'.trans ho), onFinal]
    | ok owner =>
      rw [query_bind_ok ho, query_bind_ok (ho'.trans ho)]
      rfl

theorem maintains_newHalting : Maintains bad R (newContinuation .halting) :=
  maintains_modifyGet (fun _ _ _ => rfl) fun _ =>
    CellBlind.continuation (fun id h => by cases h) rfl

theorem maintains_promoteReturnPoint (point : Nat × ReturnPoint) (prev : Cont) :
    Maintains isControl R (promoteReturnPoint point prev) := by
  refine (maintains_promoteEnv _).bind fun env => ?_
  refine (maintains_distance ..).bind fun top => ?_
  refine (maintains_readCells ..).bind fun saved => ?_
  exact (maintains_newCodeContinuation ..).bind fun r => maintains_pure _

theorem returnPoints_same (m : Machine) (hosts : HostCalls) (runnable : Bool) (n : Nat)
    (cont : Cont) :
    ({ m with hosts, runnable } : Machine).returnPoints n cont = m.returnPoints n cont := by
  induction n generalizing cont with
  | zero => cases cont <;> rfl
  | succ n ih =>
    cases cont with
    | onStack c => simp only [returnPoints, ih]; rfl
    | _ => rfl

theorem maintains_promoteCont (cont : Cont) : Maintains isControl R (promoteCont cont) := by
  refine .bind ?_ fun points => .foldrM maintains_promoteReturnPoint _
  exact maintains_query (fun _ _ _ => returnPoints_same ..) fun m => m.avoids_returnPoints _ cont

end Cells

section Stack

variable {bad : Fault → Bool} {R : Machine → Machine → Prop} [StackBlind R]

theorem maintains_registers {g : Machine → Machine}
    (hsame : ∀ m hosts runnable, g { m with hosts, runnable } = { g m with hosts, runnable })
    (hg : ∀ m, g m = { m with
      sp := (g m).sp, bp := (g m).bp, env := (g m).env, cont := (g m).cont }) :
    Maintains bad R (modify g) := by
  refine maintains_modify hsame fun m => ?_
  rw [hg m]
  exact StackBlind.registers ..

theorem maintains_setEnv (env : Env) :
    Maintains bad R (modify ({ · with env } : Machine → Machine)) :=
  maintains_registers (fun _ _ _ => rfl) fun _ => rfl

theorem maintains_setCont (cont : Cont) :
    Maintains bad R (modify ({ · with cont } : Machine → Machine)) :=
  maintains_registers (fun _ _ _ => rfl) fun _ => rfl

theorem maintains_promoteCurrent : Maintains isControl R promoteCurrent := by
  refine .get (fun _ _ _ => rfl) fun m => ?_
  refine (maintains_promoteEnv m.env).bind fun env => ?_
  exact (maintains_setEnv env).bind fun _ => maintains_pure env

theorem maintains_capture : Maintains isControl R capture := by
  refine .get (fun _ _ _ => rfl) fun m => ?_
  refine (maintains_promoteCont m.cont).bind fun cont => ?_
  have hset (r : Ref .continuation) : Maintains isControl R (do
      modify fun m => { m with cont := .onHeap r }
      return r) :=
    (maintains_setCont (.onHeap r)).bind fun _ => maintains_pure r
  cases cont with
  | empty => exact maintains_newHalting.bind hset
  | onHeap r => exact hset r
  | onStack c => exact (maintains_raise rfl).bind hset

theorem maintains_reclaim : Maintains isControl R reclaim := by
  refine .get (fun _ _ _ => rfl) fun m => .get (fun _ _ _ => rfl) fun m' => ?_
  refine (maintains_promoteEnv _).bind fun env => (maintains_setEnv env).bind fun _ => ?_
  refine .get (fun _ _ _ => rfl) fun m'' => ?_
  refine (maintains_promoteCont _).bind fun cont => (maintains_setCont cont).bind fun _ => ?_
  split
  · exact maintains_raise rfl
  · exact maintains_raise rfl
  · refine .get (fun _ _ _ => rfl) fun m₁ => .get (fun _ _ _ => rfl) fun m₂ => ?_
    refine .ite ?_ (maintains_pure _)
    refine (maintains_slideCells ..).bind fun _ => ?_
    exact maintains_registers (fun _ _ _ => rfl) fun _ => rfl

theorem maintains_makeRoom (n : Nat) {overflow : Fault} (h : overflow.isControl = false) :
    Maintains isControl R (makeRoom n overflow) := by
  refine .get (fun _ _ _ => rfl) fun m => .ite ?_ (maintains_pure _)
  refine maintains_reclaim.bind fun _ => .get (fun _ _ _ => rfl) fun m' => ?_
  exact .ite (maintains_raise h) (maintains_pure _)

theorem maintains_push (v : Value) : Maintains isControl R (push v) := by
  refine (maintains_makeRoom 1 rfl).bind fun _ => .get (fun _ _ _ => rfl) fun m => ?_
  refine (maintains_writeCell ..).bind fun _ => ?_
  exact maintains_registers (fun _ _ _ => rfl) fun _ => rfl

theorem maintains_pushAll (vs : List Value) : Maintains isControl R (pushAll vs) :=
  .forM maintains_push

theorem maintains_pop : Maintains isControl R pop := by
  refine .get (fun _ _ _ => rfl) fun m => ?_
  cases m.sp with
  | zero => exact maintains_raise rfl
  | succ sp =>
    refine (maintains_query (fun _ _ _ => rfl) fun m => avoids_present _).bind fun v => ?_
    refine (maintains_writeCell ..).bind fun _ => .bind ?_ fun _ => maintains_pure v
    exact maintains_registers (fun _ _ _ => rfl) fun _ => rfl

theorem maintains_top : Maintains isControl R top := by
  refine .get (fun _ _ _ => rfl) fun m => ?_
  cases m.sp with
  | zero => exact maintains_raise rfl
  | succ sp => exact maintains_query (fun _ _ _ => rfl) fun m => avoids_present _

end Stack

/-! ## Registers -/

def SameRegisters (m w : Machine) : Prop := w = { m with stack := w.stack, heap := w.heap }

namespace SameRegisters

variable {m w w' : Machine}

theorem refl (m : Machine) : SameRegisters m m := rfl

theorem trans (h : SameRegisters m w) (h' : SameRegisters w w') : SameRegisters m w' := by
  unfold SameRegisters at h h' ⊢
  rw [h', h]

theorem sp (h : SameRegisters m w) : w.sp = m.sp := by rw [h]

theorem bp (h : SameRegisters m w) : w.bp = m.bp := by rw [h]

theorem env (h : SameRegisters m w) : w.env = m.env := by rw [h]

theorem cont (h : SameRegisters m w) : w.cont = m.cont := by rw [h]

end SameRegisters

instance : CellBlind SameRegisters where
  refl := .refl
  trans _ _ _ := .trans
  cells _ _ _ := rfl
  frame _ _ := rfl
  continuation _ _ := rfl

end Machine

end LispMachine
