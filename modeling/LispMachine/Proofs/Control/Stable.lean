import LispMachine.Proofs.Control.Basic
import LispMachine.Proofs.Control.Scripts
import LispMachine.Proofs.Maintains
import LispMachine.Proofs.Performing

/-! # Operations that leave the host calls alone

Most operations have nothing to do with the calls from the host. They neither change what is known
about the calls in progress nor leave markers, and the continuations that they make have the owners
of those that come next. They maintain every relation between machines that does not look at what a
program works with.
-/

namespace LispMachine

open Fault (isControl isUnwound)

/-! ## Frames -/

def Heap.FramesKept (h h' : Heap) : Prop := ∀ (q : Nat) (f : Frame), h.frames[q]? = some f →
  ∃ f' : Frame, h'.frames[q]? = some f' ∧ f'.parent = f.parent ∧ f'.slots.size = f.slots.size

namespace Heap.FramesKept

variable {h h' h'' : Heap}

theorem of_same (hf : h'.frames = h.frames) : h.FramesKept h' :=
  fun _ f hq => ⟨f, hf ▸ hq, rfl, rfl⟩

theorem trans (hh : h.FramesKept h') (hh' : h'.FramesKept h'') : h.FramesKept h'' := by
  intro q f hf
  obtain ⟨f', hf', hparent, hsize⟩ := hh q f hf
  obtain ⟨f'', hf'', hparent', hsize'⟩ := hh' q f' hf'
  exact ⟨f'', hf'', hparent'.trans hparent, hsize'.trans hsize⟩

theorem addFrame (f : Frame) : h.FramesKept (h.addFrame f).2 := by
  intro q f' hf'
  have hq : q < h.frames.size := (Array.getElem?_eq_some_iff.1 hf').1
  refine ⟨f', ?_, rfl, rfl⟩
  rw [Heap.addFrame, Array.getElem?_push, if_neg (by omega), hf']

theorem writeSlot (q index : Nat) (v : Value) : h.FramesKept { h with
    frames := h.frames.modify q fun f => { f with slots := f.slots.setIfInBounds index v } } := by
  intro q' f hf
  simp only [Array.getElem?_modify, hf]
  split
  · exact ⟨_, rfl, rfl, Array.size_setIfInBounds⟩
  · exact ⟨f, rfl, rfl, rfl⟩

end Heap.FramesKept

namespace Machine

/-- All that operations other than calls do to the host calls. The host may also install
procedures. -/
structure Proceeds (m m' : Machine) : Prop where
  hosts : m'.hosts = m.hosts
  procedures : ∀ p ∈ m'.heap.procedures, p ∈ m.heap.procedures ∨ p.body.PropagatesFaults
  kept {r : Ref .continuation} {k : Continuation} :
    m.heap.continuation r = .ok k → m'.heap.continuation r = .ok k
  added {r : Ref .continuation} {k : Continuation} : m'.heap.continuation r = .ok k →
    m.heap.continuation r = .ok k ∨ k.IsPlain ∧ m'.ownerOf k.prev = .ok k.owner

theorem ownerOf_mono {m m' : Machine}
    (h : ∀ {r k}, m.heap.continuation r = .ok k → m'.heap.continuation r = .ok k) {cont : Cont}
    {o : Option Nat} (ho : m.ownerOf cont = .ok o) : m'.ownerOf cont = .ok o := by
  cases cont with
  | onHeap r =>
    cases hk : m.heap.continuation r with
    | error e => simp [ownerOf, hk, bind, Except.bind] at ho
    | ok k =>
      simp only [ownerOf, hk] at ho
      simpa only [ownerOf, h hk] using ho
  | _ => exact ho

namespace Proceeds

variable {m m' m'' : Machine}

theorem of_same (hh : m'.hosts = m.hosts) (hp : m'.heap.procedures = m.heap.procedures)
    (hc : m'.heap.continuations = m.heap.continuations) : Proceeds m m' where
  hosts := hh
  procedures p h := .inl (hp ▸ h)
  kept h := by rwa [Heap.continuation, hc]
  added h := .inl (by rwa [Heap.continuation, hc] at h)

theorem refl (m : Machine) : Proceeds m m := of_same rfl rfl rfl

theorem trans (h : Proceeds m m') (h' : Proceeds m' m'') : Proceeds m m'' where
  hosts := h'.hosts.trans h.hosts
  procedures p hp := by
    rcases h'.procedures p hp with hp | hp
    · exact h.procedures p hp
    · exact .inr hp
  kept hk := h'.kept (h.kept hk)
  added hk := by
    rcases h'.added hk with hk | hk
    · rcases h.added hk with hk | ⟨hplain, howner⟩
      · exact .inl hk
      · exact .inr ⟨hplain, ownerOf_mono h'.kept howner⟩
    · exact .inr hk

end Proceeds

/-- All that the operations of a program do to the host calls and to what it may return to. Only the
slots of a frame are written to. -/
structure Continues (m m' : Machine) : Prop extends Proceeds m m' where
  same : m'.heap.procedures = m.heap.procedures
  frames : m.heap.FramesKept m'.heap

namespace Continues

variable {m m' m'' : Machine}

theorem of_same (hh : m'.hosts = m.hosts) (hp : m'.heap.procedures = m.heap.procedures)
    (hc : m'.heap.continuations = m.heap.continuations)
    (hf : m'.heap.frames = m.heap.frames) : Continues m m' :=
  ⟨.of_same hh hp hc, hp, .of_same hf⟩

theorem refl (m : Machine) : Continues m m := of_same rfl rfl rfl rfl

theorem trans (h : Continues m m') (h' : Continues m' m'') : Continues m m'' :=
  ⟨h.toProceeds.trans h'.toProceeds, h'.same.trans h.same, h.frames.trans h'.frames⟩

end Continues

/-! ## Host calls -/

variable {m m' : Machine}

theorem continuation_addContinuation {h : Heap} {c k : Continuation} {r : Ref .continuation} :
    (h.addContinuation c).2.continuation r = .ok k ↔
      h.continuation r = .ok k ∨ r.index = h.continuations.size ∧ k = c := by
  simp only [Heap.continuation_eq_ok, Heap.addContinuation, Array.getElem?_push]
  grind

/-- A new continuation has the owner of the one that comes next. -/
theorem Proceeds.addContinuation {k : Continuation} (hk : k.IsPlain)
    (ho : m.ownerOf k.prev = .ok k.owner) :
    Proceeds m { m with heap := (m.heap.addContinuation k).2 } := by
  have hkept {r : Ref .continuation} {c : Continuation} (h : m.heap.continuation r = .ok c) :
      (m.heap.addContinuation k).2.continuation r = .ok c :=
    continuation_addContinuation.2 (.inl h)
  refine ⟨rfl, fun p hp => .inl hp, hkept, fun {r c} h => ?_⟩
  rcases continuation_addContinuation.1 h with h | ⟨-, rfl⟩
  · exact .inl h
  · exact .inr ⟨hk, ownerOf_mono hkept ho⟩

/-- The machines differ only in the values that a program works with. They agree on the host calls,
the instruction that is being executed, the number of cells, the procedures, the continuations and
what frames there are. -/
structure WorkOnly (m m' : Machine) : Prop where
  hosts : m'.hosts = m.hosts
  ip : m'.ip = m.ip
  current : m'.current = m.current
  capacity : m'.capacity = m.capacity
  procedures : m'.heap.procedures = m.heap.procedures
  continuations : m'.heap.continuations = m.heap.continuations
  frames : m.heap.FramesKept m'.heap

/-- A relation that does not look at the values either that a program works with. -/
class WorkBlind (R : Machine → Machine → Prop) : Prop extends StackBlind R where
  work {m m' : Machine} : WorkOnly m m' → R m m'

/-- A relation that does not look at where the code goes on. -/
class PointerBlind (R : Machine → Machine → Prop) : Prop where
  pointer (m : Machine) (ip : Nat) : R m { m with ip }

instance : WorkBlind Proceeds where
  refl := .refl
  trans _ _ _ := .trans
  cells _ _ _ := .of_same rfl rfl rfl
  registers _ _ _ _ _ := .of_same rfl rfl rfl
  frame _ _ := .of_same rfl rfl rfl
  continuation := .addContinuation
  work h := .of_same h.hosts h.procedures h.continuations

instance : PointerBlind Proceeds where
  pointer _ _ := .of_same rfl rfl rfl

instance : WorkBlind Continues where
  refl := .refl
  trans _ _ _ := .trans
  cells _ _ _ := .of_same rfl rfl rfl rfl
  registers _ _ _ _ _ := .of_same rfl rfl rfl rfl
  frame _ f := ⟨.of_same rfl rfl rfl, rfl, .addFrame f⟩
  continuation hk ho := ⟨.addContinuation hk ho, rfl, .of_same rfl⟩
  work h := ⟨.of_same h.hosts h.procedures h.continuations, h.procedures, h.frames⟩

instance : PointerBlind Continues where
  pointer _ _ := .of_same rfl rfl rfl rfl

abbrev Stable {α : Type} (x : Exec α) : Prop := Maintains isUnwound Continues x

abbrev ContinuesTo {α : Type} (m : Machine) (r : EStateM.Result Stop Machine α) : Prop :=
  RelatedTo Continues m r

/-! ## Registers and objects -/

section Work

variable {bad : Fault → Bool} {R : Machine → Machine → Prop} [WorkBlind R]

theorem maintains_workRegisters {g : Machine → Machine}
    (hsame : ∀ m hosts runnable, g { m with hosts, runnable } = { g m with hosts, runnable })
    (hg : ∀ m, g m = { m with
      sp := (g m).sp, bp := (g m).bp, env := (g m).env, cont := (g m).cont, acc := (g m).acc
      argc := (g m).argc, globals := (g m).globals }) : Maintains bad R (modify g) := by
  refine maintains_modify hsame fun m => ?_
  rw [hg m]
  exact WorkBlind.work ⟨rfl, rfl, rfl, rfl, rfl, rfl, .of_same rfl⟩

theorem maintains_setAcc (v : Value) : Maintains bad R (setAcc v) :=
  maintains_workRegisters (fun _ _ _ => rfl) fun _ => rfl

theorem maintains_setArgc (n : Nat) : Maintains bad R (setArgc n) :=
  maintains_workRegisters (fun _ _ _ => rfl) fun _ => rfl

theorem maintains_allocate {α : Type} {add : Heap → α × Heap}
    (hp : ∀ h, (add h).2.procedures = h.procedures)
    (hc : ∀ h, (add h).2.continuations = h.continuations) (hf : ∀ h, (add h).2.frames = h.frames) :
    Maintains bad R (allocate add) := by
  refine maintains_modifyGet (fun _ _ _ => rfl) fun m => WorkBlind.work ?_
  exact ⟨rfl, rfl, rfl, rfl, hp m.heap, hc m.heap, .of_same (hf m.heap)⟩

theorem maintains_newPair (p : Pair) : Maintains bad R (newPair p) :=
  maintains_allocate (fun _ => rfl) (fun _ => rfl) fun _ => rfl

theorem maintains_newVector (items : List Value) : Maintains bad R (newVector items) :=
  maintains_allocate (fun _ => rfl) (fun _ => rfl) fun _ => rfl

theorem maintains_newClosure (c : Closure) : Maintains bad R (newClosure c) :=
  maintains_allocate (fun _ => rfl) (fun _ => rfl) fun _ => rfl

theorem maintains_cons (car cdr : Value) : Maintains bad R (cons car cdr) :=
  (maintains_newPair _).bind fun _ => maintains_pure _

theorem maintains_replace {α : Type} {o : Machine → Option α} {g : Machine → Machine}
    (ho : ∀ m hosts runnable, o { m with hosts, runnable } = o m)
    (hsame : ∀ m hosts runnable, g { m with hosts, runnable } = { g m with hosts, runnable })
    (hg : ∀ m, WorkOnly m (g m)) :
    Maintains bad R (do
      let _ ← query fun m => present (o m)
      modify g) := by
  refine .bind ?_ fun _ => maintains_modify hsame fun m => WorkBlind.work (hg m)
  exact maintains_query (fun m hosts runnable => by rw [ho]) fun m => avoids_present _

theorem maintains_setCar (cell v : Value) : Maintains isControl R (setCar cell v) := by
  cases cell with
  | pair r =>
    exact maintains_replace (fun _ _ _ => rfl) (fun _ _ _ => rfl) fun _ =>
      ⟨rfl, rfl, rfl, rfl, rfl, rfl, .of_same rfl⟩
  | _ => exact maintains_raise rfl

theorem maintains_setCdr (cell v : Value) : Maintains isControl R (setCdr cell v) := by
  cases cell with
  | pair r =>
    exact maintains_replace (fun _ _ _ => rfl) (fun _ _ _ => rfl) fun _ =>
      ⟨rfl, rfl, rfl, rfl, rfl, rfl, .of_same rfl⟩
  | _ => exact maintains_raise rfl

theorem maintains_setVector (r : Ref .vector) (items : List Value) :
    Maintains bad R (setVector r items) :=
  maintains_replace (fun _ _ _ => rfl) (fun _ _ _ => rfl) fun _ =>
    ⟨rfl, rfl, rfl, rfl, rfl, rfl, .of_same rfl⟩

theorem maintains_define (name : String) (v : Value) : Maintains bad R (define name v) := by
  unfold define
  split
  · exact maintains_workRegisters (fun _ _ _ => rfl) fun _ => rfl
  · exact maintains_pure _

theorem Heap.chain_same (h : Heap) (items : List Value) (tail : Value) :
    (h.chain items tail).2.procedures = h.procedures ∧
      (h.chain items tail).2.continuations = h.continuations ∧
      (h.chain items tail).2.frames = h.frames := by
  induction items with
  | nil => exact ⟨rfl, rfl, rfl⟩
  | cons item items ih => exact ih

theorem maintains_chain (items : List Value) (tail : Value) : Maintains bad R (chain items tail) :=
  maintains_allocate (fun h => (Heap.chain_same h items tail).1)
    (fun h => (Heap.chain_same h items tail).2.1) fun h => (Heap.chain_same h items tail).2.2

theorem maintains_splice (list tail : Value) : Maintains isControl R (splice list tail) := by
  refine .bind ?_ fun items => maintains_chain items tail
  exact maintains_query (fun _ _ _ => rfl) fun m => m.heap.avoids_items list

theorem maintains_writeHeapSlot (r : Ref .frame) (index : Nat) (v : Value) :
    Maintains isControl R (writeHeapSlot r index v) := by
  refine (maintains_query (fun _ _ _ => rfl) fun m => avoids_present _).bind fun f => ?_
  refine .ite (maintains_modify (fun _ _ _ => rfl) fun m => ?_) (maintains_raise rfl)
  exact WorkBlind.work ⟨rfl, rfl, rfl, rfl, rfl, rfl, .writeSlot r.index index v⟩

theorem slotsAt_same (m : Machine) (hosts : HostCalls) (runnable : Bool) (env : Env) (depth : Nat) :
    ({ m with hosts, runnable } : Machine).slotsAt env depth = m.slotsAt env depth := by
  induction depth generalizing env with
  | zero => rfl
  | succ depth ih => simp only [slotsAt, ih]; rfl

theorem readSlot_same (m : Machine) (hosts : HostCalls) (runnable : Bool) (depth index : Nat) :
    ({ m with hosts, runnable } : Machine).readSlot depth index = m.readSlot depth index := by
  simp only [readSlot, slotsAt_same]
  rfl

theorem maintains_readSlot (depth index : Nat) :
    Maintains isControl R (query (·.readSlot depth index)) :=
  maintains_query (fun _ _ _ => readSlot_same ..) fun m => m.avoids_readSlot depth index

theorem maintains_writeSlot (depth index : Nat) (v : Value) :
    Maintains isControl R (writeSlot depth index v) := by
  refine .bind (maintains_query (fun _ _ _ => slotsAt_same ..) fun m => m.avoids_slotsAt _ depth) ?_
  intro slots
  cases slots with
  | onStack start count => exact .ite (maintains_writeCell ..) (maintains_raise rfl)
  | onHeap r => exact maintains_writeHeapSlot ..

/-! ## Activations -/

theorem maintains_pushHeapFrame (taken extra : Nat) :
    Maintains isControl R (pushHeapFrame taken extra) := by
  refine maintains_promoteCurrent.bind fun parent => .get (fun _ _ _ => rfl) fun m => ?_
  refine (maintains_distance ..).bind fun start => (maintains_readCells ..).bind fun slots => ?_
  refine (maintains_clearCells ..).bind fun _ => (maintains_newFrame _).bind fun r => ?_
  exact maintains_registers (fun _ _ _ => rfl) fun _ => rfl

theorem maintains_pushFrame (taken extra : Nat) :
    Maintains isControl R (pushFrame taken extra) := by
  refine .get (fun _ _ _ => rfl) fun m => .ite (maintains_raise rfl) ?_
  refine .ite (maintains_pushHeapFrame ..) ?_
  refine (maintains_pushAll _).bind fun _ => ?_
  refine .get (fun _ _ _ => rfl) fun m₁ => .get (fun _ _ _ => rfl) fun m₂ => ?_
  refine (maintains_distance ..).bind fun start => ?_
  refine (maintains_push _).bind fun _ => (maintains_push _).bind fun _ => ?_
  refine (maintains_push _).bind fun _ => ?_
  exact maintains_registers (fun _ _ _ => rfl) fun _ => rfl

theorem maintains_popOnto (n : Nat) (list : Value) : Maintains isControl R (popOnto n list) := by
  induction n generalizing list with
  | zero => exact maintains_pure _
  | succ n ih => exact maintains_pop.bind fun v => (maintains_cons v list).bind fun list => ih list

theorem maintains_checkArgc (least most : Nat) : Maintains isControl R (checkArgc least most) := by
  refine .get (fun _ _ _ => rfl) fun m => .ite (maintains_raise rfl) ?_
  exact .ite (maintains_raise rfl) (maintains_pure _)

theorem maintains_enterFrame (a : Arity) : Maintains isControl R (enterFrame a) := by
  refine .get (fun _ _ _ => rfl) fun m => .ite ?_ ?_
  · refine (maintains_checkArgc ..).bind fun _ => (maintains_popOnto ..).bind fun rest => ?_
    exact (maintains_pushFrame ..).bind fun _ => maintains_writeSlot ..
  · refine (maintains_checkArgc ..).bind fun _ => (maintains_distance ..).bind fun missing => ?_
    exact maintains_pushFrame ..

theorem maintains_reuseFrame (n : Nat) : Maintains isControl R (reuseFrame n) := by
  refine .get (fun _ _ _ => rfl) fun m => ?_
  cases m.env with
  | empty => exact maintains_pure _
  | _ =>
    refine (maintains_query (fun _ _ _ => rfl) fun m => m.avoids_innermost _).bind fun slots => ?_
    obtain ⟨slots, parent⟩ := slots
    cases slots with
    | onHeap r => exact maintains_setEnv parent
    | onStack start count =>
      refine .get (fun _ _ _ => rfl) fun m => .ite (maintains_raise rfl) ?_
      refine (maintains_slideCells ..).bind fun _ => ?_
      exact maintains_registers (fun _ _ _ => rfl) fun _ => rfl

theorem maintains_relative (offset : Int) : Maintains isUnwound R (query (·.relative offset)) :=
  maintains_query (fun _ _ _ => rfl) fun m => m.avoids_relative offset

def leaveReturnPoint (target : Nat) : Exec Unit := do
  makeRoom 4 .continuationOverflow
  push (.fixnum target)
  push (.fixnum (← get).bp)
  push (← get).env.toValue
  push (← get).cont.toValue
  modify fun m => { m with cont := .onStack m.sp }

theorem maintains_leaveReturnPoint (target : Nat) :
    Maintains isControl R (leaveReturnPoint target) := by
  refine (maintains_makeRoom 4 rfl).bind fun _ => (maintains_push _).bind fun _ => ?_
  refine .get (fun _ _ _ => rfl) fun m => (maintains_push _).bind fun _ => ?_
  refine .get (fun _ _ _ => rfl) fun m => (maintains_push _).bind fun _ => ?_
  refine .get (fun _ _ _ => rfl) fun m => (maintains_push _).bind fun _ => ?_
  exact maintains_registers (fun _ _ _ => rfl) fun _ => rfl

theorem maintains_pushReturnPoint (offset : Int) :
    Maintains isUnwound R (pushReturnPoint offset) :=
  (maintains_relative offset).bind fun target => (maintains_leaveReturnPoint target).unwound

def closeOver (entry : Nat) : Exec Unit := do
  let env ← promoteCurrent
  setAcc (.closure (← newClosure { env, entry }))

theorem maintains_closeOver (entry : Nat) : Maintains isControl R (closeOver entry) := by
  refine maintains_promoteCurrent.bind fun env => ?_
  exact (maintains_newClosure _).bind fun r => maintains_setAcc _

theorem maintains_passArguments (callee : Value) (args : List Value) :
    Maintains isControl R (passArguments callee args) := by
  refine (maintains_setArgc _).bind fun _ => ?_
  exact (maintains_pushAll args).bind fun _ => maintains_setAcc callee

theorem maintains_enterProcedure (r : Ref .procedure) :
    Maintains isControl R (enterProcedure r) := by
  refine (maintains_query (fun _ _ _ => rfl) fun m => avoids_present _).bind fun p => ?_
  exact (maintains_enterFrame p.arity).bind fun _ => maintains_pure _

theorem maintains_pickItem (list : Value) : Maintains isControl R (pickItem list) := by
  refine (maintains_enterFrame _).bind fun _ => (maintains_readSlot 0 0).bind fun v => ?_
  cases v with
  | fixnum index =>
    refine .bind ?_ fun v => maintains_setAcc v
    exact maintains_query (fun _ _ _ => rfl) fun m => m.heap.avoids_nth list index
  | _ => exact maintains_raise rfl

theorem maintains_answer {q : Request} (hq : ∀ callee args, q ≠ .call callee args)
    (call : Value → List Value → Exec Value) : Maintains isControl R (answer call q) := by
  cases q with
  | call callee args => exact absurd rfl (hq callee args)
  | capture => exact maintains_capture.bind fun r => maintains_pure _
  | pair car cdr => exact maintains_cons car cdr
  | vector items => exact (maintains_newVector items).bind fun r => maintains_pure _
  | slot depth index => exact maintains_readSlot depth index
  | setSlot depth index v => exact maintains_writeSlot depth index v
  | global name => exact maintains_query (fun _ _ _ => rfl) fun _ => avoids_ok _
  | define name v => exact maintains_define name v
  | setCar cell v => exact maintains_setCar cell v
  | setCdr cell v => exact maintains_setCdr cell v
  | elements r => exact maintains_query (fun _ _ _ => rfl) fun _ => avoids_present _
  | setElements r items => exact maintains_setVector r items
  | items list => exact maintains_query (fun _ _ _ => rfl) fun m => m.heap.avoids_items list
  | car v => exact maintains_query (fun _ _ _ => rfl) fun m => m.heap.avoids_car v
  | cdr v => exact maintains_query (fun _ _ _ => rfl) fun m => m.heap.avoids_cdr v

/-! ## Instructions without a target -/

theorem maintains_unary {op : Heap → Value → Except Stop Value} (hop : ∀ h v, Avoids bad (op h v)) :
    Maintains bad R (unary op) := by
  refine .bind ?_ fun v => maintains_setAcc v
  exact maintains_query (fun _ _ _ => rfl) fun m => hop m.heap m.acc

theorem maintains_binary {op : Value → Value → Except Fault Value} (hop : Value.OnNumbers op) :
    Maintains isControl R (binary op) := by
  refine maintains_pop.bind fun a => .get (fun _ _ _ => rfl) fun m => ?_
  cases h : op a m.acc with
  | ok v => exact maintains_setAcc v
  | error f => exact maintains_raise (hop a m.acc f h)

theorem maintains_update {change : Value → Value → Exec Unit}
    (hchange : ∀ cell v, Maintains isControl R (change cell v)) :
    Maintains isControl R (update change) := by
  refine maintains_pop.bind fun cell => .get (fun _ _ _ => rfl) fun m => ?_
  exact (hchange cell m.acc).bind fun _ => maintains_setAcc cell

/-- An instruction that replaces the accumulator by what `f` makes of it and of the top value. -/
theorem maintains_combine {f : Value → Value → Exec Value}
    (hf : ∀ v acc, Maintains isControl R (f v acc)) :
    Maintains isControl R (do
      let v ← pop
      setAcc (← f v (← get).acc)) := by
  refine maintains_pop.bind fun v => .get (fun _ _ _ => rfl) fun m => ?_
  exact (hf v m.acc).bind fun w => maintains_setAcc w

theorem maintains_execute_plain {op : Opcode} (hlayout : op.layout = .none) (hret : op ≠ .ret)
    (hhalt : op ≠ .halt) (apply : Exec Unit) : Maintains isControl R (execute apply op) := by
  cases op with
  | ret => exact absurd rfl hret
  | halt => exact absurd rfl hhalt
  | nop => exact maintains_pure _
  | push => exact .get (fun _ _ _ => rfl) fun m => maintains_push m.acc
  | pop => exact maintains_pop.bind fun v => maintains_setAcc v
  | not =>
    rw [execute]
    exact maintains_unary fun _ _ => avoids_ok _
  | loadTrue => exact maintains_setAcc _
  | loadNil => exact maintains_setAcc _
  | add => exact maintains_binary Value.onNumbers_add
  | sub => exact maintains_binary Value.onNumbers_sub
  | mul => exact maintains_binary Value.onNumbers_mul
  | div => exact maintains_binary Value.onNumbers_div
  | same =>
    rw [execute]
    exact maintains_binary Value.onNumbers_same
  | cons => exact maintains_combine maintains_cons
  | consReversed => exact maintains_combine fun v acc => maintains_cons acc v
  | splice => exact maintains_combine fun v acc => maintains_splice acc v
  | car => exact maintains_unary Heap.avoids_car
  | cdr => exact maintains_unary Heap.avoids_cdr
  | partCar => exact maintains_unary (avoids_part Heap.avoids_car)
  | partCdr => exact maintains_unary (avoids_part Heap.avoids_cdr)
  | setCar => exact maintains_update maintains_setCar
  | setCdr => exact maintains_update maintains_setCdr
  | dup => exact maintains_top.bind fun v => maintains_setAcc v
  | _ => cases hlayout

theorem maintains_performWord (n : Int) {op : Opcode} (hlayout : op.layout = .word)
    (hop : op.isRelative = false) : Maintains isControl R (performWord n op) := by
  have hname : Maintains isControl R (query (·.literalName n)) :=
    maintains_query (fun _ _ _ => rfl) fun m => m.avoids_literalName n
  cases op with
  | loadLiteral =>
    refine .bind ?_ fun v => maintains_setAcc v
    exact maintains_query (fun _ _ _ => rfl) fun m => m.avoids_literal n
  | loadInteger => exact maintains_setAcc _
  | loadGlobal =>
    refine hname.bind fun name => .bind ?_ fun v => maintains_setAcc v
    exact maintains_query (fun _ _ _ => rfl) fun m => avoids_orFault rfl _
  | storeGlobal =>
    refine hname.bind fun name => ?_
    exact maintains_workRegisters (fun _ _ _ => rfl) fun _ => rfl
  | closure | jump | jumpTrue | jumpFalse | jumpBound | returnPoint => cases hop
  | _ => cases hlayout

theorem maintains_performByte (n : Nat) {op : Opcode} (hop : op ≠ .apply) (apply : Exec Unit) :
    Maintains isControl R (performByte apply n op) := by
  cases op with
  | apply => exact absurd rfl hop
  | reuseFrame => exact maintains_reuseFrame n
  | loadLocal => exact (maintains_readSlot 0 n).bind fun v => maintains_setAcc v
  | _ => exact .get (fun _ _ _ => rfl) fun m => maintains_writeSlot 0 n m.acc

theorem maintains_performPair (depth index : Nat) (op : Opcode) :
    Maintains isControl R (performPair depth index op) := by
  cases op with
  | loadOuter => exact (maintains_readSlot depth index).bind fun v => maintains_setAcc v
  | _ => exact .get (fun _ _ _ => rfl) fun m => maintains_writeSlot depth index m.acc

/-! ## Going on elsewhere -/

variable [PointerBlind R]

omit [WorkBlind R] in
theorem maintains_setIp (ip : Nat) : Maintains bad R (setIp ip) :=
  maintains_modify (fun _ _ _ => rfl) fun m => PointerBlind.pointer m ip

theorem maintains_enterClosure (r : Ref .closure) : Maintains isControl R (enterClosure r) := by
  refine (maintains_query (fun _ _ _ => rfl) fun m => avoids_present _).bind fun c => ?_
  refine maintains_modify (fun _ _ _ => rfl) fun m => ?_
  have henv : R m { m with env := c.env } := StackBlind.registers m m.sp m.bp c.env m.cont
  exact trans_of R henv (PointerBlind.pointer _ c.entry)

theorem maintains_fetchByte : Maintains isControl R fetchByte := by
  refine .get (fun _ _ _ => rfl) fun m => ?_
  dsimp only
  split
  · exact (maintains_setIp _).bind fun _ => maintains_pure _
  · exact maintains_raise rfl

theorem maintains_fetchWord : Maintains isControl R fetchWord := by
  refine .get (fun _ _ _ => rfl) fun m => ?_
  dsimp only
  split
  · exact (maintains_setIp _).bind fun _ => maintains_pure _
  · exact maintains_raise rfl

theorem maintains_branch (wanted : Value → Bool) (offset : Int) :
    Maintains isUnwound R (branch wanted offset) := by
  refine .get (fun _ _ _ => rfl) fun m => .ite ?_ (maintains_pure _)
  exact (maintains_relative offset).bind fun ip => maintains_setIp ip

theorem maintains_performRelative (n : Int) {op : Opcode} (hop : op.isRelative = true) :
    Maintains isUnwound R (performWord n op) := by
  cases op with
  | closure =>
    exact (maintains_relative n).bind fun entry => (maintains_closeOver entry).unwound
  | returnPoint => exact maintains_pushReturnPoint n
  | jump | jumpTrue | jumpFalse | jumpBound => exact maintains_branch _ n
  | _ => cases hop

/-- Of the instructions only returning and halting have to do with host calls. -/
theorem maintains_execute {op : Opcode} (hret : op ≠ .ret) (hhalt : op ≠ .halt) {x : Exec Unit}
    (hx : op = .apply → Maintains isUnwound R x) : Maintains isUnwound R (execute x op) := by
  cases hlayout : op.layout with
  | none => exact (maintains_execute_plain hlayout hret hhalt x).unwound
  | word =>
    rw [execute_word hlayout]
    refine maintains_fetchWord.unwound.bind fun n => ?_
    cases hop : op.isRelative with
    | true => exact maintains_performRelative n hop
    | false => exact (maintains_performWord n hlayout hop).unwound
  | byte =>
    rw [execute_byte hlayout]
    refine maintains_fetchByte.unwound.bind fun a => ?_
    by_cases hop : op = .apply
    · rw [hop]
      exact (maintains_setArgc _).bind fun _ => hx hop
    · exact (maintains_performByte _ hop x).unwound
  | pair =>
    rw [execute_pair hlayout]
    refine maintains_fetchByte.unwound.bind fun a => maintains_fetchByte.unwound.bind fun b => ?_
    exact (maintains_performPair ..).unwound
  | triple =>
    rw [execute_triple hlayout]
    refine maintains_fetchByte.unwound.bind fun a => maintains_fetchByte.unwound.bind fun b => ?_
    exact maintains_fetchByte.unwound.bind fun c => (maintains_enterFrame _).unwound

end Work

theorem stepWith_of_halt {x : Exec Unit} (h : m.opcode? = some .halt) :
    stepWith x m = .ok () { m.fetched with runnable := false } := stepWith_of_opcode h

theorem continues_stepWith (hop : m.opcode? ≠ some .ret) : ContinuesTo m (stepWith (pure ()) m) ∧
    ∀ m', stepWith (pure ()) m ≠ .error (.fault .unwound) m' := by
  have hfetched : Continues m m.fetched := .of_same rfl rfl rfl rfl
  cases h : m.opcode? with
  | some op =>
    by_cases hhalt : op = .halt
    · rw [stepWith_of_halt (hhalt ▸ h)]
      exact ⟨.of_same rfl rfl rfl rfl, fun m' h => by cases h⟩
    · rw [stepWith_of_opcode h]
      have hexec : Stable (execute (pure ()) op) :=
        maintains_execute (fun hret => hop (hret ▸ h)) hhalt fun _ => maintains_pure _
      exact ⟨hfetched.trans (hexec.related _), hexec.ne_unwound _⟩
  | none =>
    rw [stepWith_of_none h]
    cases m.code[m.ip]? with
    | none => exact ⟨.of_same rfl rfl rfl rfl, fun m' h => by cases h⟩
    | some b => exact ⟨.of_same rfl rfl rfl rfl, fun m' h => by cases h⟩

end Machine

end LispMachine
