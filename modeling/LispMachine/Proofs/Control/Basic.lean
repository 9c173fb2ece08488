import LispMachine.Proofs.Evaluation
import Mathlib.Logic.Function.Iterate

/-! # The machine step by step

A host procedure that calls back waits until the call is over, and meanwhile the machine may come to
further calls. Here everything that waits is listed, and the machine goes on in small steps: one
instruction, one application, one request of a host procedure or one turn of a loop at a time.
-/

namespace LispMachine

open Machine

/-- A call from the host that has not ended yet. The result is for the host procedure that goes on
with `next`, or it leaves the machine. -/
structure Waiting where
  id : Nat
  ip : Nat
  argc : Nat
  sp : Nat
  outermost : Bool
  next : Option (Except Fault Value → Script Outcome)

inductive Context
  /-- Nothing does. -/
  | outside
  /-- The loop of a whole run. -/
  | run
  /-- The loop of a call, and outside of it what waits for the host procedure that called. -/
  | call (w : Waiting) (outer : Context)

namespace Context

def active : Context → List Nat
  | call w k => w.id :: k.active
  | _ => []

def running : Context → Bool
  | outside => false
  | run => true
  | call _ k => k.running

end Context

inductive Activity
  /-- The innermost loop takes its turn. -/
  | loop
  /-- The innermost call passes its arguments. -/
  | enter (callee : Value) (args : List Value)
  /-- The accumulator is applied. -/
  | apply
  /-- A host procedure is at work. -/
  | script (s : Script Outcome)
  /-- The machine returns to the caller. -/
  | ret
  /-- An instruction or an application has failed. -/
  | fault (f : Fault)
  /-- The innermost call is over. -/
  | leave (outcome : Except Fault Unit)
  /-- Everything is over. -/
  | ended (outcome : Except Stop Value)

structure Configuration where
  machine : Machine
  context : Context
  activity : Activity

namespace Machine

def awake (m : Machine) : Machine := { m with runnable := m.hosts.isIdle || m.runnable }

def waitingFor (m : Machine) (next : Option (Except Fault Value → Script Outcome)) (id sp : Nat) :
    Waiting :=
  { id, ip := m.ip, argc := m.argc, sp, outermost := m.hosts.isIdle, next }

def beginWaiting (next : Option (Except Fault Value → Script Outcome)) : Exec Waiting := do
  let m ← get
  set m.awake
  let id ← beginCall
  return m.waitingFor next id (← get).sp

def endWaiting (w : Waiting) (outcome : Except Fault Unit) : Exec Value :=
  endCall w.outermost w.id w.ip w.argc w.sp outcome

def enterProcedure (r : Ref .procedure) : Exec (Script Outcome) := do
  let p ← query (·.heap.procedure r)
  enterFrame p.arity
  return p.body

/-- Makes a continuation the one to return through, with the one argument as the result. -/
def handOver (r : Ref .continuation) : Exec Unit := do
  checkArgc 1 1
  setAcc (← pop)
  let owner := (← query (·.heap.continuation r)).owner
  modify fun m => { m with hosts := m.hosts.noteEntry owner, cont := .onHeap r }

/-- Makes the item of a list that the one argument counts the result. -/
def pickItem {σ : Type} [Storage σ] (list : Value) : EStateM Stop σ Unit := do
  enterFrame (.fixed 1)
  match ← query fun s : σ => Storage.readSlot s 0 0 with
  | .fixnum index => setAcc (← query fun s => (HasRegisters.registers s).heap.nth list index)
  | v => raise (.wrongArgumentType "list index" "fixnum" v.typeName)

theorem enterContinuation_eq (r : Ref .continuation) :
    enterContinuation r = (do handOver r; ret) := by
  simp only [enterContinuation, handOver, bind_assoc]

theorem enterList_eq {σ : Type} [Storage σ] (list : Value) :
    enterList list = (do pickItem list; Storage.ret : EStateM Stop σ Unit) := by
  simp only [enterList, pickItem, bind_assoc]
  refine bind_congr fun _ => bind_congr fun v => ?_
  cases v with
  | fixnum index => simp only [bind_assoc]
  | _ => rfl

def carryOut (n : Nat) : Outcome → Exec Unit
  | .value v => do
    setAcc v
    ret
  | .tailCall callee args => do
    passArguments callee args
    apply n

def startRun (m : Machine) : Machine := { m with hosts.running := true }

def endRun (outcome : Except Fault Unit) : Exec Value := do
  match outcome with
  | .ok () =>
    modify ({ · with hosts.running := false })
    return (← get).acc
  | .error f =>
    modify ({ · with runnable := false, hosts.escape := none, hosts.running := false })
    raise f

end Machine

/-- Goes on with `next`, unless there was a fault. -/
def Activity.unlessFault {α : Type} (next : α → Activity) : Except Fault α → Activity
  | .ok a => next a
  | .error f => .fault f

/-- Goes on when a call has passed its arguments, or could not. -/
def Activity.entered : Except Fault Unit → Activity
  | .ok () => .apply
  | .error f => .leave (.error f)

namespace Configuration

variable {α : Type}

def ended (m : Machine) (outcome : Except Stop Value) : Configuration :=
  ⟨m, .outside, .ended outcome⟩

/-- Goes on after an operation. Only faults can be dealt with. -/
def settle (k : Context) (next : Except Fault α → Activity) :
    EStateM.Result Stop Machine α → Configuration
  | .ok a m => ⟨m, k, next (.ok a)⟩
  | .error (.fault f) m => ⟨m, k, next (.error f)⟩
  | .error s m => ended m (.error s)

def conclude : EStateM.Result Stop Machine Value → Configuration
  | .ok v m => ended m (.ok v)
  | .error s m => ended m (.error s)

def reply (k : Context) : Option (Except Fault Value → Script Outcome) →
    EStateM.Result Stop Machine Value → Configuration
  | some next, r => settle k (fun reply => .script (next reply)) r
  | none, r => conclude r

def begin (k : Context) (next : Option (Except Fault Value → Script Outcome)) (callee : Value)
    (args : List Value) : EStateM.Result Stop Machine Waiting → Configuration
  | .ok w m => ⟨m, .call w k, .enter callee args⟩
  | .error s m => reply k next (.error s m)

/-- An instruction is executed. Applying and returning are steps of their own. -/
def instruct (m : Machine) (k : Context) : Configuration :=
  match m.opcode? with
  | some .apply => settle k (.unlessFault fun _ => .apply) (stepWith (pure ()) m)
  | some .ret => ⟨m.fetched, k, .ret⟩
  | _ => settle k (.unlessFault fun _ => .loop) (stepWith (pure ()) m)

def turned (m : Machine) : Context → Configuration
  | .call w k =>
    let (turn, hosts) := m.hosts.turn m.runnable w.id
    match turn with
    | .done => ⟨{ m with hosts }, .call w k, .leave (.ok ())⟩
    | .unwind => ⟨{ m with hosts }, .call w k, .leave (.error .unwound)⟩
    | .step => instruct { m with hosts } (.call w k)
  | .run => if m.runnable then instruct m .run else conclude (endRun (.ok ()) m)
  | .outside => ended m (.ok m.acc)

def applied (m : Machine) (k : Context) : Configuration :=
  match m.acc with
  | .closure r => settle k (.unlessFault fun _ => .loop) (enterClosure r m)
  | .continuation r => settle k (.unlessFault fun _ => .ret) (handOver r m)
  | .pair r => settle k (.unlessFault fun _ => .ret) (pickItem (.pair r) m)
  | .procedure r => settle k (.unlessFault .script) (enterProcedure r m)
  | v => ⟨m, k, .fault (.typeError "apply" v.typeName)⟩

def worked (m : Machine) (k : Context) : Script Outcome → Configuration
  | .done (.value v) => ⟨{ m with acc := v }, k, .ret⟩
  | .done (.tailCall callee args) =>
    settle k (.unlessFault fun _ => .apply) (passArguments callee args m)
  | .fail f => ⟨m, k, .fault f⟩
  | .ask (.call callee args) next => begin k (some next) callee args (beginWaiting (some next) m)
  | .ask q next =>
    settle k (fun reply => .script (next reply)) (answer (fun _ _ => throw .stuck) q m)

def failed (m : Machine) (f : Fault) : Context → Configuration
  | .call w k => ⟨m, .call w k, if f = .unwound then .loop else .leave (.error f)⟩
  | .run =>
    if f = .unwound ∧ (!m.runnable ∨ m.hosts.escape = some .run) then
      ⟨{ m with hosts.escape := none }, .run, .loop⟩
    else conclude (endRun (.error f) m)
  | .outside => ended m (.error (.fault f))

def left (m : Machine) (outcome : Except Fault Unit) : Context → Configuration
  | .call w k => reply k w.next (endWaiting w outcome m)
  | _ => ended m (.error .stuck)

def advance (c : Configuration) : Configuration :=
  match c.activity with
  | .loop => turned c.machine c.context
  | .enter callee args =>
    settle c.context .entered (passArguments callee args c.machine)
  | .apply => applied c.machine c.context
  | .script s => worked c.machine c.context s
  | .ret => settle c.context (.unlessFault fun _ => .loop) (Machine.ret c.machine)
  | .fault f => failed c.machine f c.context
  | .leave outcome => left c.machine outcome c.context
  | .ended _ => c

def Reaches (c c' : Configuration) : Prop := ∃ n, advance^[n] c = c'

end Configuration

inductive Task
  | step
  | apply
  | run
  | call (callee : Value) (args : List Value)

namespace Task

/-- Carries out the task. Where there is no other result, it is the accumulator. -/
def exec (n : Nat) : Task → Exec Value
  | step => do
    Machine.step n
    return (← get).acc
  | apply => do
    Machine.apply n
    return (← get).acc
  | run => do
    Machine.run n
    return (← get).acc
  | call callee args => Machine.call n callee args

def start (m : Machine) : Task → Configuration
  | step => .instruct m .outside
  | apply => ⟨m, .outside, .apply⟩
  | run =>
    if m.runnable then ⟨m.startRun, .run, .loop⟩
    else .ended m (.error (.fault .notRunnable))
  | call callee args => .begin .outside none callee args (beginWaiting none m)

end Task

end LispMachine
