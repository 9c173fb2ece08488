import LispMachine.Machine.Activation
import LispMachine.Machine.Step

/-! # Calls and runs

The accumulator is applied to the `argc` values on top of the stack. A host procedure may call back
into the machine; then a loop of its own runs until the callee returns through a marker that was
left for it. A continuation that belongs to an outer loop makes all inner calls end.

Instructions and calls may go on forever, so they are given a number `n` of steps and are unfinished
if that does not suffice. A larger number never changes a result.
-/

namespace LispMachine.Machine

variable {σ : Type} [Storage σ]

open HasRegisters

/-! ## Host procedures -/

/-- Answers a request, where `call` calls back into the machine. -/
def answer (call : Value → List Value → EStateM Stop σ Value) :
    (q : Request) → EStateM Stop σ q.Reply
  | .slot depth index => query (Storage.readSlot · depth index)
  | .setSlot depth index v => Storage.writeSlot depth index v
  | .global name => query fun s => .ok ((registers s).global? name)
  | .define name v => define name v
  | .call callee args => call callee args
  | .capture => do return .continuation (← Storage.capture)
  | .items list => query fun s => (registers s).heap.items list
  | .car v => query fun s => (registers s).heap.car v
  | .cdr v => query fun s => (registers s).heap.cdr v
  | .setCar cell v => setCar cell v
  | .setCdr cell v => setCdr cell v
  | .pair car cdr => cons car cdr
  | .elements r => query fun s => (registers s).heap.vector r
  | .setElements r items => setVector r items
  | .vector items => do return .vector (← newVector items)

def runScript {α : Type} (call : Value → List Value → EStateM Stop σ Value) :
    Script α → EStateM Stop σ α
  | .done a => pure a
  | .fail f => raise f
  | .ask q next => do
    let reply ← attempt (answer call q)
    runScript call (next reply)

/-! ## Applying -/

def enterClosure (r : Ref .closure) : EStateM Stop σ Unit := do
  let c ← query fun s : σ => (registers s).heap.closure r
  adjust ({ · with ip := c.entry, env := c.env })

/-- Returns the item of a list that the one argument counts. -/
def enterList (list : Value) : EStateM Stop σ Unit := do
  enterFrame (.fixed 1)
  match ← query fun s : σ => Storage.readSlot s 0 0 with
  | .fixnum index =>
    setAcc (← query fun s => (registers s).heap.nth list index)
    Storage.ret
  | v => raise (.wrongArgumentType "list index" "fixnum" v.typeName)

def passArguments (callee : Value) (args : List Value) : EStateM Stop σ Unit := do
  setArgc args.length
  Storage.pushAll args
  setAcc callee

/-- Goes on after a loop was left, and fails in all other ways that `x` does. -/
def passUnwound (x : EStateM Stop σ Unit) : EStateM Stop σ Unit := do
  match ← attempt x with
  | .ok () | .error .unwound => pure ()
  | .error f => raise f

mutual

def apply : Nat → EStateM Stop σ Unit
  | 0 => throw .unfinished
  | n + 1 => do
    match (registers (← get)).acc with
    | .closure r => enterClosure r
    | .continuation r => Storage.enterContinuation r
    | .pair r => enterList (.pair r)
    | .procedure r =>
      let p ← query fun s => (registers s).heap.procedure r
      enterFrame p.arity
      match ← runScript (call n) p.body with
      | .value v =>
        setAcc v
        Storage.ret
      | .tailCall callee args =>
        passArguments callee args
        apply n
    | v => raise (.typeError "apply" v.typeName)

/-- Calls a procedure from the host and waits for its result. -/
def call : Nat → Value → List Value → EStateM Stop σ Value
  | 0, _, _ => throw .unfinished
  | n + 1, callee, args => do
    let r := registers (← get)
    if r.hosts.isIdle then adjust ({ · with runnable := true })
    let id ← Storage.beginCall
    let mark := Storage.mark (← get)
    let outcome ← attempt (callLoop n id callee args)
    Storage.endCall r.hosts.isIdle id r.ip r.argc mark outcome

def callLoop : Nat → Nat → Value → List Value → EStateM Stop σ Unit
  | 0, _, _, _ => throw .unfinished
  | n + 1, id, callee, args => do
    passArguments callee args
    passUnwound (apply n)
    awaitReturn n id

/-- Executes instructions until the host call `id` has its result. -/
def awaitReturn : Nat → Nat → EStateM Stop σ Unit
  | 0, _ => throw .unfinished
  | n + 1, id => do
    let turn ← modifyGet fun s =>
      let (turn, hosts) := (registers s).hosts.turn (registers s).runnable id
      (turn, withRegisters s { registers s with hosts })
    match turn with
    | .done => pure ()
    | .unwind => raise .unwound
    | .step =>
      passUnwound (stepWith (apply n))
      awaitReturn n id

end

/-! ## Frames that the host asks for -/

/-- Builds a frame from the `taken` values on top and `extra` unbound slots, however many the host
asks for. There is no frame with too many. -/
def makeFrame (taken extra : Nat) : Exec Unit := do
  if (← get).sp < taken then raise .stackUnderflow
  else if taken + extra < Arity.slotLimit then pushFrame taken extra
  else
    let _ ← promoteCurrent
    throw .stuck

def buildFrame (a : Arity) : Exec Unit := layOutFrame makeFrame a

/-! ## Running -/

def step (n : Nat) : EStateM Stop σ Unit := stepWith (apply n)

def runLoop : Nat → EStateM Stop σ Unit
  | 0 => throw .unfinished
  | n + 1 => do
    if (registers (← get)).runnable then
      match ← attempt (step n) with
      | .ok () => runLoop n
      | .error f =>
        let r := registers (← get)
        if f = .unwound ∧ (!r.runnable ∨ r.hosts.escape = some .run) then
          adjust ({ · with hosts.escape := none })
          runLoop n
        else stopWith f

/-- Runs the machine until it halts or a fault stops it. -/
def run (n : Nat) : EStateM Stop σ Unit := do
  if (registers (← get)).runnable then
    adjust ({ · with hosts.running := true })
    let outcome ← attempt (runLoop n)
    adjust ({ · with hosts.running := false })
    match outcome with
    | .ok () => pure ()
    | .error f => raise f
  else raise .notRunnable

end LispMachine.Machine
