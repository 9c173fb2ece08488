import LispMachine.Machine.Stack
import LispMachine.Machine.Storage

/-! # Activations

Entering a procedure builds its frame, calling one leaves a return point, and returning goes back
through it.
-/

namespace LispMachine

namespace Machine

/-! ## Frames -/

def pushHeapFrame (taken extra : Nat) : Exec Unit := do
  let parent ← promoteCurrent
  let sp := (← get).sp
  let start ← query fun _ => distance sp taken
  let slots ← query (·.cells start sp)
  clearCells start sp
  let r ← newFrame ⟨slots ++ Array.replicate extra .unbound, parent⟩
  modify ({ · with sp := start, bp := start, env := .onHeap r })

/-- Builds a frame from the `taken` values on top and `extra` unbound slots: on the stack if the
descriptor fits as well, on the heap if not. -/
def pushFrame (taken extra : Nat) : Exec Unit := do
  let m ← get
  if m.sp < taken then raise .stackUnderflow
  else if m.capacity < m.sp + extra + 3 then pushHeapFrame taken extra
  else
    pushAll (List.replicate extra .unbound)
    let count := taken + extra
    let e := (← get).sp
    let parent := (← get).env.toValue
    let start ← query fun _ => distance e count
    push (.fixnum start)
    push (.fixnum count)
    push parent
    modify fun m => { m with env := .onStack e, bp := m.sp }

/-- Leaves the current frame for a call that ends the procedure. The `n` values on top take the
place of the slots if these are on the stack. -/
def reuseFrame (n : Nat) : Exec Unit := do
  let m ← get
  match m.env with
  | .empty => pure ()
  | env =>
    match ← query (·.innermost env) with
    | (.onHeap _, parent) => modify ({ · with env := parent })
    | (.onStack start _, parent) =>
      let sp := (← get).sp
      if sp < n ∨ sp - n < start then raise .stackUnderflow
      else
        slideCells start (sp - n) n
        modify ({ · with sp := start + n, env := parent })

/-! ## Return points -/

def pushReturnPoint (offset : Int) : Exec Unit := do
  let target ← query (·.relative offset)
  makeRoom 4 .continuationOverflow
  push (.fixnum target)
  push (.fixnum (← get).bp)
  push (← get).env.toValue
  push (← get).cont.toValue
  modify fun m => { m with cont := .onStack m.sp }

/-- Returns through a continuation on the heap. Its pending values become a new activation. -/
def resume (r : Ref .continuation) : Exec Unit := do
  let k ← query (·.heap.continuation r)
  match k.resume with
  | .halt => halt
  | .host id =>
    if id ∈ (← get).hosts.active then
      modify fun m =>
        { m with env := k.env, cont := k.prev, hosts.returned := some id }
    else raise .invalidContinuation
  | .code ip =>
    makeRoom k.saved.size .stackOverflow
    modify fun m => { m with bp := m.sp }
    pushAll k.saved.toList
    modify ({ · with ip, env := k.env, cont := k.prev })

/-- Returns to the caller. Without one the machine halts. -/
def ret : Exec Unit := do
  match (← get).cont with
  | .empty => halt
  | .onHeap r => resume r
  | .onStack c =>
    let p ← query (·.returnPoint c)
    let env ← query (·.resolve p.env)
    let sp := (← get).sp
    let base ← query fun _ => distance c 4
    modify ({ · with env, ip := p.ip, bp := p.bp, cont := p.prev, sp := base })
    clearCells base sp

def enterContinuation (r : Ref .continuation) : Exec Unit := do
  checkArgc 1 1
  setAcc (← pop)
  let owner := (← query (·.heap.continuation r)).owner
  modify fun m => { m with hosts := m.hosts.noteEntry owner, cont := .onHeap r }
  ret

/-! ## Host calls -/

/-- Begins a call from the host. Everything that the registers name moves to the heap, and a marker
is left for the result. -/
def beginCall : Exec Nat := do
  let env ← promoteCurrent
  let cont ← promoteCont (← get).cont
  let id := (← get).hosts.next
  modify fun m => { m with cont, hosts := m.hosts.enter }
  let r ← newContinuation (.marker id cont env)
  modify ({ · with cont := .onHeap r })
  return id

/-- Ends the host call `id`, which goes back to where it was begun. The outermost call has its
result also when the machine has halted. -/
def endCall (outermost : Bool) (id ip argc sp : Nat) (outcome : Except Fault Unit) :
    Exec Value := do
  modify fun m => { m with hosts := m.hosts.leave id }
  match outcome with
  | .ok () =>
    modify fun m => { m with ip, argc, sp := min sp m.sp, bp := min sp m.sp }
    return (← get).acc
  | .error f =>
    if outermost then
      if f = .unwound ∧ !(← get).runnable then
        modify ({ · with hosts.returned := none })
        return (← get).acc
      else stopWith f
    else raise f

end Machine

instance : Storage Machine where
  push := Machine.push
  pushAll := Machine.pushAll
  pop := Machine.pop
  top := Machine.top
  readSlot := Machine.readSlot
  writeSlot := Machine.writeSlot
  pushFrame := Machine.pushFrame
  reuseFrame := Machine.reuseFrame
  promoteCurrent := Machine.promoteCurrent
  pushReturnPoint := Machine.pushReturnPoint
  ret := Machine.ret
  capture := Machine.capture
  enterContinuation := Machine.enterContinuation
  beginCall := Machine.beginCall
  mark := Machine.sp
  endCall := Machine.endCall

end LispMachine
