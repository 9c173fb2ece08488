/-! # Host calls in progress

A host procedure that calls back into the machine waits for the result in a loop of its own. A
continuation may belong to any of the loops that are waiting; when it is resumed, the loops inside
the one that owns it have to end.
-/

namespace LispMachine

/-- The loops that execute instructions: the one of a whole run, and one for each host call that
waits for its result. -/
inductive Loop
  | run
  | call (id : Nat)
  deriving DecidableEq, Repr

structure HostCalls where
  /-- Their numbers, innermost first. -/
  active : List Nat := []
  next : Nat := 0
  /-- The call whose result is ready. -/
  returned : Option Nat := none
  /-- The loop that has to go on after an escape. -/
  escape : Option Loop := none
  /-- A whole run owns the outermost loop. -/
  running : Bool := false
  deriving DecidableEq, Repr

namespace HostCalls

/-- A continuation with this owner is about to be resumed. If it does not return through the
innermost host call, the loop that owns it has to take over, provided there is one. -/
def noteEntry (hosts : HostCalls) (owner : Option Nat) : HostCalls :=
  if owner = hosts.active.head? then hosts
  else match owner with
    | none => if hosts.running then { hosts with escape := some .run } else hosts
    | some id => if id ∈ hosts.active then { hosts with escape := some (.call id) } else hosts

def enter (hosts : HostCalls) : HostCalls :=
  { hosts with active := hosts.next :: hosts.active, next := hosts.next + 1 }

/-- Ends the host call `id` if it is the innermost one. -/
def leave (hosts : HostCalls) (id : Nat) : HostCalls :=
  if hosts.active.head? = some id then { hosts with active := hosts.active.tail } else hosts

def isIdle (hosts : HostCalls) : Bool := hosts.active.isEmpty && !hosts.running

inductive Turn
  | done
  | unwind
  | step
  deriving DecidableEq, Repr

/-- What the loop of the host call `id` does next, and what is then known. -/
def turn (hosts : HostCalls) (runnable : Bool) (id : Nat) : Turn × HostCalls :=
  if hosts.escape ≠ none ∧ hosts.escape ≠ some (.call id) then (.unwind, hosts)
  else
    let hosts := { hosts with escape := none }
    if hosts.returned = some id then (.done, { hosts with returned := none })
    else if hosts.returned ≠ none ∨ !runnable then (.unwind, hosts)
    else (.step, hosts)

end HostCalls

end LispMachine
