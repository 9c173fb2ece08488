import LispMachine.Procedure.Script

/-! # The heap

Objects that are shared or change. They are never given back, so a reference stays good.
-/

namespace LispMachine

structure Pair where
  car : Value
  cdr : Value
  deriving DecidableEq

/-- A position in the code and the environment in which to run it. -/
structure Closure where
  env : Env
  entry : Nat
  deriving DecidableEq

structure Frame where
  slots : Array Value
  parent : Env
  deriving DecidableEq

/-- What comes after the values of a continuation are back in place. -/
inductive Resume
  /-- Go on in the code. -/
  | code (ip : Nat)
  /-- Hand the accumulator to the host call with this number. -/
  | host (id : Nat)
  | halt
  deriving DecidableEq, Repr

/-- The rest of a computation. It returns first through the host call that is its `owner`. -/
structure Continuation where
  saved : Array Value
  prev : Cont
  env : Env
  resume : Resume
  owner : Option Nat
  deriving DecidableEq

structure Heap where
  pairs : Array Pair := #[]
  vectors : Array (List Value) := #[]
  closures : Array Closure := #[]
  procedures : Array Procedure := #[]
  frames : Array Frame := #[]
  continuations : Array Continuation := #[]

namespace Heap

variable (h : Heap)

def pair (r : Ref .pair) : Except Stop Pair := present h.pairs[r.index]?

def vector (r : Ref .vector) : Except Stop (List Value) := present h.vectors[r.index]?

def closure (r : Ref .closure) : Except Stop Closure := present h.closures[r.index]?

def procedure (r : Ref .procedure) : Except Stop Procedure := present h.procedures[r.index]?

def frame (r : Ref .frame) : Except Stop Frame := present h.frames[r.index]?

def continuation (r : Ref .continuation) : Except Stop Continuation :=
  present h.continuations[r.index]?

def addPair (p : Pair) : Ref .pair × Heap :=
  (⟨h.pairs.size⟩, { h with pairs := h.pairs.push p })

def addVector (items : List Value) : Ref .vector × Heap :=
  (⟨h.vectors.size⟩, { h with vectors := h.vectors.push items })

def setVector (r : Ref .vector) (items : List Value) : Heap :=
  { h with vectors := h.vectors.modify r.index fun _ => items }

def addClosure (c : Closure) : Ref .closure × Heap :=
  (⟨h.closures.size⟩, { h with closures := h.closures.push c })

def addProcedure (p : Procedure) : Ref .procedure × Heap :=
  (⟨h.procedures.size⟩, { h with procedures := h.procedures.push p })

def addFrame (f : Frame) : Ref .frame × Heap :=
  (⟨h.frames.size⟩, { h with frames := h.frames.push f })

def addContinuation (k : Continuation) : Ref .continuation × Heap :=
  (⟨h.continuations.size⟩, { h with continuations := h.continuations.push k })

end Heap

end LispMachine
