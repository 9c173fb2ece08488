import LispMachine.Machine.Storage

/-! # Single instructions

An instruction is fetched byte by byte, so a fault leaves the instruction pointer behind what was
read. Applying a procedure may take many instructions of its own; how it is done is a parameter
here.
-/

namespace LispMachine.Machine

variable {σ : Type} [Storage σ]

open HasRegisters

/-! ## Fetching -/

def fetchByte : EStateM Stop σ UInt8 := do
  let r := registers (← get)
  match r.code[r.ip]? with
  | some b =>
    setIp (r.ip + 1)
    return b
  | none => raise (.codeOverrun r.ip)

def fetchNat : EStateM Stop σ Nat := do return (← fetchByte).toNat

/-- A word is read as a whole or not at all. -/
def fetchWord : EStateM Stop σ Int := do
  let r := registers (← get)
  match r.code[r.ip]?, r.code[r.ip + 1]?, r.code[r.ip + 2]?, r.code[r.ip + 3]? with
  | some a, some b, some c, some d =>
    setIp (r.ip + 4)
    return Word.decode a b c d
  | _, _, _, _ => raise (.codeOverrun r.ip)

/-! ## Frames -/

def popOnto : Nat → Value → EStateM Stop σ Value
  | 0, list => pure list
  | n + 1, list => do
    let v ← Storage.pop
    popOnto n (← cons v list)

/-- Turns the `argc` values on top into a frame, which `build` makes of a number of values on top
and a number of unbound slots: first the required and optional slots, then the extra ones, and last
the list of further arguments. -/
def layOutFrame (build : Nat → Nat → EStateM Stop σ Unit) (a : Arity) : EStateM Stop σ Unit := do
  let argc := (registers (← get)).argc
  let fixed := a.required + a.optional
  if a.variadic then
    checkArgc a.required argc
    let rest ← popOnto (argc - fixed) .nil
    let supplied := min argc fixed
    build supplied (fixed - supplied + a.extra + 1)
    Storage.writeSlot 0 (fixed + a.extra) rest
  else
    checkArgc a.required fixed
    let missing ← query fun _ => distance fixed argc
    build argc (missing + a.extra)

def enterFrame (a : Arity) : EStateM Stop σ Unit := layOutFrame Storage.pushFrame a

/-! ## Executing -/

def unary (op : Heap → Value → Except Stop Value) : EStateM Stop σ Unit := do
  setAcc (← query fun s => op (registers s).heap (registers s).acc)

/-- Pops the left operand; the right one is the accumulator. -/
def binary (op : Value → Value → Except Fault Value) : EStateM Stop σ Unit := do
  let a ← Storage.pop
  match op a (registers (← get)).acc with
  | .ok v => setAcc v
  | .error f => raise f

/-- Pops a pair and changes it by the accumulator. -/
def update (change : Value → Value → EStateM Stop σ Unit) : EStateM Stop σ Unit := do
  let cell ← Storage.pop
  change cell (registers (← get)).acc
  setAcc cell

/-- A part of a value that may be missing: there is no part of nothing. -/
def part (op : Heap → Value → Except Stop Value) (h : Heap) : Value → Except Stop Value
  | .nil | .unbound => .ok .unbound
  | v => op h v

/-- Jumps if the accumulator is as wanted. The target matters only then. -/
def jumpIf (wanted : Value → Bool) : EStateM Stop σ Unit := do
  let offset ← fetchWord
  if wanted (registers (← get)).acc then setIp (← query fun s => (registers s).relative offset)

def execute (apply : EStateM Stop σ Unit) : Opcode → EStateM Stop σ Unit
  | .nop => pure ()
  | .push => do Storage.push (registers (← get)).acc
  | .pop => do setAcc (← Storage.pop)
  | .ret => Storage.ret
  | .not => unary fun _ v => .ok (.truth v.isNil)
  | .loadTrue => setAcc .t
  | .loadNil => setAcc .nil
  | .halt => halt
  | .add => binary Value.add
  | .sub => binary Value.sub
  | .mul => binary Value.mul
  | .div => binary Value.div
  | .cons => do
    let car ← Storage.pop
    setAcc (← cons car (registers (← get)).acc)
  | .consReversed => do
    let cdr ← Storage.pop
    setAcc (← cons (registers (← get)).acc cdr)
  | .car => unary Heap.car
  | .cdr => unary Heap.cdr
  | .setCar => update setCar
  | .setCdr => update setCdr
  | .same => binary fun a b => .ok (.truth (a.same b))
  | .dup => do setAcc (← Storage.top)
  | .partCar => unary (part Heap.car)
  | .partCdr => unary (part Heap.cdr)
  | .splice => do
    let tail ← Storage.pop
    setAcc (← splice (registers (← get)).acc tail)
  | .loadLiteral => do
    let index ← fetchWord
    setAcc (← query fun s => (registers s).literal index)
  | .loadInteger => do setAcc (.fixnum (← fetchWord))
  | .loadGlobal => do
    let index ← fetchWord
    let name ← query fun s : σ => (registers s).literalName index
    setAcc (← query fun s => orFault (.unboundSymbol name) ((registers s).global? name))
  | .storeGlobal => do
    let index ← fetchWord
    let name ← query fun s : σ => (registers s).literalName index
    adjust fun r => { r with globals := r.globals.insert name r.acc }
  | .apply => do
    setArgc (← fetchNat)
    apply
  | .closure => do
    let offset ← fetchWord
    let entry ← query fun s : σ => (registers s).relative offset
    let env ← Storage.promoteCurrent
    setAcc (.closure (← newClosure { env, entry }))
  | .jump => jumpIf fun _ => true
  | .jumpTrue => jumpIf fun v => !v.isNil
  | .jumpFalse => jumpIf Value.isNil
  | .jumpBound => jumpIf fun v => !v.isUnbound
  | .reuseFrame => do Storage.reuseFrame (← fetchNat)
  | .loadLocal => do
    let index ← fetchNat
    setAcc (← query (Storage.readSlot · 0 index))
  | .storeLocal => do
    let index ← fetchNat
    Storage.writeSlot 0 index (registers (← get)).acc
  | .loadOuter => do
    let depth ← fetchNat
    let index ← fetchNat
    setAcc (← query (Storage.readSlot · depth index))
  | .storeOuter => do
    let depth ← fetchNat
    let index ← fetchNat
    Storage.writeSlot depth index (registers (← get)).acc
  | .returnPoint => do Storage.pushReturnPoint (← fetchWord)
  | .frame => do
    let required ← fetchNat
    let extra ← fetchNat
    let optional ← fetchNat
    enterFrame { required, optional, extra }
  | .frameRest => do
    let required ← fetchNat
    let extra ← fetchNat
    let optional ← fetchNat
    enterFrame { required, optional, extra, variadic := true }

def stepWith (apply : EStateM Stop σ Unit) : EStateM Stop σ Unit := do
  let start := (registers (← get)).ip
  adjust ({ · with current := start })
  let byte ← fetchByte
  match Opcode.ofByte? byte with
  | some op => execute apply op
  | none => raise (.invalidInstruction byte start)

end LispMachine.Machine
