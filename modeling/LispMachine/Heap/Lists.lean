import LispMachine.Heap.Basic

/-! # Lists

Chains of pairs. A chain that ends in `nil` is a proper list; the parts of `nil` are `nil`.
-/

namespace LispMachine.Heap

variable (h : Heap)

def car : Value → Except Stop Value
  | .pair r => do return (← h.pair r).car
  | .nil => .ok .nil
  | v => .error (.fault (.typeError "take car of" v.typeName))

def cdr : Value → Except Stop Value
  | .pair r => do return (← h.pair r).cdr
  | .nil => .ok .nil
  | v => .error (.fault (.typeError "take cdr of" v.typeName))

def setCar (r : Ref .pair) (v : Value) : Heap :=
  { h with pairs := h.pairs.modify r.index ({ · with car := v }) }

def setCdr (r : Ref .pair) (v : Value) : Heap :=
  { h with pairs := h.pairs.modify r.index ({ · with cdr := v }) }

def cons (car cdr : Value) : Value × Heap :=
  let (r, h) := h.addPair ⟨car, cdr⟩
  (.pair r, h)

/-- A new chain of the items that ends in `tail`. -/
def chain (items : List Value) (tail : Value) : Value × Heap :=
  items.foldr (fun item (rest, h) => h.cons item rest) (tail, h)

/-- The items of a chain of at most `n` pairs, and what it ends in. -/
def walk : Nat → Value → Except Stop (List Value × Value)
  | 0, .pair _ => .error .unfinished
  | n + 1, .pair r => do
    let p ← h.pair r
    let (items, last) ← walk n p.cdr
    return (p.car :: items, last)
  | _, v => .ok ([], v)

/-- The items of a chain and what it ends in. A chain without end is longer than the heap. -/
def spine (v : Value) : Except Stop (List Value × Value) := h.walk h.pairs.size v

def items (list : Value) : Except Stop (List Value) := do
  match ← h.spine list with
  | (items, .nil) => return items
  | (_, v) => .error (.fault (.typeError "traverse improper list ending in" v.typeName))

def element? : Nat → Value → Except Stop (Option Value)
  | 0, .pair r => do return some (← h.pair r).car
  | n + 1, .pair r => do element? n (← h.pair r).cdr
  | _, _ => .ok none

def nth (list : Value) (index : Int) : Except Stop Value := do
  let found ← if index < 0 then pure none else h.element? index.toNat list
  orFault (.indexOutOfRange index) found

end LispMachine.Heap
