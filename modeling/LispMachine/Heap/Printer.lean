import LispMachine.Heap.Lists
import LispMachine.Number.Decimal
import LispMachine.Text.Quoted

/-! # The text of a value

Lists and vectors are written with their contents, other objects by their kind alone.
-/

namespace LispMachine.Heap

variable (h : Heap)

def textWithin : Nat → Value → String
  | _, .nil => "nil"
  | _, .t => "t"
  | _, .unbound => "#<unbound>"
  | _, .fixnum k => toString k
  | _, .flonum x => Decimal.text x
  | _, .symbol name => name
  | _, .string s => Text.quote s
  | _, .closure r =>
    match h.closure r with
    | .ok c => s!"#<closure @{c.entry}>"
    | .error _ => ""
  | _, .procedure r =>
    match h.procedure r with
    | .ok p => s!"#<builtin {p.name}>"
    | .error _ => ""
  | _, .continuation _ => "#<continuation>"
  | _, .frame _ => "#<environment>"
  | _, .stackFrame pos => s!"#<stack-env {pos}>"
  | _, .stackReturn pos => s!"#<stack-cont {pos}>"
  | 0, .vector _ | 0, .pair _ => "..."
  | n + 1, .vector r =>
    let items := h.vectors[r.index]?.getD []
    "#(" ++ " ".intercalate (items.map (textWithin n)) ++ ")"
  | n + 1, .pair r =>
    match h.spine (.pair r) with
    | .ok (items, last) =>
      let dotted := match last with
        | .nil => ""
        | v => " . " ++ textWithin n v
      "(" ++ " ".intercalate (items.map (textWithin n)) ++ dotted ++ ")"
    | .error _ => "(...)"

/-- The text of a value. No value without cycles is nested deeper than there are objects. -/
def text (v : Value) : String := h.textWithin (h.pairs.size + h.vectors.size + 1) v

end LispMachine.Heap
