/-! # Edit distance

How many single characters have to be inserted, deleted or replaced to make one text into another,
and which names of a collection are near to a given one.
-/

namespace LispMachine.Text

/-- Fills the cells of a row behind cell `j`, for the character `c` that the row stands for and the
characters that the cells stand for. A cell is made from the one above it, the one to its left and
the one between the two. -/
def fillRow (c : Char) (prev : Array Nat) : Nat → List Char → Array Nat → Array Nat
  | _, [], row => row
  | j, d :: ds, row =>
    let replaced := prev.getD j 0 + if c = d then 0 else 1
    let cell := min (min (prev.getD (j + 1) 0 + 1) (row.getD j 0 + 1)) replaced
    fillRow c prev (j + 1) ds (row.setIfInBounds (j + 1) cell)

/-- The row after `prev`, for the character `c` at position `i`. -/
def nextRow (b : List Char) (prev : Array Nat) (i : Nat) (c : Char) : Array Nat :=
  fillRow c prev 0 b (Array.replicate (b.length + 1) (i + 1))

/-- The last row, given the one before position `i` and the characters from there on. -/
def lastRow (b : List Char) : Nat → List Char → Array Nat → Array Nat
  | _, [], prev => prev
  | i, c :: cs, prev => lastRow b (i + 1) cs (nextRow b prev i c)

def editDistance (a b : String) : Nat :=
  (lastRow b.toList 0 a.toList (Array.range (b.length + 1))).getD b.length 0

/-- The order of suggestions: by distance, then by name. -/
def nearer (a b : Nat × String) : Bool := a.1 < b.1 || a.1 == b.1 && a.2 ≤ b.2

/-- The first three of the candidates that differ from `name` by at most `most` edits. -/
def similar (name : String) (candidates : List String) (most : Nat) : List String :=
  let found := candidates.map fun c => (editDistance name c, c)
  let near := found.filter fun (d, _) => 0 < d && d ≤ most
  ((near.mergeSort nearer).take 3).map (·.2)

end LispMachine.Text
