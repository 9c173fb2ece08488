import LispMachine.Value

/-! # Runs of cells

Emptying a run of cells, and moving one to a lower position. Cells outside the run stay as they are.
-/

namespace LispMachine.Cells

def clear (stack : Array Value) (lo : Nat) : Nat → Array Value
  | 0 => stack
  | n + 1 => clear (stack.setIfInBounds lo .nil) (lo + 1) n

def copy (stack : Array Value) (target source : Nat) : Nat → Array Value
  | 0 => stack
  | n + 1 =>
    copy (stack.setIfInBounds target (stack[source]?.getD .nil)) (target + 1) (source + 1) n

/-- Moves `n` cells from `source` down to `target` and empties what they leave behind. -/
def slide (stack : Array Value) (target source n : Nat) : Array Value :=
  clear (copy stack target source n) (target + n) (source - target)

variable {stack : Array Value} {lo target source n i : Nat}

@[simp] theorem size_clear : (clear stack lo n).size = stack.size := by
  induction n generalizing stack lo with
  | zero => rfl
  | succ n ih => simp [clear, ih]

@[simp] theorem size_copy : (copy stack target source n).size = stack.size := by
  induction n generalizing stack target source with
  | zero => rfl
  | succ n ih => simp [copy, ih]

@[simp] theorem size_slide : (slide stack target source n).size = stack.size := by simp [slide]

theorem getElem?_clear (hi : i < stack.size) :
    (clear stack lo n)[i]? = if lo ≤ i ∧ i < lo + n then some .nil else stack[i]? := by
  induction n generalizing stack lo with
  | zero => rw [clear, if_neg (by omega)]
  | succ n ih =>
    rw [clear, ih (by simpa using hi), Array.getElem?_setIfInBounds]
    grind

theorem getElem?_copy (h : target ≤ source) (hs : source + n ≤ stack.size) :
    (copy stack target source n)[i]? =
      if target ≤ i ∧ i < target + n then stack[source + (i - target)]? else stack[i]? := by
  induction n generalizing stack target source with
  | zero => rw [copy, if_neg (by omega)]
  | succ n ih =>
    rw [copy, ih (by omega) (by simp; omega)]
    rcases Nat.lt_trichotomy i target with hi | rfl | hi
    · rw [if_neg (by omega), if_neg (by omega), Array.getElem?_setIfInBounds_ne (by omega)]
    · have hlt : source < stack.size := by omega
      rw [if_neg (by omega), if_pos (by omega), Array.getElem?_setIfInBounds_self_of_lt (by omega)]
      simp [hlt]
    · rw [Array.getElem?_setIfInBounds_ne (by omega), Array.getElem?_setIfInBounds_ne (by omega),
        show source + 1 + (i - (target + 1)) = source + (i - target) by omega]
      by_cases hn : i < target + (n + 1)
      · rw [if_pos (by omega), if_pos (by omega)]
      · rw [if_neg (by omega), if_neg (by omega)]

theorem getElem?_slide (h : target ≤ source) (hs : source + n ≤ stack.size) :
    (slide stack target source n)[i]? =
      if target ≤ i ∧ i < target + n then stack[source + (i - target)]?
      else if target + n ≤ i ∧ i < source + n then some .nil
      else stack[i]? := by
  by_cases hi : i < stack.size
  · rw [slide, getElem?_clear (by simpa using hi), getElem?_copy h hs]
    grind
  · rw [if_neg (by omega), if_neg (by omega), Array.getElem?_eq_none (by simpa using hi),
      Array.getElem?_eq_none (by omega)]

end LispMachine.Cells
