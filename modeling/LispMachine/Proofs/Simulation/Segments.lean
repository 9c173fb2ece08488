import Mathlib.Data.List.Infix

/-! # Segments of a stack

Frames and return points lie on the stack as runs of cells that do not overlap. A list of segments
names them from the top down, so what a segment refers to is further on in the list.
-/

namespace LispMachine

/-- A run of `count` values from `start` on with the cells of a frame's descriptor or of a return
point above it. The number is that of the frame or continuation it stands for. -/
inductive Segment
  | frame (start count id : Nat)
  | point (start count id : Nat)

namespace Segment

def start : Segment → Nat
  | frame start _ _ | point start _ _ => start

def top : Segment → Nat
  | frame start count _ => start + count + 3
  | point start count _ => start + count + 4

def isFrame : Segment → Bool
  | frame .. => true
  | point .. => false

@[simp] theorem start_frame {start count id : Nat} : (frame start count id).start = start := rfl

@[simp] theorem start_point {start count id : Nat} : (point start count id).start = start := rfl

@[simp] theorem top_frame {start count id : Nat} :
    (frame start count id).top = start + count + 3 := rfl

@[simp] theorem top_point {start count id : Nat} :
    (point start count id).top = start + count + 4 := rfl

theorem start_add_le_top (s : Segment) : s.start + 3 ≤ s.top := by
  cases s <;> simp only [start_frame, start_point, top_frame, top_point] <;> omega

end Segment

theorem exists_suffix {α : Type} {a : α} {l : List α} (h : a ∈ l) : ∃ rest, a :: rest <:+ l := by
  obtain ⟨front, rest, rfl⟩ := List.append_of_mem h
  exact ⟨rest, List.suffix_append ..⟩

theorem suffix_of_cons_suffix {α : Type} {a : α} {rest l : List α} (h : a :: rest <:+ l) :
    rest <:+ l :=
  (List.suffix_cons a rest).trans h

theorem mem_of_cons_suffix {α : Type} {a : α} {rest l : List α} (h : a :: rest <:+ l) : a ∈ l :=
  h.mem List.mem_cons_self

/-- The segments lie one above the other below position `hi`, and each is as `P` says, which may
refer to those below it. -/
def Stacked (P : List Segment → Segment → Prop) : Nat → List Segment → Prop
  | _, [] => True
  | hi, s :: rest => s.top ≤ hi ∧ P rest s ∧ Stacked P s.start rest

namespace Stacked

variable {P Q : List Segment → Segment → Prop} {hi hi' : Nat} {segs sub rs rt : List Segment}
  {s t : Segment}

@[simp] theorem nil : Stacked P hi [] := trivial

theorem mono (h : Stacked P hi segs) (hle : hi ≤ hi') : Stacked P hi' segs := by
  cases segs with
  | nil => exact nil
  | cons s rest => exact ⟨h.1.trans hle, h.2⟩

theorem suffix (h : Stacked P hi segs) (hs : sub <:+ segs) : Stacked P hi sub := by
  induction segs generalizing hi with
  | nil =>
    obtain rfl := List.suffix_nil.1 hs
    exact nil
  | cons s rest ih =>
    rcases List.suffix_cons_iff.1 hs with rfl | hs
    · exact h
    · exact (ih h.2.2 hs).mono (by have := s.start_add_le_top; have := h.1; omega)

theorem top_le_of_mem (h : Stacked P hi segs) (hs : s ∈ segs) : s.top ≤ hi := by
  obtain ⟨rest, hs⟩ := exists_suffix hs
  exact (h.suffix hs).1

theorem at_suffix (h : Stacked P hi segs) (hs : s :: rs <:+ segs) :
    s.top ≤ hi ∧ P rs s ∧ Stacked P s.start rs :=
  h.suffix hs

theorem imp (h : Stacked P hi segs) (hPQ : ∀ s rest, s :: rest <:+ segs → P rest s → Q rest s) :
    Stacked Q hi segs := by
  induction segs generalizing hi with
  | nil => exact nil
  | cons s rest ih =>
    exact ⟨h.1, hPQ s rest (List.suffix_refl _) h.2.1,
      ih h.2.2 fun t rt ht => hPQ t rt (ht.trans (List.suffix_cons s rest))⟩

/-- Two segments are the same, or one lies below the other. -/
theorem apart (h : Stacked P hi segs) (hs : s :: rs <:+ segs) (ht : t :: rt <:+ segs) :
    (s = t ∧ rs = rt) ∨ (s :: rs <:+ rt ∧ s.top ≤ t.start) ∨
      (t :: rt <:+ rs ∧ t.top ≤ s.start) := by
  rcases List.suffix_or_suffix_of_suffix hs ht with hst | hts
  · rcases List.suffix_cons_iff.1 hst with heq | hst
    · exact .inl (List.cons_eq_cons.1 heq)
    · exact .inr (.inl ⟨hst, ((h.at_suffix ht).2.2.at_suffix hst).1⟩)
  · rcases List.suffix_cons_iff.1 hts with heq | hts
    · exact .inl (List.cons_eq_cons.1 heq.symm)
    · exact .inr (.inr ⟨hts, ((h.at_suffix hs).2.2.at_suffix hts).1⟩)

theorem update (h : Stacked P hi segs) (ht : t :: rt <:+ segs) (hPQ : P rt t → Q rt t)
    (hother : ∀ s rs, s :: rs <:+ segs →
      (s :: rs <:+ rt ∧ s.top ≤ t.start) ∨ (t :: rt <:+ rs ∧ t.top ≤ s.start) → P rs s → Q rs s) :
    Stacked Q hi segs := by
  refine h.imp fun s rs hs hP => ?_
  rcases h.apart hs ht with ⟨rfl, rfl⟩ | ho
  · exact hPQ hP
  · exact hother s rs hs ho hP

theorem filter (h : Stacked P hi segs) (keep : Segment → Bool)
    (hPQ : ∀ s rest, s :: rest <:+ segs → keep s → P rest s → Q (rest.filter keep) s) :
    Stacked Q hi (segs.filter keep) := by
  induction segs generalizing hi with
  | nil => exact nil
  | cons s rest ih =>
    have ih := ih h.2.2 fun t rt ht => hPQ t rt (ht.trans (List.suffix_cons s rest))
    by_cases hk : keep s
    · rw [List.filter_cons_of_pos hk]
      exact ⟨h.1, hPQ s rest (List.suffix_refl _) hk h.2.1, ih⟩
    · rw [List.filter_cons_of_neg hk]
      exact ih.mono (by have := s.start_add_le_top; have := h.1; omega)

theorem length_le (h : Stacked P hi segs) : segs.length ≤ hi := by
  induction segs generalizing hi with
  | nil => exact Nat.zero_le _
  | cons s rest ih =>
    have := ih h.2.2
    have := s.start_add_le_top
    have := h.1
    simp only [List.length_cons]
    omega

end Stacked

end LispMachine
