import LispMachine.Text.EditDistance
import Mathlib.Data.List.Infix
import Mathlib.Order.Bounds.Defs
import Mathlib.Order.Lattice

/-! # The edit distance is the least number of edits

An edit inserts, deletes or replaces one character anywhere in a text. An alignment goes through
both texts and decides one character after the other. Alignments compose, so no sequence of edits is
shorter than the best alignment. The table has a row for each prefix of the one text and in it a
cell for each prefix of the other; a cell is the distance of the two prefixes, which their last
characters decide.
-/

namespace LispMachine.Text

variable {xs ys zs : List Char} {i j n : Nat}

inductive Edit : List Char → List Char → Prop
  | insert (front rest : List Char) (c : Char) : Edit (front ++ rest) (front ++ c :: rest)
  | delete (front rest : List Char) (c : Char) : Edit (front ++ c :: rest) (front ++ rest)
  | replace (front rest : List Char) {c d : Char} : c ≠ d →
      Edit (front ++ c :: rest) (front ++ d :: rest)

/-- As many edits, one after the other, make the one text into the other. -/
inductive Edits : Nat → List Char → List Char → Prop
  | refl (xs : List Char) : Edits 0 xs xs
  | head {n : Nat} {xs ys zs : List Char} : Edit xs ys → Edits n ys zs → Edits (n + 1) xs zs

namespace Edit

theorem symm (h : Edit xs ys) : Edit ys xs := by
  cases h with
  | insert front rest c => exact .delete front rest c
  | delete front rest c => exact .insert front rest c
  | replace front rest hne => exact .replace front rest hne.symm

theorem cons (x : Char) (h : Edit xs ys) : Edit (x :: xs) (x :: ys) := by
  cases h with
  | insert front rest c => exact .insert (x :: front) rest c
  | delete front rest c => exact .delete (x :: front) rest c
  | replace front rest hne => exact .replace (x :: front) rest hne

theorem reverse (h : Edit xs ys) : Edit xs.reverse ys.reverse := by
  cases h with
  | insert front rest c => simpa using Edit.insert rest.reverse front.reverse c
  | delete front rest c => simpa using Edit.delete rest.reverse front.reverse c
  | replace front rest hne => simpa using Edit.replace rest.reverse front.reverse hne

end Edit

namespace Edits

theorem trans (h : Edits i xs ys) (h' : Edits j ys zs) : Edits (i + j) xs zs := by
  induction h with
  | refl xs => rwa [Nat.zero_add]
  | head he _ ih =>
    rw [Nat.add_right_comm]
    exact .head he (ih h')

theorem symm (h : Edits n xs ys) : Edits n ys xs := by
  induction h with
  | refl xs => exact .refl xs
  | head he _ ih => exact ih.trans (.head he.symm (.refl _))

theorem cons (x : Char) (h : Edits n xs ys) : Edits n (x :: xs) (x :: ys) := by
  induction h with
  | refl xs => exact .refl _
  | head he _ ih => exact .head (he.cons x) ih

theorem reverse (h : Edits n xs ys) : Edits n xs.reverse ys.reverse := by
  induction h with
  | refl xs => exact .refl _
  | head he _ ih => exact .head he.reverse ih

theorem zero_iff : Edits 0 xs ys ↔ xs = ys := by
  constructor
  · intro h
    cases h
    rfl
  · rintro rfl
    exact .refl xs

end Edits

/-! ## Alignments -/

/-- The texts are gone through from left to right, and they differ at no more than `n` places. -/
inductive Aligned : Nat → List Char → List Char → Prop
  | nil (n : Nat) : Aligned n [] []
  | delete {n : Nat} {xs ys : List Char} (x : Char) : Aligned n xs ys → Aligned (n + 1) (x :: xs) ys
  | insert {n : Nat} {xs ys : List Char} (y : Char) : Aligned n xs ys → Aligned (n + 1) xs (y :: ys)
  | keep {n : Nat} {xs ys : List Char} (x : Char) : Aligned n xs ys → Aligned n (x :: xs) (x :: ys)
  | replace {n : Nat} {xs ys : List Char} (x y : Char) : Aligned n xs ys →
      Aligned (n + 1) (x :: xs) (y :: ys)

namespace Aligned

theorem succ (h : Aligned n xs ys) : Aligned (n + 1) xs ys := by
  induction h with
  | nil n => exact .nil (n + 1)
  | delete x _ ih => exact ih.delete x
  | insert y _ ih => exact ih.insert y
  | keep x _ ih => exact ih.keep x
  | replace x y _ ih => exact ih.replace x y

theorem mono (h : Aligned i xs ys) (hij : i ≤ j) : Aligned j xs ys := by
  induction hij with
  | refl => exact h
  | step _ ih => exact ih.succ

theorem min (h : Aligned i xs ys) (h' : Aligned j xs ys) : Aligned (min i j) xs ys := by
  rcases Nat.le_total i j with hij | hij
  · rwa [Nat.min_eq_left hij]
  · rwa [Nat.min_eq_right hij]

theorem append (front : List Char) (h : Aligned n xs ys) :
    Aligned n (front ++ xs) (front ++ ys) := by
  induction front with
  | nil => exact h
  | cons x front ih => exact ih.keep x

theorem refl (n : Nat) (xs : List Char) : Aligned n xs xs := by
  simpa using append xs (.nil n)

/-- What holds of an alignment once the first character has been dealt with, and stays so when
something is inserted before it. -/
theorem cons_elim {y : Char} {P : Nat → List Char → Prop} (h : Aligned n (y :: ys) zs)
    (insert : ∀ k zs z, P k zs → P (k + 1) (z :: zs))
    (delete : ∀ k zs, Aligned k ys zs → P (k + 1) zs)
    (keep : ∀ k zs, Aligned k ys zs → P k (y :: zs))
    (replace : ∀ k zs z, Aligned k ys zs → P (k + 1) (z :: zs)) : P n zs := by
  generalize hl : y :: ys = l at h
  induction h with
  | nil n => cases hl
  | insert z _ ih => exact insert _ _ z (ih hl)
  | delete x h =>
    cases hl
    exact delete _ _ h
  | keep x h =>
    cases hl
    exact keep _ _ h
  | replace x z h =>
    cases hl
    exact replace _ _ z h

/-- Two alignments make one. A character that the first one inserts and the second one deletes does
not count any more. -/
theorem trans (h : Aligned i xs ys) (h' : Aligned j ys zs) : Aligned (i + j) xs zs := by
  induction h generalizing j zs with
  | nil i => exact h'.mono (Nat.le_add_left j i)
  | @delete i xs ys x _ ih =>
    rw [Nat.add_right_comm]
    exact (ih h').delete x
  | @insert i xs ys y _ ih =>
    refine h'.cons_elim (P := fun j zs => Aligned (i + 1 + j) xs zs) ?_ ?_ ?_ ?_
    · exact fun k zs z hk => hk.insert z
    · exact fun k zs hk => (ih hk).mono (by omega)
    · exact fun k zs hk => ((ih hk).insert y).mono (by omega)
    · exact fun k zs z hk => ((ih hk).insert z).mono (by omega)
  | @keep i xs ys x _ ih =>
    refine h'.cons_elim (P := fun j zs => Aligned (i + j) (x :: xs) zs) ?_ ?_ ?_ ?_
    · exact fun k zs z hk => hk.insert z
    · exact fun k zs hk => (ih hk).delete x
    · exact fun k zs hk => (ih hk).keep x
    · exact fun k zs z hk => (ih hk).replace x z
  | @replace i xs ys x y _ ih =>
    refine h'.cons_elim (P := fun j zs => Aligned (i + 1 + j) (x :: xs) zs) ?_ ?_ ?_ ?_
    · exact fun k zs z hk => hk.insert z
    · exact fun k zs hk => ((ih hk).delete x).mono (by omega)
    · exact fun k zs hk => ((ih hk).replace x y).mono (by omega)
    · exact fun k zs z hk => ((ih hk).replace x z).mono (by omega)

/-- An alignment is carried out by edits, one for each difference. -/
theorem edits (h : Aligned n xs ys) : ∃ k ≤ n, Edits k xs ys := by
  induction h with
  | nil n => exact ⟨0, Nat.zero_le n, .refl []⟩
  | delete x _ ih =>
    obtain ⟨k, hk, he⟩ := ih
    exact ⟨k + 1, by omega, .head (.delete [] _ x) he⟩
  | insert y _ ih =>
    obtain ⟨k, hk, he⟩ := ih
    exact ⟨k + 1, by omega, he.trans (.head (.insert [] _ y) (.refl _))⟩
  | keep x _ ih =>
    obtain ⟨k, hk, he⟩ := ih
    exact ⟨k, hk, he.cons x⟩
  | replace x y _ ih =>
    obtain ⟨k, hk, he⟩ := ih
    by_cases hxy : x = y
    · exact ⟨k, by omega, hxy ▸ he.cons x⟩
    · exact ⟨k + 1, by omega, .head (.replace [] _ hxy) (he.cons y)⟩

end Aligned

theorem Edit.aligned (h : Edit xs ys) : Aligned 1 xs ys := by
  cases h with
  | insert front rest c => exact .append front (.insert c (.refl 0 rest))
  | delete front rest c => exact .append front (.delete c (.refl 0 rest))
  | @replace front rest c d _ => exact .append front (.replace c d (.refl 0 rest))

theorem Edits.aligned (h : Edits n xs ys) : Aligned n xs ys := by
  induction h with
  | refl xs => exact .refl 0 xs
  | @head n xs ys zs he _ ih =>
    rw [Nat.add_comm]
    exact he.aligned.trans ih

/-! ## The distance -/

/-- The least number of places at which the texts differ, by their first characters. -/
def distance : List Char → List Char → Nat
  | [], ys => ys.length
  | _ :: xs, [] => xs.length + 1
  | x :: xs, y :: ys =>
    min (min (distance xs (y :: ys) + 1) (distance (x :: xs) ys + 1))
      (distance xs ys + if x = y then 0 else 1)

@[simp] theorem distance_nil_left (ys : List Char) : distance [] ys = ys.length := by
  rw [distance]

@[simp] theorem distance_nil_right (xs : List Char) : distance xs [] = xs.length := by
  cases xs <;> simp [distance]

theorem distance_delete_le (x : Char) (xs ys : List Char) :
    distance (x :: xs) ys ≤ distance xs ys + 1 := by
  cases ys with
  | nil => simp
  | cons y ys =>
    rw [distance]
    omega

theorem distance_insert_le (y : Char) (xs ys : List Char) :
    distance xs (y :: ys) ≤ distance xs ys + 1 := by
  cases xs with
  | nil => simp
  | cons x xs =>
    rw [distance]
    omega

theorem aligned_nil_left (ys : List Char) : Aligned ys.length [] ys := by
  induction ys with
  | nil => exact .nil 0
  | cons y ys ih => exact ih.insert y

theorem aligned_nil_right (xs : List Char) : Aligned xs.length xs [] := by
  induction xs with
  | nil => exact .nil 0
  | cons x xs ih => exact ih.delete x

theorem aligned_distance (xs ys : List Char) : Aligned (distance xs ys) xs ys := by
  fun_induction distance xs ys with
  | case1 ys => exact aligned_nil_left ys
  | case2 x xs => exact aligned_nil_right (x :: xs)
  | case3 x xs y ys hdelete hinsert hboth =>
    refine ((hdelete.delete x).min (hinsert.insert y)).min ?_
    split
    next hxy => exact hxy ▸ hboth.keep x
    next => exact hboth.replace x y

theorem Aligned.distance_le (h : Aligned n xs ys) : distance xs ys ≤ n := by
  induction h with
  | nil n => simp
  | delete x _ ih => exact (distance_delete_le ..).trans (by omega)
  | insert y _ ih => exact (distance_insert_le ..).trans (by omega)
  | keep x _ ih =>
    rw [distance, if_pos rfl]
    omega
  | replace x y _ ih =>
    rw [distance]
    split <;> omega

theorem Edits.distance_le (h : Edits n xs ys) : distance xs ys ≤ n := h.aligned.distance_le

/-- There is a sequence of that many edits and none that is shorter. -/
theorem isLeast_distance (xs ys : List Char) : IsLeast {n | Edits n xs ys} (distance xs ys) := by
  obtain ⟨k, hk, he⟩ := (aligned_distance xs ys).edits
  have hmin : distance xs ys = k := Nat.le_antisymm he.distance_le hk
  exact ⟨hmin ▸ he, fun n hn => Edits.distance_le hn⟩

/-! ## By the last characters -/

theorem distance_reverse (xs ys : List Char) : distance xs.reverse ys.reverse = distance xs ys := by
  have hle (xs ys : List Char) : distance xs.reverse ys.reverse ≤ distance xs ys :=
    (isLeast_distance xs ys).1.reverse.distance_le
  refine Nat.le_antisymm (hle xs ys) ?_
  simpa using hle xs.reverse ys.reverse

/-- The last characters may be looked at as well as the first ones. -/
theorem distance_concat (xs ys : List Char) (x y : Char) :
    distance (xs ++ [x]) (ys ++ [y]) =
      min (min (distance xs (ys ++ [y]) + 1) (distance (xs ++ [x]) ys + 1))
        (distance xs ys + if x = y then 0 else 1) := by
  rw [← distance_reverse (xs ++ [x]), ← distance_reverse xs, ← distance_reverse (xs ++ [x]) ys,
    ← distance_reverse xs ys]
  simp only [List.reverse_append, List.reverse_singleton, List.singleton_append]
  rw [distance]

/-! ## Computing it row by row -/

structure Row (xs ys : List Char) (n : Nat) (row : Array Nat) : Prop where
  size : row.size = ys.length + 1
  cell {j : Nat} : j < n → row.getD j 0 = distance xs (ys.take j)

theorem row_range (ys : List Char) : Row [] ys (ys.length + 1) (Array.range (ys.length + 1)) where
  size := Array.size_range
  cell hj := by simp [Array.getD, hj]; omega

theorem row_replicate (xs ys : List Char) (c : Char) :
    Row (xs ++ [c]) ys 1 (Array.replicate (ys.length + 1) (xs.length + 1)) where
  size := Array.size_replicate
  cell hj := by simp [Array.getD, Nat.lt_one_iff.1 hj]

theorem Row.fill {prev row : Array Nat} {c d : Char} {ds : List Char}
    (hprev : Row xs (ys ++ d :: ds) ((ys ++ d :: ds).length + 1) prev)
    (h : Row (xs ++ [c]) (ys ++ d :: ds) (ys.length + 1) row) :
    Row (xs ++ [c]) (ys ++ d :: ds) (ys.length + 1 + 1) (row.setIfInBounds (ys.length + 1)
      (min (min (prev.getD (ys.length + 1) 0 + 1) (row.getD ys.length 0 + 1))
        (prev.getD ys.length 0 + if c = d then 0 else 1))) where
  size := by rw [Array.size_setIfInBounds, h.size]
  cell {j} hj := by
    have hlt : ys.length < (ys ++ d :: ds).length := by simp
    have hsize : ys.length + 1 < row.size := by rw [h.size]; omega
    by_cases hne : j = ys.length + 1
    · have htake : (ys ++ d :: ds).take (ys.length + 1) = ys ++ [d] := by simp [List.take_append]
      have htake' : (ys ++ d :: ds).take ys.length = ys := by simp
      subst hne
      rw [hprev.cell (by omega), hprev.cell (by omega), h.cell (by omega), htake, htake',
        distance_concat]
      simp [Array.getD, hsize]
    · rw [← h.cell (j := j) (by omega)]
      simp only [Array.getD_eq_getD_getElem?]
      rw [Array.getElem?_setIfInBounds_ne (Ne.symm hne)]

theorem Row.fillRow {prev row : Array Nat} {c : Char} {ds : List Char}
    (h : Row (xs ++ [c]) (ys ++ ds) (ys.length + 1) row)
    (hprev : Row xs (ys ++ ds) ((ys ++ ds).length + 1) prev) :
    Row (xs ++ [c]) (ys ++ ds) ((ys ++ ds).length + 1) (fillRow c prev ys.length ds row) := by
  -- the cells up to the end of `ys` are filled, those of `ds` are still to come
  induction ds generalizing ys row with
  | nil => simpa [Text.fillRow] using h
  | cons d ds ih =>
    have happend : ys ++ d :: ds = (ys ++ [d]) ++ ds := by simp
    have hfill := Row.fill hprev h
    rw [Text.fillRow]
    rw [happend] at hprev hfill ⊢
    have hlength : (ys ++ [d]).length = ys.length + 1 := by simp
    rw [← hlength] at hfill ⊢
    exact ih hfill hprev

theorem Row.next {prev : Array Nat} (h : Row xs ys (ys.length + 1) prev) (c : Char) :
    Row (xs ++ [c]) ys (ys.length + 1) (nextRow ys prev xs.length c) := by
  have hfirst : Row (xs ++ [c]) ([] ++ ys) (([] : List Char).length + 1) _ := row_replicate xs ys c
  exact hfirst.fillRow h

theorem Row.last {prev : Array Nat} (h : Row xs ys (ys.length + 1) prev) (cs : List Char) :
    Row (xs ++ cs) ys (ys.length + 1) (lastRow ys xs.length cs prev) := by
  induction cs generalizing xs prev with
  | nil => simpa [lastRow] using h
  | cons c cs ih =>
    have hlast := ih (h.next c)
    rwa [List.length_append, List.append_assoc] at hlast

theorem editDistance_eq (a b : String) : editDistance a b = distance a.toList b.toList := by
  have h := (row_range b.toList).last a.toList
  rw [editDistance, ← String.length_toList]
  simpa using h.cell (Nat.lt_add_one _)

/-- The distance of two texts is the least number of insertions, deletions and replacements of
single characters that make the one into the other. Hence it is zero only between equal texts, the
same in both directions, and never longer than the way through a third text. -/
theorem editDistance_isLeast (a b : String) :
    IsLeast {n | Edits n a.toList b.toList} (editDistance a b) ∧
    (editDistance a b = 0 ↔ a = b) ∧ editDistance a b = editDistance b a ∧
    ∀ c, editDistance a c ≤ editDistance a b + editDistance b c := by
  have hleast (a b : String) : IsLeast {n | Edits n a.toList b.toList} (editDistance a b) :=
    editDistance_eq a b ▸ isLeast_distance a.toList b.toList
  refine ⟨hleast a b, ⟨fun h => ?_, fun h => ?_⟩, ?_, fun c => ?_⟩
  · have he : Edits 0 a.toList b.toList := h ▸ (hleast a b).1
    exact String.toList_inj.1 (Edits.zero_iff.1 he)
  · exact Nat.le_zero.1 ((hleast a b).2 (h ▸ .refl _))
  · exact Nat.le_antisymm ((hleast a b).2 (hleast b a).1.symm) ((hleast b a).2 (hleast a b).1.symm)
  · exact (hleast a c).2 ((hleast a b).1.trans (hleast b c).1)

end LispMachine.Text
