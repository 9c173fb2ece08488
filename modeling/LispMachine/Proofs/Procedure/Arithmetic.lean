import Mathlib.Algebra.BigOperators.Group.List.Basic
import Mathlib.Data.Int.ModEq
import Mathlib.Data.List.Nodup
import LispMachine.Proofs.Procedure.Applying

/-! # Arithmetic on any number of arguments

The arithmetic procedures combine their arguments two at a time, and every intermediate result is
brought back into 64 bits. The outcome is nevertheless the one of the exact operation on integers:
remainders may be taken at any time, and a quotient that is cut off at each step is cut off at the
same place as the quotient by the product.
-/

namespace LispMachine

open Machine

/-! ## Fixnums -/

/-- The fixnum `r` is the one that agrees with the integer `n` modulo `2 ^ 64`. -/
structure FixnumOf (n r : Int) : Prop where
  congruent : r ≡ n [ZMOD 2 ^ 64]
  lower : -2 ^ 63 ≤ r
  upper : r < 2 ^ 63

theorem FixnumOf.unique {n r r' : Int} (h : FixnumOf n r) (h' : FixnumOf n r') : r = r' := by
  have hmod : r % 2 ^ 64 = r' % 2 ^ 64 := h.congruent.trans h'.congruent.symm
  have := h.lower
  have := h.upper
  have := h'.lower
  have := h'.upper
  omega

theorem fixnumOf_wrap (n : Int) : FixnumOf n (wrap n) where
  congruent := Int.bmod_emod
  lower := Int.le_bmod (by decide)
  upper := Int.bmod_lt (by decide)

namespace Value

variable {op : Value → Value → Except Fault Value} {f : Int → Int → Int}

/-- An operation that does not mind that its left operand was wrapped needs to be wrapped only
once. -/
theorem foldlM_fixnum (hop : ∀ a b, op (fixnum a) (fixnum b) = .ok (fixnum (wrap (f a b))))
    (hwrap : ∀ a b, wrap (f (wrap a) b) = wrap (f a b)) (a : Int) (xs : List Int) :
    (xs.map fixnum).foldlM op (fixnum (wrap a)) = .ok (fixnum (wrap (xs.foldl f a))) := by
  induction xs generalizing a with
  | nil => rfl
  | cons x xs ih =>
    rw [List.map_cons, List.foldlM_cons, hop, hwrap]
    exact ih (f a x)

theorem foldlM_add (xs : List Int) :
    (xs.map fixnum).foldlM add (fixnum 0) = .ok (fixnum (wrap xs.sum)) := by
  rw [List.sum_eq_foldl]
  exact foldlM_fixnum (fun _ _ => rfl) (fun _ _ => Int.bmod_add_bmod) 0 xs

theorem foldlM_mul (xs : List Int) :
    (xs.map fixnum).foldlM mul (fixnum 1) = .ok (fixnum (wrap xs.prod)) := by
  rw [List.prod_eq_foldl]
  exact foldlM_fixnum (fun _ _ => rfl) (fun _ _ => Int.bmod_mul_bmod) 1 xs

theorem sub_fixnum (a b : Int) : sub (fixnum a) (fixnum b) = .ok (fixnum (wrap (a - b))) := by
  change Except.ok (fixnum (wrap (a + wrap (-b)))) = _
  rw [wrap, wrap, Int.add_bmod_bmod, Int.sub_eq_add_neg]
  rfl

/-- The subtrahends may as well be added first. -/
theorem foldlM_sub (x y : Int) (ys : List Int) :
    ((y :: ys).map fixnum).foldlM sub (fixnum x) = .ok (fixnum (wrap (x - (y :: ys).sum))) := by
  have hfold (a : Int) : ys.foldl (· - ·) a = a - ys.sum := by
    induction ys generalizing a with
    | nil => simp
    | cons z zs ih => rw [List.foldl_cons, ih, List.sum_cons, Int.sub_sub]
  rw [List.map_cons, List.foldlM_cons, sub_fixnum, List.sum_cons, ← Int.sub_sub, ← hfold]
  exact foldlM_fixnum sub_fixnum (fun _ _ => Int.bmod_sub_bmod) (x - y) ys

end Value

/-! ## Quotients -/

theorem tdiv_tdiv (a b c : Int) : (a.tdiv b).tdiv c = a.tdiv (b * c) := by
  obtain ⟨a, rfl | rfl⟩ := a.eq_nat_or_neg <;> obtain ⟨b, rfl | rfl⟩ := b.eq_nat_or_neg <;>
    obtain ⟨c, rfl | rfl⟩ := c.eq_nat_or_neg <;>
    simp only [Int.neg_tdiv, Int.tdiv_neg, Int.neg_mul, Int.mul_neg, Int.neg_neg, ← Int.ofNat_tdiv,
      ← Int.natCast_mul, Nat.div_div_eq_div_mul]

/-- Only the least fixnum has a quotient that does not fit. -/
theorem tdiv_bounds {x : Int} (lo : -2 ^ 63 < x) (hi : x < 2 ^ 63) (y : Int) :
    -2 ^ 63 < x.tdiv y ∧ x.tdiv y < 2 ^ 63 := by
  have hle := Int.natAbs_tdiv_le_natAbs x y
  omega

theorem Value.foldlM_div {x : Int} (lo : -2 ^ 63 < x) (hi : x < 2 ^ 63) (ys : List Int) :
    (ys.map fixnum).foldlM div (fixnum x) =
      if 0 ∈ ys then .error .divisionByZero else .ok (fixnum (x.tdiv ys.prod)) := by
  induction ys generalizing x with
  | nil => simp [pure, Except.pure]
  | cons y ys ih =>
    rw [List.map_cons, List.foldlM_cons]
    by_cases hy : y = 0
    · subst hy
      rw [if_pos List.mem_cons_self]
      rfl
    · obtain ⟨lo', hi'⟩ := tdiv_bounds lo hi y
      have hdiv : div (fixnum x) (fixnum y) = .ok (fixnum (x.tdiv y)) := by
        rw [← wrap_eq_self lo'.le hi']
        exact if_neg hy
      have hmem : 0 ∈ y :: ys ↔ 0 ∈ ys := by simp [Ne.symm hy]
      rw [hdiv, List.prod_cons, ← tdiv_tdiv, if_congr hmem rfl rfl]
      exact ih lo' hi'

/-! ## The procedures -/

theorem Arity.layout_atLeast (front further : List Value) (rest : Value) :
    (atLeast front.length).layout (front ++ further) rest = front ++ [rest] := by
  simp [layout, atLeast]

theorem Entered.arguments {segs : List Segment} {m m' : Machine} (front : List Value)
    {further : List Value} (h : Entered segs (front ++ further) (.atLeast front.length) m m') :
    ∃ rest, (∀ i v, (front ++ [rest])[i]? = some v → m'.readSlot 0 i = .ok v) ∧
      m'.heap.items rest = .ok further := by
  obtain ⟨rest, hslots, hitems, -⟩ := h.slots
  refine ⟨rest, fun i v hv => ?_, hitems.trans (congrArg _ List.drop_left)⟩
  rw [← Arity.layout_atLeast, ← hslots i] at hv
  cases hr : m'.readSlot 0 i with
  | ok w =>
    rw [hr] at hv
    exact congrArg _ (Option.some.inj hv)
  | error e =>
    rw [hr] at hv
    cases hv

namespace Standard

open Script

section Bodies

variable {segs : List Segment} {m m' : Machine} {host : Value → List Value → Exec Value}
  {first : Value} {further args : List Value}

theorem runScript_value (x : Except Fault Value) :
    runScript host (do return Outcome.value (← ofExcept x)) = yield (x.map .value) := by
  rw [runScript_bind, runScript_ofExcept]
  cases x <;> rfl

theorem runScript_arguments (h : Entered segs args (.atLeast 0) m m')
    (k : List Value → Script Outcome) :
    runScript host (do k (← items (← argument 0))) m' = runScript host (k args) m' := by
  obtain ⟨rest, hslots, hitems⟩ := Entered.arguments [] h
  rw [runScript_bind, bind_ok (runScript_argument (hslots 0 rest rfl)), runScript_bind,
    bind_ok (runScript_items hitems)]

theorem runScript_first_arguments (h : Entered segs (first :: further) (.atLeast 1) m m')
    (k : Value → List Value → Script Outcome) :
    runScript host (do let first ← argument 0; k first (← items (← argument 1))) m' =
      runScript host (k first further) m' := by
  obtain ⟨rest, hslots, hitems⟩ := Entered.arguments [first] h
  rw [runScript_bind, bind_ok (runScript_argument (hslots 0 first rfl)), runScript_bind,
    bind_ok (runScript_argument (hslots 1 rest rfl)), runScript_bind,
    bind_ok (runScript_items hitems)]

theorem computes_sum (args : List Value) :
    Procedure.Computes (.mk "+" (.atLeast 0) sum) args (args.foldlM Value.add (.fixnum 0)) where
  variadic := rfl
  required := Nat.zero_le _
  body h host := by rw [sum, runScript_arguments h, fold, runScript_value]

theorem computes_product (args : List Value) :
    Procedure.Computes (.mk "*" (.atLeast 0) product) args (args.foldlM Value.mul (.fixnum 1)) where
  variadic := rfl
  required := Nat.zero_le _
  body h host := by rw [product, runScript_arguments h, fold, runScript_value]

theorem computes_negation (x : Value) :
    Procedure.Computes (.mk "-" (.atLeast 1) difference) [x] x.negate where
  variadic := rfl
  required := le_rfl
  body h host := by rw [difference, runScript_first_arguments h, runScript_value]

theorem computes_difference (x y : Value) (ys : List Value) :
    Procedure.Computes (.mk "-" (.atLeast 1) difference) (x :: y :: ys)
      ((y :: ys).foldlM Value.sub x) where
  variadic := rfl
  required := Nat.le_add_left ..
  body h host := by
    rw [difference, runScript_first_arguments h]
    exact congrFun (runScript_value _) _

theorem computes_quotient (x y : Value) (ys : List Value) :
    Procedure.Computes (.mk "/" (.atLeast 1) quotient) (x :: y :: ys)
      ((y :: ys).foldlM Value.div x) where
  variadic := rfl
  required := Nat.le_add_left ..
  body h host := by
    rw [quotient, runScript_first_arguments h]
    exact congrFun (runScript_value _) _

end Bodies

/-! ## Exactness -/

theorem gives_sum (xs : List Int) : Gives "+" (xs.map .fixnum) (.ok (.fixnum (wrap xs.sum))) := by
  have h := computes_sum (xs.map .fixnum)
  rw [Value.foldlM_add] at h
  exact gives_of_computes (by simp [procedures]) h (by simp)

theorem gives_product (xs : List Int) :
    Gives "*" (xs.map .fixnum) (.ok (.fixnum (wrap xs.prod))) := by
  have h := computes_product (xs.map .fixnum)
  rw [Value.foldlM_mul] at h
  exact gives_of_computes (by simp [procedures]) h (by simp)

theorem gives_negation (x : Int) : Gives "-" [.fixnum x] (.ok (.fixnum (wrap (-x)))) :=
  gives_of_computes (by simp [procedures]) (computes_negation (.fixnum x)) (by simp [Value.negate])

theorem gives_difference (x : Int) {xs : List Int} (hne : xs ≠ []) :
    Gives "-" (.fixnum x :: xs.map .fixnum) (.ok (.fixnum (wrap (x - xs.sum)))) := by
  obtain ⟨y, ys, rfl⟩ := List.exists_cons_of_ne_nil hne
  have h := computes_difference (.fixnum x) (.fixnum y) (ys.map .fixnum)
  rw [← List.map_cons, Value.foldlM_sub] at h
  exact gives_of_computes (by simp [procedures]) h (by simp)

theorem gives_quotient {x : Int} (lo : -2 ^ 63 < x) (hi : x < 2 ^ 63) {xs : List Int}
    (hne : xs ≠ []) :
    Gives "/" (.fixnum x :: xs.map .fixnum)
      (if 0 ∈ xs then .error .divisionByZero else .ok (.fixnum (x.tdiv xs.prod))) := by
  obtain ⟨y, ys, rfl⟩ := List.exists_cons_of_ne_nil hne
  have h := computes_quotient (.fixnum x) (.fixnum y) (ys.map .fixnum)
  rw [← List.map_cons, Value.foldlM_div lo hi] at h
  refine gives_of_computes (by simp [procedures]) h ?_
  split <;> simp

/-- The arithmetic procedures are exact modulo `2 ^ 64`, whatever the order of what they add up or
multiply. A quotient is the one by the product of the divisors, cut off toward zero. -/
theorem arithmetic_exact :
    (∀ xs : List Int, ∃ r, FixnumOf xs.sum r ∧
      ∀ ys : List Int, ys.Perm xs → Gives "+" (ys.map .fixnum) (.ok (.fixnum r))) ∧
    (∀ xs : List Int, ∃ r, FixnumOf xs.prod r ∧
      ∀ ys : List Int, ys.Perm xs → Gives "*" (ys.map .fixnum) (.ok (.fixnum r))) ∧
    (∀ x : Int, ∃ r, FixnumOf (-x) r ∧ Gives "-" [.fixnum x] (.ok (.fixnum r))) ∧
    (∀ (x : Int) (xs : List Int), xs ≠ [] → ∃ r, FixnumOf (x - xs.sum) r ∧
      ∀ ys : List Int, ys.Perm xs → Gives "-" (.fixnum x :: ys.map .fixnum) (.ok (.fixnum r))) ∧
    ∀ (x : Int) (xs : List Int), -2 ^ 63 < x → x < 2 ^ 63 → xs ≠ [] →
      Gives "/" (.fixnum x :: xs.map .fixnum)
        (if 0 ∈ xs then .error .divisionByZero else .ok (.fixnum (x.tdiv xs.prod))) := by
  refine ⟨fun xs => ⟨_, fixnumOf_wrap _, fun ys hys => ?_⟩,
    fun xs => ⟨_, fixnumOf_wrap _, fun ys hys => ?_⟩,
    fun x => ⟨_, fixnumOf_wrap _, gives_negation x⟩,
    fun x xs hne => ⟨_, fixnumOf_wrap _, fun ys hys => ?_⟩, fun x xs lo hi => gives_quotient lo hi⟩
  · rw [← hys.sum_eq]
    exact gives_sum ys
  · rw [← hys.prod_eq]
    exact gives_product ys
  · have hne' : ys ≠ [] := by
      rintro rfl
      exact hne hys.nil_eq.symm
    rw [← hys.sum_eq]
    exact gives_difference x hne'

/-- A stack of three cells is large enough: the sum of the greatest fixnum and one is the least,
minus seven divided by minus two and by three is one, and a zero among the divisors is not
allowed. -/
theorem arithmetic_exact_on_three_cells :
    (∃ m r m', installStandard (Machine.new 3) = .ok () m ∧ m.global? "+" = some (.procedure r) ∧
      ∀ n, call (n + 3) (.procedure r) [.fixnum 1, .fixnum (2 ^ 63 - 1)] m =
        .ok (.fixnum (-2 ^ 63)) m') ∧
    (∃ m r m', installStandard (Machine.new 3) = .ok () m ∧ m.global? "/" = some (.procedure r) ∧
      ∀ n, call (n + 3) (.procedure r) [.fixnum (-7), .fixnum (-2), .fixnum 3] m =
        .ok (.fixnum 1) m') ∧
    ∃ m r m', installStandard (Machine.new 3) = .ok () m ∧ m.global? "/" = some (.procedure r) ∧
      ∀ n, call (n + 3) (.procedure r) [.fixnum (-7), .fixnum 0, .fixnum 3] m =
        .error (.fault .divisionByZero) m' := by
  obtain ⟨hsum, -, -, -, hquotient⟩ := arithmetic_exact
  refine ⟨?_, ?_, ?_⟩
  · obtain ⟨r, hr, hgives⟩ := hsum [2 ^ 63 - 1, 1]
    obtain rfl : r = -2 ^ 63 := hr.unique ⟨by decide, by decide, by decide⟩
    exact (hgives [1, 2 ^ 63 - 1] (.swap ..)).new 3 (by decide)
  · exact (hquotient (-7) [-2, 3] (by decide) (by decide) (by decide)).new 3 (by decide)
  · exact (hquotient (-7) [0, 3] (by decide) (by decide) (by decide)).new 3 (by decide)

end Standard

end LispMachine
