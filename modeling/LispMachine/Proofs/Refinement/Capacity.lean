import LispMachine.Proofs.Control.Cells
import LispMachine.Proofs.Refinement.Results

/-! # Runs at different capacities

A whole run refines the run without a stack. So two runs of the same program on stacks of different
sizes end alike, unless one of them overflows. Whether this may happen is said by two numbers that
the run without a stack has counted.
-/

namespace LispMachine

open Machine

variable {ρ : Naming} {segs : List Segment} {lo : Nat} {m : Machine} {r : HeapMachine}

/-! ## Whole runs -/

theorem Refines.attempt_bind {x : Exec Unit} {y : HeapExec Unit} {f : Except Fault Unit → Exec Unit}
    {g : Except Fault Unit → HeapExec Unit} (h : Refines (x m) (y r))
    (hg : ∀ b, HeapMachine.Grows (g b))
    (hok : ∀ {ρ segs lo m r}, Represents ρ segs lo m r → Refines (f (.ok ()) m) (g (.ok ()) r))
    (hfault : ∀ {ρ segs lo m r e e'}, SameFault e e' → Represents ρ segs lo m r →
      Refines (f (.error e) m) (g (.error e') r))
    (hoverflow : ∀ {e} m, e.IsOverflow →
      ∃ m', f (.error e) m = .error (.fault e) m' ∧ m'.capacity = m.capacity) :
    Refines ((attempt x >>= f) m) ((Machine.attempt y >>= g) r) := by
  have hdemanded := HeapMachine.demanded_le_bind (x := Machine.attempt y) (r := r) hg
  rw [HeapMachine.demanded, final_attempt] at hdemanded
  generalize hx : x m = X at h
  generalize hy : y r = Y at h hdemanded
  cases h with
  | ok h =>
    rw [bind_ok (attempt_ok hx), bind_ok (attempt_ok hy)]
    exact hok h
  | fault hf h =>
    rw [bind_ok (attempt_fault hx), bind_ok (attempt_fault hy)]
    exact hfault hf h
  | unfinished =>
    rw [bind_error (show attempt x m = .error .unfinished _ by rw [attempt, hx]),
      bind_error (show Machine.attempt y r = .error .unfinished _ by
        rw [Machine.attempt, hy])]
    exact .unfinished
  | @overflow e m₁ _ he hcap =>
    obtain ⟨m₂, hm₂, hsame⟩ := hoverflow m₁ he
    rw [bind_ok (attempt_fault hx), hm₂]
    exact .overflow he (hsame ▸ hcap.trans_le hdemanded)
  | stuck =>
    rw [bind_error (show Machine.attempt y r = .error .stuck _ by rw [Machine.attempt, hy])]
    exact .stuck

theorem SameFault.eq_unwound_iff {f g : Fault} (h : SameFault f g) :
    f = .unwound ↔ g = .unwound := by
  cases h with
  | same => rfl
  | slotIndex => simp

theorem Represents.stopWith_refines (h : Represents ρ segs lo m r) {f g : Fault}
    (hf : SameFault f g) : Refines (stopWith f m) (Machine.stopWith g r) := by
  have hw : { r.hosts with escape := none }.Within r.hosts := ⟨fun _ h => h, rfl, fun _ h => h, rfl⟩
  simp only [Machine.stopWith, adjust_bind_apply, HeapMachine.adjust_bind_apply, h.hosts]
  exact .fault hf ((h.withHosts (hw.sound h.sound)).withRunnable false)

theorem Represents.runLoop_refines (h : Represents ρ segs lo m r) (n : Nat) :
    Refines (Machine.runLoop n m) (Machine.runLoop n r) := by
  induction n generalizing ρ segs lo m r with
  | zero => exact .unfinished
  | succ n ih =>
    rw [Machine.runLoop, Machine.runLoop]
    simp only [get_bind_apply, HasRegisters.registers, h.runnable]
    cases r.runnable with
    | false => exact .ok h
    | true =>
      refine (h.step_refines n).attempt_bind (fun outcome => ?_) ih ?_ ?_
      · cases outcome with
        | ok => exact preserves_runLoop n
        | error f => exact preserves_afterFault (preserves_runLoop n) f
      · rintro ρ segs lo m r f g hf h
        simp only [get_bind_apply]
        have hiff : (f = .unwound ∧ ((!m.runnable) = true ∨ m.hosts.escape = some .run)) ↔
            (g = .unwound ∧ ((!r.runnable) = true ∨ r.hosts.escape = some .run)) := by
          rw [hf.eq_unwound_iff, h.runnable, h.hosts]
        by_cases hc : g = .unwound ∧ ((!r.runnable) = true ∨ r.hosts.escape = some .run)
        · rw [if_pos (hiff.2 hc), if_pos hc]
          have hw : { r.hosts with escape := none }.Within r.hosts :=
            ⟨fun _ h => h, rfl, fun _ h => h, rfl⟩
          simp only [adjust_bind_apply, HeapMachine.adjust_bind_apply, h.hosts]
          exact ih (h.withHosts (hw.sound h.sound))
        · rw [if_neg (mt hiff.1 hc), if_neg hc]
          exact h.stopWith_refines hf
      · rintro f m (rfl | rfl) <;> exact ⟨_, rfl, rfl⟩

theorem Represents.run_refines (h : Represents ρ segs lo m r) (n : Nat) :
    Refines (Machine.run n m) (Machine.run n r) := by
  rw [Machine.run, Machine.run]
  simp only [get_bind_apply, HasRegisters.registers, h.runnable]
  cases r.runnable with
  | false => exact .fault (.same .notRunnable) h
  | true =>
    refine ((h.withRunning true).runLoop_refines n).attempt_bind
      preserves_afterLoop ?_ ?_ ?_
    · rintro ρ segs lo m r h
      exact .ok (h.withRunning false)
    · rintro ρ segs lo m r f g hf h
      exact .fault hf (h.withRunning false)
    · rintro f m hf
      exact ⟨_, rfl, rfl⟩

theorem Setup.Closed.run_refines {s : Setup} (hs : s.Closed) (capacity n : Nat) :
    Refines (s.onMachine capacity (Machine.run n)) (s.onHeapMachine (Machine.run n)) :=
  hs.refines capacity (preserves_run n) fun h => h.run_refines n

/-! ## Results -/

/-- If a run halts, so does the one without a stack, given that it is not stuck. -/
theorem Setup.Closed.exists_of_halts {s : Setup} (hs : s.Closed) {n N : Nat} {m : Machine}
    (hstuck : ∀ r, s.onHeapMachine (Machine.run n) ≠ .error .stuck r)
    (hN : s.onMachine N (Machine.run n) = .ok () m) :
    ∃ r, s.onHeapMachine (Machine.run n) = .ok () r := by
  have h := hs.run_refines N n
  rw [hN] at h
  generalize s.onHeapMachine (Machine.run n) = y at h hstuck
  cases h with
  | ok => exact ⟨_, rfl⟩
  | stuck => exact absurd rfl (hstuck _)

/-- A run that halts on one stack halts on any other one with the same result, unless it overflows
there, given that the run without a stack is not stuck. -/
theorem Setup.Closed.run_sameResult {s : Setup} (hs : s.Closed) (n N M : Nat)
    (hstuck : ∀ r, s.onHeapMachine (Machine.run n) ≠ .error .stuck r) {m : Machine}
    (hN : s.onMachine N (Machine.run n) = .ok () m)
    (hM : ¬ Overflowed (s.onMachine M (Machine.run n))) :
    ∃ m' r ρ σ, s.onMachine M (Machine.run n) = .ok () m' ∧
      s.onHeapMachine (Machine.run n) = .ok () r ∧ SameResult ρ σ r m m' := by
  have h := (hs.run_refines N n).sameOutcome hstuck
  have h' := ((hs.run_refines M n).sameOutcome hstuck).resolve_left hM
  rw [hN] at h
  generalize hx : s.onMachine M (Machine.run n) = x at h'
  generalize hy : s.onHeapMachine (Machine.run n) = y at h h'
  rcases h with ⟨f, m₁, hf, -⟩ | h
  · cases hf
  · cases h with
    | ok h =>
      cases h' with
      | ok h' => exact ⟨_, _, _, _, rfl, rfl, h.sameResult h'⟩

theorem exists_of_ending {x : EStateM.Result Stop Machine Unit} (h : ending x = .ok ()) :
    ∃ m, x = .ok () m := by
  cases x with
  | ok u m => exact ⟨m, rfl⟩
  | error => cases h

/-! ## How many cells a run asks for -/

theorem Setup.keepsCells_begin (s : Setup) : KeepsCells s.begin := by
  refine .bind ⟨fun m => Array.size_replicate⟩ fun _ => (preserves_setAcc _).bind fun _ => ?_
  exact (preserves_setArgc _).bind fun _ => StoragePreserves.pushAll _

theorem Setup.capacity_onMachine (s : Setup) (capacity n : Nat) :
    (final (s.onMachine capacity (Machine.run n))).capacity = capacity :=
  ((s.keepsCells_begin.bind fun _ => preserves_run n).related _).trans Array.size_replicate

/-- What a run has asked of a stack by the time it ends. No stack is needed to find out. -/
def Setup.demand (s : Setup) (n : Nat) : Demand :=
  match s.onHeapMachine (Machine.run n) with
  | .ok _ r | .error _ r => r.demand

section Demand

variable {s : Setup} {n capacity : Nat}

theorem Setup.Closed.least_le (hs : s.Closed)
    (hr : s.onHeapMachine (Machine.run n) = .ok () r)
    (hm : s.onMachine capacity (Machine.run n) = .ok () m) : (s.demand n).least ≤ capacity := by
  have h := hs.run_refines capacity n
  have hcap := s.capacity_onMachine capacity n
  rw [hm] at h hcap
  rw [hr] at h
  rw [Setup.demand, hr]
  cases h with
  | ok h => exact h.least.trans_eq hcap

theorem Setup.Closed.lt_enough (hs : s.Closed)
    (hr : s.onHeapMachine (Machine.run n) = .ok () r)
    (ho : Overflowed (s.onMachine capacity (Machine.run n))) : capacity < (s.demand n).enough := by
  obtain ⟨f, m, hm, -⟩ := ho
  have h := hs.run_refines capacity n
  have hcap := s.capacity_onMachine capacity n
  rw [hm] at h hcap
  rw [hr] at h
  rw [Setup.demand, hr]
  cases h with
  | overflow _ hlt => exact hcap.symm.trans_lt hlt

end Demand

/-- A run that halts on one stack overflows on any other one or halts with the same result, given
that the run without a stack is not stuck. It overflows where there are fewer cells than the least
that it asks for, and the stack on which it halts has as many. It does not overflow where there are
enough. Between the two both may happen; so if they are the same number, every larger stack will
do. -/
theorem Setup.Closed.run_by_capacity {s : Setup} (hs : s.Closed) (n N M : Nat)
    (hstuck : ∀ r, s.onHeapMachine (Machine.run n) ≠ .error .stuck r) {m : Machine}
    (hN : s.onMachine N (Machine.run n) = .ok () m) :
    (Overflowed (s.onMachine M (Machine.run n)) ∨
      ∃ m' r ρ σ, s.onMachine M (Machine.run n) = .ok () m' ∧
        s.onHeapMachine (Machine.run n) = .ok () r ∧ SameResult ρ σ r m m') ∧
    (s.demand n).least ≤ N ∧
    (M < (s.demand n).least → Overflowed (s.onMachine M (Machine.run n))) ∧
    ((s.demand n).enough ≤ M ∨ N ≤ M ∧ (s.demand n).least = (s.demand n).enough →
      ¬ Overflowed (s.onMachine M (Machine.run n))) := by
  obtain ⟨r, hr⟩ := hs.exists_of_halts hstuck hN
  have hleast : (s.demand n).least ≤ N := hs.least_le hr hN
  have hM := or_iff_not_imp_left.2 (hs.run_sameResult n N M hstuck hN)
  refine ⟨hM, hleast, fun hlt => hM.resolve_right ?_, fun henough ho => ?_⟩
  · rintro ⟨m', -, -, -, hm', -⟩
    exact hlt.not_ge (hs.least_le hr hm')
  · have hlt := hs.lt_enough hr ho
    omega

/-- Five cells are as many as are needed, and all that any larger stack is needed for. -/
theorem Setup.fibonacci_run_by_capacity :
    ∃ m m' r ρ σ, (fibonacci 3).onMachine 5 (Machine.run 200) = .ok () m ∧
      (fibonacci 3).onMachine 40 (Machine.run 200) = .ok () m' ∧
      (fibonacci 3).onHeapMachine (Machine.run 200) = .ok () r ∧ SameResult ρ σ r m m' ∧
      Overflowed ((fibonacci 3).onMachine 4 (Machine.run 200)) := by
  have hdemand : ((fibonacci 3).demand 200).least = 5 ∧ ((fibonacci 3).demand 200).enough = 5 := by
    decide +kernel
  have hstuck := ne_stuck_of_ending
    (x := (fibonacci 3).onHeapMachine (Machine.run 200)) (by decide +kernel)
  obtain ⟨m, hm⟩ := exists_of_ending
    (x := (fibonacci 3).onMachine 5 (Machine.run 200)) (by decide +kernel)
  obtain ⟨hmore, -, -, hfits⟩ := (fibonacci_closed 3).run_by_capacity 200 5 40 hstuck hm
  obtain ⟨-, -, hless, -⟩ := (fibonacci_closed 3).run_by_capacity 200 5 4 hstuck hm
  obtain ⟨m', r, ρ, σ, hm', hr, h⟩ := hmore.resolve_left (hfits (by omega))
  exact ⟨m, m', r, ρ, σ, hm, hm', hr, h, hless (by omega)⟩

/-! ## Where the capacity matters -/

def Setup.ofCode (code : Code) : Setup := { program := { code } }

/-- Two return points that share pending values. Each takes its own copy of them to the heap. -/
def sharedValues : Code :=
  #[0x01, 0x01, 0x89, 12, 0, 0, 0, 0x89, 6, 0, 0, 0, 0x01, 0x01, 0x01, 0x01, 0x01, 0x0d, 0x0d, 0x14]

/-- Leaves a frame while a return point above it is pending. -/
def leavesNeededFrame : Code :=
  #[0xca, 0, 2, 0, 0x89, 3, 0, 0, 0, 0x65, 0, 0x0d, 0x14]

/-- Leaves a frame and pushes four values before entering another one. -/
def pushesAfterLeaving : Code :=
  #[0x89, 0, 0, 0, 0, 0xca, 0, 0, 0, 0x65, 0, 0x44, 1, 0, 0, 0, 0x01, 0x44, 2, 0, 0, 0, 0x01, 0x44,
    3, 0, 0, 0, 0x01, 0x44, 4, 0, 0, 0, 0x01, 0x02, 0x02, 0x14]

/-- A larger stack may overflow where a smaller one does not. It may also end in other ways, if
frames are left while they are needed or values are pushed before the next frame is entered. -/
theorem run_depends_on_capacity :
    (ending ((Setup.ofCode sharedValues).onHeapMachine (Machine.run 30)) = .ok () ∧
      ending ((Setup.ofCode sharedValues).onMachine 9 (Machine.run 30)) = .ok () ∧
      ending ((Setup.ofCode sharedValues).onMachine 10 (Machine.run 30)) =
        .error (.fault .stackOverflow)) ∧
    (ending ((Setup.ofCode leavesNeededFrame).onMachine 4 (Machine.run 30)) = .ok () ∧
      ending ((Setup.ofCode leavesNeededFrame).onMachine 16 (Machine.run 30)) =
        .error (.fault .invalidContinuation)) ∧
    (ending ((Setup.ofCode pushesAfterLeaving).onMachine 6 (Machine.run 30)) = .ok () ∧
      ending ((Setup.ofCode pushesAfterLeaving).onMachine 7 (Machine.run 30)) =
        .error (.fault .stackUnderflow)) := by
  decide +kernel

-- both bounds are attained: six cells do, ten do not, and eleven are enough
example : ((Setup.ofCode sharedValues).demand 30).least = 6 ∧
    ((Setup.ofCode sharedValues).demand 30).enough = 11 ∧
    ending ((Setup.ofCode sharedValues).onMachine 6 (Machine.run 30)) = .ok () := by
  decide +kernel

end LispMachine
