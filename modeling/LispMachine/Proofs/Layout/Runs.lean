import LispMachine.Proofs.Layout.Calls
import LispMachine.Proofs.Refinement.Steps

/-! # Orderly runs keep the stack laid out

A run whose instructions are all orderly keeps the stack laid out well from its start to its end. So
it never takes anything else for a frame or a return point.
-/

namespace LispMachine

open Machine

variable {before : HostCalls} {left : Bool} {ρ : Naming} {m : Machine}

/-- The stack is laid out well at the end. The run ends with no fault that comes from cells that
were taken for something else: a continuation is invalid only if it ends a host call that is
over. -/
def EndsWell (left : Bool) : EStateM.Result Stop Machine Unit → Prop
  | .ok _ m => m.LaidOut left
  | .error (.fault f) m => m.LaidOut true ∧ f ≠ .invalidEnvironment ∧ f ≠ .stackUnderflow ∧
      (f = .invalidContinuation → m.Orphaned)
  | .error _ _ => True

theorem Represented.laidOut (h : Represented m) : m.LaidOut true := by
  obtain ⟨ρ, segs, lo, r, h⟩ := h
  exact h.laidOut nofun

theorem Settled.laidOut (h : Settled before left ρ m) : m.LaidOut left := by
  obtain ⟨r, segs, lo, h, -, hl⟩ := h
  exact h.laidOut hl

theorem Settled.represented (h : Settled before left ρ m) : Represented m := by
  obtain ⟨r, hl⟩ := h
  exact hl.represented

theorem NotAboutLayout.endsWell {f : Fault} (hf : NotAboutLayout f m) (hm : Represented m) :
    EndsWell left (.error (.fault f) m) := by
  refine ⟨hm.laidOut, ?_⟩
  rcases hf with hf | (rfl | rfl) | ⟨rfl, hm⟩
  · refine ⟨?_, ?_, ?_⟩ <;>
    · rintro rfl
      cases hf
  · exact ⟨nofun, nofun, nofun⟩
  · exact ⟨nofun, nofun, nofun⟩
  · exact ⟨nofun, nofun, fun _ => hm⟩

theorem Represented.endsWell_unwound (hm : Represented m) :
    EndsWell left (.error (.fault .unwound) m) :=
  ⟨hm.laidOut, nofun, nofun, nofun⟩

theorem Keeps.endsWell {α : Type} {Q : Bool → Naming → α → Machine → Prop} {s : Stop}
    (h : Keeps before left ρ Q (.error s m)) : EndsWell left (.error s m) := by
  cases h with
  | fault hf hm => exact hf.endsWell hm
  | unwound _ hs => exact hs.represented.endsWell_unwound
  | unfinished => trivial
  | stuck => trivial

theorem Settled.runLoop (hrunning : before.running = true) (hs : Settled before left ρ m)
    (n : Nat) :
    Sustained left (runLoopVisits n m) fun left => EndsWell left (Machine.runLoop n m) := by
  induction n generalizing before left ρ m with
  | zero => exact fun _ => ⟨along_nil, trivial⟩
  | succ n ih =>
    rw [Machine.runLoop, runLoopVisits]
    simp only [get_bind_apply, registers_eq]
    by_cases hrun : m.runnable = true
    · simp only [hrun, if_true]
      obtain ⟨r, segs, lo, h, hh, hl⟩ := hs
      have hr : r.hosts.running = true := hh.running.trans hrunning
      have hi : InStep r.hosts left ρ m r := ⟨segs, lo, h, ⟨rfl, .inr fun _ h => h⟩, hl⟩
      have hstep : Sustains r.hosts left ρ _ _ _ := ((callsSustain n).step hr hi).attempt
      refine hstep.bind_end ?_ fun _ _ _ hk => hk.endsWell
      rintro σ outcome m' - - hout
      have hw : { m'.hosts with escape := none }.Within m'.hosts :=
        ⟨fun _ h => h, rfl, fun _ h => h, rfl⟩
      cases hout with
      | ok hs' => exact ih hr hs'
      | @fault f _ hf hm =>
        have hc : ¬ (f = .unwound ∧ ((!m'.runnable) = true ∨ m'.hosts.escape = some .run)) :=
          fun hc => hf.ne_unwound hc.1
        simp only [get_bind_apply, if_neg hc]
        exact fun _ => ⟨along_nil, (hf.within hw false).endsWell (hm.withHosts hw false)⟩
      | unwound hs' =>
        simp only [get_bind_apply]
        split
        · exact ih hr (hs'.within hw)
        · exact fun _ => ⟨along_nil, (hs'.represented.withHosts hw false).endsWell_unwound⟩
    · simp only [hrun]
      exact fun _ => ⟨along_nil, hs.laidOut⟩

/-! ## Whole runs -/

section Hosts

variable {calls : HostCalls}

theorem Machine.OnChain.of_withHosts {k : Cont} (h : OnChain { m with hosts := calls } k) :
    m.OnChain k := by
  induction h with
  | current => exact .current
  | point _ hp ih => exact .point ih hp
  | object _ hc ih => exact .object ih hc

theorem Machine.InScope.of_withHosts {env : Env} (h : InScope { m with hosts := calls } env) :
    m.InScope env := by
  induction h with
  | current => exact .current
  | point hk hp => exact .point hk.of_withHosts hp
  | object hk hc => exact .object hk.of_withHosts hc
  | around _ hm ih => exact .around ih hm

theorem Machine.LaidOut.withHosts (h : m.LaidOut left) :
    LaidOut left { m with hosts := calls } where
  sp_le := h.sp_le
  bp_le := h.bp_le
  frames e he := h.frames e he.of_withHosts
  points c hc := h.points c hc.of_withHosts

end Hosts

theorem Settled.run (hs : Settled before left ρ { m with hosts.running := true })
    (hrunning : before.running = true) (n : Nat) :
    Sustained left (runVisits n m) fun left => EndsWell left (Machine.run n m) := by
  by_cases hrun : m.runnable = true
  · refine (hs.runLoop hrunning n).imp fun left' h => ?_
    rw [Machine.run, get_bind_apply, registers_eq, if_pos hrun]
    -- only the note that a run is going on is taken back
    change EndsWell left' ((attempt (Machine.runLoop n) >>= _) { m with hosts.running := true })
    cases hx : Machine.runLoop n { m with hosts.running := true } with
    | ok _ m' =>
      rw [hx] at h
      rw [bind_ok (attempt_ok hx)]
      exact LaidOut.withHosts h
    | error s m' =>
      rw [hx] at h
      cases s with
      | fault f =>
        rw [bind_ok (attempt_fault hx)]
        exact ⟨h.1.withHosts, h.2⟩
      | unfinished =>
        rw [bind_error (show attempt _ _ = .error .unfinished m' by rw [attempt, hx])]
        trivial
      | stuck =>
        rw [bind_error (show attempt _ _ = .error .stuck m' by rw [attempt, hx])]
        trivial
  · have hvisits : runVisits n m = [] := by
      cases n with
      | zero => rfl
      | succ n => simp [runVisits, runLoopVisits, hrun]
    have hresult : Machine.run n m = .error (.fault .notRunnable) m := by
      simp only [Machine.run, get_bind_apply, registers_eq, hrun]
      rfl
    rw [hvisits, hresult]
    have hm : LaidOut true m := hs.represented.laidOut.withHosts
    exact fun _ => ⟨along_nil, hm, by simp⟩

def Setup.visits (s : Setup) (capacity n : Nat) : List Machine :=
  after s.begin (fun _ => runVisits n) { new capacity with heap := s.heap, globals := s.globals }

/-- As long as all the instructions of a run are orderly, the stack is laid out well in every state
it comes to. -/
theorem Setup.Closed.run_laidOut {s : Setup} (hs : s.Closed) (capacity n : Nat)
    (ho : Along Orderly false (s.visits capacity n)) :
    Along LaidOut false (s.visits capacity n) ∧
      EndsWell (leftAfterAll false (s.visits capacity n)) (s.onMachine capacity (run n)) := by
  have hbegin : Sustains {} false (.ofHeap s.heap) (fun _ σ _ m => ∃ r, InStep {} false σ m r) []
      (s.begin { new capacity with heap := s.heap, globals := s.globals }) :=
    (hs.begin_follows.keeps fun σ _ _ m r _ hi => ⟨r, hi⟩).sustains
  refine hbegin.bind_end ?_ (fun _ _ _ hk => hk.endsWell) ho
  rintro σ - m - - ⟨r, segs, lo, h, -, hl⟩
  have hs : Settled { r.hosts with running := true } false σ { m with hosts.running := true } :=
    ⟨_, segs, lo, h.withRunning true, ⟨rfl, .inr fun _ h => h⟩, hl⟩
  exact hs.run rfl n

section Escape

open Sample

/-- Leaves the loop of a host procedure: the one that is mapped over a list calls a continuation. -/
def Sample.escape : Sample where
  body :=
    [ .branch .returnPoint "after",
      .branch .closure "receiver", plain .push, number .loadLiteral 0, count .apply 1,
      .label "after", plain .halt,
      .label "receiver", frame 1,
      .branch .closure "item", plain .push,
      number .loadInteger 7, plain .push, plain .loadNil, plain .cons, plain .push,
      number .loadLiteral 1, count .reuseFrame 2, count .apply 2,
      .label "item", frame 1,
      count .loadLocal 0, plain .push, .instruction .loadOuter (.pair 1 0),
      count .reuseFrame 1, count .apply 1 ]

def Setup.escape : Setup where
  program :=
    { code := Sample.escape.code.toOption.getD #[], literals := #[.procedure ⟨0⟩, .procedure ⟨11⟩] }
  heap := { procedures := Standard.procedures.toArray }

end Escape

theorem Setup.escape_closed : escape.Closed where
  heap := Heap.closed_standard
  globals := by simp [escape]
  literals := by simp [escape, Value.ClosedIn]
  acc := by simp [escape, Value.ClosedIn]
  args := by simp [escape]

/-- Six of the instructions belong to the loop of the host procedure, and the eight cells run full
twice on the way. -/
theorem Setup.escape_run_laidOut :
    (escape.visits 8 40).length = 23 ∧ Along LaidOut false (escape.visits 8 40) ∧
      EndsWell (leftAfterAll false (escape.visits 8 40)) (escape.onMachine 8 (run 40)) :=
  ⟨by decide +kernel, escape_closed.run_laidOut 8 40 (by decide +kernel)⟩

end LispMachine
