import LispMachine.Proofs.Control.Soundness

/-! # Machines at rest

A program is loaded into a machine. From then on the host may use it in any way that leaves the host
calls alone, and give it tasks. Loading another program makes the calls be numbered from the
beginning again, while the continuations that were made before are still there.
-/

namespace LispMachine

open Machine LispMachine.Configuration

/-- A machine at rest that comes from one load. It had not made any continuations before. -/
inductive Reached : Machine → Prop
  | load {m m' : Machine} (p : Program) : m.heap.continuations = #[] →
      (∀ q ∈ m.heap.procedures, q.body.PropagatesFaults) → load p m = .ok () m' → Reached m'
  | operate {m m' : Machine} : Reached m → Proceeds m m' → Reached m'
  | done {m m' : Machine} {t : Task} {n : Nat} {v : Value} : Reached m →
      t.exec n m = .ok v m' → Reached m'
  | failed {m m' : Machine} {t : Task} {n : Nat} {f : Fault} : Reached m →
      t.exec n m = .error (.fault f) m' → Reached m'

/-- A machine at rest that the host has made, loaded any number of times and used in any way: it has
pushed and popped values, captured continuations, defined globals, installed procedures that hand on
what they are told, and given it tasks. The first `old` continuations were made before the last
load. -/
inductive Used : Nat → Machine → Prop
  | new (capacity : Nat) : Used 0 (.new capacity)
  | load {old : Nat} {m m' : Machine} (p : Program) : Used old m → load p m = .ok () m' →
      Used m.heap.continuations.size m'
  | operate {old : Nat} {m m' : Machine} : Used old m → Proceeds m m' → Used old m'
  | done {old : Nat} {m m' : Machine} {t : Task} {n : Nat} {v : Value} : Used old m →
      t.exec n m = .ok v m' → Used old m'
  | failed {old : Nat} {m m' : Machine} {t : Task} {n : Nat} {f : Fault} : Used old m →
      t.exec n m = .error (.fault f) m' → Used old m'

/-- The host may call the machine: it is at rest, or a procedure of the host is at work that has not
failed. -/
inductive Callable : Machine → Context → Prop
  | resting {m : Machine} : Reached m → Callable m .outside
  | working {m₀ m : Machine} {t : Task} {k : Context} {s : Script Outcome} : Reached m₀ →
      Reaches (t.start m₀) ⟨m, k, .script s⟩ → (∀ f, s ≠ .fail f) → Callable m k

structure Resting (m : Machine) : Prop where
  calls : CallsMatch m .outside
  quiet : m.hosts.NonePending

variable {m m' : Machine} {k : Context} {c : Configuration}

theorem Resting.start (h : Resting m) (t : Task) : (t.start m).Sound ∨ (t.start m).Aborted := by
  obtain ⟨hcalls, hq⟩ := h
  cases t with
  | step => exact hcalls.instruct hq
  | apply => exact .inl ⟨hcalls, hq⟩
  | run =>
    rw [Task.start]
    split
    · refine .inl ⟨⟨hcalls.owners.of_same rfl, hcalls.active, rfl, trivial⟩, ?_⟩
      exact HostCalls.NonePending.loop (m := m.startRun) ⟨hq.1, hq.2⟩ .run
    · exact .inl ⟨hcalls, hq⟩
  | call callee args =>
    exact Sound.begin (fun _ h => by cases h) (fun _ => rfl) hcalls hq callee args

theorem Resting.sound (h : Resting m) {t : Task} (hc : Reaches (t.start m) c) (hl : ¬ c.Aborted) :
    c.Sound := by
  rcases h.start t with hs | hs
  · exact hs.reaches hc hl
  · obtain ⟨n, rfl⟩ := hc
    rw [Function.iterate_fixed hs.advance] at hl
    exact absurd hs hl

theorem Resting.done {v : Value} {t : Task} {n : Nat} (h : Resting m) (ht : t.exec n m = .ok v m') :
    Resting m' := by
  have hc := (Task.exec_iff_reaches fun _ h => by cases h).1 ⟨n, ht⟩
  have hs := h.sound hc (not_aborted (fun h => by cases h) fun h => by cases h)
  exact ⟨hs.calls, hs.pending⟩

theorem Resting.failed {f : Fault} {t : Task} {n : Nat} (h : Resting m)
    (ht : t.exec n m = .error (.fault f) m') : Resting m' := by
  have hc := (Task.exec_iff_reaches fun _ h => by cases h).1 ⟨n, ht⟩
  have hs := h.sound hc (not_aborted (fun h => by cases h) fun h => by cases h)
  exact ⟨hs.calls, hs.pending⟩

theorem Resting.operate (h : Resting m) (hm : Proceeds m m') : Resting m' :=
  ⟨h.calls.proceeds hm, hm.hosts ▸ h.quiet⟩

theorem Machine.OwnersRecorded.of_no_continuations
    (hproc : ∀ p ∈ m.heap.procedures, p.body.PropagatesFaults)
    (hcont : m.heap.continuations = #[]) : OwnersRecorded m := by
  have hnone (r : Ref .continuation) (c : Continuation) (h : m.heap.continuation r = .ok c) :
      False := by
    rw [Heap.continuation_eq_ok, hcont] at h
    cases h
  exact ⟨hproc, fun h => (hnone _ _ h).elim, fun h => (hnone _ _ h).elim⟩

theorem Machine.OwnersRecorded.resting_load {p : Program} (h : OwnersRecorded m)
    (hload : load p m = .ok () m') : Resting m' := by
  cases hload
  exact ⟨⟨h.of_same rfl, rfl, rfl, trivial⟩, rfl, rfl⟩

theorem Reached.resting (h : Reached m) : Resting m := by
  induction h with
  | load p hcont hproc hload =>
    exact (OwnersRecorded.of_no_continuations hproc hcont).resting_load hload
  | operate _ hm ih => exact ih.operate hm
  | done _ ht ih => exact ih.done ht
  | failed _ ht ih => exact ih.failed ht

theorem Used.resting {old : Nat} (h : Used old m) : Resting m := by
  induction h with
  | new capacity =>
    have hproc (p : Procedure) (hp : p ∈ (Machine.new capacity).heap.procedures) :
        p.body.PropagatesFaults :=
      absurd hp (Array.not_mem_empty p)
    exact ⟨⟨.of_no_continuations hproc rfl, rfl, rfl, trivial⟩, rfl, rfl⟩
  | load p _ hload ih => exact ih.calls.owners.resting_load hload
  | operate _ hm ih => exact ih.operate hm
  | done _ ht ih => exact ih.done ht
  | failed _ ht ih => exact ih.failed ht

theorem Callable.calls (h : Callable m k) : CallsMatch m k ∧ m.hosts.NonePending := by
  cases h with
  | resting h => exact ⟨h.resting.calls, h.resting.quiet⟩
  | working h hc hs =>
    have hsound := h.resting.sound hc (not_aborted nofun nofun)
    refine ⟨hsound.calls, ?_⟩
    rcases hsound.pending.2 with hq | ⟨f, hf, -⟩
    · exact hq
    · exact absurd hf (hs f)

theorem Used.of_heap {h : Heap} (hcont : h.continuations = #[])
    (hproc : ∀ p ∈ h.procedures, p.body.PropagatesFaults) :
    Used 0 { Machine.new 16 with heap := h } := by
  have hnone {g : Heap} (hg : g.continuations = #[]) {r : Ref .continuation} {c : Continuation}
      (hr : g.continuation r = .ok c) : False := by
    rw [Heap.continuation_eq_ok, hg] at hr
    cases hr
  refine .operate (.new 16) ⟨rfl, fun p hp => .inr (hproc p hp), fun hr => ?_, fun hr => ?_⟩
  · exact (hnone rfl hr).elim
  · exact (hnone hcont hr).elim

def Machine.sample (code : Code) : Machine where
  stack := Array.replicate 16 .nil
  code := code
  heap :=
    { procedures := Standard.procedures.toArray
      pairs := #[⟨.fixnum 7, .nil⟩, ⟨.pair ⟨0⟩, .nil⟩] }

theorem Machine.mem_standard {code : Code} {p : Procedure}
    (hp : p ∈ (sample code).heap.procedures) :
    p ∈ Standard.procedures := by
  rwa [sample, List.mem_toArray] at hp

theorem Machine.reached_sample (code : Code) : Reached (sample code) :=
  .load (m := sample code) { code } rfl
    (fun p hp => Script.propagatesFaults_standard p (mem_standard hp)) rfl

theorem Machine.used_sample (code : Code) : Used 0 (sample code) := by
  have hheap : Used 0 { Machine.new 16 with heap := (sample code).heap } :=
    .of_heap rfl fun p hp => Script.propagatesFaults_standard p (mem_standard hp)
  exact .load { code } hheap rfl

/-- The continuation that goes on at position `ip` and belongs to no call. -/
def Continuation.toCode (ip : Nat) : Continuation where
  saved := #[.fixnum 5]
  prev := .empty
  env := .empty
  resume := .code ip
  owner := none

/-- A machine that is about to map such a continuation over a list. -/
def Machine.escaping (code : Code) : Machine :=
  let m := sample code
  final (passArguments (.procedure ⟨11⟩) [.continuation ⟨0⟩, .pair ⟨0⟩]
    { m with heap := (m.heap.addContinuation (.toCode 2)).2 })

theorem Machine.used_escaping (code : Code) : Used 0 (escaping code) := by
  have hm := CellBlind.continuation (R := Proceeds) (m := sample code) (k := .toCode 2)
    (fun _ h => by cases h) rfl
  unfold escaping
  exact .operate (.operate (used_sample _) hm) ((maintains_passArguments ..).related _)

end LispMachine
