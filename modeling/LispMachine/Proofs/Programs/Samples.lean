import Mathlib.Data.Nat.Fib.Basic
import LispMachine.Config
import LispMachine.Proofs.Programs.Views
import LispMachine.Sample

/-! # What the sample programs compute

The Fibonacci numbers and the counting loop come out right on every stack that can hold what a
single procedure pushes. The proofs follow the rules for views, so they do not depend on where
frames and return points are at any time.
-/

namespace LispMachine

open Machine

/-! ## Starting -/

theorem installStandard_eq (m : Machine) :
    ∃ m', installStandard m = .ok () m' ∧
      m' = { m with globals := m'.globals, heap.procedures := m'.heap.procedures } := by
  rw [installStandard]
  generalize Standard.procedures = procedures
  induction procedures generalizing m with
  | nil => exact ⟨m, rfl, rfl⟩
  | cons p procedures ih =>
    have hone : ∃ m₁, (do define p.name (.procedure (← newProcedure p)) : Exec Unit) m = .ok () m₁ ∧
        m₁ = { m with globals := m₁.globals, heap.procedures := m₁.heap.procedures } := by
      simp only [newProcedure, allocate_bind_apply, define]
      cases Value.ofName p.name with
      | symbol => exact ⟨_, rfl, rfl⟩
      | _ => exact ⟨_, rfl, rfl⟩
    obtain ⟨m₁, hrun₁, hm₁⟩ := hone
    obtain ⟨m', hrun, hm'⟩ := ih m₁
    refine ⟨m', (bind_ok hrun₁).trans hrun, ?_⟩
    rw [hm', hm₁]

theorem Machine.ofConfig_eq (c : Config) :
    ofConfig c = { new c.stackSize with
      globals := (ofConfig c).globals, heap.procedures := (ofConfig c).heap.procedures } := by
  unfold ofConfig
  split
  · obtain ⟨m, hrun, hm⟩ := installStandard_eq (new c.stackSize)
    simp only [hrun]
    exact hm
  · rfl

namespace Sample

def runOn (s : Sample) (c : Config) (args : List Value) (n : Nat) :
    Except AssemblyError (EStateM.Result Stop Machine Unit) := do
  let code ← s.code
  return (s.start code args *> run n) (.ofConfig c)

def site (code : Code) (capacity : Nat) : Site where
  code
  literals := #[.closure ⟨0⟩]
  closures := #[{ env := .empty, entry := 0 }]
  capacity

variable {s : Sample} {c : Config} {code : Code} {args : List Value} {acc : Value}

def loaded (code : Code) (c : Config) : Machine :=
  { stack := Array.replicate c.stackSize .nil
    code
    literals := #[.closure ⟨0⟩]
    globals := (ofConfig c).globals
    heap :=
      { closures := #[{ env := .empty, entry := 0 }]
        procedures := (ofConfig c).heap.procedures } }

theorem start_eq (code : Code) (hs : s.recursive = true) (hargs : args.length ≤ c.stackSize) :
    s.start code args (.ofConfig c) = .ok () { loaded code c with
      stack := Cells.write (loaded code c).stack 0 args
      sp := args.length
      argc := args.length } := by
  have hload : s.start code args (.ofConfig c) =
      (do pushAll args; setArgc args.length : Exec Unit) (loaded code c) := by
    rw [ofConfig_eq c, start, hs]
    simp [newClosure, Machine.load, loaded, Machine.new, capacity, Heap.addClosure]
  have hpush : pushAll args (loaded code c) = .ok () { loaded code c with
      stack := Cells.write (loaded code c).stack 0 args, sp := 0 + args.length } :=
    pushAll_room (by simpa [loaded, capacity] using hargs)
  rw [hload, bind_ok hpush, Nat.zero_add]
  rfl

theorem start_shows (code : Code) (hs : s.recursive = true) (hargs : args.length ≤ c.stackSize) :
    ∃ m, s.start code args (.ofConfig c) = .ok () m ∧ m.runnable = true ∧
      Shows (site code c.stackSize) m (.entering 0 .nil args []) := by
  have hstart := start_eq code hs hargs
  have hsize : (Cells.write (loaded code c).stack 0 args).size = c.stackSize := by simp [loaded]
  have hvalues : (Cells.write (loaded code c).stack 0 args).extract 0 (0 + args.toArray.size) =
      args.toArray := Cells.extract_write (by simpa [loaded] using hargs)
  rw [Nat.zero_add, List.size_toArray] at hvalues
  have hready : Ready [] args [] { loaded code c with
      stack := Cells.write (loaded code c).stack 0 args, sp := args.length,
        argc := args.length } := by
    refine ⟨⟨.of_closed ?_ trivial trivial ⟨by simp [loaded], ?_, by simp [loaded]⟩, ?_⟩, .done⟩
    · simp [capacity]
    · simp [loaded, Env.ClosedIn]
    · simp only [Nat.sub_self, hvalues]
  exact ⟨_, hstart, rfl, .entering ⟨rfl, rfl, rfl, hsize, rfl⟩ hready rfl⟩

/-- What a recursive program comes to by the rules is what a machine computes. -/
theorem runs (hs : s.recursive = true) (hcode : s.code = .ok code)
    (hargs : args.length ≤ c.stackSize)
    (hsteps : View.Reaches (site code c.stackSize) (.entering 0 .nil args []) (.halted acc)) :
    ∃ k m, (∀ n > k, s.runOn c args n = .ok (.ok () m)) ∧ m.runnable = false ∧ m.acc = acc := by
  obtain ⟨m₀, hstart, hm₀, hshows⟩ := start_shows code hs hargs
  obtain ⟨k, m, hrun, hend⟩ := hshows.run hm₀ hsteps
  refine ⟨k, m, fun n hn => ?_, hend⟩
  rw [runOn, hcode]
  change Except.ok ((s.start code args *> run n) (.ofConfig c)) = _
  rw [seqRight_eq_bind, bind_ok hstart, hrun n hn]

/-! ## Numbers -/

theorem add_fixnum (a b : Int) : Value.add (.fixnum a) (.fixnum b) = .ok (.fixnum (wrap (a + b))) :=
  rfl

theorem wrap_wrap (a : Int) : wrap (wrap a) = wrap a := Int.bmod_bmod

theorem wrap_eq_wrap_iff {a b : Int} : wrap a = wrap b ↔ (0x10000000000000000 : Int) ∣ a - b :=
  Int.bmod_eq_bmod_iff_bmod_sub_eq_zero.trans Int.dvd_iff_bmod_eq_zero.symm

theorem wrap_add_wrap (a b : Int) : wrap (wrap a + wrap b) = wrap (a + b) := by
  rw [wrap, wrap, wrap, wrap, Int.add_bmod_bmod, Int.bmod_add_bmod]

theorem sub_fixnum (a b : Int) :
    Value.sub (.fixnum a) (.fixnum b) = .ok (.fixnum (wrap (a - b))) := by
  change Value.add (.fixnum a) (.fixnum (wrap (-b))) = _
  rw [add_fixnum, wrap, wrap, Int.add_bmod_bmod, ← sub_eq_add_neg]
  rfl

theorem same_fixnum (a b : Int) : (Value.fixnum a).same (.fixnum b) = decide (a = b) := by
  simp [Value.same]

/-! ## Fibonacci numbers -/

/-- The code of the program, one procedure that calls itself at the end of the third and fourth
line. -/
def fibonacciCode : Code :=
  #[202, 1, 0, 0, 105, 0, 1, 68, 0, 0, 0, 0, 31, 79, 61, 0, 0, 0,
    105, 0, 1, 68, 1, 0, 0, 0, 31, 79, 47, 0, 0, 0,
    137, 17, 0, 0, 0, 105, 0, 1, 68, 1, 0, 0, 0, 22, 1, 67, 0, 0, 0, 0, 76, 1,
    1, 137, 17, 0, 0, 0, 105, 0, 1, 68, 2, 0, 0, 0, 22, 1, 67, 0, 0, 0, 0, 76, 1,
    21, 13,
    68, 1, 0, 0, 0, 13]

theorem fibonacci_code : fibonacci.code = .ok fibonacciCode := by decide +kernel

section Fibonacci

variable {capacity : Nat}

def inFibonacci (n : Nat) (callers : List Suspended) (ip : Nat) (acc : Value)
    (operands : List Value) (direct : Bool) : View :=
  .inside ⟨ip, acc, [.fixnum n], operands, callers, direct⟩

/-- The procedure comes to a return with this number, whoever the callers are. -/
def FibonacciReturns (capacity n : Nat) (u : Int) : Prop :=
  ∀ callers v, ∃ ip, fibonacciCode.Has ip .ret .none ∧
    View.Reaches (site fibonacciCode capacity) (.entering 0 v [.fixnum n] callers)
      (inFibonacci n callers ip (.fixnum u) [] true)

theorem fibonacci_test (hcap : 5 ≤ capacity) {ip k : Nat} (hip : ip = 4 ∧ k = 0 ∨ ip = 18 ∧ k = 1)
    (n : Nat) (callers : List Suspended) (v : Value) :
    View.Reaches (site fibonacciCode capacity) (inFibonacci n callers ip v [] true)
      (if n = k then inFibonacci n callers 79 .t [] true
        else inFibonacci n callers (ip + 14) .nil [] true) := by
  obtain ⟨offset, hlocal, hpush, hinteger, hsame, hjump, htarget⟩ : ∃ offset,
      fibonacciCode.Has ip .loadLocal (.byte 0) ∧
      fibonacciCode.Has (ip + 2) .push .none ∧
      fibonacciCode.Has (ip + 3) .loadInteger (.word k) ∧
      fibonacciCode.Has (ip + 8) .same .none ∧
      fibonacciCode.Has (ip + 9) .jumpTrue (.word offset) ∧
      wrap (↑(ip + 14) + offset) = (79 : Nat) := by
    rcases hip with ⟨rfl, rfl⟩ | ⟨rfl, rfl⟩
    · exact ⟨61, by decide +kernel⟩
    · exact ⟨47, by decide +kernel⟩
  have hroom : 1 ≤ capacity := by omega
  refine .head (.loadLocal hlocal rfl) ?_
  refine .head (.push hpush hroom) ?_
  refine .head (.loadInteger hinteger) ?_
  refine .head (.compute hsame rfl (List.nil_append _).symm rfl) ?_
  rw [same_fixnum]
  by_cases hn : n = k
  · rw [if_pos hn, decide_eq_true (show (n : Int) = k by omega)]
    exact .single (.jump hjump rfl rfl htarget)
  · rw [if_neg hn, decide_eq_false (show ¬(n : Int) = k by omega)]
    exact .single (.fall hjump rfl rfl)

/-- Both calls pass a smaller number and come back with what the procedure returns for it. -/
theorem FibonacciReturns.call (hcap : 5 ≤ capacity) {ip k target : Nat}
    (hip : ip = 32 ∧ k = 1 ∧ target = 54 ∨ ip = 55 ∧ k = 2 ∧ target = 77) {n : Nat} {u : Int}
    (h : FibonacciReturns capacity n u) (hn : ((n + k : Nat) : Int) < 0x8000000000000000)
    (operands : List Value) (hoperands : operands.length ≤ 1) (callers : List Suspended)
    (v : Value) :
    View.Reaches (site fibonacciCode capacity) (inFibonacci (n + k) callers ip v operands true)
      (inFibonacci (n + k) callers target (.fixnum u) operands true) := by
  obtain ⟨offset, hpoint, htarget, hlocal, hpush, hinteger, hsub, hpush', hliteral, happly⟩ :
      ∃ offset, fibonacciCode.Has ip .returnPoint (.word offset) ∧
        wrap (↑(ip + 5) + offset) = target ∧
      fibonacciCode.Has (ip + 5) .loadLocal (.byte 0) ∧
      fibonacciCode.Has (ip + 7) .push .none ∧
      fibonacciCode.Has (ip + 8) .loadInteger (.word k) ∧
      fibonacciCode.Has (ip + 13) .sub .none ∧
      fibonacciCode.Has (ip + 14) .push .none ∧
      fibonacciCode.Has (ip + 15) .loadLiteral (.word (0 : Nat)) ∧
      fibonacciCode.Has (ip + 20) .apply (.byte 1) := by
    rcases hip with ⟨rfl, rfl, rfl⟩ | ⟨rfl, rfl, rfl⟩
    · exact ⟨17, by decide +kernel⟩
    · exact ⟨17, by decide +kernel⟩
  have hdiff : Value.sub (.fixnum ↑(n + k)) (.fixnum k) = .ok (.fixnum n) := by
    rw [sub_fixnum, show ((n + k : Nat) : Int) - k = n by omega, wrap_eq_self (by omega) (by omega)]
  have hroom : 1 ≤ capacity := by omega
  obtain ⟨last, hlast, hreturns⟩ :=
    h (⟨target, operands, [.fixnum ↑(n + k)]⟩ :: callers) (.closure ⟨0⟩)
  have hpointRoom : operands.length + 4 ≤ capacity := by omega
  have hretRoom : 0 + operands.length ≤ capacity := by omega
  refine .head (.returnPoint hpoint htarget rfl hpointRoom) ?_
  refine .head (.loadLocal hlocal rfl) ?_
  refine .head (.push hpush hroom) ?_
  refine .head (.loadInteger hinteger) ?_
  refine .head (.compute hsub rfl (List.nil_append _).symm hdiff) ?_
  refine .head (.push hpush' hroom) ?_
  refine .head (.loadLiteral hliteral rfl) ?_
  refine .head (.call happly rfl rfl rfl) ?_
  exact hreturns.tail (.ret (x := ⟨last, .fixnum u, [.fixnum n], [], _, true⟩) hlast rfl hretRoom)

theorem fibonacci_returns (hcap : 5 ≤ capacity) (n : Nat) (hn : (n : Int) < 0x8000000000000000) :
    FibonacciReturns capacity n (wrap (Nat.fib (n + 1))) := by
  have hentry (n : Nat) (callers : List Suspended) (v : Value) :
      View.Reaches (site fibonacciCode capacity) (.entering 0 v [.fixnum n] callers)
        (inFibonacci n callers 4 v [] true) := by
    have hframe : fibonacciCode.Has 0 .frame (.triple 1 0 0) := by decide +kernel
    exact .single (.frame hframe rfl)
  have hbase (n : Nat) (callers : List Suspended) :
      View.Reaches (site fibonacciCode capacity) (inFibonacci n callers 79 .t [] true)
        (inFibonacci n callers 84 (.fixnum 1) [] true) := by
    have hinteger : fibonacciCode.Has 79 .loadInteger (.word 1) := by decide +kernel
    exact .single (.loadInteger hinteger)
  induction n using Nat.twoStepInduction with
  | zero =>
    intro callers v
    have hzero := fibonacci_test hcap (.inl ⟨rfl, rfl⟩) 0 callers v
    rw [if_pos rfl] at hzero
    rw [show wrap (Nat.fib (0 + 1)) = 1 by decide]
    exact ⟨84, by decide +kernel, (hentry 0 callers v).trans (hzero.trans (hbase 0 callers))⟩
  | one =>
    intro callers v
    have hzero := fibonacci_test hcap (.inl ⟨rfl, rfl⟩) 1 callers v
    have hone := fibonacci_test hcap (.inr ⟨rfl, rfl⟩) 1 callers .nil
    rw [if_neg Nat.one_ne_zero] at hzero
    rw [if_pos rfl] at hone
    rw [show wrap (Nat.fib (1 + 1)) = 1 by decide]
    exact ⟨84, by decide +kernel,
      (hentry 1 callers v).trans (hzero.trans (hone.trans (hbase 1 callers)))⟩
  | more n ih₀ ih₁ =>
    intro callers v
    have hzero := fibonacci_test hcap (.inl ⟨rfl, rfl⟩) (n + 2) callers v
    have hone := fibonacci_test hcap (.inr ⟨rfl, rfl⟩) (n + 2) callers .nil
    rw [if_neg (by omega)] at hzero hone
    have hfirst :=
      (ih₁ (by omega)).call hcap (.inl ⟨rfl, rfl, rfl⟩) hn [] (Nat.zero_le 1) callers .nil
    have hpush : fibonacciCode.Has 54 .push .none := by decide +kernel
    have hpushRoom : 0 + 1 ≤ capacity := by omega
    have hsecond := (ih₀ (by omega)).call hcap (.inr ⟨rfl, rfl, rfl⟩) hn
      [.fixnum (wrap (Nat.fib (n + 2)))] le_rfl callers (.fixnum (wrap (Nat.fib (n + 2))))
    have hadd : fibonacciCode.Has 77 .add .none := by decide +kernel
    have hsum : Value.add (.fixnum (wrap (Nat.fib (n + 2)))) (.fixnum (wrap (Nat.fib (n + 1)))) =
        .ok (.fixnum (wrap (Nat.fib (n + 3)))) := by
      rw [add_fixnum, wrap_add_wrap, Nat.fib_add_two (n := n + 1), Nat.cast_add, add_comm]
    refine ⟨78, by decide +kernel, (hentry (n + 2) callers v).trans (hzero.trans (hone.trans ?_))⟩
    refine hfirst.trans (.head (.push hpush hpushRoom) (hsecond.tail ?_))
    exact .compute hadd rfl (List.nil_append _).symm hsum

end Fibonacci

/-- On a stack with room for one saved value and a return point, the program halts with the
Fibonacci number, reduced to a machine integer. -/
theorem fibonacci_on_any_stack (c : Config) (hc : 5 ≤ c.stackSize) (n : Nat)
    (hn : (n : Int) < 0x8000000000000000) :
    ∃ k m, (∀ fuel > k, fibonacci.runOn c [.fixnum n] fuel = .ok (.ok () m)) ∧ m.runnable = false ∧
      m.acc = .fixnum (wrap (Nat.fib (n + 1))) := by
  obtain ⟨ip, hret, hreturns⟩ := fibonacci_returns hc n hn [] .nil
  have hargs : 1 ≤ c.stackSize := by omega
  exact runs rfl fibonacci_code hargs (hreturns.tail (.finish hret rfl))

/-- On the smallest stack, with every frame but the last on the heap. -/
theorem fibonacci_on_five_cells :
    ∃ k m, (∀ fuel > k, fibonacci.runOn { stackSize := 5 } [.fixnum 10] fuel = .ok (.ok () m)) ∧
      m.runnable = false ∧ m.acc = .fixnum 89 := by
  have hnumber : wrap (Nat.fib (10 + 1)) = 89 := by decide
  have hrun := fibonacci_on_any_stack { stackSize := 5 } (by decide) 10 (by decide)
  rw [hnumber] at hrun
  exact hrun

/-! ## The counting loop -/

/-- The code of the program: the test, the end and another round. -/
def countingCode : Code :=
  #[202, 3, 0, 0, 105, 0, 1, 105, 1, 1, 68, 1, 0, 0, 0, 21, 31, 80, 3, 0, 0, 0,
    105, 2, 13,
    105, 0, 1, 68, 1, 0, 0, 0, 21, 1, 105, 1, 1, 105, 2, 1, 68, 1, 0, 0, 0, 21, 1,
    67, 0, 0, 0, 0, 101, 3, 76, 3]

theorem counting_code : countingLoop.code = .ok countingCode := by decide +kernel

section Counting

variable {capacity : Nat} {x y t : Int}

def inLoop (x y t : Int) (ip : Nat) (acc : Value) (operands : List Value) : View :=
  .inside ⟨ip, acc, [.fixnum x, .fixnum y, .fixnum t], operands, [], true⟩

theorem counting_test (hcap : 3 ≤ capacity) (v : Value) :
    View.Reaches (site countingCode capacity) (.entering 0 v [.fixnum x, .fixnum y, .fixnum t] [])
      (if x = wrap (y + 1) then inLoop x y t 22 .t [] else inLoop x y t 25 .nil []) := by
  have hcode : countingCode.Has 0 .frame (.triple 3 0 0) ∧
      countingCode.Has 4 .loadLocal (.byte 0) ∧ countingCode.Has 6 .push .none ∧
      countingCode.Has 7 .loadLocal (.byte 1) ∧ countingCode.Has 9 .push .none ∧
      countingCode.Has 10 .loadInteger (.word 1) ∧ countingCode.Has 15 .add .none ∧
      countingCode.Has 16 .same .none ∧ countingCode.Has 17 .jumpFalse (.word 3) ∧
      wrap (↑(17 + 5) + 3) = (25 : Nat) := by decide +kernel
  obtain ⟨hframe, hx, hpush, hy, hpush', hinteger, hadd, hsame, hjump, htarget⟩ := hcode
  have hroom : 0 + 1 ≤ capacity := by omega
  have hroom' : 1 + 1 ≤ capacity := by omega
  refine .head (.frame hframe rfl) ?_
  refine .head (.loadLocal hx rfl) ?_
  refine .head (.push hpush hroom) ?_
  refine .head (.loadLocal hy rfl) ?_
  refine .head (.push hpush' hroom') ?_
  refine .head (.loadInteger hinteger) ?_
  have hbound : [Value.fixnum x, .fixnum y] = [.fixnum x] ++ [.fixnum y] := rfl
  refine .head (.compute hadd rfl hbound (add_fixnum y 1)) ?_
  refine .head (.compute hsame rfl (List.nil_append _).symm rfl) ?_
  rw [same_fixnum]
  by_cases h : x = wrap (y + 1)
  · rw [if_pos h, decide_eq_true h]
    exact .single (.fall hjump rfl rfl)
  · rw [if_neg h, decide_eq_false h]
    exact .single (.jump hjump rfl rfl htarget)

theorem counting_end :
    View.Reaches (site countingCode capacity) (inLoop x y t 22 .t []) (.halted (.fixnum t)) := by
  have hcode : countingCode.Has 22 .loadLocal (.byte 2) ∧ countingCode.Has 24 .ret .none := by
    decide +kernel
  obtain ⟨ht, hret⟩ := hcode
  exact .head (.loadLocal ht rfl) (.single (.finish hret rfl))

theorem counting_round (hcap : 3 ≤ capacity) :
    View.Reaches (site countingCode capacity) (inLoop x y t 25 .nil [])
      (.entering 0 (.closure ⟨0⟩) [.fixnum (wrap (x + 1)), .fixnum y, .fixnum (wrap (t + 1))]
        []) := by
  have hcode : countingCode.Has 25 .loadLocal (.byte 0) ∧ countingCode.Has 27 .push .none ∧
      countingCode.Has 28 .loadInteger (.word 1) ∧ countingCode.Has 33 .add .none ∧
      countingCode.Has 34 .push .none ∧ countingCode.Has 35 .loadLocal (.byte 1) ∧
      countingCode.Has 37 .push .none ∧ countingCode.Has 38 .loadLocal (.byte 2) ∧
      countingCode.Has 40 .push .none ∧ countingCode.Has 41 .loadInteger (.word 1) ∧
      countingCode.Has 46 .add .none ∧ countingCode.Has 47 .push .none ∧
      countingCode.Has 48 .loadLiteral (.word (0 : Nat)) ∧
      countingCode.Has 53 .reuseFrame (.byte 3) ∧ countingCode.Has 55 .apply (.byte 3) := by
    decide +kernel
  obtain ⟨hx, hpush, hone, hadd, hpushX, hy, hpushY, ht, hpush', hone', hadd', hpushT, hself,
    hleave, happly⟩ := hcode
  have hroom : 0 + 1 ≤ capacity := by omega
  have hroom' : 1 + 1 ≤ capacity := by omega
  refine .head (.loadLocal hx rfl) ?_
  refine .head (.push hpush hroom) ?_
  refine .head (.loadInteger hone) ?_
  refine .head (.compute hadd rfl (List.nil_append _).symm (add_fixnum x 1)) ?_
  refine .head (.push hpushX hroom) ?_
  refine .head (.loadLocal hy rfl) ?_
  refine .head (.push hpushY hroom') ?_
  refine .head (.loadLocal ht rfl) ?_
  refine .head (.push hpush' hcap) ?_
  refine .head (.loadInteger hone') ?_
  have hlast : [Value.fixnum (wrap (x + 1)), .fixnum y, .fixnum t] =
    [.fixnum (wrap (x + 1)), .fixnum y] ++ [.fixnum t] := rfl
  refine .head (.compute hadd' rfl hlast (add_fixnum t 1)) ?_
  refine .head (.push hpushT hcap) ?_
  refine .head (.loadLiteral hself rfl) ?_
  refine .head (.leave hleave rfl rfl) ?_
  exact .single (.callLast happly rfl rfl)

/-- The induction is on the rounds that are left. There are fewer of them than machine integers, so
the counter does not meet the bound earlier. -/
theorem counting_halts (hcap : 3 ≤ capacity) (k : Nat) (hk : k < 0x10000000000000000)
    (hx : wrap x = x) (ht : wrap t = t) (hend : wrap (x + k) = wrap (y + 1)) (v : Value) :
    View.Reaches (site countingCode capacity) (.entering 0 v [.fixnum x, .fixnum y, .fixnum t] [])
      (.halted (.fixnum (wrap (t + k)))) := by
  induction k generalizing x t v with
  | zero =>
    have htest := counting_test (x := x) (y := y) (t := t) hcap v
    rw [Nat.cast_zero, add_zero, hx] at hend
    rw [if_pos hend] at htest
    rw [Nat.cast_zero, add_zero, ht]
    exact htest.trans counting_end
  | succ k ih =>
    have hne : x ≠ wrap (y + 1) := by
      intro h
      obtain ⟨q, hq⟩ := wrap_eq_wrap_iff.1 ((hend.trans h.symm).trans hx.symm)
      omega
    have hshift (a : Int) : wrap (wrap (a + 1) + k) = wrap (a + ↑(k + 1)) := by
      rw [wrap, wrap, wrap, Int.bmod_add_bmod, Nat.cast_succ, add_right_comm, add_assoc]
    have htest := counting_test (x := x) (y := y) (t := t) hcap v
    rw [if_neg hne] at htest
    have hrest := ih (by omega) (wrap_wrap (x + 1)) (wrap_wrap (t + 1)) ((hshift x).trans hend)
      (.closure ⟨0⟩)
    rw [hshift t] at hrest
    exact htest.trans ((counting_round hcap).trans hrest)

end Counting

/-- On a stack with room for its arguments, the loop halts with the rounds added to `t`, all of them
taken as machine integers. -/
theorem counting_on_any_stack (c : Config) (hc : 3 ≤ c.stackSize) (x y t : Int)
    (hx : -0x8000000000000000 ≤ x ∧ x < 0x8000000000000000)
    (ht : -0x8000000000000000 ≤ t ∧ t < 0x8000000000000000) :
    ∃ k m, (∀ fuel > k, countingLoop.runOn c [.fixnum x, .fixnum y, .fixnum t] fuel =
      .ok (.ok () m)) ∧ m.runnable = false ∧ m.acc = .fixnum (wrap (t + (y + 1 - x))) := by
  obtain ⟨k, hk⟩ : ∃ k : Nat, (k : Int) = (y + 1 - x) % 0x10000000000000000 :=
    ⟨((y + 1 - x) % 0x10000000000000000).toNat, by omega⟩
  have hrounds (a : Int) : wrap (a + k) = wrap (a + (y + 1 - x)) := by
    rw [hk]
    exact Int.add_emod_bmod ..
  have hend : wrap (x + k) = wrap (y + 1) := by rw [hrounds, add_sub_cancel]
  have hhalts :=
    counting_halts hc k (by omega) (wrap_eq_self hx.1 hx.2) (wrap_eq_self ht.1 ht.2) hend .nil
  rw [hrounds] at hhalts
  exact runs rfl counting_code hc hhalts

/-- The bound is the last machine integer, so the number after it is the first. -/
theorem counting_past_the_last :
    ∃ k m, (∀ fuel > k,
      countingLoop.runOn { stackSize := 3 }
        [.fixnum 0x7ffffffffffffffe, .fixnum 0x7fffffffffffffff, .fixnum 0x7fffffffffffffff] fuel =
          .ok (.ok () m)) ∧ m.runnable = false ∧ m.acc = .fixnum (-0x7fffffffffffffff) := by
  have hsum : wrap (0x7fffffffffffffff + (0x7fffffffffffffff + 1 - 0x7ffffffffffffffe)) =
      -0x7fffffffffffffff := by decide
  have hrun :=
    counting_on_any_stack { stackSize := 3 } (by decide) 0x7ffffffffffffffe 0x7fffffffffffffff
    0x7fffffffffffffff (by decide) (by decide)
  rw [hsum] at hrun
  exact hrun

end Sample

end LispMachine
