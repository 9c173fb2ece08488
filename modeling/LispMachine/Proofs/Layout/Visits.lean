import LispMachine.Proofs.Layout.Basic
import LispMachine.Proofs.Simulation.Instructions

/-! # The instructions of a run

The states in which a run begins an instruction, in order. Those of the loops that host procedures
start are among them, so what an instruction leaves behind is what the next one in the list finds.
An instruction is orderly if it takes only what belongs to the current activation.
-/

namespace LispMachine

namespace Machine

/-! ## States in which an instruction is begun -/

section Visits

variable {α : Type}

def after (x : Exec α) (f : α → Machine → List Machine) (m : Machine) : List Machine :=
  match x m with
  | .ok a m' => f a m'
  | .error _ _ => []

/-- What a request visits. Only a call executes instructions. -/
def requestVisits (visits : Value → List Value → Machine → List Machine) :
    Request → Machine → List Machine
  | .call callee args, m => visits callee args m
  | _, _ => []

def scriptVisits (call : Value → List Value → Exec Value)
    (visits : Value → List Value → Machine → List Machine) : Script α → Machine → List Machine
  | .ask q next, m =>
    requestVisits visits q m ++
      after (attempt (answer call q)) (fun reply => scriptVisits call visits (next reply)) m
  | _, _ => []

/-- An instruction is begun, and others may be while it applies something. -/
def stepVisits (visits : Machine → List Machine) (m : Machine) : List Machine :=
  m :: if m.opcode? = some .apply then
    after fetchNat (fun argc m => visits { m with argc }) m.fetched
  else []

mutual

def applyVisits : Nat → Machine → List Machine
  | 0, _ => []
  | n + 1, m =>
    match m.acc with
    | .procedure r =>
      after (query (·.heap.procedure r)) (fun p =>
        after (enterFrame p.arity) fun _ m =>
          scriptVisits (call n) (callVisits n) p.body m ++
            after (runScript (call n) p.body) (fun
              | .value _, _ => []
              | .tailCall callee args, m =>
                after (passArguments callee args) (fun _ => applyVisits n) m) m) m
    | _ => []

def callVisits : Nat → Value → List Value → Machine → List Machine
  | 0, _, _, _ => []
  | n + 1, callee, args, m =>
    after beginCall (fun id => callLoopVisits n id callee args)
      { m with runnable := m.runnable || m.hosts.isIdle }

def callLoopVisits : Nat → Nat → Value → List Value → Machine → List Machine
  | 0, _, _, _, _ => []
  | n + 1, id, callee, args, m =>
    after (passArguments callee args) (fun _ m =>
      applyVisits n m ++ after (passUnwound (apply n)) (fun _ => awaitReturnVisits n id) m) m

def awaitReturnVisits : Nat → Nat → Machine → List Machine
  | 0, _, _ => []
  | n + 1, id, m =>
    match m.hosts.turn m.runnable id with
    | (.step, hosts) =>
      stepVisits (applyVisits n) { m with hosts } ++
        after (passUnwound (step n)) (fun _ => awaitReturnVisits n id) { m with hosts }
    | _ => []

end

def runLoopVisits : Nat → Machine → List Machine
  | 0, _ => []
  | n + 1, m =>
    if m.runnable then
      stepVisits (applyVisits n) m ++ after (attempt (step n)) (fun
        | .ok (), m => runLoopVisits n m
        | .error f, m =>
          if f = .unwound ∧ (!m.runnable ∨ m.hosts.escape = some .run) then
            runLoopVisits n { m with hosts.escape := none }
          else []) m
    else []

def runVisits (n : Nat) (m : Machine) : List Machine :=
  runLoopVisits n { m with hosts.running := true }

end Visits

/-! ## Orderly instructions -/

/-- What may be taken lies above this position: above the return point that is the current
continuation, the descriptor of the current frame, and the base, which does not count while a frame
was left and no other entered. -/
def floor (m : Machine) (left : Bool) : Nat :=
  max (max m.cont.top m.env.top) (if left then 0 else m.bp)

/-- The next instruction takes only what belongs to the current activation, puts nothing on the
stack right after a frame was left, and does not leave a frame below a return point. -/
structure Orderly (left : Bool) (m : Machine) : Prop where
  takes : ∀ op ∈ m.opcode?, ∀ n ∈ m.fetched.taken? op, m.floor left + n ≤ m.sp
  puts : ∀ op ∈ m.opcode?, op.puts = true → left = false
  leaves : .reuseFrame ∈ m.opcode? → ∀ start ∈ m.liveStart?, m.cont.top ≤ start

instance (left : Bool) (m : Machine) : Decidable (Orderly left m) :=
  decidable_of_iff
    ((∀ op ∈ m.opcode?, ∀ n ∈ m.fetched.taken? op, m.floor left + n ≤ m.sp) ∧
      (∀ op ∈ m.opcode?, op.puts = true → left = false) ∧
      (.reuseFrame ∈ m.opcode? → ∀ start ∈ m.liveStart?, m.cont.top ≤ start))
    ⟨fun ⟨ht, hp, hl⟩ => ⟨ht, hp, hl⟩, fun h => ⟨h.takes, h.puts, h.leaves⟩⟩

/-- Whether a frame was left and no other entered, after the next instruction. -/
def leftNext (left : Bool) (m : Machine) : Bool :=
  match m.opcode? with
  | some op => m.fetched.leftAfter left op
  | none => left

def leftAfterAll (left : Bool) (visits : List Machine) : Bool := visits.foldl leftNext left

/-- The property holds of every state that is visited. -/
def Along (P : Bool → Machine → Prop) : Bool → List Machine → Prop
  | _, [] => True
  | left, m :: visits => P left m ∧ Along P (leftNext left m) visits

instance decidableAlong (P : Bool → Machine → Prop) [∀ left m, Decidable (P left m)] :
    (left : Bool) → (visits : List Machine) → Decidable (Along P left visits)
  | _, [] => isTrue trivial
  | left, m :: visits =>
    have := decidableAlong P (leftNext left m) visits
    inferInstanceAs (Decidable (P left m ∧ Along P (leftNext left m) visits))

section

variable {P : Bool → Machine → Prop} {left : Bool} {m : Machine} {visits others : List Machine}

@[simp] theorem leftAfterAll_nil : leftAfterAll left [] = left := rfl

@[simp] theorem leftAfterAll_cons :
    leftAfterAll left (m :: visits) = leftAfterAll (leftNext left m) visits := rfl

@[simp] theorem leftAfterAll_append :
    leftAfterAll left (visits ++ others) = leftAfterAll (leftAfterAll left visits) others :=
  List.foldl_append

@[simp] theorem along_nil : Along P left [] := trivial

@[simp] theorem along_cons :
    Along P left (m :: visits) ↔ P left m ∧ Along P (leftNext left m) visits := Iff.rfl

@[simp] theorem along_append :
    Along P left (visits ++ others) ↔
      Along P left visits ∧ Along P (leftAfterAll left visits) others := by
  induction visits generalizing left with
  | nil => simp
  | cons m visits ih => simp [ih, and_assoc]

variable {α : Type} {x : Exec α} {f : α → Machine → List Machine}

theorem after_ok {a : α} {m' : Machine} (h : x m = .ok a m') : after x f m = f a m' := by
  simp [after, h]

theorem after_error {s : Stop} {m' : Machine} (h : x m = .error s m') : after x f m = [] := by
  simp [after, h]

theorem after_nil : after x (fun _ _ => []) m = [] := by
  unfold after
  split <;> rfl

end

end Machine

end LispMachine
