import LispMachine.Proofs.Control.Contract
import Mathlib.Data.Nat.Find
import Mathlib.Order.Bounds.Defs

/-! # Which instruction a fault names

The machine remembers one instruction only, the one that was begun last in any of its loops. A host
procedure may have begun and ended calls before it fails, so that this instruction belongs to a call
that is over. The address of a fault is therefore that of an instruction that was begun and not
completed only as long as the loop that had begun it has not been left.
-/

namespace LispMachine

open Machine LispMachine.Configuration

variable {α β : Type} {m m' : Machine} {k : Context} {c : Configuration} {f : Fault}
  {d i j n s t : Nat}

/-! ## The instruction that was begun last -/

namespace Machine

def SameCurrent (m m' : Machine) : Prop := m'.current = m.current

instance : ControlBlind SameCurrent where
  refl _ := rfl
  trans _ _ _ h h' := h'.trans h
  cells _ _ _ := rfl
  frame _ _ := rfl
  continuation _ _ := rfl
  registers _ _ _ _ _ := rfl
  work h := h.current
  control h _ := h

theorem preserves_beginWaiting (next : Option (Except Fault Value → Script Outcome)) :
    Preserves SameCurrent (beginWaiting next) := by
  refine ⟨fun m => ?_⟩
  have hwait (id : Nat) : Preserves SameCurrent (do return m.waitingFor next id (← get).sp) :=
    preserves_of_same (fun _ => rfl) fun _ => rfl
  exact (preserves_beginCall.bind hwait).related m.awake

theorem current_stepWith (hop : m.opcode? ≠ some .ret) :
    (final (stepWith (pure ()) m)).current = m.ip := by
  cases h : m.opcode? with
  | some op =>
    by_cases hhalt : op = .halt
    · rw [stepWith_of_halt (hhalt ▸ h)]
      rfl
    · rw [stepWith_of_opcode h]
      have hexec : Maintains Fault.isUnwound SameCurrent (execute (pure ()) op) :=
        maintains_execute (fun hret => hop (hret ▸ h)) hhalt fun _ => maintains_pure _
      exact hexec.related m.fetched
  | none =>
    rw [stepWith_of_none h]
    cases m.code[m.ip]? <;> rfl

end Machine

namespace Configuration

def begun? (c : Configuration) : Option Nat :=
  match c.activity, c.context with
  | .loop, .run => if c.machine.runnable then some c.machine.ip else none
  | .loop, .call w _ =>
    if (c.machine.hosts.turn c.machine.runnable w.id).1 = .step then some c.machine.ip else none
  | _, _ => none

theorem begun?_run (m : Machine) :
    begun? ⟨m, .run, .loop⟩ = if m.runnable then some m.ip else none := rfl

theorem begun?_call (m : Machine) (w : Waiting) (k : Context) : begun? ⟨m, .call w k, .loop⟩ =
    if (m.hosts.turn m.runnable w.id).1 = .step then some m.ip else none := rfl

theorem current_instruct (m : Machine) (k : Context) : (instruct m k).machine.current = m.ip := by
  rw [instruct]
  split
  next hop =>
    rw [settle_machine]
    exact current_stepWith (by rw [hop]; decide)
  next => rfl
  next hop =>
    rw [settle_machine]
    exact current_stepWith hop

theorem current_turned (m : Machine) (k : Context) :
    (turned m k).machine.current = (begun? ⟨m, k, .loop⟩).getD m.current := by
  cases k with
  | outside => rfl
  | run =>
    rw [turned, begun?_run]
    split
    · exact current_instruct m .run
    · rfl
  | call w k =>
    rw [turned, begun?_call]
    rcases m.hosts.turn_cases m.runnable w.id with ⟨-, ht⟩ | ⟨-, -, ht⟩ | ⟨-, -, ht⟩ | ⟨-, -, ht⟩
      <;> rw [ht]
    · rfl
    · rfl
    · rfl
    · exact current_instruct _ _

theorem current_applied (m : Machine) (k : Context) :
    (applied m k).machine.current = m.current := by
  rw [applied]
  split
  all_goals try rw [settle_machine]
  next r _ => exact (maintains_enterClosure (R := SameCurrent) r).related m
  next r _ => exact (preserves_handOver (R := SameCurrent) r).related m
  next r _ => exact (maintains_pickItem (R := SameCurrent) _).related m
  next r _ => exact (maintains_enterProcedure (R := SameCurrent) r).related m
  next => rfl

theorem current_worked (m : Machine) (k : Context) (s : Script Outcome) :
    (worked m k s).machine.current = m.current := by
  match s with
  | .done (.value v) => rfl
  | .done (.tailCall callee args) =>
    rw [worked, settle_machine]
    exact (maintains_passArguments (R := SameCurrent) callee args).related m
  | .fail f => rfl
  | .ask q next =>
    by_cases hq : ∃ callee args, q = .call callee args
    · obtain ⟨callee, args, rfl⟩ := hq
      have hbegin := (preserves_beginWaiting (some next)).related m
      rw [worked]
      cases h : beginWaiting (some next) m with
      | ok w m' =>
        rw [h] at hbegin
        exact hbegin
      | error e m' =>
        rw [h] at hbegin
        rw [begin, reply_machine]
        exact hbegin
    · have hne : ∀ callee args, q ≠ .call callee args := fun callee args h => hq ⟨callee, args, h⟩
      rw [worked_ask hne, settle_machine]
      exact (maintains_answer (R := SameCurrent) hne _).related m

/-- A step changes the remembered instruction exactly if it begins one. -/
theorem current_advance (c : Configuration) :
    c.advance.machine.current = c.begun?.getD c.machine.current := by
  obtain ⟨m, k, activity⟩ := c
  cases activity with
  | loop => exact current_turned m k
  | enter callee args =>
    rw [advance, settle_machine]
    exact (maintains_passArguments (R := SameCurrent) callee args).related m
  | apply => exact current_applied m k
  | script s => exact current_worked m k s
  | ret =>
    rw [advance, settle_machine]
    exact (preserves_ret (R := SameCurrent)).related m
  | fault f =>
    cases k with
    | run =>
      change (failed m f .run).machine.current = _
      rw [failed]
      split <;> rfl
    | _ => rfl
  | leave outcome =>
    cases k with
    | call w k =>
      change (left m outcome (.call w k)).machine.current = _
      rw [left, reply_machine]
      exact (preserves_endCall (R := SameCurrent) ..).related m
    | _ => rfl
  | ended o => rfl

end Configuration

/-! ## Loops -/

namespace Activity

def isLoop : Activity → Bool
  | loop => true
  | _ => false

def isFault : Activity → Bool
  | fault _ => true
  | _ => false

def isWork : Activity → Bool
  | apply | script _ | ret => true
  | _ => false

def isLeave : Activity → Bool
  | leave _ => true
  | _ => false

def propagatesFaults (f : Fault) : Activity → Bool
  | fault g | leave (.error g) | script (.fail g) | ended (.error (.fault g)) => g = f
  | _ => false

theorem eq_loop {a : Activity} (h : a.isLoop) : a = loop := by
  cases a with
  | loop => rfl
  | _ => cases h

theorem not_isWork {a : Activity} (h : a.isLoop ∨ a.isFault ∨ a.isLeave) : ¬ a.isWork := by
  cases a <;> simp_all [isWork, isLoop, isFault, isLeave]

end Activity

namespace Configuration

def depth (c : Configuration) : Nat := c.context.active.length

/-- The loop of `k` has control, or executes an instruction. -/
def InLoop (k : Context) (c : Configuration) : Prop :=
  c.context = k ∧ (c.activity.isWork ∨ c.activity.isLoop ∨ c.activity.isFault)

/-- Everything is over, but not because of a fault. -/
def OverWithoutFault (c : Configuration) : Prop :=
  ∃ o, c.activity = .ended o ∧ ∀ f, o ≠ .error (.fault f)

theorem OverWithoutFault.over (h : c.OverWithoutFault) : c.Over := by
  obtain ⟨o, ho, -⟩ := h
  exact ⟨o, ho⟩

theorem not_over (h : c.isOver = false) : ¬ c.Over := by
  rw [← isOver_iff, h]
  exact Bool.false_ne_true

theorem InLoop.not_over (h : InLoop k c) : ¬ c.Over := by
  rintro ⟨o, ho⟩
  rw [InLoop, ho] at h
  simp [Activity.isWork, Activity.isLoop, Activity.isFault] at h

theorem settle_cases (k : Context) (next : Except Fault α → Activity)
    (r : EStateM.Result Stop Machine α) :
    (settle k next r).OverWithoutFault ∨ ∃ o m, settle k next r = ⟨m, k, next o⟩ := by
  match r with
  | .ok a m => exact .inr ⟨.ok a, m, rfl⟩
  | .error (.fault f) m => exact .inr ⟨.error f, m, rfl⟩
  | .error .stuck m => exact .inl ⟨_, rfl, fun _ h => by cases h⟩
  | .error .unfinished m => exact .inl ⟨_, rfl, fun _ h => by cases h⟩

theorem inLoop_settle {next : α → Activity} (hnext : ∀ a, (next a).isWork ∨ (next a).isLoop)
    (k : Context) (r : EStateM.Result Stop Machine α) :
    (settle k (.unlessFault next) r).OverWithoutFault ∨
      InLoop k (settle k (.unlessFault next) r) := by
  rcases settle_cases k (.unlessFault next) r with ho | ⟨o, m, h⟩
  · exact .inl ho
  · rw [h]
    cases o with
    | ok a => exact .inr ⟨rfl, (hnext a).imp_right .inl⟩
    | error f => exact .inr ⟨rfl, .inr (.inr rfl)⟩

theorem inLoop_settle_script (k : Context) (next : Except Fault α → Script Outcome)
    (r : EStateM.Result Stop Machine α) :
    (settle k (fun o => .script (next o)) r).OverWithoutFault ∨
      (settle k (fun o => .script (next o)) r).context = k ∧
      (settle k (fun o => .script (next o)) r).activity.isWork := by
  rcases settle_cases k (fun o => .script (next o)) r with ho | ⟨o, m, h⟩
  · exact .inl ho
  · rw [h]
    exact .inr ⟨rfl, rfl⟩

theorem inLoop_instruct (m : Machine) (k : Context) :
    (instruct m k).OverWithoutFault ∨ InLoop k (instruct m k) := by
  rw [instruct]
  split
  · exact inLoop_settle (fun _ => .inl rfl) ..
  · exact .inr ⟨rfl, .inl rfl⟩
  · exact inLoop_settle (fun _ => .inr rfl) ..

theorem inLoop_applied (m : Machine) (k : Context) :
    (applied m k).OverWithoutFault ∨ InLoop k (applied m k) := by
  rw [applied]
  split
  · exact inLoop_settle (fun _ => .inr rfl) ..
  · exact inLoop_settle (fun _ => .inl rfl) ..
  · exact inLoop_settle (fun _ => .inl rfl) ..
  · exact inLoop_settle (fun _ => .inl rfl) ..
  · exact .inr ⟨rfl, .inr (.inr rfl)⟩

/-- A host procedure either goes on in the same loop or begins a call. -/
theorem inLoop_worked (m : Machine) (k : Context) (s : Script Outcome) :
    (worked m k s).OverWithoutFault ∨ InLoop k (worked m k s) ∨
      ∃ w callee args m', worked m k s = ⟨m', .call w k, .enter callee args⟩ := by
  match s with
  | .done (.value v) => exact .inr (.inl ⟨rfl, .inl rfl⟩)
  | .done (.tailCall callee args) => exact (inLoop_settle (fun _ => .inl rfl) ..).imp_right .inl
  | .fail f => exact .inr (.inl ⟨rfl, .inr (.inr rfl)⟩)
  | .ask q next =>
    by_cases hq : ∃ callee args, q = .call callee args
    · obtain ⟨callee, args, rfl⟩ := hq
      rw [worked]
      cases beginWaiting (some next) m with
      | ok w m' => exact .inr (.inr ⟨w, callee, args, m', rfl⟩)
      | error e m' => exact (inLoop_settle_script k next _).imp_right fun h => .inl ⟨h.1, .inl h.2⟩
    · rw [worked_ask fun callee args h => hq ⟨callee, args, h⟩]
      exact (inLoop_settle_script k next _).imp_right fun h => .inl ⟨h.1, .inl h.2⟩

/-- While an instruction is being executed, its loop stays where it is, below the calls. -/
theorem advance_of_isWork (h : c.activity.isWork) : c.advance.OverWithoutFault ∨
    InLoop c.context c.advance ∨ (¬ c.advance.Over ∧ c.depth < c.advance.depth) := by
  obtain ⟨m, k, activity⟩ := c
  cases activity with
  | apply => exact (inLoop_applied m k).imp_right .inl
  | script s =>
    rcases inLoop_worked m k s with ho | hl | ⟨w, callee, args, m', hw⟩
    · exact .inl ho
    · exact .inr (.inl hl)
    · have hstep : advance ⟨m, k, .script s⟩ = ⟨m', .call w k, .enter callee args⟩ := hw
      rw [hstep]
      exact .inr (.inr ⟨not_over rfl, Nat.lt_succ_self _⟩)
  | ret => exact (inLoop_settle (fun _ => .inr rfl) ..).imp_right .inl
  | _ => cases h

/-- A loop that takes its turn begins an instruction, or its call is left. -/
theorem advance_of_isLoop (h : c.activity.isLoop) : c.advance.OverWithoutFault ∨
    (c.begun? ≠ none ∧ InLoop c.context c.advance) ∨
    (c.begun? = none ∧ 0 < c.depth ∧ c.advance.depth = c.depth ∧ c.advance.activity.isLeave) := by
  obtain ⟨m, k, activity⟩ := c
  cases activity with
  | loop =>
    change (turned m k).OverWithoutFault ∨ (_ ∧ InLoop k (turned m k)) ∨
      (_ ∧ _ ∧ (turned m k).depth = _ ∧ (turned m k).activity.isLeave)
    cases k with
    | outside => exact .inl ⟨_, rfl, fun _ h => by cases h⟩
    | run =>
      rw [turned, begun?_run]
      split
      · exact (inLoop_instruct m .run).imp_right fun h => .inl ⟨fun h => (by cases h), h⟩
      · exact .inl ⟨_, rfl, fun _ h => by cases h⟩
    | call w k =>
      rw [turned, begun?_call]
      rcases m.hosts.turn_cases m.runnable w.id with ⟨-, ht⟩ | ⟨-, -, ht⟩ | ⟨-, -, ht⟩ | ⟨-, -, ht⟩
        <;> rw [ht]
      · exact .inr (.inr ⟨rfl, Nat.succ_pos _, rfl, rfl⟩)
      · exact .inr (.inr ⟨rfl, Nat.succ_pos _, rfl, rfl⟩)
      · exact .inr (.inr ⟨rfl, Nat.succ_pos _, rfl, rfl⟩)
      · exact (inLoop_instruct _ _).imp_right fun h => .inl ⟨fun h => (by cases h), h⟩
  | _ => cases h

theorem failed_cases (m : Machine) (f : Fault) (k : Context) :
    (failed m f k).activity = .ended (.error (.fault f)) ∨
      ¬ (failed m f k).Over ∧ (failed m f k).context = k := by
  cases k with
  | outside => exact .inl rfl
  | run =>
    rw [failed]
    split
    · exact .inr ⟨not_over rfl, rfl⟩
    · exact .inl rfl
  | call w k =>
    refine .inr ⟨?_, rfl⟩
    rw [failed]
    split
    · exact not_over rfl
    · exact not_over rfl

theorem conclude_endWaiting (w : Waiting) (outcome : Except Fault Unit) (m : Machine) :
    (conclude (endWaiting w outcome m)).OverWithoutFault ∨
      ∃ f, outcome = .error f ∧
        (conclude (endWaiting w outcome m)).activity = .ended (.error (.fault f)) := by
  match outcome with
  | .ok () => exact .inl ⟨_, rfl, fun _ h => by cases h⟩
  | .error f =>
    cases ho : w.outermost with
    | false =>
      rw [endWaiting_error_inner ho]
      exact .inr ⟨f, rfl, rfl⟩
    | true =>
      rw [endWaiting_error_outer ho]
      split
      · exact .inl ⟨_, rfl, fun _ h => by cases h⟩
      · exact .inr ⟨f, rfl, rfl⟩

theorem left_cases (m : Machine) (outcome : Except Fault Unit) (k : Context) :
    (left m outcome k).OverWithoutFault ∨
      (∃ f, outcome = .error f ∧ (left m outcome k).activity = .ended (.error (.fault f))) ∨
      (∃ w, k = .call w (left m outcome k).context) ∧ (left m outcome k).activity.isWork := by
  cases k with
  | call w k =>
    rw [left]
    cases w.next with
    | none => exact (conclude_endWaiting w outcome m).imp_right .inl
    | some next =>
      rcases inLoop_settle_script k next (endWaiting w outcome m) with ho | ⟨hk, hwork⟩
      · exact .inl ho
      · exact .inr (.inr ⟨⟨w, congrArg (Context.call w) hk.symm⟩, hwork⟩)
  | _ => exact .inl ⟨_, rfl, fun _ h => by cases h⟩

/-- Calls end one at a time, and then a host procedure goes on. Only a fault that is handed on ends
everything with a fault. -/
theorem advance_cases (c : Configuration) : c.advance.OverWithoutFault ∨
    (∃ f, c.activity.propagatesFaults f ∧ c.advance.activity = .ended (.error (.fault f))) ∨
    (¬ c.advance.Over ∧
      (c.depth ≤ c.advance.depth ∨ c.depth = c.advance.depth + 1 ∧ c.advance.activity.isWork)) := by
  have hsame {c c' : Configuration} (h : c'.context = c.context) : c.depth ≤ c'.depth :=
    Nat.le_of_eq (congrArg (·.active.length) h.symm)
  have hself (f : Fault) : decide (f = f) = true := decide_eq_true rfl
  by_cases hwork : c.activity.isWork
  · rcases advance_of_isWork hwork with ho | hl | ⟨ho, hd⟩
    · exact .inl ho
    · exact .inr (.inr ⟨hl.not_over, .inl (hsame hl.1)⟩)
    · exact .inr (.inr ⟨ho, .inl (Nat.le_of_lt hd)⟩)
  by_cases hloop : c.activity.isLoop
  · rcases advance_of_isLoop hloop with ho | ⟨-, hl⟩ | ⟨-, -, hd, hleave⟩
    · exact .inl ho
    · exact .inr (.inr ⟨hl.not_over, .inl (hsame hl.1)⟩)
    · refine .inr (.inr ⟨?_, .inl (Nat.le_of_eq hd.symm)⟩)
      rintro ⟨o, ho⟩
      rw [ho] at hleave
      cases hleave
  obtain ⟨m, k, activity⟩ := c
  cases activity with
  | enter callee args =>
    have hstep : advance ⟨m, k, .enter callee args⟩ = settle k .entered
        (passArguments callee args m) := rfl
    rw [hstep]
    rcases settle_cases k .entered (passArguments callee args m) with ho | ⟨o, m', h⟩
    · exact .inl ho
    · rw [h]
      refine .inr (.inr ⟨?_, .inl (Nat.le_refl _)⟩)
      cases o with
      | ok a => exact not_over rfl
      | error f => exact not_over rfl
  | fault f =>
    rcases failed_cases m f k with ho | ⟨ho, hk⟩
    · exact .inr (.inl ⟨f, hself f, ho⟩)
    · exact .inr (.inr ⟨ho, .inl (hsame hk)⟩)
  | leave outcome =>
    rcases left_cases m outcome k with ho | ⟨f, rfl, ho⟩ | ⟨⟨w, hw⟩, hwork⟩
    · exact .inl ho
    · exact .inr (.inl ⟨f, hself f, ho⟩)
    · have hl : InLoop (left m outcome k).context (left m outcome k) := ⟨rfl, .inl hwork⟩
      exact .inr (.inr ⟨hl.not_over, .inr ⟨congrArg (·.active.length) hw, hwork⟩⟩)
  | ended o =>
    match o with
    | .error (.fault f) => exact .inr (.inl ⟨f, hself f, rfl⟩)
    | .error .stuck => exact .inl ⟨_, rfl, fun _ h => by cases h⟩
    | .error .unfinished => exact .inl ⟨_, rfl, fun _ h => by cases h⟩
    | .ok v => exact .inl ⟨_, rfl, fun _ h => by cases h⟩
  | loop => exact absurd rfl hloop
  | _ => exact absurd rfl hwork

theorem handsOn_of_advance (h : c.advance.activity = .ended (.error (.fault f))) :
    c.activity.propagatesFaults f := by
  rcases advance_cases c with ⟨o, ho, hne⟩ | ⟨g, hg, ho⟩ | ⟨ho, -⟩
  · rw [h] at ho
    cases ho
    exact absurd rfl (hne f)
  · rw [h] at ho
    cases ho
    exact hg
  · exact absurd ⟨_, h⟩ ho

/-! ## Steps in sequence -/

def after (c : Configuration) (j : Nat) : Configuration := advance^[j] c

theorem after_succ (c : Configuration) (j : Nat) : c.after (j + 1) = (c.after j).advance :=
  Function.iterate_succ_apply' ..

theorem reaches_after (c : Configuration) (j : Nat) : Reaches c (c.after j) := ⟨j, rfl⟩

/-- The instruction at `ip` is begun in step `i`, and none is begun later. -/
structure LastBegun (c : Configuration) (i ip : Nat) : Prop where
  begun : (c.after i).begun? = some ip
  last (j : Nat) : i < j → (c.after j).begun? = none

/-- From step `t` on, and not before, nothing is done but to hand on the fault. -/
def RaisedAt (c : Configuration) (f : Fault) (t : Nat) : Prop :=
  IsLeast {t | ∀ s, t ≤ s → (c.after s).activity.propagatesFaults f} t

/-- The loop that has `d` calls around it has control. -/
def Controls (d : Nat) (c : Configuration) : Prop :=
  c.depth = d ∧ (c.activity.isLoop ∨ c.activity.isFault)

instance (d : Nat) (c : Configuration) : Decidable (c.Controls d) :=
  inferInstanceAs (Decidable (_ ∧ _))

/-- After step `s`, and not before, the loop has control again that has begun an instruction in step
`i`. -/
structure Returns (c : Configuration) (i s : Nat) : Prop where
  later : i < s
  controls : (c.after s).Controls (c.after i).depth
  first (j : Nat) : i < j → j < s → ¬ (c.after j).Controls (c.after i).depth

def CompletedBy (c : Configuration) (i t : Nat) : Prop :=
  ∃ s ≤ t, c.Returns i s ∧ (c.after s).activity.isLoop

def FailedBy (c : Configuration) (i t : Nat) : Prop :=
  ∃ s ≤ t, c.Returns i s ∧ (c.after s).activity.isFault

def LeftBy (c : Configuration) (i t : Nat) : Prop :=
  ∃ s, i < s ∧ s ≤ t ∧ ((c.after s).depth < (c.after i).depth ∨
    (c.after s).depth = (c.after i).depth ∧ (c.after s).activity.isLeave)

theorem Returns.unique {s' : Nat} (h : c.Returns i s) (h' : c.Returns i s') : s = s' := by
  rcases Nat.lt_trichotomy s s' with hlt | heq | hlt
  · exact absurd h.controls (h'.first s h.later hlt)
  · exact heq
  · exact absurd h'.controls (h.first s' h'.later hlt)

/-- The remembered instruction is the one that was begun last. -/
theorem current_after (c : Configuration) (n : Nat) :
    (∀ j < n, (c.after j).begun? = none) ∨
      ∃ i < n, (c.after i).begun? = some (c.after n).machine.current ∧
        ∀ j, i < j → j < n → (c.after j).begun? = none := by
  induction n with
  | zero => exact .inl fun j hj => absurd hj (Nat.not_lt_zero j)
  | succ n ih =>
    have hcurrent := current_advance (c.after n)
    rw [← after_succ] at hcurrent
    cases hb : (c.after n).begun? with
    | some ip =>
      rw [hb] at hcurrent
      refine .inr ⟨n, Nat.lt_succ_self n, by rw [hb, hcurrent]; rfl, fun j hnj hjn => ?_⟩
      omega
    | none =>
      rw [hb] at hcurrent
      have hlast {j : Nat} (hj : j < n + 1) (h : j < n → (c.after j).begun? = none) :
          (c.after j).begun? = none := by
        rcases Nat.lt_succ_iff_lt_or_eq.1 hj with hlt | rfl
        · exact h hlt
        · exact hb
      rcases ih with hnone | ⟨i, hi, hbegun, hnone⟩
      · exact .inl fun j hj => hlast hj (hnone j)
      · refine .inr ⟨i, Nat.lt_succ_of_lt hi, ?_, fun j hij hj => hlast hj (hnone j hij)⟩
        rw [hbegun, hcurrent]
        rfl

def Executes (d : Nat) (c : Configuration) : Prop := d < c.depth ∨ c.depth = d ∧ c.activity.isWork

theorem Executes.not_controls (h : c.Executes d) : ¬ c.Controls d := by
  rintro ⟨hd, hc⟩
  rcases h with hlt | ⟨-, hwork⟩
  · omega
  · exact Activity.not_isWork (hc.imp_right .inl) hwork

theorem InLoop.executes_or_controls (h : InLoop k c) (hd : k.active.length = d) :
    c.Executes d ∨ c.Controls d := by
  obtain ⟨hk, hwork | hcontrol⟩ := h
  · exact .inl (.inr ⟨(congrArg (·.active.length) hk).trans hd, hwork⟩)
  · exact .inr ⟨(congrArg (·.active.length) hk).trans hd, hcontrol⟩

theorem Executes.advance (h : c.Executes d) (hover : ¬ c.advance.Over) :
    c.advance.Executes d ∨ c.advance.Controls d := by
  have hnot : ¬ c.advance.OverWithoutFault := fun ho => hover ho.over
  rcases h with hlt | ⟨hd, hwork⟩
  · rcases advance_cases c with ho | ⟨f, -, ho⟩ | ⟨-, hle | ⟨hd, hwork⟩⟩
    · exact absurd ho hnot
    · exact absurd ⟨_, ho⟩ hover
    · exact .inl (.inl (Nat.lt_of_lt_of_le hlt hle))
    · rcases Nat.lt_or_ge d c.advance.depth with hlt' | hge
      · exact .inl (.inl hlt')
      · exact .inl (.inr ⟨by omega, hwork⟩)
  · rcases advance_of_isWork hwork with ho | hl | ⟨-, hlt⟩
    · exact absurd ho hnot
    · exact hl.executes_or_controls hd
    · exact .inl (.inl (hd ▸ hlt))

theorem isLoop_of_begun? (h : c.begun? ≠ none) : c.activity.isLoop := by
  obtain ⟨m, k, activity⟩ := c
  cases activity with
  | loop => rfl
  | _ => exact absurd rfl h

theorem executes_of_begun? (h : c.begun? ≠ none) (hover : ¬ c.advance.Over) :
    c.advance.Executes c.depth ∨ c.advance.Controls c.depth := by
  rcases advance_of_isLoop (isLoop_of_begun? h) with ⟨o, ho, -⟩ | ⟨-, hl⟩ | ⟨hnone, -⟩
  · exact absurd ⟨o, ho⟩ hover
  · exact hl.executes_or_controls rfl
  · exact absurd hnone h

/-- Until its loop has control again, an instruction is being executed. -/
theorem executes_or_returns (hbegun : (c.after i).begun? ≠ none) (hs : i < s)
    (hover : ∀ j ≤ s, ¬ (c.after j).Over) :
    ((c.after s).Executes (c.after i).depth ∧
      ∀ j, i < j → j ≤ s → ¬ (c.after j).Controls (c.after i).depth) ∨ ∃ j ≤ s, c.Returns i j := by
  induction s, hs using Nat.le_induction with
  | base =>
    have hstep := executes_of_begun? hbegun (by rw [← after_succ]; exact hover _ (Nat.le_refl _))
    rw [← after_succ] at hstep
    rcases hstep with he | hc
    · refine .inl ⟨he, fun j hij hj => ?_⟩
      obtain rfl : j = i + 1 := by omega
      exact he.not_controls
    · exact .inr ⟨i + 1, Nat.le_refl _, Nat.lt_succ_self i, hc, fun j hij hj => by omega⟩
  | succ s hs ih =>
    rcases ih fun j hj => hover j (Nat.le_succ_of_le hj) with ⟨he, hnone⟩ | ⟨j, hj, hr⟩
    · have hstep := he.advance (by rw [← after_succ]; exact hover _ (Nat.le_refl _))
      rw [← after_succ] at hstep
      rcases hstep with he' | hc
      · refine .inl ⟨he', fun j hij hj => ?_⟩
        rcases Nat.le_or_eq_of_le_succ hj with hle | rfl
        · exact hnone j hij hle
        · exact he'.not_controls
      · exact .inr ⟨s + 1, Nat.le_refl _, Nat.lt_succ_of_lt hs, hc,
          fun j hij hj => hnone j hij (Nat.le_of_lt_succ hj)⟩
    · exact .inr ⟨j, Nat.le_succ_of_le hj, hr⟩

/-! ## Faults -/

theorem after_of_over (hs : (c.after s).Over) (hj : s ≤ j) : c.after j = c.after s := by
  rw [after, ← Nat.sub_add_cancel hj, Function.iterate_add_apply]
  exact hs.iterate _

theorem Over.begun?_eq_none (h : c.Over) : c.begun? = none := by
  obtain ⟨o, ho⟩ := h
  by_contra hne
  have hloop := isLoop_of_begun? hne
  rw [ho] at hloop
  cases hloop

theorem exists_lastBegun (hfirst : c.begun? ≠ none) (hn : (c.after n).Over) :
    ∃ i, c.LastBegun i (c.after n).machine.current := by
  rcases current_after c n with hnone | ⟨i, hi, hbegun, hnone⟩
  · rcases Nat.eq_zero_or_pos n with rfl | hpos
    · exact absurd hn.begun?_eq_none hfirst
    · exact absurd (hnone 0 hpos) hfirst
  · refine ⟨i, hbegun, fun j hij => ?_⟩
    rcases Nat.lt_or_ge j n with hlt | hge
    · exact hnone j hij hlt
    · rw [after_of_over hn hge, hn.begun?_eq_none]

section Failing

-- the fault comes out in the end, and it was not there in the beginning
variable (hend : (c.after n).activity = .ended (.error (.fault f)))
  (hnew : ¬ c.activity.propagatesFaults f)

include hend

theorem activity_of_over (hs : (c.after s).Over) :
    (c.after s).activity = .ended (.error (.fault f)) := by
  rw [(reaches_after c s).eq_of_over (reaches_after c n) hs ⟨_, hend⟩, hend]

theorem not_overWithoutFault (s : Nat) : ¬ (c.after s).OverWithoutFault := by
  rintro ⟨o, ho, hne⟩
  rw [activity_of_over hend ⟨o, ho⟩] at ho
  cases ho
  exact hne f rfl

theorem handsOn_of_over (hs : (c.after s).Over) (hj : s ≤ j) :
    (c.after j).activity.propagatesFaults f := by
  rw [after_of_over hs hj, activity_of_over hend hs]
  exact decide_eq_true rfl

theorem exists_raisedAt : ∃ t, c.RaisedAt f t := by
  classical
  have hall : ∃ t, ∀ s, t ≤ s → (c.after s).activity.propagatesFaults f :=
    ⟨n, fun _ hs => handsOn_of_over hend ⟨_, hend⟩ hs⟩
  exact ⟨Nat.find hall, Nat.find_spec hall, fun _ => Nat.find_min' hall⟩

/-- If the instruction that was begun last has been executed, then in a call that is over. -/
theorem RaisedAt.left_of_completed {ip : Nat} (ht : c.RaisedAt f t) (hi : c.LastBegun i ip)
    (h : c.CompletedBy i t) : 0 < (c.after i).depth ∧ c.LeftBy i t := by
  obtain ⟨s, hs, hr, hloop⟩ := h
  have hlt : s < t := by
    refine Nat.lt_of_le_of_ne hs fun heq => ?_
    have hf := ht.1 s (Nat.le_of_eq heq.symm)
    rw [Activity.eq_loop hloop] at hf
    cases hf
  rcases advance_of_isLoop hloop with ho | ⟨hbegun, -⟩ | ⟨-, hpos, hd, hleave⟩
  · rw [← after_succ] at ho
    exact absurd ho (not_overWithoutFault hend _)
  · exact absurd (hi.last s hr.later) hbegun
  · rw [← after_succ] at hd hleave
    rw [hr.controls.1] at hd hpos
    exact ⟨hpos, s + 1, Nat.lt_succ_of_lt hr.later, hlt, .inr ⟨hd, hleave⟩⟩

include hnew

theorem RaisedAt.not_over (ht : c.RaisedAt f t) (hs : s ≤ t) : ¬ (c.after s).Over := by
  intro hover
  have hts : t ≤ s := ht.2 fun j hj => handsOn_of_over hend hover hj
  obtain rfl : s = t := Nat.le_antisymm hs hts
  have hended := activity_of_over hend hover
  cases s with
  | zero => exact hnew (handsOn_of_over hend hover (Nat.le_refl 0))
  | succ s =>
    rw [after_succ] at hended
    have hbefore := handsOn_of_advance hended
    have hle : s + 1 ≤ s := by
      refine ht.2 fun j hj => ?_
      rcases Nat.eq_or_lt_of_le hj with rfl | hlt
      · exact hbefore
      · exact ht.1 j hlt
    exact Nat.not_succ_le_self s hle

/-- If its call is over, then the instruction has been executed or has failed. -/
theorem RaisedAt.completed_or_failed {ip : Nat} (ht : c.RaisedAt f t) (hi : c.LastBegun i ip)
    (h : c.LeftBy i t) : c.CompletedBy i t ∨ c.FailedBy i t := by
  obtain ⟨s, his, hs, hleft⟩ := h
  have hbegun : (c.after i).begun? ≠ none := by
    rw [hi.begun]
    exact fun h => by cases h
  have hover (j : Nat) (hj : j ≤ s) : ¬ (c.after j).Over :=
    ht.not_over hend hnew (Nat.le_trans hj hs)
  rcases executes_or_returns hbegun his hover with ⟨he, -⟩ | ⟨j, hj, hr⟩
  · rcases he with hlt | ⟨hd, hwork⟩ <;> rcases hleft with hlt' | ⟨hd', hleave⟩
    · omega
    · omega
    · omega
    · exact absurd hwork (Activity.not_isWork (.inr (.inr hleave)))
  · rcases hr.controls.2 with hloop | hfault
    · exact .inl ⟨j, Nat.le_trans hj hs, hr, hloop⟩
    · exact .inr ⟨j, Nat.le_trans hj hs, hr, hfault⟩

end Failing

theorem CompletedBy.not_failedBy (h : c.CompletedBy i t) : ¬ c.FailedBy i t := by
  rintro ⟨s', -, hr', hfault⟩
  obtain ⟨s, -, hr, hloop⟩ := h
  rw [hr.unique hr'] at hloop
  rw [Activity.eq_loop hloop] at hfault
  cases hfault

theorem LastBegun.lt_of_raisedAt {ip : Nat} (hi : c.LastBegun i ip) (ht : c.RaisedAt f t) :
    i < t := by
  refine Nat.lt_of_not_le fun hle => ?_
  have hf := ht.1 i hle
  have hloop := isLoop_of_begun? (c := c.after i) (by rw [hi.begun]; exact fun h => by cases h)
  rw [Activity.eq_loop hloop] at hf
  cases hf

end Configuration

/-- A run that fails names the instruction that was begun last before the fault was raised. That
instruction had not been completed by then exactly if the loop that had begun it had not been left
yet, or if it had failed itself. So it always was one that had not been completed if it was begun by
the loop of the run itself, and not by the loop of a call. A run that is refused names nothing
new. -/
theorem run_fault_names_last_begun (h : run n m = .error (.fault f) m') :
    (m.runnable = false ∧ f = .notRunnable ∧ m' = m) ∨
    ∃ i t, (Task.run.start m).LastBegun i m'.current ∧ (Task.run.start m).RaisedAt f t ∧ i < t ∧
      (¬ (Task.run.start m).CompletedBy i t ↔
        ¬ (Task.run.start m).LeftBy i t ∨ (Task.run.start m).FailedBy i t) ∧
      (((Task.run.start m).after i).depth = 0 → ¬ (Task.run.start m).CompletedBy i t) := by
  by_cases hrun : m.runnable = true
  · have hexec : Task.run.exec n m = .error (.fault f) m' := bind_error h
    obtain ⟨N, hN⟩ := (Task.exec_iff_reaches fun _ h => by cases h).1 ⟨n, hexec⟩
    have hstart : Task.run.start m = ⟨m.startRun, .run, .loop⟩ := if_pos hrun
    have hend : ((Task.run.start m).after N).activity = .ended (.error (.fault f)) := by
      rw [after, hN]
      rfl
    have hnew : ¬ (Task.run.start m).activity.propagatesFaults f := by
      rw [hstart]
      exact fun h => by cases h
    obtain ⟨t, ht⟩ := exists_raisedAt hend
    have hfirst : (Task.run.start m).begun? ≠ none := by
      rw [hstart, begun?_run, if_pos (show m.startRun.runnable = true from hrun)]
      exact fun h => by cases h
    have hlast := exists_lastBegun hfirst ⟨_, hend⟩
    rw [after, hN] at hlast
    obtain ⟨i, hi⟩ := hlast
    refine .inr ⟨i, t, hi, ht, hi.lt_of_raisedAt ht, ⟨fun hnot => ?_, ?_⟩, fun hd hdone => ?_⟩
    · by_cases hleft : (Task.run.start m).LeftBy i t
      · exact .inr ((ht.completed_or_failed hend hnew hi hleft).resolve_left hnot)
      · exact .inl hleft
    · rintro (hleft | hfailed) hdone
      · exact hleft (ht.left_of_completed hend hi hdone).2
      · exact hdone.not_failedBy hfailed
    · have hpos := (ht.left_of_completed hend hi hdone).1
      omega
  · have hrefused : run n m = .error (.fault .notRunnable) m := by
      rw [run, get_bind_apply, registers_eq, if_neg hrun]
      rfl
    cases hrefused.symm.trans h
    exact .inl ⟨Bool.not_eq_true _ ▸ hrun, rfl, rfl⟩

/-- A machine that is about to map the procedure that calls with a continuation over a closure that
only returns and a number. -/
def Machine.faltering : Machine :=
  let m := sample #[0x4c, 2, 0x14, 0xca, 1, 0, 0, 0x0d]
  final (passArguments (.procedure ⟨11⟩) [.procedure ⟨0⟩, .pair ⟨2⟩] { m with heap :=
    { m.heap with
      closures := #[⟨.empty, 3⟩]
      pairs := m.heap.pairs ++ #[⟨.closure ⟨0⟩, .pair ⟨3⟩⟩, ⟨.fixnum 5, .nil⟩] } })

theorem Machine.faltering_names_last_begun : ∃ m',
    run 60 faltering = .error (.fault (.typeError "apply" "fixnum")) m' ∧ m'.current = 7 ∧
    ∃ i t, (Task.run.start faltering).LastBegun i 7 ∧
      (Task.run.start faltering).RaisedAt (.typeError "apply" "fixnum") t ∧ i < t ∧
      (¬ (Task.run.start faltering).CompletedBy i t ↔
        ¬ (Task.run.start faltering).LeftBy i t ∨ (Task.run.start faltering).FailedBy i t) := by
  have hrun : run 60 faltering = .error (.fault (.typeError "apply" "fixnum")) _ :=
    eq_error_of_stop? (by decide +kernel)
  have hcurrent : (final (run 60 faltering)).current = 7 := by decide +kernel
  rcases run_fault_names_last_begun hrun with ⟨hrefused, -⟩ | ⟨i, t, hi, ht, hit, hiff, -⟩
  · exact absurd hrefused (by decide +kernel)
  · exact ⟨_, hrun, hcurrent, i, t, hcurrent ▸ hi, ht, hit, hiff⟩

/-- The number cannot be applied, but the fault names the return of the closure, which was executed
only once and had been completed when the fault was raised. -/
theorem Machine.faltering_blames_completed : ∃ m',
    run 60 faltering = .error (.fault (.typeError "apply" "fixnum")) m' ∧ m'.current = 7 ∧
    (Task.run.start faltering).LastBegun 13 7 ∧
    (Task.run.start faltering).RaisedAt (.typeError "apply" "fixnum") 24 ∧
    ∀ i, ((Task.run.start faltering).after i).begun? = some 7 →
      (Task.run.start faltering).CompletedBy i 24 := by
  have hrun : run 60 faltering = .error (.fault (.typeError "apply" "fixnum")) _ :=
    eq_error_of_stop? (by decide +kernel)
  have hover : ((Task.run.start faltering).after 28).Over := by decide +kernel
  have hbegun : ∀ j < 28, 13 < j → ((Task.run.start faltering).after j).begun? =
      none := by decide +kernel
  have honce : ∀ j < 14, ((Task.run.start faltering).after j).begun? = some 7 →
      j = 13 := by decide +kernel
  have hlast : (Task.run.start faltering).LastBegun 13 7 := by
    refine ⟨by decide +kernel, fun j hj => ?_⟩
    rcases Nat.lt_or_ge j 28 with hlt | hge
    · exact hbegun j hlt hj
    · rw [after_of_over hover hge, hover.begun?_eq_none]
  have hraised : ∀ s < 29, 24 ≤ s →
      ((Task.run.start faltering).after s).activity.propagatesFaults
      (.typeError "apply" "fixnum") := by
    decide +kernel
  have hfirst : ∀ j < 15, 13 < j →
      ¬ ((Task.run.start faltering).after j).Controls 1 := by decide +kernel
  refine ⟨_, hrun, by decide +kernel, hlast, ⟨fun s hs => ?_, fun s hs => ?_⟩, fun i hi => ?_⟩
  · rcases Nat.lt_or_ge s 28 with hlt | hge
    · exact hraised s (Nat.lt_succ_of_lt hlt) hs
    · rw [after_of_over hover hge]
      exact hraised 28 (by decide) (by decide)
  · by_contra hlt
    have hbefore := hs 23 (by omega)
    exact absurd hbefore (by decide +kernel)
  · obtain rfl : i = 13 := by
      rcases Nat.lt_or_ge i 14 with hlt | hge
      · exact honce i hlt hi
      · rw [hlast.last i hge] at hi
        cases hi
    exact ⟨15, by decide,
      ⟨by decide, by decide +kernel, fun j hj hlt => hfirst j hlt hj⟩, by decide +kernel⟩

end LispMachine
