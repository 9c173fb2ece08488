import LispMachine.Proofs.Control.Reached

/-! # After a task

A loop that has to end says so by a fault of its own, and the loop that goes on takes the fault
away. So the host sees this fault only if one of its own procedures has made it up. When a task is
over, no call is in progress and nothing is pending, however often the machine has been loaded
before.
-/

namespace LispMachine

open Machine LispMachine.Configuration HostCalls

/-- Whatever a script of this kind is told, except that something was unwound, it goes on with a
script of the same kind. -/
def Script.KeptByReplies (P : Script Outcome → Prop) : Prop :=
  ∀ (q : Request) (next : Except Fault q.Reply → Script Outcome) (reply : Except Fault q.Reply),
    P (.ask q next) → reply ≠ .error .unwound → P (next reply)

theorem Script.relaysUnwound_keptByReplies :
    KeptByReplies RelaysUnwound := fun _ _ reply h => h reply

/-- A host procedure that waits for a result goes on with a script of this kind, unless it is told
that something was unwound. -/
def GoesOnWithin (P : Script Outcome → Prop)
    (next : Option (Except Fault Value → Script Outcome)) : Prop :=
  ∀ script ∈ next, ∀ reply, reply ≠ .error .unwound → P (script reply)

def Context.GoesOnWithin (P : Script Outcome → Prop) : Context → Prop
  | .call w k => LispMachine.GoesOnWithin P w.next ∧ k.GoesOnWithin P
  | _ => True

/-- There is a reason for a loop to end before it has its result. -/
def Machine.Interrupted (m : Machine) : Prop :=
  m.runnable = false ∨ m.hosts.escape ≠ none ∨ m.hosts.returned ≠ none

/-- A host procedure says that a call was unwound, but there is no loop around it that has to
end. -/
def Configuration.MakesUpUnwound (c : Configuration) : Prop :=
  c.activity = .script (.fail .unwound) ∧ (c.context = .outside ∨ ¬ c.machine.Interrupted)

/-- Only a host procedure may say without a reason that a call was unwound, and the host is never
told so. -/
def Justified (P : Script Outcome → Prop) (m : Machine) (k : Context) : Activity → Prop
  | .fault f => f = .unwound → k ≠ .outside ∧ m.Interrupted
  | .leave (.error f) => f = .unwound → m.Interrupted
  | .script s => P s ∨ s = .fail .unwound ∧ k ≠ .outside ∧ m.Interrupted
  | .ended (.error (.fault f)) => f ≠ .unwound
  | _ => True

structure Configuration.UnwoundJustified (P : Script Outcome → Prop) (c : Configuration) :
    Prop where
  procedures : ∀ p ∈ c.machine.heap.procedures, P p.body
  waiting : c.context.GoesOnWithin P
  said : Justified P c.machine c.context c.activity

variable {α : Type} {P : Script Outcome → Prop} {m m' : Machine} {k : Context}

/-! ## One step -/

section

variable (hp : ∀ p ∈ m.heap.procedures, P p.body) (hk : k.GoesOnWithin P)

include hp hk

omit hk in
theorem UnwoundJustified.conclude {r : EStateM.Result Stop Machine Value}
    (hr : (final r).heap.procedures = m.heap.procedures)
    (hne : ∀ m', r ≠ .error (.fault .unwound) m') : (conclude r).UnwoundJustified P := by
  have hp' : ∀ p ∈ (final r).heap.procedures, P p.body := hr ▸ hp
  rcases r with ⟨a, m'⟩ | ⟨f | _ | _, m'⟩
  · exact ⟨hp', trivial, trivial⟩
  · exact ⟨hp', trivial, fun h => hne m' (h ▸ rfl)⟩
  · exact ⟨hp', trivial, trivial⟩
  · exact ⟨hp', trivial, trivial⟩

/-- Whatever is done with the result of an operation that does not say it was unwound. -/
theorem UnwoundJustified.settle {next : Except Fault α → Activity}
    {x : EStateM.Result Stop Machine α} (hx : ContinuesTo m x)
    (hne : ∀ m', x ≠ .error (.fault .unwound) m')
    (hok : ∀ a m', x = .ok a m' → Justified P m' k (next (.ok a)))
    (hfault : ∀ f m', f ≠ .unwound → Justified P m' k (next (.error f))) :
    (settle k next x).UnwoundJustified P := by
  have hp' : ∀ p ∈ (final x).heap.procedures, P p.body := hx.same ▸ hp
  rcases x with ⟨a, m'⟩ | ⟨f | _ | _, m'⟩
  · exact ⟨hp', hk, hok a m' rfl⟩
  · exact ⟨hp', hk, hfault f m' fun h => hne m' (h ▸ rfl)⟩
  · exact ⟨hp', trivial, trivial⟩
  · exact ⟨hp', trivial, trivial⟩

theorem UnwoundJustified.unlessFault {next : α → Activity} {x : EStateM.Result Stop Machine α}
    (hx : ContinuesTo m x) (hne : ∀ m', x ≠ .error (.fault .unwound) m')
    (hnext : ∀ a m', x = .ok a m' → Justified P m' k (next a)) :
    (Configuration.settle k (.unlessFault next) x).UnwoundJustified P :=
  UnwoundJustified.settle hp hk hx hne hnext fun _ _ hf h => absurd h hf

theorem UnwoundJustified.instruct : (instruct m k).UnwoundJustified P := by
  rw [Configuration.instruct]
  split
  next hop =>
    obtain ⟨hx, hne⟩ := continues_stepWith (m := m) (by rw [hop]; decide)
    exact UnwoundJustified.unlessFault hp hk hx hne fun _ _ _ => trivial
  next => exact ⟨hp, hk, trivial⟩
  next hop =>
    obtain ⟨hx, hne⟩ := continues_stepWith hop
    exact UnwoundJustified.unlessFault hp hk hx hne fun _ _ _ => trivial

theorem UnwoundJustified.turned : (turned m k).UnwoundJustified P := by
  cases k with
  | outside => exact ⟨hp, trivial, trivial⟩
  | run =>
    rw [Configuration.turned]
    split
    · exact UnwoundJustified.instruct hp hk
    · exact ⟨hp, trivial, trivial⟩
  | call w k =>
    rw [Configuration.turned]
    rcases m.hosts.turn_cases m.runnable w.id with
      ⟨-, ht⟩ | ⟨he, -, ht⟩ | ⟨-, hwhy, ht⟩ | ⟨-, -, ht⟩ <;> rw [ht]
    · exact ⟨hp, hk, trivial⟩
    · exact ⟨hp, hk, fun _ => .inr (.inl he)⟩
    · exact ⟨hp, hk, fun _ => hwhy.elim (fun h => .inr (.inr h)) .inl⟩
    · exact UnwoundJustified.instruct hp hk

theorem UnwoundJustified.applied : (applied m k).UnwoundJustified P := by
  rw [Configuration.applied]
  split
  next r _ =>
    have hx : Stable (enterClosure r) := (maintains_enterClosure r).unwound
    exact UnwoundJustified.unlessFault hp hk (hx.related m) (hx.ne_unwound m) fun _ _ _ => trivial
  next r _ =>
    rcases handOver_cases r m with ⟨e, m', he, hm', hne⟩ | ⟨c, v, -, -, -, ho⟩
    · rw [he]
      refine UnwoundJustified.unlessFault hp hk hm' (fun m'' h => hne ?_) fun _ _ h => by cases h
      cases h
      rfl
    · rw [ho]
      exact ⟨hp, hk, trivial⟩
  next r _ =>
    have hx : Stable (pickItem (.pair r)) := (maintains_pickItem (.pair r)).unwound
    exact UnwoundJustified.unlessFault hp hk (hx.related m) (hx.ne_unwound m) fun _ _ _ => trivial
  next r _ =>
    have hx : Stable (enterProcedure r) := (maintains_enterProcedure r).unwound
    refine UnwoundJustified.unlessFault hp hk (hx.related m) (hx.ne_unwound m) ?_
    intro s m' hs
    obtain ⟨p, hmem, rfl⟩ := enterProcedure_eq_ok hs
    exact .inl (hp p hmem)
  next => exact ⟨hp, hk, fun h => by cases h⟩

theorem UnwoundJustified.begin {next : Option (Except Fault Value → Script Outcome)}
    (hnext : GoesOnWithin P next) (callee : Value) (args : List Value) :
    (begin k next callee args (beginWaiting next m)).UnwoundJustified P := by
  rcases beginWaiting_cases next m with ⟨e, m', he, hm', hne⟩ | ⟨env, m₁, cont, m₂, -, -, hm₂, hw⟩
  · have hne' (m'' : Machine) : (.error e m' : EStateM.Result Stop Machine Value) ≠
        .error (.fault .unwound) m'' := by
      intro h
      cases h
      exact hne rfl
    rw [he]
    cases next with
    | none => exact UnwoundJustified.conclude (r := .error e m') hp hm'.same hne'
    | some script =>
      change (Configuration.settle k (fun reply => .script (script reply))
        (.error e m')).UnwoundJustified P
      refine UnwoundJustified.settle hp hk hm' hne' (fun _ _ h => by cases h) ?_
      intro f m'' hf
      exact .inl (hnext script rfl _ fun h => hf (Except.error.inj h))
  · rw [hw]
    exact ⟨hm₂.same ▸ hp, ⟨hnext, hk⟩, trivial⟩

theorem UnwoundJustified.worked (hP : Script.KeptByReplies P) {s : Script Outcome}
    (hs : Justified P m k (.script s))
    (hno : ¬ Configuration.MakesUpUnwound ⟨m, k, .script s⟩) :
    (worked m k s).UnwoundJustified P := by
  match s with
  | .done (.value v) => exact ⟨hp, hk, trivial⟩
  | .done (.tailCall callee args) =>
    have hx : Stable (passArguments callee args) := (maintains_passArguments callee args).unwound
    exact UnwoundJustified.unlessFault hp hk (hx.related m) (hx.ne_unwound m) fun _ _ _ => trivial
  | .fail f =>
    refine ⟨hp, hk, ?_⟩
    rintro rfl
    refine ⟨fun hout => hno ⟨rfl, .inl hout⟩, ?_⟩
    by_contra hint
    exact hno ⟨rfl, .inr hint⟩
  | .ask q next =>
    have hask : P (.ask q next) := by
      rcases hs with hs | ⟨hs, -⟩
      · exact hs
      · cases hs
    by_cases hcall : ∃ callee args, q = .call callee args
    · obtain ⟨callee, args, rfl⟩ := hcall
      refine UnwoundJustified.begin hp hk ?_ callee args
      rintro _ ⟨⟩
      exact fun reply => hP _ next reply hask
    · have hne : ∀ callee args, q ≠ .call callee args :=
        fun callee args h => hcall ⟨callee, args, h⟩
      have hx : Stable (answer (fun _ _ => throw .stuck) q) := (maintains_answer hne _).unwound
      rw [worked_ask hne]
      refine UnwoundJustified.settle hp hk (hx.related m) (hx.ne_unwound m) ?_ ?_
      · exact fun a _ _ => .inl (hP q next (.ok a) hask fun h => by cases h)
      · exact fun f _ hf => .inl (hP q next (.error f) hask fun h => hf (Except.error.inj h))

end

/-- With nothing around it, a loop has no reason to end early but that the machine has halted. -/
theorem Machine.Interrupted.halted (h : m.Interrupted) (hdir : m.hosts.Directed .outside) :
    m.runnable = false := by
  rcases h with h | h | h
  · exact h
  · exact absurd hdir.escape_eq_none h
  · exact absurd (hdir.returned_eq_none rfl) h

theorem UnwoundJustified.failed {f : Fault} (h : Configuration.UnwoundJustified P ⟨m, k, .fault f⟩)
    (hs : Configuration.Sound ⟨m, k, .fault f⟩) : (failed m f k).UnwoundJustified P := by
  obtain ⟨hp, hk, hf⟩ := h
  cases k with
  | outside => exact ⟨hp, trivial, fun h => (hf h).1 rfl⟩
  | run =>
    rw [Configuration.failed]
    split
    · exact ⟨hp, trivial, trivial⟩
    next hne =>
      refine ⟨hp, trivial, fun hu => hne ⟨hu, ?_⟩⟩
      have hdir : m.hosts.Directed .run := by
        have hfail := hs.pending.1
        rwa [Failing, if_pos hu] at hfail
      rcases (hf hu).2 with h | h | h
      · exact .inl (by rw [h]; rfl)
      · right
        cases he : m.hosts.escape with
        | none => exact absurd he h
        | some l =>
          cases l with
          | run => rfl
          | call id => exact absurd (hdir.call he) List.not_mem_nil
      · exact absurd (hdir.returned_eq_none rfl) h
  | call w k =>
    rw [Configuration.failed]
    by_cases hu : f = .unwound
    · rw [if_pos hu]
      exact ⟨hp, hk, trivial⟩
    · rw [if_neg hu]
      exact ⟨hp, hk, fun h => absurd h hu⟩

section Reply

variable {w : Waiting}

theorem UnwoundJustified.reply (hp : ∀ p ∈ m.heap.procedures, P p.body) (hk : k.GoesOnWithin P)
    (hnext : GoesOnWithin P w.next) {r : EStateM.Result Stop Machine Value}
    (hr : (final r).heap.procedures = m.heap.procedures)
    (hne : ∀ m', r ≠ .error (.fault .unwound) m') : (reply k w.next r).UnwoundJustified P := by
  cases hw : w.next with
  | none => exact UnwoundJustified.conclude hp hr hne
  | some script =>
    have hp' : ∀ p ∈ (final r).heap.procedures, P p.body := hr ▸ hp
    rcases r with ⟨v, m'⟩ | ⟨f | _ | _, m'⟩
    · exact ⟨hp', hk, .inl (hnext script hw _ fun h => by cases h)⟩
    · refine ⟨hp', hk, .inl (hnext script hw _ fun h => ?_)⟩
      cases h
      exact hne m' rfl
    · exact ⟨hp', trivial, trivial⟩
    · exact ⟨hp', trivial, trivial⟩

/-- The outermost call never says that it was unwound. If it had to end early, the machine has
halted. -/
theorem endWaiting_outer_ne_unwound {f : Fault} (ho : w.outermost = true)
    (hs : Configuration.Sound ⟨m, .call w .outside, .leave (.error f)⟩)
    (hout : f = .unwound → m.Interrupted) (m' : Machine) :
    endWaiting w (.error f) m ≠ .error (.fault .unwound) m' := by
  rw [endWaiting_error_outer ho]
  split
  · exact fun h => by cases h
  next hne =>
    intro h
    cases h
    obtain ⟨w', k', hk', hfail⟩ := hs.pending
    cases hk'
    rw [Failing, if_pos rfl] at hfail
    exact hne ⟨rfl, (hout rfl).halted hfail⟩

theorem Machine.Interrupted.released (h : m.Interrupted) (id : Nat) :
    (m.released id).Interrupted := by
  rcases h with h | h | h
  · exact .inl h
  · exact .inr (.inl ((released_escape m id).symm ▸ h))
  · exact .inr (.inr ((released_returned m id).symm ▸ h))

/-- An inner call that had to end early makes the procedure that waits for it fail in the same
way. -/
theorem UnwoundJustified.reply_unwound (hp : ∀ p ∈ m.heap.procedures, P p.body)
    (hk : k.GoesOnWithin P) (hinner : k ≠ .outside) (hpropagates : PropagatesReply w.next)
    (hnone : w.next = none → k = .outside) (hm : m.Interrupted) :
    (Configuration.reply k w.next
      (.error (.fault .unwound) (m.released w.id))).UnwoundJustified P := by
  cases hw : w.next with
  | none => exact absurd (hnone hw) hinner
  | some script =>
    exact ⟨hp, hk, .inr ⟨(hpropagates script hw).1 _, hinner, hm.released w.id⟩⟩

end Reply

theorem UnwoundJustified.left {outcome : Except Fault Unit}
    (h : Configuration.UnwoundJustified P ⟨m, k, .leave outcome⟩)
    (hs : Configuration.Sound ⟨m, k, .leave outcome⟩) : (left m outcome k).UnwoundJustified P := by
  obtain ⟨hp, hk, hout⟩ := h
  cases k with
  | outside => exact ⟨hp, trivial, trivial⟩
  | run => exact ⟨hp, trivial, trivial⟩
  | call w k =>
    obtain ⟨hnext, hk⟩ := hk
    obtain ⟨-, -, houter, hpropagates, hnone⟩ := hs.calls.proper
    change (Configuration.reply k w.next (endWaiting w outcome m)).UnwoundJustified P
    cases outcome with
    | ok _ => exact UnwoundJustified.reply hp hk hnext rfl fun m' h => by cases h
    | error f =>
      have hheap : (final (endWaiting w (.error f) m)).heap.procedures = m.heap.procedures := by
        cases ho : w.outermost with
        | true =>
          rw [endWaiting_error_outer ho]
          split <;> rfl
        | false =>
          rw [endWaiting_error_inner ho]
          rfl
      cases ho : w.outermost with
      | true =>
        have hout' : k = .outside := by
          rw [houter] at ho
          cases k <;> first | rfl | cases ho
        subst hout'
        exact UnwoundJustified.reply hp hk hnext hheap (endWaiting_outer_ne_unwound ho hs hout)
      | false =>
        have hinner : k ≠ .outside := by
          rintro rfl
          rw [houter] at ho
          cases ho
        by_cases hu : f = .unwound
        · subst hu
          rw [endWaiting_error_inner ho]
          exact UnwoundJustified.reply_unwound hp hk hinner hpropagates hnone (hout rfl)
        · refine UnwoundJustified.reply hp hk hnext hheap fun m' h => ?_
          rw [endWaiting_error_inner ho] at h
          cases h
          exact hu rfl

/-- If the host calls are in order and no host procedure makes it up that something was unwound,
then nobody says so without a reason. -/
theorem Configuration.UnwoundJustified.advance {c : Configuration} (h : c.UnwoundJustified P)
    (hP : Script.KeptByReplies P) (hs : c.Sound) (hno : ¬ c.MakesUpUnwound) :
    c.advance.UnwoundJustified P := by
  obtain ⟨m, k, activity⟩ := c
  obtain ⟨hp, hk, hsaid⟩ := h
  cases activity with
  | loop => exact UnwoundJustified.turned hp hk
  | enter callee args =>
    have hx : Stable (passArguments callee args) := (maintains_passArguments callee args).unwound
    refine UnwoundJustified.settle hp hk (hx.related m) (hx.ne_unwound m) (fun _ _ _ => trivial) ?_
    exact fun f _ hf heq => absurd heq hf
  | apply => exact UnwoundJustified.applied hp hk
  | script s => exact UnwoundJustified.worked hp hk hP hsaid hno
  | ret =>
    change (Configuration.settle k (.unlessFault fun _ => .loop) (Machine.ret m)).UnwoundJustified P
    rcases ret_cases m with hx | ⟨r, c, id, -, -, -, -, hret⟩
    · exact UnwoundJustified.unlessFault hp hk hx (ret_ne_unwound m) fun _ _ _ => trivial
    · rw [hret]
      exact ⟨hp, hk, trivial⟩
  | fault f => exact UnwoundJustified.failed ⟨hp, hk, hsaid⟩ hs
  | leave outcome => exact UnwoundJustified.left ⟨hp, hk, hsaid⟩ hs
  | ended o => exact ⟨hp, hk, hsaid⟩

theorem Configuration.UnwoundJustified.reaches {c c' : Configuration} (h : c.UnwoundJustified P)
    (hP : Script.KeptByReplies P) (hs : c.Sound) (hc : Reaches c c') (hl : ¬ c'.Aborted) :
    c'.UnwoundJustified P ∨ ∃ c₁, Reaches c c₁ ∧ c₁.UnwoundJustified P ∧ c₁.MakesUpUnwound := by
  obtain ⟨n, rfl⟩ := hc
  induction n generalizing c with
  | zero => exact .inl h
  | succ n ih =>
    by_cases hno : c.MakesUpUnwound
    · exact .inr ⟨c, ⟨0, rfl⟩, h, hno⟩
    · rw [Function.iterate_succ_apply] at hl ⊢
      rcases hs.advance with hs' | haborted
      · rcases ih (h.advance hP hs hno) hs' hl with h' | ⟨c₁, hc₁, h₁⟩
        · exact .inl h'
        · exact .inr ⟨c₁, (Reaches.advance c).trans hc₁, h₁⟩
      · rw [Function.iterate_fixed (Aborted.advance haborted)] at hl
        exact absurd haborted hl

/-! ## Whole tasks -/

theorem UnwoundJustified.start (hp : ∀ p ∈ m.heap.procedures, P p.body) (t : Task) :
    (t.start m).UnwoundJustified P := by
  cases t with
  | step => exact UnwoundJustified.instruct hp trivial
  | apply => exact ⟨hp, trivial, trivial⟩
  | run =>
    rw [Task.start]
    split
    · exact ⟨hp, trivial, trivial⟩
    · exact ⟨hp, trivial, fun h => by cases h⟩
  | call callee args =>
    exact UnwoundJustified.begin (k := .outside) hp trivial (fun _ h => by cases h) callee args

/-- If the host is told that something was unwound, then one of its procedures has made it up. -/
theorem Resting.makesUpUnwound {t : Task} {n : Nat} (h : Resting m) (hP : Script.KeptByReplies P)
    (hp : ∀ p ∈ m.heap.procedures, P p.body) (ht : t.exec n m = .error (.fault .unwound) m') :
    ∃ c, Reaches (t.start m) c ∧ c.UnwoundJustified P ∧ c.MakesUpUnwound := by
  have hreach := (Task.exec_iff_reaches fun _ h => by cases h).1 ⟨n, ht⟩
  have haborted : ¬ (conclude (.error (.fault .unwound) m')).Aborted :=
    not_aborted (fun h => by cases h) fun h => by cases h
  rcases h.start t with hstart | haborted'
  · refine ((UnwoundJustified.start hp t).reaches hP hstart hreach haborted).resolve_left ?_
    exact fun hc => hc.said rfl
  · obtain ⟨i, hi⟩ := hreach
    rw [Function.iterate_fixed haborted'.advance] at hi
    exact absurd (hi ▸ haborted') haborted

theorem Resting.ne_unwound {f : Fault} {t : Task} {n : Nat} (h : Resting m)
    (hp : ∀ p ∈ m.heap.procedures, p.body.RelaysUnwound) (ht : t.exec n m = .error (.fault f) m') :
    f ≠ .unwound := by
  rintro rfl
  obtain ⟨⟨m₁, k, a⟩, -, hc, ha, hwhy⟩ :=
    h.makesUpUnwound Script.relaysUnwound_keptByReplies hp ht
  cases ha
  rcases hc.said with hsaid | ⟨-, hinner, hint⟩
  · exact hsaid rfl
  · rcases hwhy with hout | hno
    · exact hinner hout
    · exact hno hint

theorem Resting.hosts_eq (h : Resting m) : m.hosts = { next := m.hosts.next } := by
  have hactive : m.hosts.active = [] := h.calls.active
  have hrunning : m.hosts.running = false := h.calls.running
  obtain ⟨hescape, hreturned⟩ := h.quiet
  generalize m.hosts = hosts at hactive hrunning hescape hreturned
  obtain ⟨active, next, returned, escape, running⟩ := hosts
  cases hactive
  cases hrunning
  cases hescape
  cases hreturned
  rfl

def Machine.halting : Machine :=
  let m := sample #[0x4c, 2, 0x14]
  final (passArguments (.procedure ⟨11⟩) [.closure ⟨0⟩, .pair ⟨0⟩]
    { m with heap := (m.heap.addClosure ⟨.empty, 2⟩).2 })

theorem Machine.used_halting : Used 0 halting := by
  have hnew : Stable (newClosure ⟨.empty, 2⟩) := maintains_newClosure ⟨.empty, 2⟩
  unfold halting
  exact .operate (.operate (used_sample _) (hnew.related _).toProceeds)
    ((maintains_passArguments ..).related _)

end LispMachine
