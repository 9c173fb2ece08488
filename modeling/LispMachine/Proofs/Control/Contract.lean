import LispMachine.Proofs.Control.Reached

/-! # The contract of host calls

A call that gives a result has got it from the callee, through the marker that was left for it, and
the host finds everything else as it was when it called.
-/

namespace LispMachine

open Machine LispMachine.Configuration

variable {α : Type} {m m' m'' : Machine} {k : Context} {c c' : Configuration}

/-! ## One step -/

@[simp] theorem settle_machine (k : Context) (next : Except Fault α → Activity)
    (r : EStateM.Result Stop Machine α) : (settle k next r).machine = final r := by
  match r with
  | .ok a m => rfl
  | .error (.fault f) m => rfl
  | .error .stuck m => rfl
  | .error .unfinished m => rfl

@[simp] theorem conclude_machine (r : EStateM.Result Stop Machine Value) :
    (conclude r).machine = final r := by
  cases r <;> rfl

@[simp] theorem reply_machine (k : Context) (next : Option (Except Fault Value → Script Outcome))
    (r : EStateM.Result Stop Machine Value) : (reply k next r).machine = final r := by
  cases next with
  | none => exact conclude_machine r
  | some next => exact settle_machine ..

/-- Of the calls whose markers come after the first `old` continuations no two have had the same
number, and their numbers will not be used again. -/
structure Machine.Numbered (m : Machine) (old : Nat) : Prop where
  below {r : Ref .continuation} {k : Continuation} {id : Nat} : old ≤ r.index →
    m.heap.continuation r = .ok k → k.resume = .host id → id < m.hosts.next
  unique {r r' : Ref .continuation} {k k' : Continuation} {id : Nat} : old ≤ r.index →
    m.heap.continuation r = .ok k → k.resume = .host id → old ≤ r'.index →
    m.heap.continuation r' = .ok k' → k'.resume = .host id → r = r'

namespace Machine.Numbered

variable {old : Nat}

theorem proceeds (h : m.Numbered old) (hm : Proceeds m m') : m'.Numbered old where
  below hr hk hid := by
    rcases hm.added hk with hk | hk
    · rw [hm.hosts]
      exact h.below hr hk hid
    · exact absurd hid (hk.1 _)
  unique hr hk hid hr' hk' hid' := by
    rcases hm.added hk with hk | hk
    · rcases hm.added hk' with hk' | hk'
      · exact h.unique hr hk hid hr' hk' hid'
      · exact absurd hid' (hk'.1 _)
    · exact absurd hid (hk.1 _)

theorem of_same (h : m.Numbered old) (hheap : m'.heap = m.heap)
    (hnext : m'.hosts.next = m.hosts.next) : m'.Numbered old :=
  ⟨hheap ▸ hnext ▸ h.below, hheap ▸ h.unique⟩

theorem of_size_le (h : m.heap.continuations.size ≤ old) : m.Numbered old := by
  have hnone {r : Ref .continuation} {k : Continuation} (hr : old ≤ r.index)
      (hk : m.heap.continuation r = .ok k) : False := by
    have hlt := (Array.getElem?_eq_some_iff.1 (Heap.continuation_eq_ok.1 hk)).1
    omega
  exact ⟨fun hr hk => (hnone hr hk).elim, fun hr hk => (hnone hr hk).elim⟩

theorem leaveMarker (h : m.Numbered old) (cont : Cont) (env : Env) :
    (m.marked cont env).Numbered old where
  below hr hk hid := by
    rcases continuation_addContinuation.1 hk with hk | ⟨-, rfl⟩
    · exact Nat.lt_succ_of_lt (h.below hr hk hid)
    · cases hid
      exact Nat.lt_succ_self _
  unique hr hk hid hr' hk' hid' := by
    rcases continuation_addContinuation.1 hk with hk | ⟨hsize, rfl⟩ <;>
      rcases continuation_addContinuation.1 hk' with hk' | ⟨hsize', rfl⟩
    · exact h.unique hr hk hid hr' hk' hid'
    · cases hid'
      exact absurd (h.below hr hk hid) (Nat.lt_irrefl _)
    · cases hid
      exact absurd (h.below hr' hk' hid') (Nat.lt_irrefl _)
    · exact congrArg Ref.mk (hsize.trans hsize'.symm)

end Machine.Numbered

/-- Continuations and frames stay where they are, no result becomes ready for a call, and calls keep
their numbers. -/
structure GoesOn (m m' : Machine) : Prop where
  kept {r : Ref .continuation} {c : Continuation} :
    m.heap.continuation r = .ok c → m'.heap.continuation r = .ok c
  frames : m.heap.FramesKept m'.heap
  returned {id : Nat} : m'.hosts.returned = some id → m.hosts.returned = some id
  numbered {old : Nat} : m.Numbered old → m'.Numbered old

theorem Machine.Continues.goesOn (h : Continues m m') : GoesOn m m' :=
  ⟨h.kept, h.frames, h.hosts ▸ id, fun hm => hm.proceeds h.toProceeds⟩

theorem GoesOn.trans (h : GoesOn m m') (h' : GoesOn m' m'') : GoesOn m m'' :=
  ⟨fun hc => h'.kept (h.kept hc), h.frames.trans h'.frames, fun hr => h.returned (h'.returned hr),
    fun hm => h'.numbered (h.numbered hm)⟩

theorem GoesOn.of_same (hh : m'.heap = m.heap) (hr : m'.hosts.returned = m.hosts.returned)
    (hn : m'.hosts.next = m.hosts.next) : GoesOn m m' :=
  ⟨hh ▸ id, .of_same (congrArg Heap.frames hh), hr ▸ id, fun hm => hm.of_same hh hn⟩

theorem GoesOn.of_none (hh : m'.heap = m.heap) (hr : m'.hosts.returned = none)
    (hn : m'.hosts.next = m.hosts.next) : GoesOn m m' :=
  ⟨hh ▸ id, .of_same (congrArg Heap.frames hh), fun h => (by rw [hr] at h; cases h),
    fun hm => hm.of_same hh hn⟩

theorem goesOn_instruct (m : Machine) (k : Context) : GoesOn m (instruct m k).machine := by
  rw [instruct]
  split
  next hop =>
    rw [settle_machine]
    exact (continues_stepWith (by rw [hop]; decide)).1.goesOn
  next => exact .of_same rfl rfl rfl
  next hop =>
    rw [settle_machine]
    exact (continues_stepWith hop).1.goesOn

theorem goesOn_endWaiting (w : Waiting) (outcome : Except Fault Unit) (m : Machine) :
    GoesOn m (final (endWaiting w outcome m)) := by
  match outcome with
  | .ok () => exact .of_same rfl (released_returned m w.id) (released_next m w.id)
  | .error f =>
    cases ho : w.outermost with
    | false =>
      rw [endWaiting_error_inner ho]
      exact .of_same rfl (released_returned m w.id) (released_next m w.id)
    | true =>
      rw [endWaiting_error_outer ho]
      split
      · exact .of_none rfl rfl (released_next m w.id)
      · exact .of_same rfl (released_returned m w.id) (released_next m w.id)

theorem goesOn_turned (m : Machine) (k : Context) : GoesOn m (turned m k).machine := by
  cases k with
  | outside => exact .of_same rfl rfl rfl
  | run =>
    rw [turned]
    split
    · exact goesOn_instruct m .run
    · exact .of_same rfl rfl rfl
  | call w k =>
    rw [turned]
    rcases m.hosts.turn_cases m.runnable w.id with ⟨-, ht⟩ | ⟨-, -, ht⟩ | ⟨-, -, ht⟩ | ⟨-, -, ht⟩
      <;> rw [ht]
    · exact .of_none rfl rfl rfl
    · exact .of_same rfl rfl rfl
    · exact .of_same rfl rfl rfl
    · refine GoesOn.trans ?_ (goesOn_instruct _ _)
      exact .of_same rfl rfl rfl

theorem goesOn_applied (m : Machine) (k : Context) : GoesOn m (applied m k).machine := by
  rw [applied]
  split
  all_goals try rw [settle_machine]
  next r _ => exact Continues.goesOn ((maintains_enterClosure r).related m)
  next r _ =>
    rcases handOver_cases r m with ⟨e, m', he, hm', -⟩ | ⟨c, v, hc, -, -, ho⟩
    · rw [he]
      exact hm'.goesOn
    · rw [ho]
      exact .of_same rfl (m.hosts.noteEntry_returned c.owner) (m.hosts.noteEntry_next c.owner)
  next r _ => exact Continues.goesOn ((maintains_pickItem _).related m)
  next r _ => exact Continues.goesOn ((maintains_enterProcedure r).related m)
  next => exact .of_same rfl rfl rfl

theorem goesOn_worked (m : Machine) (k : Context) (s : Script Outcome) :
    GoesOn m (worked m k s).machine := by
  match s with
  | .done (.value v) => exact .of_same rfl rfl rfl
  | .done (.tailCall callee args) =>
    rw [worked, settle_machine]
    exact Continues.goesOn ((maintains_passArguments callee args).related m)
  | .fail f => exact .of_same rfl rfl rfl
  | .ask q next =>
    by_cases hq : ∃ callee args, q = .call callee args
    · obtain ⟨callee, args, rfl⟩ := hq
      rw [worked]
      rcases beginWaiting_cases (some next) m with
        ⟨e, m', he, hm', -⟩ | ⟨env, m₁, cont, m₂, -, -, hm₂, hw⟩
      · rw [he, begin, reply_machine]
        exact hm'.goesOn
      · rw [hw, begin]
        exact hm₂.goesOn.trans ⟨fun hc => continuation_addContinuation.2 (.inl hc), .of_same rfl,
          id, fun hm => hm.leaveMarker cont env⟩
    · have hne : ∀ callee args, q ≠ .call callee args := fun callee args h => hq ⟨callee, args, h⟩
      rw [worked_ask hne, settle_machine]
      exact Continues.goesOn ((maintains_answer hne _).related m)

/-- Only a return makes the result of a call ready. -/
theorem goesOn_advance (c : Configuration) : GoesOn c.machine c.advance.machine ∨
    ∃ r k id, c.activity = .ret ∧ c.machine.cont = .onHeap r ∧ c.machine.heap.continuation r =
      .ok k ∧ k.resume = .host id ∧ c.advance = ⟨c.machine.handedBack k id, c.context, .loop⟩ := by
  obtain ⟨m, k, activity⟩ := c
  cases activity with
  | loop => exact .inl (goesOn_turned m k)
  | enter callee args =>
    left
    rw [advance, settle_machine]
    exact Continues.goesOn ((maintains_passArguments callee args).related m)
  | apply => exact .inl (goesOn_applied m k)
  | script s => exact .inl (goesOn_worked m k s)
  | ret =>
    rw [advance]
    rcases ret_cases m with hm | ⟨r, c, id, hcont, hr, hres, -, hret⟩
    · left
      rw [settle_machine]
      exact hm.goesOn
    · refine .inr ⟨r, c, id, rfl, hcont, hr, hres, ?_⟩
      rw [hret]
      rfl
  | fault f =>
    left
    change GoesOn m (failed m f k).machine
    cases k with
    | call w k => exact .of_same rfl rfl rfl
    | run =>
      rw [failed]
      split <;> exact .of_same rfl rfl rfl
    | outside => exact .of_same rfl rfl rfl
  | leave outcome =>
    left
    cases k with
    | call w k =>
      change GoesOn m (reply k w.next (endWaiting w outcome m)).machine
      rw [reply_machine]
      exact goesOn_endWaiting w outcome m
    | _ => exact .of_same rfl rfl rfl
  | ended o => exact .inl (.of_same rfl rfl rfl)

theorem Configuration.Reaches.kept (h : Reaches c c') {r : Ref .continuation} {o : Continuation}
    (hr : c.machine.heap.continuation r = .ok o) : c'.machine.heap.continuation r = .ok o := by
  obtain ⟨n, rfl⟩ := h
  induction n generalizing c with
  | zero => exact hr
  | succ n ih =>
    refine ih ?_
    rcases goesOn_advance c with h | ⟨r', k, id, -, -, -, -, h⟩
    · exact h.kept hr
    · rw [h]
      exact hr

theorem Configuration.Reaches.frames (h : Reaches c c') :
    c.machine.heap.FramesKept c'.machine.heap := by
  obtain ⟨n, rfl⟩ := h
  induction n generalizing c with
  | zero => exact .of_same rfl
  | succ n ih =>
    refine Heap.FramesKept.trans ?_ (ih (c := c.advance))
    rcases goesOn_advance c with h | ⟨r', k, id, -, -, -, -, h⟩
    · exact h.frames
    · rw [h]
      exact .of_same rfl

theorem Configuration.Reaches.numbered {old : Nat} (h : Reaches c c')
    (hc : c.machine.Numbered old) :
    c'.machine.Numbered old := by
  obtain ⟨n, rfl⟩ := h
  induction n generalizing c with
  | zero => exact hc
  | succ n ih =>
    refine ih ?_
    rcases goesOn_advance c with h | ⟨r', k, id, -, -, -, -, h⟩
    · exact h.numbered hc
    · rw [h]
      exact hc.of_same rfl rfl

theorem Task.numbered_start {old : Nat} (h : m.Numbered old) (t : Task) :
    (t.start m).machine.Numbered old := by
  cases t with
  | step => exact (goesOn_instruct m .outside).numbered h
  | apply => exact h
  | run =>
    rw [start]
    split <;> exact h.of_same rfl rfl
  | call callee args =>
    rw [start]
    rcases beginWaiting_cases none m with ⟨e, m', he, hm', -⟩ | ⟨env, m₁, cont, m₂, -, -, hm₂, hw⟩
    · rw [he]
      exact h.proceeds hm'.toProceeds
    · rw [hw]
      exact (h.proceeds hm₂.toProceeds).leaveMarker cont env

theorem Reached.numbered (h : Reached m) : m.Numbered 0 := by
  induction h with
  | @load m₀ _ p hcont hproc hload =>
    cases hload
    exact .of_size_le (Nat.le_of_eq (Array.size_eq_zero_iff.2 hcont))
  | operate _ hm ih => exact ih.proceeds hm
  | @done m m' t n v _ ht ih =>
    have hc := (Task.exec_iff_reaches fun _ h => by cases h).1 ⟨n, ht⟩
    exact hc.numbered (t.numbered_start ih)
  | @failed m m' t n f _ ht ih =>
    have hc := (Task.exec_iff_reaches fun _ h => by cases h).1 ⟨n, ht⟩
    exact hc.numbered (t.numbered_start ih)

theorem Used.numbered {old : Nat} (h : Used old m) : m.Numbered old := by
  induction h with
  | new capacity => exact .of_size_le (Nat.le_refl 0)
  | load p _ hload ih =>
    cases hload
    exact .of_size_le (Nat.le_refl _)
  | operate _ hm ih => exact ih.proceeds hm
  | @done _ _ _ t n v _ ht ih =>
    have hc := (Task.exec_iff_reaches fun _ h => by cases h).1 ⟨n, ht⟩
    exact hc.numbered (t.numbered_start ih)
  | @failed _ _ _ t n f _ ht ih =>
    have hc := (Task.exec_iff_reaches fun _ h => by cases h).1 ⟨n, ht⟩
    exact hc.numbered (t.numbered_start ih)

theorem Callable.numbered (h : Callable m k) : m.Numbered 0 := by
  cases h with
  | resting h => exact h.numbered
  | working h hc hs => exact hc.numbered (Task.numbered_start h.numbered _)

/-! ## Results on their way -/

/-- Only the host calls have changed. -/
def SameButHosts (m m' : Machine) : Prop := m' = { m with hosts := m'.hosts }

/-- While a result or an escape is on its way out, nothing else happens. -/
theorem Configuration.Sound.sameButHosts_advance (h : c.Sound)
    (hp : c.machine.hosts.returned ≠ none) :
    SameButHosts c.machine c.advance.machine := by
  obtain ⟨m, k, activity⟩ := c
  obtain ⟨hcalls, hpending⟩ := h
  have hquiet : ¬ m.hosts.NonePending := fun hq => hp hq.returned
  have hdirected {k : Context} (hdir : m.hosts.Directed k) : k.active ≠ [] :=
    fun hk => hp (hdir.returned_eq_none hk)
  have hfailing {k : Context} {f : Fault} (hf : m.hosts.Failing k f) :
      f = .unwound ∧ k.active ≠ [] := by
    refine ⟨?_, fun hk => hp (hf.returned_eq_none hk)⟩
    by_contra hne
    rw [HostCalls.Failing, if_neg hne] at hf
    exact hp hf
  cases activity with
  | enter callee args => exact absurd hpending.1 hquiet
  | apply => exact absurd hpending hquiet
  | ret => exact absurd hpending.1 hp
  | ended o => exact absurd hpending hquiet
  | loop =>
    cases k with
    | call w k =>
      change SameButHosts m (Configuration.turned m (.call w k)).machine
      rw [Configuration.turned]
      rcases m.hosts.turn_cases m.runnable w.id with ⟨-, ht⟩ | ⟨-, -, ht⟩ | ⟨-, -, ht⟩ | ⟨hr, -, ht⟩
      · rw [ht]
        rfl
      · rw [ht]
        rfl
      · rw [ht]
        rfl
      · exact absurd hr hp
    | _ => exact absurd rfl (hdirected hpending.1)
  | script s =>
    rcases hpending.2 with hq | ⟨f, rfl, -⟩
    · exact absurd hq hquiet
    · rfl
  | fault f =>
    obtain ⟨-, hk⟩ := hfailing hpending.1
    cases k with
    | call w k => rfl
    | _ => exact absurd rfl hk
  | leave outcome =>
    cases outcome with
    | ok _ => exact absurd hpending.1 hquiet
    | error f =>
      obtain ⟨w, k', rfl, hf⟩ := hpending
      obtain ⟨-, hne⟩ := hfailing hf
      have houter : w.outermost = false := by
        rw [hcalls.proper.2.2.1]
        cases k' <;> first | rfl | exact absurd rfl hne
      change SameButHosts m (reply k' w.next (endWaiting w (.error f) m)).machine
      rw [reply_machine, endWaiting_error_inner houter]
      rfl

def Activity.IsResult (a : Activity) : Prop := a = .leave (.ok ())

theorem settle_not_isResult {next : Except Fault α → Activity} {r : EStateM.Result Stop Machine α}
    (hnext : ∀ reply, ¬ (next reply).IsResult) : ¬ (settle k next r).activity.IsResult := by
  match r with
  | .ok a m => exact hnext (.ok a)
  | .error (.fault f) m => exact hnext (.error f)
  | .error .stuck m => nofun
  | .error .unfinished m => nofun

theorem unlessFault_not_isResult {next : α → Activity} (hnext : ∀ a, ¬ (next a).IsResult)
    (reply : Except Fault α) : ¬ (Activity.unlessFault next reply).IsResult := by
  cases reply with
  | ok a => exact hnext a
  | error f => nofun

theorem reply_not_isResult {next : Option (Except Fault Value → Script Outcome)}
    {r : EStateM.Result Stop Machine Value} : ¬ (reply k next r).activity.IsResult := by
  cases next with
  | none => cases r <;> nofun
  | some next => exact settle_not_isResult nofun

theorem instruct_not_isResult (m : Machine) (k : Context) : ¬ (instruct m k).activity.IsResult := by
  rw [instruct]
  split
  · exact settle_not_isResult (unlessFault_not_isResult fun _ h => by cases h)
  · exact fun h => by cases h
  · exact settle_not_isResult (unlessFault_not_isResult fun _ h => by cases h)

theorem applied_not_isResult (m : Machine) (k : Context) : ¬ (applied m k).activity.IsResult := by
  rw [applied]
  split
  case h_5 => exact fun h => by cases h
  all_goals exact settle_not_isResult (unlessFault_not_isResult fun _ h => by cases h)

theorem worked_not_isResult (m : Machine) (k : Context) (s : Script Outcome) :
    ¬ (worked m k s).activity.IsResult := by
  match s with
  | .done (.value v) => nofun
  | .done (.tailCall callee args) => exact settle_not_isResult (unlessFault_not_isResult nofun)
  | .fail f => nofun
  | .ask q next =>
    by_cases hq : ∃ callee args, q = .call callee args
    · obtain ⟨callee, args, rfl⟩ := hq
      rw [worked]
      cases beginWaiting (some next) m with
      | ok w m' => nofun
      | error e m' => exact reply_not_isResult
    · rw [worked_ask fun callee args h => hq ⟨callee, args, h⟩]
      exact settle_not_isResult nofun

theorem isResult_advance (h : c.advance.activity.IsResult) :
    ∃ w k, c = ⟨c.machine, .call w k, .loop⟩ ∧ c.machine.hosts.returned = some w.id ∧
      c.advance = ⟨{ c.machine with
        hosts := { c.machine.hosts with escape := none, returned := none } }, .call w k,
        .leave (.ok ())⟩ := by
  obtain ⟨m, k, activity⟩ := c
  cases activity with
  | enter callee args =>
    refine absurd h (settle_not_isResult fun reply => ?_)
    cases reply <;> nofun
  | apply => exact absurd h (applied_not_isResult m k)
  | script s => exact absurd h (worked_not_isResult m k s)
  | ret => exact absurd h (settle_not_isResult (unlessFault_not_isResult nofun))
  | ended o => cases h
  | leave outcome =>
    cases k with
    | call w k => exact absurd h reply_not_isResult
    | _ => cases h
  | fault f =>
    change (failed m f k).activity.IsResult at h
    cases k with
    | outside => cases h
    | run =>
      rw [failed] at h
      split at h <;> cases h
    | call w k =>
      rw [failed] at h
      by_cases hf : f = .unwound
      · simp only [if_pos hf] at h
        cases h
      · simp only [if_neg hf] at h
        cases h
  | loop =>
    change (turned m k).activity.IsResult at h
    cases k with
    | outside => cases h
    | run =>
      rw [turned] at h
      split at h
      · exact absurd h (instruct_not_isResult m .run)
      · cases h
    | call w k =>
      refine ⟨w, k, rfl, ?_⟩
      change _ ∧ turned m (.call w k) = _
      rw [turned] at h ⊢
      rcases m.hosts.turn_cases m.runnable w.id with ⟨hr, ht⟩ | ⟨-, -, ht⟩ | ⟨-, -, ht⟩ | ⟨-, -, ht⟩
      · rw [ht]
        exact ⟨hr, rfl⟩
      · rw [ht] at h
        cases h
      · rw [ht] at h
        cases h
      · rw [ht] at h
        exact absurd h (instruct_not_isResult _ _)

/-! ## Results that have arrived -/

/-- On the way from `c₀` the machine has returned through the marker of the call `id`, and `m` still
has the accumulator and what the marker holds. -/
def CameBack (c₀ : Configuration) (id : Nat) (m : Machine) : Prop :=
  ∃ t k r o, Reaches c₀ ⟨t, k, .ret⟩ ∧ t.cont = .onHeap r ∧ t.heap.continuation r = .ok o ∧
    o.resume = .host id ∧ m.acc = t.acc ∧ m.env = o.env ∧ m.cont = o.prev

theorem CameBack.sameButHosts {c₀ : Configuration} {id : Nat} (h : CameBack c₀ id m)
    (hm : SameButHosts m m') : CameBack c₀ id m' := by
  obtain ⟨t, k, r, o, ht, hcont, hr, hres, hacc, henv, hprev⟩ := h
  rw [hm]
  exact ⟨t, k, r, o, ht, hcont, hr, hres, hacc, henv, hprev⟩

/-- Whatever result is ready or has arrived, it has been returned through the marker. -/
theorem Configuration.Sound.cameBack {c₀ : Configuration} (h₀ : c₀.Sound)
    (hr₀ : c₀.machine.hosts.returned = none) (ha₀ : ¬ c₀.activity.IsResult) (hc : Reaches c₀ c)
    (hl : ¬ c.Aborted) :
    (∀ id, c.machine.hosts.returned = some id → CameBack c₀ id c.machine) ∧
    ∀ w k, c.context = .call w k → c.activity.IsResult → CameBack c₀ w.id c.machine := by
  obtain ⟨n, rfl⟩ := hc
  induction n with
  | zero =>
    refine ⟨fun id hid => ?_, fun _ _ _ h => absurd h ha₀⟩
    rw [Function.iterate_zero_apply, hr₀] at hid
    cases hid
  | succ n ih =>
    rw [Function.iterate_succ_apply'] at hl ⊢
    have hreach : Reaches c₀ (Configuration.advance^[n] c₀) := ⟨n, rfl⟩
    have hl' : ¬ (Configuration.advance^[n] c₀).Aborted := fun h => hl (h.advance.symm ▸ h)
    have hsound := h₀.reaches hreach hl'
    obtain ⟨ih, -⟩ := ih hl'
    generalize Configuration.advance^[n] c₀ = c at *
    constructor
    · intro id hid
      rcases goesOn_advance c with hm | ⟨r, k, id', hact, hcont, hr, hres, heq⟩
      · have hid := hm.returned hid
        refine (ih id hid).sameButHosts (hsound.sameButHosts_advance ?_)
        rw [hid]
        nofun
      · rw [heq] at hid ⊢
        cases hid
        obtain ⟨m, ctx, activity⟩ := c
        subst hact
        exact ⟨m, ctx, r, k, hreach, hcont, hr, hres, rfl, rfl, rfl⟩
    · intro w k hk hres
      obtain ⟨w', k', -, hid, heq⟩ := isResult_advance hres
      rw [heq] at hk ⊢
      cases hk
      exact (ih w.id hid).sameButHosts rfl

/-! ## What the registers name at entry -/

theorem promoteFrame_eq_ok {f : LiveFrame} {parent env : Env}
    (h : promoteFrame f parent m = .ok env m') :
    (∃ r, env = .onHeap r) ∧ m'.resolve (.onStack f.pos) = .ok env := by
  obtain ⟨slots, m₁, -, h⟩ := bind_eq_ok h
  obtain ⟨r, m₂, -, h⟩ := bind_eq_ok h
  obtain ⟨_, m₃, hw, h⟩ := bind_eq_ok h
  cases h
  rw [writeCell] at hw
  split at hw
  next hlt =>
    cases hw
    have hcell : (m₂.stack.setIfInBounds f.pos (.frame r))[f.pos]? = some (.frame r) :=
      Array.getElem?_setIfInBounds_self_of_lt hlt
    refine ⟨⟨r, rfl⟩, ?_⟩
    simp only [resolve, descriptor, descriptor?, hcell, orFault]
    rfl
  next => cases hw

theorem resolve_of_moved {e : Nat} {r : Ref .frame} (h : m.descriptor e = .ok (.moved r)) :
    m.resolve (.onStack e) = .ok (.onHeap r) := by
  simp [resolve, h, bind, Except.bind, pure, Except.pure]

/-- An environment leaves the stack with a handle that does not name a place there. If no frame has
to move, this is where the environment has gone already. -/
theorem liveFrames_eq_ok {n : Nat} {env base : Env} {frames : List LiveFrame}
    (h : m.liveFrames n env = .ok (frames, base)) :
    (∀ e, base ≠ .onStack e) ∧
      ((frames = [] ∧ m.resolve env = .ok base) ∨ ∃ f rest, frames = f :: rest ∧
        env = .onStack f.pos) := by
  induction n generalizing env frames with
  | zero =>
    cases env with
    | onStack e =>
      cases hd : m.descriptor e with
      | error s => simp [liveFrames, hd, bind, Except.bind] at h
      | ok d =>
        cases d with
        | moved r =>
          simp only [liveFrames, hd, bind, Except.bind, pure, Except.pure] at h
          cases h
          exact ⟨fun e h => (by cases h), .inl ⟨rfl, resolve_of_moved hd⟩⟩
        | live start count parent => simp [liveFrames, hd, bind, Except.bind] at h
    | _ =>
      cases h
      exact ⟨fun e h => (by cases h), .inl ⟨rfl, rfl⟩⟩
  | succ n ih =>
    cases env with
    | onStack e =>
      cases hd : m.descriptor e with
      | error s => simp [liveFrames, hd, bind, Except.bind] at h
      | ok d =>
        cases d with
        | moved r =>
          simp only [liveFrames, hd, bind, Except.bind, pure, Except.pure] at h
          cases h
          exact ⟨fun e h => (by cases h), .inl ⟨rfl, resolve_of_moved hd⟩⟩
        | live start count parent =>
          cases hrest : m.liveFrames n parent with
          | error s => simp [liveFrames, hd, hrest, bind, Except.bind] at h
          | ok rest =>
            simp only [liveFrames, hd, hrest, bind, Except.bind, pure, Except.pure] at h
            cases h
            exact ⟨(ih hrest).1, .inr ⟨_, _, rfl, rfl⟩⟩
    | _ =>
      cases h
      exact ⟨fun e h => (by cases h), .inl ⟨rfl, rfl⟩⟩

theorem promoteEnv_eq_ok {env env' : Env} (h : promoteEnv env m = .ok env' m') :
    (∀ e, env' ≠ .onStack e) ∧ m'.resolve env = .ok env' := by
  obtain ⟨⟨frames, base⟩, m₁, hq, hfold⟩ := bind_eq_ok h
  obtain ⟨hlive, rfl⟩ := query_eq_ok hq
  obtain ⟨hbase, ⟨rfl, hres⟩ | ⟨f, rest, rfl, rfl⟩⟩ := liveFrames_eq_ok hlive
  · cases hfold
    exact ⟨hbase, hres⟩
  · simp only [List.foldrM_cons] at hfold
    obtain ⟨parent, m₂, -, hframe⟩ := bind_eq_ok hfold
    obtain ⟨⟨r, rfl⟩, hres⟩ := promoteFrame_eq_ok hframe
    exact ⟨nofun, hres⟩

theorem returnPoints_eq_ok {n : Nat} {cont base : Cont} {points : List (Nat × ReturnPoint)}
    (h : m.returnPoints n cont = .ok (points, base)) : ∀ c, base ≠ .onStack c := by
  induction n generalizing cont points with
  | zero =>
    cases cont with
    | onStack c =>
      cases hp : m.returnPoint c <;> simp [returnPoints, hp, bind, Except.bind] at h
    | _ =>
      cases h
      exact fun c h => by cases h
  | succ n ih =>
    cases cont with
    | onStack c =>
      cases hp : m.returnPoint c with
      | error s => simp [returnPoints, hp, bind, Except.bind] at h
      | ok p =>
        cases hrest : m.returnPoints n p.prev with
        | error s => simp [returnPoints, hp, hrest, bind, Except.bind] at h
        | ok rest =>
          simp only [returnPoints, hp, hrest, bind, Except.bind, pure, Except.pure] at h
          cases h
          exact ih hrest
    | _ =>
      cases h
      exact fun c h => by cases h

theorem promoteCont_eq_ok {cont cont' : Cont} (h : promoteCont cont m = .ok cont' m') :
    ∀ c, cont' ≠ .onStack c := by
  obtain ⟨⟨points, base⟩, m₁, hq, hfold⟩ := bind_eq_ok h
  obtain ⟨hpoints, rfl⟩ := query_eq_ok hq
  cases points with
  | nil =>
    cases hfold
    exact returnPoints_eq_ok hpoints
  | cons point points =>
    simp only [List.foldrM_cons] at hfold
    obtain ⟨prev, m₂, -, hpoint⟩ := bind_eq_ok hfold
    obtain ⟨env, m₃, -, hpoint⟩ := bind_eq_ok hpoint
    obtain ⟨base, m₄, -, hpoint⟩ := bind_eq_ok hpoint
    obtain ⟨saved, m₅, -, hpoint⟩ := bind_eq_ok hpoint
    obtain ⟨r, m₆, -, hpoint⟩ := bind_eq_ok hpoint
    cases hpoint
    nofun

/-! ## The contract -/

def passOn : Except Fault Value → Script Outcome
  | .ok v => .done (.value v)
  | .error f => .fail f

theorem handsOnReply_passOn : PropagatesReply (some passOn) := by
  rintro _ ⟨⟩
  exact ⟨fun _ => rfl, fun _ => trivial⟩

theorem callLoop_eq_ok {n : Nat} {callee : Value} {args : List Value} {v : Value}
    (h : call n callee args m = .ok v m') (hrun : m'.runnable = true)
    (next : Option (Except Fault Value → Script Outcome)) :
    ∃ i w m₁ m₂, beginWaiting next m = .ok w m₁ ∧ callLoop i w.id callee args m₁ = .ok () m₂ ∧
      endWaiting w (.ok ()) m₂ = .ok v m' := by
  cases n with
  | zero => cases h
  | succ n =>
    rw [call_succ_eq n next] at h
    obtain ⟨w, m₁, hw, h⟩ := bind_eq_ok h
    obtain ⟨outcome, m₂, hloop, hend⟩ := bind_eq_ok h
    cases hx : callLoop n w.id callee args m₁ with
    | ok _ m₃ =>
      rw [attempt_ok hx] at hloop
      cases hloop
      exact ⟨n, w, m₁, m₂, hw, hx, hend⟩
    | error s m₃ =>
      cases s with
      | fault f =>
        rw [attempt_fault hx] at hloop
        cases hloop
        -- the outermost call has a result also when the machine has halted
        cases ho : w.outermost with
        | false =>
          rw [endWaiting_error_inner ho] at hend
          cases hend
        | true =>
          rw [endWaiting_error_outer ho] at hend
          split at hend
          next hhalted =>
            cases hend
            cases hhalted.2.symm.trans hrun
          next => cases hend
      | stuck =>
        rw [attempt, hx] at hloop
        cases hloop
      | unfinished =>
        rw [attempt, hx] at hloop
        cases hloop

theorem call_eq_ok {n : Nat} {callee : Value} {args : List Value} {v : Value}
    (h : call n callee args m = .ok v m') (hrun : m'.runnable = true) (k : Context) :
    ∃ w m₁ m₂, beginWaiting (some passOn) m = .ok w m₁ ∧
      Reaches ⟨m₁, .call w k, .enter callee args⟩ ⟨m₂, .call w k, .leave (.ok ())⟩ ∧
      endWaiting w (.ok ()) m₂ = .ok v m' := by
  obtain ⟨i, w, m₁, m₂, hw, hloop, hend⟩ := callLoop_eq_ok h hrun (some passOn)
  have hcomes := (adequate i).callLoop m₁ w k callee args
  rw [hloop] at hcomes
  exact ⟨w, m₁, m₂, hw, hcomes, hend⟩

/-- If a call gives a result and the machine has not halted, then the result is the accumulator with
which the callee has returned through the marker of this call. The environment and the continuation
are those that the host had, moved to the heap. No other call is left behind, nothing is pending,
and the stack is no higher than it was. -/
theorem Callable.call_honoured (h : Callable m k) {n : Nat} {callee : Value} {args : List Value}
    {v : Value} (hcall : call n callee args m = .ok v m') (hrun : m'.runnable = true) :
    (∃ w m₁ m₂ t k', promoteEnv m.env m.awake = .ok m'.env m₁ ∧
      promoteCont m.cont { m₁ with env := m'.env } = .ok m'.cont m₂ ∧
      m₁.resolve m.env = .ok m'.env ∧ (∀ e, m'.env ≠ .onStack e) ∧ (∀ c, m'.cont ≠ .onStack c) ∧
      beginWaiting (some passOn) m = .ok w (m₂.marked m'.cont m'.env) ∧
      Reaches ⟨m₂.marked m'.cont m'.env, .call w k, .enter callee args⟩ ⟨t, k', .ret⟩ ∧
      t.cont = (m₂.marked m'.cont m'.env).cont ∧ t.acc = v) ∧
    m'.ip = m.ip ∧ m'.argc = m.argc ∧ m'.hosts.active = m.hosts.active ∧ m'.hosts.escape = none ∧
      m'.hosts.returned = none ∧ m'.bp = m'.sp ∧ m'.sp ≤ m.sp := by
  obtain ⟨hcalls, hq⟩ := h.calls
  obtain ⟨w, m₃, m₄, hw, hreach, hend⟩ := call_eq_ok hcall hrun k
  have hbegin := Sound.begin handsOnReply_passOn nofun hcalls hq callee args
  rw [hw] at hbegin
  have h₀ : (⟨m₃, .call w k, .enter callee args⟩ : Configuration).Sound :=
    hbegin.resolve_right (not_aborted nofun nofun)
  have h₄ := h₀.reaches hreach (not_aborted nofun nofun)
  obtain ⟨t, k', r, o, ht, hcont, ho, hres, hacc, henv', hprev⟩ :=
    (h₀.cameBack h₀.pending.1.returned nofun hreach (not_aborted nofun nofun)).2 w k rfl rfl
  rcases beginWaiting_cases (some passOn) m with
    ⟨e, m', he, -, -⟩ | ⟨env, m₁, cont, m₂, henv, hprom, hm₂, hw'⟩
  · cases he.symm.trans hw
  · cases hw'.symm.trans hw
    -- there is only one marker with the number of this call
    have hmarker : (m₂.marked cont env).heap.continuation ⟨m₂.heap.continuations.size⟩ =
        .ok (.marker m₂.hosts.next cont env) := continuation_addContinuation.2 (.inr ⟨rfl, rfl⟩)
    have hnumbered : (m₂.marked cont env).Numbered 0 :=
      (h.numbered.proceeds hm₂.toProceeds).leaveMarker cont env
    have hid : m₂.hosts.next = m.hosts.next := by rw [hm₂.hosts]
    obtain rfl : r = ⟨m₂.heap.continuations.size⟩ :=
      (ht.numbered hnumbered).unique (Nat.zero_le _) ho hres (Nat.zero_le _) (ht.kept hmarker)
        (by rw [hid]; rfl)
    cases ho.symm.trans (ht.kept hmarker)
    have h₁ : SameRegisters m.awake m₁ := (maintains_promoteEnv _).ok henv
    have h₂ : SameRegisters { m₁ with env } m₂ := (maintains_promoteCont _).ok hprom
    have hsp : m₂.sp = m.sp := h₂.sp.trans h₁.sp
    rw [endWaiting_ok] at hend
    cases hend
    obtain rfl : m₄.env = env := henv'
    obtain rfl : m₄.cont = cont := hprev
    obtain ⟨hstack, hresolve⟩ := promoteEnv_eq_ok henv
    have hquiet := h₄.pending.1
    have hprom' : promoteCont m.cont { m₁ with env := m₄.env } = .ok m₄.cont m₂ :=
      (congrArg (promoteCont · _) (show m.cont = m₁.cont from h₁.cont.symm)).trans hprom
    refine ⟨⟨m.waitingFor (some passOn) m.hosts.next m₂.sp, m₁, m₂, t, k', ?_⟩,
      rfl, rfl, ?_, ?_, ?_, rfl, ?_⟩
    · exact ⟨henv, hprom', hresolve, hstack, promoteCont_eq_ok hprom, hw, ht, hcont, hacc.symm⟩
    · exact (h₄.calls.released.active).trans hcalls.active.symm
    · exact (released_escape m₄ _).trans hquiet.escape
    · exact (released_returned m₄ _).trans hquiet.returned
    · exact Nat.le_trans (Nat.min_le_left _ _) (Nat.le_of_eq hsp)

/-- Mapping over a list, from outside. For its only item there is another call. -/
theorem Machine.sample_call_honoured :
    ∃ m', call 30 (.procedure ⟨11⟩) [.procedure ⟨6⟩, .pair ⟨1⟩] (sample #[]) = .ok (.pair ⟨2⟩) m' ∧
      m'.runnable = true ∧ m'.hosts.active = [] ∧ m'.hosts.escape = none ∧ m'.bp = m'.sp ∧
      m'.sp ≤ 0 := by
  have hcall : call 30 (.procedure ⟨11⟩) [.procedure ⟨6⟩, .pair ⟨1⟩] (sample #[]) =
      .ok (.pair ⟨2⟩) _ := eq_ok_of_result? (by decide +kernel)
  have hrun :
      (final (call 30 (.procedure ⟨11⟩) [.procedure ⟨6⟩, .pair ⟨1⟩] (sample #[]))).runnable =
      true := by decide +kernel
  obtain ⟨-, -, -, hactive, hescape, -, hbp, hsp⟩ :=
    (Callable.resting (reached_sample #[])).call_honoured hcall hrun
  exact ⟨_, hcall, hrun, hactive, hescape, hbp, hsp⟩

end LispMachine
