import LispMachine.Proofs.Control.Escape

/-! # Markers

The continuation that a call has left as its marker can be returned through for as long as the call
waits, and no longer. The machine tells calls apart by their numbers, which begin anew with each
load. So this does not hold for markers that were left before the last load.
-/

namespace LispMachine

open Machine LispMachine.Configuration

variable {n n' : Nat} {m m' : Machine} {k : Context} {c c' : Configuration} {w : Waiting}

/-- The call of `w` inside of `k` is among those that wait in `k'`. -/
def Context.StillWaits (w : Waiting) (k k' : Context) : Prop :=
  ∃ above, k' = (Context.call w k).around above

namespace Context

variable {k' : Context} {w' : Waiting}

theorem not_stillWaits_outside : ¬ StillWaits w k .outside := by
  rintro ⟨above, h⟩
  exact around_ne_outside (fun h => by cases h) above h.symm

theorem not_stillWaits_run : ¬ StillWaits w k .run := by
  rintro ⟨above, h⟩
  cases (around_eq_run h.symm).2

theorem StillWaits.push (h : StillWaits w k k') : StillWaits w k (.call w' k') := by
  obtain ⟨above, rfl⟩ := h
  exact ⟨w' :: above, rfl⟩

theorem StillWaits.cases (h : StillWaits w k (.call w' k')) :
    (w = w' ∧ k = k') ∨ StillWaits w k k' := by
  obtain ⟨_ | ⟨_, above⟩, h⟩ := h <;> cases h
  · exact .inl ⟨rfl, rfl⟩
  · exact .inr ⟨above, rfl⟩

theorem StillWaits.mem_active (h : StillWaits w k k') : w.id ∈ k'.active := by
  obtain ⟨above, rfl⟩ := h
  exact mem_active_around rfl above

theorem exists_stillWaits {id : Nat} (h : id ∈ k'.active) :
    ∃ w k, w.id = id ∧ StillWaits w k k' := by
  induction k' with
  | call w' k' ih =>
    rcases List.mem_cons.1 h with rfl | h
    · exact ⟨w', k', rfl, [], rfl⟩
    · obtain ⟨w, k, hid, hw⟩ := ih h
      exact ⟨w, k, hid, hw.push⟩
  | _ => cases h

end Context

/-! ## What waits after one step -/

theorem size_le_of_kept
    (h : ∀ {r o}, m.heap.continuation r = .ok o → m'.heap.continuation r = .ok o) :
    m.heap.continuations.size ≤ m'.heap.continuations.size := by
  by_contra! hlt
  have hold : m.heap.continuation ⟨m'.heap.continuations.size⟩ = .ok _ :=
    Heap.continuation_eq_ok.2 (Array.getElem?_eq_getElem hlt)
  have hnew := Heap.continuation_eq_ok.1 (h hold)
  rw [Array.getElem?_eq_none (Nat.le_refl _)] at hnew
  cases hnew

def Configuration.Begins (c : Configuration) (w : Waiting) (k : Context) (r : Ref .continuation) :
    Prop :=
  c.context = .call w k ∧ (∃ callee args, c.activity = .enter callee args) ∧
    c.machine.cont = .onHeap r ∧ ∃ o, c.machine.heap.continuation r = .ok o ∧ o.resume = .host w.id

/-- On the way from `c` the call of `w` has been begun inside of `k`, and has left the marker
`r`. -/
def Configuration.Leaves (c : Configuration) (w : Waiting) (k : Context) (r : Ref .continuation) :
    Prop :=
  ∃ c', Reaches c c' ∧ c'.Begins w k r

/-- Where `k` waited before, the same waits now, or nothing, or the innermost call has ended, or
another one has been begun. There were `n` continuations then. -/
def Configuration.Succeeds (n : Nat) (k : Context) (c : Configuration) : Prop :=
  c.context = k ∨ c.context = .outside ∨ (∃ w, k = .call w c.context) ∨
    ∃ w r, n ≤ r.index ∧ c.Begins w k r

theorem settle_context {α : Type} (k : Context) (next : Except Fault α → Activity)
    (r : EStateM.Result Stop Machine α) :
    (settle k next r).context = k ∨ (settle k next r).context = .outside := by
  rcases r with ⟨a, m⟩ | ⟨f | _ | _, m⟩
  · exact .inl rfl
  · exact .inl rfl
  · exact .inr rfl
  · exact .inr rfl

theorem reply_context (k : Context) (next : Option (Except Fault Value → Script Outcome))
    (r : EStateM.Result Stop Machine Value) :
    (reply k next r).context = k ∨ (reply k next r).context = .outside := by
  cases next with
  | none =>
    right
    cases r <;> rfl
  | some next => exact settle_context ..

theorem succeeds_settle {α : Type} (k : Context) (next : Except Fault α → Activity)
    (r : EStateM.Result Stop Machine α) : (settle k next r).Succeeds n k :=
  (settle_context k next r).imp_right .inl

theorem succeeds_begin (m : Machine) (k : Context)
    (next : Option (Except Fault Value → Script Outcome)) (callee : Value) (args : List Value) :
    (begin k next callee args (beginWaiting next m)).Succeeds m.heap.continuations.size k := by
  rcases beginWaiting_cases next m with ⟨e, m', he, -, -⟩ | ⟨env, m₁, cont, m₂, -, -, hm₂, hw⟩
  · rw [he]
    exact (reply_context k next _).imp_right .inl
  · rw [hw]
    refine .inr (.inr (.inr ⟨_, _, size_le_of_kept hm₂.kept, rfl, ⟨callee, args, rfl⟩, rfl, _,
      continuation_addContinuation.2 (.inr ⟨rfl, rfl⟩), ?_⟩))
    rw [hm₂.hosts]
    rfl

theorem succeeds_instruct (m : Machine) (k : Context) : (instruct m k).Succeeds n k := by
  rw [instruct]
  split
  · exact succeeds_settle ..
  · exact .inl rfl
  · exact succeeds_settle ..

theorem succeeds_turned (m : Machine) (k : Context) : (turned m k).Succeeds n k := by
  cases k with
  | outside => exact .inl rfl
  | run =>
    rw [turned]
    split
    · exact succeeds_instruct ..
    · exact .inr (.inl rfl)
  | call w k =>
    rw [turned]
    rcases m.hosts.turn_cases m.runnable w.id with ⟨-, ht⟩ | ⟨-, -, ht⟩ | ⟨-, -, ht⟩ | ⟨-, -, ht⟩
      <;> rw [ht]
    · exact .inl rfl
    · exact .inl rfl
    · exact .inl rfl
    · exact succeeds_instruct ..

theorem succeeds_worked (m : Machine) (k : Context) (s : Script Outcome) :
    (worked m k s).Succeeds m.heap.continuations.size k := by
  rcases s with ⟨v | ⟨callee, args⟩⟩ | f | ⟨q, next⟩
  · exact .inl rfl
  · exact succeeds_settle ..
  · exact .inl rfl
  · by_cases hq : ∃ callee args, q = .call callee args
    · obtain ⟨callee, args, rfl⟩ := hq
      exact succeeds_begin m k (some next) callee args
    · rw [worked_ask fun callee args h => hq ⟨callee, args, h⟩]
      exact succeeds_settle ..

theorem succeeds_advance (c : Configuration) :
    c.advance.Succeeds c.machine.heap.continuations.size c.context := by
  obtain ⟨m, k, activity⟩ := c
  cases activity with
  | loop => exact succeeds_turned m k
  | enter callee args => exact succeeds_settle ..
  | apply =>
    change (applied m k).Succeeds _ k
    rw [applied]
    split
    case h_5 => exact .inl rfl
    all_goals exact succeeds_settle ..
  | script s => exact succeeds_worked m k s
  | ret => exact succeeds_settle ..
  | fault f =>
    change (failed m f k).Succeeds _ k
    cases k with
    | outside => exact .inl rfl
    | run =>
      rw [failed]
      split
      · exact .inl rfl
      · exact .inr (.inl rfl)
    | call w k => exact .inl rfl
  | leave outcome =>
    change (left m outcome k).Succeeds _ k
    cases k with
    | call w k =>
      rcases reply_context k w.next (endWaiting w outcome m) with h | h
      · exact .inr (.inr (.inl ⟨w, congrArg (Context.call w) h.symm⟩))
      · exact .inr (.inl h)
    | _ => exact .inr (.inl rfl)
  | ended o => exact .inl rfl

/-! ## Whose marker it is -/

/-- Every call that waits has left its marker on the way from `c₀`, where there had been `n`
continuations, and the marker is still there. -/
def Configuration.MarkersLeft (n : Nat) (c₀ c : Configuration) : Prop :=
  ∀ w k, Context.StillWaits w k c.context → ∃ r o, n ≤ r.index ∧ c₀.Leaves w k r ∧
    c.machine.heap.continuation r = .ok o ∧ o.resume = .host w.id

theorem Configuration.MarkersLeft.succeeds {c₀ : Configuration} (h : MarkersLeft n c₀ c)
    (hc' : Reaches c₀ c') (hkept : ∀ {r o}, c.machine.heap.continuation r = .ok o →
      c'.machine.heap.continuation r = .ok o) (hs : c'.Succeeds n c.context) :
    MarkersLeft n c₀ c' := by
  intro w k hw
  have hold (hw : Context.StillWaits w k c.context) : ∃ r o, n ≤ r.index ∧ c₀.Leaves w k r ∧
      c'.machine.heap.continuation r = .ok o ∧ o.resume = .host w.id := by
    obtain ⟨r, o, hr, hl, ho, hid⟩ := h w k hw
    exact ⟨r, o, hr, hl, hkept ho, hid⟩
  rcases hs with hk | hk | ⟨w', hk⟩ | ⟨w', r, hr, hbegins⟩
  · exact hold (hk ▸ hw)
  · rw [hk] at hw
    exact (Context.not_stillWaits_outside hw).elim
  · exact hold (hk ▸ hw.push)
  · rw [hbegins.1] at hw
    rcases hw.cases with ⟨rfl, rfl⟩ | hw
    · obtain ⟨o, ho, hid⟩ := hbegins.2.2.2
      exact ⟨r, o, hr, ⟨c', hc', hbegins⟩, ho, hid⟩
    · exact hold hw

theorem Configuration.Succeeds.mono (h : c.Succeeds n' k) (hn : n ≤ n') : c.Succeeds n k := by
  rcases h with h | h | h | ⟨w, r, hr, hbegins⟩
  · exact .inl h
  · exact .inr (.inl h)
  · exact .inr (.inr (.inl h))
  · exact .inr (.inr (.inr ⟨w, r, hn.trans hr, hbegins⟩))

theorem Task.succeeds_start (t : Task) (m : Machine) :
    (t.start m).Succeeds m.heap.continuations.size .outside ∨ (t.start m).context = .run := by
  cases t with
  | step => exact .inl (succeeds_instruct m .outside)
  | apply => exact .inl (.inl rfl)
  | run =>
    rw [start]
    split
    · exact .inr rfl
    · exact .inl (.inl rfl)
  | call callee args => exact .inl (succeeds_begin m .outside none callee args)

theorem Task.markersLeft_start (t : Task) (m : Machine) :
    MarkersLeft m.heap.continuations.size (t.start m) (t.start m) := by
  intro w k hw
  rcases t.succeeds_start m with (h | h | ⟨w', h⟩ | ⟨w', r, hr, hbegins⟩) | h
  · exact (Context.not_stillWaits_outside (h ▸ hw)).elim
  · exact (Context.not_stillWaits_outside (h ▸ hw)).elim
  · cases h
  · rw [hbegins.1] at hw
    rcases hw.cases with ⟨rfl, rfl⟩ | hw
    · obtain ⟨o, ho, hid⟩ := hbegins.2.2.2
      exact ⟨r, o, hr, ⟨_, .refl _, hbegins⟩, ho, hid⟩
    · exact (Context.not_stillWaits_outside hw).elim
  · exact (Context.not_stillWaits_run (h ▸ hw)).elim

theorem Task.kept_start (t : Task) (m : Machine) {r : Ref .continuation} {o : Continuation}
    (h : m.heap.continuation r = .ok o) : (t.start m).machine.heap.continuation r = .ok o := by
  cases t with
  | step => exact (goesOn_instruct m .outside).kept h
  | apply => exact h
  | run =>
    rw [start]
    split <;> exact h
  | call callee args =>
    rw [start]
    rcases beginWaiting_cases none m with ⟨e, m', he, hm', -⟩ | ⟨env, m₁, cont, m₂, -, -, hm₂, hw⟩
    · rw [he]
      exact hm'.kept h
    · rw [hw]
      exact continuation_addContinuation.2 (.inl (hm₂.kept h))

theorem Task.size_le {t : Task} (h : Reaches (t.start m) c) :
    m.heap.continuations.size ≤ c.machine.heap.continuations.size :=
  size_le_of_kept fun hr => h.kept (t.kept_start m hr)

theorem Task.markersLeft {t : Task} (h : Reaches (t.start m) c) :
    MarkersLeft m.heap.continuations.size (t.start m) c := by
  obtain ⟨n, rfl⟩ := h
  induction n with
  | zero => exact t.markersLeft_start m
  | succ n ih =>
    rw [Function.iterate_succ_apply']
    have hreach : Reaches (t.start m) (advance^[n] (t.start m)) := ⟨n, rfl⟩
    have hstep : Reaches (advance^[n] (t.start m)) (advance^[n] (t.start m)).advance := .advance _
    exact ih.succeeds (hreach.trans hstep) hstep.kept
      ((succeeds_advance _).mono (Task.size_le hreach))

theorem Used.old_le {old : Nat} (h : Used old m) : old ≤ m.heap.continuations.size := by
  induction h with
  | new capacity => exact Nat.le_refl 0
  | load p _ hload ih =>
    cases hload
    exact Nat.le_refl _
  | operate _ hm ih => exact ih.trans (size_le_of_kept hm.kept)
  | @done _ _ _ t n v _ ht ih =>
    exact ih.trans (Task.size_le ((Task.exec_iff_reaches fun _ h => by cases h).1 ⟨n, ht⟩))
  | @failed _ _ _ t n f _ ht ih =>
    exact ih.trans (Task.size_le ((Task.exec_iff_reaches fun _ h => by cases h).1 ⟨n, ht⟩))

theorem Configuration.Reaches.total {c₀ : Configuration} (h : Reaches c₀ c) (h' : Reaches c₀ c') :
    Reaches c c' ∨ Reaches c' c := by
  obtain ⟨i, rfl⟩ := h
  obtain ⟨j, rfl⟩ := h'
  rcases Nat.le_total i j with hij | hji
  · obtain ⟨d, rfl⟩ := Nat.exists_eq_add_of_le' hij
    exact .inl ⟨d, (Function.iterate_add_apply Configuration.advance d i c₀).symm⟩
  · obtain ⟨d, rfl⟩ := Nat.exists_eq_add_of_le' hji
    exact .inr ⟨d, (Function.iterate_add_apply Configuration.advance d j c₀).symm⟩

theorem Configuration.Reaches.continuation_eq {c₀ : Configuration} (h : Reaches c₀ c)
    (h' : Reaches c₀ c') {r : Ref .continuation} {o o' : Continuation}
    (ho : c.machine.heap.continuation r = .ok o) (ho' : c'.machine.heap.continuation r = .ok o') :
    o = o' := by
  rcases h.total h' with hc | hc
  · exact Except.ok.inj ((hc.kept ho).symm.trans ho')
  · exact Except.ok.inj (ho.symm.trans (hc.kept ho'))

/-- However a machine has been used before, with nothing in progress no marker can be returned
through. While a task is at work, a marker made since the last load can be returned through for as
long as the very call that left it waits. At any other time that is a fault, be the marker reached
at once or by way of other return points. -/
theorem Used.returns_to_waiting_call {old : Nat} {m₀ : Machine} (h₀ : Used old m₀) :
    (∀ r o id, m₀.cont = .onHeap r → m₀.heap.continuation r = .ok o → o.resume = .host id →
      ret m₀ = .error (.fault .invalidContinuation) m₀) ∧
    ∀ (t : Task) m k r o id, Reaches (t.start m₀) ⟨m, k, .ret⟩ → m.cont = .onHeap r →
      m.heap.continuation r = .ok o → o.resume = .host id → old ≤ r.index →
      ((∃ w k', (t.start m₀).Leaves w k' r ∧ Context.StillWaits w k' k) →
        ret m = .ok () (m.handedBack o id)) ∧
      ((¬ ∃ w k', (t.start m₀).Leaves w k' r ∧ Context.StillWaits w k' k) →
        ret m = .error (.fault .invalidContinuation) m) := by
  constructor
  · intro r o id hcont ho hid
    have hactive : m₀.hosts.active = [] := h₀.resting.calls.active
    rw [ret_of_onHeap hcont, resume_host ho hid, if_neg]
    rw [hactive]
    exact List.not_mem_nil
  · intro t m k r o id hreach hcont ho hid hr
    have hsound := h₀.resting.sound hreach (not_aborted (fun h => by cases h) fun h => by cases h)
    have hactive : m.hosts.active = k.active := hsound.calls.active
    rw [ret_of_onHeap hcont, resume_host ho hid, hactive]
    constructor
    · rintro ⟨w, k', ⟨c', hc', hbegins⟩, hw⟩
      obtain ⟨o', ho', hid'⟩ := hbegins.2.2.2
      cases hreach.continuation_eq hc' ho ho'
      cases hid.symm.trans hid'
      exact if_pos hw.mem_active
    · intro hnone
      rw [if_neg]
      intro hmem
      -- the call with this number has left a marker, and since the last load there is no other one
      -- with it
      obtain ⟨w, k', rfl, hw⟩ := Context.exists_stillWaits hmem
      obtain ⟨r', o', hr', hleaves, ho', hid'⟩ := Task.markersLeft hreach w k' hw
      have hnumbered := hreach.numbered (t.numbered_start h₀.numbered)
      cases hnumbered.unique hr ho hid (h₀.old_le.trans hr') ho' hid'
      exact hnone ⟨w, k', hleaves, hw⟩

def Task.capturing : Task := .call (.procedure ⟨0⟩) [.procedure ⟨5⟩]

def Configuration.returns : Configuration → Bool
  | ⟨_, _, .ret⟩ => true
  | _ => false

theorem Configuration.eq_of_returns (h : c.returns = true) : c = ⟨c.machine, c.context, .ret⟩ := by
  unfold returns at h
  split at h
  · rfl
  · cases h

theorem Machine.sample_returns_to_waiting_call :
    ∃ w k m k', (Task.capturing.start (sample #[])).Leaves w k ⟨0⟩ ∧ Context.StillWaits w k k' ∧
      Reaches (Task.capturing.start (sample #[])) ⟨m, k', .ret⟩ ∧ m.cont = .onHeap ⟨0⟩ := by
  let c := advance^[8] (Task.capturing.start (sample #[]))
  have hreach : Reaches (Task.capturing.start (sample #[])) ⟨c.machine, c.context, .ret⟩ :=
    ⟨8, eq_of_returns (by decide +kernel)⟩
  have hcont : c.machine.cont = .onHeap ⟨0⟩ := by decide +kernel
  obtain ⟨o, ho, hid⟩ : ∃ o, c.machine.heap.continuation ⟨0⟩ = .ok o ∧ o.resume = .host 0 :=
    ⟨.marker 0 .empty .empty, by decide +kernel, rfl⟩
  have hret : result? (ret c.machine) = some () := by decide +kernel
  have hmarker := (used_sample #[]).returns_to_waiting_call.2 _ _ _ _ _ _ hreach hcont ho hid
    (Nat.zero_le _)
  by_contra hnone
  have hno : ¬ ∃ w k, (Task.capturing.start (sample #[])).Leaves w k ⟨0⟩ ∧
      Context.StillWaits w k c.context :=
    fun ⟨w, k, hleaves, hw⟩ => hnone ⟨w, k, c.machine, c.context, hleaves, hw, hreach, hcont⟩
  rw [hmarker.2 hno] at hret
  cases hret

/-- The call is over, and another program has been loaded. Its marker is returned through all the
same, by an unrelated call that has got the same number. Before the load that was a fault. -/
theorem Machine.sample_returns_after_load :
    ∃ m₁ m' m₂ m₃, Task.capturing.exec 20 (sample #[]) = .ok (.pair ⟨2⟩) m₁ ∧
      m₁.heap.pairs.map Pair.car = #[.fixnum 7, .pair ⟨0⟩, .continuation ⟨0⟩] ∧
      call 20 (.continuation ⟨0⟩) [.fixnum 5] m₁ = .error (.fault .invalidContinuation) m' ∧
      load { code := #[] } m₁ = .ok () m₂ ∧
      call 20 (.continuation ⟨0⟩) [.fixnum 5] m₂ = .ok (.fixnum 5) m₃ := by
  let m₁ := final (Task.capturing.exec 20 (sample #[]))
  let m₂ := final (load { code := #[] } m₁)
  have hfirst : Task.capturing.exec 20 (sample #[]) = .ok (.pair ⟨2⟩) m₁ :=
    eq_ok_of_result? (by decide +kernel)
  have hfault :
      call 20 (.continuation ⟨0⟩) [.fixnum 5] m₁ = .error (.fault .invalidContinuation) _ :=
    eq_error_of_stop? (by decide +kernel)
  have hsecond : call 20 (.continuation ⟨0⟩) [.fixnum 5] m₂ = .ok (.fixnum 5) _ :=
    eq_ok_of_result? (by decide +kernel)
  exact ⟨m₁, _, m₂, _, hfirst, by decide +kernel, hfault, rfl, hsecond⟩

end LispMachine
