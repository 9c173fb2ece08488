import LispMachine.Proofs.Layout.Steps
import LispMachine.Proofs.Simulation.Runs

/-! # Calls sustain the layout

The functions that apply procedures and run loops for the host sustain the layout, by induction on
the number of steps for all of them at once. They are followed while a run is going on, so no host
call is the outermost one.
-/

namespace LispMachine

open Machine

variable {before : HostCalls} {left : Bool} {ρ : Naming} {m : Machine} {r : HeapMachine}

/-! ## Faults -/

theorem NotAboutLayout.ne_unwound {f : Fault} (h : NotAboutLayout f m) : f ≠ .unwound := by
  rintro rfl
  rcases h with h | (h | h) | ⟨h, -⟩ <;> cases h

theorem NotAboutLayout.within {f : Fault} {calls : HostCalls} (h : NotAboutLayout f m)
    (hc : calls.Within m.hosts) (runnable : Bool) :
    NotAboutLayout f { m with runnable, hosts := calls } := by
  rcases h with h | h | ⟨rfl, k, c, id, hk, hc', hid, hact⟩
  · exact .inl h
  · exact .inr (.inl h)
  · exact .inr (.inr ⟨rfl, k, c, id, hk, hc', hid, fun h => hact (hc.active id h)⟩)

theorem Settled.within {calls : HostCalls} (h : Settled before left ρ m)
    (hc : calls.Within m.hosts) : Settled before left ρ { m with hosts := calls } := by
  obtain ⟨r, hl⟩ := h
  rw [hl.hosts] at hc
  exact ⟨_, hl.within hc⟩

theorem Settled.since {now : HostCalls} (h : Settled now left ρ m) (hh : now.Since before False) :
    Settled before left ρ m := by
  obtain ⟨r, hl⟩ := h
  exact ⟨r, hl.since hh⟩

theorem Sustains.passUnwound {visits : List Machine} {x : Exec Unit}
    (h : Sustains before left ρ (fun left σ _ m' => Settled before left σ m') visits (x m)) :
    Sustains before left ρ (fun left σ _ m' => Settled before left σ m') visits
      (Machine.passUnwound x m) := by
  rw [← List.append_nil visits, ← after_nil (x := Machine.attempt x) (m := m)]
  refine h.attempt.bind ?_
  rintro σ outcome m' - - hout
  cases hout with
  | ok hs => exact (Keeps.ok le_rfl hs).sustains
  | unwound hs => exact (Keeps.ok le_rfl hs).sustains
  | @fault f _ hf hm =>
    have hne := hf.ne_unwound
    have hk := (Keeps.fault hf hm : Keeps before (leftAfterAll left visits) σ
      (fun left σ (_ : Unit) m' => Settled before left σ m') _).sustains
    cases f <;> first | exact hk | exact absurd rfl hne

/-! ## Scripts -/

theorem InStep.sustains_script {α : Type} {R : Naming → α → α → Prop}
    {call : Value → List Value → Exec Value} {visits : Value → List Value → Machine → List Machine}
    (hcall : ∀ {left ρ m r v u vs us}, InStep before false ρ m r → Agree ρ v u →
      List.Forall₂ (Agree ρ) vs us →
      Sustains before left ρ (fun _ σ a m' => ∃ b r', Agree σ a b ∧ InStep before false σ m' r')
        (visits v vs m) (call v vs m))
    {s s' : Script α} (hs : Script.Alike R ρ s s') (hi : InStep before false ρ m r) :
    Sustains before left ρ (fun _ σ a m' => ∃ b r', R σ a b ∧ InStep before false σ m' r')
      (scriptVisits call visits s m) (Machine.runScript call s m) := by
  induction hs generalizing m r left with
  | done h => exact (Keeps.ok le_rfl ⟨_, r, h, hi⟩).sustains
  | fail h => exact (Keeps.fault (.inl h.isOrdinary) hi.landed.represented).sustains
  | @ask ρ q q' next next' hq _ ih =>
    have hvisits : requestVisits visits q m = [] := by cases hq <;> rfl
    rw [Machine.runScript, scriptVisits, hvisits, List.nil_append]
    refine (hi.answer hq call fun _ _ => throw .stuck).sustains_bind ?_
    rintro σ a b m' r' hρ - ⟨hab, hi'⟩
    exact ih σ hρ a b hab hi'
  | call hv hvs _ hn hn' ih =>
    rw [Machine.runScript, scriptVisits]
    refine (hcall hi hv hvs).attempt.bind ?_
    rintro σ outcome m' hρ - hout
    cases hout with
    | ok h =>
      obtain ⟨b, r', hab, hi'⟩ := h
      exact ih σ hρ _ b hab hi'
    | fault hf hm =>
      rw [hn]
      exact (Keeps.fault hf hm).sustains
    | unwound hs =>
      rw [hn]
      exact (Keeps.unwound le_rfl hs).sustains

/-! ## One level of calls -/

/-- All that `n` steps can do sustains the layout while a run is going on. -/
structure CallsSustain (n : Nat) : Prop where
  apply : ∀ {before left left' ρ m r}, before.running = true → InStep before left ρ m r →
    (m.appliesTo m.argc = true → r.argc ≤ r.operands.size) →
    (left' = false → m.leftAfterApply left = false) →
    Sustains before left' ρ (fun left σ _ m' => Settled before left σ m') (applyVisits n m)
      (Machine.apply n m)
  call : ∀ {before left ρ m r v u vs us}, before.running = true → InStep before false ρ m r →
    Agree ρ v u → List.Forall₂ (Agree ρ) vs us →
    Sustains before left ρ (fun _ σ a m' => ∃ b r', Agree σ a b ∧ InStep before false σ m' r')
      (callVisits n v vs m) (Machine.call n v vs m)
  callLoop : ∀ {before left ρ m r v u vs us} (id), before.running = true →
    before.returned ≠ some id → InStep before false ρ m r → Agree ρ v u →
    List.Forall₂ (Agree ρ) vs us →
    Sustains before left ρ (fun _ σ _ m' => ∃ r', Returned before σ m' r')
      (callLoopVisits n id v vs m) (Machine.callLoop n id v vs m)
  awaitReturn : ∀ {before left ρ m} (id), before.running = true → before.returned ≠ some id →
    Settled before left ρ m →
    Sustains before left ρ (fun _ σ _ m' => ∃ r', Returned before σ m' r')
      (awaitReturnVisits n id m) (Machine.awaitReturn n id m)

theorem Machine.leftAfterApply_false : m.leftAfterApply false = false := by
  unfold leftAfterApply
  split <;> simp

namespace CallsSustain

variable {n : Nat}

theorem apply_succ (h : CallsSustain n) {left' : Bool} (hrunning : before.running = true)
    (hi : InStep before left ρ m r) (hn : m.appliesTo m.argc = true → r.argc ≤ r.operands.size)
    (hleft : left' = false → m.leftAfterApply left = false) :
    Sustains before left' ρ (fun left σ _ m' => Settled before left σ m') (applyVisits (n + 1) m)
      (Machine.apply (n + 1) m) := by
  have hacc := hi.acc
  have hargc := hi.argc
  rw [Machine.apply, applyVisits]
  simp only [get_bind_apply]
  unfold appliesTo at hn
  unfold leftAfterApply at hleft
  generalize m.acc = v, r.acc = u at hacc hn hleft
  cases hacc with
  | continuation hk =>
    refine ((hi.enterContinuation hk (.inr fun h1 => hn (beq_iff_eq.2 (hargc.trans h1)))).keeps
      ?_).sustains
    rintro σ - - m' r' - hl
    exact ⟨r', hl.weaken hleft⟩
  | same hne =>
    cases v with
    | closure c =>
      refine ((hi.enterClosure c).keeps ?_).sustains
      rintro σ - - m' r' - hi'
      exact ⟨r', (hi'.weaken hleft).landed⟩
    | pair p =>
      refine ((hi.enterList (.same (by simp))
        (.inr fun ha => hn (decide_eq_true (hargc ▸ ha)))).keeps ?_).sustains
      rintro σ - - m' r' - hl
      exact ⟨r', hl.weaken fun _ => rfl⟩
    | procedure p =>
      have hquery : Follows True False before ρ _ (query (·.heap.procedure p) m)
          (Machine.query (·.heap.procedure p) r) := .query hi (hi.procedure p)
      refine hquery.sustains_bind ?_
      rintro _ p _ _ _ - - ⟨rfl, rfl, rfl, hp, rfl, hu⟩
      simp only [hp] at hn
      have hfits := fun ha => hn (decide_eq_true (hargc ▸ ha))
      refine (hi.enterFrame p.arity (.inr hfits)).sustains_bind ?_
      rintro σ - - m₁ r₁ - - hi₁
      refine (hi₁.sustains_script (h.call hrunning) (hu σ)).bind ?_
      rintro τ a m₂ - - ⟨b, r₂, hab, hi₂⟩
      cases hab with
      | value hv =>
        refine (((hi₂.withAcc hv).ret).keeps ?_).sustains
        rintro υ - - m₃ r₃ - hl
        exact ⟨r₃, hl.weaken fun _ => by simp⟩
      | tailCall hv hvs =>
        refine (hi₂.passArguments (.inr rfl) hv hvs).sustains_bind ?_
        rintro υ - - m₃ r₃ - - ⟨hi₃, hargc₃⟩
        exact h.apply hrunning hi₃ (fun _ => hargc₃) fun _ => leftAfterApply_false
    | continuation k => exact absurd rfl (hne k)
    | _ => exact (Keeps.fault (.inl rfl) hi.landed.represented).sustains

theorem call_succ (h : CallsSustain n) {v u : Value} {vs us : List Value}
    (hrunning : before.running = true) (hi : InStep before false ρ m r) (hv : Agree ρ v u)
    (hvs : List.Forall₂ (Agree ρ) vs us) :
    Sustains before left ρ (fun _ σ a m' => ∃ b r', Agree σ a b ∧ InStep before false σ m' r')
      (callVisits (n + 1) v vs m) (Machine.call (n + 1) v vs m) := by
  obtain ⟨segs₀, lo₀, h₀, hh, hl⟩ := hi
  have hidle : m.hosts.isIdle = false := by
    rw [HostCalls.isIdle, h₀.hosts, hh.running, hrunning]
    simp
  rw [Machine.call, callVisits]
  simp only [get_bind_apply, registers_eq, hidle, Bool.or_false]
  refine (InStep.beginCall ⟨segs₀, lo₀, h₀, hh, hl⟩).sustains_bind ?_
  rintro σ _ _ m₁ r₁ hρ - ⟨rfl, rfl, hhosts, hleaving, lo, h₁⟩
  have hid : r.hosts.returned ≠ some r.hosts.next := fun hid =>
    Nat.lt_irrefl _ (h₀.sound.returned _ hid)
  have hi₁ : InStep r.hosts false σ m₁ r₁ := by
    refine ⟨[], lo, h₁, ?_, fun _ => hleaving.trans (hl rfl)⟩
    rw [hhosts]
    exact ⟨rfl, .inr fun _ h => h⟩
  have hloop : Sustains r.hosts left σ (fun _ σ _ m' => ∃ r', Returned r.hosts σ m' r') _ _ :=
    h.callLoop _ (hh.running.trans hrunning) hid hi₁ (hv.mono hρ) (forall₂_mono hvs hρ)
  simp only [get_bind_apply]
  rw [← List.append_nil (callLoopVisits n r.hosts.next v vs m₁), ← after_nil]
  refine hloop.attempt.bind ?_
  rintro τ outcome m₂ - - hout
  have hleave := HostCalls.within_leave m₂.hosts r.hosts.next
  cases hout with
  | ok hret =>
    obtain ⟨r₂, lo₂, h₂, hh₂⟩ := hret
    refine ((h₂.endCall_ok (hh₂.trans hh) false _ m.ip m.argc m₁.sp 0).keeps ?_).sustains
    rintro υ a b m₃ r₃ - ⟨hab, hi₃⟩
    exact ⟨b, r₃, hab, hi₃⟩
  | fault hf hm =>
    exact (Keeps.fault (hf.within hleave m₂.runnable) (hm.withHosts hleave m₂.runnable)).sustains
  | unwound hs => exact (Keeps.unwound le_rfl ((hs.since hh).within hleave)).sustains

theorem callLoop_succ (h : CallsSustain n) {v u : Value} {vs us : List Value} (id : Nat)
    (hrunning : before.running = true) (hid : before.returned ≠ some id)
    (hi : InStep before false ρ m r) (hv : Agree ρ v u) (hvs : List.Forall₂ (Agree ρ) vs us) :
    Sustains before left ρ (fun _ σ _ m' => ∃ r', Returned before σ m' r')
      (callLoopVisits (n + 1) id v vs m) (Machine.callLoop (n + 1) id v vs m) := by
  rw [Machine.callLoop, callLoopVisits]
  refine (hi.passArguments (.inr rfl) hv hvs).sustains_bind ?_
  rintro σ - - m₁ r₁ - - ⟨hi₁, hargc⟩
  have happly : Sustains before left σ (fun left σ _ m' => Settled before left σ m') _ _ :=
    h.apply hrunning hi₁ (fun _ => hargc) fun _ => leftAfterApply_false
  refine happly.passUnwound.bind ?_
  rintro τ - m₂ - - hs
  exact h.awaitReturn id hrunning hid hs

theorem step (h : CallsSustain n) (hrunning : before.running = true)
    (hi : InStep before left ρ m r) :
    Sustains before left ρ (fun left σ _ m' => Settled before left σ m')
      (stepVisits (applyVisits n) m) (Machine.step n m) :=
  hi.sustains_step fun hi hn => h.apply hrunning hi hn id

theorem awaitReturn_succ (h : CallsSustain n) (id : Nat) (hrunning : before.running = true)
    (hid : before.returned ≠ some id) (hs : Settled before left ρ m) :
    Sustains before left ρ (fun _ σ _ m' => ∃ r', Returned before σ m' r')
      (awaitReturnVisits (n + 1) id m) (Machine.awaitReturn (n + 1) id m) := by
  have hw := HostCalls.within_turn m.hosts m.runnable id
  have hs' := hs.within hw
  obtain ⟨r, segs, lo, h', hh, hl⟩ := hs
  have hw' : (m.hosts.turn m.runnable id).2.Within r.hosts := h'.hosts ▸ hw
  have h'' := h'.withHosts (hw'.sound h'.sound)
  rw [Machine.awaitReturn, awaitReturnVisits]
  simp only [modifyGet_bind_apply]
  have hdone : (m.hosts.turn m.runnable id).1 = .done → _ := HostCalls.returned_of_done
  have hstep : (m.hosts.turn m.runnable id).1 = .step → _ := HostCalls.returned_of_step
  generalize m.hosts.turn m.runnable id = t at hdone hstep hs' hw' h'' ⊢
  obtain ⟨turn, hosts⟩ := t
  cases turn with
  | done =>
    obtain ⟨hret, hnone⟩ := hdone rfl
    rw [h'.hosts] at hret
    have hsegs : segs = [] := hh.returned.resolve_right fun hr => hid (hr id hret)
    subst hsegs
    refine (Keeps.ok le_rfl ⟨_, lo, h'', hw'.running.trans hh.running, .inr ?_⟩).sustains
    intro i hi
    rw [hnone] at hi
    cases hi
  | unwind => exact (Keeps.unwound le_rfl hs').sustains
  | step =>
    have hi : InStep before left ρ { m with hosts } { r with hosts } := by
      refine ⟨segs, lo, h'', ⟨hw'.running.trans hh.running, .inr ?_⟩, hl⟩
      intro i hi
      rw [hstep rfl] at hi
      cases hi
    refine (h.step hrunning hi).passUnwound.bind ?_
    rintro σ - m₁ - - hs₁
    exact h.awaitReturn id hrunning hid hs₁

end CallsSustain

theorem callsSustain (n : Nat) : CallsSustain n := by
  induction n with
  | zero =>
    exact
      { apply := fun _ _ _ _ => Keeps.unfinished.sustains
        call := fun _ _ _ _ => Keeps.unfinished.sustains
        callLoop := fun _ _ _ _ _ _ => Keeps.unfinished.sustains
        awaitReturn := fun _ _ _ _ => Keeps.unfinished.sustains }
  | succ n ih =>
    exact
      { apply := ih.apply_succ
        call := ih.call_succ
        callLoop := ih.callLoop_succ
        awaitReturn := ih.awaitReturn_succ }

end LispMachine
