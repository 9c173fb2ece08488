import LispMachine.Proofs.Simulation.Calls

/-! # Calls and runs follow each other

Whatever the machine without a stack does in a number of steps, the machine does as well, unless it
overflows or the other one gets stuck. The induction is on the number of steps, for all the
functions that call each other at once.
-/

namespace LispMachine

open Machine

variable {before : HostCalls} {ρ : Naming} {m : Machine} {r : HeapMachine}

/-! ## Host calls -/

section Turns

variable {hosts : HostCalls} {runnable : Bool} {id : Nat}

theorem HostCalls.returned_of_done (h : (hosts.turn runnable id).1 = .done) :
    hosts.returned = some id ∧ (hosts.turn runnable id).2.returned = none := by
  unfold turn at h ⊢
  grind

theorem HostCalls.returned_of_step (h : (hosts.turn runnable id).1 = .step) :
    (hosts.turn runnable id).2.returned = none := by
  unfold turn at h ⊢
  grind

end Turns

theorem Follows.passUnwound {lax : Prop} {x : Exec Unit} {y : HeapExec Unit}
    (h : Follows True lax before ρ (fun σ _ _ m' r' => Landed before true σ m' r') (x m) (y r)) :
    Follows True lax before ρ (fun σ _ _ m' r' => Landed before true σ m' r')
      (Machine.passUnwound x m) (Machine.passUnwound y r) := by
  refine h.attempt_bind (fun _ => ?_) ?_ ?_ ?_
  · split
    · exact preserves_pure _
    · exact preserves_pure _
    · exact preserves_raise _
  · rintro σ - - m' r' - hl
    exact .ok le_rfl hl
  · rintro σ f g m' r' - hraised
    cases hraised with
    | ordinary hf hi =>
      cases hf with
      | slotIndex => exact .raise hi (.slotIndex _ _)
      | same f hf => cases f <;> first | exact .raise hi (.same _) | cases hf
    | orphaned hm hi => exact .fault le_rfl (.orphaned hm hi)
    | unwound _ hl => exact .ok le_rfl hl
  · rintro f m' (rfl | rfl) h' <;> exact ⟨m', rfl, h', rfl⟩

/-! ## Scripts -/

theorem InStep.runScript {α : Type} {R : Naming → α → α → Prop}
    {call : Value → List Value → Exec Value} {call' : Value → List Value → HeapExec Value}
    (hcall : ∀ {ρ m r v u vs us}, InStep before true ρ m r → Agree ρ v u →
      List.Forall₂ (Agree ρ) vs us →
      Follows True True before ρ (fun σ a b m' r' => Agree σ a b ∧ InStep before true σ m' r')
        (call v vs m) (call' u us r))
    (hgrows : ∀ v vs, HeapMachine.Grows (call' v vs))
    {s s' : Script α} (hs : Script.Alike R ρ s s') (hi : InStep before true ρ m r) :
    Follows True True before ρ (fun σ a b m' r' => R σ a b ∧ InStep before true σ m' r')
      (Machine.runScript call s m) (Machine.runScript call' s' r) := by
  induction hs generalizing m r with
  | done h => exact .ok le_rfl ⟨h, hi⟩
  | fail h => exact .raise hi h
  | ask hq _ ih =>
    rw [Machine.runScript, Machine.runScript]
    refine (hi.answer hq call call').bind ?_
    rintro σ a b m' r' hρ ⟨hab, hi'⟩
    exact ih σ hρ a b hab hi'
  | call hv hvs _ hn hn' ih =>
    rw [Machine.runScript, Machine.runScript]
    refine Follows.attempt_bind (hcall hi hv hvs)
      (fun _ => preserves_runScript hgrows _) ?_ ?_ ?_
    · rintro σ a b m' r' hρ ⟨hab, hi'⟩
      exact ih σ hρ a b hab hi'
    · rintro σ f g m' r' - h
      rw [hn, hn']
      exact .fault le_rfl h
    · rintro f m' - h
      rw [hn]
      exact ⟨m', rfl, h, rfl⟩

/-! ## One level of calls -/

def Returned (before : HostCalls) (ρ : Naming) (m : Machine) (r : HeapMachine) : Prop :=
  ∃ lo, Represents ρ [] lo m r ∧ r.hosts.Since before False

structure CallsFollow (n : Nat) : Prop where
  apply : ∀ {before ρ m r}, InStep before true ρ m r →
    Follows True True before ρ (fun σ _ _ m' r' => Landed before true σ m' r') (Machine.apply n m)
      (Machine.apply n r)
  call : ∀ {before ρ m r v u vs us}, InStep before true ρ m r → Agree ρ v u →
    List.Forall₂ (Agree ρ) vs us →
    Follows True True before ρ (fun σ a b m' r' => Agree σ a b ∧ InStep before true σ m' r')
      (Machine.call n v vs m) (Machine.call n u us r)
  callLoop : ∀ {before ρ m r v u vs us} (id), before.returned ≠ some id → InStep before true ρ m r →
    Agree ρ v u → List.Forall₂ (Agree ρ) vs us →
    Follows True True before ρ (fun σ _ _ m' r' => Returned before σ m' r')
      (Machine.callLoop n id v vs m) (Machine.callLoop n id u us r)
  awaitReturn : ∀ {before ρ m r} (id), before.returned ≠ some id → Landed before true ρ m r →
    Follows True True before ρ (fun σ _ _ m' r' => Returned before σ m' r')
      (Machine.awaitReturn n id m) (Machine.awaitReturn n id r)

theorem InStep.stepFollows {n : Nat} (h : CallsFollow n) (hi : InStep before true ρ m r) :
    Follows True True before ρ (fun σ _ _ m' r' => Landed before true σ m' r')
      (Machine.stepWith (Machine.apply n) m) (Machine.stepWith (Machine.apply n) r) := by
  refine hi.stepWith fun op _ => ?_
  by_cases happly : op = .apply
  · subst happly
    refine hi.fetched.fetchNat.bind ?_
    rintro σ argc _ m' r' - ⟨rfl, hi', -⟩
    exact h.apply (hi'.withArgc argc)
  by_cases hreuse : op = .reuseFrame
  · subst hreuse
    refine hi.fetched.fetchNat.bind ?_
    rintro σ n _ m' r' - ⟨rfl, hi', -⟩
    exact (hi'.reuseFrame n trivial).imp fun _ _ _ _ _ _ h => h.landed
  refine (hi.fetched.execute happly hreuse (.inl trivial) (.inl trivial)).imp ?_
  exact fun _ _ _ _ _ _ hl => hl.loosen

namespace CallsFollow

variable {n : Nat}

theorem apply_succ (h : CallsFollow n) (hi : InStep before true ρ m r) :
    Follows True True before ρ (fun σ _ _ m' r' => Landed before true σ m' r')
      (Machine.apply (n + 1) m) (Machine.apply (n + 1) r) := by
  have hacc := hi.acc
  rw [Machine.apply, Machine.apply]
  simp only [get_bind_apply]
  generalize m.acc = v, r.acc = u at hacc
  cases hacc with
  | continuation hk =>
    exact (hi.enterContinuation hk (.inl trivial)).imp fun _ _ _ _ _ _ h => h.loosen
  | same hne =>
    cases v with
    | closure c => exact (hi.enterClosure c).imp fun _ _ _ _ _ _ h => h.landed
    | pair p =>
      exact (hi.enterList (.same (by simp)) (.inl trivial)).imp fun _ _ _ _ _ _ h => h.loosen
    | procedure p =>
      refine .query_bind hi (hi.procedure p) ?_
      rintro p _ ⟨rfl, hu⟩
      refine (hi.enterFrame p.arity (.inl trivial)).bind ?_
      rintro σ - - m₁ r₁ - hi₁
      refine (hi₁.loosen.runScript h.call (callsPreserve n).call (hu σ)).bind_of_grows
        (fun outcome => ?_) ?_
      · cases outcome with
        | value v => exact (preserves_setAcc v).bind fun _ => HeapMachine.grows_ret
        | tailCall callee args =>
          exact (preserves_passArguments callee args).bind fun _ =>
            (callsPreserve n).apply
      rintro τ a b m₂ r₂ - ⟨hab, hi₂⟩
      cases hab with
      | value hv =>
        refine (hi₂.setAcc hv).bind fun _ _ _ _ _ _ hi₃ => ?_
        exact hi₃.ret.imp fun _ _ _ _ _ _ h => h.loosen
      | @tailCall v u vs us hv hvs =>
        refine (hi₂.passArguments (.inl trivial) hv hvs).bind_of_grows
          (fun _ => (callsPreserve n).apply) ?_
        rintro υ - - m₃ r₃ - ⟨hi₃, -⟩
        exact h.apply hi₃
    | continuation k => exact absurd rfl (hne k)
    | _ => exact .raise hi (.same _)

theorem call_succ (h : CallsFollow n) {v u : Value} {vs us : List Value}
    (hi : InStep before true ρ m r) (hv : Agree ρ v u) (hvs : List.Forall₂ (Agree ρ) vs us) :
    Follows True True before ρ (fun σ a b m' r' => Agree σ a b ∧ InStep before true σ m' r')
      (Machine.call (n + 1) v vs m) (Machine.call (n + 1) u us r) := by
  -- whether or not the machine is made runnable, the call goes on in the same way
  have hrest {m₀ : Machine} {r₀ : HeapMachine} (hi : InStep before true ρ m₀ r₀)
      (outermost : Bool) (ip argc : Nat) :
      Follows True True before ρ (fun σ a b m' r' => Agree σ a b ∧ InStep before true σ m' r')
        ((do
          let id ← beginCall
          let sp := (← get).sp
          let outcome ← attempt (Machine.callLoop n id v vs)
          endCall outermost id ip argc sp outcome : Exec Value) m₀)
        ((do
          let id ← HeapMachine.beginCall
          let mark := Storage.mark (← get)
          let outcome ← attempt (Machine.callLoop n id u us)
          HeapMachine.endCall outermost id ip argc mark outcome : HeapExec Value) r₀) := by
    refine hi.beginCall.bind ?_
    rintro σ _ _ m₁ r₁ hρ ⟨rfl, rfl, hhosts, -, lo, h₁⟩
    obtain ⟨segs, lo₀, h₀, hh, -⟩ := hi
    have hid : r₀.hosts.returned ≠ some r₀.hosts.next := fun hid =>
      Nat.lt_irrefl _ (h₀.sound.returned _ hid)
    have hi₁ : InStep r₀.hosts true σ m₁ r₁ := by
      refine ⟨[], lo, h₁, ?_, nofun⟩
      rw [hhosts]
      exact ⟨rfl, .inr fun _ h => h⟩
    simp only [get_bind_apply]
    refine Follows.attempt_bind (h.callLoop _ hid hi₁ (hv.mono hρ) (forall₂_mono hvs hρ))
      (HeapMachine.grows_endCall _ _ _ _ _) ?_ ?_ ?_
    · rintro τ - - m₂ r₂ - ⟨lo₂, h₂, hh₂⟩
      refine (h₂.endCall_ok (hh₂.trans hh) outermost _ ip argc _ _).imp ?_
      rintro υ a b m₃ r₃ - ⟨hab, hi₃⟩
      exact ⟨hab, hi₃.loosen⟩
    · rintro τ f g m₂ r₂ - hraised
      refine ((hraised.since hh).endCall outermost _ ip argc _ _).imp ?_
      rintro υ a b m₃ r₃ - ⟨hab, hi₃⟩
      exact ⟨hab, hi₃.loosen⟩
    · rintro f m₂ hf h₂
      exact h₂.endCall hf outermost _ ip argc _
  have hhosts := hi.hosts
  have hip : m.ip = r.ip := hi.ip
  rw [Machine.call, Machine.call]
  simp only [get_bind_apply, HasRegisters.registers, hhosts, hip, hi.argc]
  cases r.hosts.isIdle with
  | true => exact hrest (hi.withRunnable true) _ _ _
  | false => exact hrest hi _ _ _

theorem callLoop_succ (h : CallsFollow n) {v u : Value} {vs us : List Value} (id : Nat)
    (hid : before.returned ≠ some id) (hi : InStep before true ρ m r) (hv : Agree ρ v u)
    (hvs : List.Forall₂ (Agree ρ) vs us) :
    Follows True True before ρ (fun σ _ _ m' r' => Returned before σ m' r')
      (Machine.callLoop (n + 1) id v vs m) (Machine.callLoop (n + 1) id u us r) := by
  rw [Machine.callLoop, Machine.callLoop]
  have hawait : HeapMachine.Grows (Machine.awaitReturn n id) := (callsPreserve n).awaitReturn id
  refine (hi.passArguments (.inl trivial) hv hvs).bind_of_grows (fun _ => ?_) ?_
  · exact (preserves_passUnwound (callsPreserve n).apply).bind fun _ => hawait
  rintro σ - - m₁ r₁ - ⟨hi₁, -⟩
  refine (h.apply hi₁).passUnwound.bind_of_grows (fun _ => hawait) ?_
  rintro τ - - m₂ r₂ - hl
  exact h.awaitReturn id hid hl

theorem awaitReturn_succ (h : CallsFollow n) (id : Nat) (hid : before.returned ≠ some id)
    (hl : Landed before true ρ m r) :
    Follows True True before ρ (fun σ _ _ m' r' => Returned before σ m' r')
      (Machine.awaitReturn (n + 1) id m) (Machine.awaitReturn (n + 1) id r) := by
  have hw := HostCalls.within_turn r.hosts r.runnable id
  have hl' := hl.within hw
  obtain ⟨segs, lo, h', hh, -⟩ := hl
  have hturn : m.hosts.turn m.runnable id = r.hosts.turn r.runnable id := by
    rw [h'.hosts, h'.runnable]
  have h'' := h'.withHosts (hw.sound h'.sound)
  rw [Machine.awaitReturn, Machine.awaitReturn]
  simp only [modifyGet_bind_apply, HasRegisters.registers, HasRegisters.withRegisters, hturn]
  cases hc : (r.hosts.turn r.runnable id).1 with
  | done =>
    obtain ⟨hret, hnone⟩ := HostCalls.returned_of_done hc
    have hsegs : segs = [] := hh.returned.resolve_right fun hr => hid (hr id hret)
    subst hsegs
    exact .ok le_rfl ⟨lo, h'', hw.running.trans hh.running, .inr (by simp [hnone])⟩
  | unwind => exact .fault le_rfl (.unwound trivial hl')
  | step =>
    have hnone := HostCalls.returned_of_step hc
    have hi : InStep before true ρ { m with hosts := (r.hosts.turn r.runnable id).2 }
        { r with hosts := (r.hosts.turn r.runnable id).2 } :=
      ⟨segs, lo, h'', ⟨hw.running.trans hh.running, .inr (by simp [hnone])⟩, fun h => by cases h⟩
    refine (hi.stepFollows h).passUnwound.bind_of_grows
      (fun _ => (callsPreserve n).awaitReturn id) ?_
    rintro σ - - m₁ r₁ - hl₁
    exact h.awaitReturn id hid hl₁

end CallsFollow

theorem callsFollow (n : Nat) : CallsFollow n := by
  induction n with
  | zero =>
    exact
      { apply := fun _ => .unfinished
        call := fun _ _ _ => .unfinished
        callLoop := fun _ _ _ _ _ => .unfinished
        awaitReturn := fun _ _ _ => .unfinished }
  | succ n ih =>
    exact
      { apply := ih.apply_succ
        call := ih.call_succ
        callLoop := ih.callLoop_succ
        awaitReturn := ih.awaitReturn_succ }

end LispMachine
