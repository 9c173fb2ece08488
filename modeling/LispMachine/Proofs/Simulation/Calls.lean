import LispMachine.Proofs.Control.Basic
import LispMachine.Proofs.Simulation.Instructions

/-! # Parts of calls

What calling a procedure is made of, but for running it: entering closures, continuations and lists,
answering the requests of a host procedure, and getting ready for a call from the host.
-/

namespace LispMachine

open Machine

variable {full lax : Prop} {before : HostCalls} {left : Bool} {ρ : Naming} {m : Machine}
  {r : HeapMachine}

/-! ## Host calls -/

namespace HostCalls

/-- No host call is new, and none has got its result since. -/
structure Within (hosts' hosts : HostCalls) : Prop where
  active : ∀ id ∈ hosts'.active, id ∈ hosts.active
  next : hosts'.next = hosts.next
  returned : ∀ id, hosts'.returned = some id → hosts.returned = some id
  running : hosts'.running = hosts.running

variable {hosts hosts' : HostCalls}

theorem Within.refl (hosts : HostCalls) : hosts.Within hosts :=
  ⟨fun _ h => h, rfl, fun _ h => h, rfl⟩

theorem Within.sound (h : hosts'.Within hosts) (hs : hosts.Sound) : hosts'.Sound where
  active id hid := by
    rw [h.next]
    exact hs.active id (h.active id hid)
  returned id hid := by
    rw [h.next]
    exact hs.returned id (h.returned id hid)

theorem Since.within {admitted : Prop} (hs : hosts.Since before admitted)
    (h : hosts'.Within hosts) :
    hosts'.Since before admitted :=
  ⟨h.running.trans hs.running, hs.returned.imp_right fun hr id hid => hr id (h.returned id hid)⟩

theorem Since.trans {now : HostCalls} {admitted : Prop} (h : hosts.Since now admitted)
    (hn : now.Since before False) : hosts.Since before admitted :=
  ⟨h.running.trans hn.running,
    h.returned.imp_right fun hr id hid => hn.returned.resolve_left not_false id (hr id hid)⟩

theorem within_leave (hosts : HostCalls) (id : Nat) : (hosts.leave id).Within hosts := by
  unfold leave
  split
  · exact ⟨fun _ h => List.mem_of_mem_tail h, rfl, fun _ h => h, rfl⟩
  · exact .refl _

theorem within_noteEntry (hosts : HostCalls) (owner : Option Nat) :
    (hosts.noteEntry owner).Within hosts := by
  unfold noteEntry
  split
  · exact .refl _
  · split <;> split <;> exact ⟨fun _ h => h, rfl, fun _ h => h, rfl⟩

theorem within_turn (hosts : HostCalls) (runnable : Bool) (id : Nat) :
    (hosts.turn runnable id).2.Within hosts := by
  unfold turn
  split
  · exact .refl _
  · dsimp only
    split
    · exact ⟨fun _ h => h, rfl, fun _ => nofun, rfl⟩
    · split <;> exact ⟨fun _ h => h, rfl, fun _ h => h, rfl⟩

theorem Sound.enter (hs : hosts.Sound) : hosts.enter.Sound where
  active id hid := by
    simp only [HostCalls.enter, List.mem_cons] at hid ⊢
    rcases hid with rfl | hid
    · omega
    · have := hs.active id hid
      omega
  returned id hid := by
    have := hs.returned id hid
    simp only [HostCalls.enter]
    omega

end HostCalls

section Hosts

variable {calls : HostCalls}

theorem Represents.withHosts {segs : List Segment} {lo : Nat} (h : Represents ρ segs lo m r)
    (hs : calls.Sound) : Represents ρ segs lo { m with hosts := calls } { r with hosts := calls } :=
  { h with hosts := rfl, sound := hs }

theorem Represents.withRunnable {segs : List Segment} {lo : Nat} (h : Represents ρ segs lo m r)
    (runnable : Bool) : Represents ρ segs lo { m with runnable } { r with runnable } :=
  { h with runnable := rfl }

theorem Represents.withRunning {segs : List Segment} {lo : Nat}
    (h : Represents ρ segs lo m r) (running : Bool) :
    Represents ρ segs lo { m with hosts.running := running }
      { r with hosts.running := running } := by
  have hs : { r.hosts with running := running }.Sound := ⟨h.sound.active, h.sound.returned⟩
  rw [h.hosts]
  exact h.withHosts hs

theorem InStep.hosts (hi : InStep before left ρ m r) : m.hosts = r.hosts := by
  obtain ⟨segs, lo, h, -⟩ := hi
  exact h.hosts

theorem Landed.hosts (hl : Landed before left ρ m r) : m.hosts = r.hosts := by
  obtain ⟨segs, lo, h, -⟩ := hl
  exact h.hosts

theorem Landed.runnable (hl : Landed before left ρ m r) : m.runnable = r.runnable := by
  obtain ⟨segs, lo, h, -⟩ := hl
  exact h.runnable

theorem InStep.within (hi : InStep before left ρ m r) (hc : calls.Within r.hosts) :
    InStep before left ρ { m with hosts := calls } { r with hosts := calls } := by
  obtain ⟨segs, lo, h, hh, hl⟩ := hi
  exact ⟨segs, lo, h.withHosts (hc.sound h.sound), hh.within hc, hl⟩

theorem Landed.within (hl : Landed before left ρ m r) (hc : calls.Within r.hosts) :
    Landed before left ρ { m with hosts := calls } { r with hosts := calls } := by
  obtain ⟨segs, lo, h, hh, hl⟩ := hl
  exact ⟨segs, lo, h.withHosts (hc.sound h.sound), hh.within hc, hl⟩

theorem InStep.withRunnable (hi : InStep before left ρ m r) (runnable : Bool) :
    InStep before left ρ { m with runnable } { r with runnable } := by
  obtain ⟨segs, lo, h, hr⟩ := hi
  exact ⟨segs, lo, h.withRunnable runnable, hr⟩

theorem Landed.withRunnable (hl : Landed before left ρ m r) (runnable : Bool) :
    Landed before left ρ { m with runnable } { r with runnable } := by
  obtain ⟨segs, lo, h, hr⟩ := hl
  exact ⟨segs, lo, h.withRunnable runnable, hr⟩

theorem InStep.since {now : HostCalls} (hi : InStep now left ρ m r) (hh : now.Since before False) :
    InStep before left ρ m r := by
  obtain ⟨segs, lo, h, hnow, hl⟩ := hi
  exact ⟨segs, lo, h, hnow.trans hh, hl⟩

theorem Landed.since {now : HostCalls} (hl : Landed now left ρ m r) (hh : now.Since before False) :
    Landed before left ρ m r := by
  obtain ⟨segs, lo, h, hnow, hl⟩ := hl
  exact ⟨segs, lo, h, hnow.trans hh, hl⟩

variable {f g : Fault}

theorem Raised.landed (h : Raised lax before ρ m r f g) : Landed before true ρ m r := by
  cases h with
  | ordinary _ hi => exact hi.landed
  | orphaned _ hi => exact hi.landed
  | unwound _ hl => exact hl

theorem Raised.within (h : Raised lax before ρ m r f g) (hc : calls.Within r.hosts) :
    Raised lax before ρ { m with hosts := calls } { r with hosts := calls } f g := by
  cases h with
  | ordinary hf hi => exact .ordinary hf (hi.within hc)
  | unwound ha hl => exact .unwound ha (hl.within hc)
  | orphaned hm hi =>
    obtain ⟨k, c, id, hk, hc', hid, hact⟩ := hm
    rw [hi.hosts] at hact
    exact .orphaned ⟨k, c, id, hk, hc', hid, fun h => hact (hc.active id h)⟩ (hi.within hc)

theorem Raised.withRunnable (h : Raised lax before ρ m r f g) (runnable : Bool) :
    Raised lax before ρ { m with runnable } { r with runnable } f g := by
  cases h with
  | ordinary hf hi => exact .ordinary hf (hi.withRunnable runnable)
  | unwound ha hl => exact .unwound ha (hl.withRunnable runnable)
  | orphaned hm hi => exact .orphaned hm (hi.withRunnable runnable)

theorem Raised.since {now : HostCalls} (h : Raised lax now ρ m r f g)
    (hh : now.Since before False) :
    Raised lax before ρ m r f g := by
  cases h with
  | ordinary hf hi => exact .ordinary hf (hi.since hh)
  | unwound ha hl => exact .unwound ha (hl.since hh)
  | orphaned hm hi => exact .orphaned hm (hi.since hh)

end Hosts

/-! ## Going on after a fault -/

/-- Going on whether or not there was a fault. An overflow has to be handed on. -/
theorem Follows.attempt_bind {α β γ δ : Type} {now : HostCalls} {x : Exec α} {y : HeapExec β}
    {f : Except Fault α → Exec γ} {g : Except Fault β → HeapExec δ}
    {Q : Naming → α → β → Machine → HeapMachine → Prop}
    {S : Naming → γ → δ → Machine → HeapMachine → Prop}
    (h : Follows True lax now ρ Q (x m) (y r)) (hg : ∀ b, HeapMachine.Grows (g b))
    (hok : ∀ σ a b m r, ρ ≤ σ → Q σ a b m r →
      Follows True lax before σ S (f (.ok a) m) (g (.ok b) r))
    (hfault : ∀ σ e e' m r, ρ ≤ σ → Raised lax now σ m r e e' →
      Follows True lax before σ S (f (.error e) m) (g (.error e') r))
    (hoverflow : ∀ e m, e.IsOverflow → Represented m → ∃ m', f (.error e) m = .error (.fault e) m' ∧
      Represented m' ∧ m'.capacity = m.capacity) :
    Follows True lax before ρ S ((attempt x >>= f) m) ((Machine.attempt y >>= g) r) := by
  have hdemanded := HeapMachine.demanded_le_bind (x := Machine.attempt y) (r := r) hg
  rw [HeapMachine.demanded, final_attempt] at hdemanded
  generalize hx : x m = X at h
  generalize hy : y r = Y at h hdemanded
  cases h with
  | ok hρ h =>
    rw [bind_ok (attempt_ok hx), bind_ok (attempt_ok hy)]
    exact (hok _ _ _ _ _ hρ h).of_le hρ
  | fault hρ h =>
    rw [bind_ok (attempt_fault hx), bind_ok (attempt_fault hy)]
    exact (hfault _ _ _ _ _ hρ h).of_le hρ
  | unfinished =>
    rw [bind_error (show attempt x m = .error .unfinished _ by rw [attempt, hx]),
      bind_error (show Machine.attempt y r = .error .unfinished _ by
        rw [Machine.attempt, hy])]
    exact .unfinished
  | broken =>
    rw [bind_error (show attempt x m = .error .stuck _ by rw [attempt, hx]),
      bind_error (show Machine.attempt y r = .error .stuck _ by rw [Machine.attempt, hy])]
    exact .broken
  | @overflow e m₁ _ _ he h hcap =>
    obtain ⟨m₂, hm₂, h₂, hsame⟩ := hoverflow e m₁ he h
    rw [bind_ok (attempt_fault hx), hm₂]
    exact .overflow trivial he h₂ (hsame ▸ hcap.trans_le hdemanded)
  | stuck hl =>
    rw [bind_error (show Machine.attempt y r = .error .stuck _ by rw [Machine.attempt, hy])]
    exact .stuck hl

/-! ## Entering -/

theorem InStep.enterClosure (hi : InStep before left ρ m r) (c : Ref .closure) :
    Follows full lax before ρ (fun σ _ _ m' r' => InStep before left σ m' r')
      (Machine.enterClosure c m) (Machine.enterClosure c r) := by
  refine .query_bind hi (hi.heap.closure c) fun c c' hc => ?_
  obtain ⟨segs, lo, h, hr⟩ := hi
  refine .ok le_rfl ⟨segs, lo, ?_, hr⟩
  exact { h with ip := hc.entry, env := .agree hc.env }

theorem Machine.heap_of_pop {m' : Machine} {v : Value} (h : Machine.pop m = .ok v m') :
    m'.heap = m.heap := by
  unfold Machine.pop at h
  simp only [get_bind_apply] at h
  cases hsp : m.sp with
  | zero =>
    rw [hsp] at h
    cases h
  | succ sp =>
    simp only [hsp] at h
    cases hv : m.cell sp with
    | error e =>
      rw [query_bind_error hv] at h
      cases h
    | ok v =>
      rw [query_bind_ok hv] at h
      by_cases hsp : sp < m.capacity
      · rw [bind_ok (show writeCell sp .nil m = .ok () _ by rw [writeCell, if_pos hsp])] at h
        cases h
        rfl
      · rw [bind_error
          (show writeCell sp .nil m = .error .stuck m by rw [writeCell, if_neg hsp])] at h
        cases h

/-- Makes a continuation the one to return through, with the one argument as the result. -/
def HeapMachine.handOver (k : Ref .continuation) : HeapExec Unit := do
  checkArgc 1 1
  setAcc (← pop)
  let owner := (← query (·.heap.continuation k)).owner
  modify fun r => { r with
    demand := r.demand.expose, hosts := r.hosts.noteEntry owner, cont := .onHeap k }

theorem HeapMachine.enterContinuation_eq (k : Ref .continuation) :
    enterContinuation k = (do handOver k; ret) := by
  simp only [enterContinuation, handOver, bind_assoc]

theorem InStep.handOver (hi : InStep before left ρ m r) {k q : Nat} (hk : ρ.cont k = some q)
    (hn : lax ∨ (r.argc = 1 → r.argc ≤ r.operands.size)) :
    Follows full lax before ρ
      (fun σ _ _ m' r' => InStep before left σ m' r' ∧
        m'.leftAfterReturn left m'.cont = m.leftAfterReturn left (.onHeap ⟨q⟩))
      (Machine.handOver ⟨q⟩ m) (HeapMachine.handOver ⟨k⟩ r) := by
  refine (hi.checkArgc 1 1).bind ?_
  rintro ρ - - m r - ⟨rfl, rfl, rfl, hleast, hmost⟩
  refine (hi.pop (hn.imp_right fun hn => by omega)).bind_eq ?_
  rintro σ v u m₁ r₁ hρ hm₁ ⟨hv, hi₁, -⟩
  obtain ⟨segs, lo, h₂, hh, hl⟩ := hi₁.withAcc hv
  have hk' := hρ.2 _ _ hk
  obtain ⟨c, c', hc, hc', ha⟩ := h₂.continuation hk'
  simp only [Machine.setAcc, adjust_bind_apply, HeapMachine.adjust_bind_apply]
  rw [query_bind_ok hc, HeapMachine.query_bind_ok hc']
  simp only [modify_apply, ha.owner, hi₁.hosts]
  have hnote := HostCalls.within_noteEntry r₁.hosts c'.owner
  have h₃ : Represents σ segs lo
      { m₁ with acc := v, hosts := r₁.hosts.noteEntry c'.owner, cont := .onHeap ⟨q⟩ }
      { r₁ with
        acc := u
        demand := r₁.demand.expose
        hosts := r₁.hosts.noteEntry c'.owner
        cont := .onHeap ⟨k⟩ } :=
    { h₂.withHosts (hnote.sound h₂.sound) with
      cont := .agree (.onHeap hk')
      slack := h₂.base.trans (Nat.add_le_add_right (le_max_left ..) _) }
  refine .ok le_rfl ⟨⟨segs, lo, h₃, hh.within hnote, hl⟩, ?_⟩
  rw [Machine.leftAfterReturn, Machine.leftAfterReturn, ← heap_of_pop hm₁]

theorem InStep.enterContinuation (hi : InStep before left ρ m r) {k q : Nat}
    (hk : ρ.cont k = some q) (hn : lax ∨ (r.argc = 1 → r.argc ≤ r.operands.size)) :
    Follows True lax before ρ
      (fun σ _ _ m' r' => Landed before (m.leftAfterReturn left (.onHeap ⟨q⟩)) σ m' r')
      (Machine.enterContinuation ⟨q⟩ m) (HeapMachine.enterContinuation ⟨k⟩ r) := by
  rw [Machine.enterContinuation_eq, HeapMachine.enterContinuation_eq]
  refine (hi.handOver hk hn).bind ?_
  rintro σ - - m' r' - ⟨hi', hleft⟩
  rw [← hleft]
  exact hi'.ret

theorem InStep.pickItem (hi : InStep before left ρ m r) {v u : Value} (hv : Agree ρ v u)
    (hn : lax ∨ ((Arity.fixed 1).Accepts r.argc → r.argc ≤ r.operands.size)) :
    Follows full lax before ρ (fun σ _ _ m' r' => InStep before false σ m' r')
      (Machine.pickItem v m) (Machine.pickItem u r) := by
  refine (hi.enterFrame (.fixed 1) hn).bind ?_
  rintro σ - - m₁ r₁ hρ hi₁
  refine .query_bind hi₁ (hi₁.readSlot 0 0) fun w z hw => ?_
  cases hw with
  | continuation => exact .raise hi₁ (.same _)
  | same =>
    cases w with
    | fixnum index =>
      refine .query_bind hi₁ (hi₁.heap.nth (hv.mono hρ) index) fun a b hab => ?_
      exact hi₁.setAcc hab
    | _ => exact .raise hi₁ (.same _)

theorem InStep.enterList (hi : InStep before left ρ m r) {v u : Value} (hv : Agree ρ v u)
    (hn : lax ∨ ((Arity.fixed 1).Accepts r.argc → r.argc ≤ r.operands.size)) :
    Follows True lax before ρ (fun σ _ _ m' r' => Landed before false σ m' r')
      (Machine.enterList v m) (Machine.enterList u r) := by
  simp only [Machine.enterList_eq]
  refine (hi.pickItem hv hn).bind ?_
  rintro σ - - m' r' - hi'
  simpa [Storage.ret] using hi'.ret

theorem InStep.procedure (hi : InStep before left ρ m r) (p : Ref .procedure) :
    ExceptAgree (fun a b => a = b ∧ a.body.Uniform) (m.heap.procedure p) (r.heap.procedure p) := by
  obtain ⟨segs, lo, h, -⟩ := hi
  unfold Heap.procedure
  rw [h.heap.procedures]
  cases hp : r.heap.procedures[p.index]? with
  | none => exact .error .stuck
  | some a => exact .ok ⟨rfl, h.uniform a (Array.mem_of_getElem? hp)⟩

theorem InStep.passArguments {v u : Value} {vs us : List Value} (hi : InStep before left ρ m r)
    (hl : lax ∨ left = false) (hv : Agree ρ v u) (hvs : List.Forall₂ (Agree ρ) vs us) :
    Follows True lax before ρ
      (fun σ _ _ m' r' => InStep before left σ m' r' ∧ r'.argc ≤ r'.operands.size)
      (Machine.passArguments v vs m) (Machine.passArguments u us r) := by
  rw [Machine.passArguments, Machine.passArguments, hvs.length_eq]
  simp only [Machine.setArgc, adjust_bind_apply, HeapMachine.adjust_bind_apply]
  refine ((hi.withArgc us.length).pushAll hl hvs).bind_of_grows
    (fun _ => preserves_setAcc _) ?_
  rintro σ - - m' r' hρ ⟨hi', hsize, hargc⟩
  refine .ok le_rfl ⟨hi'.withAcc (hv.mono hρ), ?_⟩
  change r'.argc ≤ r'.operands.size
  rw [hsize, hargc]
  exact Nat.le_add_left ..

/-! ## Answering -/

/-- Every request but the one for the continuation is answered at once, without new names. -/
theorem InStep.answerAtOnce {q q' : Request} (hi : InStep before left ρ m r)
    (hq : RequestAgree ρ q q') (hne : q ≠ .capture) (call : Value → List Value → Exec Value)
    (call' : Value → List Value → HeapExec Value) :
    ResultAgree before left ρ
      (fun a b m' r' => ReplyAgree ρ q q' (.ok a) (.ok b) ∧ InStep before left ρ m' r')
      (Machine.answer call q m) (Machine.answer call' q' r) := by
  cases hq with
  | slot depth index =>
    rw [Machine.answer, Machine.answer]
    exact .query hi (hi.readSlot depth index) fun _ _ h => ⟨.slot h, hi⟩
  | setSlot depth index hv =>
    exact (hi.writeSlot depth index hv).imp fun _ _ _ _ h => ⟨.setSlot, h⟩
  | global name => exact .ok ⟨.global (hi.global? name), hi⟩
  | define name hv => exact (hi.define name hv).imp fun _ _ _ _ h => ⟨.define, h⟩
  | capture => exact absurd rfl hne
  | items hv =>
    rw [Machine.answer, Machine.answer]
    exact .query hi (hi.heap.items hv) fun _ _ h => ⟨.items h, hi⟩
  | car hv =>
    rw [Machine.answer, Machine.answer]
    exact .query hi (hi.heap.car hv) fun _ _ h => ⟨.car h, hi⟩
  | cdr hv =>
    rw [Machine.answer, Machine.answer]
    exact .query hi (hi.heap.cdr hv) fun _ _ h => ⟨.cdr h, hi⟩
  | setCar hv hw => exact (hi.setCar hv hw).imp fun _ _ _ _ h => ⟨.setCar, h⟩
  | setCdr hv hw => exact (hi.setCdr hv hw).imp fun _ _ _ _ h => ⟨.setCdr, h⟩
  | pair hv hw =>
    refine .ok ⟨.pair ?_, hi.withHeap (hi.heap.pushPair ⟨hv, hw⟩) rfl rfl rfl rfl⟩
    simp only [HasRegisters.registers, hi.heap.pairs.1]
    exact .same (by simp)
  | elements p =>
    rw [Machine.answer, Machine.answer]
    exact .query hi (hi.heap.vector p) fun _ _ h => ⟨.elements h, hi⟩
  | setElements p hvs => exact (hi.setVector p hvs).imp fun _ _ _ _ h => ⟨.setElements, h⟩
  | vector hvs =>
    refine .ok ⟨.vector ?_, hi.withHeap (hi.heap.pushVector hvs) rfl rfl rfl rfl⟩
    simp only [HasRegisters.registers, hi.heap.vectors.1]
    exact .same (by simp)

theorem InStep.answer {q q' : Request} (hi : InStep before left ρ m r) (hq : RequestAgree ρ q q')
    (call : Value → List Value → Exec Value) (call' : Value → List Value → HeapExec Value) :
    Follows full lax before ρ
      (fun σ a b m' r' => ReplyAgree σ q q' a b ∧ InStep before left σ m' r')
      (attempt (Machine.answer call q) m) (attempt (Machine.answer call' q') r) := by
  by_cases hne : q = .capture
  · subst hne
    cases hq
    obtain ⟨segs, lo, h, hh, hl⟩ := hi
    obtain ⟨σ, q, k, m', r', segs', hm', hr', hρ, hk, h', hhosts, hleaving⟩ := h.capture
    have hx : Machine.answer call .capture m = .ok (.continuation ⟨q⟩) m' := bind_ok hm'
    have hy : Machine.answer call' .capture r = .ok (.continuation ⟨k⟩) r' := bind_ok hr'
    rw [attempt_ok hx, attempt_ok hy]
    exact .ok hρ ⟨.capture (.continuation hk), segs', lo, h', by rwa [hhosts], by rwa [hleaving]⟩
  · refine ((hi.answerAtOnce hq hne call call').attempt (P := ReplyAgree ρ q q')
      fun _ _ h => .fault h).imp ?_
    rintro _ a b m' r' - ⟨rfl, h⟩
    exact h

/-! ## Calls from the host -/

theorem InStep.beginCall (hi : InStep before left ρ m r) :
    Follows full lax before ρ
      (fun σ a b m' r' => a = b ∧ b = r.hosts.next ∧ r'.hosts = r.hosts.enter ∧
        r'.leaving = r.leaving ∧ ∃ lo, Represents σ [] lo m' r')
      (Machine.beginCall m) (HeapMachine.beginCall r) := by
  obtain ⟨segs, lo, h, -⟩ := hi
  obtain ⟨σ₁, env, m₁, hm₁, hρ, henv, hm₁env, h₁, -⟩ := h.promoteCurrent
  obtain ⟨σ₂, cont, m₂, hm₂, hσ₁, hcont, h₂, hp⟩ := h₁.promoteContinuation
  have hmarker : ContinuationAgree σ₂ (.marker r.hosts.next cont env)
      (.marker r.hosts.next r.cont r.env) :=
    ⟨⟨0, rfl, .empty⟩, fun _ hv => by simp [Continuation.marker] at hv, hcont, henv.mono hσ₁, rfl,
      rfl⟩
  have hσ₂ : σ₂ ≤ σ₂.addCont r.heap.continuations.size m₂.heap.continuations.size
      h₂.heap.cont_fresh :=
    Naming.le_addCont h₂.heap.cont_size
  have hrun : Machine.beginCall m = .ok r.hosts.next { m₂ with
      cont := .onHeap ⟨m₂.heap.continuations.size⟩
      hosts := r.hosts.enter
      heap.continuations := m₂.heap.continuations.push (.marker r.hosts.next cont env) } := by
    rw [Machine.beginCall, bind_ok hm₁]
    simp only [get_bind_apply]
    rw [bind_ok hm₂, ← h₂.hosts]
    rfl
  rw [hrun]
  refine .ok (hρ.trans (hσ₁.trans hσ₂)) ⟨rfl, rfl, rfl, rfl, lo, ?_⟩
  refine Core.represents_nil { h₂.newCont hmarker le_rfl ⟨r.heap.frames.size, 0⟩ with
    hosts := rfl, sound := h₂.sound.enter } ?_ (.onHeap Naming.addCont_cont_self) h₂.base
  have henv₂ : m₂.env = env := hp.env.trans hm₁env
  have := (henv.mono hσ₁).mono hσ₂
  rwa [← henv₂] at this

/-- After a host call that has got its result, nothing of it is left. -/
theorem Represents.callEnded {lo : Nat} (h : Represents ρ [] lo m r) (ip argc : Nat) {sp : Nat}
    (hsp : sp ≤ m.sp) :
    Represents ρ [] sp { m with ip, argc, sp, bp := sp }
      { r with ip, argc, operands := #[], leaving := false, demand := r.demand.rebase 0 } :=
  { h with
    ip := rfl
    argc := rfl
    sp := rfl
    room := hsp.trans h.room
    operands := .empty
    stacked := .nil
    base := le_rfl
    bp := fun _ => le_rfl
    frames_le := nofun
    slack := le_max_left sp m.cont.top }

theorem Represents.endCall_ok {lo : Nat} (h : Represents ρ [] lo m r)
    (hh : r.hosts.Since before False) (outermost : Bool) (id ip argc sp mark : Nat) :
    Follows full lax before ρ (fun σ a b m' r' => Agree σ a b ∧ InStep before outermost σ m' r')
      (Machine.endCall outermost id ip argc sp (.ok ()) m)
      (HeapMachine.endCall outermost id ip argc mark (.ok ()) r) := by
  have hleave := HostCalls.within_leave r.hosts id
  have h' := (h.withHosts (hleave.sound h.sound)).callEnded ip argc (min_le_right sp m.sp)
  rw [Machine.endCall, HeapMachine.endCall]
  simp only [modify_bind_apply, get_bind_apply, h.hosts]
  exact .ok le_rfl ⟨h.acc, [], _, h', hh.within hleave, fun _ => rfl⟩

variable {f g : Fault}

theorem Raised.stopWith {α β : Type} {Q : Naming → α → β → Machine → HeapMachine → Prop}
    (h : Raised lax before ρ m r f g) :
    Follows full lax before ρ Q (Machine.stopWith f m) (Machine.stopWith g r) := by
  have hhosts := h.landed.hosts
  have hw : { r.hosts with escape := none }.Within r.hosts := ⟨fun _ h => h, rfl, fun _ h => h, rfl⟩
  simp only [Machine.stopWith, adjust_bind_apply, HeapMachine.adjust_bind_apply, hhosts]
  exact .fault le_rfl ((h.within hw).withRunnable false)

theorem Raised.unwound_iff (h : Raised lax before ρ m r f g) : f = .unwound ↔ g = .unwound := by
  cases h with
  | ordinary hf => cases hf <;> simp
  | orphaned => simp
  | unwound => simp

theorem Landed.dropResult (hl : Landed before true ρ m r) :
    InStep before true ρ { m with hosts.returned := none } { r with hosts.returned := none } := by
  obtain ⟨segs, lo, h, hh, -⟩ := hl
  have hw : { r.hosts with returned := none }.Within r.hosts := ⟨fun _ h => h, rfl, nofun, rfl⟩
  have h' := h.withHosts (hw.sound h.sound)
  rw [h.hosts]
  exact ⟨segs, lo, h', ⟨hh.running, .inr nofun⟩, nofun⟩

theorem Raised.endCall (h : Raised lax before ρ m r f g) (outermost : Bool)
    (id ip argc sp mark : Nat) :
    Follows full lax before ρ (fun σ a b m' r' => Agree σ a b ∧ InStep before outermost σ m' r')
      (Machine.endCall outermost id ip argc sp (.error f) m)
      (HeapMachine.endCall outermost id ip argc mark (.error g) r) := by
  have h' := h.within (HostCalls.within_leave r.hosts id)
  rw [Machine.endCall, HeapMachine.endCall]
  simp only [modify_bind_apply, h.landed.hosts]
  cases outermost with
  | false => exact .fault le_rfl h'
  | true =>
    simp only [if_true, get_bind_apply]
    have hiff : (f = .unwound ∧ (!m.runnable) = true) ↔ (g = .unwound ∧ (!r.runnable) = true) := by
      rw [h.unwound_iff, h.landed.runnable]
    by_cases hc : g = .unwound ∧ (!r.runnable) = true
    · rw [if_pos (hiff.2 hc), if_pos hc]
      have hi := h'.landed.dropResult
      exact .ok le_rfl ⟨hi.acc, hi⟩
    · rw [if_neg (mt hiff.1 hc), if_neg hc]
      exact h'.stopWith

theorem Represented.withHosts {calls : HostCalls} (h : Represented m) (hc : calls.Within m.hosts)
    (runnable : Bool) : Represented { m with runnable, hosts := calls } := by
  obtain ⟨ρ, segs, lo, r, h⟩ := h
  rw [h.hosts] at hc
  exact ⟨ρ, segs, lo, _, (h.withRunnable runnable).withHosts (hc.sound h.sound)⟩

theorem Represented.stopWith {α : Type} (h : Represented m) (f : Fault) :
    ∃ m', (Machine.stopWith f : Exec α) m = .error (.fault f) m' ∧ Represented m' ∧
      m'.capacity = m.capacity := by
  have hw : { m.hosts with escape := none }.Within m.hosts := ⟨fun _ h => h, rfl, fun _ h => h, rfl⟩
  exact ⟨_, rfl, h.withHosts hw false, rfl⟩

theorem Represented.endCall (h : Represented m) (hf : f.IsOverflow) (outermost : Bool)
    (id ip argc sp : Nat) :
    ∃ m', Machine.endCall outermost id ip argc sp (.error f) m = .error (.fault f) m' ∧
      Represented m' ∧ m'.capacity = m.capacity := by
  have h' := h.withHosts (HostCalls.within_leave m.hosts id) m.runnable
  have hne : f ≠ .unwound := by
    rintro rfl
    rcases hf with hf | hf <;> cases hf
  rw [Machine.endCall]
  simp only [modify_bind_apply]
  cases outermost with
  | false => exact ⟨_, rfl, h', rfl⟩
  | true =>
    simp only [if_true, get_bind_apply, hne, false_and, if_false]
    exact h'.stopWith f

end LispMachine
