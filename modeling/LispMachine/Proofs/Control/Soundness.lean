import LispMachine.Proofs.Control.Protocol

/-! # The host calls in progress

What the machine knows about host calls is right at every step: the calls in progress are those that
wait, every continuation knows its owner, and whatever is pending, the result of a call or an
escape, is for a loop that waits.
-/

namespace LispMachine

open Machine

/-- If a host procedure waits for a result, it fails as the call does. -/
def PropagatesReply (next : Option (Except Fault Value → Script Outcome)) : Prop :=
  ∀ script ∈ next, (∀ f, script (.error f) = .fail f) ∧ ∀ v, (script (.ok v)).PropagatesFaults

namespace Context

def isOutside : Context → Bool
  | outside => true
  | _ => false

/-- The numbers of the calls are below `next`, and inner calls have higher ones. -/
def Proper : Nat → Context → Prop
  | next, call w k =>
    w.id < next ∧ k.Proper w.id ∧ w.outermost = k.isOutside ∧ PropagatesReply w.next ∧
      (w.next = none → k = outside)
  | _, _ => True

variable {k : Context} {i j : Nat}

theorem Proper.mono (h : k.Proper i) (hij : i ≤ j) : k.Proper j := by
  cases k with
  | call w k => exact ⟨Nat.lt_of_lt_of_le h.1 hij, h.2⟩
  | _ => trivial

theorem Proper.lt (h : k.Proper i) (hj : j ∈ k.active) : j < i := by
  induction k generalizing i with
  | call w k ih =>
    rcases List.mem_cons.1 hj with rfl | hj
    · exact h.1
    · exact Nat.lt_trans (ih h.2.1 hj) h.1
  | _ => cases hj

theorem isOutside_eq (k : Context) : k.isOutside = (k.active.isEmpty && !k.running) := by
  cases k <;> rfl

end Context

namespace Machine

/-- The procedures propagate faults, and every continuation knows its owner. -/
structure OwnersRecorded (m : Machine) : Prop where
  procedures : ∀ p ∈ m.heap.procedures, p.body.PropagatesFaults
  owned {r : Ref .continuation} {k : Continuation} : m.heap.continuation r = .ok k → k.IsPlain →
    m.ownerOf k.prev = .ok k.owner
  marked {r : Ref .continuation} {k : Continuation} {id : Nat} : m.heap.continuation r = .ok k →
    k.resume = .host id → k.owner = some id

variable {m m' : Machine}

theorem OwnersRecorded.proceeds (h : m.OwnersRecorded) (hm : Proceeds m m') :
    m'.OwnersRecorded where
  procedures p hp := (hm.procedures p hp).elim (h.procedures p) id
  owned hk hplain := by
    rcases hm.added hk with hk | hk
    · exact ownerOf_mono hm.kept (h.owned hk hplain)
    · exact hk.2
  marked hk hid := by
    rcases hm.added hk with hk | hk
    · exact h.marked hk hid
    · exact absurd hid (hk.1 _)

theorem OwnersRecorded.of_same (h : m.OwnersRecorded) (hheap : m'.heap = m.heap) :
    m'.OwnersRecorded where
  procedures := hheap ▸ h.procedures
  owned := by
    intro r k hk hplain
    rw [hheap] at hk
    refine ownerOf_mono (fun hk => ?_) (h.owned hk hplain)
    rwa [hheap]
  marked := hheap ▸ h.marked

end Machine

namespace HostCalls

structure NonePending (hosts : HostCalls) : Prop where
  escape : hosts.escape = none
  returned : hosts.returned = none

/-- Whatever is pending is for a loop that waits. -/
structure Directed (k : Context) (hosts : HostCalls) : Prop where
  call {id : Nat} : hosts.escape = some (.call id) → id ∈ k.active
  run : hosts.escape = some .run → k.running = true
  returned {id : Nat} : hosts.returned = some id → id ∈ k.active
  agree {id : Nat} : hosts.returned = some id → hosts.escape = none ∨ hosts.escape = some (.call id)

/-- A fault is on its way out. An escape may be pending that the fault has put an end to. -/
def Failing (k : Context) (hosts : HostCalls) (f : Fault) : Prop :=
  if f = .unwound then Directed k hosts else hosts.returned = none

/-- A fault is on its way out, and the calls that it ends are over. -/
def Faulty (k : Context) (hosts : HostCalls) (f : Fault) : Prop :=
  hosts.Failing k f ∧ (k = .outside → hosts.escape = none)

variable {hosts : HostCalls} {k : Context}

theorem NonePending.directed (h : hosts.NonePending) (k : Context) : hosts.Directed k where
  call he := by simp [h.escape] at he
  run he := by simp [h.escape] at he
  returned hr := by simp [h.returned] at hr
  agree hr := by simp [h.returned] at hr

theorem NonePending.failing (h : hosts.NonePending) (k : Context) (f : Fault) :
    hosts.Failing k f := by
  unfold Failing
  split
  · exact h.directed k
  · exact h.returned

theorem NonePending.faulty (h : hosts.NonePending) (k : Context) (f : Fault) : hosts.Faulty k f :=
  ⟨h.failing k f, fun _ => h.escape⟩

theorem Directed.returned_eq_none (h : hosts.Directed k) (hk : k.active = []) :
    hosts.returned = none :=
  Option.eq_none_iff_forall_ne_some.2 fun _ hid => List.not_mem_nil (hk ▸ h.returned hid)

theorem Directed.noEscape (h : hosts.Directed k) : Directed k { hosts with escape := none } where
  call hid := by cases hid
  run hid := by cases hid
  returned := h.returned
  agree _ := .inl rfl

theorem Directed.escape_eq_none (h : hosts.Directed .outside) : hosts.escape = none := by
  match he : hosts.escape with
  | none => rfl
  | some (.call id) => exact absurd (h.call he) List.not_mem_nil
  | some .run => exact absurd (h.run he) (by decide)

theorem Failing.congr {hosts' : HostCalls} {f : Fault} (h : hosts.Failing k f)
    (he : hosts'.escape = hosts.escape) (hr : hosts'.returned = hosts.returned) :
    hosts'.Failing k f := by
  unfold Failing at h ⊢
  split at h
  · rw [if_pos ‹_›]
    exact ⟨he ▸ h.call, he ▸ h.run, hr ▸ h.returned, he ▸ hr ▸ h.agree⟩
  · rwa [if_neg ‹_›, hr]

theorem Failing.returned_eq_none {f : Fault} (h : hosts.Failing k f) (hk : k.active = []) :
    hosts.returned = none := by
  unfold Failing at h
  split at h
  · exact h.returned_eq_none hk
  · exact h

end HostCalls

open HostCalls

def PendingFits (m : Machine) (k : Context) : Activity → Prop
  | .loop => m.hosts.Directed k ∧ (k.active = [] → m.hosts.escape = none)
  | .enter .. => m.hosts.NonePending ∧ ∃ w k', k = .call w k'
  | .apply | .ended _ => m.hosts.NonePending
  | .script s => s.PropagatesFaults ∧ (m.hosts.NonePending ∨ ∃ f, s = .fail f ∧ m.hosts.Faulty k f)
  | .ret => m.hosts.returned = none ∧ m.hosts.Directed k ∧ (k.active = [] → m.hosts.escape = none) ∧
      (m.hosts.escape ≠ none → ∃ r c, m.cont = .onHeap r ∧ m.heap.continuation r = .ok c ∧
        ∀ id, c.owner = some id → m.hosts.escape = some (.call id))
  | .fault f => m.hosts.Faulty k f
  | .leave (.ok ()) => m.hosts.NonePending ∧ ∃ w k', k = .call w k'
  | .leave (.error f) => ∃ w k', k = .call w k' ∧ m.hosts.Failing k' f

/-- What the machine knows about host calls is what waits for it. -/
structure CallsMatch (m : Machine) (k : Context) : Prop where
  owners : m.OwnersRecorded
  active : m.hosts.active = k.active
  running : m.hosts.running = k.running
  proper : k.Proper m.hosts.next

namespace Configuration

structure Sound (c : Configuration) : Prop where
  calls : CallsMatch c.machine c.context
  pending : PendingFits c.machine c.context c.activity

def Aborted (c : Configuration) : Prop :=
  ∃ m, c = ended m (.error .stuck) ∨ c = ended m (.error .unfinished)

theorem not_aborted {c : Configuration} (hs : c.activity ≠ .ended (.error .stuck))
    (hu : c.activity ≠ .ended (.error .unfinished)) : ¬ c.Aborted := by
  rintro ⟨m, rfl | rfl⟩
  · exact hs rfl
  · exact hu rfl

end Configuration

open LispMachine.Configuration

variable {α : Type} {m m' : Machine} {k : Context}

theorem CallsMatch.proceeds (h : CallsMatch m k) (hm : Proceeds m m') : CallsMatch m' k where
  owners := h.owners.proceeds hm
  active := hm.hosts ▸ h.active
  running := hm.hosts ▸ h.running
  proper := hm.hosts ▸ h.proper

theorem CallsMatch.of_same (h : CallsMatch m k) (hheap : m'.heap = m.heap)
    (ha : m'.hosts.active = m.hosts.active) (hr : m'.hosts.running = m.hosts.running)
    (hnext : m'.hosts.next = m.hosts.next) : CallsMatch m' k where
  owners := h.owners.of_same hheap
  active := ha ▸ h.active
  running := hr ▸ h.running
  proper := hnext ▸ h.proper

theorem advance_leave_error {w : Waiting} {i : Nat} (hk : (Context.call w k).Proper i)
    (hout : k ≠ .outside) (f : Fault) (m : Machine) :
    advance ⟨m, .call w k, .leave (.error f)⟩ = ⟨m.released w.id, k, .script (.fail f)⟩ := by
  obtain ⟨-, -, houter, hnext, hwait⟩ := hk
  have hinner : w.outermost = false := by
    rw [houter]
    cases k with
    | outside => exact absurd rfl hout
    | _ => rfl
  simp only [advance, left, endWaiting_error_inner hinner]
  cases hw : w.next with
  | none => exact absurd (hwait hw) hout
  | some next => rw [reply, settle, (hnext next hw).1]

/-! ## Operations that leave the host calls alone -/

theorem HostCalls.NonePending.loop (h : m.hosts.NonePending) (k : Context) :
    PendingFits m k .loop :=
  ⟨h.directed k, fun _ => h.escape⟩

theorem HostCalls.NonePending.ret (h : m.hosts.NonePending) (k : Context) : PendingFits m k .ret :=
  ⟨h.returned, h.directed k, fun _ => h.escape, fun he => absurd h.escape he⟩

theorem CallsMatch.settle {next : Except Fault α → Activity} {x : EStateM.Result Stop Machine α}
    (h : CallsMatch m k) (hx : ContinuesTo m x)
    (hok : ∀ a m', x = .ok a m' → m'.hosts = m.hosts → PendingFits m' k (next (.ok a)))
    (hfault : ∀ f m', m'.hosts = m.hosts → PendingFits m' k (next (.error f))) :
    (settle k next x).Sound ∨ (settle k next x).Aborted := by
  match x, hx with
  | .ok a m', hx => exact .inl ⟨h.proceeds hx.toProceeds, hok a m' rfl hx.hosts⟩
  | .error (.fault f) m', hx => exact .inl ⟨h.proceeds hx.toProceeds, hfault f m' hx.hosts⟩
  | .error .stuck m', _ => exact .inr ⟨m', .inl rfl⟩
  | .error .unfinished m', _ => exact .inr ⟨m', .inr rfl⟩

theorem CallsMatch.unlessFault {next : α → Activity} {x : EStateM.Result Stop Machine α}
    (h : CallsMatch m k) (hq : m.hosts.NonePending) (hx : ContinuesTo m x)
    (hnext : ∀ a m', x = .ok a m' → m'.hosts.NonePending → PendingFits m' k (next a)) :
    (Configuration.settle k (.unlessFault next) x).Sound ∨
      (Configuration.settle k (.unlessFault next) x).Aborted := by
  refine h.settle hx (fun a m' ha hm' => hnext a m' ha (hm' ▸ hq)) fun f m' hm' => ?_
  exact NonePending.faulty (hm' ▸ hq) k f

theorem CallsMatch.instruct (h : CallsMatch m k) (hq : m.hosts.NonePending) :
    (instruct m k).Sound ∨ (instruct m k).Aborted := by
  rw [Configuration.instruct]
  split
  next hop =>
    exact h.unlessFault hq (continues_stepWith (by rw [hop]; decide)).1 fun _ _ _ hq' => hq'
  next hop => exact .inl ⟨h.of_same rfl rfl rfl rfl, NonePending.ret (m := m.fetched) hq k⟩
  next hop => exact h.unlessFault hq (continues_stepWith hop).1 fun _ _ _ hq' => hq'.loop k

/-! ## Loops -/

/-- A loop that has to end leaves what is pending to the loops outside of it. -/
theorem HostCalls.Directed.unwind {hosts : HostCalls} {w : Waiting} (h : hosts.Directed (.call w k))
    (he : hosts.escape ≠ none) (hne : hosts.escape ≠ some (.call w.id)) : hosts.Directed k where
  call hid := (List.mem_cons.1 (h.call hid)).resolve_left (by rintro rfl; exact hne hid)
  run := h.run
  returned hid := by
    refine (List.mem_cons.1 (h.returned hid)).resolve_left ?_
    rintro rfl
    rcases h.agree hid with h | h
    · exact he h
    · exact hne h
  agree := h.agree

theorem HostCalls.Directed.pass {hosts : HostCalls} {w : Waiting} (h : hosts.Directed (.call w k))
    (hne : hosts.returned ≠ some w.id) : Directed k { hosts with escape := none } :=
  { h.noEscape with
    call := fun hid => by cases hid
    run := fun hid => by cases hid
    returned := fun hid =>
      (List.mem_cons.1 (h.returned hid)).resolve_left (by rintro rfl; exact hne hid) }

theorem Configuration.Sound.turned (h : CallsMatch m k) (hc : PendingFits m k .loop) :
    (turned m k).Sound ∨ (turned m k).Aborted := by
  obtain ⟨hdir, hnone⟩ := hc
  cases k with
  | outside =>
    exact .inl ⟨h, hnone rfl, hdir.returned_eq_none rfl⟩
  | run =>
    have hq : m.hosts.NonePending := ⟨hnone rfl, hdir.returned_eq_none rfl⟩
    rw [Configuration.turned]
    split
    · exact h.instruct hq
    · exact .inl ⟨⟨h.owners.of_same rfl, h.active, rfl, trivial⟩, hq.1, hq.2⟩
  | call w k =>
    rw [Configuration.turned]
    rcases m.hosts.turn_cases m.runnable w.id with
      ⟨hid, ht⟩ | ⟨he, hne, ht⟩ | ⟨hne, -, ht⟩ | ⟨hid, hrun, ht⟩
    · rw [ht]
      exact .inl ⟨h.of_same rfl rfl rfl rfl, ⟨rfl, rfl⟩, w, k, rfl⟩
    · rw [ht]
      exact .inl ⟨h, w, k, rfl, hdir.unwind he hne⟩
    · rw [ht]
      exact .inl ⟨h.of_same rfl rfl rfl rfl, w, k, rfl, hdir.pass hne⟩
    · rw [ht]
      exact CallsMatch.instruct (m := { m with hosts.escape := none }) (h.of_same rfl rfl rfl rfl)
        ⟨rfl, hid⟩

theorem Configuration.Sound.failed (h : CallsMatch m k) {f : Fault} (hc : m.hosts.Faulty k f) :
    (failed m f k).Sound ∨ (failed m f k).Aborted := by
  obtain ⟨hfail, hout⟩ := hc
  cases k with
  | outside => exact .inl ⟨h, hout rfl, hfail.returned_eq_none rfl⟩
  | run =>
    rw [Configuration.failed]
    split
    next hunwound =>
      rw [Failing, if_pos hunwound.1] at hfail
      exact .inl ⟨h.of_same rfl rfl rfl rfl, hfail.noEscape, fun _ => rfl⟩
    next =>
      exact .inl ⟨⟨h.owners.of_same rfl, h.active, rfl, trivial⟩, rfl, hfail.returned_eq_none rfl⟩
  | call w k =>
    rw [Configuration.failed]
    by_cases hf : f = .unwound
    · rw [if_pos hf]
      rw [Failing, if_pos hf] at hfail
      exact .inl ⟨h, hfail, fun hk => by cases hk⟩
    · rw [if_neg hf]
      rw [Failing, if_neg hf] at hfail
      refine .inl ⟨h, w, k, rfl, ?_⟩
      rwa [Failing, if_neg hf]

/-! ## Calls -/

theorem Machine.OwnersRecorded.leaveMarker (h : m.OwnersRecorded) (cont : Cont) (env : Env) :
    (m.marked cont env).OwnersRecorded where
  procedures := h.procedures
  owned hk hplain := by
    rcases continuation_addContinuation.1 hk with hk | ⟨-, rfl⟩
    · exact ownerOf_mono (fun hk => continuation_addContinuation.2 (.inl hk)) (h.owned hk hplain)
    · exact absurd rfl (hplain m.hosts.next)
  marked hk hid := by
    rcases continuation_addContinuation.1 hk with hk | ⟨-, rfl⟩
    · exact h.marked hk hid
    · cases hid
      rfl

theorem CallsMatch.hosts_released {w : Waiting} (h : CallsMatch m (.call w k)) :
    (m.released w.id).hosts = { m.hosts with active := k.active } := by
  have hactive : m.hosts.active = w.id :: k.active := h.active
  simp [Machine.released, HostCalls.leave, hactive]

theorem CallsMatch.released {w : Waiting} (h : CallsMatch m (.call w k)) :
    CallsMatch (m.released w.id) k := by
  have hleave := h.hosts_released
  exact ⟨h.owners.of_same rfl, by rw [hleave], by rw [hleave]; exact h.running,
    by rw [hleave]; exact h.proper.2.1.mono (Nat.le_of_lt h.proper.1)⟩

section

variable {next : Option (Except Fault Value → Script Outcome)} (hnext : PropagatesReply next)
  (hnone : next = none → k = .outside)

include hnext hnone

theorem Configuration.Sound.reply_ok (h : CallsMatch m k) (hq : m.hosts.NonePending) (v : Value) :
    (reply k next (.ok v m)).Sound := by
  cases next with
  | none =>
    obtain rfl := hnone rfl
    exact ⟨h, hq⟩
  | some script => exact ⟨h, (hnext script rfl).2 v, .inl hq⟩

theorem Configuration.Sound.reply_error (h : CallsMatch m k) {f : Fault} (hf : m.hosts.Faulty k f) :
    (reply k next (.error (.fault f) m)).Sound := by
  cases next with
  | none =>
    obtain rfl := hnone rfl
    exact ⟨h, hf.2 rfl, hf.1.returned_eq_none rfl⟩
  | some script =>
    have hfail := (hnext script rfl).1 f
    refine ⟨h, ?_, .inr ⟨f, hfail, hf⟩⟩
    rw [hfail]
    trivial

theorem Configuration.Sound.begin (h : CallsMatch m k) (hq : m.hosts.NonePending) (callee : Value)
    (args : List Value) :
    (begin k next callee args (beginWaiting next m)).Sound ∨
      (begin k next callee args (beginWaiting next m)).Aborted := by
  rcases beginWaiting_cases next m with ⟨e, m', he, hm', -⟩ | ⟨env, m₁, cont, m₂, -, -, hm₂, hw⟩
  · rw [he]
    have hq' : m'.hosts.NonePending := hm'.hosts ▸ hq
    match e with
    | .fault f =>
      exact .inl (Sound.reply_error hnext hnone (h.proceeds hm'.toProceeds) (hq'.faulty k f))
    | .stuck => exact .inr ⟨m', .inl (by cases next <;> rfl)⟩
    | .unfinished => exact .inr ⟨m', .inr (by cases next <;> rfl)⟩
  · rw [hw]
    have h₂ := h.proceeds hm₂.toProceeds
    have hid : m₂.hosts.next = m.hosts.next := by rw [hm₂.hosts]
    have hq₂ : m₂.hosts.NonePending := hm₂.hosts ▸ hq
    refine .inl ⟨⟨h₂.owners.leaveMarker cont env, ?_, h₂.running, ?_⟩, ⟨hq₂.1, hq₂.2⟩, _, _, rfl⟩
    · exact congrArg₂ List.cons hid h₂.active
    · refine ⟨?_, h.proper, ?_, hnext, hnone⟩
      · change m.hosts.next < m₂.hosts.next + 1
        omega
      · change m.hosts.isIdle = _
        rw [HostCalls.isIdle, h.active, h.running, Context.isOutside_eq]

end

theorem Configuration.Sound.left (h : CallsMatch m k) {outcome : Except Fault Unit}
    (hc : PendingFits m k (.leave outcome)) :
    (left m outcome k).Sound := by
  match outcome, hc with
  | .ok (), ⟨hq, w, k', hk⟩ =>
    subst hk
    obtain ⟨-, -, -, hw, hnone⟩ := h.proper
    change (reply k' w.next (endWaiting w (.ok ()) m)).Sound
    rw [endWaiting_ok]
    refine Sound.reply_ok hw hnone ?_ ?_ _
    · exact h.released.of_same rfl rfl rfl rfl
    · exact ⟨(released_escape m w.id).trans hq.escape, (released_returned m w.id).trans hq.returned⟩
  | .error f, ⟨w, k', hk, hfail⟩ =>
    subst hk
    obtain ⟨-, -, houter, hw, hnone⟩ := h.proper
    change (reply k' w.next (endWaiting w (.error f) m)).Sound
    have hreturned := released_returned m w.id
    have hfail' := hfail.congr (released_escape m w.id) hreturned
    cases ho : w.outermost with
    | false =>
      rw [endWaiting_error_inner ho]
      refine Sound.reply_error hw hnone h.released ⟨hfail', ?_⟩
      rintro rfl
      rw [houter] at ho
      cases ho
    | true =>
      obtain rfl : k' = .outside := by
        rw [houter] at ho
        cases k' <;> first | rfl | cases ho
      rw [endWaiting_error_outer ho]
      split
      next hunwound =>
        rw [Failing, if_pos hunwound.1] at hfail'
        refine Sound.reply_ok hw hnone ?_ ?_ _
        · exact h.released.of_same rfl rfl rfl rfl
        · exact ⟨hfail'.escape_eq_none, rfl⟩
      next =>
        refine Sound.reply_error hw hnone ?_ (NonePending.faulty ?_ ..)
        · exact h.released.of_same rfl rfl rfl rfl
        · exact ⟨rfl, hfail'.returned_eq_none rfl⟩

/-! ## Procedures -/

theorem CallsMatch.handed (h : CallsMatch m k) (r : Ref .continuation) (owner : Option Nat)
    (v : Value) :
    CallsMatch (m.handed r owner v) k := by
  have hnote : (m.handed r owner v).hosts =
      { m.hosts with escape := (m.hosts.noteEntry owner).escape } := m.hosts.noteEntry_eq owner
  exact h.of_same rfl (by rw [hnote]) (by rw [hnote]) (by rw [hnote])

theorem Configuration.Sound.ret_of_handed (h : CallsMatch m k) (hq : m.hosts.NonePending)
    {r : Ref .continuation} {c : Continuation} (hc : m.heap.continuation r = .ok c) (v : Value) :
    PendingFits (m.handed r c.owner v) k .ret := by
  have hreturned : (m.handed r c.owner v).hosts.returned = none :=
    (congrArg HostCalls.returned (m.hosts.noteEntry_eq c.owner)).trans hq.returned
  have hdirected : ∀ {id}, (m.handed r c.owner v).hosts.returned = some id → False := by
    intro id hid
    rw [hreturned] at hid
    cases hid
  have hescape : (m.handed r c.owner v).hosts.escape = (m.hosts.noteEntry c.owner).escape := rfl
  rcases m.hosts.noteEntry_cases c.owner with hn | ⟨hnone, hne, hr, hn⟩ | ⟨id, hid, hmem, hn⟩
  · have hquiet : (m.handed r c.owner v).hosts.NonePending :=
      ⟨by rw [hescape, hn, hq.escape], hreturned⟩
    exact hquiet.ret k
  · rw [hn] at hescape
    refine ⟨hreturned, ⟨?_, ?_, fun h => (hdirected h).elim, fun h => (hdirected h).elim⟩, ?_, ?_⟩
    · intro id hid
      rw [hescape] at hid
      cases hid
    · intro _
      rw [← h.running, hr]
    · intro hnil
      exact absurd (h.active.trans hnil) hne
    · intro _
      refine ⟨r, c, rfl, hc, ?_⟩
      rw [hnone]
      nofun
  · rw [hn] at hescape
    refine ⟨hreturned, ⟨?_, ?_, fun h => (hdirected h).elim, fun h => (hdirected h).elim⟩, ?_, ?_⟩
    · intro id' hid'
      rw [hescape] at hid'
      cases hid'
      exact h.active ▸ hmem
    · intro hrun
      rw [hescape] at hrun
      cases hrun
    · intro hnil
      rw [h.active, hnil] at hmem
      cases hmem
    · intro _
      refine ⟨r, c, rfl, hc, fun id' hid' => ?_⟩
      rw [hid] at hid'
      cases hid'
      exact hescape

theorem Configuration.Sound.handOver (h : CallsMatch m k) (hq : m.hosts.NonePending)
    (r : Ref .continuation) :
    (Configuration.settle k (.unlessFault fun _ => .ret) (handOver r m)).Sound ∨
      (Configuration.settle k (.unlessFault fun _ => .ret) (handOver r m)).Aborted := by
  rcases handOver_cases r m with ⟨e, m', he, hm', -⟩ | ⟨c, v, hc, -, -, ho⟩
  · rw [he]
    exact h.unlessFault (x := .error e m') hq hm' fun _ _ heq => nomatch heq
  · rw [ho]
    exact .inl ⟨h.handed r c.owner v, Sound.ret_of_handed h hq hc v⟩

theorem Machine.enterProcedure_eq_ok {r : Ref .procedure} {s : Script Outcome}
    (h : enterProcedure r m = .ok s m') : ∃ p ∈ m.heap.procedures, p.body = s := by
  obtain ⟨p, m₁, hp, h⟩ := bind_eq_ok h
  obtain ⟨_, m₂, -, h⟩ := bind_eq_ok h
  cases h
  obtain ⟨hp, -⟩ := query_eq_ok hp
  exact ⟨p, Array.mem_of_getElem? (present_eq_ok.1 hp), rfl⟩

theorem Configuration.Sound.applied (h : CallsMatch m k) (hq : m.hosts.NonePending) :
    (applied m k).Sound ∨ (applied m k).Aborted := by
  rw [Configuration.applied]
  split
  next r _ =>
    exact h.unlessFault hq ((maintains_enterClosure r).related m) fun _ _ _ hq' => hq'.loop k
  next r _ => exact Sound.handOver h hq r
  next r _ => exact h.unlessFault hq ((maintains_pickItem _).related m) fun _ _ _ hq' => hq'.ret k
  next r _ =>
    refine h.unlessFault hq ((maintains_enterProcedure r).related m) fun s m' hs hq' =>
      ⟨?_, .inl hq'⟩
    obtain ⟨p, hp, rfl⟩ := enterProcedure_eq_ok hs
    exact h.owners.procedures p hp
  next => exact .inl ⟨h, hq.faulty k _⟩

theorem Configuration.Sound.worked (h : CallsMatch m k) {s : Script Outcome}
    (hc : PendingFits m k (.script s)) :
    (worked m k s).Sound ∨ (worked m k s).Aborted := by
  obtain ⟨hs, hpending⟩ := hc
  -- only a script that has failed already may find something pending
  have hquiet (hne : ∀ f, s ≠ .fail f) : m.hosts.NonePending := by
    rcases hpending with hq | ⟨f, hf, -⟩
    · exact hq
    · exact absurd hf (hne f)
  match s with
  | .done (.value v) => exact .inl ⟨h.of_same rfl rfl rfl rfl, NonePending.ret (hquiet nofun) k⟩
  | .done (.tailCall callee args) =>
    exact h.unlessFault (hquiet nofun) ((maintains_passArguments callee args).related m)
      fun _ _ _ hq' => hq'
  | .fail f =>
    refine .inl ⟨h, ?_⟩
    rcases hpending with hq | ⟨f', hf, hfail⟩
    · exact hq.faulty k f
    · cases hf
      exact hfail
  | .ask q next =>
    have hq := hquiet nofun
    by_cases hcall : ∃ callee args, q = .call callee args
    · obtain ⟨callee, args, rfl⟩ := hcall
      have hnext : PropagatesReply (some next) := by
        rintro _ ⟨⟩
        exact hs
      exact Sound.begin hnext nofun h hq callee args
    · have hne : ∀ callee args, q ≠ .call callee args := fun callee args h =>
        hcall ⟨callee, args, h⟩
      have hnext := hs.of_ask hne
      rw [worked_ask hne]
      exact h.settle ((maintains_answer hne _).related m)
        (fun a m' _ hm' => ⟨hnext (.ok a), .inl (hm' ▸ hq)⟩)
        fun f m' hm' => ⟨hnext (.error f), .inl (hm' ▸ hq)⟩

theorem Configuration.Sound.ret (h : CallsMatch m k) (hc : PendingFits m k .ret) :
    (Configuration.settle k (.unlessFault fun _ => .loop) (Machine.ret m)).Sound ∨
      (Configuration.settle k (.unlessFault fun _ => .loop) (Machine.ret m)).Aborted := by
  obtain ⟨hreturned, hdir, hnil, hentered⟩ := hc
  rcases ret_cases m with hm' | ⟨r, c, id, hcont, hr, hres, hid, hret⟩
  · refine h.settle hm' (fun _ m' _ hm' => ?_) fun f m' hm' => ?_
    · exact ⟨hm' ▸ hdir, hm' ▸ hnil⟩
    · refine ⟨?_, ?_⟩
      · rw [hm', Failing]
        split
        · exact hdir
        · exact hreturned
      · rintro rfl
        rw [hm']
        exact hnil rfl
  · rw [hret]
    left
    refine ⟨h.of_same rfl rfl rfl rfl, ⟨hdir.call, hdir.run, ?_, ?_⟩, hnil⟩
    · intro id' hid'
      cases hid'
      exact h.active ▸ hid
    · intro id' hid'
      cases hid'
      by_cases he : m.hosts.escape = none
      · exact .inl he
      · obtain ⟨r', c', hcont', hr', howner⟩ := hentered he
        cases hcont.symm.trans hcont'
        cases hr.symm.trans hr'
        exact .inr (howner id (h.owners.marked hr hres))

theorem Configuration.Sound.advance {c : Configuration} (h : c.Sound) :
    c.advance.Sound ∨ c.advance.Aborted := by
  obtain ⟨m, k, activity⟩ := c
  obtain ⟨hcalls, hpending⟩ := h
  cases activity with
  | loop => exact Sound.turned hcalls hpending
  | enter callee args =>
    obtain ⟨hq, w, k', rfl⟩ := hpending
    refine hcalls.settle ((maintains_passArguments callee args).related m) (fun _ m' _ hm' => ?_) ?_
    · change m'.hosts.NonePending
      exact hm' ▸ hq
    · intro f m' hm'
      exact ⟨w, k', rfl, NonePending.failing (hm' ▸ hq) k' f⟩
  | apply => exact Sound.applied hcalls hpending
  | script s => exact Sound.worked hcalls hpending
  | ret => exact Sound.ret hcalls hpending
  | fault f => exact Sound.failed hcalls hpending
  | leave outcome => exact .inl (Sound.left hcalls hpending)
  | ended o => exact .inl ⟨hcalls, hpending⟩

theorem Configuration.Aborted.advance {c : Configuration} (h : c.Aborted) : c.advance = c := by
  obtain ⟨m, rfl | rfl⟩ := h <;> rfl

/-- As long as the machine has not stopped for good, the host calls stay in order. -/
theorem Configuration.Sound.reaches {c c' : Configuration} (h : c.Sound) (hc : Reaches c c')
    (hc' : ¬ c'.Aborted) :
    c'.Sound := by
  obtain ⟨n, rfl⟩ := hc
  induction n generalizing c with
  | zero => exact h
  | succ n ih =>
    rw [Function.iterate_succ_apply] at hc' ⊢
    rcases h.advance with h | h
    · exact ih h hc'
    · rw [Function.iterate_fixed (Aborted.advance h)] at hc'
      exact absurd h hc'

end LispMachine
