import LispMachine.Proofs.Control.Contract
import LispMachine.Proofs.Simulation.Operands

/-! # Escapes

A continuation that belongs to an outer loop ends all the calls inside of it. No instruction is
executed on the way, and the loop that owns the continuation goes on where the continuation says.
-/

namespace LispMachine

open Machine LispMachine.Configuration

/-- The first host call through which a continuation returns, found by following it. -/
inductive NearestMarker (h : Heap) : Cont → Option Nat → Prop
  | none : NearestMarker h .empty none
  | here {r : Ref .continuation} {k : Continuation} {id : Nat} : h.continuation r = .ok k →
      k.resume = .host id → NearestMarker h (.onHeap r) (some id)
  | further {r : Ref .continuation} {k : Continuation} {o : Option Nat} : h.continuation r = .ok k →
      k.IsPlain → NearestMarker h k.prev o → NearestMarker h (.onHeap r) o

namespace Context

/-- The calls in `above` wait inside of `k`, the first one innermost. -/
def around (k : Context) (above : List Waiting) : Context := above.foldr call k

def loop : Context → Option Loop
  | outside => none
  | run => some .run
  | call w _ => some (.call w.id)

def innermost : Context → Option Nat
  | call w _ => some w.id
  | _ => none

@[simp] theorem around_nil (k : Context) : k.around [] = k := rfl

@[simp] theorem around_cons (k : Context) (w : Waiting) (above : List Waiting) :
    k.around (w :: above) = call w (k.around above) := rfl

theorem active_around (k : Context) (above : List Waiting) :
    (k.around above).active = above.map Waiting.id ++ k.active := by
  induction above with
  | nil => rfl
  | cons w above ih => rw [around_cons, active, ih, List.map_cons, List.cons_append]

theorem running_around (k : Context) (above : List Waiting) :
    (k.around above).running = k.running := by
  induction above with
  | nil => rfl
  | cons w above ih => exact ih

theorem innermost_eq_head? (k : Context) : k.innermost = k.active.head? := by
  cases k <;> rfl

theorem mem_active_around {k : Context} {id : Nat} (h : k.innermost = some id)
    (above : List Waiting) :
    id ∈ (k.around above).active := by
  rw [active_around]
  refine List.mem_append_right _ ?_
  rw [innermost_eq_head?] at h
  exact List.mem_of_head? h

theorem loop_ne_none {k : Context} (hk : k ≠ .outside) : k.loop ≠ none := by
  cases k with
  | outside => exact absurd rfl hk
  | _ => nofun

theorem Proper.loop_ne {k : Context} {i : Nat} {above : List Waiting}
    (h : (k.around above).Proper i) : k.loop ≠ some (.call i) := by
  cases k with
  | call w k =>
    have hlt : w.id < i := h.lt (mem_active_around rfl above)
    intro hloop
    exact Nat.ne_of_lt hlt (Loop.call.inj (Option.some.inj hloop))
  | _ => nofun

theorem around_eq_run {k : Context} {above : List Waiting} (h : k.around above = .run) :
    above = [] ∧ k = .run := by
  cases above with
  | nil => exact ⟨rfl, h⟩
  | cons w above => nomatch (show Context.call w (k.around above) = .run from h)

theorem around_ne_outside {k : Context} (hk : k ≠ .outside) (above : List Waiting) :
    k.around above ≠ .outside := by
  cases above with
  | nil => exact hk
  | cons w above => nofun

end Context

def Configuration.Dispatches (c : Configuration) : Prop :=
  c.activity = .loop ∧
    match c.context with
    | .call w _ => (c.machine.hosts.turn c.machine.runnable w.id).1 = .step
    | .run => c.machine.runnable = true
    | .outside => False

/-- In the next `n` steps only the host calls change, and no instruction is executed. -/
structure Configuration.Unwinds (n : Nat) (c : Configuration) : Prop where
  same : ∀ j ≤ n, SameButHosts c.machine (advance^[j] c).machine
  idle : ∀ j < n, ¬ (advance^[j] c).Dispatches

variable {m t : Machine} {k owner : Context} {c : Configuration}

theorem SameButHosts.trans {m m' m'' : Machine} (h : SameButHosts m m') (h' : SameButHosts m' m'') :
    SameButHosts m m'' := by
  unfold SameButHosts at h h' ⊢
  rw [h', h]

theorem Configuration.Unwinds.append {i j : Nat} (h : Unwinds i c)
    (h' : Unwinds j (advance^[i] c)) :
    Unwinds (i + j) c where
  same n hn := by
    rcases Nat.le_total n i with hni | hin
    · exact h.same n hni
    · obtain ⟨d, rfl⟩ := Nat.exists_eq_add_of_le' hin
      rw [Function.iterate_add_apply]
      exact (h.same i le_rfl).trans (h'.same d (by omega))
  idle n hn := by
    rcases Nat.lt_or_ge n i with hni | hin
    · exact h.idle n hni
    · obtain ⟨d, rfl⟩ := Nat.exists_eq_add_of_le' hin
      rw [Function.iterate_add_apply]
      exact h'.idle d (by omega)

/-! ## Owners -/

/-- Every continuation knows the call through which it returns first. -/
theorem Machine.OwnersRecorded.ownerOf_eq (hm : m.OwnersRecorded) {cont : Cont} {o : Option Nat}
    (h : NearestMarker m.heap cont o) : m.ownerOf cont = .ok o := by
  induction h with
  | none => rfl
  | @here r k id hk hid =>
    simp only [ownerOf, hk]
    exact congrArg Except.ok (hm.marked hk hid)
  | @further r k o hk hplain _ ih =>
    simp only [ownerOf, hk]
    exact (hm.owned hk hplain).symm.trans ih

theorem Machine.OwnersRecorded.owner_eq (hm : m.OwnersRecorded) {r : Ref .continuation}
    {o : Continuation} {id : Option Nat} (ho : m.heap.continuation r = .ok o)
    (h : NearestMarker m.heap (.onHeap r) id) : o.owner = id := by
  have howner := hm.ownerOf_eq h
  simp only [ownerOf, ho] at howner
  exact Except.ok.inj howner

theorem HostCalls.noteEntry_head {hosts : HostCalls} {id : Option Nat}
    (h : hosts.active.head? = id) : hosts.noteEntry id = hosts := by
  rw [noteEntry.eq_def, if_pos h.symm]

theorem HostCalls.escape_noteEntry {hosts : HostCalls} {w : Waiting} {above : List Waiting}
    (hk : (owner.around (w :: above)).Proper hosts.next)
    (ha : hosts.active = (owner.around (w :: above)).active)
    (hr : hosts.running = (owner.around (w :: above)).running) (howner : owner ≠ .outside) :
    (hosts.noteEntry owner.innermost).escape = owner.loop := by
  rw [Context.around_cons, Context.active] at ha
  rw [Context.running_around] at hr
  cases owner with
  | outside => exact absurd rfl howner
  | run =>
    change (hosts.noteEntry none).escape = some .run
    rw [noteEntry, if_neg (by rw [ha]; nofun)]
    exact congrArg HostCalls.escape (if_pos hr)
  | call w₀ k =>
    have hmem : w₀.id ∈ ((Context.call w₀ k).around above).active :=
      Context.mem_active_around rfl above
    have hlt : w₀.id < w.id := hk.2.1.lt hmem
    change (hosts.noteEntry (some w₀.id)).escape = some (.call w₀.id)
    rw [noteEntry, if_neg]
    · refine congrArg HostCalls.escape (if_pos ?_)
      rw [ha]
      exact List.mem_cons_of_mem _ hmem
    · rw [ha]
      exact fun heq => Nat.ne_of_lt hlt (Option.some.inj heq)

/-! ## Restoring -/

namespace Machine

def SameAcc (m m' : Machine) : Prop := m'.acc = m.acc

instance : StackBlind SameAcc where
  refl _ := rfl
  trans _ _ _ h h' := h'.trans h
  cells _ _ _ := rfl
  frame _ _ := rfl
  continuation _ _ := rfl
  registers _ _ _ _ _ := rfl

instance : PointerBlind SameAcc where
  pointer _ _ := rfl

/-- The stack has room for `n` values, if need be after it has been cleared. -/
def HasRoom (n : Nat) (m : Machine) : Prop := ∃ m', makeRoom n .stackOverflow m = .ok () m'

theorem HasRoom.resumeCode {k : Continuation} (h : m.HasRoom k.saved.size) (ip : Nat) :
    ∃ m', resumeCode k ip m = .ok () m' := by
  obtain ⟨m₁, hm₁⟩ := h
  have hfit : m₁.sp + k.saved.toList.length ≤ m₁.capacity := by
    rw [Array.length_toList]
    exact makeRoom_eq_ok hm₁
  have hpush := pushAll_room (m := { m₁ with bp := m₁.sp }) hfit
  rw [Machine.resumeCode, bind_ok hm₁, modify_bind_apply, bind_ok hpush]
  exact ⟨_, rfl⟩

/-- A continuation can be returned through, if there is room for what it has saved and the host call
that it may return to is in progress. The result is what it was, and no escape is noted. -/
theorem HasRoom.ret {r : Ref .continuation} {k : Continuation} (hcont : m.cont = .onHeap r)
    (hk : m.heap.continuation r = .ok k) (h : m.HasRoom k.saved.size)
    (hid : ∀ id, k.resume = .host id → id ∈ m.hosts.active) :
    ∃ m', ret m = .ok () m' ∧ m'.acc = m.acc ∧ m'.hosts.escape = m.hosts.escape := by
  rw [ret_of_onHeap hcont]
  cases hres : k.resume with
  | halt => exact ⟨_, resume_halt hk hres, rfl, rfl⟩
  | host id => exact ⟨_, (resume_host hk hres).trans (if_pos (hid id hres)), rfl, rfl⟩
  | code ip =>
    obtain ⟨m', hm'⟩ := h.resumeCode ip
    have hacc : SameAcc m m' := (maintains_resumeCode k ip).ok hm'
    have hm : Proceeds m m' := (maintains_resumeCode k ip).ok hm'
    exact ⟨m', (resume_code hk hres).trans hm', hacc, congrArg HostCalls.escape hm.hosts⟩

end Machine

/-! ## Unwinding -/

/-- A call ends when an escape leads further out, and the host procedure that waits for it fails. -/
theorem unwind_steps {w : Waiting} (h : (⟨t, .call w k, .loop⟩ : Configuration).Sound)
    (hk : k ≠ .outside) (hesc : t.hosts.escape ≠ none) (hne : t.hosts.escape ≠ some (.call w.id)) :
    advance ⟨t, .call w k, .loop⟩ = ⟨t, .call w k, .leave (.error .unwound)⟩ ∧
    endWaiting w (.error .unwound) t = .error (.fault .unwound) (t.released w.id) ∧
    advance^[2] ⟨t, .call w k, .loop⟩ = ⟨t.released w.id, k, .script (.fail .unwound)⟩ ∧
    advance^[3] ⟨t, .call w k, .loop⟩ = ⟨t.released w.id, k, .fault .unwound⟩ ∧
    advance^[4] ⟨t, .call w k, .loop⟩ = failed (t.released w.id) .unwound k := by
  have hinner : w.outermost = false := by
    rw [h.calls.proper.2.2.1]
    cases k with
    | outside => exact absurd rfl hk
    | _ => rfl
  have hturn : t.hosts.turn t.runnable w.id = (.unwind, t.hosts) := by
    rw [HostCalls.turn, if_pos ⟨hesc, hne⟩]
  have h₁ : advance ⟨t, .call w k, .loop⟩ = ⟨t, .call w k, .leave (.error .unwound)⟩ := by
    simp only [advance, turned, hturn]
  have hend := endWaiting_error_inner hinner .unwound t
  have h₂ : advance ⟨t, .call w k, .leave (.error .unwound)⟩ =
      ⟨t.released w.id, k, .script (.fail .unwound)⟩ :=
        advance_leave_error h.calls.proper hk .unwound t
  refine ⟨h₁, hend, ?_, ?_, ?_⟩
  · rw [Function.iterate_succ_apply, h₁]
    exact h₂
  · rw [Function.iterate_succ_apply, h₁, Function.iterate_succ_apply, h₂]
    rfl
  · rw [Function.iterate_succ_apply, h₁, Function.iterate_succ_apply, h₂]
    rfl

/-- The call of `w` comes to an end within `n` steps, because it is unwound. -/
def Configuration.EndsUnwound (n : Nat) (c : Configuration) (w : Waiting) : Prop :=
  ∃ j < n, ∃ m k m', advance^[j] c = ⟨m, .call w k, .leave (.error .unwound)⟩ ∧
    endWaiting w (.error .unwound) m = .error (.fault .unwound) m'

theorem Configuration.EndsUnwound.mono {i j : Nat} {w : Waiting} (h : EndsUnwound i c w)
    (hij : i ≤ j) :
    EndsUnwound j c w := by
  obtain ⟨n, hn, hw⟩ := h
  exact ⟨n, by omega, hw⟩

theorem Configuration.EndsUnwound.append {i j : Nat} {w : Waiting}
    (h : EndsUnwound j (advance^[i] c) w) : EndsUnwound (i + j) c w := by
  obtain ⟨n, hn, m, k, m', hm, hend⟩ := h
  refine ⟨n + i, by omega, m, k, m', ?_, hend⟩
  rw [Function.iterate_add_apply, hm]

def Machine.landed (t : Machine) (owner : Context) (escape : Option Loop) : Machine :=
  { t with hosts := { t.hosts with active := owner.active, escape } }

theorem unwind_call {w : Waiting} (h : (⟨t, .call w k, .loop⟩ : Configuration).Sound)
    (hk : k ≠ .outside) (hesc : t.hosts.escape ≠ none) (hne : t.hosts.escape ≠ some (.call w.id))
    (hrun : k = .run → t.hosts.escape = some .run) :
    ∃ e, advance^[4] ⟨t, .call w k, .loop⟩ = ⟨t.landed k e, k, .loop⟩ ∧
      (e = t.hosts.escape ∨ k = .run ∧ e = none) ∧
      Unwinds 4 ⟨t, .call w k, .loop⟩ ∧ EndsUnwound 4 ⟨t, .call w k, .loop⟩ w := by
  obtain ⟨h₁, hend, h₂, h₃, h₄⟩ := unwind_steps h hk hesc hne
  have hreleased : t.released w.id = t.landed k t.hosts.escape := by
    rw [landed, ← h.calls.hosts_released]
    rfl
  obtain ⟨e, h₄', he⟩ : ∃ e, failed (t.released w.id) .unwound k = ⟨t.landed k e, k, .loop⟩ ∧
      (e = t.hosts.escape ∨ k = .run ∧ e = none) := by
    rw [hreleased]
    cases k with
    | outside => exact absurd rfl hk
    | run => exact ⟨none, if_pos ⟨rfl, .inr (hrun rfl)⟩, .inr ⟨rfl, rfl⟩⟩
    | call w' k => exact ⟨_, rfl, .inl rfl⟩
  refine ⟨e, h₄.trans h₄', he, ⟨fun j hj => ?_, fun j hj => ?_⟩, 1, by omega, t, k, _, h₁, hend⟩
  · obtain rfl | rfl | rfl | rfl | rfl : j = 0 ∨ j = 1 ∨ j = 2 ∨ j = 3 ∨ j = 4 := by omega
    · rfl
    · rw [Function.iterate_one, h₁]; rfl
    · rw [h₂]; rfl
    · rw [h₃]; rfl
    · rw [h₄, h₄']; rfl
  · obtain rfl | rfl | rfl | rfl : j = 0 ∨ j = 1 ∨ j = 2 ∨ j = 3 := by omega
    · rintro ⟨-, hstep⟩
      change (t.hosts.turn t.runnable w.id).1 = .step at hstep
      rw [HostCalls.turn, if_pos ⟨hesc, hne⟩] at hstep
      cases hstep
    · rw [Function.iterate_one, h₁]; exact fun h => by cases h.1
    · rw [h₂]; exact fun h => by cases h.1
    · rw [h₃]; exact fun h => by cases h.1

/-- An escape ends all calls inside of the loop that it leads to, and nothing else happens. -/
theorem unwind_calls (howner : owner ≠ .outside) (above : List Waiting)
    (h : (⟨t, owner.around above, .loop⟩ : Configuration).Sound)
    (hesc : above ≠ [] → t.hosts.escape = owner.loop) :
    ∃ e, advance^[4 * above.length] ⟨t, owner.around above, .loop⟩ =
      ⟨t.landed owner e, owner, .loop⟩ ∧ (e = t.hosts.escape ∨ owner = .run ∧ e = none) ∧
      Unwinds (4 * above.length) ⟨t, owner.around above, .loop⟩ ∧
      ∀ w ∈ above, EndsUnwound (4 * above.length) ⟨t, owner.around above, .loop⟩ w := by
  induction above generalizing t with
  | nil =>
    refine ⟨t.hosts.escape, ?_, .inl rfl, ⟨fun j hj => ?_, fun j hj => ?_⟩, nofun⟩
    · have hactive : t.hosts.active = owner.active := h.calls.active
      rw [landed, ← hactive]
      rfl
    · obtain rfl : j = 0 := by simpa using hj
      rfl
    · exact absurd hj (Nat.not_lt_zero j)
  | cons w above ih =>
    rw [Context.around_cons] at h ⊢
    have hesc' : t.hosts.escape = owner.loop := hesc nofun
    have houter := Context.around_ne_outside howner above
    have hproper : (owner.around above).Proper w.id := h.calls.proper.2.1
    obtain ⟨e, h₄, he, hun, hends⟩ := unwind_call h houter
      (by rw [hesc']; exact Context.loop_ne_none howner) (by rw [hesc']; exact hproper.loop_ne)
      (fun hrun => by rw [hesc', (Context.around_eq_run hrun).2]; rfl)
    have h' :
        (⟨t.landed (owner.around above) e, owner.around above, .loop⟩ : Configuration).Sound :=
      h.reaches ⟨4, h₄⟩ (not_aborted nofun nofun)
    obtain ⟨e', hn, he', huns, hend⟩ := ih h' (by
      intro hne
      rcases he with he | ⟨hrun, -⟩
      · exact he.trans hesc'
      · exact absurd (Context.around_eq_run hrun).1 hne)
    have hlen : 4 * (w :: above).length = 4 + 4 * above.length := by
      rw [List.length_cons]
      omega
    refine ⟨e', ?_, ?_, ?_, ?_⟩
    · rw [hlen, Nat.add_comm, Function.iterate_add_apply, h₄, hn]
      rfl
    · rcases he' with rfl | he'
      · exact he.imp_right fun he => ⟨(Context.around_eq_run he.1).2, he.2⟩
      · exact .inr he'
    · rw [hlen]
      exact hun.append (by rw [h₄]; exact huns)
    · rw [hlen]
      intro w' hw'
      rcases List.mem_cons.1 hw' with rfl | hw'
      · exact hends.mono (by omega)
      · refine EndsUnwound.append ?_
        rw [h₄]
        exact hend w' hw'

/-! ## Landing -/

theorem HostCalls.turn_own_escape (hosts : HostCalls) (runnable : Bool) (id : Nat) :
    ({ hosts with escape := some (.call id) } : HostCalls).turn runnable id =
      ({ hosts with escape := none } : HostCalls).turn runnable id := by
  simp [turn]

/-- In the loop that owns the escape, it is as if none had been noted. -/
theorem advance_landed {e : Option Loop}
    (he : e = none ∨ ∃ w k, owner = .call w k ∧ e = some (.call w.id)) :
    advance ⟨t.landed owner e, owner, .loop⟩ = advance ⟨t.landed owner none, owner, .loop⟩ := by
  rcases he with rfl | ⟨w, k, rfl, rfl⟩
  · rfl
  · have hturn := HostCalls.turn_own_escape { t.hosts with active := (Context.call w k).active }
      t.runnable w.id
    simp only [advance, turned, landed, hturn]

theorem advance_handOver {r : Ref .continuation} {o : Continuation} {v : Value}
    (hacc : m.acc = .continuation r) (ho : m.heap.continuation r = .ok o) (hargc : m.argc = 1)
    (htop : m.top? = some v) (k : Context) :
    advance ⟨m, k, .apply⟩ = ⟨m.handed r o.owner v, k, .ret⟩ := by
  simp only [advance, applied, hacc, handOver_ok ho hargc htop]
  rfl

theorem advance_apply_continuation {r : Ref .continuation} {o : Continuation} {v : Value}
    (hacc : m.acc = .continuation r) (ho : m.heap.continuation r = .ok o) (hargc : m.argc = 1)
    (htop : m.top? = some v) (ht : ret (m.handed r o.owner v) = .ok () t) (k : Context) :
    enterContinuation r m = .ok () t ∧ advance^[2] ⟨m, k, .apply⟩ = ⟨t, k, .loop⟩ := by
  constructor
  · rw [enterContinuation_eq, bind_ok (handOver_ok ho hargc htop), ht]
  · rw [Function.iterate_succ_apply, advance_handOver hacc ho hargc htop, Function.iterate_one]
    simp only [advance, ht]
    rfl

/-- If a continuation is applied to a value, every call inside of the loop that owns it ends at
once. Meanwhile no instruction is executed and nothing changes but the host calls. The loop that
owns it goes on where the continuation says, with the value as the result, and what the machine is
asked to do has the result that comes of it. -/
theorem Used.escape_lands {old : Nat} {m₀ : Machine} {task : Task} {above : List Waiting}
    {r : Ref .continuation} {o : Continuation} {v : Value} (h₀ : Used old m₀)
    (hreach : Reaches (task.start m₀) ⟨m, owner.around above, .apply⟩) (howner : owner ≠ .outside)
    (hacc : m.acc = .continuation r) (ho : m.heap.continuation r = .ok o) (hargc : m.argc = 1)
    (htop : m.top? = some v) (hmarker : NearestMarker m.heap (.onHeap r) owner.innermost)
    (hroom : (m.handed r owner.innermost v).HasRoom o.saved.size) :
    ∃ t e, enterContinuation r m = .ok () t ∧ t.acc = v ∧
      advance^[2] ⟨m, owner.around above, .apply⟩ = ⟨t, owner.around above, .loop⟩ ∧
      Unwinds (4 * above.length) ⟨t, owner.around above, .loop⟩ ∧
      (∀ w ∈ above, EndsUnwound (4 * above.length) ⟨t, owner.around above, .loop⟩ w) ∧
      advance^[4 * above.length] ⟨t, owner.around above, .loop⟩ = ⟨t.landed owner e, owner, .loop⟩ ∧
      advance ⟨t.landed owner e, owner, .loop⟩ = advance ⟨t.landed owner none, owner, .loop⟩ ∧
      ∀ result, (∀ m', result ≠ .error .unfinished m') →
        ((∃ n, task.exec n m₀ = result) ↔
          Reaches ⟨t.landed owner none, owner, .loop⟩ (conclude result)) := by
  have hsound := h₀.resting.sound hreach (not_aborted nofun nofun)
  have hactive : m.hosts.active = (owner.around above).active := hsound.calls.active
  have hrunning : m.hosts.running = (owner.around above).running := hsound.calls.running
  have hkept : o.owner = owner.innermost := hsound.calls.owners.owner_eq ho hmarker
  obtain ⟨t, ht, hv, hesc⟩ := HasRoom.ret (m := m.handed r owner.innermost v) rfl ho hroom (by
    intro id hid
    have hid' : owner.innermost = some id := hkept ▸ hsound.calls.owners.marked ho hid
    have hsame : (m.hosts.noteEntry owner.innermost).active = m.hosts.active := by
      rw [HostCalls.noteEntry_eq]
    exact (hsame.trans hactive) ▸ Context.mem_active_around hid' above)
  obtain ⟨henter, h₂⟩ :=
    advance_apply_continuation hacc ho hargc htop (hkept ▸ ht) (owner.around above)
  have hsound' := hsound.reaches ⟨2, h₂⟩ (not_aborted nofun nofun)
  have hnoted : above ≠ [] → t.hosts.escape = owner.loop := by
    intro hne
    obtain ⟨w, above, rfl⟩ := List.exists_cons_of_ne_nil hne
    exact hesc.trans (HostCalls.escape_noteEntry hsound.calls.proper hactive hrunning howner)
  obtain ⟨e, hland, he, hunwinds, hends⟩ := unwind_calls howner above hsound' hnoted
  have hpending := (hsound'.reaches ⟨_, hland⟩ (not_aborted nofun nofun)).pending.2
  have hland' :
      advance ⟨t.landed owner e, owner, .loop⟩ = advance ⟨t.landed owner none, owner, .loop⟩ := by
    refine advance_landed ?_
    cases owner with
    | outside => exact absurd rfl howner
    | run => exact .inl (hpending rfl)
    | call w k =>
      obtain rfl : e = t.hosts.escape := he.resolve_right (fun h => nomatch h.1)
      cases above with
      | nil =>
        have hown : m.hosts.noteEntry (some w.id) = m.hosts :=
          m.hosts.noteEntry_head (congrArg List.head? hactive)
        exact .inl (hesc.trans ((congrArg HostCalls.escape hown).trans hsound.pending.escape))
      | cons w' above => exact .inr ⟨w, k, rfl, hnoted nofun⟩
  refine ⟨t, e, henter, hv, h₂, hunwinds, hends, hland, hland', fun result hresult => ?_⟩
  have hreach' : Reaches (task.start m₀) (advance ⟨t.landed owner none, owner, .loop⟩) := by
    rw [← hland', ← hland]
    exact ((hreach.trans ⟨2, h₂⟩).trans ⟨_, rfl⟩).trans (.advance _)
  rw [Task.exec_iff_reaches hresult, hreach'.over_iff Task.over_conclude]
  exact ((Reaches.advance _).over_iff Task.over_conclude).symm

def Configuration.appliesInCall : Configuration → Bool
  | ⟨_, .call _ .run, .apply⟩ => true
  | _ => false

theorem Configuration.eq_of_appliesInCall (h : c.appliesInCall = true) :
    ∃ w, c = ⟨c.machine, Context.run.around [w], .apply⟩ := by
  unfold appliesInCall at h
  split at h
  next m w => exact ⟨w, rfl⟩
  · cases h

theorem Machine.escaping_lands : let m₀ := escaping #[0x4c, 2, 0x14]
    ∃ w m t e, Reaches (Task.run.start m₀) ⟨m, Context.run.around [w], .apply⟩ ∧
      enterContinuation ⟨0⟩ m = .ok () t ∧ t.acc = .fixnum 7 ∧
      advance^[4] ⟨t, Context.run.around [w], .loop⟩ = ⟨t.landed .run e, .run, .loop⟩ := by
  intro m₀
  let c := advance^[7] (Task.run.start m₀)
  obtain ⟨w, hw⟩ := eq_of_appliesInCall (c := c) (by decide +kernel)
  have hreach : Reaches (Task.run.start m₀) ⟨c.machine, Context.run.around [w], .apply⟩ := ⟨7, hw⟩
  have ho : c.machine.heap.continuation ⟨0⟩ = .ok (.toCode 2) := by decide +kernel
  have htop : c.machine.top? = some (.fixnum 7) := by decide +kernel
  obtain ⟨t, e, henter, hv, -, -, -, hland, -⟩ := (used_escaping _).escape_lands hreach nofun
    (by decide +kernel) ho (by decide +kernel) htop (.further ho (fun _ => nofun) .none)
    ⟨_, makeRoom_of_room (by decide +kernel)⟩
  exact ⟨w, c.machine, t, e, hreach, henter, hv, hland⟩

end LispMachine
