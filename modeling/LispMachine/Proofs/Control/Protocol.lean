import LispMachine.Proofs.Control.Adequacy
import LispMachine.Proofs.Control.Stable

/-! # The protocol of host calls

What the few operations do that have to do with host calls: beginning and ending a call, a loop
taking its turn, entering a continuation and returning.
-/

namespace LispMachine

open Machine

open Fault (isControl isUnwound)

variable {m m' : Machine}

/-! ## Returning -/

namespace Machine

def halted (m : Machine) : Machine := { m with runnable := false }

def handedBack (m : Machine) (k : Continuation) (id : Nat) : Machine :=
  { m with env := k.env, cont := k.prev, hosts.returned := some id }

def returnThrough (c : Nat) : Exec Unit := do
  let p ← query (·.returnPoint c)
  let env ← query (·.resolve p.env)
  let sp := (← get).sp
  let base ← query fun _ => distance c 4
  modify ({ · with env, ip := p.ip, bp := p.bp, cont := p.prev, sp := base })
  clearCells base sp

def resumeCode (k : Continuation) (ip : Nat) : Exec Unit := do
  makeRoom k.saved.size .stackOverflow
  modify fun m => { m with bp := m.sp }
  pushAll k.saved.toList
  modify ({ · with ip, env := k.env, cont := k.prev })

theorem ret_of_onStack {c : Nat} (hcont : m.cont = .onStack c) : ret m = returnThrough c m := by
  simp only [ret, get_bind_apply, hcont]
  rfl

theorem resume_code {r : Ref .continuation} {k : Continuation} {ip : Nat}
    (hk : m.heap.continuation r = .ok k) (hres : k.resume = .code ip) :
    resume r m = resumeCode k ip m := by
  rw [resume, query_bind_ok hk, hres]
  rfl

section

variable {bad : Fault → Bool} {R : Machine → Machine → Prop} [StackBlind R] [PointerBlind R]

theorem maintains_place {g : Machine → Machine}
    (hsame : ∀ m hosts runnable, g { m with hosts, runnable } = { g m with hosts, runnable })
    (hg : ∀ m, g m = { m with
      sp := (g m).sp, bp := (g m).bp, env := (g m).env, cont := (g m).cont, ip := (g m).ip }) :
    Maintains bad R (modify g) := by
  refine maintains_modify hsame fun m => ?_
  have hplace :
      R m { m with sp := (g m).sp, bp := (g m).bp, env := (g m).env, cont := (g m).cont } :=
    StackBlind.registers ..
  rw [hg m]
  exact trans_of R hplace (PointerBlind.pointer _ (g m).ip)

theorem maintains_returnThrough (c : Nat) : Maintains isControl R (returnThrough c) := by
  refine (maintains_query (fun _ _ _ => rfl) fun m => m.avoids_returnPoint c).bind fun p => ?_
  refine (maintains_query (fun _ _ _ => rfl) fun m => m.avoids_resolve p.env).bind fun env => ?_
  refine .get (fun _ _ _ => rfl) fun m => (maintains_distance c 4).bind fun base => ?_
  refine .bind ?_ fun _ => maintains_clearCells base m.sp
  exact maintains_place (fun _ _ _ => rfl) fun _ => rfl

theorem maintains_resumeCode (k : Continuation) (ip : Nat) :
    Maintains isControl R (resumeCode k ip) := by
  refine (maintains_makeRoom _ rfl).bind fun _ => .bind ?_ fun _ => ?_
  · exact maintains_registers (fun _ _ _ => rfl) fun _ => rfl
  · refine (maintains_pushAll _).bind fun _ => ?_
    exact maintains_place (fun _ _ _ => rfl) fun _ => rfl

end

/-- A return halts the machine, fails at once, hands a result to a host call, or goes on in the
code. -/
theorem ret_ways (m : Machine) :
    ret m = .ok () m.halted ∨
    (∃ s, ret m = .error s m ∧ ∀ f, s = .fault f → f.isControl = false) ∨
    (∃ r k id, m.cont = .onHeap r ∧ m.heap.continuation r = .ok k ∧ k.resume = .host id ∧
      id ∈ m.hosts.active ∧ ret m = .ok () (m.handedBack k id)) ∨
    ∃ x : Exec Unit, ret m = x m ∧
      ∀ (R : Machine → Machine → Prop) [StackBlind R] [PointerBlind R],
        Maintains isControl R x := by
  cases hc : m.cont with
  | empty => exact .inl (ret_of_empty hc)
  | onStack c =>
    exact .inr (.inr (.inr ⟨_, ret_of_onStack hc, fun R _ _ => maintains_returnThrough c⟩))
  | onHeap r =>
    rw [ret_of_onHeap hc]
    cases hk : m.heap.continuation r with
    | error e =>
      refine .inr (.inl ⟨e, ?_, fun f he => avoids_present _ f (he ▸ hk)⟩)
      rw [resume, query_bind_error hk]
    | ok k =>
      cases hres : k.resume with
      | halt => exact .inl (resume_halt hk hres)
      | host id =>
        rw [resume_host hk hres]
        split
        next hid => exact .inr (.inr (.inl ⟨r, k, id, rfl, hk, hres, hid, rfl⟩))
        next =>
          refine .inr (.inl ⟨_, rfl, fun f hf => ?_⟩)
          cases hf
          rfl
      | code ip =>
        exact .inr (.inr (.inr ⟨_, resume_code hk hres, fun R _ _ => maintains_resumeCode k ip⟩))

/-- The place where a return goes on was found when the return point was made. -/
theorem isControl_of_ret {f : Fault} (h : ret m = .error (.fault f) m') : f.isControl = false := by
  rcases ret_ways m with hret | ⟨s, hret, hs⟩ | ⟨r, k, id, -, -, -, -, hret⟩ | ⟨x, hret, hx⟩
  · cases hret.symm.trans h
  · cases hret.symm.trans h
    exact hs f rfl
  · cases hret.symm.trans h
  · exact (hx Continues).avoids (hret.symm.trans h)

theorem ret_ne_unwound (m m' : Machine) : ret m ≠ .error (.fault .unwound) m' := by
  intro h
  cases isControl_of_ret h

theorem ret_cases (m : Machine) :
    ContinuesTo m (ret m) ∨
    ∃ r k id, m.cont = .onHeap r ∧ m.heap.continuation r = .ok k ∧ k.resume = .host id ∧
      id ∈ m.hosts.active ∧ ret m = .ok () (m.handedBack k id) := by
  rcases ret_ways m with hret | ⟨s, hret, -⟩ | hback | ⟨x, hret, hx⟩
  · rw [hret]
    exact .inl (.of_same rfl rfl rfl rfl)
  · rw [hret]
    exact .inl (.refl m)
  · exact .inr hback
  · rw [hret]
    exact .inl ((hx Continues).related m)

/-! ## Entering continuations -/

def handed (m : Machine) (r : Ref .continuation) (owner : Option Nat) (v : Value) : Machine :=
  { m.popped with acc := v, cont := .onHeap r, hosts := m.hosts.noteEntry owner }

theorem handOver_ok {r : Ref .continuation} {k : Continuation} {v : Value}
    (hk : m.heap.continuation r = .ok k) (hargc : m.argc = 1) (htop : m.top? = some v) :
    handOver r m = .ok () (m.handed r k.owner v) := by
  have hk' : ({ m.popped with acc := v } : Machine).heap.continuation r = .ok k := hk
  rw [handOver, bind_ok (checkArgc_ok (by omega) (by omega)), bind_ok (pop_of_top htop), setAcc,
    adjust_bind_apply, query_bind_ok hk']
  rfl

def takeArgument (r : Ref .continuation) : Exec Continuation := do
  checkArgc 1 1
  setAcc (← pop)
  query (·.heap.continuation r)

theorem maintains_takeArgument {R : Machine → Machine → Prop} [WorkBlind R]
    (r : Ref .continuation) :
    Maintains isControl R (takeArgument r) := by
  refine (maintains_checkArgc 1 1).bind fun _ => maintains_pop.bind fun v => ?_
  refine (maintains_setAcc v).bind fun _ => ?_
  exact maintains_query (fun _ _ _ => rfl) fun m => avoids_present _

theorem handOver_eq (r : Ref .continuation) : handOver r = (do
    let k ← takeArgument r
    modify fun m => { m with hosts := m.hosts.noteEntry k.owner, cont := .onHeap r }) := by
  simp only [handOver, takeArgument, bind_assoc]

theorem takeArgument_eq_ok {r : Ref .continuation} {k : Continuation}
    (h : takeArgument r m = .ok k m') :
    m.heap.continuation r = .ok k ∧ m.argc = 1 ∧
      ∃ v, m.top? = some v ∧ handOver r m = .ok () (m.handed r k.owner v) := by
  obtain ⟨_, m₁, hargc, h₁⟩ := bind_eq_ok h
  obtain ⟨v, m₂, hpop, h₂⟩ := bind_eq_ok h₁
  obtain ⟨hone, hone', rfl⟩ := checkArgc_eq_ok hargc
  obtain ⟨htop, rfl⟩ := pop_eq_ok hpop
  obtain ⟨_, m₃, hset, hquery⟩ := bind_eq_ok h₂
  cases hset
  obtain ⟨hk, rfl⟩ := query_eq_ok hquery
  refine ⟨hk, by omega, v, htop, ?_⟩
  rw [handOver_eq, bind_ok h]
  rfl

theorem handOver_cases (r : Ref .continuation) (m : Machine) :
    (∃ e m', handOver r m = .error e m' ∧ Continues m m' ∧ e ≠ .fault .unwound) ∨
    ∃ k v, m.heap.continuation r = .ok k ∧ m.argc = 1 ∧ m.top? = some v ∧
      handOver r m = .ok () (m.handed r k.owner v) := by
  cases htake : takeArgument r m with
  | error e m' =>
    have hstable : Stable (takeArgument r) := (maintains_takeArgument r).unwound
    refine .inl ⟨e, m', ?_, hstable.error htake, fun he => hstable.ne_unwound m m' (he ▸ htake)⟩
    rw [handOver_eq, bind_error htake]
  | ok k m' =>
    obtain ⟨hk, hargc, v, htop, hover⟩ := takeArgument_eq_ok htake
    exact .inr ⟨k, v, hk, hargc, htop, hover⟩

/-! ## Calls -/

def marked (m : Machine) (cont : Cont) (env : Env) : Machine :=
  { m with
    cont := .onHeap ⟨m.heap.continuations.size⟩
    hosts := m.hosts.enter
    heap := (m.heap.addContinuation (.marker m.hosts.next cont env)).2 }

/-- Beginning a call moves what the registers name to the heap and leaves a marker. -/
theorem beginCall_cases (m : Machine) :
    (∃ e m', beginCall m = .error e m' ∧ Continues m m' ∧ e ≠ .fault .unwound) ∨
    ∃ env m₁ cont m₂, promoteEnv m.env m = .ok env m₁ ∧
      promoteCont m₁.cont { m₁ with env } = .ok cont m₂ ∧ Continues m m₂ ∧
      beginCall m = .ok m.hosts.next (m₂.marked cont env) := by
  have hpromoteEnv : Stable (promoteEnv m.env) := (maintains_promoteEnv _).unwound
  cases henv : promoteEnv m.env m with
  | error e m' =>
    refine .inl ⟨e, m', ?_, hpromoteEnv.error henv, fun he => hpromoteEnv.ne_unwound m m'
      (he ▸ henv)⟩
    rw [beginCall, bind_error]
    rw [promoteCurrent, get_bind_apply, bind_error henv]
  | ok env m₁ =>
    have hpromoteCont : Stable (promoteCont m₁.cont) := (maintains_promoteCont _).unwound
    have hm₁ : Continues m { m₁ with env } := (hpromoteEnv.ok henv).trans (.of_same rfl rfl rfl rfl)
    have hcurrent : promoteCurrent m = .ok env { m₁ with env } := by
      rw [promoteCurrent, get_bind_apply, bind_ok henv]
      rfl
    cases hcont : promoteCont m₁.cont { m₁ with env } with
    | error e m' =>
      refine .inl ⟨e, m', ?_, hm₁.trans (hpromoteCont.error hcont),
        fun he => hpromoteCont.ne_unwound _ m' (he ▸ hcont)⟩
      rw [beginCall, bind_ok hcurrent, get_bind_apply, bind_error hcont]
    | ok cont m₂ =>
      have hm₂ : Continues m m₂ := hm₁.trans (hpromoteCont.ok hcont)
      refine .inr ⟨env, m₁, cont, m₂, rfl, hcont, hm₂, ?_⟩
      rw [beginCall, bind_ok hcurrent, get_bind_apply, bind_ok hcont, ← hm₂.hosts]
      rfl

theorem beginWaiting_cases (next : Option (Except Fault Value → Script Outcome)) (m : Machine) :
    (∃ e m', beginWaiting next m = .error e m' ∧ Continues m m' ∧ e ≠ .fault .unwound) ∨
    ∃ env m₁ cont m₂, promoteEnv m.env m.awake = .ok env m₁ ∧
      promoteCont m₁.cont { m₁ with env } = .ok cont m₂ ∧ Continues m m₂ ∧
      beginWaiting next m = .ok (m.waitingFor next m.hosts.next m₂.sp) (m₂.marked cont env) := by
  have hawake : Continues m m.awake := .of_same rfl rfl rfl rfl
  have heq : beginWaiting next m =
      (do return m.waitingFor next (← beginCall) (← get).sp : Exec Waiting) m.awake := rfl
  rw [heq]
  rcases beginCall_cases m.awake with ⟨e, m', he, hm', hne⟩ | ⟨env, m₁, cont, m₂, henv, hcont, hm₂,
    hid⟩
  · exact .inl ⟨e, m', bind_error he, hawake.trans hm', hne⟩
  · refine .inr ⟨env, m₁, cont, m₂, henv, hcont, hawake.trans hm₂, ?_⟩
    rw [bind_ok hid]
    rfl

def released (m : Machine) (id : Nat) : Machine := { m with hosts := m.hosts.leave id }

@[simp] theorem released_escape (m : Machine) (id : Nat) :
    (m.released id).hosts.escape = m.hosts.escape := by
  unfold released HostCalls.leave
  split <;> rfl

@[simp] theorem released_returned (m : Machine) (id : Nat) :
    (m.released id).hosts.returned = m.hosts.returned := by
  unfold released HostCalls.leave
  split <;> rfl

@[simp] theorem released_next (m : Machine) (id : Nat) :
    (m.released id).hosts.next = m.hosts.next := by
  unfold released HostCalls.leave
  split <;> rfl

theorem endWaiting_ok (w : Waiting) (m : Machine) :
    endWaiting w (.ok ()) m = .ok m.acc { m.released w.id with
      ip := w.ip, argc := w.argc, sp := min w.sp m.sp, bp := min w.sp m.sp } := rfl

theorem endWaiting_error_inner {w : Waiting} (hw : w.outermost = false) (f : Fault) (m : Machine) :
    endWaiting w (.error f) m = .error (.fault f) (m.released w.id) := by
  simp only [endWaiting, endCall, hw]
  rfl

theorem endWaiting_error_outer {w : Waiting} (hw : w.outermost = true) (f : Fault) (m : Machine) :
    endWaiting w (.error f) m =
      if f = .unwound ∧ m.runnable = false then
        .ok m.acc { m.released w.id with hosts.returned := none }
      else .error (.fault f) { m.released w.id with runnable := false, hosts.escape := none } := by
  simp only [endWaiting, endCall, hw, if_true, modify_bind_apply, get_bind_apply, Bool.not_eq_true']
  by_cases h : f = .unwound ∧ m.runnable = false
  · rw [if_pos h, if_pos h]
    rfl
  · rw [if_neg h, if_neg h]
    rfl

/-! ## What the protocol preserves -/

/-- A relation that looks at nothing but the instruction that is being executed and the number of
cells. -/
class ControlBlind (R : Machine → Machine → Prop) : Prop extends WorkBlind R where
  control {m m' : Machine} : m'.current = m.current → m'.capacity = m.capacity → R m m'

instance {R : Machine → Machine → Prop} [ControlBlind R] : PointerBlind R where
  pointer _ _ := ControlBlind.control rfl rfl

section Preserves

variable {α : Type} {R : Machine → Machine → Prop} [ControlBlind R] {x : Exec α}

theorem preserves_of_same (hi : ∀ m, (final (x m)).current = m.current)
    (hn : ∀ m, (final (x m)).capacity = m.capacity) : Preserves R x :=
  ⟨fun m => ControlBlind.control (hi m) (hn m)⟩

theorem preserves_handOver (r : Ref .continuation) : Preserves R (handOver r) := by
  rw [handOver_eq]
  refine (maintains_takeArgument r).toPreserves.bind fun k => ?_
  exact preserves_of_same (fun _ => rfl) fun _ => rfl

theorem preserves_ret : Preserves R ret := by
  refine ⟨fun m => ?_⟩
  rcases ret_ways m with hret | ⟨s, hret, -⟩ | ⟨r, k, id, -, -, -, -, hret⟩ | ⟨x, hret, hx⟩
  · rw [hret]
    exact ControlBlind.control rfl rfl
  · rw [hret]
    exact refl_of R m
  · rw [hret]
    exact ControlBlind.control rfl rfl
  · rw [hret]
    exact (hx R).related m

theorem preserves_beginCall : Preserves R beginCall := by
  refine maintains_promoteCurrent.toPreserves.bind fun env => preserves_get.bind fun m => ?_
  refine (maintains_promoteCont m.cont).toPreserves.bind fun cont => ?_
  exact preserves_of_same (fun _ => rfl) fun _ => rfl

theorem preserves_endCall (outermost : Bool) (id ip argc sp : Nat) (outcome : Except Fault Unit) :
    Preserves R (endCall outermost id ip argc sp outcome) := by
  refine .bind (preserves_of_same (fun _ => rfl) fun _ => rfl) fun _ => ?_
  cases outcome with
  | ok => exact preserves_of_same (fun _ => rfl) fun _ => rfl
  | error f =>
    refine .ite (preserves_get.bind fun _ => .ite ?_ ?_) (preserves_raise f)
    · exact preserves_of_same (fun _ => rfl) fun _ => rfl
    · exact preserves_of_same (fun _ => rfl) fun _ => rfl

end Preserves

end Machine

/-! ## What is pending -/

theorem HostCalls.noteEntry_cases (hosts : HostCalls) (owner : Option Nat) :
    hosts.noteEntry owner = hosts ∨
    (owner = none ∧ hosts.active ≠ [] ∧ hosts.running = true ∧
      hosts.noteEntry owner = { hosts with escape := some .run }) ∨
    ∃ id, owner = some id ∧ id ∈ hosts.active ∧
      hosts.noteEntry owner = { hosts with escape := some (.call id) } := by
  unfold noteEntry
  split
  · exact .inl rfl
  next hne =>
    cases owner with
    | none =>
      by_cases hr : hosts.running = true
      · refine .inr (.inl ⟨rfl, ?_, hr, if_pos hr⟩)
        intro hnil
        exact hne (by rw [hnil]; rfl)
      · exact .inl (if_neg hr)
    | some id =>
      by_cases hid : id ∈ hosts.active
      · exact .inr (.inr ⟨id, rfl, hid, if_pos hid⟩)
      · exact .inl (if_neg hid)

theorem HostCalls.noteEntry_eq (hosts : HostCalls) (owner : Option Nat) :
    hosts.noteEntry owner = { hosts with escape := (hosts.noteEntry owner).escape } := by
  rcases hosts.noteEntry_cases owner with h | ⟨-, -, -, h⟩ | ⟨id, -, -, h⟩ <;> rw [h]

@[simp] theorem HostCalls.noteEntry_returned (hosts : HostCalls) (owner : Option Nat) :
    (hosts.noteEntry owner).returned = hosts.returned := by
  rw [noteEntry_eq]

@[simp] theorem HostCalls.noteEntry_next (hosts : HostCalls) (owner : Option Nat) :
    (hosts.noteEntry owner).next = hosts.next := by
  rw [noteEntry_eq]

theorem HostCalls.turn_cases (hosts : HostCalls) (runnable : Bool) (id : Nat) :
    (hosts.returned = some id ∧
      hosts.turn runnable id = (.done, { hosts with escape := none, returned := none })) ∨
    (hosts.escape ≠ none ∧ hosts.escape ≠ some (.call id) ∧
      hosts.turn runnable id = (.unwind, hosts)) ∨
    (hosts.returned ≠ some id ∧ (hosts.returned ≠ none ∨ runnable = false) ∧
      hosts.turn runnable id = (.unwind, { hosts with escape := none })) ∨
    (hosts.returned = none ∧ runnable = true ∧
      hosts.turn runnable id = (.step, { hosts with escape := none })) := by
  rw [turn]
  by_cases hescape : hosts.escape ≠ none ∧ hosts.escape ≠ some (.call id)
  · rw [if_pos hescape]
    exact .inr (.inl ⟨hescape.1, hescape.2, rfl⟩)
  · rw [if_neg hescape]
    by_cases hdone : hosts.returned = some id
    · simp only [if_pos hdone]
      exact .inl ⟨hdone, trivial⟩
    · by_cases hunwind : hosts.returned ≠ none ∨ (!runnable) = true
      · simp only [if_neg hdone, if_pos hunwind]
        rw [Bool.not_eq_true'] at hunwind
        exact .inr (.inr (.inl ⟨hdone, hunwind, trivial⟩))
      · simp only [if_neg hdone, if_neg hunwind]
        rw [not_or, not_not, Bool.not_eq_true', Bool.not_eq_false] at hunwind
        exact .inr (.inr (.inr ⟨hunwind.1, hunwind.2, trivial⟩))

end LispMachine
