import LispMachine.Proofs.Control.Aftermath

/-! # Single steps and whole runs

A host that has the instructions executed one by one comes to the same end as a run does. There is
one difference: when the machine halts inside of a host call, or escapes from one to a continuation
that belongs to none, a run takes over and ends all calls. Single steps have no loop of their own
that could do so, and the outermost call goes on.
-/

namespace LispMachine

open Machine LispMachine.Configuration HostCalls

def Machine.stepAll : Nat → Exec Unit
  | 0 => throw .unfinished
  | n + 1 => do
    if (← get).runnable then
      step n
      stepAll n

def Configuration.takesOver : Configuration → Bool
  | ⟨_, .run, .fault .unwound⟩ => true
  | _ => false

def Configuration.NeverTakesOver (c : Configuration) : Prop :=
  ∀ c', Reaches c c' → c'.takesOver = false

variable {α : Type} {m m' : Machine} {k : Context} {c c' : Configuration} {w : Waiting} {i : Nat}

/-! ## Calls that the run ends -/

def Machine.EndsCalls (m : Machine) : Prop :=
  m.hosts.escape = some .run ∨ m.runnable = false ∧ m.hosts.returned = none

theorem Machine.EndsCalls.turn (h : m.EndsCalls) (id : Nat) : ∃ hosts,
    m.hosts.turn m.runnable id = (.unwind, hosts) ∧ EndsCalls { m with hosts } := by
  by_cases hescape : m.hosts.escape ≠ none ∧ m.hosts.escape ≠ some (.call id)
  · exact ⟨_, if_pos hescape, h⟩
  · rcases h with h | ⟨hrun, hret⟩
    · rw [h] at hescape
      exact absurd ⟨by simp, by simp⟩ hescape
    · refine ⟨{ m.hosts with escape := none }, ?_, .inr ⟨hrun, hret⟩⟩
      simp [HostCalls.turn, if_neg hescape, hret, hrun]

theorem Machine.EndsCalls.released (h : m.EndsCalls) (id : Nat) : (m.released id).EndsCalls := by
  unfold EndsCalls
  rw [released_escape, released_returned]
  exact h

/-- If a call directly inside of a run is unwound, then the run takes over. -/
theorem takesOver_of_leave (hk : (Context.call w .run).Proper i) (m : Machine) :
    ∃ c, Reaches ⟨m, .call w .run, .leave (.error .unwound)⟩ c ∧ c.takesOver = true := by
  refine ⟨⟨m.released w.id, .run, .fault .unwound⟩, .head ?_, rfl⟩
  rw [advance_leave_error hk fun h => by cases h]
  exact .advance _

/-- If there is reason to end all calls, they end one after the other and the run takes over. -/
theorem Machine.EndsCalls.takesOver (h : m.EndsCalls) (hk : (Context.call w k).Proper i)
    (hrun : k.running = true) :
    ∃ c, Reaches ⟨m, .call w k, .loop⟩ c ∧ c.takesOver = true := by
  induction k generalizing m w i with
  | outside => cases hrun
  | run =>
    obtain ⟨hosts, hturn, -⟩ := h.turn w.id
    obtain ⟨c, hc, htakes⟩ := takesOver_of_leave hk { m with hosts }
    refine ⟨c, .head ?_, htakes⟩
    simp only [advance, turned, hturn]
    exact hc
  | call w' k ih =>
    obtain ⟨hosts, hturn, h'⟩ := h.turn w.id
    obtain ⟨c, hc, htakes⟩ := ih (h'.released w.id) hk.2.1 hrun
    refine ⟨c, .head ?_, htakes⟩
    simp only [advance, turned, hturn]
    refine .head ?_
    rw [advance_leave_error hk fun h => by cases h]
    exact Reaches.trans ⟨2, rfl⟩ hc

theorem Configuration.NeverTakesOver.advance (h : c.NeverTakesOver) : c.advance.NeverTakesOver :=
  fun _ hc => h _ hc.head

theorem Configuration.NeverTakesOver.not_endsCalls (h : NeverTakesOver ⟨m, .call w k, .loop⟩)
    (hk : (Context.call w k).Proper i) (hrun : k.running = true) : ¬ m.EndsCalls := by
  intro hends
  obtain ⟨c, hc, htakes⟩ := hends.takesOver hk hrun
  exact Bool.false_ne_true ((h c hc).symm.trans htakes)

/-! ## The machine without a run -/

/-- What waits if there is no run around it. -/
def Context.grounded : Context → Context
  | .call w k => .call { w with outermost := k.active.isEmpty } k.grounded
  | _ => .outside

theorem Context.isOutside_grounded (hk : k.running = true) :
    k.grounded.isOutside = k.active.isEmpty := by
  cases k with
  | outside => cases hk
  | _ => rfl

theorem Context.Proper.grounded (h : k.Proper i) (hk : k.running = true) : k.grounded.Proper i := by
  induction k generalizing i with
  | call w k ih =>
    obtain ⟨hi, hproper, -, hnext, hwait⟩ := h
    refine ⟨hi, ih hproper hk, (isOutside_grounded (k := k) hk).symm, hnext, fun hw => ?_⟩
    rw [hwait hw]
    rfl
  | _ => trivial

/-- The host calls are regarded as if there was no run. The escape that is noted may be another
one. -/
def HostCalls.regard (f : Option Loop → Option Loop) (hosts : HostCalls) : HostCalls :=
  { hosts with running := false, escape := f hosts.escape }

theorem HostCalls.regard_leave (f : Option Loop → Option Loop) (hosts : HostCalls) (id : Nat) :
    (hosts.leave id).regard f = (hosts.regard f).leave id := by
  unfold HostCalls.leave
  change _ = if hosts.active.head? = some id then _ else _
  split <;> rfl

theorem HostCalls.turn_alone (hosts : HostCalls) (runnable : Bool) (i : Nat) :
    (hosts.regard id).turn runnable i =
      ((hosts.turn runnable i).1, (hosts.turn runnable i).2.regard id) := by
  unfold HostCalls.turn
  by_cases hescape : hosts.escape ≠ none ∧ hosts.escape ≠ some (.call i)
  · rw [if_pos hescape]
    exact if_pos hescape
  · rw [if_neg hescape]
    refine (if_neg hescape).trans ?_
    change ite (hosts.returned = some i) _
      (ite (hosts.returned ≠ none ∨ (!runnable) = true) _ _) = _
    simp only
    split
    · rfl
    · split <;> rfl

/-- Without a run no escape to it is noted. All other escapes are. -/
theorem HostCalls.noteEntry_alone (hosts : HostCalls) (owner : Option Nat) :
    (hosts.regard id).noteEntry owner = (hosts.noteEntry owner).regard id ∨
    hosts.active ≠ [] ∧ hosts.noteEntry owner = { hosts with escape := some .run } ∧
      (hosts.regard id).noteEntry owner = hosts.regard id := by
  -- the calls in progress are the same, so both look at the same ones
  by_cases hhead : owner = hosts.active.head?
  · have hentry : hosts.noteEntry owner = hosts := if_pos hhead
    have hentry' : (hosts.regard id).noteEntry owner = hosts.regard id := if_pos hhead
    rw [hentry, hentry']
    exact .inl rfl
  cases owner with
  | none =>
    have hentry' : (hosts.regard id).noteEntry none = hosts.regard id := if_neg hhead
    by_cases hrunning : hosts.running = true
    · refine .inr ⟨fun hnil => hhead ?_, (if_neg hhead).trans (if_pos hrunning), hentry'⟩
      rw [hnil]
      rfl
    · have hentry : hosts.noteEntry none = hosts := (if_neg hhead).trans (if_neg hrunning)
      rw [hentry, hentry']
      exact .inl rfl
  | some i =>
    by_cases hi : i ∈ hosts.active
    · have hentry : hosts.noteEntry (some i) = { hosts with escape := some (.call i) } :=
        (if_neg hhead).trans (if_pos hi)
      rw [hentry]
      exact .inl ((if_neg hhead).trans (if_pos hi))
    · have hentry : hosts.noteEntry (some i) = hosts := (if_neg hhead).trans (if_neg hi)
      rw [hentry]
      exact .inl ((if_neg hhead).trans (if_neg hi))

namespace Machine

def regard (f : Option Loop → Option Loop) (m : Machine) : Machine :=
  { m with hosts := m.hosts.regard f }

abbrev alone (m : Machine) : Machine := m.regard id

def stopped (m : Machine) : Machine := (m.regard fun _ => none).halted

theorem regard_released (f : Option Loop → Option Loop) (m : Machine) (id : Nat) :
    (m.released id).regard f = (m.regard f).released id := by
  simp only [released, regard, HostCalls.regard_leave]

theorem stopped_released (m : Machine) (id : Nat) :
    (m.released id).stopped = m.stopped.released id :=
  congrArg halted (regard_released _ m id)

variable {f : Option Loop → Option Loop}

/-- It makes no difference how the host calls are regarded. -/
theorem Maintains.regard {bad : Fault → Bool} {R : Machine → Machine → Prop} {x : Exec α}
    (h : Maintains bad R x) (f : Option Loop → Option Loop) (m : Machine) :
    x (m.regard f) = onFinal (Machine.regard f) (x m) := by
  have hx := h.oblivious m (m.hosts.regard f) m.runnable
  have hhosts := h.hosts_eq m
  have hrun := h.runnable_eq m
  refine hx.trans ?_
  generalize x m = r at hhosts hrun
  cases r <;> simp only [final] at hhosts hrun <;> simp only [onFinal, Machine.regard, hhosts, hrun]

theorem ret_regard (f : Option Loop → Option Loop) (m : Machine) :
    ret (m.regard f) = onFinal (Machine.regard f) (ret m) := by
  cases hcont : m.cont with
  | empty =>
    rw [ret_of_empty hcont, ret_of_empty (show (m.regard f).cont = .empty from hcont)]
    rfl
  | onStack c =>
    rw [ret_of_onStack hcont, ret_of_onStack (show (m.regard f).cont = .onStack c from hcont),
      (maintains_returnThrough (R := Continues) c).regard]
  | onHeap r =>
    rw [ret_of_onHeap hcont, ret_of_onHeap (show (m.regard f).cont = .onHeap r from hcont)]
    cases hk : m.heap.continuation r with
    | error e =>
      have hk' : (m.regard f).heap.continuation r = .error e := hk
      rw [resume, query_bind_error hk, query_bind_error hk']
      rfl
    | ok k =>
      have hk' : (m.regard f).heap.continuation r = .ok k := hk
      cases hres : k.resume with
      | halt =>
        rw [resume_halt hk hres, resume_halt hk' hres]
        rfl
      | host id =>
        rw [resume_host hk hres, resume_host hk' hres]
        change ite (id ∈ m.hosts.active) _ _ = _
        split <;> rfl
      | code ip =>
        rw [resume_code hk hres, resume_code hk' hres,
          (maintains_resumeCode (R := Continues) k ip).regard]

theorem ret_runnable (m : Machine) :
    (final (ret m)).runnable = m.runnable ∨ ret m = .ok () m.halted := by
  rcases ret_ways m with hret | ⟨s, hret, -⟩ | ⟨r, k, id, -, -, -, -, hret⟩ | ⟨x, hret, hx⟩
  · exact .inr hret
  · rw [hret]
    exact .inl rfl
  · rw [hret]
    exact .inl rfl
  · rw [hret]
    exact .inl ((hx Continues).runnable_eq m)

theorem ret_escape (m : Machine) : (final (ret m)).hosts.escape = m.hosts.escape := by
  rcases ret_cases m with hret | ⟨r, k, id, -, -, -, -, hret⟩
  · rw [hret.hosts]
  · rw [hret]
    rfl

theorem stepWith_regard (hret : m.opcode? ≠ some .ret) (hhalt : m.opcode? ≠ some .halt)
    (f : Option Loop → Option Loop) : stepWith (pure ()) (m.regard f) =
      onFinal (Machine.regard f) (stepWith (pure ()) m) ∧
    (final (stepWith (pure ()) m)).runnable = m.runnable := by
  cases h : m.opcode? with
  | some op =>
    have hexec : Stable (execute (pure ()) op) := maintains_execute (fun hop => hret (hop ▸ h))
      (fun hop => hhalt (hop ▸ h)) fun _ => maintains_pure _
    rw [stepWith_of_opcode h, stepWith_of_opcode (show (m.regard f).opcode? = some op from h)]
    exact ⟨hexec.regard f m.fetched, hexec.runnable_eq m.fetched⟩
  | none =>
    rw [stepWith_of_none h, stepWith_of_none (show (m.regard f).opcode? = none from h)]
    rw [show (m.regard f).code[(m.regard f).ip]? = m.code[m.ip]? from rfl]
    cases m.code[m.ip]? with
    | none => exact ⟨rfl, rfl⟩
    | some b => exact ⟨rfl, rfl⟩

/-- What is done before a call leaves its marker. -/
def prepareCall : Exec (Env × Cont) := do
  let env ← promoteCurrent
  let cont ← promoteCont (← get).cont
  return (env, cont)

theorem stable_prepareCall : Stable prepareCall := by
  refine maintains_promoteCurrent.unwound.bind fun env => .get (fun _ _ _ => rfl) fun m => ?_
  exact (maintains_promoteCont m.cont).unwound.bind fun cont => maintains_pure _

theorem beginCall_eq (m : Machine) : beginCall m = match prepareCall m with
    | .ok (env, cont) m' => .ok m'.hosts.next (m'.marked cont env)
    | .error e m' => .error e m' := by
  have hsplit : beginCall = (do
      let (env, cont) ← prepareCall
      let id := (← get).hosts.next
      modify fun m => { m with cont, hosts := m.hosts.enter }
      let r ← newContinuation (.marker id cont env)
      modify ({ · with cont := .onHeap r })
      return id) := by
    simp only [beginCall, prepareCall, bind_assoc, pure_bind]
  rw [hsplit]
  cases h : prepareCall m with
  | error e m' => exact bind_error h
  | ok p m' => exact bind_ok h

theorem awake_of_runnable (h : m.runnable = true) : m.awake = m := by
  unfold awake
  rw [h, Bool.or_true, ← h]

/-- A call that begins in a run would be the outermost one without the run, if no other call is in
progress. -/
theorem beginWaiting_alone (hrun : m.runnable = true)
    (next : Option (Except Fault Value → Script Outcome)) :
    (∃ e m', beginWaiting next m = .error e m' ∧ m'.runnable = true ∧
      beginWaiting next m.alone = .error e m'.alone) ∨
    ∃ w m', beginWaiting next m = .ok w m' ∧ m'.runnable = true ∧
      beginWaiting next m.alone =
        .ok { w with outermost := m.hosts.active.isEmpty } m'.alone := by
  have hbegin (m : Machine) (hrun : m.runnable = true) : beginWaiting next m =
      (do return m.waitingFor next (← beginCall) (← get).sp : Exec Waiting) m := by
    change (do return m.waitingFor next (← beginCall) (← get).sp : Exec Waiting) m.awake = _
    rw [awake_of_runnable hrun]
  have hcall := beginCall_eq m
  have hcall' := beginCall_eq m.alone
  have hrun' := (stable_prepareCall.runnable_eq m).trans hrun
  rw [stable_prepareCall.regard] at hcall'
  rw [hbegin m hrun, hbegin m.alone hrun]
  cases hp : prepareCall m with
  | error e m' =>
    rw [hp] at hcall hcall' hrun'
    exact .inl ⟨e, m', bind_error hcall, hrun', bind_error hcall'⟩
  | ok p m' =>
    rw [hp] at hcall hcall' hrun'
    refine .inr ⟨_, _, bind_ok hcall, hrun', (bind_ok hcall').trans ?_⟩
    have hidle : m.alone.hosts.isIdle = m.hosts.active.isEmpty := Bool.and_true _
    simp only [get_bind_apply, waitingFor, hidle]
    rfl

end Machine

/-! ## Keeping pace -/

inductive Activity.FailsWith (f : Fault) : Activity → Prop
  | fault : FailsWith f (.fault f)
  | leave : FailsWith f (.leave (.error f))
  | script : FailsWith f (.script (.fail f))

/-- A single step in the configuration `c'` keeps pace with a run in the configuration `c`. -/
inductive KeepsPace : Configuration → Configuration → Prop
  | same {m : Machine} {k : Context} {a : Activity} : k.running = true → (∀ o, a ≠ .ended o) →
      m.runnable = true ∨ k = .run ∧ a = .loop →
      KeepsPace ⟨m, k, a⟩ ⟨m.alone, k.grounded, a⟩
  /-- The run will take over, unless there is a fault first. -/
  | escaping {m : Machine} {w : Waiting} {k : Context} : k.running = true →
      m.hosts.escape = some .run →
      KeepsPace ⟨m, .call w k, .ret⟩ ⟨m.regard fun _ => none, (Context.call w k).grounded, .ret⟩
  /-- The outermost call may have stopped the machine already. -/
  | failing {m m' : Machine} {k : Context} {a : Activity} {f : Fault} : k.running = true →
      f ≠ .unwound → a.FailsWith f → m.stopped = m'.stopped →
      KeepsPace ⟨m, k, a⟩ ⟨m', k.grounded, a⟩
  | finished {m m' : Machine} {s : Stop} : (∀ f, s = .fault f → m = m'.stopped) →
      KeepsPace (ended m (.error s)) (ended m' (.error s))

namespace KeepsPace

theorem settle {next : Except Fault α → Activity} {x x' : EStateM.Result Stop Machine α}
    (hk : k.running = true) (hx : x' = onFinal (Machine.alone) x)
    (hrun : (final x).runnable = true) (hnext : ∀ r o, next r ≠ .ended o) :
    KeepsPace (settle k next x) (settle k.grounded next x') := by
  rw [hx]
  rcases x with ⟨a, m⟩ | ⟨f | _ | _, m⟩
  · exact .same hk (hnext _) (.inl hrun)
  · exact .same hk (hnext _) (.inl hrun)
  · exact .finished fun f hf => by cases hf
  · exact .finished fun f hf => by cases hf

theorem unlessFault_ne {next : α → Activity} (hnext : ∀ a o, next a ≠ .ended o) (r : Except Fault α)
    (o : Except Stop Value) : Activity.unlessFault next r ≠ .ended o := by
  cases r with
  | ok a => exact hnext a o
  | error f => exact fun h => by cases h

theorem operation {x : Exec α} {next : Except Fault α → Activity} (hx : Stable x)
    (hk : k.running = true) (hrun : m.runnable = true) (hnext : ∀ r o, next r ≠ .ended o) :
    KeepsPace (Configuration.settle k next (x m))
      (Configuration.settle k.grounded next (x m.alone)) :=
  .settle hk (hx.regard ..) ((hx.runnable_eq m).trans hrun) hnext

theorem entered_ne (r : Except Fault Unit) (o : Except Stop Value) :
    Activity.entered r ≠ .ended o := by
  cases r with
  | ok a => exact fun h => by cases h
  | error f => exact fun h => by cases h

/-- The loop goes on after something that may have halted the machine. Inside of a call it has
not. -/
theorem looping (hk : k.running = true) (hproper : k.Proper i) (hret : m.hosts.returned = none)
    (hnever : NeverTakesOver ⟨m, k, .loop⟩) :
    KeepsPace ⟨m, k, .loop⟩ ⟨m.alone, k.grounded, .loop⟩ := by
  refine .same hk (fun o h => by cases h) ?_
  cases k with
  | outside => cases hk
  | run => exact .inr ⟨rfl, rfl⟩
  | call w k =>
    cases hrun : m.runnable with
    | true => exact .inl rfl
    | false => exact absurd (.inr ⟨hrun, hret⟩) (hnever.not_endsCalls hproper hk)

theorem instruct (hk : k.running = true) (hproper : k.Proper i) (hrun : m.runnable = true)
    (hret : m.hosts.returned = none) (hnever : (instruct m k).NeverTakesOver) :
    KeepsPace (instruct m k) (Configuration.instruct m.alone k.grounded) := by
  have hop : m.alone.opcode? = m.opcode? := rfl
  by_cases hreturn : m.opcode? = some .ret
  · simp only [Configuration.instruct, hop, hreturn]
    exact .same hk (fun o h => by cases h) (.inl hrun)
  by_cases hstop : m.opcode? = some .halt
  · have hinstruct (m : Machine) (k : Context) (hstop : m.opcode? = some .halt) :
        Configuration.instruct m k = ⟨m.fetched.halted, k, .loop⟩ := by
      simp only [Configuration.instruct, hstop]
      rw [stepWith_of_halt hstop]
      rfl
    rw [hinstruct m k hstop] at hnever
    rw [hinstruct m k hstop, hinstruct m.alone _ hstop]
    exact looping hk hproper hret hnever
  · obtain ⟨hstep, hrun'⟩ := stepWith_regard hreturn hstop id
    by_cases happly : m.opcode? = some .apply
    · simp only [Configuration.instruct, hop, happly]
      exact .settle hk hstep (hrun'.trans hrun) (unlessFault_ne fun _ _ h => by cases h)
    · have hother (m : Machine) (k : Context) (hreturn : m.opcode? ≠ some .ret)
          (happly : m.opcode? ≠ some .apply) : Configuration.instruct m k =
            Configuration.settle k (.unlessFault fun _ => .loop) (stepWith (pure ()) m) := by
        rw [Configuration.instruct]
        split
        · exact absurd ‹_› happly
        · exact absurd ‹_› hreturn
        · rfl
      rw [hother m k hreturn happly, hother m.alone _ hreturn happly]
      exact .settle hk hstep (hrun'.trans hrun) (unlessFault_ne fun _ _ h => by cases h)

def taken (m : Machine) (k : Context) : Turn → Configuration
  | .done => ⟨m, k, .leave (.ok ())⟩
  | .unwind => ⟨m, k, .leave (.error .unwound)⟩
  | .step => Configuration.instruct m k

theorem turned_eq {turn : Turn} {hosts : HostCalls}
    (h : m.hosts.turn m.runnable w.id = (turn, hosts)) :
    turned m (.call w k) = taken { m with hosts } (.call w k) turn := by
  simp only [turned, h]
  cases turn <;> rfl

theorem turned (hs : Sound ⟨m, .call w k, .loop⟩) (hk : k.running = true) (hrun : m.runnable = true)
    (hnever : (turned m (.call w k)).NeverTakesOver) :
    KeepsPace (turned m (.call w k))
      (Configuration.turned m.alone (Context.call w k).grounded) := by
  have hturn {turn : Turn} {hosts : HostCalls} (h : m.hosts.turn m.runnable w.id = (turn, hosts)) :
      Configuration.turned m.alone (Context.call w k).grounded =
        taken ({ m with hosts } : Machine).alone (Context.call w k).grounded turn := by
    refine turned_eq ((m.hosts.turn_alone m.runnable w.id).trans ?_)
    rw [h]
  rcases m.hosts.turn_cases m.runnable w.id with ⟨-, ht⟩ | ⟨-, -, ht⟩ | ⟨-, -, ht⟩ | ⟨hret, -, ht⟩
  · rw [turned_eq ht, hturn ht]
    exact .same hk (fun o h => by cases h) (.inl hrun)
  · rw [turned_eq ht, hturn ht]
    exact .same hk (fun o h => by cases h) (.inl hrun)
  · rw [turned_eq ht, hturn ht]
    exact .same hk (fun o h => by cases h) (.inl hrun)
  · rw [turned_eq ht] at hnever
    rw [turned_eq ht, hturn ht]
    exact instruct hk hs.calls.proper hrun hret hnever

theorem handedOver (hs : Sound ⟨m, k, .apply⟩) (hk : k.running = true) (hrun : m.runnable = true)
    (r : Ref .continuation) :
    KeepsPace (Configuration.settle k (.unlessFault fun _ => .ret) (handOver r m))
      (Configuration.settle k.grounded (.unlessFault fun _ => .ret) (handOver r m.alone)) := by
  have hstable : Stable (takeArgument r) := (maintains_takeArgument r).unwound
  have hrun' := (hstable.runnable_eq m).trans hrun
  have htake' := hstable.regard id m
  cases htake : takeArgument r m with
  | error e m' =>
    rw [htake] at hrun' htake'
    rw [handOver_eq, bind_error htake, bind_error htake']
    exact .settle hk rfl hrun' (unlessFault_ne fun _ _ h => by cases h)
  | ok o m' =>
    obtain ⟨ho, hargc, v, htop, hover⟩ := takeArgument_eq_ok htake
    have hover' : handOver r m.alone = .ok () (m.alone.handed r o.owner v) :=
      handOver_ok (m := m.alone) ho hargc htop
    have hnone : m.hosts.escape = none := hs.pending.escape
    rw [hover, hover']
    let handed (hosts : HostCalls) : Machine := { m.popped with acc := v, cont := .onHeap r, hosts }
    rcases m.hosts.noteEntry_alone o.owner with hentry | ⟨hactive, hentry, hentry'⟩
    · rw [show m.alone.handed r o.owner v = (m.handed r o.owner v).alone from congrArg handed
        hentry]
      exact .same hk (fun o h => by cases h) (.inl hrun)
    · have hhosts : (m.hosts.regard id).noteEntry o.owner =
          (m.hosts.noteEntry o.owner).regard fun _ => none := by
        rw [hentry', hentry]
        simp only [HostCalls.regard, hnone, id]
      rw [show m.alone.handed r o.owner v = (m.handed r o.owner v).regard fun _ => none from
        congrArg handed hhosts]
      have hescape : (m.handed r o.owner v).hosts.escape = some .run :=
        congrArg HostCalls.escape hentry
      cases k with
      | call w k => exact .escaping hk hescape
      | _ => exact absurd hs.calls.active hactive

theorem applied (hs : Sound ⟨m, k, .apply⟩) (hk : k.running = true) (hrun : m.runnable = true) :
    KeepsPace (applied m k) (Configuration.applied m.alone k.grounded) := by
  have hacc' : m.alone.acc = m.acc := rfl
  cases hacc : m.acc with
  | closure r =>
    simp only [Configuration.applied, hacc', hacc]
    exact operation (maintains_enterClosure r).unwound hk hrun
      (unlessFault_ne fun _ _ h => by cases h)
  | continuation r =>
    simp only [Configuration.applied, hacc', hacc]
    exact handedOver hs hk hrun r
  | pair r =>
    simp only [Configuration.applied, hacc', hacc]
    exact operation (maintains_pickItem _).unwound hk hrun (unlessFault_ne fun _ _ h => by cases h)
  | procedure r =>
    simp only [Configuration.applied, hacc', hacc]
    exact operation (maintains_enterProcedure r).unwound hk hrun
      (unlessFault_ne fun _ _ h => by cases h)
  | _ =>
    simp only [Configuration.applied, hacc', hacc]
    exact .same hk (fun o h => by cases h) (.inl hrun)

theorem worked (hs : Sound ⟨m, k, .script s⟩) (hk : k.running = true) (hrun : m.runnable = true) :
    KeepsPace (worked m k s) (Configuration.worked m.alone k.grounded s) := by
  rcases s with ⟨v | ⟨callee, args⟩⟩ | f | ⟨q, next⟩
  · exact .same (m := { m with acc := v }) hk (fun o h => by cases h) (.inl hrun)
  · exact operation (maintains_passArguments ..).unwound hk hrun
      (unlessFault_ne fun _ _ h => by cases h)
  · exact .same hk (fun o h => by cases h) (.inl hrun)
  · by_cases hq : ∃ callee args, q = .call callee args
    · obtain ⟨callee, args, rfl⟩ := hq
      change KeepsPace (begin k (some next) callee args (beginWaiting (some next) m))
        (begin k.grounded (some next) callee args (beginWaiting (some next) m.alone))
      rcases beginWaiting_alone hrun (some next) with
        ⟨e, m', hm, hrun', hm'⟩ | ⟨w, m', hm, hrun', hm'⟩
      · rw [hm, hm']
        change KeepsPace
          (Configuration.settle k (fun reply => .script (next reply)) (.error e m')) _
        exact .settle hk rfl hrun' fun _ _ h => by cases h
      · rw [hm, hm']
        have hactive : m.hosts.active = k.active := hs.calls.active
        rw [hactive]
        exact .same (k := .call w k) hk (fun o h => by cases h) (.inl hrun')
    · rw [worked_ask fun callee args h => hq ⟨callee, args, h⟩,
        worked_ask fun callee args h => hq ⟨callee, args, h⟩]
      exact operation (maintains_answer (fun callee args h => hq ⟨callee, args, h⟩) _).unwound hk
        hrun fun _ _ h => by cases h

theorem returned (hs : Sound ⟨m, k, .ret⟩) (hk : k.running = true) (hrun : m.runnable = true)
    (hnever : NeverTakesOver ⟨m, k, .ret⟩) :
    KeepsPace (Configuration.settle k (.unlessFault fun _ => .loop) (ret m))
      (Configuration.settle k.grounded (.unlessFault fun _ => .loop) (ret m.alone)) := by
  have hret := ret_regard id m
  rcases ret_runnable m with hrun' | hhalt
  · exact .settle hk hret (hrun'.trans hrun) (unlessFault_ne fun _ _ h => by cases h)
  · have hloop := hnever.advance
    change NeverTakesOver (Configuration.settle k _ (ret m)) at hloop
    rw [hhalt] at hloop hret
    rw [hhalt, hret]
    exact looping hk hs.calls.proper hs.pending.1 hloop

/-- A fault before the run could take over. -/
theorem escaped (hs : Sound ⟨m, .call w k, .ret⟩) (hk : k.running = true)
    (hescape : m.hosts.escape = some .run) (hnever : NeverTakesOver ⟨m, .call w k, .ret⟩) :
    KeepsPace (Configuration.settle (.call w k) (.unlessFault fun _ => .loop) (ret m))
      (Configuration.settle (Context.call w k).grounded (.unlessFault fun _ => .loop)
        (ret (m.regard fun _ => none))) := by
  have hret' := ret_escape m
  have hloop := hnever.advance
  change NeverTakesOver (Configuration.settle _ _ (ret m)) at hloop
  rw [ret_regard]
  rcases hret : ret m with ⟨_, m'⟩ | ⟨f | _ | _, m'⟩ <;> rw [hret] at hret' hloop
  · exact absurd (.inl (hret'.trans hescape)) (hloop.not_endsCalls hs.calls.proper hk)
  · exact .failing (k := .call w k) hk (fun hf => ret_ne_unwound m m' (hf ▸ hret)) .fault rfl
  · exact .finished fun f hf => by cases hf
  · exact .finished fun f hf => by cases hf

theorem left_ok (hs : Sound ⟨m, .call w k, .leave (.ok ())⟩) (hk : k.running = true)
    (hrun : m.runnable = true) :
    KeepsPace (left m (.ok ()) (.call w k))
      (left m.alone (.ok ()) (Context.call w k).grounded) := by
  obtain ⟨-, -, -, -, hwait⟩ := hs.calls.proper
  change KeepsPace (reply k w.next (endWaiting w (.ok ()) m))
    (reply k.grounded w.next (endWaiting { w with outermost := k.active.isEmpty } (.ok ()) m.alone))
  rw [endWaiting_ok, endWaiting_ok, ← regard_released]
  cases hnext : w.next with
  | none =>
    rw [hwait hnext] at hk
    cases hk
  | some next =>
    change KeepsPace (Configuration.settle k (fun reply => .script (next reply)) (.ok _ _)) _
    exact .settle hk rfl hrun fun _ _ h => by cases h

/-- A fault ends the innermost call. If that is the outermost one without the run, it stops the
machine. -/
theorem left_error {f : Fault} (hproper : (Context.call w k).Proper i) (hk : k.running = true)
    (hf : f ≠ .unwound) (hsame : m.stopped = m'.stopped) :
    KeepsPace (advance ⟨m, .call w k, .leave (.error f)⟩)
      (advance ⟨m', (Context.call w k).grounded, .leave (.error f)⟩) := by
  have hreleased : (m.released w.id).stopped = (m'.released w.id).stopped := by
    rw [stopped_released, stopped_released, hsame]
  cases k with
  | outside => cases hk
  | call w' k =>
    rw [advance_leave_error hproper fun h => by cases h]
    have hgrounded := advance_leave_error (hproper.grounded hk) (fun h => by cases h) f m'
    exact hgrounded ▸ .failing (k := .call w' k) hk hf .script hreleased
  | run =>
    rw [advance_leave_error hproper fun h => by cases h]
    obtain ⟨-, -, -, hnext, hwait⟩ := hproper
    have hend := endWaiting_error_outer (w := { w with outermost := true }) rfl f m'
    rw [if_neg fun h => hf h.1] at hend
    have hleft : advance ⟨m', (Context.call w .run).grounded, .leave (.error f)⟩ =
        reply .outside w.next (endWaiting { w with outermost := true } (.error f) m') := rfl
    cases hw : w.next with
    | none => cases hwait hw
    | some next =>
      rw [hleft, hend, hw, reply, Configuration.settle, (hnext next hw).1]
      exact .failing hk hf .script hreleased

theorem left_unwound (hs : Sound ⟨m, .call w k, .leave (.error .unwound)⟩) (hk : k.running = true)
    (hrun : m.runnable = true) (hnever : NeverTakesOver ⟨m, .call w k, .leave (.error .unwound)⟩) :
    KeepsPace (advance ⟨m, .call w k, .leave (.error .unwound)⟩)
      (advance ⟨m.alone, (Context.call w k).grounded, .leave (.error .unwound)⟩) := by
  cases k with
  | outside => cases hk
  | call w' k =>
    rw [advance_leave_error hs.calls.proper fun h => by cases h]
    have hgrounded :=
      advance_leave_error (hs.calls.proper.grounded hk) (fun h => by cases h) .unwound m.alone
    rw [← regard_released] at hgrounded
    exact hgrounded ▸ .same (k := .call w' k) hk (fun o h => by cases h) (.inl hrun)
  | run =>
    obtain ⟨c, hc, htakes⟩ := takesOver_of_leave hs.calls.proper m
    exact absurd ((hnever c hc).symm.trans htakes) Bool.false_ne_true

theorem failed {f : Fault} (hk : k.running = true) (hf : f ≠ .unwound)
    (hsame : m.stopped = m'.stopped) :
    KeepsPace (failed m f k) (Configuration.failed m' f k.grounded) := by
  cases k with
  | outside => cases hk
  | run =>
    rw [Configuration.failed, if_neg fun h => hf h.1]
    exact .finished fun _ _ => hsame
  | call w k =>
    simp only [Configuration.failed, Context.grounded, if_neg hf]
    exact .failing (k := .call w k) hk hf .leave hsame

/-- As long as the run does not take over, single steps keep pace with it. -/
theorem advance (h : KeepsPace c c') (hs : c.Sound ∨ c.Aborted) (hnever : c.NeverTakesOver)
    (hloop : ∀ m, c ≠ ⟨m, .run, .loop⟩) : KeepsPace c.advance c'.advance := by
  cases h with
  | finished h => exact .finished h
  | @escaping m w k hk hescape =>
    exact escaped (hs.resolve_right (not_aborted (fun h => by cases h) fun h => by cases h)) hk
      hescape hnever
  | @failing m m' k a f hk hf ha hsame =>
    cases ha with
    | fault => exact failed hk hf hsame
    | script => exact .failing hk hf .fault hsame
    | leave =>
      have hs := hs.resolve_right (not_aborted (fun h => by cases h) fun h => by cases h)
      obtain ⟨w, k', rfl, -⟩ := hs.pending
      exact left_error hs.calls.proper hk hf hsame
  | @same m k a hk hne hrun =>
    have hs := hs.resolve_right (not_aborted (hne _) (hne _))
    replace hrun : m.runnable = true := by
      refine hrun.resolve_right ?_
      rintro ⟨rfl, rfl⟩
      exact hloop m rfl
    cases a with
    | loop =>
      cases k with
      | outside => cases hk
      | run => exact absurd rfl (hloop m)
      | call w k => exact turned hs hk hrun hnever.advance
    | enter callee args => exact operation (maintains_passArguments ..).unwound hk hrun entered_ne
    | apply => exact applied hs hk hrun
    | script s => exact worked hs hk hrun
    | ret => exact returned hs hk hrun hnever
    | fault f =>
      by_cases hf : f = .unwound
      · subst hf
        cases k with
        | outside => cases hk
        | run => exact absurd (hnever _ (.refl _)).symm Bool.false_ne_true
        | call w k => exact .same (k := .call w k) hk (fun o h => by cases h) (.inl hrun)
      · exact failed hk hf rfl
    | leave outcome =>
      cases outcome with
      | ok _ =>
        obtain ⟨-, w, k', rfl⟩ := hs.pending
        exact left_ok hs hk hrun
      | error f =>
        obtain ⟨w, k', rfl, -⟩ := hs.pending
        by_cases hf : f = .unwound
        · subst hf
          exact left_unwound hs hk hrun hnever
        · exact left_error hs.calls.proper hk hf rfl
    | ended o => exact absurd rfl (hne o)

/-- If the run is over, so is the single step, and the other way round. -/
theorem over_run {o : Except Stop Value} (h : KeepsPace (ended m o) c') :
    ∃ s m', o = .error s ∧ c' = ended m' (.error s) ∧ ∀ f, s = .fault f → m = m'.stopped := by
  generalize hc : ended m o = c at h
  cases h with
  | finished hs =>
    cases hc
    exact ⟨_, _, rfl, rfl, hs⟩
  | same hk =>
    cases hc
    cases hk
  | failing hk =>
    cases hc
    cases hk
  | escaping => cases hc

theorem over_step {o : Except Stop Value} (h : KeepsPace c (ended m' o)) :
    ∃ s m, o = .error s ∧ c = ended m (.error s) ∧ ∀ f, s = .fault f → m = m'.stopped := by
  generalize hc : ended m' o = c' at h
  cases h with
  | finished hs =>
    cases hc
    exact ⟨_, _, rfl, rfl, hs⟩
  | same _ hne => exact absurd (congrArg Configuration.activity hc).symm (hne o)
  | failing _ _ ha =>
    have ha' := congrArg Configuration.activity hc
    cases ha <;> cases ha'
  | escaping => cases congrArg Configuration.activity hc

theorem iterate (h : KeepsPace c c') (hs : c.Sound ∨ c.Aborted) (hnever : c.NeverTakesOver)
    (j : Nat) :
    (∃ i ≤ j, ∃ m, Configuration.advance^[i] c = ⟨m, .run, .loop⟩ ∧
      Configuration.advance^[i] c' = ⟨m.alone, .outside, .loop⟩) ∨
    KeepsPace (Configuration.advance^[j] c) (Configuration.advance^[j] c') := by
  induction j generalizing c c' with
  | zero => exact .inr h
  | succ j ih =>
    by_cases hloop : ∃ m, c = ⟨m, .run, .loop⟩
    · obtain ⟨m, rfl⟩ := hloop
      refine .inl ⟨0, Nat.zero_le _, m, rfl, ?_⟩
      cases h with
      | same => rfl
      | failing _ _ ha => cases ha
    · have hs' : c.advance.Sound ∨ c.advance.Aborted := by
        rcases hs with hs | hs
        · exact hs.advance
        · exact .inr (hs.advance.symm ▸ hs)
      rcases ih (h.advance hs hnever fun m hm => hloop ⟨m, hm⟩) hs' hnever.advance with
        ⟨i, hi, hm⟩ | h'
      · exact .inl ⟨i + 1, Nat.succ_le_succ hi, hm⟩
      · exact .inr h'

end KeepsPace

/-! ## Whole runs -/

section

variable {n N : Nat} {f : Fault}

theorem thenAcc_ok {x : Exec Unit} {v : Value} :
    (do x; return (← get).acc : Exec Value) m = .ok v m' ↔ x m = .ok () m' ∧ v = m'.acc := by
  constructor
  · intro h
    obtain ⟨_, m₁, hx, h⟩ := bind_eq_ok h
    cases h
    exact ⟨hx, rfl⟩
  · rintro ⟨hx, rfl⟩
    rw [bind_ok hx]
    rfl

theorem thenAcc_error {x : Exec Unit} {e : Stop} :
    (do x; return (← get).acc : Exec Value) m = .error e m' ↔ x m = .error e m' := by
  constructor
  · intro h
    cases hx : x m with
    | ok a m₁ =>
      rw [bind_ok hx] at h
      cases h
    | error e₁ m₁ =>
      rw [bind_error hx] at h
      cases h
      rfl
  · exact bind_error

theorem stepAll_of_halted (h : m.runnable = false) : stepAll (n + 1) m = .ok () m := by
  rw [stepAll, get_bind_apply, if_neg (by rw [h]; exact Bool.false_ne_true)]
  rfl

theorem stepAll_of_runnable (h : m.runnable = true) :
    stepAll (n + 1) m = (step n >>= fun _ => stepAll n) m := by
  rw [stepAll, get_bind_apply, if_pos h]

/-- A configuration in which a run goes on with the next instruction, if the machine has not
halted. -/
structure Configuration.GoesOnWith (m : Machine) : Prop where
  sound : Sound ⟨m, .run, .loop⟩
  never : NeverTakesOver ⟨m, .run, .loop⟩

namespace Configuration.GoesOnWith

theorem advance_halted (h : m.runnable = false) :
    advance ⟨m, .run, .loop⟩ = conclude (.ok m.alone.acc m.alone) := by
  change (if m.runnable then _ else _) = _
  rw [if_neg (by rw [h]; exact Bool.false_ne_true)]
  rfl

theorem advance_runnable (h : m.runnable = true) : advance ⟨m, .run, .loop⟩ = instruct m .run := by
  change (if m.runnable then _ else _) = _
  rw [if_pos h]

/-- The next instruction leads both to the next loop, or is not over for both, or fails for both. -/
theorem instruct (h : GoesOnWith m) (hrun : m.runnable = true) (j : Nat) :
    (∃ i ≤ j, ∃ m', GoesOnWith m' ∧ advance^[i + 1] ⟨m, .run, .loop⟩ = ⟨m', .run, .loop⟩ ∧
      advance^[i] (Task.step.start m.alone) = ⟨m'.alone, .outside, .loop⟩) ∨
    KeepsPace (advance^[j + 1] ⟨m, .run, .loop⟩) (advance^[j] (Task.step.start m.alone)) := by
  have hadvance := advance_runnable hrun
  have hs := h.sound.advance
  have hnever := h.never.advance
  rw [hadvance] at hs hnever
  have hpace :=
    KeepsPace.instruct (k := .run) (i := 0) rfl trivial hrun
      (h.sound.pending.1.returned_eq_none rfl) hnever
  rcases hpace.iterate hs hnever j with ⟨i, hi, m', hm, hm'⟩ | h'
  · have hreach : advance^[i + 1] ⟨m, .run, .loop⟩ = ⟨m', .run, .loop⟩ := by
      rw [Function.iterate_succ_apply, hadvance, hm]
    refine .inl ⟨i, hi, m', ⟨?_, fun c hc => h.never c (Reaches.trans ⟨_, hreach⟩ hc)⟩, hreach, hm'⟩
    exact h.sound.reaches ⟨_, hreach⟩ (not_aborted (fun h => by cases h) fun h => by cases h)
  · rw [Function.iterate_succ_apply, hadvance]
    exact .inr h'

theorem advance_outside (m : Machine) :
    advance ⟨m, .outside, .loop⟩ = conclude (.ok m.acc m) := rfl

/-- The run comes to an end after `N` steps. Then so do the single steps, if they are given
enough. -/
theorem stepAll_of_run (h : GoesOnWith m) {r : EStateM.Result Stop Machine Value}
    (hN : advance^[N] ⟨m, .run, .loop⟩ = conclude r) (hn : N + 3 ≤ n) :
    (∀ v m', r = .ok v m' → stepAll n m.alone = .ok () m') ∧
    ∀ f m', r = .error (.fault f) m' →
      ∃ m'', stepAll n m.alone = .error (.fault f) m'' ∧ m' = m''.stopped := by
  obtain ⟨n, rfl⟩ : ∃ n', n = n' + 1 := ⟨n - 1, by omega⟩
  induction N using Nat.strongRecOn generalizing m n with
  | ind N ih =>
    obtain ⟨N, rfl⟩ : ∃ N', N = N' + 1 := by
      cases N with
      | zero => cases r <;> cases hN
      | succ N => exact ⟨N, rfl⟩
    cases hrun : m.runnable with
    | false =>
      have hr : conclude (.ok m.alone.acc m.alone) = conclude r := by
        rw [← hN, Function.iterate_succ_apply, advance_halted hrun, Task.over_conclude.iterate]
      cases Task.conclude_injective hr
      refine ⟨fun v m' hm' => ?_, fun f m' hm' => by cases hm'⟩
      cases hm'
      exact stepAll_of_halted hrun
    | true =>
      rw [stepAll_of_runnable (m := m.alone) hrun]
      rcases h.instruct hrun N with ⟨i, hi, m', h', hm', hstart⟩ | hpace
      · -- the instruction is over, and the rest takes fewer steps
        have hstep : step n m.alone = .ok () m'.alone := by
          refine (thenAcc_ok (v := m'.alone.acc).1
            (Task.exec_of_iterate (t := .step) (fun _ h => by cases h) (N := i + 1) ?_
            (by omega))).1
          rw [Function.iterate_succ_apply', hstart, advance_outside]
        rw [bind_ok hstep]
        obtain ⟨d, rfl⟩ := Nat.exists_eq_add_of_le' hi
        obtain ⟨n, rfl⟩ : ∃ n', n = n' + 1 := ⟨n - 1, by omega⟩
        refine ih d (by omega) h' ?_ n (by omega)
        rw [← hm', ← Function.iterate_add_apply]
        exact hN
      · rw [hN] at hpace
        cases r with
        | ok v m' =>
          obtain ⟨s, m'', hs, -⟩ := hpace.over_run
          cases hs
        | error s m' =>
          obtain ⟨s, m'', hs, hstart, hstopped⟩ := hpace.over_run
          cases hs
          refine ⟨fun v m' hm' => (by cases hm'), fun f m' hm' => ?_⟩
          cases hm'
          have hstep : step n m.alone = .error (.fault f) m'' :=
            thenAcc_error.1
              (Task.exec_of_iterate (t := .step) (fun _ h => by cases h) hstart (by omega))
          exact ⟨m'', bind_error hstep, hstopped f rfl⟩

/-- The single steps come to an end. Then so does the run. -/
theorem run_of_stepAll (h : GoesOnWith m) :
    (∀ m', stepAll n m.alone = .ok () m' → Reaches ⟨m, .run, .loop⟩ (conclude (.ok m'.acc m'))) ∧
    ∀ f m', stepAll n m.alone = .error (.fault f) m' →
      Reaches ⟨m, .run, .loop⟩ (conclude (.error (.fault f) m'.stopped)) := by
  induction n generalizing m with
  | zero =>
    constructor
    · intro m' hm'
      cases hm'
    · intro f m' hm'
      cases hm'
  | succ n ih =>
    cases hrun : m.runnable with
    | false =>
      rw [stepAll_of_halted (m := m.alone) hrun]
      refine ⟨fun m' hm' => ?_, fun f m' hm' => by cases hm'⟩
      cases hm'
      exact ⟨1, advance_halted hrun⟩
    | true =>
      rw [stepAll_of_runnable (m := m.alone) hrun]
      cases hstep : step n m.alone with
      | ok a m₁ =>
        rw [bind_ok hstep]
        obtain ⟨j, hj⟩ := (Task.exec_iff_reaches (t := .step) fun _ h => by cases h).1
          ⟨n, thenAcc_ok.2 ⟨hstep, rfl⟩⟩
        rcases h.instruct hrun j with ⟨i, -, m', h', hm', hstart⟩ | hpace
        · have hover : Reaches (Task.step.start m.alone) (conclude (.ok m'.alone.acc m'.alone)) :=
            ⟨i + 1, by rw [Function.iterate_succ_apply', hstart, advance_outside]⟩
          obtain ⟨-, rfl⟩ := EStateM.Result.ok.inj (Task.conclude_injective
            (Reaches.eq_of_over ⟨j, hj⟩ hover Task.over_conclude Task.over_conclude))
          obtain ⟨hok, hfault⟩ := ih h'
          exact ⟨fun m'' hm'' => Reaches.trans ⟨_, hm'⟩ (hok m'' hm''),
            fun f m'' hm'' => Reaches.trans ⟨_, hm'⟩ (hfault f m'' hm'')⟩
        · rw [hj] at hpace
          obtain ⟨s, m', hs, -⟩ := hpace.over_step
          cases hs
      | error e m₁ =>
        rw [bind_error hstep]
        refine ⟨fun m' hm' => (by cases hm'), fun f m' hm' => ?_⟩
        cases hm'
        obtain ⟨j, hj⟩ := (Task.exec_iff_reaches (t := .step) fun _ h => by cases h).1
          ⟨n, thenAcc_error.2 hstep⟩
        rcases h.instruct hrun j with ⟨i, -, m', h', hm', hstart⟩ | hpace
        · have hover : Reaches (Task.step.start m.alone) (conclude (.ok m'.alone.acc m'.alone)) :=
            ⟨i + 1, by rw [Function.iterate_succ_apply', hstart, advance_outside]⟩
          cases Task.conclude_injective
            (Reaches.eq_of_over ⟨j, hj⟩ hover Task.over_conclude Task.over_conclude)
        · rw [hj] at hpace
          obtain ⟨s, m', hs, hrun, hstopped⟩ := hpace.over_step
          cases hs
          rw [hstopped f rfl] at hrun
          exact ⟨_, hrun⟩

end Configuration.GoesOnWith

/-- Single steps leave a machine at rest, also if one of them fails. -/
theorem Resting.stepAll_fault (h : Resting m) (hm : stepAll n m = .error (.fault f) m') :
    Resting m' := by
  induction n generalizing m with
  | zero => cases hm
  | succ n ih =>
    cases hrun : m.runnable with
    | false =>
      rw [stepAll_of_halted hrun] at hm
      cases hm
    | true =>
      rw [stepAll_of_runnable hrun] at hm
      cases hstep : step n m with
      | ok a m₁ =>
        rw [bind_ok hstep] at hm
        exact ih (h.done (t := .step) (thenAcc_ok.2 ⟨hstep, rfl⟩)) hm
      | error e m₁ =>
        rw [bind_error hstep] at hm
        cases hm
        exact h.failed (t := .step) (thenAcc_error.2 hstep)

theorem Resting.stopped_eq (h : Resting m) : m.stopped = { m with runnable := false } := by
  have hrunning : m.hosts.running = false := h.calls.running
  have hescape : m.hosts.escape = none := h.quiet.escape
  have hhosts : m.hosts.regard (fun _ => none) = m.hosts := by
    rw [HostCalls.regard, ← hrunning, ← hescape]
  exact congrArg (fun hosts => ({ m with hosts, runnable := false } : Machine)) hhosts

end

theorem Resting.goesOnWith (h : Resting m) (hrun : m.runnable = true)
    (hnever : (Task.run.start m).NeverTakesOver) :
    GoesOnWith m.startRun ∧ m.startRun.alone = m ∧
      Task.run.start m = ⟨m.startRun, .run, .loop⟩ := by
  have hstart : Task.run.start m = ⟨m.startRun, .run, .loop⟩ := if_pos hrun
  have hs := h.start .run
  rw [hstart] at hs hnever
  have hrunning : m.hosts.running = false := h.calls.running
  refine ⟨⟨hs.resolve_right (not_aborted (fun h => by cases h) fun h => by cases h), hnever⟩, ?_,
    hstart⟩
  change ({ m with hosts := { m.hosts with running := false } } : Machine) = m
  rw [← hrunning]

/-- However a machine has been used before: executing the instructions one by one ends as a run
does, with the same machine or with the same fault, and the one does not end if the other does not.
After a fault the only difference is that a run always leaves the machine halted. This holds
provided that the run does not take over from host calls. -/
theorem Used.run_iff_stepAll {old : Nat} (h : Used old m) (hrun : m.runnable = true)
    (hnever : (Task.run.start m).NeverTakesOver) :
    (∀ m', (∃ n, run n m = .ok () m') ↔ ∃ n, stepAll n m = .ok () m') ∧
    ∀ f m', (∃ n, run n m = .error (.fault f) m') ↔
      ∃ n m'', stepAll n m = .error (.fault f) m'' ∧ m' = { m'' with runnable := false } := by
  obtain ⟨hgoes, halone, hstart⟩ := h.resting.goesOnWith hrun hnever
  constructor
  · intro m'
    constructor
    · rintro ⟨n, hn⟩
      obtain ⟨N, hN⟩ := (Task.exec_iff_reaches (t := .run) fun _ h => by cases h).1
        ⟨n, thenAcc_ok.2 ⟨hn, rfl⟩⟩
      rw [hstart] at hN
      exact ⟨_, halone ▸ (hgoes.stepAll_of_run hN (Nat.le_refl _)).1 _ _ rfl⟩
    · rintro ⟨n, hn⟩
      have hreach := hgoes.run_of_stepAll.1 m' (halone.symm ▸ hn)
      rw [← hstart] at hreach
      obtain ⟨n, hn⟩ := (Task.exec_iff_reaches fun _ h => by cases h).2 hreach
      exact ⟨n, (thenAcc_ok.1 hn).1⟩
  · intro f m'
    constructor
    · rintro ⟨n, hn⟩
      obtain ⟨N, hN⟩ := (Task.exec_iff_reaches (t := .run) fun _ h => by cases h).1
        ⟨n, thenAcc_error.2 hn⟩
      rw [hstart] at hN
      obtain ⟨m'', hm'', hstopped⟩ := (hgoes.stepAll_of_run hN (Nat.le_refl _)).2 _ _ rfl
      rw [halone] at hm''
      rw [(h.resting.stepAll_fault hm'').stopped_eq] at hstopped
      exact ⟨_, m'', hm'', hstopped⟩
    · rintro ⟨n, m'', hn, rfl⟩
      have hreach := hgoes.run_of_stepAll.2 f m'' (halone.symm ▸ hn)
      rw [← hstart, (h.resting.stepAll_fault hn).stopped_eq] at hreach
      obtain ⟨n, hn⟩ := (Task.exec_iff_reaches fun _ h => by cases h).2 hreach
      exact ⟨n, thenAcc_error.1 hn⟩

/-- Everything is over within fewer than `n` steps, and the loop of the run has not taken over
before. -/
def Configuration.endsUndisturbed : Nat → Configuration → Bool
  | 0, _ => false
  | n + 1, c =>
    match c.activity with
    | .ended _ => true
    | _ => !c.takesOver && endsUndisturbed n c.advance

theorem Configuration.neverTakesOver_of_endsUndisturbed {n : Nat} (h : c.endsUndisturbed n = true) :
    c.NeverTakesOver := by
  rintro c' ⟨j, rfl⟩
  induction n generalizing c j with
  | zero => cases h
  | succ n ih =>
    unfold endsUndisturbed at h
    split at h
    next o ho =>
      rw [Over.iterate ⟨o, ho⟩]
      obtain ⟨m, k, a⟩ := c
      cases ho
      cases k <;> rfl
    next =>
      obtain ⟨hc, hn⟩ := Bool.and_eq_true_iff.1 h
      cases j with
      | zero => simpa using hc
      | succ j => exact ih hn j

def Machine.mapping : Machine :=
  final (passArguments (.procedure ⟨11⟩) [.procedure ⟨6⟩, .pair ⟨1⟩] (sample #[0x4c, 2, 0x14]))

theorem Machine.mapping_run_iff_stepAll :
    ∃ m', run 40 mapping = .ok () m' ∧ m'.acc = .pair ⟨2⟩ ∧ ∃ n, stepAll n mapping = .ok () m' := by
  have hused : Used 0 mapping := .operate (used_sample _) ((maintains_passArguments ..).related _)
  have hnever : (Task.run.start mapping).NeverTakesOver :=
    neverTakesOver_of_endsUndisturbed (n := 40) (by decide +kernel)
  have hrun : run 40 mapping = .ok () _ := eq_ok_of_result? (by decide +kernel)
  exact ⟨_, hrun, by decide +kernel, ((hused.run_iff_stepAll rfl hnever).1 _).1 ⟨40, hrun⟩⟩

/-- The machine halts inside of a host call. So does the run, but the single step goes on: the host
procedure returns through the marker of its call, which is over. -/
theorem Machine.halting_stepAll_differs :
    Used 0 halting ∧ halting.runnable = true ∧
      (∃ m', run 20 halting = .ok () m' ∧ m'.acc = .closure ⟨0⟩) ∧
      ∃ m', stepAll 20 halting = .error (.fault .invalidContinuation) m' := by
  have hrun : run 20 halting = .ok () _ := eq_ok_of_result? (by decide +kernel)
  have hsteps : stepAll 20 halting = .error (.fault .invalidContinuation) _ :=
    eq_error_of_stop? (by decide +kernel)
  exact ⟨used_halting, rfl, ⟨_, hrun, by decide +kernel⟩, _, hsteps⟩

end LispMachine
