import LispMachine.Proofs.Programs.Samples
import LispMachine.Proofs.Reentry.Operands

/-! # Procedures that only compute

A host procedure that only looks at its arguments has the same result wherever its frame is and
whoever applies it. The machine returns the result to the continuation that it has; a call from the
host gets it through the marker that was left for it.
-/

namespace LispMachine

open Machine

/-! ## Scripts -/

section Scripts

variable {α β : Type} {host : Value → List Value → Exec Value} {m m' : Machine}

def Machine.yield : Except Fault α → Exec α
  | .ok a => pure a
  | .error f => raise f

theorem runScript_bind (s : Script α) (f : α → Script β) :
    runScript host (s >>= f) = runScript host s >>= fun a => runScript host (f a) := by
  change runScript host (s.bind f) = _
  induction s with
  | done a => rfl
  | fail e => rfl
  | ask q next ih =>
    simp only [Script.bind, runScript, bind_assoc]
    exact bind_congr fun reply => ih reply

theorem runScript_request {q : Request} {reply : q.Reply} (h : answer host q m = .ok reply m') :
    runScript host (Script.request q) m = .ok reply m' := by
  rw [Script.request, runScript, bind_ok (attempt_ok h)]
  rfl

theorem runScript_argument {i : Nat} {v : Value} (h : m.readSlot 0 i = .ok v) :
    runScript host (Script.argument i) m = .ok v m := by
  refine runScript_request ?_
  rw [answer]
  exact query_ok h

theorem runScript_items {list : Value} {items : List Value} (h : m.heap.items list = .ok items) :
    runScript host (Script.items list) m = .ok items m := by
  refine runScript_request ?_
  rw [answer]
  exact query_ok h

theorem runScript_ofExcept (x : Except Fault α) : runScript host (Script.ofExcept x) = yield x := by
  cases x <;> rfl

end Scripts

/-- On this machine the script has this result and changes nothing. -/
def Script.Computes (s : Script Outcome) (m : Machine) (result : Except Fault Value) : Prop :=
  ∀ host, runScript host s m = yield (result.map .value) m

variable {segs : List Segment} {m m' : Machine} {args vs : List Value} {p : Procedure}
  {r : Ref .procedure} {v : Value} {result : Except Fault Value}

structure Procedure.Computes (p : Procedure) (args : List Value) (result : Except Fault Value) :
    Prop where
  variadic : p.arity.variadic = true
  required : p.arity.required ≤ args.length
  body {segs : List Segment} {m m' : Machine} : Entered segs args p.arity m m' →
    p.body.Computes m' result

/-! ## Applying -/

theorem Procedure.Computes.apply (h : p.Computes args result) (hm : Passed segs args m)
    (hacc : m.acc = .procedure r) (hp : m.heap.procedure r = .ok p) :
    ∃ m', enterFrame p.arity m = .ok () m' ∧ m'.cont = m.cont ∧
      ∀ n, Machine.apply (n + 1) m = (do setAcc (← yield result); ret) m' := by
  obtain ⟨m', henter, hentered⟩ := hm.enterFrame_variadic h.variadic h.required
  refine ⟨m', henter, by rw [hentered.rest], fun n => ?_⟩
  rw [Machine.apply, get_bind_apply, registers_eq, hacc]
  change (query (·.heap.procedure r) >>= _) m = _
  rw [query_bind_ok hp, bind_ok henter]
  have hrun := h.body hentered (Machine.call n)
  cases result with
  | ok v => exact bind_ok hrun
  | error f => exact bind_error hrun

/-! ## Passing the arguments -/

/-- The values have been put on the operands, and what is returned to is still the same. -/
structure PiledUnder (vs : List Value) (m m' : Machine) : Prop extends Piled vs m m' where
  cont : m'.cont = m.cont

theorem Reclaimed.cont_eq (h : Reclaimed segs m m') (hc : m.cont.ClosedIn m.heap) :
    m'.cont = m.cont := by
  obtain ⟨w, target, -, -, hcol, -⟩ := h
  have hcopied := hcol.cont
  generalize m.cont = cont, m'.cont = cont' at hcopied hc
  cases hcopied with
  | same => rfl
  | point => exact hc.elim

/-- There is room for a value if it fits besides the operands. -/
theorem WellLaid.push (hm : WellLaid [] m) (hroom : m.operands.length + 1 ≤ m.capacity)
    (v : Value) :
    ∃ m', Machine.push v m = .ok () m' ∧ PiledUnder [v] m m' := by
  have hclosed := hm.cont.closed_of_nil
  have hkept : m.sp - m.kept = m.operands.length := by
    rw [hm.length_operands, kept, hclosed.top_eq, Nat.max_zero, Nat.min_eq_left hm.bp_le]
  obtain ⟨m₁, hrun, hfit, hcases⟩ := hm.toArranged.makeRoom (f := .stackOverflow) (hkept ▸ hroom)
  have hcont : m₁.cont = m.cont := by
    rcases hcases with rfl | hrec
    · rfl
    · exact hrec.cont_eq hclosed
  have hpush : Machine.push v m = .ok () { m₁ with
      stack := m₁.stack.setIfInBounds m₁.sp v, sp := m₁.sp + 1 } := by
    rw [← push_room hfit, Machine.push, bind_ok hrun, bind_ok (makeRoom_of_room hfit)]
  exact ⟨_, hpush, Piled.of_push hm hpush, hcont⟩

theorem WellLaid.pushAll (hm : WellLaid [] m) (hroom : m.operands.length + vs.length ≤ m.capacity) :
    ∃ m', Machine.pushAll vs m = .ok () m' ∧ PiledUnder vs m m' := by
  induction vs generalizing m with
  | nil => exact ⟨m, rfl, ⟨hm, .refl m, (List.append_nil _).symm, le_rfl⟩, rfl⟩
  | cons v vs ih =>
    rw [List.length_cons] at hroom
    obtain ⟨m₁, hpush, hm₁⟩ := hm.push (by omega) v
    have hroom₁ : m₁.operands.length + vs.length ≤ m₁.capacity := by
      rw [hm₁.values, List.length_append, List.length_singleton, hm₁.alike.capacity]
      omega
    obtain ⟨m', hrest, hm'⟩ := ih hm₁.laid hroom₁
    exact ⟨m', (bind_ok hpush).trans hrest, hm₁.toPiled.trans hm'.toPiled, hm'.cont.trans hm₁.cont⟩

theorem Piled.onTop (h : Piled vs m m') (hm : WellLaid [] m) : OnTop [] vs m' where
  laid :=
    { h.laid.toArranged with
      room := (Nat.sub_le ..).trans h.laid.room
      stacked := .nil }
  values := by
    have hsp := h.sp_eq hm
    have hdrop : (m'.stack.extract (m'.sp - vs.length) m'.sp).toList =
        m'.operands.drop m.operands.length := by
      rw [hm.length_operands, operands, Array.toList_extract, Array.toList_extract,
        List.extract_eq_take_drop, List.extract_eq_take_drop, List.drop_take, List.drop_drop,
        show m'.bp + (m.sp - m.bp) = m'.sp - vs.length by omega]
      congr 1
      omega
    rw [hdrop, h.values, List.drop_left]

/-! ## Calls from the host -/

/-- The arguments are passed to a call if they fit besides the operands, and the call will return
through its marker. -/
theorem WellLaid.passArguments (hm : WellLaid [] m)
    (hroom : m.operands.length + args.length ≤ m.capacity) (callee : Value) :
    ∃ m', Machine.passArguments callee args m = .ok () m' ∧ Passed [] args m' ∧ m'.acc = callee ∧
      m'.cont = m.cont := by
  have hm₁ : WellLaid [] { m with argc := args.length } := { hm with }
  obtain ⟨m', hrun, hpiled⟩ := hm₁.pushAll hroom
  have hargc : m'.argc = args.length := by rw [hpiled.alike.rest]
  have htop := hpiled.onTop hm₁
  refine ⟨{ m' with acc := callee }, (bind_ok hrun).trans rfl, ?_, rfl, hpiled.cont⟩
  exact ⟨⟨{ htop.laid with }, htop.values⟩, hargc⟩

/-- A call from the host has been begun and its arguments have been passed. What is returned to is
the marker of the call. -/
structure Delivered (callee : Value) (args : List Value) (m : Machine) (w : Waiting) (t : Machine) :
    Prop where
  passed : Passed [] args t
  acc : t.acc = callee
  hosts : t.hosts = m.hosts.enter
  procedures : t.heap.procedures = m.heap.procedures
  id : w.id = m.hosts.next
  marker : ∃ k cont env, t.cont = .onHeap k ∧ t.heap.continuation k = .ok (.marker w.id cont env)

theorem WellLaid.deliver (hm : WellLaid segs m)
    (hroom : m.operands.length + args.length ≤ m.capacity) (callee : Value) :
    ∃ w m₁ t, beginWaiting none m = .ok w m₁ ∧ Machine.passArguments callee args m₁ = .ok () t ∧
      Delivered callee args m w t := by
  obtain ⟨w, m₁, hw, -, hbegun⟩ := hm.toArranged.beginWaiting none
  rcases beginWaiting_cases none m with ⟨e, m', he, -, -⟩ | ⟨env, -, cont, m₂, -, -, hm₂, hw'⟩
  · cases he.symm.trans hw
  cases hw'.symm.trans hw
  have hoperands : (m₂.marked cont env).operands = m.operands :=
    congrArg Array.toList (hbegun.extract_eq hm)
  have hcapacity : (m₂.marked cont env).capacity = m.capacity := hbegun.size
  obtain ⟨t, hpass, hpassed, hacc, hcont⟩ := (hbegun.wellLaid hm).passArguments
    (by rw [hoperands, hcapacity]; exact hroom) callee
  have ht : Continues (m₂.marked cont env) t := (maintains_passArguments _ _).ok hpass
  have hmarker : (m₂.marked cont env).heap.continuation ⟨m₂.heap.continuations.size⟩ =
      .ok (.marker m.hosts.next cont env) := by
    rw [← hm₂.hosts]
    exact continuation_addContinuation.2 (.inr ⟨rfl, rfl⟩)
  refine ⟨_, _, t, hw, hpass, hpassed, hacc, ?_, ht.same.trans hbegun.procedures, rfl,
    _, cont, env, hcont, ht.kept hmarker⟩
  rw [ht.hosts, ← hm₂.hosts]
  rfl

theorem ret_marker {k : Ref .continuation} {id : Nat} {cont : Cont} {env : Env}
    (hcont : m.cont = .onHeap k) (hk : m.heap.continuation k = .ok (.marker id cont env))
    (hid : id ∈ m.hosts.active) :
    ret m = .ok () { m with env, cont, hosts.returned := some id } := by
  rw [ret_of_onHeap hcont, resume_host hk rfl, if_pos hid]
  rfl

/-- The result of a procedure that leaves the continuation alone is left to the call. -/
theorem Delivered.ret {callee : Value} {w : Waiting} {t t' : Machine}
    (h : Delivered callee args m w t) (ht : Continues t t') (hcont : t'.cont = t.cont) (v : Value) :
    ∃ t₁, Machine.ret { t' with acc := v } = .ok () t₁ ∧ t₁.acc = v ∧
      t₁.hosts.returned = some w.id ∧ t₁.hosts.escape = m.hosts.escape := by
  obtain ⟨k, cont, env, hk, hmarker⟩ := h.marker
  have hosts : t'.hosts = m.hosts.enter := ht.hosts.trans h.hosts
  have hid : w.id ∈ t'.hosts.active := by
    rw [hosts, h.id]
    exact List.mem_cons_self
  exact ⟨_, ret_marker (hcont.trans hk) (ht.kept hmarker) hid, rfl, rfl, by rw [hosts]; rfl⟩

theorem passUnwound_ok {x : Exec Unit} (h : x m = .ok () m') : passUnwound x m = .ok () m' := by
  rw [passUnwound, bind_ok (attempt_ok h)]
  rfl

theorem passUnwound_fault {x : Exec Unit} {f : Fault} (h : x m = .error (.fault f) m')
    (hf : f ≠ .unwound) : passUnwound x m = .error (.fault f) m' := by
  rw [passUnwound, bind_ok (attempt_fault h)]
  cases f with
  | unwound => exact absurd rfl hf
  | _ => rfl

theorem awaitReturn_returned {id : Nat} (hr : m.hosts.returned = some id)
    (he : m.hosts.escape = none) (n : Nat) :
    awaitReturn (n + 1) id m = .ok () { m with hosts.returned := none } := by
  have hturn :
      m.hosts.turn m.runnable id = (.done, { m.hosts with escape := none, returned := none }) := by
    simp [HostCalls.turn, hr, he]
  simp only [awaitReturn, modifyGet_bind_apply, registers_eq, hturn, ← he]
  rfl

theorem callLoop_returned {callee : Value} {id n : Nat} {t t' : Machine}
    (hpass : Machine.passArguments callee args m = .ok () t)
    (happly : Machine.apply (n + 1) t = .ok () t')
    (hr : t'.hosts.returned = some id) (he : t'.hosts.escape = none) :
    callLoop (n + 2) id callee args m = .ok () { t' with hosts.returned := none } := by
  rw [callLoop, bind_ok hpass, bind_ok (passUnwound_ok happly), awaitReturn_returned hr he]

theorem callLoop_fault {callee : Value} {id n : Nat} {t t' : Machine} {f : Fault}
    (hpass : Machine.passArguments callee args m = .ok () t)
    (happly : Machine.apply (n + 1) t = .error (.fault f) t') (hf : f ≠ .unwound) :
    callLoop (n + 2) id callee args m = .error (.fault f) t' := by
  rw [callLoop, bind_ok hpass, bind_error (passUnwound_fault happly hf)]

theorem endWaiting_fault (w : Waiting) {f : Fault} (hf : f ≠ .unwound) (m : Machine) :
    ∃ m', endWaiting w (.error f) m = .error (.fault f) m' := by
  cases hw : w.outermost with
  | false => exact ⟨_, endWaiting_error_inner hw f m⟩
  | true => exact ⟨_, (endWaiting_error_outer hw f m).trans (if_neg fun h => hf h.1)⟩

/-- A call from the host has the result of the procedure if the arguments fit besides the
operands. -/
theorem Procedure.Computes.call (h : p.Computes args result) (hres : result ≠ .error .unwound)
    (hm : WellLaid segs m) (hescape : m.hosts.escape = none) (hp : m.heap.procedure r = .ok p)
    (hroom : m.operands.length + args.length ≤ m.capacity) :
    ∃ m', ∀ n, Machine.call (n + 3) (.procedure r) args m = yield result m' := by
  obtain ⟨w, m₁, t, hw, hpass, hdelivered⟩ := hm.deliver hroom (.procedure r)
  have hprocedure : t.heap.procedure r = .ok p := by
    rw [Heap.procedure, hdelivered.procedures]
    exact hp
  obtain ⟨t', henter, hcont, happly⟩ := h.apply hdelivered.passed hdelivered.acc hprocedure
  have hcall (n : Nat) : Machine.call (n + 3) (.procedure r) args m =
      (attempt (callLoop (n + 2) w.id (.procedure r) args) >>= endWaiting w) m₁ := by
    rw [Configuration.call_succ_eq _ none, bind_ok hw]
  cases result with
  | ok v =>
    obtain ⟨t₁, hret, rfl, hready, hescape₁⟩ :=
      hdelivered.ret ((maintains_enterFrame _).ok henter) hcont v
    have hloop (n : Nat) :=
      callLoop_returned hpass ((happly n).trans hret) hready (hescape₁.trans hescape)
    exact ⟨_, fun n => ((hcall n).trans (bind_ok (attempt_ok (hloop n)))).trans (endWaiting_ok ..)⟩
  | error f =>
    have hf : f ≠ .unwound := fun h => hres (congrArg _ h)
    obtain ⟨m', hend⟩ := endWaiting_fault w hf t'
    refine ⟨m', fun n => ?_⟩
    rw [hcall, bind_ok (attempt_fault (callLoop_fault hpass (happly n) hf)), hend]
    rfl

/-- However the procedure gets these arguments, this is its result. -/
structure Procedure.Gives (p : Procedure) (args : List Value) (result : Except Fault Value) :
    Prop where
  /-- A program that applies the procedure has the result returned to its continuation. -/
  applied {segs : List Segment} {m : Machine} {r : Ref .procedure} : Passed segs args m →
    m.acc = .procedure r → m.heap.procedure r = .ok p →
    ∃ m', enterFrame p.arity m = .ok () m' ∧ m'.cont = m.cont ∧
      ∀ n, Machine.apply (n + 1) m = (do setAcc (← yield result); ret) m'
  /-- The host gets it if the arguments fit besides the operands. -/
  called {segs : List Segment} {m : Machine} {r : Ref .procedure} : WellLaid segs m →
    m.hosts.escape = none → m.heap.procedure r = .ok p →
    m.operands.length + args.length ≤ m.capacity →
    ∃ m', ∀ n, Machine.call (n + 3) (.procedure r) args m = yield result m'

theorem Procedure.Computes.gives (h : p.Computes args result) (hres : result ≠ .error .unwound) :
    p.Gives args result :=
  ⟨h.apply, h.call hres⟩

/-! ## Standard procedures -/

def Machine.Binds (m : Machine) (name : String) (p : Procedure) : Prop :=
  ∃ r, m.global? name = some (.procedure r) ∧ m.heap.procedure r = .ok p

theorem define_newProcedure (hp : Value.ofName p.name = .symbol p.name) (m : Machine) :
    ∃ m', (do define p.name (.procedure (← newProcedure p)) : Exec Unit) m = .ok () m' ∧
      m'.Binds p.name p ∧ ∀ name q, name ≠ p.name → m.Binds name q → m'.Binds name q := by
  simp only [newProcedure, allocate_bind_apply, define, hp, adjust_apply]
  refine ⟨_, rfl, ⟨⟨m.heap.procedures.size⟩, ?_, ?_⟩, ?_⟩
  · exact Std.TreeMap.getElem?_insert_self
  · simp [Heap.procedure, Heap.addProcedure, present]
  · rintro name q hname ⟨r, hglobal, hr⟩
    refine ⟨r, ?_, ?_⟩
    · rw [Registers.global?, Std.TreeMap.getElem?_insert,
        if_neg fun h => hname (Std.LawfulEqCmp.eq_of_compare h).symm]
      exact hglobal
    · rw [Heap.procedure, present_eq_ok] at hr ⊢
      rw [Heap.addProcedure, Array.getElem?_push, if_neg (Array.getElem?_eq_some_iff.1 hr).1.ne]
      exact hr

/-- All the names are bound, and other names still mean what they did. -/
theorem forM_define (ps : List Procedure) (hps : ∀ p ∈ ps, Value.ofName p.name = .symbol p.name)
    (hnames : (ps.map Procedure.name).Nodup) (m : Machine) :
    ∃ m', (ps.forM fun p => do define p.name (.procedure (← newProcedure p)) : Exec Unit) m =
      .ok () m' ∧ (∀ p ∈ ps, m'.Binds p.name p) ∧
      ∀ name q, name ∉ ps.map Procedure.name → m.Binds name q → m'.Binds name q := by
  induction ps generalizing m with
  | nil => exact ⟨m, rfl, fun _ h => absurd h List.not_mem_nil, fun _ _ _ h => h⟩
  | cons p ps ih =>
    rw [List.map_cons, List.nodup_cons] at hnames
    obtain ⟨m₁, hrun₁, hp, hkept₁⟩ := define_newProcedure (hps p List.mem_cons_self) m
    obtain ⟨m', hrun, hall, hkept⟩ := ih (fun q hq => hps q (List.mem_cons_of_mem _ hq)) hnames.2 m₁
    refine ⟨m', (bind_ok hrun₁).trans hrun, fun q hq => ?_, fun name q hname hq => ?_⟩
    · rcases List.mem_cons.1 hq with rfl | hq
      · exact hkept _ _ hnames.1 hp
      · exact hall q hq
    · rw [List.map_cons, List.mem_cons, not_or] at hname
      exact hkept _ _ hname.2 (hkept₁ _ _ hname.1 hq)

namespace Standard

theorem installStandard_binds (hp : p ∈ procedures) (m : Machine) :
    ∃ m', installStandard m = .ok () m' ∧ m'.Binds p.name p := by
  obtain ⟨m', hrun, hall, -⟩ := forM_define procedures (by decide) (by decide) m
  exact ⟨m', hrun, hall p hp⟩

def Gives (name : String) (args : List Value) (result : Except Fault Value) : Prop :=
  ∃ p : Procedure, (∀ m, ∃ m', installStandard m = .ok () m' ∧ m'.Binds name p) ∧
    p.Gives args result

theorem gives_of_computes (hp : p ∈ procedures) (h : p.Computes args result)
    (hres : result ≠ .error .unwound) : Gives p.name args result :=
  ⟨p, installStandard_binds hp, h.gives hres⟩

theorem Gives.new {name : String} (h : Gives name args result) (capacity : Nat)
    (hroom : args.length ≤ capacity) :
    ∃ m r m', installStandard (Machine.new capacity) = .ok () m ∧
      m.global? name = some (.procedure r) ∧
      ∀ n, Machine.call (n + 3) (.procedure r) args m = yield result m' := by
  obtain ⟨p, hinstalled, hp⟩ := h
  obtain ⟨m, hrun, r, hname, hr⟩ := hinstalled (Machine.new capacity)
  obtain ⟨m₁, hrun₁, hm⟩ := installStandard_eq (Machine.new capacity)
  cases hrun₁.symm.trans hrun
  have hcapacity : m.capacity = capacity := by
    rw [hm]
    simp [Machine.capacity, Machine.new]
  have hlaid : WellLaid [] m := by
    rw [hm]
    exact .of_nil
      (.of_closed (Nat.zero_le _) trivial trivial (by constructor <;> simp [Machine.new])) le_rfl
  have hescape : m.hosts.escape = none := by rw [hm]; rfl
  obtain ⟨m', hcall⟩ := hp.called hlaid hescape hr (by
    rw [hlaid.length_operands, hcapacity, hm]
    exact (Nat.zero_add _).trans_le hroom)
  exact ⟨m, r, m', hrun, hname, hcall⟩

end Standard

end LispMachine
