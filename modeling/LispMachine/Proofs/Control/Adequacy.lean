import LispMachine.Proofs.Control.Basic

/-! # Small steps and whole computations

A computation that is given a number of steps ends as the small steps do, and if the number does not
suffice, there are at least as many small steps.
-/

namespace LispMachine

open Machine

namespace Configuration

variable {α β : Type} {c c' c'' : Configuration} {m : Machine} {n : Nat}

/-! ## Steps in sequence -/

@[refl] theorem Reaches.refl (c : Configuration) : Reaches c c := ⟨0, rfl⟩

@[trans] theorem Reaches.trans : Reaches c c' → Reaches c' c'' → Reaches c c'' := by
  rintro ⟨i, rfl⟩ ⟨j, rfl⟩
  exact ⟨j + i, Function.iterate_add_apply ..⟩

theorem Reaches.advance (c : Configuration) : Reaches c c.advance := ⟨1, rfl⟩

theorem Reaches.head (h : Reaches c.advance c') : Reaches c c' := (Reaches.advance c).trans h

@[simp] theorem advance_ended (m : Machine) (o : Except Stop Value) :
    (ended m o).advance = ended m o :=
  rfl

def Over (c : Configuration) : Prop := ∃ o, c.activity = .ended o

theorem over_ended (m : Machine) (o : Except Stop Value) : (ended m o).Over := ⟨o, rfl⟩

theorem Over.advance_eq (h : c.Over) : c.advance = c := by
  obtain ⟨o, h⟩ := h
  rw [Configuration.advance, h]

theorem Over.iterate (h : c.Over) (n : Nat) : advance^[n] c = c :=
  Function.iterate_fixed h.advance_eq n

def isOver (c : Configuration) : Bool :=
  match c.activity with
  | .ended _ => true
  | _ => false

theorem isOver_iff : c.isOver = true ↔ c.Over := by
  unfold isOver
  split
  next o ho => exact ⟨fun _ => ⟨o, ho⟩, fun _ => rfl⟩
  next hne => exact ⟨fun h => (by cases h), fun h => h.elim fun o ho => absurd ho (hne o)⟩

instance (c : Configuration) : Decidable c.Over := decidable_of_iff _ isOver_iff

/-- What holds until everything is over holds of all that is reached. -/
theorem Over.forall_reaches (hover : (advance^[n] c).Over) {P : Configuration → Prop}
    (h : ∀ j ≤ n, P (advance^[j] c)) : ∀ c', Reaches c c' → P c' := by
  rintro _ ⟨j, rfl⟩
  rcases Nat.le_total j n with hj | hj
  · exact h j hj
  · obtain ⟨d, rfl⟩ := Nat.exists_eq_add_of_le' hj
    rw [Function.iterate_add_apply, hover.iterate]
    exact h n (Nat.le_refl n)

theorem Reaches.over_iff (h : Reaches c c') (hc'' : c''.Over) : Reaches c c'' ↔ Reaches c' c'' := by
  refine ⟨?_, h.trans⟩
  obtain ⟨i, rfl⟩ := h
  rintro ⟨j, rfl⟩
  refine ⟨j, ?_⟩
  rw [← Function.iterate_add_apply, Nat.add_comm, Function.iterate_add_apply, hc''.iterate]

theorem Reaches.eq_of_over (h : Reaches c c') (h' : Reaches c c'') (hc' : c'.Over)
    (hc'' : c''.Over) :
    c' = c'' := by
  obtain ⟨i, rfl⟩ := h
  obtain ⟨j, rfl⟩ := h'
  rcases Nat.le_total i j with hij | hij
  · obtain ⟨d, rfl⟩ := Nat.exists_eq_add_of_le' hij
    rw [Function.iterate_add_apply, hc'.iterate]
  · obtain ⟨d, rfl⟩ := Nat.exists_eq_add_of_le' hij
    rw [Function.iterate_add_apply, hc''.iterate]

def RunsFor (n : Nat) (c : Configuration) : Prop := ∀ j < n, ¬ (advance^[j] c).Over

theorem RunsFor.zero (c : Configuration) : RunsFor 0 c := by
  intro j hj
  omega

theorem RunsFor.mono {i : Nat} (h : RunsFor n c) (hi : i ≤ n) : RunsFor i c :=
  fun j hj => h j (Nat.lt_of_lt_of_le hj hi)

theorem RunsFor.of_reaches (hc : Reaches c c') (h : RunsFor n c') : RunsFor n c := by
  obtain ⟨d, rfl⟩ := hc
  intro j hj hover
  rcases Nat.le_total d j with hdj | hdj
  · refine h (j - d) (by omega) ?_
    rwa [← Function.iterate_add_apply, Nat.sub_add_cancel hdj]
  · -- a configuration that is over comes to nothing else
    refine h 0 (by omega) ?_
    obtain ⟨e, rfl⟩ := Nat.exists_eq_add_of_le' hdj
    change (advance^[e + j] c).Over
    rwa [Function.iterate_add_apply, hover.iterate]

theorem RunsFor.succ (hc : ¬ c.Over) (h : RunsFor (n - 1) c.advance) : RunsFor n c := by
  intro j hj
  cases j with
  | zero => exact hc
  | succ j => exact h j (by omega)

/-! ## Results of computations -/

/-- The configuration `c` comes to what `k` makes of a result. If the result is that the computation
is unfinished after `n` steps, then there are as many small steps. -/
def ComesTo (n : Nat) (c : Configuration) (k : EStateM.Result Stop Machine α → Configuration) :
    EStateM.Result Stop Machine α → Prop
  | .error .unfinished _ => RunsFor n c ∨ ∃ m, Reaches c (ended m (.error .unfinished))
  | r => Reaches c (k r)

structure Final (k : EStateM.Result Stop Machine α → Configuration) : Prop where
  unfinished (m : Machine) : k (.error .unfinished m) = ended m (.error .unfinished)
  stuck (m : Machine) : k (.error .stuck m) = ended m (.error .stuck)

theorem final_settle (k : Context) (next : Except Fault α → Activity) : Final (settle k next) :=
  ⟨fun _ => rfl, fun _ => rfl⟩

theorem final_conclude : Final conclude := ⟨fun _ => rfl, fun _ => rfl⟩

theorem final_reply (k : Context) (next : Option (Except Fault Value → Script Outcome)) :
    Final (reply k next) := by
  cases next with
  | none => exact final_conclude
  | some next => exact ⟨fun _ => rfl, fun _ => rfl⟩

variable {k : EStateM.Result Stop Machine α → Configuration}
  {k' : EStateM.Result Stop Machine β → Configuration} {r : EStateM.Result Stop Machine α}

theorem ComesTo.of_reaches (hc : Reaches c c') (h : ComesTo n c' k r) : ComesTo n c k r := by
  match r, h with
  | .ok a m, h => exact hc.trans h
  | .error (.fault f) m, h => exact hc.trans h
  | .error .stuck m, h => exact hc.trans h
  | .error .unfinished m, .inl h => exact .inl (h.of_reaches hc)
  | .error .unfinished m, .inr ⟨m', h⟩ => exact .inr ⟨m', hc.trans h⟩

theorem ComesTo.succ (hc : ¬ c.Over) (h : ComesTo (n - 1) c.advance k r) : ComesTo n c k r := by
  match r, h with
  | .ok a m, h => exact h.head
  | .error (.fault f) m, h => exact h.head
  | .error .stuck m, h => exact h.head
  | .error .unfinished m, .inl h => exact .inl (h.succ hc)
  | .error .unfinished m, .inr ⟨m', h⟩ => exact .inr ⟨m', h.head⟩

theorem ComesTo.mono {i : Nat} (h : ComesTo n c k r) (hi : i ≤ n) : ComesTo i c k r := by
  match r, h with
  | .ok a m, h => exact h
  | .error (.fault f) m, h => exact h
  | .error .stuck m, h => exact h
  | .error .unfinished m, .inl h => exact .inl (h.mono hi)
  | .error .unfinished m, .inr h => exact .inr h

theorem ComesTo.exact (hk : Final k) (n : Nat) (r : EStateM.Result Stop Machine α) :
    ComesTo n (k r) k r := by
  match r with
  | .ok a m => exact .refl _
  | .error (.fault f) m => exact .refl _
  | .error .stuck m => exact .refl _
  | .error .unfinished m => exact .inr ⟨m, hk.unfinished m ▸ .refl _⟩

/-- One computation after the other. A fault in the first one has to be the same to both. -/
theorem ComesTo.bind {x : Exec α} {f : α → Exec β} (hk : Final k) (hk' : Final k')
    (h : ComesTo n c k (x m)) (hok : ∀ a m', ComesTo n (k (.ok a m')) k' (f a m'))
    (hfault : ∀ e m', Reaches (k (.error (.fault e) m')) (k' (.error (.fault e) m'))) :
    ComesTo n c k' ((x >>= f) m) := by
  cases hx : x m with
  | ok a m' =>
    rw [hx] at h
    rw [bind_ok hx]
    exact (hok a m').of_reaches h
  | error e m' =>
    rw [hx] at h
    rw [bind_error hx]
    match e, h with
    | .fault e, h => exact Reaches.trans h (hfault e m')
    | .stuck, h =>
      refine Reaches.trans h ?_
      rw [hk.stuck, hk'.stuck]
    | .unfinished, h => exact h

/-- After an operation that takes one step. -/
theorem ComesTo.bind_settled {x : Exec α} {f : α → Exec β} {ctx : Context} {next : α → Activity}
    {next' : β → Activity}
    (hok : ∀ a m', ComesTo n ⟨m', ctx, next a⟩ (settle ctx (.unlessFault next')) (f a m')) :
    ComesTo n (settle ctx (.unlessFault next) (x m)) (settle ctx (.unlessFault next'))
      ((x >>= f) m) := by
  refine ComesTo.bind (final_settle ..) (final_settle ..) (.exact (final_settle ..) ..) hok ?_
  intro e m'
  exact .refl _

theorem ComesTo.attempt {x : Exec α} {f : Except Fault α → Exec β} {ctx : Context}
    {next : Except Fault α → Activity} (hk' : Final k') (h : ComesTo n c (settle ctx next) (x m))
    (hnext : ∀ reply m', ComesTo n ⟨m', ctx, next reply⟩ k' (f reply m')) :
    ComesTo n c k' ((Machine.attempt x >>= f) m) := by
  cases hx : x m with
  | ok a m' =>
    rw [hx] at h
    rw [bind_ok (attempt_ok hx)]
    exact (hnext (.ok a) m').of_reaches h
  | error e m' =>
    rw [hx] at h
    match e, h, hx with
    | .fault e, h, hx =>
      rw [bind_ok (attempt_fault hx)]
      exact (hnext (.error e) m').of_reaches h
    | .stuck, h, hx =>
      rw [bind_error (by rw [Machine.attempt, hx])]
      exact Reaches.trans h (hk'.stuck m' ▸ .refl _)
    | .unfinished, h, hx =>
      rw [bind_error (by rw [Machine.attempt, hx])]
      exact h

/-! ## Procedures and calls -/

theorem ComesTo.step (hk : Final k) (hc : c.advance = k r) : ComesTo n c k r :=
  (ComesTo.exact hk n r).of_reaches (hc ▸ .advance c)

/-- Everything that is given `n` steps. -/
structure Adequate (n : Nat) : Prop where
  apply (m : Machine) (k : Context) :
    ComesTo n ⟨m, k, .apply⟩ (settle k (.unlessFault fun _ => .loop)) (Machine.apply n m)
  call (m : Machine) (k : Context) (next : Option (Except Fault Value → Script Outcome))
    (callee : Value) (args : List Value) :
    ComesTo (n - 1) (begin k next callee args (beginWaiting next m)) (reply k next)
      (Machine.call n callee args m)
  callLoop (m : Machine) (w : Waiting) (k : Context) (callee : Value) (args : List Value) :
    ComesTo n ⟨m, .call w k, .enter callee args⟩ (settle (.call w k) .leave)
      (Machine.callLoop n w.id callee args m)
  awaitReturn (m : Machine) (w : Waiting) (k : Context) :
    ComesTo n ⟨m, .call w k, .loop⟩ (settle (.call w k) .leave) (Machine.awaitReturn n w.id m)

theorem answer_eq (call call' : Value → List Value → Exec Value) {q : Request}
    (hq : ∀ callee args, q ≠ .call callee args) : answer call q = answer call' q := by
  cases q with
  | call callee args => exact absurd rfl (hq callee args)
  | _ => rfl

theorem worked_ask {q : Request} (hq : ∀ callee args, q ≠ .call callee args)
    (next : Except Fault q.Reply → Script Outcome) (m : Machine) (k : Context) :
    worked m k (.ask q next) =
      settle k (fun reply => .script (next reply)) (answer (fun _ _ => throw .stuck) q m) := by
  cases q with
  | call callee args => exact absurd rfl (hq callee args)
  | _ => rfl

/-- The requests of a host procedure, where those to call end as calls do. -/
theorem comesTo_script (hcall : ∀ m k next callee args,
      ComesTo (n - 1) (begin k next callee args (beginWaiting next m)) (reply k next)
        (Machine.call n callee args m)) (k : Context) (s : Script Outcome) (m : Machine) :
    ComesTo n ⟨m, k, .script s⟩ (settle k (.unlessFault fun o => .script (.done o)))
      (runScript (Machine.call n) s m) := by
  induction s generalizing m with
  | done o => exact Reaches.refl _
  | fail f => exact Reaches.advance _
  | ask q next ih =>
    suffices h : ComesTo n ⟨m, k, .script (.ask q next)⟩ (settle k fun r => .script (next r))
        (answer (Machine.call n) q m) from
      h.attempt (final_settle ..) fun reply m' => ih reply m'
    by_cases hq : ∃ callee args, q = .call callee args
    · obtain ⟨callee, args, rfl⟩ := hq
      exact ComesTo.succ (by rintro ⟨o, h⟩; cases h) (hcall m k (some next) callee args)
    · refine ComesTo.step (final_settle ..) ?_
      have hne : ∀ callee args, q ≠ .call callee args := by
        rintro callee args rfl
        exact hq ⟨callee, args, rfl⟩
      rw [answer_eq (Machine.call n) (fun _ _ => throw .stuck) hne]
      exact worked_ask hne next m k

theorem Adequate.carryOut (hn : Adequate n) (k : Context) (o : Outcome) (m : Machine) :
    ComesTo n ⟨m, k, .script (.done o)⟩ (settle k (.unlessFault fun _ => .loop))
      (carryOut n o m) := by
  refine ComesTo.of_reaches (.advance _) ?_
  cases o with
  | value v => exact ComesTo.step (final_settle ..) rfl
  | tailCall callee args =>
    refine ComesTo.bind_settled fun _ m' => ?_
    exact hn.apply m' k

theorem Adequate.apply_succ (hn : Adequate n) (m : Machine) (k : Context) :
    ComesTo (n + 1) ⟨m, k, .apply⟩ (settle k (.unlessFault fun _ => .loop))
      (Machine.apply (n + 1) m) := by
  have hnot : ¬ (⟨m, k, .apply⟩ : Configuration).Over := by
    rintro ⟨o, h⟩
    cases h
  have hadv : (⟨m, k, .apply⟩ : Configuration).advance = applied m k := rfl
  refine ComesTo.succ hnot ?_
  rw [hadv, applied]
  simp only [Machine.apply, get_bind_apply, Nat.add_sub_cancel]
  cases hacc : m.acc with
  | closure r => exact ComesTo.exact (final_settle ..) ..
  | continuation r =>
    change ComesTo n _ _ (enterContinuation r m)
    rw [enterContinuation_eq]
    refine ComesTo.bind_settled fun _ m' => ?_
    exact ComesTo.step (final_settle ..) rfl
  | pair r =>
    simp only [enterList_eq]
    refine ComesTo.bind_settled fun _ m' => ?_
    exact ComesTo.step (final_settle ..) rfl
  | procedure r =>
    have heq : (do
        let p ← query (·.heap.procedure r)
        enterFrame p.arity
        Machine.carryOut n (← runScript (Machine.call n) p.body) : Exec Unit) =
        (do Machine.carryOut n (← runScript (Machine.call n) (← enterProcedure r))) := by
      simp only [enterProcedure, bind_assoc, pure_bind]
    change ComesTo n _ _ ((do
        let p ← query (·.heap.procedure r)
        enterFrame p.arity
        Machine.carryOut n (← runScript (Machine.call n) p.body) : Exec Unit) m)
    rw [heq]
    refine ComesTo.bind_settled fun s m' => ?_
    refine ComesTo.bind (final_settle ..) (final_settle ..) (comesTo_script hn.call k s m') ?_ ?_
    · exact hn.carryOut k
    · intro e m'
      exact .refl _
  | _ => exact Reaches.refl _

theorem stepWith_apply (x : Exec Unit) (h : m.opcode? = some .apply) :
    stepWith x m = (stepWith (pure ()) >>= fun _ => x) m := by
  rw [stepWith_of_opcode h, execute]
  cases hf : (fetchNat >>= setArgc) m.fetched with
  | ok a m' =>
    have hpure : stepWith (pure ()) m = .ok () m' := by
      rw [stepWith_of_opcode h, execute, ← bind_assoc, bind_ok hf]
      rfl
    rw [bind_ok hpure, ← bind_assoc, bind_ok hf]
  | error e m' =>
    have hpure : stepWith (pure ()) m = .error e m' := by
      rw [stepWith_of_opcode h, execute, ← bind_assoc, bind_error hf]
    rw [bind_error hpure, ← bind_assoc, bind_error hf]

theorem stepWith_congr (x y : Exec Unit) (h : m.opcode? ≠ some .apply) :
    stepWith x m = stepWith y m := by
  cases hop : m.opcode? with
  | some op =>
    rw [stepWith_of_opcode hop, stepWith_of_opcode hop]
    cases op with
    | apply => exact absurd hop h
    | _ => rfl
  | none => rw [stepWith_of_none hop, stepWith_of_none hop]

theorem Adequate.instruct (hn : Adequate n) (m : Machine) (k : Context) :
    ComesTo n (instruct m k) (settle k (.unlessFault fun _ => .loop))
      (stepWith (Machine.apply n) m) := by
  rw [Configuration.instruct]
  split
  next hop =>
    rw [stepWith_apply (Machine.apply n) hop]
    refine ComesTo.bind_settled fun _ m' => ?_
    exact hn.apply m' k
  next hop =>
    rw [stepWith_of_opcode hop]
    exact ComesTo.step (final_settle ..) rfl
  next happly _ =>
    rw [stepWith_congr (Machine.apply n) (pure ()) happly]
    exact ComesTo.exact (final_settle ..) ..

theorem Adequate.passUnwound (hn : Adequate n) {w : Waiting} {k : Context} {x : Exec Unit}
    (h : ComesTo n c (settle (.call w k) (.unlessFault fun _ => .loop)) (x m)) :
    ComesTo n c (settle (.call w k) .leave)
      ((passUnwound x >>= fun _ => Machine.awaitReturn n w.id) m) := by
  rw [Machine.passUnwound, bind_assoc]
  refine ComesTo.attempt (final_settle ..) h fun reply m' => ?_
  cases reply with
  | ok a => exact hn.awaitReturn m' w k
  | error f =>
    refine ComesTo.of_reaches (.advance _) ?_
    cases f with
    | unwound => exact hn.awaitReturn m' w k
    | _ => exact Reaches.refl _

theorem Adequate.callLoop_succ (hn : Adequate n) (m : Machine) (w : Waiting) (k : Context)
    (callee : Value) (args : List Value) :
    ComesTo (n + 1) ⟨m, .call w k, .enter callee args⟩ (settle (.call w k) .leave)
      (Machine.callLoop (n + 1) w.id callee args m) := by
  refine ComesTo.succ (by rintro ⟨o, h⟩; cases h) ?_
  rw [Machine.callLoop]
  refine ComesTo.bind (final_settle ..) (final_settle ..) (ComesTo.exact (final_settle ..) ..) ?_ ?_
  · intro _ m'
    exact hn.passUnwound (hn.apply m' _)
  · intro e m'
    exact .refl _

theorem Adequate.awaitReturn_succ (hn : Adequate n) (m : Machine) (w : Waiting) (k : Context) :
    ComesTo (n + 1) ⟨m, .call w k, .loop⟩ (settle (.call w k) .leave)
      (Machine.awaitReturn (n + 1) w.id m) := by
  refine ComesTo.succ (by rintro ⟨o, h⟩; cases h) ?_
  rw [Machine.awaitReturn, modifyGet_bind_apply]
  change ComesTo n (turned m (.call w k)) _ _
  rw [turned]
  cases ht : m.hosts.turn m.runnable w.id with
  | mk turn hosts =>
    cases turn with
    | done => exact Reaches.refl _
    | unwind => exact Reaches.refl _
    | step => exact hn.passUnwound (hn.instruct _ _)

theorem beginWaiting_eq_ok {next : Option (Except Fault Value → Script Outcome)} {w : Waiting}
    {m' : Machine} (h : beginWaiting next m = .ok w m') :
    beginCall m.awake = .ok w.id m' ∧ w = m.waitingFor next w.id m'.sp := by
  change (beginCall >>= fun id => do return m.waitingFor next id (← get).sp) m.awake = _ at h
  cases hid : beginCall m.awake with
  | ok id m₁ =>
    rw [bind_ok hid] at h
    cases h
    exact ⟨rfl, rfl⟩
  | error e m₁ =>
    rw [bind_error hid] at h
    cases h

theorem call_succ_eq (n : Nat) (next : Option (Except Fault Value → Script Outcome))
    (callee : Value) (args : List Value) : Machine.call (n + 1) callee args = (do
      let w ← beginWaiting next
      endWaiting w (← Machine.attempt (Machine.callLoop n w.id callee args))) := by
  simp only [Machine.call, beginWaiting, endWaiting, bind_assoc, pure_bind]
  funext m
  rw [get_bind_apply, get_bind_apply]
  change _ = (beginCall >>= _) m.awake
  cases hidle : m.hosts.isIdle with
  | true =>
    have hm : m.awake = { m with runnable := true } := by simp [awake, hidle]
    rw [hm]
    simp only [waitingFor, hidle]
    rfl
  | false =>
    have hm : m.awake = m := by simp [awake, hidle]
    rw [hm]
    simp only [waitingFor, hidle]
    rfl

theorem Adequate.call_succ (hn : Adequate n) (m : Machine) (k : Context)
    (next : Option (Except Fault Value → Script Outcome)) (callee : Value) (args : List Value) :
    ComesTo n (begin k next callee args (beginWaiting next m)) (reply k next)
      (Machine.call (n + 1) callee args m) := by
  rw [call_succ_eq n next]
  cases hw : beginWaiting next m with
  | error e m' =>
    rw [bind_error hw]
    exact ComesTo.exact (final_reply ..) ..
  | ok w m' =>
    rw [bind_ok hw]
    refine ComesTo.attempt (final_reply ..) (hn.callLoop m' w k callee args) fun outcome m'' => ?_
    refine ComesTo.step (final_reply ..) ?_
    change reply k w.next _ = _
    rw [(beginWaiting_eq_ok hw).2]
    rfl

theorem adequate : ∀ n, Adequate n
  | 0 =>
    ⟨fun _ _ => .inl (.zero _), fun _ _ _ _ _ => .inl (.zero _), fun _ _ _ _ _ => .inl (.zero _),
      fun _ _ _ => .inl (.zero _)⟩
  | n + 1 =>
    have hn := adequate n
    ⟨hn.apply_succ, hn.call_succ, hn.callLoop_succ, hn.awaitReturn_succ⟩

/-! ## Runs -/

/-- The loop of a run has come to a result. -/
def concludeRun : EStateM.Result Stop Machine Unit → Configuration
  | .ok () m => ended { m with hosts.running := false } (.ok m.acc)
  | .error (.fault f) m => ended { m with hosts.running := false } (.error (.fault f))
  | .error s m => ended m (.error s)

theorem final_concludeRun : Final concludeRun := ⟨fun _ => rfl, fun _ => rfl⟩

theorem comesTo_runLoop (n : Nat) (m : Machine) :
    ComesTo n ⟨m, .run, .loop⟩ concludeRun (runLoop n m) := by
  induction n generalizing m with
  | zero => exact .inl (.zero _)
  | succ n ih =>
    refine ComesTo.succ (by rintro ⟨o, h⟩; cases h) ?_
    change ComesTo n (turned m .run) _ _
    rw [runLoop, get_bind_apply, turned, registers_eq]
    split
    · refine ComesTo.attempt final_concludeRun ((adequate n).instruct m .run) fun reply m' => ?_
      cases reply with
      | ok a => exact ih m'
      | error f =>
        refine ComesTo.of_reaches (.advance _) ?_
        change ComesTo n (failed m' f .run) _ _
        simp only [get_bind_apply, failed, registers_eq]
        split
        · exact ih _
        · exact Reaches.refl _
    · exact Reaches.refl _

end Configuration

section Run

variable {m m' : Machine} {n : Nat}

theorem run_of_ok (h : m.runnable = true) (hx : runLoop n m.startRun = .ok () m') :
    Machine.run n m = .ok () { m' with hosts.running := false } := by
  rw [Machine.run, get_bind_apply, registers_eq, if_pos h]
  change (attempt (runLoop n) >>= _) m.startRun = _
  rw [bind_ok (attempt_ok hx)]
  rfl

theorem run_of_fault {f : Fault} (h : m.runnable = true)
    (hx : runLoop n m.startRun = .error (.fault f) m') :
    Machine.run n m = .error (.fault f) { m' with hosts.running := false } := by
  rw [Machine.run, get_bind_apply, registers_eq, if_pos h]
  change (attempt (runLoop n) >>= _) m.startRun = _
  rw [bind_ok (attempt_fault hx)]
  rfl

theorem run_of_unfinished (h : m.runnable = true)
    (hx : runLoop n m.startRun = .error .unfinished m') :
    Machine.run n m = .error .unfinished m' := by
  rw [Machine.run, get_bind_apply, registers_eq, if_pos h]
  change (attempt (runLoop n) >>= _) m.startRun = _
  exact bind_error (by rw [attempt, hx])

theorem run_of_stuck (h : m.runnable = true) (hx : runLoop n m.startRun = .error .stuck m') :
    Machine.run n m = .error .stuck m' := by
  rw [Machine.run, get_bind_apply, registers_eq, if_pos h]
  change (attempt (runLoop n) >>= _) m.startRun = _
  exact bind_error (by rw [attempt, hx])

end Run

namespace Task

open LispMachine.Configuration

variable {t : Task} {m m' : Machine} {n : Nat} {r : EStateM.Result Stop Machine Value}

theorem comes (t : Task) (n : Nat) (m : Machine) :
    ComesTo (n - 1) (t.start m) conclude (t.exec n m) := by
  -- the accumulator is handed out when nothing waits any more
  have houtside {c : Configuration} {x : Exec Unit}
      (h : ComesTo n c (settle .outside (.unlessFault fun _ => .loop)) (x m)) :
      ComesTo n c conclude ((do x; return (← get).acc) m) := by
    refine ComesTo.bind (final_settle ..) final_conclude h ?_ ?_
    · intro _ m'
      exact Reaches.advance _
    · intro e m'
      exact Reaches.advance _
  cases t with
  | step => exact (houtside ((adequate n).instruct m .outside)).mono (by omega)
  | apply => exact (houtside ((adequate n).apply m .outside)).mono (by omega)
  | run =>
    change ComesTo (n - 1) (if m.runnable then _ else _) _ _
    by_cases hrun : m.runnable = true
    · rw [if_pos hrun]
      have h := comesTo_runLoop n m.startRun
      rcases hx : runLoop n m.startRun with ⟨_, m'⟩ | ⟨f | _ | _, m'⟩ <;> rw [hx] at h
      · rw [exec, bind_ok (run_of_ok hrun hx)]
        exact h
      · rw [exec, bind_error (run_of_fault hrun hx)]
        exact h
      · rw [exec, bind_error (run_of_unfinished hrun hx)]
        exact ComesTo.mono h (by omega)
      · rw [exec, bind_error (run_of_stuck hrun hx)]
        exact h
    · rw [if_neg hrun]
      have hexec : exec n run m = .error (.fault .notRunnable) m := by
        simp only [exec, Machine.run, bind_assoc, get_bind_apply, registers_eq, hrun]
        rfl
      rw [hexec]
      exact Reaches.refl _
  | call callee args => exact (adequate n).call m .outside none callee args

theorem over_conclude : (conclude r).Over := by
  cases r <;> exact over_ended ..

theorem conclude_injective : Function.Injective conclude := by
  intro r r' h
  cases r <;> cases r' <;> cases h <;> rfl

/-- A computation that is given enough steps has the result that the small steps come to. -/
theorem exec_of_iterate {N : Nat} (hr : ∀ m', r ≠ .error .unfinished m')
    (hN : advance^[N] (t.start m) = conclude r) (hn : N + 2 ≤ n) : t.exec n m = r := by
  have h := t.comes n m
  match t.exec n m, h with
  | .ok v m', h => exact conclude_injective (h.eq_of_over ⟨N, hN⟩ over_conclude over_conclude)
  | .error (.fault f) m', h =>
    exact conclude_injective (h.eq_of_over ⟨N, hN⟩ over_conclude over_conclude)
  | .error .stuck m', h =>
    exact conclude_injective (h.eq_of_over ⟨N, hN⟩ over_conclude over_conclude)
  | .error .unfinished m', .inl h =>
    refine absurd ?_ (h N (by omega))
    rw [hN]
    exact over_conclude
  | .error .unfinished m', .inr ⟨m'', h⟩ =>
    have heq : conclude (.error .unfinished m'') = conclude r :=
      h.eq_of_over ⟨N, hN⟩ (over_ended ..) over_conclude
    exact absurd (conclude_injective heq).symm (hr m'')

/-- A computation has a result exactly if the small steps come to it. -/
theorem exec_iff_reaches (hr : ∀ m', r ≠ .error .unfinished m') :
    (∃ n, t.exec n m = r) ↔ Reaches (t.start m) (conclude r) := by
  constructor
  · rintro ⟨n, rfl⟩
    have h := t.comes n m
    match hx : t.exec n m, h with
    | .ok v m', h => exact h
    | .error (.fault f) m', h => exact h
    | .error .stuck m', h => exact h
    | .error .unfinished m', h => exact absurd hx (hr m')
  · rintro ⟨N, hN⟩
    exact ⟨N + 2, exec_of_iterate hr hN (Nat.le_refl _)⟩

end Task

end LispMachine
