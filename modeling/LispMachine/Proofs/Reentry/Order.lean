import LispMachine.Proofs.Layout.Runs

/-! # Orderly runs step by step

A run is followed in small steps, and with it all that waits for host calls. As long as the
instructions are orderly, the machine represents one without a stack at every step, and every host
procedure that waits goes on alike on both.
-/

namespace LispMachine

open Machine

/-! ## The instructions of a run -/

namespace Configuration

def begins? (c : Configuration) : Option Machine :=
  match c.activity, c.context with
  | .loop, .run => if c.machine.runnable then some c.machine else none
  | .loop, .call w _ =>
    match c.machine.hosts.turn c.machine.runnable w.id with
    | (.step, hosts) => some { c.machine with hosts }
    | _ => none
  | _, _ => none

def visits : Nat → Configuration → List Machine
  | 0, _ => []
  | n + 1, c => c.begins?.toList ++ visits n c.advance

end Configuration

theorem Follows.keeps_bind {α β γ : Type} {before : HostCalls} {left : Bool} {ρ : Naming}
    {m : Machine} {r : HeapMachine} {x : Exec α} {y : HeapExec β} {f : α → Exec γ}
    {R : Naming → α → β → Machine → HeapMachine → Prop} {S : Bool → Naming → γ → Machine → Prop}
    (h : Follows True False before ρ R (x m) (y r))
    (hb : ∀ σ a b m' r', ρ ≤ σ → x m = .ok a m' → R σ a b m' r' → Keeps before left σ S (f a m')) :
    Keeps before left ρ S ((x >>= f) m) := by
  have hs : Sustains before left ρ S (after x (fun _ _ => []) m) ((x >>= f) m) :=
    h.sustains_bind fun σ a b m' r' hρ hx hR => (hb σ a b m' r' hρ hx hR).sustains
  rw [after_nil] at hs
  exact (hs along_nil).2

/-- The number of arguments is fetched. They are there if the procedure will take them. -/
theorem InStep.fetch_apply {before : HostCalls} {left : Bool} {ρ : Naming} {m : Machine}
    {r : HeapMachine} (hi : InStep before left ρ m r)
    (htaken : ∀ n ∈ m.taken? .apply, n ≤ r.operands.size) :
    Keeps before (m.leftAfter left .apply) ρ
      (fun left' σ _ m' => ∃ r', InStep before left σ m' r' ∧
        (m'.appliesTo m'.argc = true → r'.argc ≤ r'.operands.size) ∧
        m'.leftAfterApply left = left')
      (Machine.execute (pure ()) .apply m) := by
  have hfetch : Follows True False before ρ _ (Machine.fetchNat m) (Machine.fetchNat r) :=
    hi.fetchNat
  refine hfetch.keeps_bind ?_
  rintro σ argc _ m₁ r₁ - hm₁ ⟨rfl, hi₁, hops, -⟩
  obtain ⟨hargc, rfl⟩ := fetchNat_eq_ok hm₁
  refine .ok le_rfl ⟨_, hi₁.withArgc argc, fun ha => ?_, rfl⟩
  have hn : argc ≤ r.operands.size := htaken argc (Option.filter_eq_some_iff.2 ⟨hargc, ha⟩)
  change argc ≤ r₁.operands.size
  rwa [hops]

/-! ## What waits -/

/-- The host procedure goes on alike with any result, and hands on faults. -/
def GoesOnAlike (ρ : Naming) (next : Except Fault Value → Script Outcome) : Prop :=
  (∃ next' : Except Fault Value → Script Outcome, ∀ σ, ρ ≤ σ → ∀ v u, Agree σ v u →
    Script.Alike OutcomeAgree σ (next (.ok v)) (next' (.ok u))) ∧ ∀ f, next (.error f) = .fail f

/-- All that waits for a run goes on alike. No call in progress had got its result `before`. -/
inductive Context.Fits (ρ : Naming) : HostCalls → Context → Prop
  | run {before : HostCalls} : before.running = true → Fits ρ before .run
  | call {before outer : HostCalls} {w : Waiting} {k : Context}
      {next : Except Fault Value → Script Outcome} :
    w.next = some next → w.outermost = false → GoesOnAlike ρ next → before.returned ≠ some w.id →
    before.Since outer False → Fits ρ outer k → Fits ρ before (.call w k)

section Waiting

variable {ρ σ : Naming} {before : HostCalls} {k : Context} {w : Waiting}

theorem Context.Fits.mono (h : k.Fits ρ before) (hρ : ρ ≤ σ) : k.Fits σ before := by
  induction h with
  | run hr => exact .run hr
  | call hnext hout hgo hret hsince _ ih =>
    obtain ⟨⟨next', halike⟩, hfail⟩ := hgo
    exact .call hnext hout ⟨⟨next', fun τ hτ => halike τ (hρ.trans hτ)⟩, hfail⟩ hret hsince ih

theorem Context.Fits.running (h : k.Fits ρ before) : before.running = true := by
  induction h with
  | run hr => exact hr
  | call _ _ _ _ hsince _ ih => exact hsince.running.trans ih

end Waiting

/-! ## Configurations -/

inductive Activity.Passes (f : Fault) : Activity → Prop
  | fault : Passes f (.fault f)
  | leave : Passes f (.leave (.error f))
  | script : Passes f (.script (.fail f))

/-- Everything is in order, where the flag admits that a frame was left and no other entered. -/
inductive Configuration.InOrder (left : Bool) : Configuration → Prop
  | loop {m : Machine} {k : Context} {ρ : Naming} {before : HostCalls} :
    k.Fits ρ before → Settled before left ρ m → InOrder left ⟨m, k, .loop⟩
  | enter {m : Machine} {k : Context} {ρ : Naming} {before : HostCalls} {r : HeapMachine}
      {v u : Value} {vs us : List Value} :
    k.Fits ρ before → InStep before false ρ m r → Agree ρ v u → List.Forall₂ (Agree ρ) vs us →
    InOrder left ⟨m, k, .enter v vs⟩
  | apply {m : Machine} {k : Context} {ρ : Naming} {before : HostCalls} {r : HeapMachine}
      {flag : Bool} :
    k.Fits ρ before → InStep before flag ρ m r →
    (m.appliesTo m.argc = true → r.argc ≤ r.operands.size) →
    (left = false → m.leftAfterApply flag = false) → InOrder left ⟨m, k, .apply⟩
  | script {m : Machine} {k : Context} {ρ : Naming} {before : HostCalls} {r : HeapMachine}
      {s s' : Script Outcome} :
    k.Fits ρ before → InStep before false ρ m r → Script.Alike OutcomeAgree ρ s s' →
    InOrder left ⟨m, k, .script s⟩
  | ret {m : Machine} {k : Context} {ρ : Naming} {before : HostCalls} {r : HeapMachine}
      {flag : Bool} :
    k.Fits ρ before → InStep before flag ρ m r →
    (left = false → m.leftAfterReturn flag m.cont = false) → InOrder left ⟨m, k, .ret⟩
  | returned {m : Machine} {k : Context} {ρ : Naming} {before : HostCalls} {r : HeapMachine} :
    k.Fits ρ before → Returned before ρ m r → InOrder left ⟨m, k, .leave (.ok ())⟩
  | unwound {m : Machine} {k : Context} {ρ : Naming} {before : HostCalls} {a : Activity} :
    k.Fits ρ before → Settled before left ρ m → a.Passes .unwound → InOrder left ⟨m, k, a⟩
  | failed {m : Machine} {k : Context} {ρ : Naming} {before : HostCalls} {a : Activity}
    {f : Fault} :
    k.Fits ρ before → f ≠ .unwound → a.Passes f → InOrder left ⟨m, k, a⟩
  | ended {m : Machine} {o : Except Stop Value} : InOrder left (.ended m o)

namespace Configuration

variable {α : Type} {left flag : Bool} {ρ σ : Naming} {before : HostCalls} {m : Machine}
  {r : HeapMachine} {k : Context}

theorem inOrder_conclude (x : EStateM.Result Stop Machine Value) : InOrder left (conclude x) := by
  cases x <;> exact .ended

theorem InOrder.settle {Q : Bool → Naming → α → Machine → Prop} {x : EStateM.Result Stop Machine α}
    {next : Except Fault α → Activity} (h : Keeps before left ρ Q x) (hk : k.Fits ρ before)
    (hpass : ∀ f, (next (.error f)).Passes f)
    (hok : ∀ σ a m', k.Fits σ before → ρ ≤ σ → Q left σ a m' → InOrder left ⟨m', k, next (.ok a)⟩) :
    InOrder left (Configuration.settle k next x) := by
  cases h with
  | ok hρ hq => exact hok _ _ _ (hk.mono hρ) hρ hq
  | fault hf _ => exact .failed hk hf.ne_unwound (hpass _)
  | unwound hρ hs => exact .unwound (hk.mono hρ) hs (hpass _)
  | unfinished => exact .ended
  | stuck => exact .ended

theorem passes_unlessFault (next : α → Activity) (f : Fault) :
    (Activity.unlessFault next (.error f)).Passes f := .fault

theorem passes_entered (f : Fault) : (Activity.entered (.error f)).Passes f := .leave

/-- Arguments that were passed are there when the procedure is applied. -/
theorem InOrder.passed {next : Except Fault Unit → Activity} {v u : Value} {vs us : List Value}
    (hk : k.Fits ρ before) (hi : InStep before false ρ m r) (hv : Agree ρ v u)
    (hvs : List.Forall₂ (Agree ρ) vs us) (hpass : ∀ f, (next (.error f)).Passes f)
    (hnext : next (.ok ()) = .apply) :
    InOrder left (Configuration.settle k next (passArguments v vs m)) := by
  have hargs : Follows True False before ρ _ (passArguments v vs m)
      (Machine.passArguments u us r) := hi.passArguments (.inr rfl) hv hvs
  refine .settle (hargs.keeps (Q := fun _ σ _ m' => ∃ r', InStep before false σ m' r' ∧
    r'.argc ≤ r'.operands.size) fun _ _ _ _ r' _ h => ⟨r', h⟩) hk hpass ?_
  rintro σ - m' hk - ⟨r', hi', hargc⟩
  rw [hnext]
  exact .apply hk hi' (fun _ => hargc) fun _ => leftAfterApply_false

/-! ## Instructions -/

theorem InOrder.instruct (hk : k.Fits ρ before) (hi : InStep before left ρ m r)
    (ho : m.Orderly left) : InOrder (leftNext left m) (instruct m k) := by
  have hloop {x : EStateM.Result Stop Machine Unit} (h : Keeps before (leftNext left m) ρ
      (fun left σ _ m' => Settled before left σ m') x) :
      InOrder (leftNext left m) (Configuration.settle k (.unlessFault fun _ => .loop) x) :=
    .settle h hk (passes_unlessFault _) fun _ _ _ hk _ hs => .loop hk hs
  cases hop : m.opcode? with
  | none =>
    have hstep : Follows True False before ρ (fun _ _ _ _ _ => False) (stepWith (pure ()) m)
        (Machine.stepWith (pure ()) r) :=
      hi.stepWith fun op h => by rw [hop] at h; cases h
    rw [Configuration.instruct, hop]
    exact hloop (hstep.keeps fun _ _ _ _ _ _ h => h.elim)
  | some op =>
    obtain ⟨r', hi', htaken⟩ := hi.supplied ho hop
    have hleft : leftNext left m = m.fetched.leftAfter left op := by rw [leftNext, hop]
    by_cases happ : op = .apply
    · subst happ
      rw [Configuration.instruct, hop]
      dsimp only
      rw [stepWith_of_opcode hop, hleft]
      refine .settle (hi'.fetched.fetch_apply htaken) hk (passes_unlessFault _) ?_
      rintro σ - m' hk - ⟨r', hi', hn, hl⟩
      exact .apply hk hi' hn fun h => hl.trans h
    by_cases hret : op = .ret
    · subst hret
      rw [Configuration.instruct, hop]
      exact .ret hk hi.fetched fun h => hleft.symm.trans h
    have hinstruct : Configuration.instruct m k =
        Configuration.settle k (.unlessFault fun _ => .loop) (stepWith (pure ()) m) := by
      rw [Configuration.instruct, hop]
      cases op <;> first | rfl | exact absurd rfl happ | exact absurd rfl hret
    rw [hinstruct]
    refine hloop ?_
    rw [stepWith_of_opcode hop, hleft]
    by_cases hreuse : op = .reuseFrame
    · subst hreuse
      refine hi'.fetched.fetchNat.keeps_bind ?_
      rintro σ n _ m₁ r₁ - hm₁ ⟨rfl, hi₁, hops, -⟩
      obtain ⟨hn, rfl⟩ := fetchNat_eq_ok hm₁
      refine hi₁.keeps_reuseFrame (fun hlive => ?_) (ho.leaves hop)
      rw [hops]
      exact htaken n ((if_pos hlive).trans hn)
    · have hexec : Follows True False before ρ
          (fun σ _ _ m' r' => Landed before (m.fetched.leftAfter left op) σ m' r')
          (Machine.execute (pure ()) op m.fetched) (Machine.execute (pure ()) op r'.fetched) :=
        hi'.fetched.execute happ hreuse (.inr htaken) (.inr (ho.puts op hop))
      exact hexec.keeps fun _ _ _ _ r _ hl => ⟨r, hl⟩

/-! ## Single steps -/

theorem InOrder.turned (hk : k.Fits ρ before) (hs : Settled before left ρ m)
    (ho : Along Orderly left (begins? ⟨m, k, .loop⟩).toList) :
    InOrder (leftAfterAll left (begins? ⟨m, k, .loop⟩).toList) (turned m k) := by
  cases hk with
  | run hr =>
    by_cases hrun : m.runnable = true
    · obtain ⟨r, segs, lo, h, hh, hl⟩ := hs
      have hi : InStep r.hosts left ρ m r := ⟨segs, lo, h, ⟨rfl, .inr fun _ h => h⟩, hl⟩
      have hbegins : begins? ⟨m, .run, .loop⟩ = some m := if_pos hrun
      rw [hbegins] at ho ⊢
      rw [Configuration.turned, if_pos hrun]
      exact .instruct (.run (hh.running.trans hr)) hi ho.1
    · rw [Configuration.turned, if_neg hrun]
      exact inOrder_conclude _
  | @call _ outer w k next hnext hout hgo hret hsince hk =>
    have hfits := Context.Fits.call hnext hout hgo hret hsince hk
    have hw := HostCalls.within_turn m.hosts m.runnable w.id
    have hs' := hs.within hw
    obtain ⟨r, segs, lo, h, hh, hl⟩ := hs
    have hw' : (m.hosts.turn m.runnable w.id).2.Within r.hosts := h.hosts ▸ hw
    have h' := h.withHosts (hw'.sound h.sound)
    have hdone : (m.hosts.turn m.runnable w.id).1 = .done → _ := HostCalls.returned_of_done
    have hstep : (m.hosts.turn m.runnable w.id).1 = .step → _ := HostCalls.returned_of_step
    rw [Configuration.turned]
    unfold begins? at ho ⊢
    dsimp only at ho ⊢
    generalize m.hosts.turn m.runnable w.id = t at hdone hstep hs' hw' h' ho ⊢
    obtain ⟨turn, hosts⟩ := t
    cases turn with
    | done =>
      obtain ⟨hid, hnone⟩ := hdone rfl
      rw [h.hosts] at hid
      -- The call has got its result since it began, so nothing is left of it on the stack.
      have hsegs : segs = [] := hh.returned.resolve_right fun hr => hret (hr w.id hid)
      subst hsegs
      refine .returned hfits ⟨lo, h', hw'.running.trans hh.running, .inr fun i hi => ?_⟩
      rw [hnone] at hi
      cases hi
    | unwind => exact .unwound hfits hs' .leave
    | step =>
      have hi : InStep before left ρ { m with hosts } { r with hosts } := by
        refine ⟨segs, lo, h', ⟨hw'.running.trans hh.running, .inr fun i hi => ?_⟩, hl⟩
        rw [hstep rfl] at hi
        cases hi
      exact .instruct hfits hi ho.1

theorem InOrder.applied (hk : k.Fits ρ before) (hi : InStep before flag ρ m r)
    (hn : m.appliesTo m.argc = true → r.argc ≤ r.operands.size)
    (hleft : left = false → m.leftAfterApply flag = false) : InOrder left (applied m k) := by
  have hacc := hi.acc
  have hargc := hi.argc
  rw [Configuration.applied]
  unfold appliesTo at hn
  unfold leftAfterApply at hleft
  generalize m.acc = v, r.acc = u at hacc hn hleft
  cases hacc with
  | continuation hc =>
    have hover : Follows True False before ρ _ (handOver _ m) (HeapMachine.handOver _ r) :=
      hi.handOver hc (.inr fun h1 => hn (beq_iff_eq.2 (hargc.trans h1)))
    refine .settle (hover.keeps (Q := fun _ σ _ m' => (∃ r', InStep before flag σ m' r') ∧
      (left = false → m'.leftAfterReturn flag m'.cont = false)) ?_) hk (passes_unlessFault _) ?_
    · rintro σ - - m' r' - ⟨hi', hl⟩
      exact ⟨⟨r', hi'⟩, fun h => hl.trans (hleft h)⟩
    · rintro σ - m' hk - ⟨⟨r', hi'⟩, hl⟩
      exact .ret hk hi' hl
  | same hne =>
    cases v with
    | closure c =>
      have henter : Follows True False before ρ _ (enterClosure c m)
          (Machine.enterClosure c r) := hi.enterClosure c
      refine .settle (henter.keeps (Q := fun left σ _ m' => Settled before left σ m') ?_) hk
        (passes_unlessFault _) fun _ _ _ hk _ hs => .loop hk hs
      rintro σ - - m' r' - hi'
      exact ⟨r', (hi'.weaken hleft).landed⟩
    | pair p =>
      have hpick : Follows True False before ρ _ (pickItem (.pair p) m)
          (Machine.pickItem (.pair p) r) :=
        hi.pickItem (.same (by simp)) (.inr fun ha => hn (decide_eq_true (hargc ▸ ha)))
      refine .settle (hpick.keeps (Q := fun _ σ _ m' => ∃ r', InStep before false σ m' r')
        fun _ _ _ _ r' _ h => ⟨r', h⟩) hk (passes_unlessFault _) ?_
      rintro σ - m' hk - ⟨r', hi'⟩
      exact .ret hk hi' fun _ => leftAfterReturn_false _
    | procedure p =>
      have hquery : Follows True False before ρ _ (query (·.heap.procedure p) m)
          (Machine.query (·.heap.procedure p) r) := .query hi (hi.procedure p)
      refine .settle (Q := fun _ σ s m' => s.Uniform ∧ ∃ r', InStep before false σ m' r')
        (hquery.keeps_bind ?_) hk (passes_unlessFault _) ?_
      · rintro _ p _ _ _ - - ⟨rfl, rfl, rfl, hp, rfl, hu⟩
        simp only [hp] at hn
        have hfits := fun ha => hn (decide_eq_true (hargc ▸ ha))
        refine (hi.enterFrame p.arity (.inr hfits)).keeps_bind ?_
        rintro σ - - m' r' - - hi'
        exact .ok le_rfl ⟨hu, r', hi'⟩
      · rintro σ s m' hk - ⟨hu, r', hi'⟩
        exact .script hk hi' (hu σ)
    | continuation c => exact absurd rfl (hne c)
    | _ => exact .failed (f := .typeError _ _) hk (fun h => by cases h) .fault

theorem InOrder.begin {next next' : Except Fault Value → Script Outcome} {v u : Value}
    {vs us : List Value} (hk : k.Fits ρ before) (hi : InStep before false ρ m r) (hv : Agree ρ v u)
    (hvs : List.Forall₂ (Agree ρ) vs us)
    (hnext : ∀ σ, ρ ≤ σ → ∀ w z, Agree σ w z →
      Script.Alike OutcomeAgree σ (next (.ok w)) (next' (.ok z)))
    (hfail : ∀ f, next (.error f) = .fail f) :
    InOrder left (begin k (some next) v vs (beginWaiting (some next) m)) := by
  obtain ⟨segs, lo, h, hh, hl⟩ := id hi
  have hidle : m.hosts.isIdle = false := by
    rw [HostCalls.isIdle, h.hosts, hh.running, hk.running]
    simp
  have hawake : m.awake = m := by rw [awake, hidle, Bool.false_or]
  have hbegin : beginWaiting (some next) m =
      (beginCall >>= fun id m' => .ok (m.waitingFor (some next) id m'.sp) m') m := by
    rw [beginWaiting, get_bind_apply]
    change (beginCall >>= _) m.awake = _
    rw [hawake]
    rfl
  have hcall :
      Keeps before left ρ (fun _ σ w m' => w = m.waitingFor (some next) r.hosts.next m'.sp ∧
      ∃ r', InStep r.hosts false σ m' r') (beginWaiting (some next) m) := by
    rw [hbegin]
    refine hi.beginCall.keeps_bind ?_
    rintro σ _ _ m' r' - - ⟨rfl, rfl, hhosts, hleaving, lo', h'⟩
    refine .ok le_rfl ⟨rfl, r', [], lo', h', ?_, fun _ => hleaving.trans (hl rfl)⟩
    rw [hhosts]
    exact ⟨rfl, .inr fun _ h => h⟩
  have hret : r.hosts.returned ≠ some r.hosts.next := fun hid =>
    Nat.lt_irrefl _ (h.sound.returned _ hid)
  generalize beginWaiting (some next) m = x at hcall
  cases hcall with
  | ok hρ hq =>
    obtain ⟨rfl, r', hi'⟩ := hq
    refine .enter (.call rfl hidle ⟨⟨next', fun τ hτ => hnext τ (hρ.trans hτ)⟩, hfail⟩ hret hh
      (hk.mono hρ)) hi' (hv.mono hρ) (forall₂_mono hvs hρ)
  | @fault f _ hf _ =>
    change InOrder left ⟨_, k, .script (next (.error f))⟩
    rw [hfail]
    exact .failed hk hf.ne_unwound .script
  | unwound hρ hs =>
    change InOrder left ⟨_, k, .script (next (.error .unwound))⟩
    rw [hfail]
    exact .unwound (hk.mono hρ) hs .script
  | unfinished => exact .ended
  | stuck => exact .ended

theorem settle_of_attempt {next : Except Fault α → Activity} {x : Exec α} {reply : Except Fault α}
    {m' : Machine} (h : attempt x m = .ok reply m') :
    Configuration.settle k next (x m) = ⟨m', k, next reply⟩ := by
  rw [attempt] at h
  cases hx : x m with
  | ok a m₁ =>
    rw [hx] at h
    cases h
    rfl
  | error s m₁ =>
    rw [hx] at h
    cases s with
    | fault f =>
      cases h
      rfl
    | unfinished => cases h
    | stuck => cases h

theorem settle_of_attempt_error {next : Except Fault α → Activity} {x : Exec α} {s : Stop}
    {m' : Machine} (h : attempt x m = .error s m') :
    Configuration.settle k next (x m) = Configuration.ended m' (.error s) := by
  rw [attempt] at h
  cases hx : x m with
  | ok a m₁ =>
    rw [hx] at h
    cases h
  | error s m₁ =>
    rw [hx] at h
    cases s with
    | fault f => cases h
    | unfinished =>
      cases h
      rfl
    | stuck =>
      cases h
      rfl

theorem InOrder.worked {s s' : Script Outcome} (hk : k.Fits ρ before)
    (hi : InStep before false ρ m r) (hs : Script.Alike OutcomeAgree ρ s s') :
    InOrder left (worked m k s) := by
  cases hs with
  | done ho =>
    cases ho with
    | value hv => exact .ret hk (hi.withAcc hv) fun _ => leftAfterReturn_false _
    | tailCall hv hvs => exact .passed hk hi hv hvs (passes_unlessFault _) rfl
  | fail hf =>
    refine .failed hk ?_ .fault
    rintro rfl
    cases hf.isOrdinary
  | call hv hvs hnext hfail _ => exact .begin hk hi hv hvs hnext hfail
  | @ask _ q q' next next' hq hnext =>
    -- A fault is a reply as well, so the request is compared as an attempt.
    have hworked : Configuration.worked m k (.ask q next) =
        Configuration.settle k (fun reply => .script (next reply))
          (answer (fun _ _ => throw .stuck) q m) := by cases hq <;> rfl
    rw [hworked]
    have hanswer :
        Follows True False before ρ _ (attempt (answer (fun _ _ => throw .stuck) q) m) _ :=
      hi.answer hq (fun _ _ => throw .stuck) fun _ _ => throw .stuck
    cases hx : attempt (answer (fun _ _ => throw .stuck) q) m with
    | ok reply m' =>
      rw [settle_of_attempt hx]
      rw [hx] at hanswer
      generalize Machine.attempt (Machine.answer (fun _ _ => throw .stuck) q') r = y at hanswer
      cases hanswer with
      | ok hρ h =>
        obtain ⟨hreply, hi'⟩ := h
        exact .script (hk.mono hρ) hi' (hnext _ hρ _ _ hreply)
      | stuck h => exact h.elim
    | error s m' =>
      rw [settle_of_attempt_error hx]
      exact .ended

theorem InOrder.failed_step {f : Fault} (hk : k.Fits ρ before)
    (h : f = .unwound ∧ Settled before left ρ m ∨ f ≠ .unwound) :
    InOrder left (Configuration.failed m f k) := by
  cases k with
  | outside => exact .ended
  | run =>
    rw [Configuration.failed]
    split
    next hc =>
      obtain ⟨-, hs⟩ | hf := h
      · have hw : { m.hosts with escape := none }.Within m.hosts :=
          ⟨fun _ h => h, rfl, fun _ h => h, rfl⟩
        exact .loop hk (hs.within hw)
      · exact absurd hc.1 hf
    next => exact inOrder_conclude _
  | call w k =>
    rw [Configuration.failed]
    obtain ⟨rfl, hs⟩ | hf := h
    · rw [if_pos rfl]
      exact .loop hk hs
    · rw [if_neg hf]
      exact .failed hk hf .leave

theorem InOrder.left_error {f : Fault} (hk : k.Fits ρ before)
    (h : f = .unwound ∧ Settled before left ρ m ∨ f ≠ .unwound) :
    InOrder left (Configuration.left m (.error f) k) := by
  cases hk with
  | run => exact .ended
  | @call _ outer w k next hnext hout hgo _ hsince hk =>
    have hend :
        endWaiting w (.error f) m = .error (.fault f) { m with hosts := m.hosts.leave w.id } := by
      rw [endWaiting, endCall, hout]
      rfl
    rw [Configuration.left, hend, hnext]
    change InOrder left ⟨_, k, .script (next (.error f))⟩
    rw [hgo.2]
    obtain ⟨rfl, hs⟩ | hf := h
    · exact .unwound hk ((hs.since hsince).within (HostCalls.within_leave _ _)) .script
    · exact .failed hk hf .script

theorem InOrder.left_ok (hk : k.Fits ρ before) (h : Returned before ρ m r) :
    InOrder left (Configuration.left m (.ok ()) k) := by
  cases hk with
  | run => exact .ended
  | @call _ outer w k next hnext hout hgo _ hsince hk =>
    obtain ⟨lo, h, hh⟩ := h
    obtain ⟨⟨next', halike⟩, hfail⟩ := hgo
    have hend : Follows True False outer ρ _ (endWaiting w (.ok ()) m) _ :=
      h.endCall_ok (hh.trans hsince) w.outermost w.id w.ip w.argc w.sp 0
    rw [Configuration.left, hnext]
    have hkeeps :
        Keeps outer left ρ (fun _ σ a m' => ∃ b r', Agree σ a b ∧ InStep outer false σ m' r')
        (endWaiting w (.ok ()) m) := by
      refine hend.keeps ?_
      rintro σ a b m' r' - ⟨hab, hi⟩
      exact ⟨b, r', hab, hout ▸ hi⟩
    change InOrder left (Configuration.settle k (fun reply => .script (next reply))
      (endWaiting w (.ok ()) m))
    refine .settle hkeeps hk (fun f => ?_) ?_
    · rw [hfail]
      exact .script
    · rintro σ a m' hk hρ ⟨b, r', hab, hi⟩
      exact .script hk hi (halike σ hρ a b hab)

theorem InOrder.advance {c : Configuration} (h : c.InOrder left)
    (ho : Along Orderly left c.begins?.toList) :
    c.advance.InOrder (leftAfterAll left c.begins?.toList) := by
  cases h with
  | loop hk hs => exact .turned hk hs ho
  | enter hk hi hv hvs => exact .passed hk hi hv hvs passes_entered rfl
  | apply hk hi hn hleft => exact .applied hk hi hn hleft
  | script hk hi hs => exact .worked hk hi hs
  | ret hk hi hleft =>
    have hret : Follows True False _ _ _ (Machine.ret _) (HeapMachine.ret _) := hi.ret
    refine .settle (hret.keeps (Q := fun left σ _ m' => Settled _ left σ m') ?_) hk
      (passes_unlessFault _) fun _ _ _ hk _ hs => .loop hk hs
    rintro σ - - m' r' - hl
    exact ⟨r', hl.weaken hleft⟩
  | returned hk h => exact .left_ok hk h
  | unwound hk hs ha =>
    cases ha with
    | fault => exact .failed_step hk (.inl ⟨rfl, hs⟩)
    | leave => exact .left_error hk (.inl ⟨rfl, hs⟩)
    | script => exact .unwound hk hs .fault
  | failed hk hf ha =>
    cases ha with
    | fault => exact .failed_step hk (.inr hf)
    | leave => exact .left_error hk (.inr hf)
    | script => exact .failed hk hf .fault
  | ended => exact .ended

theorem InOrder.iterate {c : Configuration} (h : c.InOrder left) {n : Nat}
    (ho : Along Orderly left (c.visits n)) :
    (Configuration.advance^[n] c).InOrder (leftAfterAll left (c.visits n)) := by
  induction n generalizing c left with
  | zero => exact h
  | succ n ih =>
    rw [visits, along_append] at ho
    rw [visits, leftAfterAll_append, Function.iterate_succ_apply]
    exact ih (h.advance ho.1) ho.2

end Configuration

/-! ## Whole runs -/

theorem Setup.Closed.inOrder {s : Setup} (hs : s.Closed) {capacity : Nat} {m : Machine}
    (hm : s.begin { new capacity with heap := s.heap, globals := s.globals } = .ok () m) :
    (Task.start m .run).InOrder false := by
  have hbegin := @Setup.Closed.begin_follows s capacity hs False
  rw [hm] at hbegin
  generalize s.heapBegin (.load s.program s.heap s.globals) = y at hbegin
  cases hbegin with
  | @ok σ _ _ _ r hρ hi =>
    rw [Task.start]
    split
    · obtain ⟨segs, lo, h, -, hl⟩ := hi
      have hsettled : Settled { r.hosts with running := true } false σ m.startRun :=
        ⟨_, segs, lo, h.withRunning true, ⟨rfl, .inr fun _ h => h⟩, hl⟩
      exact .loop (.run rfl) hsettled
    · exact .ended
  | stuck h => exact h.elim

end LispMachine
