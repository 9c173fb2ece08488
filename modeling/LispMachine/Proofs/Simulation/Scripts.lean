import LispMachine.Procedure.Standard
import LispMachine.Proofs.Simulation.Heaps

/-! # Scripts that do not look at names

A script sees the continuations of the machine as values, but it cannot tell by which index they are
known. Two runs of a uniform script that get the same answers up to names make the same requests up
to names. It also hands on every fault of a call that it waits for. All standard procedures are
uniform.
-/

namespace LispMachine

/-! ## Operations on values -/

/-- The result mentions no continuation, and a fault says nothing about how continuations are
kept. -/
def Nameless : Except Fault Value → Prop
  | .ok v => ∀ r, v ≠ .continuation r
  | .error f => f.isOrdinary

/-- The operation gives the same result whatever the continuations are called. -/
def IgnoresNames (ρ : Naming) (op : Value → Value → Except Fault Value) : Prop :=
  ∀ {v u w z : Value}, Agree ρ v u → Agree ρ w z → op v w = op u z ∧ Nameless (op u z)

section Operations

variable {ρ : Naming} {v u w z : Value}

theorem Agree.operands_eq (hv : Agree ρ v u) (hw : Agree ρ w z) (name : String) :
    v.operands name w = u.operands name z := by
  cases hv with
  | continuation => rfl
  | same hv =>
    cases hw with
    | continuation => cases v <;> rfl
    | same => rfl

theorem isOrdinary_of_operands {name : String} {f : Fault} (h : u.operands name z = .error f) :
    f.isOrdinary := by
  cases u <;> cases z <;> cases h <;> rfl

theorem Agree.negate_eq (hv : Agree ρ v u) : v.negate = u.negate := by
  cases hv <;> rfl

theorem nameless_negate (u : Value) : Nameless u.negate := by
  cases u <;> first | rfl | exact fun _ => nofun

/-- Arithmetic looks at numbers only. -/
theorem ignoresNames_of_operands (name : String) {compute : Operands → Except Fault Value}
    (h : ∀ o, Nameless (compute o)) : IgnoresNames ρ fun a b => a.operands name b >>= compute := by
  intro v u w z hv hw
  dsimp only
  refine ⟨by rw [hv.operands_eq hw], ?_⟩
  cases ho : u.operands name z with
  | error f => exact isOrdinary_of_operands ho
  | ok o => exact h o

theorem ignoresNames_add : IgnoresNames ρ Value.add := by
  refine ignoresNames_of_operands "add" ?_
  rintro (⟨m, n⟩ | ⟨x, y⟩) <;> exact fun _ => nofun

theorem ignoresNames_mul : IgnoresNames ρ Value.mul := by
  refine ignoresNames_of_operands "multiply" ?_
  rintro (⟨m, n⟩ | ⟨x, y⟩) <;> exact fun _ => nofun

theorem ignoresNames_div : IgnoresNames ρ Value.div := by
  refine ignoresNames_of_operands "divide" ?_
  rintro (⟨m, n⟩ | ⟨x, y⟩)
  · by_cases hn : n = 0
    · simp only [hn, if_true]
      rfl
    · simp only [hn, if_false]
      exact fun _ => nofun
  · exact fun _ => nofun

theorem ignoresNames_sub : IgnoresNames ρ Value.sub := by
  intro v u w z hv hw
  unfold Value.sub
  rw [hw.negate_eq]
  have hz := nameless_negate z
  cases h : z.negate with
  | error f =>
    rw [h] at hz
    exact ⟨rfl, hz⟩
  | ok y =>
    rw [h] at hz
    exact ignoresNames_add hv (.same hz)

/-- Names are not confused, so continuations are told apart as before. -/
theorem Agree.same_eq (hv : Agree ρ v u) (hw : Agree ρ w z) : v.same w = u.same z := by
  cases hv with
  | continuation hq =>
    cases hw with
    | continuation hp =>
      simp only [Value.same, Value.continuation.injEq, Ref.mk.injEq, decide_eq_decide]
      constructor
      · rintro rfl
        exact ρ.cont_inj hq hp
      · rintro rfl
        exact Option.some.inj (hq.symm.trans hp)
    | same hw =>
      simp only [Value.same]
      rw [decide_eq_false (fun h => hw _ h.symm), decide_eq_false (fun h => hw _ h.symm)]
  | same hv =>
    cases hw with
    | continuation hp =>
      have h (r : Ref .continuation) : v.same (.continuation r) = false := by
        cases v <;> simp_all [Value.same]
      rw [h, h]
    | same => rfl

theorem ignoresNames_same : IgnoresNames ρ fun a b => .ok (.truth (a.same b)) := by
  intro v u w z hv hw
  dsimp only
  refine ⟨by rw [hv.same_eq hw], ?_⟩
  cases u.same z <;> exact fun _ => nofun

end Operations

/-! ## Scripts -/

inductive RequestAgree (ρ : Naming) : Request → Request → Prop
  | slot (depth index : Nat) : RequestAgree ρ (.slot depth index) (.slot depth index)
  | setSlot {v u : Value} (depth index : Nat) :
    Agree ρ v u → RequestAgree ρ (.setSlot depth index v) (.setSlot depth index u)
  | global (name : String) : RequestAgree ρ (.global name) (.global name)
  | define {v u : Value} (name : String) :
    Agree ρ v u → RequestAgree ρ (.define name v) (.define name u)
  | capture : RequestAgree ρ .capture .capture
  | items {v u : Value} : Agree ρ v u → RequestAgree ρ (.items v) (.items u)
  | car {v u : Value} : Agree ρ v u → RequestAgree ρ (.car v) (.car u)
  | cdr {v u : Value} : Agree ρ v u → RequestAgree ρ (.cdr v) (.cdr u)
  | setCar {v u w z : Value} : Agree ρ v u → Agree ρ w z →
    RequestAgree ρ (.setCar v w) (.setCar u z)
  | setCdr {v u w z : Value} : Agree ρ v u → Agree ρ w z →
    RequestAgree ρ (.setCdr v w) (.setCdr u z)
  | pair {v u w z : Value} : Agree ρ v u → Agree ρ w z → RequestAgree ρ (.pair v w) (.pair u z)
  | elements (r : Ref .vector) : RequestAgree ρ (.elements r) (.elements r)
  | setElements {vs us : List Value} (r : Ref .vector) :
    List.Forall₂ (Agree ρ) vs us → RequestAgree ρ (.setElements r vs) (.setElements r us)
  | vector {vs us : List Value} :
    List.Forall₂ (Agree ρ) vs us → RequestAgree ρ (.vector vs) (.vector us)

/-- The same answer to a request other than a call, up to names. -/
inductive ReplyAgree (ρ : Naming) :
    (q q' : Request) → Except Fault q.Reply → Except Fault q'.Reply → Prop
  | fault {q q' : Request} {f g : Fault} : FaultAgree f g → ReplyAgree ρ q q' (.error f) (.error g)
  | slot {d e i j : Nat} {v u : Value} :
    Agree ρ v u → ReplyAgree ρ (.slot d i) (.slot e j) (.ok v) (.ok u)
  | setSlot {d e i j : Nat} {v u : Value} :
    ReplyAgree ρ (.setSlot d i v) (.setSlot e j u) (.ok ()) (.ok ())
  | global {a b : String} {o p : Option Value} :
    Option.Rel (Agree ρ) o p → ReplyAgree ρ (.global a) (.global b) (.ok o) (.ok p)
  | define {a b : String} {v u : Value} :
    ReplyAgree ρ (.define a v) (.define b u) (.ok ()) (.ok ())
  | capture {v u : Value} : Agree ρ v u → ReplyAgree ρ .capture .capture (.ok v) (.ok u)
  | items {a b : Value} {vs us : List Value} :
    List.Forall₂ (Agree ρ) vs us → ReplyAgree ρ (.items a) (.items b) (.ok vs) (.ok us)
  | car {a b v u : Value} : Agree ρ v u → ReplyAgree ρ (.car a) (.car b) (.ok v) (.ok u)
  | cdr {a b v u : Value} : Agree ρ v u → ReplyAgree ρ (.cdr a) (.cdr b) (.ok v) (.ok u)
  | setCar {a b c d : Value} : ReplyAgree ρ (.setCar a b) (.setCar c d) (.ok ()) (.ok ())
  | setCdr {a b c d : Value} : ReplyAgree ρ (.setCdr a b) (.setCdr c d) (.ok ()) (.ok ())
  | pair {a b c d v u : Value} :
    Agree ρ v u → ReplyAgree ρ (.pair a b) (.pair c d) (.ok v) (.ok u)
  | elements {a b : Ref .vector} {vs us : List Value} :
    List.Forall₂ (Agree ρ) vs us → ReplyAgree ρ (.elements a) (.elements b) (.ok vs) (.ok us)
  | setElements {a b : Ref .vector} {vs us : List Value} :
    ReplyAgree ρ (.setElements a vs) (.setElements b us) (.ok ()) (.ok ())
  | vector {a b : List Value} {v u : Value} :
    Agree ρ v u → ReplyAgree ρ (.vector a) (.vector b) (.ok v) (.ok u)

inductive OutcomeAgree (ρ : Naming) : Outcome → Outcome → Prop
  | value {v u : Value} : Agree ρ v u → OutcomeAgree ρ (.value v) (.value u)
  | tailCall {v u : Value} {vs us : List Value} : Agree ρ v u → List.Forall₂ (Agree ρ) vs us →
    OutcomeAgree ρ (.tailCall v vs) (.tailCall u us)

namespace Script

variable {α β : Type}

/-- The scripts go on alike as long as their answers agree. More names may be given in between. -/
inductive Alike (R : Naming → α → α → Prop) : Naming → Script α → Script α → Prop
  | done {ρ : Naming} {a b : α} : R ρ a b → Alike R ρ (.done a) (.done b)
  | fail {ρ : Naming} {f g : Fault} : FaultAgree f g → Alike R ρ (.fail f) (.fail g)
  | ask {ρ : Naming} {q q' : Request} {next : Except Fault q.Reply → Script α}
      {next' : Except Fault q'.Reply → Script α} :
    RequestAgree ρ q q' →
    (∀ σ, ρ ≤ σ → ∀ a b, ReplyAgree σ q q' a b → Alike R σ (next a) (next' b)) →
    Alike R ρ (.ask q next) (.ask q' next')
  | call {ρ : Naming} {v u : Value} {vs us : List Value}
    {next next' : Except Fault Value → Script α} :
    Agree ρ v u → List.Forall₂ (Agree ρ) vs us →
    (∀ σ, ρ ≤ σ → ∀ w z, Agree σ w z → Alike R σ (next (.ok w)) (next' (.ok z))) →
    (∀ f, next (.error f) = .fail f) → (∀ f, next' (.error f) = .fail f) →
    Alike R ρ (.ask (.call v vs) next) (.ask (.call u us) next')

/-- The script does not look at names and hands on the faults of calls. -/
def Uniform (s : Script Outcome) : Prop := ∀ ρ, Alike OutcomeAgree ρ s s

variable {R : Naming → α → α → Prop} {S : Naming → β → β → Prop} {ρ : Naming}

theorem Alike.bind {s s' : Script α} {f f' : α → Script β} (h : Alike R ρ s s')
    (hf : ∀ σ, ρ ≤ σ → ∀ a b, R σ a b → Alike S σ (f a) (f' b)) :
    Alike S ρ (s >>= f) (s' >>= f') := by
  induction h with
  | done h => exact hf _ le_rfl _ _ h
  | fail h => exact .fail h
  | ask hq _ ih =>
    exact .ask hq fun σ hσ a b hab => ih σ hσ a b hab fun τ hτ => hf τ (hσ.trans hτ)
  | call hv hvs _ hn hn' ih =>
    refine .call hv hvs (fun σ hσ w z hwz => ih σ hσ w z hwz fun τ hτ => hf τ (hσ.trans hτ)) ?_ ?_
    · intro e
      exact congrArg (Script.bind · f) (hn e)
    · intro e
      exact congrArg (Script.bind · f') (hn' e)

theorem Alike.argument (index : Nat) : Alike Agree ρ (argument index) (argument index) := by
  refine .ask (.slot 0 index) fun σ _ a b hab => ?_
  cases hab with
  | fault h => exact .fail h
  | slot h => exact .done h

theorem Alike.capture : Alike Agree ρ (request .capture) (request .capture) := by
  refine .ask .capture fun σ _ a b hab => ?_
  cases hab with
  | fault h => exact .fail h
  | capture h => exact .done h

theorem Alike.items {v u : Value} (h : Agree ρ v u) :
    Alike (fun ρ => List.Forall₂ (Agree ρ)) ρ (items v) (items u) := by
  refine .ask (.items h) fun σ _ a b hab => ?_
  cases hab with
  | fault h => exact .fail h
  | items h => exact .done h

theorem Alike.car {v u : Value} (h : Agree ρ v u) :
    Alike Agree ρ (request (.car v)) (request (.car u)) := by
  refine .ask (.car h) fun σ _ a b hab => ?_
  cases hab with
  | fault h => exact .fail h
  | car h => exact .done h

theorem Alike.cdr {v u : Value} (h : Agree ρ v u) :
    Alike Agree ρ (request (.cdr v)) (request (.cdr u)) := by
  refine .ask (.cdr h) fun σ _ a b hab => ?_
  cases hab with
  | fault h => exact .fail h
  | cdr h => exact .done h

theorem Alike.pair {v u w z : Value} (hv : Agree ρ v u) (hw : Agree ρ w z) :
    Alike Agree ρ (request (.pair v w)) (request (.pair u z)) := by
  refine .ask (.pair hv hw) fun σ _ a b hab => ?_
  cases hab with
  | fault h => exact .fail h
  | pair h => exact .done h

theorem Alike.callValue {v u : Value} {vs us : List Value} (hv : Agree ρ v u)
    (hvs : List.Forall₂ (Agree ρ) vs us) : Alike Agree ρ (Script.call v vs) (Script.call u us) :=
  .call hv hvs (fun _ _ _ _ h => .done h) (fun _ => rfl) (fun _ => rfl)

theorem Alike.ofNameless {x : Except Fault Value} (h : Nameless x) :
    Alike Agree ρ (ofExcept x) (ofExcept x) := by
  cases x with
  | error f => exact .fail (.same f h)
  | ok v => exact .done (.same h)

theorem Alike.ofOperation {op : Value → Value → Except Fault Value} {v u w z : Value}
    (hop : IgnoresNames ρ op) (hv : Agree ρ v u) (hw : Agree ρ w z) :
    Alike Agree ρ (ofExcept (op v w)) (ofExcept (op u z)) := by
  obtain ⟨he, hx⟩ := hop hv hw
  rw [he]
  exact .ofNameless hx

theorem Alike.fold {op : Value → Value → Except Fault Value} (hop : IgnoresNames ρ op)
    {v u : Value} {vs us : List Value} (hv : Agree ρ v u) (hvs : List.Forall₂ (Agree ρ) vs us) :
    Alike Agree ρ (Standard.fold op v vs) (Standard.fold op u us) := by
  unfold Standard.fold
  induction hvs generalizing v u with
  | nil => exact .done hv
  | cons hab _ ih =>
    rw [List.foldlM_cons, List.foldlM_cons]
    obtain ⟨he, hx⟩ := hop hv hab
    rw [he]
    cases h : op u _ with
    | error f =>
      rw [h] at hx
      exact .fail (.same f hx)
    | ok x =>
      rw [h] at hx
      exact ih (.same hx)

theorem Alike.mapCalls {v u : Value} {vs us : List Value} (hv : Agree ρ v u)
    (hvs : List.Forall₂ (Agree ρ) vs us) :
    Alike (fun ρ => List.Forall₂ (Agree ρ)) ρ (vs.mapM fun item => Script.call v [item])
      (us.mapM fun item => Script.call u [item]) := by
  suffices h : ∀ {ρ : Naming} {ws zs : List Value}, Agree ρ v u → List.Forall₂ (Agree ρ) vs us →
      List.Forall₂ (Agree ρ) ws zs →
      Alike (fun ρ => List.Forall₂ (Agree ρ)) ρ
        (List.mapM.loop (fun item => Script.call v [item]) vs ws)
        (List.mapM.loop (fun item => Script.call u [item]) us zs) from h hv hvs .nil
  clear hv hvs
  induction vs generalizing us with
  | nil =>
    rintro ρ ws zs - ⟨⟩ hws
    exact .done (List.rel_reverse hws)
  | cons a vs ih =>
    rintro ρ ws zs hv (_ | ⟨hab, hvs⟩) hws
    refine (Alike.callValue hv (.cons hab .nil)).bind fun σ hσ x y hxy => ?_
    exact ih (hv.mono hσ) (forall₂_mono hvs hσ) (.cons hxy (forall₂_mono hws hσ))

theorem Alike.list {vs us : List Value} (hvs : List.Forall₂ (Agree ρ) vs us) :
    Alike Agree ρ (Script.list vs) (Script.list us) := by
  suffices h : ∀ {vs us : List Value} {ρ : Naming} {v u : Value}, List.Forall₂ (Agree ρ) vs us →
      Agree ρ v u → Alike Agree ρ (vs.foldlM (fun rest item => request (.pair item rest)) v)
        (us.foldlM (fun rest item => request (.pair item rest)) u) from
    h (List.rel_reverse hvs) .nil
  intro vs
  induction vs with
  | nil =>
    rintro us ρ v u ⟨⟩ hv
    exact .done hv
  | cons a vs ih =>
    rintro us ρ v u (_ | ⟨hab, hvs⟩) hv
    rw [List.foldlM_cons, List.foldlM_cons]
    exact (Alike.pair hab hv).bind fun σ hσ x y hxy => ih (forall₂_mono hvs hσ) hxy

/-! ## The standard procedures -/

theorem uniform_callWithContinuation : Uniform Standard.callWithContinuation := fun _ =>
  (Alike.argument 0).bind fun _ _ _ _ hr => Alike.capture.bind fun _ hσ _ _ hk =>
    .done (.tailCall (hr.mono hσ) (.cons hk .nil))

theorem forall₂_last {R : Value → Value → Prop} {vs us : List Value} (h : List.Forall₂ R vs us) :
    (vs = [] ∧ us = []) ∨ ∃ is js a b, vs = is ++ [a] ∧ us = js ++ [b] ∧ List.Forall₂ R is js ∧
      R a b := by
  induction h with
  | nil => exact .inl ⟨rfl, rfl⟩
  | @cons a b vs us hab _ ih =>
    right
    rcases ih with ⟨rfl, rfl⟩ | ⟨is, js, x, y, rfl, rfl, hi, hxy⟩
    · exact ⟨[], [], a, b, rfl, rfl, .nil, hab⟩
    · exact ⟨a :: is, b :: js, x, y, rfl, rfl, .cons hab hi, hxy⟩

/-- The first argument and the list of the further ones. -/
theorem Alike.firstAndRest {f f' : Value → List Value → Script Outcome}
    (hf : ∀ σ v u vs us, Agree σ v u → List.Forall₂ (Agree σ) vs us →
      Alike OutcomeAgree σ (f v vs) (f' u us)) :
    Alike OutcomeAgree ρ
      (Script.argument 0 >>= fun v => Script.argument 1 >>= fun l => Script.items l >>= f v)
      (Script.argument 0 >>= fun v => Script.argument 1 >>= fun l => Script.items l >>= f' v) := by
  refine (Alike.argument 0).bind fun σ _ v u hv => ?_
  refine (Alike.argument 1).bind fun τ hτ l l' hl => ?_
  refine (Alike.items hl).bind fun υ hυ vs us hvs => ?_
  exact hf υ v u vs us (hv.mono (hτ.trans hυ)) hvs

theorem uniform_apply : Uniform Standard.apply := by
  intro ρ
  refine Alike.firstAndRest fun σ callee callee' args args' hc ha => ?_
  rcases forall₂_last ha with ⟨rfl, rfl⟩ | ⟨is, js, a, b, rfl, rfl, hi, hab⟩
  · exact .done (.tailCall hc .nil)
  · simp only [List.getLast?_concat, List.dropLast_concat]
    refine (Alike.items hab).bind fun φ hφ xs ys hx => .done (.tailCall (hc.mono hφ) ?_)
    exact List.rel_append (forall₂_mono hi hφ) hx

theorem uniform_map : Uniform Standard.map := by
  intro ρ
  refine Alike.firstAndRest fun σ callee callee' vs us hc hvs => ?_
  refine (Alike.mapCalls hc hvs).bind fun φ _ results results' hr => ?_
  exact (Alike.list hr).bind fun _ _ _ _ h => .done (.value h)

theorem uniform_sum : Uniform Standard.sum := by
  intro ρ
  refine (Alike.argument 0).bind fun σ _ v u hv => (Alike.items hv).bind fun τ _ vs us hvs => ?_
  exact (Alike.fold ignoresNames_add .fixnum hvs).bind fun _ _ _ _ h => .done (.value h)

theorem uniform_product : Uniform Standard.product := by
  intro ρ
  refine (Alike.argument 0).bind fun σ _ v u hv => (Alike.items hv).bind fun τ _ vs us hvs => ?_
  exact (Alike.fold ignoresNames_mul .fixnum hvs).bind fun _ _ _ _ h => .done (.value h)

theorem uniform_difference : Uniform Standard.difference := by
  intro ρ
  refine Alike.firstAndRest fun σ v u vs us hv hvs => ?_
  cases hvs with
  | nil =>
    have hn : Alike Agree σ (ofExcept v.negate) (ofExcept u.negate) := by
      rw [hv.negate_eq]
      exact .ofNameless (nameless_negate u)
    exact hn.bind fun _ _ _ _ h => .done (.value h)
  | cons hab hvs =>
    exact (Alike.fold ignoresNames_sub hv (.cons hab hvs)).bind fun _ _ _ _ h => .done (.value h)

theorem uniform_quotient : Uniform Standard.quotient := by
  intro ρ
  refine Alike.firstAndRest fun σ v u vs us hv hvs => ?_
  cases hvs with
  | nil =>
    exact (Alike.ofOperation ignoresNames_div .fixnum hv).bind fun _ _ _ _ h => .done (.value h)
  | cons hab hvs =>
    exact (Alike.fold ignoresNames_div hv (.cons hab hvs)).bind fun _ _ _ _ h => .done (.value h)

theorem uniform_standard : ∀ p ∈ Standard.procedures, Uniform p.body := by
  intro p hp
  simp only [Standard.procedures, List.mem_cons, List.not_mem_nil, or_false] at hp
  rcases hp with rfl | rfl | rfl | rfl | rfl | rfl | rfl | rfl | rfl | rfl | rfl | rfl
  · exact uniform_callWithContinuation
  · exact uniform_sum
  · exact uniform_difference
  · exact uniform_product
  · exact uniform_quotient
  · exact fun ρ => (Alike.argument 0).bind fun _ _ _ _ h => .done (.value h)
  · refine fun ρ => (Alike.argument 0).bind fun σ _ v u hv => ?_
    exact (Alike.car hv).bind fun _ _ _ _ h => .done (.value h)
  · refine fun ρ => (Alike.argument 0).bind fun σ _ v u hv => ?_
    exact (Alike.cdr hv).bind fun _ _ _ _ h => .done (.value h)
  · refine fun ρ => (Alike.argument 0).bind fun σ _ v u hv => ?_
    refine (Alike.argument 1).bind fun τ hτ v' u' hv' => ?_
    exact (Alike.pair (hv.mono hτ) hv').bind fun _ _ _ _ h => .done (.value h)
  · refine fun ρ => (Alike.argument 0).bind fun σ _ v u hv => ?_
    refine (Alike.argument 1).bind fun τ hτ v' u' hv' => .done (.value ?_)
    rw [(hv.mono hτ).same_eq hv']
    exact .truth
  · exact uniform_apply
  · exact uniform_map

end Script

end LispMachine
