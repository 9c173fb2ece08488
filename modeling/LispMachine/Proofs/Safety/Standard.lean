import LispMachine.Proofs.Safety.Known

/-! # The standard procedures mention known values only

The values that a standard procedure passes on are its arguments, the items of lists, results of
calls, and numbers.
-/

namespace LispMachine.Script

variable {h : Heap}

theorem yields_argument (index : Nat) : (argument index).Yields (fun h v => v.KnownIn h) h :=
  yields_request trivial

theorem yields_items {v : Value} (hv : v.KnownIn h) :
    (items v).Yields (fun h vs => ∀ v ∈ vs, v.KnownIn h) h :=
  yields_request hv

/-- The first argument and the list of the further ones. -/
theorem yields_firstAndRest {f : Value → List Value → Script α} {Q : Heap → α → Prop}
    (hf : ∀ h' first rest, first.KnownIn h' → (∀ v ∈ rest, v.KnownIn h') →
      (f first rest).Yields Q h') :
    (argument 0 >>= fun first => argument 1 >>= fun list => items list >>= f first).Yields Q h := by
  refine (yields_argument 0).bind fun h₁ first _ hfirst => ?_
  refine (yields_argument 1).bind fun h₂ list hw hlist => ?_
  refine (yields_items hlist).bind fun h₃ rest hw' hrest => ?_
  exact hf h₃ first rest (hfirst.mono (hw.trans hw')) hrest

theorem yields_call {callee : Value} {args : List Value} (hc : callee.KnownIn h)
    (ha : ∀ v ∈ args, v.KnownIn h) : (call callee args).Yields (fun h v => v.KnownIn h) h :=
  yields_request ⟨hc, ha⟩

theorem yields_fold {op : Value → Value → Except Fault Value} (hop : Value.Plain op) {start : Value}
    (hs : start.KnownIn h) (items : List Value) :
    (Standard.fold op start items).Yields (fun h v => v.KnownIn h) h := by
  induction items generalizing start with
  | nil => exact hs
  | cons a items ih =>
    rw [Standard.fold, List.foldlM_cons]
    cases hv : op start a with
    | ok v => exact ih (hop _ _ _ hv h)
    | error f => trivial

theorem yields_mapCalls {f : Value} {vs : List Value} (hf : f.KnownIn h)
    (hv : ∀ v ∈ vs, v.KnownIn h) :
    (vs.mapM fun item => call f [item]).Yields (fun h vs => ∀ v ∈ vs, v.KnownIn h) h := by
  suffices hloop : ∀ {h : Heap} {done : List Value}, f.KnownIn h → (∀ v ∈ vs, v.KnownIn h) →
      (∀ v ∈ done, v.KnownIn h) → (List.mapM.loop (fun item => call f [item]) vs done).Yields
        (fun h vs => ∀ v ∈ vs, v.KnownIn h) h from
    hloop hf hv fun _ h => by cases h
  clear hf hv
  induction vs with
  | nil =>
    intro h done _ _ hdone v hv
    exact hdone v (List.mem_reverse.1 hv)
  | cons a vs ih =>
    intro h done hf hv hdone
    have ha : ∀ v ∈ [a], v.KnownIn h := fun v hm => hv v (by simp_all)
    refine (yields_call hf ha).bind fun h' v hw hr => ih (hf.mono hw) ?_ ?_
    · exact fun v hm => (hv v (List.mem_cons_of_mem _ hm)).mono hw
    · intro u hm
      rcases List.mem_cons.1 hm with rfl | hm
      · exact hr
      · exact (hdone u hm).mono hw

theorem yields_list {vs : List Value} (hv : ∀ v ∈ vs, v.KnownIn h) :
    (list vs).Yields (fun h v => v.KnownIn h) h := by
  suffices hfold : ∀ {vs : List Value} {h : Heap} {rest : Value}, (∀ v ∈ vs, v.KnownIn h) →
      rest.KnownIn h → (vs.foldlM (fun rest item => request (.pair item rest)) rest).Yields
        (fun h v => v.KnownIn h) h from
    hfold (fun v hm => hv v (List.mem_reverse.1 hm)) trivial
  intro vs
  induction vs with
  | nil => exact fun _ hr => hr
  | cons a vs ih =>
    intro h rest hv hr
    rw [List.foldlM_cons]
    refine (yields_request (q := .pair a rest) ⟨hv a List.mem_cons_self, hr⟩).bind
      fun h' v hw hv' => ?_
    exact ih (fun u hm => (hv u (List.mem_cons_of_mem _ hm)).mono hw) hv'

theorem known_apply : KnownIn h Standard.apply := by
  refine yields_firstAndRest fun h' callee args hc ha => ?_
  cases hlast : args.getLast? with
  | none =>
    exact ⟨hc, fun v hm => ha v (List.dropLast_subset _ (by simpa using hm))⟩
  | some last =>
    refine (yields_items (ha _ (List.mem_of_getLast? hlast))).bind fun h₄ spread hw₄ hs => ?_
    refine ⟨hc.mono hw₄, fun v hm => ?_⟩
    rcases List.mem_append.1 hm with hm | hm
    · exact (ha v (List.dropLast_subset _ hm)).mono hw₄
    · exact hs v hm

theorem known_standard {p : Procedure} (hp : p ∈ Standard.procedures) : p.body.KnownIn h := by
  simp only [Standard.procedures, List.mem_cons, List.not_mem_nil, or_false] at hp
  rcases hp with rfl | rfl | rfl | rfl | rfl | rfl | rfl | rfl | rfl | rfl | rfl | rfl
  · refine (yields_argument 0).bind fun h₁ callee _ hr => ?_
    refine (yields_request (q := .capture) trivial).bind fun h₂ k hw hk =>
      ⟨hr.mono hw, fun v hm => ?_⟩
    rw [List.mem_singleton.1 hm]
    exact hk
  · refine (yields_argument 0).bind fun h₁ list _ hl => (yields_items hl).bind fun h₂ vs _ _ => ?_
    exact (yields_fold Value.plain_add (Value.known_fixnum 0) vs).bind fun _ _ _ hv => hv
  · refine yields_firstAndRest fun h' first vs hf _ => ?_
    cases vs with
    | nil => exact (yields_ofExcept fun _ hv => Value.known_negate hv h').bind fun _ _ _ hv => hv
    | cons a vs => exact (yields_fold Value.plain_sub hf _).bind fun _ _ _ hv => hv
  · refine (yields_argument 0).bind fun h₁ list _ hl => (yields_items hl).bind fun h₂ vs _ _ => ?_
    exact (yields_fold Value.plain_mul (Value.known_fixnum 1) vs).bind fun _ _ _ hv => hv
  · refine yields_firstAndRest fun h' first vs hf _ => ?_
    cases vs with
    | nil =>
      exact (yields_ofExcept fun _ hv => Value.plain_div _ _ _ hv h').bind fun _ _ _ hv => hv
    | cons a vs => exact (yields_fold Value.plain_div hf _).bind fun _ _ _ hv => hv
  · exact (yields_argument 0).bind fun _ _ _ hv => hv
  · exact (yields_argument 0).bind fun _ v _ hv =>
      (yields_request (q := .car v) hv).bind fun _ _ _ hv => hv
  · exact (yields_argument 0).bind fun _ v _ hv =>
      (yields_request (q := .cdr v) hv).bind fun _ _ _ hv => hv
  · refine (yields_argument 0).bind fun h₁ v _ hv => (yields_argument 1).bind fun h₂ w hw hw' => ?_
    exact (yields_request (q := .pair v w) ⟨hv.mono hw, hw'⟩).bind fun _ _ _ hv => hv
  · exact (yields_argument 0).bind fun _ _ _ _ => (yields_argument 1).bind fun _ _ _ _ =>
      Value.known_truth _
  · exact known_apply
  · refine yields_firstAndRest fun h' callee vs hf hv => ?_
    refine (yields_mapCalls hf hv).bind fun h'' results _ hr => ?_
    exact (yields_list hr).bind fun _ _ _ hv => hv

end LispMachine.Script
