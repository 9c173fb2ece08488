import LispMachine.Procedure.Standard
import LispMachine.Proofs.Avoids

/-! # How scripts deal with faults

A script that is told that a request has failed may fail in turn or go on. Those that are put
together from requests fail with them, and the standard procedures are of this kind.
-/

namespace LispMachine

namespace Script

variable {α β : Type}

/-- A request to call that fails makes the whole script fail in the same way. -/
def PropagatesFaults : Script α → Prop
  | .done _ | .fail _ => True
  | .ask (.call _ _) next => (∀ f, next (.error f) = .fail f) ∧ ∀ v, (next (.ok v)).PropagatesFaults
  | .ask _ next => ∀ reply, (next reply).PropagatesFaults

theorem PropagatesFaults.of_ask {q : Request} {next : Except Fault q.Reply → Script α}
    (h : (Script.ask q next).PropagatesFaults) (hq : ∀ callee args, q ≠ .call callee args)
    (reply : Except Fault q.Reply) : (next reply).PropagatesFaults := by
  cases q with
  | call callee args => exact absurd rfl (hq callee args)
  | _ => exact h reply

theorem PropagatesFaults.bind {s : Script α} {f : α → Script β} (hs : s.PropagatesFaults)
    (hf : ∀ a, (f a).PropagatesFaults) :
    (s >>= f).PropagatesFaults := by
  change (s.bind f).PropagatesFaults
  induction s with
  | done a => exact hf a
  | fail e => trivial
  | ask q next ih =>
    cases q with
    | call callee args =>
      refine ⟨fun e => ?_, fun v => ih (.ok v) (hs.2 v)⟩
      exact congrArg (Script.bind · f) (hs.1 e)
    | _ => exact fun reply => ih reply (hs reply)

/-- The fault by which a loop ends early is internal to the machine: the script fails with it only
if it was told that something was unwound. -/
def RelaysUnwound : Script α → Prop
  | .done _ => True
  | .fail f => f ≠ .unwound
  | .ask _ next => ∀ reply, reply ≠ .error .unwound → (next reply).RelaysUnwound

theorem RelaysUnwound.bind {s : Script α} {f : α → Script β} (hs : s.RelaysUnwound)
    (hf : ∀ a, (f a).RelaysUnwound) : (s >>= f).RelaysUnwound := by
  change (s.bind f).RelaysUnwound
  induction s with
  | done a => exact hf a
  | fail e => exact hs
  | ask q next ih => exact fun reply hr => ih reply (hs reply hr)

/-- The script is put together from requests, and fails with them. -/
inductive Composed : {α : Type} → Script α → Prop
  | done {α : Type} (a : α) : Composed (.done a)
  | ofExcept {α : Type} {x : Except Fault α} : x ≠ .error .unwound → Composed (ofExcept x)
  | request (q : Request) : Composed (request q)
  | bind {α β : Type} {s : Script α} {f : α → Script β} : Composed s → (∀ a, Composed (f a)) →
      Composed (s >>= f)

theorem Composed.propagatesFaults {s : Script α} (h : s.Composed) : s.PropagatesFaults := by
  induction h with
  | done a => trivial
  | @ofExcept _ x hx => cases x <;> trivial
  | request q =>
    cases q with
    | call callee args => exact ⟨fun _ => rfl, fun _ => trivial⟩
    | _ =>
      intro reply
      cases reply <;> trivial
  | bind _ _ hs hf => exact hs.bind hf

theorem ne_unwound_of {x : Except Fault α} (h : ∀ f, x = .error f → f.isControl = false) :
    x ≠ .error .unwound := by
  intro hx
  cases h _ hx

theorem composed_fold {op : Value → Value → Except Fault Value} (hop : Value.OnNumbers op)
    (start : Value) (items : List Value) : (Standard.fold op start items).Composed := by
  refine .ofExcept (ne_unwound_of fun f hf => ?_)
  induction items generalizing start with
  | nil => cases hf
  | cons item items ih =>
    rw [List.foldlM_cons] at hf
    cases h : op start item with
    | ok v =>
      rw [h] at hf
      exact ih v hf
    | error e =>
      rw [h] at hf
      cases hf
      exact hop _ _ _ h

theorem composed_mapM {f : α → Script β} (hf : ∀ a, (f a).Composed) (as : List α) :
    (as.mapM f).Composed := by
  suffices h : ∀ bs, (List.mapM.loop f as bs).Composed from h []
  induction as with
  | nil => exact fun _ => .done _
  | cons a as ih => exact fun bs => (hf a).bind fun b => ih (b :: bs)

theorem composed_list (items : List Value) : (list items).Composed := by
  suffices h : ∀ (items : List Value) (v : Value),
      (items.foldlM (fun rest item => request (.pair item rest)) v).Composed from
    h items.reverse .nil
  intro items
  induction items with
  | nil => exact fun _ => .done _
  | cons item items ih =>
    intro v
    rw [List.foldlM_cons]
    exact (Composed.request _).bind ih

/-- The first argument and the list of the further ones. -/
theorem composed_firstAndRest {f : Value → List Value → Script α}
    (hf : ∀ first rest, (f first rest).Composed) :
    (argument 0 >>= fun first => argument 1 >>= fun list => items list >>= f first).Composed := by
  refine (Composed.request _).bind fun first => ?_
  refine (Composed.request _).bind fun list => ?_
  exact (Composed.request _).bind (hf first)

theorem composed_standard : ∀ p ∈ Standard.procedures, p.body.Composed := by
  have hvalue (s : Script Value) (hs : s.Composed) :
      (do return .value (← s) : Script Outcome).Composed :=
    hs.bind fun _ => .done _
  have harg (i : Nat) : (argument i).Composed := .request _
  intro p hp
  simp only [Standard.procedures, List.mem_cons, List.not_mem_nil, or_false] at hp
  rcases hp with rfl | rfl | rfl | rfl | rfl | rfl | rfl | rfl | rfl | rfl | rfl | rfl
  · exact (harg 0).bind fun _ => (Composed.request _).bind fun _ => .done _
  · exact (harg 0).bind fun _ => (Composed.request _).bind fun _ =>
      hvalue _ (composed_fold Value.onNumbers_add _ _)
  · refine composed_firstAndRest fun first rest => ?_
    cases rest with
    | nil => exact hvalue _ (.ofExcept (ne_unwound_of fun _ => Value.isControl_negate))
    | cons _ _ => exact hvalue _ (composed_fold Value.onNumbers_sub _ _)
  · exact (harg 0).bind fun _ => (Composed.request _).bind fun _ =>
      hvalue _ (composed_fold Value.onNumbers_mul _ _)
  · refine composed_firstAndRest fun first rest => ?_
    cases rest with
    | nil => exact hvalue _ (.ofExcept (ne_unwound_of (Value.onNumbers_div _ _)))
    | cons _ _ => exact hvalue _ (composed_fold Value.onNumbers_div _ _)
  · exact hvalue _ (harg 0)
  · exact (harg 0).bind fun _ => hvalue _ (.request _)
  · exact (harg 0).bind fun _ => hvalue _ (.request _)
  · exact (harg 0).bind fun _ => (harg 1).bind fun _ => hvalue _ (.request _)
  · exact (harg 0).bind fun _ => (harg 1).bind fun _ => .done _
  · refine composed_firstAndRest fun callee args => ?_
    cases args.getLast? with
    | none => exact .done _
    | some last => exact (Composed.request _).bind fun _ => .done _
  · refine composed_firstAndRest fun callee items => ?_
    refine (composed_mapM (fun item => .request (.call _ [item])) _).bind fun results => ?_
    exact hvalue _ (composed_list _)

theorem propagatesFaults_standard (p : Procedure) (hp : p ∈ Standard.procedures) :
    p.body.PropagatesFaults :=
  (composed_standard p hp).propagatesFaults

end Script

end LispMachine
