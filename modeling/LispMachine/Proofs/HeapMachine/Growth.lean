import LispMachine.Proofs.HeapMachine.Basic
import LispMachine.Proofs.Preserves
import Mathlib.Data.Nat.Basic

/-! # What a program asks for only grows

Whatever the machine without a stack does, the number of cells that are enough for it never gets
smaller. So a run asks for no less than any part of it.
-/

namespace LispMachine.HeapMachine

open Machine

variable {α β : Type}

def DemandsMore (r r' : HeapMachine) : Prop := r.demand.enough ≤ r'.demand.enough

instance : RegisterBlind DemandsMore where
  refl _ := le_rfl
  trans _ _ _ := le_trans
  registers _ _ := le_rfl

abbrev demanded (x : EStateM.Result Stop HeapMachine α) : Nat := (final x).demand.enough

abbrev Grows (x : HeapExec α) : Prop := Preserves DemandsMore x

theorem demanded_le_bind {x : HeapExec α} {f : α → HeapExec β} {r : HeapMachine}
    (hf : ∀ a, Grows (f a)) : demanded (x r) ≤ demanded ((x >>= f) r) := related_bind hf

theorem grows_modify {g : HeapMachine → HeapMachine} (hg : ∀ r, DemandsMore r (g r)) :
    Grows (modify g) := ⟨hg⟩

theorem le_enough_ask (d : Demand) (n : Nat) : d.enough ≤ (d.ask n).enough := le_max_left ..

theorem le_enough_restoring (r : HeapMachine) (k : Ref .continuation) (saved : Nat) :
    r.demand.enough ≤ (r.restoring k saved).enough := le_max_left ..

theorem grows_newContinuation (k : Continuation) (b : Birth) : Grows (newContinuation k b) :=
  ⟨fun _ => le_rfl⟩

theorem grows_push (v : Value) : Grows (push v) := by
  refine ⟨fun r => ?_⟩
  unfold push
  split
  · exact le_rfl
  · exact le_enough_ask ..

theorem grows_pushAll (vs : List Value) : Grows (pushAll vs) := by
  induction vs with
  | nil => exact preserves_pure _
  | cons v vs ih => exact (grows_push v).bind fun _ => ih

theorem grows_pop : Grows pop := by
  refine ⟨fun r => ?_⟩
  unfold pop
  cases r.operands.back? <;> exact le_rfl

theorem grows_pushFrame (taken extra : Nat) : Grows (pushFrame taken extra) := by
  refine ⟨fun r => ?_⟩
  unfold pushFrame
  split <;> exact le_rfl

theorem grows_writeSlot (depth index : Nat) (v : Value) : Grows (writeSlot depth index v) :=
  (preserves_query _).bind fun _ => .ite (grows_modify fun _ => le_rfl) (preserves_raise _)

theorem grows_reuseFrame (n : Nat) : Grows (reuseFrame n) := by
  refine preserves_get.bind fun r => .ite (preserves_throw _) ?_
  cases r.env with
  | empty => exact grows_modify fun _ => le_rfl
  | onHeap f =>
    exact .ite (preserves_throw _) ((preserves_query _).bind fun _ => grows_modify fun _ => le_rfl)
  | onStack => exact preserves_throw _

theorem grows_pushReturnPoint (offset : Int) : Grows (pushReturnPoint offset) := by
  refine (preserves_query _).bind fun target => ⟨fun r => ?_⟩
  rw [get_bind_apply]
  split
  · exact le_rfl
  · cases ho : ownerOf r.heap r.cont with
    | error =>
      rw [bind_error (show query (fun r => ownerOf r.heap r.cont) r = .error _ r by rw [query, ho])]
      exact le_rfl
    | ok owner =>
      rw [bind_ok (show query (fun r => ownerOf r.heap r.cont) r = .ok owner r by rw [query, ho])]
      exact le_enough_ask ..

theorem grows_resume (k : Ref .continuation) : Grows (resume k) := by
  refine (preserves_query _).bind fun c => ?_
  cases c.resume with
  | halt => exact preserves_halt
  | host id =>
    exact preserves_get.bind fun _ => .ite (grows_modify fun _ => le_rfl) (preserves_raise _)
  | code ip => exact grows_modify fun r => le_enough_restoring ..

theorem grows_ret : Grows ret := by
  refine preserves_get.bind fun r => ?_
  cases r.cont with
  | empty => exact preserves_halt
  | onHeap k => exact grows_resume k
  | onStack => exact preserves_throw _

theorem grows_capture : Grows capture := by
  refine .bind (grows_modify fun _ => le_rfl) fun _ => preserves_get.bind fun r => ?_
  cases r.cont with
  | onHeap k => exact preserves_pure k
  | empty =>
    exact (grows_newContinuation ..).bind fun _ =>
      .bind (grows_modify fun _ => le_rfl) fun _ => preserves_pure _
  | onStack => exact preserves_throw _

theorem grows_enterContinuation (k : Ref .continuation) : Grows (enterContinuation k) := by
  refine (preserves_checkArgc ..).bind fun _ => grows_pop.bind fun v => ?_
  refine (preserves_setAcc v).bind fun _ => (preserves_query _).bind fun object => ?_
  exact .bind (grows_modify fun _ => le_rfl) fun _ => grows_ret

theorem grows_beginCall : Grows beginCall := by
  refine preserves_get.bind fun r => (grows_newContinuation ..).bind fun marker => ?_
  exact .bind (grows_modify fun _ => le_rfl) fun _ => preserves_pure _

theorem grows_endCall (outermost : Bool) (id ip argc mark : Nat) (outcome : Except Fault Unit) :
    Grows (endCall outermost id ip argc mark outcome) := by
  refine .bind (grows_modify fun _ => le_rfl) fun _ => ?_
  cases outcome with
  | ok =>
    exact .bind (grows_modify fun _ => le_rfl) fun _ => preserves_get.bind fun _ => preserves_pure _
  | error f =>
    refine .ite (preserves_get.bind fun _ => .ite ?_ (preserves_stopWith f)) (preserves_raise f)
    exact .bind (grows_modify fun _ => le_rfl) fun _ => preserves_get.bind fun _ => preserves_pure _

instance : StoragePreserves DemandsMore where
  push := grows_push
  pushAll := grows_pushAll
  pop := grows_pop
  top := preserves_query _
  writeSlot := grows_writeSlot
  pushFrame := grows_pushFrame
  reuseFrame := grows_reuseFrame
  promoteCurrent := preserves_get.bind fun _ => preserves_pure _
  pushReturnPoint := grows_pushReturnPoint
  ret := grows_ret
  capture := grows_capture
  enterContinuation := grows_enterContinuation
  beginCall := grows_beginCall
  endCall := grows_endCall

end LispMachine.HeapMachine
