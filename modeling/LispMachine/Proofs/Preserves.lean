import LispMachine.Proofs.Evaluation
import Mathlib.Order.Defs.Unbundled

/-! # What every operation preserves

A relation between states that the operations of a storage preserve, and that does not look at the
registers, is preserved by every instruction, every call and every run, however they end. For the
functions that call each other this is shown by induction on the number of steps.
-/

namespace LispMachine.Machine

variable {σ α β : Type}

structure Preserves (R : σ → σ → Prop) (x : EStateM Stop σ α) : Prop where
  related (s : σ) : R s (final (x s))

/-! ## Operations in sequence -/

section Sequence

variable {R : σ → σ → Prop} {x : EStateM Stop σ α} {f : α → EStateM Stop σ β} {s : σ}

theorem related_bind [Std.Refl R] (hf : ∀ a, Preserves R (f a)) :
    R (final (x s)) (final ((x >>= f) s)) := by
  cases hx : x s with
  | ok a s' =>
    rw [bind_ok hx]
    exact (hf a).related s'
  | error e s' =>
    rw [bind_error hx]
    exact refl_of R s'

theorem Preserves.bind [IsPreorder σ R] (hx : Preserves R x) (hf : ∀ a, Preserves R (f a)) :
    Preserves R (x >>= f) :=
  ⟨fun s => trans_of R (hx.related s) (related_bind hf)⟩

theorem preserves_pure [Std.Refl R] (a : α) : Preserves R (pure a : EStateM Stop σ α) :=
  ⟨refl_of R⟩

theorem preserves_throw [Std.Refl R] (e : Stop) : Preserves R (throw e : EStateM Stop σ α) :=
  ⟨refl_of R⟩

theorem preserves_raise [Std.Refl R] (f : Fault) : Preserves R (raise f : EStateM Stop σ α) :=
  preserves_throw _

theorem preserves_get [Std.Refl R] : Preserves R (get : EStateM Stop σ σ) := ⟨refl_of R⟩

theorem preserves_query [Std.Refl R] (φ : σ → Except Stop α) : Preserves R (query φ) := by
  refine ⟨fun s => ?_⟩
  unfold query
  cases φ s <;> exact refl_of R s

theorem Preserves.ite {c : Prop} [Decidable c] {y : EStateM Stop σ α} (hx : Preserves R x)
    (hy : Preserves R y) : Preserves R (if c then x else y) := by
  split
  · exact hx
  · exact hy

theorem final_attempt : final (attempt x s) = final (x s) := by
  unfold attempt
  cases x s with
  | ok => rfl
  | error e => cases e <;> rfl

theorem Preserves.attempt (hx : Preserves R x) : Preserves R (attempt x) := by
  refine ⟨fun s => ?_⟩
  rw [final_attempt]
  exact hx.related s

theorem preserves_passUnwound [IsPreorder σ R] {x : EStateM Stop σ Unit} (hx : Preserves R x) :
    Preserves R (passUnwound x) := by
  refine hx.attempt.bind fun outcome => ?_
  split
  · exact preserves_pure _
  · exact preserves_pure _
  · exact preserves_raise _

end Sequence

/-! ## Registers and objects -/

section Registers

variable [HasRegisters σ]

/-- A relation between states that does not look at the registers. -/
class RegisterBlind (R : σ → σ → Prop) : Prop extends IsPreorder σ R where
  registers (s : σ) (r : Registers) : R s (HasRegisters.withRegisters s r)

variable {R : σ → σ → Prop} [RegisterBlind R]

theorem preserves_adjust (g : Registers → Registers) : Preserves R (adjust g) :=
  ⟨fun _ => RegisterBlind.registers ..⟩

theorem preserves_allocate (add : Heap → α × Heap) : Preserves R (allocate add) :=
  ⟨fun _ => RegisterBlind.registers ..⟩

theorem preserves_halt : Preserves R halt := preserves_adjust _

theorem preserves_setAcc (v : Value) : Preserves R (setAcc v) := preserves_adjust _

theorem preserves_setArgc (n : Nat) : Preserves R (setArgc n) := preserves_adjust _

theorem preserves_setIp (ip : Nat) : Preserves R (setIp ip) := preserves_adjust _

theorem preserves_checkArgc (least most : Nat) : Preserves R (checkArgc least most) :=
  preserves_get.bind fun _ => .ite (preserves_raise _) (.ite (preserves_raise _) (preserves_pure _))

theorem preserves_stopWith (f : Fault) : Preserves R (stopWith f : EStateM Stop σ α) :=
  (preserves_adjust _).bind fun _ => preserves_raise f

theorem preserves_cons (car cdr : Value) : Preserves R (cons car cdr) :=
  (preserves_allocate _).bind fun _ => preserves_pure _

theorem preserves_setCar (cell v : Value) : Preserves R (setCar cell v) := by
  cases cell with
  | pair => exact (preserves_query _).bind fun _ => preserves_adjust _
  | _ => exact preserves_raise _

theorem preserves_setCdr (cell v : Value) : Preserves R (setCdr cell v) := by
  cases cell with
  | pair => exact (preserves_query _).bind fun _ => preserves_adjust _
  | _ => exact preserves_raise _

theorem preserves_setVector (r : Ref .vector) (items : List Value) :
    Preserves R (setVector r items) :=
  (preserves_query _).bind fun _ => preserves_adjust _

theorem preserves_define (name : String) (v : Value) : Preserves R (define name v) := by
  unfold define
  split
  · exact preserves_adjust _
  · exact preserves_pure _

theorem preserves_splice (list tail : Value) : Preserves R (splice list tail) :=
  (preserves_query _).bind fun _ => preserves_allocate _

end Registers

variable [Storage σ]

class StoragePreserves (R : σ → σ → Prop) : Prop extends RegisterBlind R where
  push (v : Value) : Preserves R (Storage.push v)
  pushAll (vs : List Value) : Preserves R (Storage.pushAll vs)
  pop : Preserves R Storage.pop
  top : Preserves R Storage.top
  writeSlot (depth index : Nat) (v : Value) : Preserves R (Storage.writeSlot depth index v)
  pushFrame (taken extra : Nat) : Preserves R (Storage.pushFrame taken extra)
  reuseFrame (n : Nat) : Preserves R (Storage.reuseFrame n)
  promoteCurrent : Preserves R Storage.promoteCurrent
  pushReturnPoint (offset : Int) : Preserves R (Storage.pushReturnPoint offset)
  ret : Preserves R Storage.ret
  capture : Preserves R Storage.capture
  enterContinuation (k : Ref .continuation) : Preserves R (Storage.enterContinuation k)
  beginCall : Preserves R Storage.beginCall
  endCall (outermost : Bool) (id ip argc mark : Nat) (outcome : Except Fault Unit) :
    Preserves R (Storage.endCall outermost id ip argc mark outcome)

variable {R : σ → σ → Prop} [StoragePreserves R]

/-! ## Instructions -/

theorem preserves_fetchByte : Preserves R fetchByte := by
  refine preserves_get.bind fun s => ?_
  dsimp only
  split
  · exact (preserves_setIp _).bind fun _ => preserves_pure _
  · exact preserves_raise _

theorem preserves_fetchNat : Preserves R fetchNat :=
  preserves_fetchByte.bind fun _ => preserves_pure _

theorem preserves_fetchWord : Preserves R fetchWord := by
  refine preserves_get.bind fun s => ?_
  dsimp only
  split
  · exact (preserves_setIp _).bind fun _ => preserves_pure _
  · exact preserves_raise _

theorem preserves_popOnto (n : Nat) (list : Value) : Preserves R (popOnto n list) := by
  induction n generalizing list with
  | zero => exact preserves_pure _
  | succ n ih => exact StoragePreserves.pop.bind fun _ => (preserves_cons ..).bind fun _ => ih _

theorem preserves_enterFrame (a : Arity) : Preserves R (enterFrame a) := by
  refine preserves_get.bind fun s => .ite ?_ ?_
  · refine (preserves_checkArgc ..).bind fun _ => (preserves_popOnto ..).bind fun rest => ?_
    exact (StoragePreserves.pushFrame ..).bind fun _ => StoragePreserves.writeSlot ..
  · refine (preserves_checkArgc ..).bind fun _ => (preserves_query _).bind fun missing => ?_
    exact StoragePreserves.pushFrame ..

theorem preserves_unary (op : Heap → Value → Except Stop Value) : Preserves R (unary op) :=
  (preserves_query _).bind fun _ => preserves_setAcc _

theorem preserves_binary (op : Value → Value → Except Fault Value) : Preserves R (binary op) := by
  refine StoragePreserves.pop.bind fun a => preserves_get.bind fun s => ?_
  split
  · exact preserves_setAcc _
  · exact preserves_raise _

theorem preserves_update {change : Value → Value → EStateM Stop σ Unit}
    (hchange : ∀ v w, Preserves R (change v w)) : Preserves R (update change) := by
  refine StoragePreserves.pop.bind fun v => preserves_get.bind fun s => ?_
  exact (hchange ..).bind fun _ => preserves_setAcc _

theorem preserves_jumpIf (wanted : Value → Bool) : Preserves R (jumpIf wanted) := by
  refine preserves_fetchWord.bind fun offset => preserves_get.bind fun s => ?_
  exact .ite ((preserves_query _).bind fun target => preserves_setIp target) (preserves_pure _)

theorem preserves_execute {apply : EStateM Stop σ Unit} (ha : Preserves R apply) (op : Opcode) :
    Preserves R (execute apply op) := by
  cases op with
  | nop => exact preserves_pure _
  | push => exact preserves_get.bind fun _ => StoragePreserves.push _
  | pop => exact StoragePreserves.pop.bind fun _ => preserves_setAcc _
  | ret => exact StoragePreserves.ret
  | loadTrue | loadNil => exact preserves_setAcc _
  | halt => exact preserves_halt
  | not => exact preserves_unary fun _ v => .ok (.truth v.isNil)
  | car | cdr | partCar | partCdr => exact preserves_unary _
  | add | sub | mul | div => exact preserves_binary _
  | same => exact preserves_binary fun a b => .ok (.truth (a.same b))
  | cons | consReversed =>
    refine StoragePreserves.pop.bind fun v => preserves_get.bind fun s => ?_
    exact (preserves_cons ..).bind fun pair => preserves_setAcc pair
  | setCar => exact preserves_update preserves_setCar
  | setCdr => exact preserves_update preserves_setCdr
  | dup => exact StoragePreserves.top.bind fun _ => preserves_setAcc _
  | splice =>
    refine StoragePreserves.pop.bind fun v => preserves_get.bind fun s => ?_
    exact (preserves_splice ..).bind fun list => preserves_setAcc list
  | loadLiteral =>
    refine preserves_fetchWord.bind fun index => ?_
    exact (preserves_query _).bind fun v => preserves_setAcc v
  | loadInteger => exact preserves_fetchWord.bind fun _ => preserves_setAcc _
  | loadGlobal =>
    refine preserves_fetchWord.bind fun index => (preserves_query _).bind fun name => ?_
    exact (preserves_query _).bind fun v => preserves_setAcc v
  | storeGlobal =>
    refine preserves_fetchWord.bind fun index => ?_
    exact (preserves_query _).bind fun name => preserves_adjust _
  | apply => exact preserves_fetchNat.bind fun _ => (preserves_setArgc _).bind fun _ => ha
  | closure =>
    refine preserves_fetchWord.bind fun offset => (preserves_query _).bind fun entry => ?_
    refine StoragePreserves.promoteCurrent.bind fun env => ?_
    exact (preserves_allocate _).bind fun closure => preserves_setAcc _
  | jump => exact preserves_jumpIf fun _ => true
  | jumpTrue => exact preserves_jumpIf fun v => !v.isNil
  | jumpFalse => exact preserves_jumpIf Value.isNil
  | jumpBound => exact preserves_jumpIf fun v => !v.isUnbound
  | reuseFrame => exact preserves_fetchNat.bind fun _ => StoragePreserves.reuseFrame _
  | loadLocal =>
    refine preserves_fetchNat.bind fun index => ?_
    exact (preserves_query _).bind fun v => preserves_setAcc v
  | storeLocal =>
    refine preserves_fetchNat.bind fun index => preserves_get.bind fun s => ?_
    exact StoragePreserves.writeSlot ..
  | loadOuter =>
    refine preserves_fetchNat.bind fun depth => preserves_fetchNat.bind fun index => ?_
    exact (preserves_query _).bind fun v => preserves_setAcc v
  | storeOuter =>
    refine preserves_fetchNat.bind fun depth => preserves_fetchNat.bind fun index => ?_
    exact preserves_get.bind fun s => StoragePreserves.writeSlot ..
  | returnPoint => exact preserves_fetchWord.bind fun _ => StoragePreserves.pushReturnPoint _
  | frame | frameRest =>
    refine preserves_fetchNat.bind fun required => preserves_fetchNat.bind fun optional => ?_
    exact preserves_fetchNat.bind fun extra => preserves_enterFrame _

theorem preserves_stepWith {apply : EStateM Stop σ Unit} (ha : Preserves R apply) :
    Preserves R (stepWith apply) := by
  refine preserves_get.bind fun s => (preserves_adjust _).bind fun _ => ?_
  refine preserves_fetchByte.bind fun byte => ?_
  cases Opcode.ofByte? byte with
  | some op => exact preserves_execute ha op
  | none => exact preserves_raise _

/-! ## Calls -/

section Calls

variable {call : Value → List Value → EStateM Stop σ Value}

theorem preserves_answer (hc : ∀ v vs, Preserves R (call v vs)) (q : Request) :
    Preserves R (answer call q) := by
  cases q with
  | slot | items | car | cdr | elements => exact preserves_query _
  | global name =>
    rw [answer]
    exact preserves_query _
  | setSlot depth index v => exact StoragePreserves.writeSlot depth index v
  | define name v => exact preserves_define name v
  | call callee args => exact hc callee args
  | capture => exact StoragePreserves.capture.bind fun _ => preserves_pure _
  | setCar cell v => exact preserves_setCar cell v
  | setCdr cell v => exact preserves_setCdr cell v
  | pair car cdr => exact preserves_cons car cdr
  | setElements r items => exact preserves_setVector r items
  | vector items => exact (preserves_allocate _).bind fun _ => preserves_pure _

theorem preserves_runScript (hc : ∀ v vs, Preserves R (call v vs)) (s : Script α) :
    Preserves R (runScript call s) := by
  induction s with
  | done a => exact preserves_pure a
  | fail f => exact preserves_raise f
  | ask q next ih => exact (preserves_answer hc q).attempt.bind fun reply => ih reply

end Calls

theorem preserves_enterClosure (c : Ref .closure) : Preserves R (enterClosure c) :=
  (preserves_query _).bind fun _ => preserves_adjust _

theorem preserves_enterList (list : Value) : Preserves R (enterList list) := by
  refine (preserves_enterFrame _).bind fun _ => (preserves_query _).bind fun v => ?_
  cases v with
  | fixnum =>
    exact (preserves_query _).bind fun _ => (preserves_setAcc _).bind fun _ => StoragePreserves.ret
  | _ => exact preserves_raise _

theorem preserves_passArguments (callee : Value) (args : List Value) :
    Preserves R (passArguments callee args) := by
  refine (preserves_setArgc _).bind fun _ => (StoragePreserves.pushAll args).bind fun _ => ?_
  exact preserves_setAcc callee

/-- All that `n` steps can do preserves the relation. -/
structure CallsPreserve (R : σ → σ → Prop) (n : Nat) : Prop where
  apply : Preserves R (Machine.apply n)
  call : ∀ v vs, Preserves R (Machine.call n v vs)
  callLoop : ∀ id v vs, Preserves R (Machine.callLoop n id v vs)
  awaitReturn : ∀ id, Preserves R (Machine.awaitReturn n id)

namespace CallsPreserve

variable {n : Nat}

theorem apply_succ (h : CallsPreserve R n) : Preserves R (Machine.apply (n + 1)) := by
  rw [Machine.apply]
  refine preserves_get.bind fun s => ?_
  cases (HasRegisters.registers s).acc with
  | closure c => exact preserves_enterClosure c
  | continuation k => exact StoragePreserves.enterContinuation k
  | pair p => exact preserves_enterList _
  | procedure p =>
    refine (preserves_query _).bind fun p => (preserves_enterFrame _).bind fun _ => ?_
    refine (preserves_runScript h.call p.body).bind fun outcome => ?_
    cases outcome with
    | value v => exact (preserves_setAcc v).bind fun _ => StoragePreserves.ret
    | tailCall callee args => exact (preserves_passArguments callee args).bind fun _ => h.apply
  | _ => exact preserves_raise _

theorem call_succ (h : CallsPreserve R n) (v : Value) (vs : List Value) :
    Preserves R (Machine.call (n + 1) v vs) := by
  rw [Machine.call]
  refine preserves_get.bind fun s => ?_
  dsimp only
  refine .ite ((preserves_adjust _).bind fun _ => ?_) ?_
  all_goals
    refine StoragePreserves.beginCall.bind fun id => preserves_get.bind fun s => ?_
    exact (h.callLoop id v vs).attempt.bind fun outcome => StoragePreserves.endCall ..

theorem callLoop_succ (h : CallsPreserve R n) (id : Nat) (v : Value) (vs : List Value) :
    Preserves R (Machine.callLoop (n + 1) id v vs) := by
  rw [Machine.callLoop]
  refine (preserves_passArguments v vs).bind fun _ => ?_
  exact (preserves_passUnwound h.apply).bind fun _ => h.awaitReturn id

theorem awaitReturn_succ (h : CallsPreserve R n) (id : Nat) :
    Preserves R (Machine.awaitReturn (n + 1) id) := by
  rw [Machine.awaitReturn]
  refine .bind ⟨fun _ => RegisterBlind.registers ..⟩ fun turn => ?_
  cases turn with
  | done => exact preserves_pure _
  | unwind => exact preserves_raise _
  | step =>
    exact (preserves_passUnwound (preserves_stepWith h.apply)).bind fun _ => h.awaitReturn id

end CallsPreserve

theorem callsPreserve (n : Nat) : CallsPreserve R n := by
  induction n with
  | zero =>
    exact
      { apply := preserves_throw _
        call := fun _ _ => preserves_throw _
        callLoop := fun _ _ _ => preserves_throw _
        awaitReturn := fun _ => preserves_throw _ }
  | succ n ih =>
    exact
      { apply := ih.apply_succ
        call := ih.call_succ
        callLoop := ih.callLoop_succ
        awaitReturn := ih.awaitReturn_succ }

/-! ## Running -/

theorem preserves_step (n : Nat) : Preserves R (step n) :=
  preserves_stepWith (callsPreserve n).apply

theorem preserves_afterFault {x : EStateM Stop σ Unit} (hx : Preserves R x) (f : Fault) :
    Preserves R (do
      let r := HasRegisters.registers (← get)
      if f = .unwound ∧ (!r.runnable ∨ r.hosts.escape = some .run) then
        adjust ({ · with hosts.escape := none })
        x
      else stopWith f) :=
  preserves_get.bind fun _ => .ite ((preserves_adjust _).bind fun _ => hx) (preserves_stopWith f)

theorem preserves_runLoop (n : Nat) : Preserves R (runLoop n) := by
  induction n with
  | zero => exact preserves_throw _
  | succ n ih =>
    rw [runLoop]
    refine preserves_get.bind fun _ => .ite ?_ (preserves_pure _)
    refine (preserves_step n).attempt.bind fun outcome => ?_
    cases outcome with
    | ok => exact ih
    | error f => exact preserves_afterFault ih f

theorem preserves_afterLoop (outcome : Except Fault Unit) : Preserves R (do
    adjust ({ · with hosts.running := false })
    match outcome with
    | .ok () => pure ()
    | .error f => raise f) := by
  refine (preserves_adjust _).bind fun _ => ?_
  cases outcome with
  | ok => exact preserves_pure _
  | error f => exact preserves_raise f

theorem preserves_run (n : Nat) : Preserves R (run n) :=
  preserves_get.bind fun _ => .ite
    ((preserves_adjust _).bind fun _ => (preserves_runLoop n).attempt.bind preserves_afterLoop)
    (preserves_raise _)

end LispMachine.Machine
