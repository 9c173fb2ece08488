import Mathlib.Logic.Relation
import LispMachine.Proofs.Assembly.Fetching
import LispMachine.Proofs.Programs.Operations

/-! # Programs as they see themselves

A program that calls closures with their arguments and returns from them can be followed without a
stack: through its slots, its operands and its callers. Each rule says what one instruction does to
them. The capacity of the stack matters only where something is pushed besides the operands, so the
machine follows every rule, whatever has moved to the heap by then.
-/

namespace LispMachine

open Machine

/-- What stays the same while a program runs. -/
structure Site where
  code : Code
  literals : Array Value
  closures : Array Closure
  capacity : Nat

def Code.Has (code : Code) (ip : Nat) (op : Opcode) (operand : Operand) : Prop :=
  Item.decode? code ip = some (.instruction ⟨ip, op, operand⟩)

instance (code : Code) (ip : Nat) (op : Opcode) (operand : Operand) :
    Decidable (code.Has ip op operand) := inferInstanceAs (Decidable (_ = _))

/-- What an opcode computes from an operand and the accumulator. -/
def Opcode.operation? : Opcode → Option (Value → Value → Except Fault Value)
  | add => some Value.add
  | sub => some Value.sub
  | mul => some Value.mul
  | div => some Value.div
  | same => some fun a b => .ok (.truth (a.same b))
  | _ => none

/-- What a procedure has in front of it. It is `direct` if it has left no return point since it was
entered or returned to. -/
structure Activation where
  ip : Nat
  acc : Value
  slots : List Value
  operands : List Value
  callers : List Suspended
  direct : Bool

/-- A program is inside a procedure, has left one and not yet entered the next, is about to enter
one, or has halted. -/
inductive View
  | inside (x : Activation)
  | leaving (ip : Nat) (acc : Value) (args : List Value)
  | entering (ip : Nat) (acc : Value) (args : List Value) (callers : List Suspended)
  | halted (acc : Value)

/-- What an instruction does. -/
inductive View.Step (S : Site) : View → View → Prop
  | loadLocal {x : Activation} {n : UInt8} {v : Value} : S.code.Has x.ip .loadLocal (.byte n) →
    x.slots[n.toNat]? = some v → Step S (.inside x) (.inside { x with ip := x.ip + 2, acc := v })
  | loadInteger {x : Activation} {n : Int} : S.code.Has x.ip .loadInteger (.word n) →
    Step S (.inside x) (.inside { x with ip := x.ip + 5, acc := .fixnum n })
  | loadLiteral {x : Activation} {n : Nat} {v : Value} : S.code.Has x.ip .loadLiteral (.word n) →
    S.literals[n]? = some v → Step S (.inside x) (.inside { x with ip := x.ip + 5, acc := v })
  | push {x : Activation} : S.code.Has x.ip .push .none → x.operands.length + 1 ≤ S.capacity →
    Step S (.inside x) (.inside { x with ip := x.ip + 1, operands := x.operands ++ [x.acc] })
  | compute {x : Activation} {op : Opcode} {f : Value → Value → Except Fault Value}
    {operands : List Value} {a v : Value} : S.code.Has x.ip op .none → op.operation? = some f →
    x.operands = operands ++ [a] → f a x.acc = .ok v →
    Step S (.inside x) (.inside { x with ip := x.ip + 1, acc := v, operands })
  | jump {x : Activation} {op : Opcode} {offset : Int} {target : Nat} :
    S.code.Has x.ip op (.word offset) → op.isJump = true → op.usesTarget x.acc = true →
    wrap (↑(x.ip + 5) + offset) = target → Step S (.inside x) (.inside { x with ip := target })
  | fall {x : Activation} {op : Opcode} {offset : Int} : S.code.Has x.ip op (.word offset) →
    op.isJump = true → op.usesTarget x.acc = false →
    Step S (.inside x) (.inside { x with ip := x.ip + 5 })
  | returnPoint {x : Activation} {offset : Int} {target : Nat} :
    S.code.Has x.ip .returnPoint (.word offset) → wrap (↑(x.ip + 5) + offset) = target →
    x.direct = true → x.operands.length + 4 ≤ S.capacity → Step S (.inside x) (.inside { x with
      ip := x.ip + 5
      operands := []
      callers := ⟨target, x.operands, x.slots⟩ :: x.callers
      direct := false })
  | ret {x : Activation} {c : Suspended} {callers : List Suspended} : S.code.Has x.ip .ret .none →
    x.callers = c :: callers → x.operands.length + c.operands.length ≤ S.capacity →
    Step S (.inside x) (.inside ⟨c.ip, x.acc, c.slots, c.operands, callers, true⟩)
  | finish {x : Activation} : S.code.Has x.ip .ret .none → x.callers = [] →
    Step S (.inside x) (.halted x.acc)
  | call {x : Activation} {n : UInt8} {r : Ref .closure} {entry : Nat} :
    S.code.Has x.ip .apply (.byte n) → x.operands.length = n.toNat → x.acc = .closure r →
    S.closures[r.index]? = some ⟨.empty, entry⟩ →
    Step S (.inside x) (.entering entry x.acc x.operands x.callers)
  | leave {x : Activation} {n : UInt8} : S.code.Has x.ip .reuseFrame (.byte n) →
    x.operands.length = n.toNat → x.callers = [] →
    Step S (.inside x) (.leaving (x.ip + 2) x.acc x.operands)
  | callLast {ip : Nat} {args : List Value} {n : UInt8} {r : Ref .closure} {entry : Nat} :
    S.code.Has ip .apply (.byte n) → args.length = n.toNat →
      S.closures[r.index]? = some ⟨.empty, entry⟩ →
    Step S (.leaving ip (.closure r) args) (.entering entry (.closure r) args [])
  | frame {ip : Nat} {acc : Value} {args : List Value} {callers : List Suspended} {n : UInt8} :
    S.code.Has ip .frame (.triple n 0 0) → args.length = n.toNat →
    Step S (.entering ip acc args callers) (.inside ⟨ip + 4, acc, args, [], callers, true⟩)

abbrev View.Reaches (S : Site) : View → View → Prop := Relation.ReflTransGen (View.Step S)

/-! ## What a machine shows -/

/-- The program is loaded and runs. -/
structure Site.Holds (S : Site) (m : Machine) : Prop where
  code : m.code = S.code
  literals : m.literals = S.literals
  closures : m.heap.closures = S.closures
  capacity : m.capacity = S.capacity
  runnable : m.runnable = true

structure Activation.On (x : Activation) (segs : List Segment) (m : Machine) : Prop
    extends Active segs x.slots x.operands x.callers m where
  ip : m.ip = x.ip
  acc : m.acc = x.acc
  direct : x.direct = true → m.cont.top ≤ m.bp

/-- This is what the program on the machine has in front of it. -/
inductive Shows (S : Site) (m : Machine) : View → Prop
  | inside {x : Activation} {segs : List Segment} : S.Holds m → x.On segs m → Shows S m (.inside x)
  | leaving {args : List Value} {segs : List Segment} : S.Holds m → Ready segs args [] m →
    Shows S m (.leaving m.ip m.acc args)
  | entering {args : List Value} {callers : List Suspended} {segs : List Segment} : S.Holds m →
    Ready segs args callers m → m.argc = args.length → Shows S m (.entering m.ip m.acc args callers)
  | halted : m.runnable = false → Shows S m (.halted m.acc)

variable {S : Site} {segs : List Segment} {m m' : Machine} {V V' : View} {x : Activation}
  {slots operands args : List Value} {callers : List Suspended} {op : Opcode} {operand : Operand}
  {v : Value}

theorem Site.Holds.alike (h : S.Holds m) (h' : Alike m m') : S.Holds m' where
  code := by rw [h'.rest, h.code]
  literals := by rw [h'.rest, h.literals]
  closures := h'.closures.trans h.closures
  capacity := h'.capacity.trans h.capacity
  runnable := by rw [h'.rest, h.runnable]

theorem Active.withRegisters (hm : Active segs slots operands callers m) (ip current argc : Nat)
    (acc : Value) (hosts : HostCalls) :
    Active segs slots operands callers { m with ip, current, acc, argc, hosts } where
  laid := { hm.laid with }
  frames_le := hm.frames_le
  base_le := hm.base_le
  room := hm.room
  values := hm.values
  slots := hm.slots.of_same rfl rfl
  callers := hm.callers.of_same rfl rfl le_rfl

theorem Ready.withRegisters (hm : Ready segs args callers m) (ip current argc : Nat) (acc : Value)
    (hosts : HostCalls) : Ready segs args callers { m with ip, current, acc, argc, hosts } where
  laid := { hm.laid with }
  values := hm.values
  callers := hm.callers.of_same rfl rfl le_rfl

theorem Site.Holds.withRegisters (hm : S.Holds m) (ip current argc : Nat) (acc : Value)
    (hosts : HostCalls) : S.Holds { m with ip, current, acc, argc, hosts } := { hm with }

theorem Site.Holds.step (hm : S.Holds m) (h : S.code.Has m.ip op operand) (n : Nat) :
    Machine.step n m =
      perform (Machine.apply n) ⟨m.ip, op, operand⟩ (m.readTo (m.ip + op.length)) := by
  have hfetch : m.Fetches (.instruction ⟨m.ip, op, operand⟩) :=
    fetches_of_decode? (by rw [hm.code]; exact h)
  rw [Machine.step, stepWith_eq, bind_ok hfetch]

theorem Site.Holds.readTo (hm : S.Holds m) (ip : Nat) : S.Holds (m.readTo ip) := { hm with }

theorem Activation.On.readTo (hx : x.On segs m) (ip : Nat) : { x with ip }.On segs (m.readTo ip) :=
  ⟨hx.toActive.withRegisters .., rfl, hx.acc, hx.direct⟩

theorem Activation.On.withAcc (hx : x.On segs m) (v : Value) :
    { x with acc := v }.On segs { m with acc := v } :=
  ⟨hx.toActive.withRegisters .., hx.ip, rfl, hx.direct⟩

theorem Machine.HasSlots.readSlot (h : m.HasSlots m.env slots) {i : Nat} (hi : slots[i]? = some v) :
    m.readSlot 0 i = .ok v := by
  obtain ⟨f, hf, rfl⟩ := h
  have hread := toOption_readSlot (m := m) 0 i
  rw [slot?, hf] at hread
  rw [Array.getElem?_toList] at hi
  change (m.readSlot 0 i).toOption = f.slots[i]? at hread
  rw [hi] at hread
  cases hr : m.readSlot 0 i with
  | error s =>
    rw [hr] at hread
    cases hread
  | ok u =>
    rw [hr] at hread
    cases hread
    rfl

/-! ## One instruction -/

def Goes (S : Site) (m : Machine) (V : View) : Prop :=
  ∃ m', (∀ n, Machine.step (n + 1) m = .ok () m') ∧ Shows S m' V

theorem Site.Holds.goes (hm : S.Holds m) (h : S.code.Has m.ip op operand)
    (hrun : ∀ n, perform (Machine.apply (n + 1)) ⟨m.ip, op, operand⟩ (m.readTo (m.ip + op.length)) =
      .ok () m') (hV : Shows S m' V) : Goes S m V :=
  ⟨m', fun n => (hm.step h _).trans (hrun n), hV⟩

namespace Activation.On

theorem goes_load (hx : x.On segs m) (hm : S.Holds m) (h : S.code.Has x.ip op operand)
    (hrun : ∀ apply, perform apply ⟨m.ip, op, operand⟩ (m.readTo (m.ip + op.length)) =
      .ok () { m.readTo (m.ip + op.length) with acc := v }) :
    Goes S m (.inside { x with ip := x.ip + op.length, acc := v }) := by
  rw [← hx.ip] at h ⊢
  exact hm.goes h (fun n => hrun _) (.inside { hm with } ((hx.readTo _).withAcc v))

/-- An operation after which the procedure goes on with other operands and callers. -/
theorem goes_on {y : Activation} {segs' : List Segment} (hx : x.On segs m) (hm : S.Holds m)
    (h : S.code.Has x.ip op operand)
    (hrun : ∀ n, perform (Machine.apply n) ⟨m.ip, op, operand⟩ (m.readTo (m.ip + op.length)) =
      .ok () m')
    (hy : Active segs' y.slots y.operands y.callers m')
    (halike : Alike { m with ip := y.ip, current := m.ip, acc := y.acc } m')
    (hdirect : y.direct = true → m'.cont.top ≤ m'.bp) : Goes S m (.inside y) := by
  rw [← hx.ip] at h
  refine hm.goes h (fun n => hrun _) (.inside ?_ ⟨hy, ?_, ?_, hdirect⟩)
  · exact (hm.withRegisters y.ip m.ip m.argc y.acc m.hosts).alike halike
  · rw [halike.rest]
  · rw [halike.rest]

theorem goes_push (hx : x.On segs m) (hm : S.Holds m) (h : S.code.Has x.ip .push .none)
    (hroom : x.operands.length + 1 ≤ S.capacity) :
    Goes S m (.inside { x with ip := x.ip + 1, operands := x.operands ++ [x.acc] }) := by
  obtain ⟨segs', m', hrun, hm', halike, hdirect⟩ :=
    (hx.readTo (m.ip + 1)).toActive.push (by rw [(hm.readTo _).capacity]; exact hroom) x.acc
  refine hx.goes_on hm h (fun n => ?_) hm' ?_ fun hd => hdirect (hx.direct hd)
  · rw [← hx.acc] at hrun
    exact hrun
  · rw [← hx.ip, ← hx.acc]
    exact halike

theorem goes_compute {f : Value → Value → Except Fault Value} {a : Value} (hx : x.On segs m)
    (hm : S.Holds m) (h : S.code.Has x.ip op .none) (hf : op.operation? = some f)
    (hoperands : x.operands = operands ++ [a]) (hv : f a x.acc = .ok v) :
    Goes S m (.inside { x with ip := x.ip + 1, acc := v, operands }) := by
  have hactive := (hx.readTo (m.ip + 1)).toActive
  simp only [hoperands] at hactive
  obtain ⟨hpop, hm'⟩ := hactive.pop
  have hrun : Machine.binary f (m.readTo (m.ip + 1)) =
      .ok () { (m.readTo (m.ip + 1)).popped with acc := v } := by
    have hacc : (m.readTo (m.ip + 1)).popped.acc = x.acc := hx.acc
    refine (bind_ok hpop).trans ?_
    simp only [get_bind_apply, registers_eq, hacc, hv]
    rfl
  have hperform (apply : Exec Unit) :
      perform apply ⟨m.ip, op, .none⟩ (m.readTo (m.ip + op.length)) =
      Machine.binary f (m.readTo (m.ip + 1)) := by
    cases op with
    | add | sub | mul | div | same =>
      cases hf
      rfl
    | _ => cases hf
  refine hx.goes_on hm h (fun n => (hperform _).trans hrun) (hm'.withRegisters ..) ?_ hx.direct
  rw [← hx.ip]
  exact ⟨rfl, by simp [capacity, popped, Machine.readTo], rfl⟩

theorem relative_readTo {ip target : Nat} {offset : Int} (h : wrap (ip + offset) = target) :
    (m.readTo ip).relative offset = .ok target := by
  simp only [Registers.relative, Machine.readTo, h]
  rw [if_neg (by omega), Int.toNat_natCast]

theorem perform_branch {apply : Exec Unit} {offset : Int} (hop : op.isJump = true) :
    perform apply ⟨m.ip, op, .word offset⟩ (m.readTo (m.ip + op.length)) =
      branch op.usesTarget offset (m.readTo (m.ip + 5)) := by
  cases op with
  | jump | jumpTrue | jumpFalse | jumpBound => rfl
  | _ => cases hop

theorem goes_jump {offset : Int} {target : Nat} (hx : x.On segs m) (hm : S.Holds m)
    (h : S.code.Has x.ip op (.word offset)) (hop : op.isJump = true)
    (huse : op.usesTarget x.acc = true) (ht : wrap (↑(x.ip + 5) + offset) = target) :
    Goes S m (.inside { x with ip := target }) := by
  have hrun : branch op.usesTarget offset (m.readTo (m.ip + 5)) = .ok () (m.readTo target) := by
    have hacc : (m.readTo (m.ip + 5)).acc = x.acc := hx.acc
    simp only [branch, get_bind_apply, hacc, huse, if_true]
    rw [query_bind_ok (relative_readTo (by rw [hx.ip]; exact ht))]
    rfl
  refine hx.goes_on hm h (fun n => (perform_branch hop).trans hrun)
    (hx.readTo target).toActive ?_ hx.direct
  rw [← hx.acc]
  exact ⟨rfl, rfl, rfl⟩

theorem goes_fall {offset : Int} (hx : x.On segs m) (hm : S.Holds m)
    (h : S.code.Has x.ip op (.word offset)) (hop : op.isJump = true)
    (huse : op.usesTarget x.acc = false) :
    Goes S m (.inside { x with ip := x.ip + 5 }) := by
  have hrun : branch op.usesTarget offset (m.readTo (m.ip + 5)) = .ok () (m.readTo (m.ip + 5)) := by
    have hacc : (m.readTo (m.ip + 5)).acc = x.acc := hx.acc
    simp only [branch, get_bind_apply, hacc, huse, Bool.false_eq_true, if_false]
    rfl
  refine hx.goes_on hm h (fun n => (perform_branch hop).trans hrun) (hx.readTo (m.ip + 5)).toActive
    ?_ hx.direct
  rw [← hx.acc, ← hx.ip]
  exact ⟨rfl, rfl, rfl⟩

theorem goes_returnPoint {offset : Int} {target : Nat} (hx : x.On segs m) (hm : S.Holds m)
    (h : S.code.Has x.ip .returnPoint (.word offset)) (ht : wrap (↑(x.ip + 5) + offset) = target)
    (hdirect : x.direct = true) (hroom : x.operands.length + 4 ≤ S.capacity) :
    Goes S m (.inside { x with
      ip := x.ip + 5
      operands := []
      callers := ⟨target, x.operands, x.slots⟩ :: x.callers
      direct := false }) := by
  obtain ⟨segs', m', hrun, hm', halike⟩ := (hx.readTo (m.ip + 5)).toActive.pushReturnPoint
    (hx.direct hdirect) (by rw [(hm.readTo _).capacity]; exact hroom)
    (relative_readTo (by rw [hx.ip]; exact ht))
  refine hx.goes_on hm h (fun n => hrun) hm' ?_ fun hd => by cases hd
  rw [← hx.ip, ← hx.acc]
  exact halike

theorem goes_ret {c : Suspended} (hx : x.On segs m) (hm : S.Holds m)
    (h : S.code.Has x.ip .ret .none) (hc : x.callers = c :: callers)
    (hroom : x.operands.length + c.operands.length ≤ S.capacity) :
    Goes S m (.inside ⟨c.ip, x.acc, c.slots, c.operands, callers, true⟩) := by
  have hactive := (hx.readTo (m.ip + 1)).toActive
  simp only [hc] at hactive
  obtain ⟨segs', m', hrun, hm', halike, htop⟩ :=
    hactive.ret (by rw [(hm.readTo _).capacity]; exact hroom)
  refine hx.goes_on hm h (fun n => hrun) hm' ?_ fun _ => htop
  rw [← hx.acc]
  exact halike

theorem goes_finish (hx : x.On segs m) (hm : S.Holds m) (h : S.code.Has x.ip .ret .none)
    (hc : x.callers = []) : Goes S m (.halted x.acc) := by
  have hactive := (hx.readTo (m.ip + 1)).toActive
  simp only [hc] at hactive
  rw [← hx.ip] at h
  rw [← hx.acc]
  exact hm.goes h (fun n => hactive.ret_done)
    (.halted (m := { m.readTo (m.ip + 1) with runnable := false }) rfl)

theorem apply_closure {r : Ref .closure} {entry n : Nat} (hacc : m.acc = .closure r)
    (hr : m.heap.closures[r.index]? = some ⟨.empty, entry⟩) :
    Machine.apply (n + 1) m = .ok () { m with ip := entry, env := .empty } := by
  have hclosure : m.heap.closure r = .ok ⟨.empty, entry⟩ := present_eq_ok.2 hr
  have hrun : enterClosure r m = .ok () { m with ip := entry, env := .empty } := by
    rw [enterClosure, query_bind_ok hclosure]
    rfl
  refine Eq.trans ?_ hrun
  rw [Machine.apply, get_bind_apply, registers_eq, hacc]

theorem goes_call {n : UInt8} {r : Ref .closure} {entry : Nat} (hx : x.On segs m) (hm : S.Holds m)
    (h : S.code.Has x.ip .apply (.byte n)) (hn : x.operands.length = n.toNat)
    (hacc : x.acc = .closure r) (hr : S.closures[r.index]? = some ⟨.empty, entry⟩) :
    Goes S m (.entering entry x.acc x.operands x.callers) := by
  rw [← hx.ip] at h
  have hrun (k : Nat) :
      perform (Machine.apply (k + 1)) ⟨m.ip, .apply, .byte n⟩ (m.readTo (m.ip + 2)) =
        .ok () { m with ip := entry, current := m.ip, argc := n.toNat, env := .empty } :=
    apply_closure (m := { m.readTo (m.ip + 2) with argc := n.toNat }) (hx.acc.trans hacc)
      (by rw [← hm.closures] at hr; exact hr)
  have hready : Ready segs x.operands x.callers
      { m with ip := entry, current := m.ip, argc := n.toNat, env := .empty } :=
    (hx.toActive.withRegisters entry m.ip n.toNat m.acc m.hosts).ready trivial
  rw [← hx.acc]
  exact hm.goes h hrun (.entering { hm with } hready hn.symm)

theorem goes_leave {n : UInt8} (hx : x.On segs m) (hm : S.Holds m)
    (h : S.code.Has x.ip .reuseFrame (.byte n)) (hn : x.operands.length = n.toNat)
    (hc : x.callers = []) :
    Goes S m (.leaving (x.ip + 2) x.acc x.operands) := by
  have hactive := (hx.readTo (m.ip + 2)).toActive
  simp only [hc] at hactive
  have hcont : (m.readTo (m.ip + 2)).cont = .empty := by
    have h := hactive.callers
    generalize (m.readTo (m.ip + 2)).cont = cont at h
    cases h
    rfl
  obtain ⟨segs', m', hrun, hready, halike⟩ := hactive.reuseFrame (by rw [hcont]; trivial)
  have hip : m'.ip = x.ip + 2 := by
    rw [halike.rest, ← hx.ip]
    rfl
  have hacc : m'.acc = x.acc := by
    rw [halike.rest, ← hx.acc]
    rfl
  rw [← hx.ip] at h
  rw [← hip, ← hacc]
  rw [hn] at hrun
  exact hm.goes h (fun k => hrun) (.leaving ((hm.readTo _).alike halike) hready)

end Activation.On

theorem Ready.goes_callLast {n : UInt8} {r : Ref .closure} {entry : Nat}
    (hr : Ready segs args callers m) (hm : S.Holds m) (h : S.code.Has m.ip .apply (.byte n))
    (hn : args.length = n.toNat) (hacc : m.acc = .closure r)
    (hclosure : S.closures[r.index]? = some ⟨.empty, entry⟩) :
    Goes S m (.entering entry m.acc args callers) := by
  have hrun (k : Nat) :
      perform (Machine.apply (k + 1)) ⟨m.ip, .apply, .byte n⟩ (m.readTo (m.ip + 2)) =
        .ok () { m with ip := entry, current := m.ip, argc := n.toNat, env := .empty } :=
    Activation.On.apply_closure (m := { m.readTo (m.ip + 2) with argc := n.toNat }) hacc
      (by rw [← hm.closures] at hclosure; exact hclosure)
  have hready : Ready segs args callers
      { m with ip := entry, current := m.ip, argc := n.toNat, env := .empty } :=
    (hr.withRegisters entry m.ip n.toNat m.acc m.hosts).withEnv trivial
  exact hm.goes h hrun (.entering { hm with } hready hn.symm)

theorem Ready.goes_frame {n : UInt8} (hr : Ready segs args callers m) (hm : S.Holds m)
    (hargc : m.argc = args.length) (h : S.code.Has m.ip .frame (.triple n 0 0))
    (hn : args.length = n.toNat) :
    Goes S m (.inside ⟨m.ip + 4, m.acc, args, [], callers, true⟩) := by
  obtain ⟨segs', m', hrun, hm', halike, htop⟩ :=
    (hr.withRegisters (m.ip + 4) m.ip m.argc m.acc m.hosts).enterFrame hargc
  rw [hn] at hrun
  refine hm.goes h (fun k => hrun)
    (.inside ((hm.withRegisters ..).alike halike) ⟨hm', ?_, ?_, fun _ => htop⟩)
  · rw [halike.rest]
  · rw [halike.rest]

theorem Shows.goes (h : Shows S m V) (hstep : V.Step S V') : m.runnable = true ∧ Goes S m V' := by
  cases h with
  | halted => cases hstep
  | leaving hm hr =>
    refine ⟨hm.runnable, ?_⟩
    generalize hacc : m.acc = acc at hstep
    cases hstep with
    | callLast hop hn hclosure => exact hacc ▸ hr.goes_callLast hm hop hn hacc hclosure
  | entering hm hr hargc =>
    refine ⟨hm.runnable, ?_⟩
    cases hstep with
    | frame hop hn => exact hr.goes_frame hm hargc hop hn
  | inside hm hx =>
    refine ⟨hm.runnable, ?_⟩
    cases hstep with
    | loadLocal hop hv =>
      exact hx.goes_load hm hop fun apply => query_bind_ok ((hx.readTo _).slots.readSlot hv)
    | loadInteger hop => exact hx.goes_load hm hop fun apply => rfl
    | @loadLiteral _ n v hop hv =>
      have hliteral : (m.readTo (m.ip + Opcode.loadLiteral.length)).literal n = .ok v := by
        have hv' : m.literals[n]? = some v := by rw [hm.literals, hv]
        simp only [Registers.literal, Machine.readTo, if_neg (Int.not_lt.2 (Int.natCast_nonneg n)),
          Int.toNat_natCast, hv']
        rfl
      exact hx.goes_load hm hop fun apply => query_bind_ok hliteral
    | push hop hroom => exact hx.goes_push hm hop hroom
    | compute hop hf hoperands hv => exact hx.goes_compute hm hop hf hoperands hv
    | jump hop hj huse ht => exact hx.goes_jump hm hop hj huse ht
    | fall hop hj huse => exact hx.goes_fall hm hop hj huse
    | returnPoint hop ht hd hroom => exact hx.goes_returnPoint hm hop ht hd hroom
    | ret hop hc hroom => exact hx.goes_ret hm hop hc hroom
    | finish hop hc => exact hx.goes_finish hm hop hc
    | call hop hn hacc hclosure => exact hx.goes_call hm hop hn hacc hclosure
    | leave hop hn hc => exact hx.goes_leave hm hop hn hc

/-! ## Runs -/

theorem Shows.withHosts (h : Shows S m V) (hosts : HostCalls) : Shows S { m with hosts } V := by
  cases h with
  | inside hm hx =>
    exact .inside { hm with } ⟨hx.toActive.withRegisters .., hx.ip, hx.acc, hx.direct⟩
  | leaving hm hr => exact .leaving (m := { m with hosts }) { hm with } (hr.withRegisters ..)
  | entering hm hr hargc =>
    exact .entering (m := { m with hosts }) { hm with } (hr.withRegisters ..) hargc
  | halted hm => exact .halted (m := { m with hosts }) hm

theorem Shows.runLoop {acc : Value} (h : Shows S m V) (hsteps : V.Reaches S (.halted acc)) :
    ∃ k m', (∀ n > k, Machine.runLoop n m = .ok () m') ∧ m'.runnable = false ∧ m'.acc = acc := by
  induction hsteps using Relation.ReflTransGen.head_induction_on generalizing m with
  | refl =>
    cases h with
    | halted hm =>
      refine ⟨0, m, fun n hn => ?_, hm, rfl⟩
      obtain ⟨n, rfl⟩ := Nat.exists_eq_add_of_lt hn
      rw [Nat.zero_add, Machine.runLoop, get_bind_apply, registers_eq, hm]
      rfl
  | head hstep _ ih =>
    obtain ⟨hrunnable, m₁, hm₁, hshows⟩ := h.goes hstep
    obtain ⟨k, m', hrun, hend⟩ := ih hshows
    refine ⟨k + 1, m', fun n hn => ?_, hend⟩
    obtain ⟨n, rfl⟩ : ∃ j, n = j + 1 + 1 := ⟨n - 2, by omega⟩
    rw [Machine.runLoop, get_bind_apply, registers_eq, hrunnable, if_pos rfl,
      bind_ok (attempt_ok (hm₁ n))]
    exact hrun (n + 1) (by omega)

/-- A program that comes to an end by the rules runs to that end. -/
theorem Shows.run {acc : Value} (h : Shows S m V) (hm : m.runnable = true)
    (hsteps : V.Reaches S (.halted acc)) :
    ∃ k m', (∀ n > k, Machine.run n m = .ok () m') ∧ m'.runnable = false ∧ m'.acc = acc := by
  obtain ⟨k, m', hrun, hend⟩ := (h.withHosts { m.hosts with running := true }).runLoop hsteps
  refine ⟨k, { m' with hosts.running := false }, fun n hn => ?_, hend⟩
  rw [Machine.run, get_bind_apply, registers_eq, hm, if_pos rfl, adjust_bind_apply,
    bind_ok (attempt_ok (hrun n hn))]
  rfl

end LispMachine
