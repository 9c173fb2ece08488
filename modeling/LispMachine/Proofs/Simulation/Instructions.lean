import LispMachine.Proofs.Simulation.Operations

/-! # Instructions

Every instruction follows the one of the machine without a stack, given that applying does. What an
instruction takes from its activation has to be there, unless getting stuck is admitted.
-/

namespace LispMachine

open Machine

variable {full lax : Prop} {before : HostCalls} {left : Bool} {ρ : Naming} {m : Machine}
  {r : HeapMachine}

/-! ## Fetching -/

def HeapMachine.fetched (r : HeapMachine) : HeapMachine :=
  { r with current := r.ip, ip := r.ip + 1 }

theorem InStep.fetched (hi : InStep before left ρ m r) :
    InStep before left ρ m.fetched r.fetched := by
  obtain ⟨segs, lo, h, hr⟩ := hi
  exact ⟨segs, lo, { h with current := h.ip, ip := congrArg (· + 1) h.ip }, hr⟩

theorem InStep.fetchByte (hi : InStep before left ρ m r) :
    Follows full lax before ρ
      (fun σ a b m' r' => σ = ρ ∧ a = b ∧ m.code[m.ip]? = some a ∧ m' = { m with ip := m.ip + 1 } ∧
        r' = { r with ip := r.ip + 1 })
      (Machine.fetchByte m) (Machine.fetchByte r) := by
  obtain ⟨segs, lo, h, hr⟩ := hi
  have hcode : m.code[m.ip]? = r.code[r.ip]? := by rw [h.code, h.ip]
  cases hb : r.code[r.ip]? with
  | none =>
    simp only [Machine.fetchByte, get_bind_apply, HasRegisters.registers, h.code, h.ip, hb]
    exact .raise ⟨segs, lo, h, hr⟩ (.same (.codeOverrun r.ip))
  | some b =>
    simp only [Machine.fetchByte, get_bind_apply, HasRegisters.registers, hcode, hb]
    exact .ok le_rfl ⟨rfl, rfl, rfl, rfl, rfl⟩

theorem InStep.fetchNat (hi : InStep before left ρ m r) :
    Follows full lax before ρ (fun σ a b m' r' => a = b ∧ Stays before left r σ m' r')
      (Machine.fetchNat m) (Machine.fetchNat r) := by
  refine hi.fetchByte.bind ?_
  rintro _ a _ _ _ - ⟨rfl, rfl, -, rfl, rfl⟩
  rw [← hi.ip]
  exact .ok le_rfl ⟨rfl, hi.withIp _, rfl, rfl⟩

theorem InStep.fetchWord (hi : InStep before left ρ m r) :
    Follows full lax before ρ (fun σ a b m' r' => a = b ∧ Stays before left r σ m' r')
      (Machine.fetchWord m) (Machine.fetchWord r) := by
  obtain ⟨segs, lo, h, hr⟩ := hi
  simp only [Machine.fetchWord, get_bind_apply, HasRegisters.registers, h.code, h.ip]
  have hraise : Follows full lax before ρ
      (fun σ (a b : Int) m' r' => a = b ∧ Stays before left r σ m' r')
      (raise (.codeOverrun r.ip) m) (Machine.raise (.codeOverrun r.ip) r) :=
    .raise ⟨segs, lo, h, hr⟩ (.same _)
  cases r.code[r.ip]? with
  | none => exact hraise
  | some a =>
    cases r.code[r.ip + 1]? with
    | none => exact hraise
    | some b =>
      cases r.code[r.ip + 2]? with
      | none => exact hraise
      | some c =>
        cases r.code[r.ip + 3]? with
        | none => exact hraise
        | some d => exact .ok le_rfl ⟨rfl, InStep.withIp ⟨segs, lo, h, hr⟩ _, rfl, rfl⟩

theorem InStep.literal (hi : InStep before left ρ m r) (index : Int) :
    ExceptAgree (Agree ρ) (m.literal index) (r.literal index) := by
  obtain ⟨segs, lo, h, -⟩ := hi
  unfold Registers.literal
  split
  · exact .fault _
  · exact .orFault h.literals (.same _) _

theorem InStep.literalName (hi : InStep before left ρ m r) (index : Int) :
    ExceptAgree Eq (m.literalName index) (r.literalName index) := by
  refine (hi.literal index).bind ?_
  rintro v u hv
  cases hv with
  | continuation => exact .fault _
  | same =>
    cases v with
    | symbol => exact .ok rfl
    | _ => exact .fault _

theorem InStep.global? (hi : InStep before left ρ m r) (name : String) :
    Option.Rel (Agree ρ) (m.global? name) (r.global? name) := by
  obtain ⟨segs, lo, h, -⟩ := hi
  exact h.globals name

theorem InStep.global (hi : InStep before left ρ m r) (name : String) :
    ExceptAgree (Agree ρ) (orFault (.unboundSymbol name) (m.global? name))
      (orFault (.unboundSymbol name) (r.global? name)) := by
  have hg := hi.global? name
  generalize m.global? name = x, r.global? name = y at hg
  cases hg with
  | none => exact .fault _
  | some hv => exact .ok hv

/-! ## Kinds of instructions -/

theorem InStep.unary (hi : InStep before left ρ m r) (op : Heap → Value → Except Stop Value)
    (hop : ExceptAgree (Agree ρ) (op m.heap m.acc) (op r.heap r.acc)) :
    Follows full lax before ρ (fun σ _ _ m' r' => InStep before left σ m' r')
      (Machine.unary op m) (Machine.unary op r) :=
  .query_bind hi hop fun _ _ hv => hi.setAcc hv

theorem InStep.binary {op : Value → Value → Except Fault Value} (hi : InStep before left ρ m r)
    (hn : lax ∨ 0 < r.operands.size) (hop : ∀ {σ}, IgnoresNames σ op) :
    Follows full lax before ρ (fun σ _ _ m' r' => InStep before left σ m' r')
      (Machine.binary op m) (Machine.binary op r) := by
  refine (hi.pop hn).bind ?_
  rintro σ v u m' r' - ⟨hv, hi', -⟩
  obtain ⟨he, hx⟩ := hop hv hi'.acc
  simp only [get_bind_apply, HasRegisters.registers, he]
  cases h : op u r'.acc with
  | error f =>
    rw [h] at hx
    exact .raise hi' (.same f hx)
  | ok x =>
    rw [h] at hx
    exact hi'.setAcc (.same hx)

theorem InStep.update {change : Value → Value → Exec Unit} {change' : Value → Value → HeapExec Unit}
    (hi : InStep before left ρ m r) (hn : lax ∨ 0 < r.operands.size)
    (hc : ∀ {σ m' r' v u w z}, InStep before left σ m' r' → Agree σ v u → Agree σ w z →
      Follows False lax before σ (fun σ _ _ m' r' => InStep before left σ m' r') (change v w m')
        (change' u z r')) :
    Follows full lax before ρ (fun σ _ _ m' r' => InStep before left σ m' r')
      (Machine.update change m) (Machine.update change' r) := by
  refine (hi.pop hn).bind ?_
  rintro σ v u m' r' - ⟨hv, hi', -⟩
  simp only [get_bind_apply]
  refine (hc hi' hv hi'.acc).bind ?_
  rintro τ - - m'' r'' hσ hi''
  exact hi''.setAcc (hv.mono hσ)

theorem InStep.part {op : Heap → Value → Except Stop Value} (hi : InStep before left ρ m r)
    (hop : ExceptAgree (Agree ρ) (op m.heap m.acc) (op r.heap r.acc)) :
    ExceptAgree (Agree ρ) (Machine.part op m.heap m.acc) (Machine.part op r.heap r.acc) := by
  have hv := hi.acc
  generalize m.acc = v, r.acc = u at hv hop
  cases hv with
  | continuation => exact hop
  | same =>
    cases v with
    | nil => exact .ok .unbound
    | unbound => exact .ok .unbound
    | _ => exact hop

theorem InStep.jumpIf (hi : InStep before left ρ m r) (wanted : Value → Bool)
    (hw : ∀ {σ : Naming} {v u : Value}, Agree σ v u → wanted v = wanted u) :
    Follows full lax before ρ (fun σ _ _ m' r' => InStep before left σ m' r')
      (Machine.jumpIf wanted m) (Machine.jumpIf wanted r) := by
  refine hi.fetchWord.bind ?_
  rintro σ offset _ m' r' - ⟨rfl, hi', -⟩
  simp only [get_bind_apply, HasRegisters.registers, hw hi'.acc]
  split
  · refine .query_bind hi' (hi'.relative offset) ?_
    rintro target _ rfl
    exact .ok le_rfl (hi'.withIp target)
  · exact .ok le_rfl hi'

theorem InStep.bindGlobal {v u : Value} (hi : InStep before left ρ m r) (name : String)
    (hv : Agree ρ v u) :
    InStep before left ρ { m with globals := m.globals.insert name v }
      { r with globals := r.globals.insert name u } := by
  obtain ⟨segs, lo, h, hr⟩ := hi
  refine ⟨segs, lo, { h with globals := fun other => ?_ }, hr⟩
  rw [Std.TreeMap.getElem?_insert, Std.TreeMap.getElem?_insert]
  split
  · exact .some hv
  · exact h.globals other

theorem InStep.define {v u : Value} (hi : InStep before left ρ m r) (name : String)
    (hv : Agree ρ v u) :
    ResultAgree before left ρ (fun _ _ m' r' => InStep before left ρ m' r')
      (Machine.define name v m) (Machine.define name u r) := by
  unfold Machine.define
  cases Value.ofName name with
  | symbol s => exact .ok (hi.bindGlobal s hv)
  | _ => exact .ok hi

theorem InStep.makeClosure (hi : InStep before left ρ m r) (entry : Nat) :
    Follows full lax before ρ (fun σ _ _ m' r' => Landed before left σ m' r')
      ((do
        let env ← promoteCurrent
        Machine.setAcc (.closure (← Machine.newClosure { env, entry })) : Exec Unit) m)
      ((do
        let env := (← get).env
        Machine.setAcc (.closure (← Machine.newClosure { env, entry })) : HeapExec Unit)
        r) := by
  obtain ⟨segs, lo, h, hr⟩ := hi
  obtain ⟨σ, env, m', hm', hρ, henv, -, h', -⟩ := h.promoteCurrent
  have hi' : InStep before left σ m' r := ⟨segs, lo, h', hr⟩
  rw [bind_ok hm']
  simp only [get_bind_apply]
  refine Follows.of_le ?_ hρ
  have hc : ClosureAgree σ { env, entry } { env := r.env, entry } := ⟨henv, rfl⟩
  refine (hi'.newClosure hc).bind ?_
  rintro τ c _ m'' r'' - ⟨rfl, hi''⟩
  exact .ok le_rfl (hi''.withAcc (.same (by simp))).landed

/-! ## What instructions take -/

namespace Machine

/-- The arguments may be passed to the frame that the operands describe. -/
def frameAccepts (m : Machine) (variadic : Bool) : Bool :=
  match m.operand? 0, m.operand? 2 with
  | some required, some optional => decide (Arity.Accepts { required, optional, variadic } m.argc)
  | _, _ => false

/-- The accumulator takes that many arguments off the stack when it is applied. A closure leaves
them to its own code. -/
def appliesTo (m : Machine) (argc : Nat) : Bool :=
  match m.acc with
  | .continuation _ => argc == 1
  | .pair _ => decide ((Arity.fixed 1).Accepts argc)
  | .procedure p =>
    match m.heap.procedure p with
    | .ok q => decide (q.arity.Accepts argc)
    | .error _ => false
  | _ => false

def liveStart? (m : Machine) : Option Nat :=
  match m.innermost m.env with
  | .ok (.onStack start _, _) => some start
  | _ => none

/-- The number of cells that the instruction takes off the stack once its opcode is fetched, if it
takes any. -/
def taken? (m : Machine) : Opcode → Option Nat
  | .pop | .add | .sub | .mul | .div | .cons | .consReversed | .setCar | .setCdr | .same | .dup
  | .splice => some 1
  | .frame => if m.frameAccepts false then some m.argc else none
  | .frameRest => if m.frameAccepts true then some m.argc else none
  | .reuseFrame => if m.liveStart?.isSome then m.operand? 0 else none
  | .apply => (m.operand? 0).filter m.appliesTo
  | _ => none

def leftAfterApply (m : Machine) (left : Bool) : Bool :=
  match m.acc with
  | .pair _ | .procedure _ => false
  | .continuation k => m.leftAfterReturn left (.onHeap k)
  | _ => left

def leftAfter (m : Machine) (left : Bool) : Opcode → Bool
  | .frame | .frameRest => false
  | .reuseFrame => true
  | .ret => m.leftAfterReturn left m.cont
  | .apply => m.leftAfterApply left
  | _ => left

end Machine

/-- These put something on the stack and cannot come right after a frame was left. -/
def Opcode.puts : Opcode → Bool
  | .push | .returnPoint => true
  | _ => false

theorem InStep.fetchFrame (hi : InStep before left ρ m r) (variadic : Bool)
    (hn : lax ∨ (m.frameAccepts variadic = true → r.argc ≤ r.operands.size)) :
    Follows full lax before ρ (fun σ _ _ m' r' => Landed before false σ m' r')
      ((do
        let required ← Machine.fetchNat
        let extra ← Machine.fetchNat
        let optional ← Machine.fetchNat
        Machine.enterFrame { required, optional, extra, variadic } : Exec Unit) m)
      ((do
        let required ← Machine.fetchNat
        let extra ← Machine.fetchNat
        let optional ← Machine.fetchNat
        Machine.enterFrame { required, optional, extra, variadic } : HeapExec Unit) r) := by
  have hargc := hi.argc
  refine hi.fetchNat.bind_eq ?_
  rintro σ₁ required _ m₁ r₁ - hm₁ ⟨rfl, hi₁, hops₁, hargc₁⟩
  refine hi₁.fetchNat.bind_eq ?_
  rintro σ₂ extra _ m₂ r₂ - hm₂ ⟨rfl, hi₂, hops₂, hargc₂⟩
  refine hi₂.fetchNat.bind_eq ?_
  rintro σ₃ optional _ m₃ r₃ - hm₃ ⟨rfl, hi₃, hops₃, hargc₃⟩
  obtain ⟨hrequired, rfl⟩ := fetchNat_eq_ok hm₁
  obtain ⟨-, rfl⟩ := fetchNat_eq_ok hm₂
  obtain ⟨hoptional, -⟩ := fetchNat_eq_ok hm₃
  refine (hi₃.enterFrame _ (hn.imp_right fun hn ha => ?_)).imp fun _ _ _ _ _ _ h => h.landed
  rw [hargc₃, hargc₂, hargc₁] at ha ⊢
  rw [hops₃, hops₂, hops₁]
  have hoptional : m.operand? 2 = some optional := hoptional
  refine hn ?_
  simp only [frameAccepts, hrequired, hoptional, hargc]
  exact decide_eq_true ha

/-! ## All instructions -/

/-- All instructions but those that leave a frame or apply something. -/
theorem InStep.execute (hi : InStep before left ρ m r) {apply : Exec Unit} {apply' : HeapExec Unit}
    {op : Opcode} (happly : op ≠ .apply) (hreuse : op ≠ .reuseFrame)
    (htaken : lax ∨ ∀ n ∈ m.taken? op, n ≤ r.operands.size)
    (hputs : lax ∨ (op.puts = true → left = false)) :
    Follows True lax before ρ (fun σ _ _ m' r' => Landed before (m.leftAfter left op) σ m' r')
      (Machine.execute apply op m) (Machine.execute apply' op r) := by
  have landed {α β : Type} {left : Bool} {x : EStateM.Result Stop Machine α}
      {y : EStateM.Result Stop HeapMachine β}
      (h : Follows True lax before ρ (fun σ _ _ m' r' => InStep before left σ m' r') x y) :
      Follows True lax before ρ (fun σ _ _ m' r' => Landed before left σ m' r') x y :=
    h.imp fun _ _ _ _ _ _ h => h.landed
  have hop (h : m.taken? op = some 1) : lax ∨ 0 < r.operands.size :=
    htaken.imp_right fun hn => hn 1 h
  cases op with
  | nop => exact .ok le_rfl hi.landed
  | push =>
    exact (hi.push (hputs.imp_right fun hp => hp rfl) hi.acc).imp fun _ _ _ _ _ _ h => h.1.landed
  | pop =>
    refine (hi.pop (hop rfl)).bind ?_
    rintro σ v u m' r' - ⟨hv, hi', -⟩
    exact .ok le_rfl (hi'.withAcc hv).landed
  | ret => exact hi.ret
  | not =>
    refine landed (hi.unary (fun _ v => .ok (.truth v.isNil)) ?_)
    rw [hi.acc.isNil_eq]
    exact .ok .truth
  | loadTrue => exact landed (hi.setAcc (.same (by simp)))
  | loadNil => exact landed (hi.setAcc .nil)
  | halt => exact landed hi.halt
  | add => exact landed (hi.binary (hop rfl) ignoresNames_add)
  | sub => exact landed (hi.binary (hop rfl) ignoresNames_sub)
  | mul => exact landed (hi.binary (hop rfl) ignoresNames_mul)
  | div => exact landed (hi.binary (hop rfl) ignoresNames_div)
  | cons =>
    refine (hi.pop (hop rfl)).bind ?_
    rintro σ v u m' r' - ⟨hv, hi', -⟩
    simp only [get_bind_apply]
    refine (hi'.cons hv hi'.acc).bind ?_
    rintro τ w z m'' r'' - ⟨hw, hi'', -⟩
    exact .ok le_rfl (hi''.withAcc hw).landed
  | consReversed =>
    refine (hi.pop (hop rfl)).bind ?_
    rintro σ v u m' r' - ⟨hv, hi', -⟩
    simp only [get_bind_apply]
    refine (hi'.cons hi'.acc hv).bind ?_
    rintro τ w z m'' r'' - ⟨hw, hi'', -⟩
    exact .ok le_rfl (hi''.withAcc hw).landed
  | car => exact landed (hi.unary _ (hi.heap.car hi.acc))
  | cdr => exact landed (hi.unary _ (hi.heap.cdr hi.acc))
  | setCar => exact landed (hi.update (hop rfl) fun hi hv hw => (hi.setCar hv hw).follows)
  | setCdr => exact landed (hi.update (hop rfl) fun hi hv hw => (hi.setCdr hv hw).follows)
  | same => exact landed (hi.binary (hop rfl) ignoresNames_same)
  | dup =>
    refine (hi.top (hop rfl)).bind ?_
    rintro σ v u m' r' - ⟨hv, hi'⟩
    exact .ok le_rfl (hi'.withAcc hv).landed
  | partCar => exact landed (hi.unary _ (hi.part (hi.heap.car hi.acc)))
  | partCdr => exact landed (hi.unary _ (hi.part (hi.heap.cdr hi.acc)))
  | splice =>
    refine (hi.pop (hop rfl)).bind ?_
    rintro σ v u m' r' - ⟨hv, hi', -⟩
    simp only [get_bind_apply]
    refine (hi'.splice hi'.acc hv).bind ?_
    rintro τ w z m'' r'' - ⟨hw, hi''⟩
    exact .ok le_rfl (hi''.withAcc hw).landed
  | loadLiteral =>
    refine hi.fetchWord.bind ?_
    rintro σ index _ m' r' - ⟨rfl, hi', -⟩
    exact .query_bind hi' (hi'.literal index) fun _ _ hv => .ok le_rfl (hi'.withAcc hv).landed
  | loadInteger =>
    refine hi.fetchWord.bind ?_
    rintro σ n _ m' r' - ⟨rfl, hi', -⟩
    exact .ok le_rfl (hi'.withAcc .fixnum).landed
  | loadGlobal =>
    refine hi.fetchWord.bind ?_
    rintro σ index _ m' r' - ⟨rfl, hi', -⟩
    refine .query_bind hi' (hi'.literalName index) ?_
    rintro name _ rfl
    exact .query_bind hi' (hi'.global name) fun _ _ hv => .ok le_rfl (hi'.withAcc hv).landed
  | storeGlobal =>
    refine hi.fetchWord.bind ?_
    rintro σ index _ m' r' - ⟨rfl, hi', -⟩
    refine .query_bind hi' (hi'.literalName index) ?_
    rintro name _ rfl
    exact .ok le_rfl (hi'.bindGlobal name hi'.acc).landed
  | apply => exact absurd rfl happly
  | closure =>
    refine hi.fetchWord.bind ?_
    rintro σ offset _ m' r' - ⟨rfl, hi', -⟩
    refine .query_bind hi' (hi'.relative offset) ?_
    rintro entry _ rfl
    exact hi'.makeClosure entry
  | jump => exact landed (hi.jumpIf (fun _ => true) fun _ => rfl)
  | jumpTrue => exact landed (hi.jumpIf (fun v => !v.isNil) fun h => by rw [h.isNil_eq])
  | jumpFalse => exact landed (hi.jumpIf Value.isNil fun h => h.isNil_eq)
  | jumpBound => exact landed (hi.jumpIf (fun v => !v.isUnbound) fun h => by rw [h.isUnbound_eq])
  | reuseFrame => exact absurd rfl hreuse
  | loadLocal =>
    refine hi.fetchNat.bind ?_
    rintro σ index _ m' r' - ⟨rfl, hi', -⟩
    exact .query_bind hi' (hi'.readSlot 0 index) fun _ _ hv => .ok le_rfl (hi'.withAcc hv).landed
  | storeLocal =>
    refine hi.fetchNat.bind ?_
    rintro σ index _ m' r' - ⟨rfl, hi', -⟩
    exact ((hi'.writeSlot 0 index hi'.acc).imp fun _ _ _ _ h => h.landed).follows
  | loadOuter =>
    refine hi.fetchNat.bind ?_
    rintro σ depth _ m' r' - ⟨rfl, hi', -⟩
    refine hi'.fetchNat.bind ?_
    rintro τ index _ m'' r'' - ⟨rfl, hi'', -⟩
    exact .query_bind hi'' (hi''.readSlot depth index) fun _ _ hv =>
      .ok le_rfl (hi''.withAcc hv).landed
  | storeOuter =>
    refine hi.fetchNat.bind ?_
    rintro σ depth _ m' r' - ⟨rfl, hi', -⟩
    refine hi'.fetchNat.bind ?_
    rintro τ index _ m'' r'' - ⟨rfl, hi'', -⟩
    exact ((hi''.writeSlot depth index hi''.acc).imp fun _ _ _ _ h => h.landed).follows
  | returnPoint =>
    refine hi.fetchWord.bind ?_
    rintro σ offset _ m' r' - ⟨rfl, hi', -⟩
    exact (hi'.pushReturnPoint (hputs.imp_right fun hp => hp rfl) offset).imp fun _ _ _ _ _ _ h =>
      h.landed
  | frame =>
    refine hi.fetchFrame false (htaken.imp_right fun hn ha => ?_)
    exact hi.argc ▸ hn m.argc (if_pos ha)
  | frameRest =>
    refine hi.fetchFrame true (htaken.imp_right fun hn ha => ?_)
    exact hi.argc ▸ hn m.argc (if_pos ha)

/-- An instruction follows another if, once the opcode is fetched, executing it does. -/
theorem InStep.stepWith (hi : InStep before left ρ m r) {apply : Exec Unit} {apply' : HeapExec Unit}
    {Q : Naming → Unit → Unit → Machine → HeapMachine → Prop}
    (hexec : ∀ op, m.opcode? = some op →
      Follows full lax before ρ Q (Machine.execute apply op m.fetched)
      (Machine.execute apply' op r.fetched)) :
    Follows full lax before ρ Q (Machine.stepWith apply m) (Machine.stepWith apply' r) := by
  obtain ⟨segs, lo, h, hr⟩ := hi
  have hi : InStep before left ρ { m with current := m.ip } { r with current := r.ip } :=
    ⟨segs, lo, { h with current := h.ip }, hr⟩
  simp only [Machine.stepWith, get_bind_apply, HasRegisters.registers]
  refine hi.fetchByte.bind ?_
  rintro _ byte _ _ _ - ⟨rfl, rfl, hbyte, rfl, rfl⟩
  have hm : m.opcode? = Opcode.ofByte? byte := by
    rw [Machine.opcode?, show m.code[m.ip]? = some byte from hbyte]
    rfl
  cases hop : Opcode.ofByte? byte with
  | none =>
    have hi' := InStep.fetched ⟨segs, lo, h, hr⟩
    rw [← h.ip]
    rw [HeapMachine.fetched, ← h.ip] at hi'
    exact .raise hi' (.same (.invalidInstruction byte m.ip))
  | some op => exact hexec op (hm.trans hop)

end LispMachine
