import LispMachine.Proofs.Assembly.RoundTrip
import LispMachine.Proofs.Control.Protocol
import LispMachine.Proofs.Simulation.Returns

/-! # Fetching what the disassembler reads

The machine takes an instruction byte by byte while it executes it. That is the same as to fetch the
instruction as a whole and then to perform it, and what is fetched is the item that the disassembler
finds at the same place.
-/

namespace LispMachine

open Fault (isControl)

namespace Machine

variable {m : Machine} {apply : Exec Unit}

/-! ## Fetching, then performing -/

def fetchInstruction : Exec Instruction := do
  let pos := (← get).ip
  modify ({ · with current := pos })
  let byte ← fetchByte
  match Opcode.ofByte? byte with
  | some op => return { pos, op, operand := ← fetchOperand op.layout }
  | none => raise (.invalidInstruction byte pos)

theorem stepWith_eq : stepWith apply = fetchInstruction >>= perform apply := by
  simp only [stepWith, fetchInstruction, bind_assoc]
  congr 1
  funext m₀
  congr 1
  funext _
  congr 1
  funext byte
  cases Opcode.ofByte? byte with
  | none => rfl
  | some op => simp only [execute_eq m₀.ip op, bind_assoc, pure_bind]

/-! ## What is fetched -/

/-- The machine in the middle of an instruction, with the code read up to `ip`. -/
def readTo (m : Machine) (ip : Nat) : Machine := { m with current := m.ip, ip }

theorem fetchWord_some {a b c d : UInt8} (ha : m.code[m.ip]? = some a)
    (hb : m.code[m.ip + 1]? = some b) (hc : m.code[m.ip + 2]? = some c)
    (hd : m.code[m.ip + 3]? = some d) :
    fetchWord m = .ok (Word.decode a b c d) { m with ip := m.ip + 4 } := by
  simp only [fetchWord, get_bind_apply, registers_eq, ha, hb, hc, hd]
  rfl

theorem fetchWord_none (h : Operand.read? .word m.code m.ip = none) :
    fetchWord m = .error (.fault (.codeOverrun m.ip)) m := by
  cases ha : m.code[m.ip]? <;> cases hb : m.code[m.ip + 1]? <;> cases hc : m.code[m.ip + 2]? <;>
    cases hd : m.code[m.ip + 3]? <;>
    simp only [fetchWord, get_bind_apply, registers_eq, ha, hb, hc, hd] <;>
    first
      | rfl
      | simp [Operand.read?, ha, hb, hc, hd] at h

theorem fetchOperand_some {layout : Layout} {operand : Operand}
    (h : Operand.read? layout m.code m.ip = some operand) :
    fetchOperand layout m = .ok operand { m with ip := m.ip + layout.width } := by
  cases layout with
  | none =>
    cases h
    rfl
  | word =>
    simp only [Operand.read?, Option.bind_eq_bind, Option.bind_eq_some_iff] at h
    obtain ⟨a, ha, b, hb, c, hc, d, hd, h⟩ := h
    cases h
    rw [fetchOperand, bind_ok (fetchWord_some ha hb hc hd)]
    rfl
  | byte =>
    simp only [Operand.read?, Option.bind_eq_bind, Option.bind_eq_some_iff] at h
    obtain ⟨a, ha, h⟩ := h
    cases h
    rw [fetchOperand, bind_ok (fetchByte_some ha)]
    rfl
  | pair =>
    simp only [Operand.read?, Option.bind_eq_bind, Option.bind_eq_some_iff] at h
    obtain ⟨a, ha, b, hb, h⟩ := h
    cases h
    rw [fetchOperand, bind_ok (fetchByte_some ha),
      bind_ok (fetchByte_some (m := { m with ip := m.ip + 1 }) hb)]
    rfl
  | triple =>
    simp only [Operand.read?, Option.bind_eq_bind, Option.bind_eq_some_iff] at h
    obtain ⟨a, ha, b, hb, c, hc, h⟩ := h
    cases h
    rw [fetchOperand, bind_ok (fetchByte_some ha),
      bind_ok (fetchByte_some (m := { m with ip := m.ip + 1 }) hb),
      bind_ok (fetchByte_some (m := { m with ip := m.ip + 2 }) hc)]
    rfl

/-- Where operand bytes are missing, those that are there have been passed. -/
theorem fetchOperand_none {layout : Layout} (h : Operand.read? layout m.code m.ip = none) :
    ∃ ip, fetchOperand layout m = .error (.fault (.codeOverrun ip)) { m with ip } := by
  cases layout with
  | none => cases h
  | word => exact ⟨m.ip, bind_error (fetchWord_none h)⟩
  | byte =>
    cases ha : m.code[m.ip]? with
    | none => exact ⟨m.ip, bind_error (fetchByte_none ha)⟩
    | some a => simp [Operand.read?, ha] at h
  | pair =>
    cases ha : m.code[m.ip]? with
    | none => exact ⟨m.ip, bind_error (fetchByte_none ha)⟩
    | some a =>
      rw [fetchOperand, bind_ok (fetchByte_some ha)]
      cases hb : m.code[m.ip + 1]? with
      | none => exact ⟨m.ip + 1, bind_error (fetchByte_none (m := { m with ip := m.ip + 1 }) hb)⟩
      | some b => simp [Operand.read?, ha, hb] at h
  | triple =>
    cases ha : m.code[m.ip]? with
    | none => exact ⟨m.ip, bind_error (fetchByte_none ha)⟩
    | some a =>
      rw [fetchOperand, bind_ok (fetchByte_some ha)]
      cases hb : m.code[m.ip + 1]? with
      | none => exact ⟨m.ip + 1, bind_error (fetchByte_none (m := { m with ip := m.ip + 1 }) hb)⟩
      | some b =>
        rw [bind_ok (fetchByte_some (m := { m with ip := m.ip + 1 }) hb)]
        cases hc : m.code[m.ip + 2]? with
        | none => exact ⟨m.ip + 2, bind_error (fetchByte_none (m := { m with ip := m.ip + 2 }) hc)⟩
        | some c => simp [Operand.read?, ha, hb, hc] at h

/-- What fetching comes to, given what is decoded at the same place. -/
def Fetches (m : Machine) : Item → Prop
  | .invalid pos byte => pos = m.ip ∧
    fetchInstruction m = .error (.fault (.invalidInstruction byte m.ip)) (m.readTo (m.ip + 1))
  | .truncated pos _ => pos = m.ip ∧
    ∃ ip, fetchInstruction m = .error (.fault (.codeOverrun ip)) (m.readTo ip)
  | .instruction i => fetchInstruction m = .ok i (m.readTo (m.ip + i.op.length))

theorem fetches_of_decode? {item : Item} (h : Item.decode? m.code m.ip = some item) :
    m.Fetches item := by
  obtain ⟨byte, hbyte, rfl⟩ := Option.map_eq_some_iff.1 h
  have hfetch : fetchByte { m with current := m.ip } = .ok byte (m.readTo (m.ip + 1)) :=
    fetchByte_some (m := { m with current := m.ip }) hbyte
  cases hop : Opcode.ofByte? byte with
  | none =>
    simp only [Fetches, fetchInstruction, get_bind_apply, modify_bind_apply, bind_ok hfetch, hop]
    exact ⟨trivial, rfl⟩
  | some op =>
    have hstart : fetchInstruction m =
        (do return ⟨m.ip, op, ← fetchOperand op.layout⟩ : Exec Instruction)
        (m.readTo (m.ip + 1)) := by
      simp only [fetchInstruction, get_bind_apply, modify_bind_apply, bind_ok hfetch, hop]
    cases hread : Operand.read? op.layout m.code (m.ip + 1) with
    | none =>
      obtain ⟨ip, hip⟩ := fetchOperand_none (m := m.readTo (m.ip + 1)) hread
      simp only [hread]
      exact ⟨rfl, ip, hstart.trans (bind_error hip)⟩
    | some operand =>
      simp only [hread]
      refine hstart.trans ((bind_ok (fetchOperand_some (m := m.readTo (m.ip + 1)) hread)).trans ?_)
      simp only [readTo, Opcode.length, Nat.add_assoc]
      rfl

theorem layout_of_read? {layout : Layout} {code : Code} {pos : Nat} {operand : Operand}
    (h : Operand.read? layout code pos = some operand) : operand.layout = layout := by
  cases layout with
  | none =>
    cases h
    rfl
  | word =>
    simp only [Operand.read?, Option.bind_eq_bind, Option.bind_eq_some_iff] at h
    obtain ⟨a, -, b, -, c, -, d, -, h⟩ := h
    cases h
    rfl
  | byte =>
    simp only [Operand.read?, Option.bind_eq_bind, Option.bind_eq_some_iff] at h
    obtain ⟨a, -, h⟩ := h
    cases h
    rfl
  | pair =>
    simp only [Operand.read?, Option.bind_eq_bind, Option.bind_eq_some_iff] at h
    obtain ⟨a, -, b, -, h⟩ := h
    cases h
    rfl
  | triple =>
    simp only [Operand.read?, Option.bind_eq_bind, Option.bind_eq_some_iff] at h
    obtain ⟨a, -, b, -, c, -, h⟩ := h
    cases h
    rfl

theorem read?_word_bounds {code : Code} {pos : Nat} {n : Int}
    (h : Operand.read? .word code pos = some (.word n)) : -0x40000000 ≤ n ∧ n < 0x40000000 := by
  simp only [Operand.read?, Option.bind_eq_bind, Option.bind_eq_some_iff, Option.some.injEq,
    Operand.word.injEq] at h
  obtain ⟨a, -, b, -, c, -, d, -, h⟩ := h
  rw [← h, Word.decode_eq, Int.bmod_def]
  split <;> omega

/-- A decoded instruction stands where it was looked for, and its operand follows the opcode. -/
theorem read?_of_decode? {i : Instruction} {code : Code} {pos : Nat}
    (h : Item.decode? code pos = some (.instruction i)) :
    i.pos = pos ∧ Operand.read? i.op.layout code (pos + 1) = some i.operand := by
  obtain ⟨byte, -, hbyte⟩ := Option.map_eq_some_iff.1 h
  split at hbyte
  · cases hbyte
  · split at hbyte
    · cases hbyte
    · next hread =>
      cases hbyte
      exact ⟨rfl, hread⟩

theorem decode?_shape {i : Instruction} {code : Code} {pos : Nat}
    (h : Item.decode? code pos = some (.instruction i)) : i.operand.layout = i.op.layout :=
  layout_of_read? (read?_of_decode? h).2

/-! ## Instructions that go straight on -/

/-- The code goes on at the same place. -/
def SameIp (m m' : Machine) : Prop := m'.ip = m.ip

instance : WorkBlind SameIp where
  refl _ := rfl
  trans _ _ _ h h' := h'.trans h
  cells _ _ _ := rfl
  registers _ _ _ _ _ := rfl
  frame _ _ := rfl
  continuation _ _ := rfl
  work h := h.ip

section

variable {i : Instruction} (hshape : i.operand.layout = i.op.layout)
include hshape

theorem maintains_perform {R : Machine → Machine → Prop} [WorkBlind R]
    (hcontrol : i.op.isControl = false) (hrelative : i.op.isRelative = false)
    (hhalt : i.op ≠ .halt) : Maintains isControl R (perform apply i) := by
  obtain ⟨pos, op, operand⟩ := i
  cases operand with
  | none =>
    refine maintains_execute_plain hshape.symm ?_ hhalt apply
    rintro rfl
    cases hcontrol
  | word n => exact maintains_performWord n hshape.symm hrelative
  | byte a =>
    refine maintains_performByte a.toNat ?_ apply
    rintro rfl
    cases hcontrol
  | pair a b => exact maintains_performPair ..
  | triple a b c => exact maintains_enterFrame _

theorem perform_halt (hop : i.op = .halt) :
    perform apply i m = .ok () { m with runnable := false } := by
  obtain ⟨pos, op, operand⟩ := i
  cases hop
  cases operand with
  | none => rfl
  | _ => cases hshape

theorem perform_ret (hop : i.op = .ret) : perform apply i m = ret m := by
  obtain ⟨pos, op, operand⟩ := i
  cases hop
  cases operand with
  | none => rfl
  | _ => cases hshape

theorem ip_perform (hcontrol : i.op.isControl = false) (hrelative : i.op.isRelative = false) :
    (final (perform apply i m)).ip = m.ip := by
  by_cases hhalt : i.op = .halt
  · rw [perform_halt hshape hhalt]
    rfl
  · exact (maintains_perform (R := SameIp) hshape hcontrol hrelative hhalt).related m

/-- Only a target and a procedure can make an instruction fail because of a jump. -/
theorem isControl_of_perform {f : Fault} {m' : Machine} (hrelative : i.op.isRelative = false)
    (happly : i.op ≠ .apply) (h : perform apply i m = .error (.fault f) m') :
    f.isControl = false := by
  by_cases hret : i.op = .ret
  · rw [perform_ret hshape hret] at h
    exact isControl_of_ret h
  · by_cases hhalt : i.op = .halt
    · rw [perform_halt hshape hhalt] at h
      cases h
    · refine (maintains_perform (R := SameIp) hshape ?_ hrelative hhalt).avoids h
      cases hop : i.op with
      | jump | jumpTrue | jumpFalse | jumpBound =>
        rw [hop] at hrelative
        cases hrelative
      | ret => exact absurd hop hret
      | apply => exact absurd hop happly
      | _ => rfl

end

/-! ## Instructions with a target -/

/-- What an instruction does with its target. -/
def onTarget (op : Opcode) (target : Nat) : Exec Unit :=
  match op with
  | .closure => closeOver target
  | .returnPoint => leaveReturnPoint target
  | _ => setIp target

theorem perform_relative {op : Opcode} (hop : op.isRelative = true) (pos : Nat) (offset : Int) :
    perform apply ⟨pos, op, .word offset⟩ m =
      if op.usesTarget m.acc then (query (·.relative offset) >>= onTarget op) m else .ok () m := by
  cases op with
  | closure => rfl
  | returnPoint => rfl
  | jump => rfl
  | jumpTrue | jumpFalse | jumpBound =>
    simp only [perform, performWord, branch, get_bind_apply]
    split <;> rfl
  | _ => cases hop

theorem target?_eq_some {i : Instruction} {t : Int} (h : i.target? = some t) :
    i.op.isRelative = true ∧ ∃ offset, i.operand = .word offset ∧
      t = i.pos + i.op.length + offset := by
  obtain ⟨pos, op, operand⟩ := i
  cases operand with
  | word offset =>
    simp only [Instruction.target?] at h
    split at h
    · next hop =>
      cases h
      exact ⟨hop, offset, rfl, rfl⟩
    · cases h
  | _ => cases h

theorem layout_of_isRelative {op : Opcode} (hop : op.isRelative = true) : op.layout = .word := by
  cases op with
  | closure | jump | jumpTrue | jumpFalse | jumpBound | returnPoint => rfl
  | _ => cases hop

theorem target?_of_isRelative {i : Instruction} (hshape : i.operand.layout = i.op.layout)
    (hop : i.op.isRelative = true) : ∃ t, i.target? = some t := by
  obtain ⟨pos, op, operand⟩ := i
  rw [layout_of_isRelative hop] at hshape
  cases operand with
  | word offset => exact ⟨_, if_pos hop⟩
  | _ => cases hshape

section

variable {i : Instruction} (hi : Item.decode? m.code m.ip = some (.instruction i))
include hi

theorem step_decoded (n : Nat) :
    step n m = perform (Machine.apply n) i (m.readTo (m.ip + i.op.length)) := by
  have hfetch : fetchInstruction m = .ok i (m.readTo (m.ip + i.op.length)) := fetches_of_decode? hi
  rw [step, stepWith_eq, bind_ok hfetch]

/-- An instruction with a target leaves it alone, faults because of it, or uses it. -/
theorem step_target (n : Nat) {t : Int} (ht : i.target? = some t) :
    (i.op.usesTarget m.acc = false ∧ step n m = .ok () (m.readTo (m.ip + i.op.length))) ∨
    (i.op.usesTarget m.acc = true ∧ wrap t < 0 ∧ ∃ ip offset,
      step n m = .error (.fault (.invalidJump ip offset)) (m.readTo (m.ip + i.op.length))) ∨
    (i.op.usesTarget m.acc = true ∧ 0 ≤ wrap t ∧
      step n m = onTarget i.op (wrap t).toNat (m.readTo (m.ip + i.op.length))) := by
  obtain ⟨hop, offset, hoperand, rfl⟩ := target?_eq_some ht
  have hstep := step_decoded hi n
  obtain ⟨pos, op, operand⟩ := i
  have hpos := (read?_of_decode? hi).1
  simp only at hop hoperand hstep hpos
  subst hoperand hpos
  rw [perform_relative hop] at hstep
  simp only [hstep]
  have hacc : (m.readTo (m.ip + op.length)).acc = m.acc := rfl
  rw [hacc]
  cases huse : op.usesTarget m.acc with
  | false => exact .inl ⟨rfl, rfl⟩
  | true =>
    refine .inr ?_
    simp only [if_true]
    have hsum : (m.ip : Int) + op.length + offset = ((m.ip + op.length : Nat) : Int) + offset := by
      omega
    rw [hsum]
    by_cases hneg : wrap (((m.ip + op.length : Nat) : Int) + offset) < 0
    · exact .inl ⟨trivial, hneg, _, _, query_bind_error (if_pos hneg)⟩
    · exact .inr ⟨trivial, Int.not_lt.1 hneg, query_bind_ok (if_neg hneg)⟩

end

/-- In code of less than 2 ^ 62 bytes no target is wrapped. -/
theorem wrap_target {i : Instruction} (hi : Item.decode? m.code m.ip = some (.instruction i))
    {t : Int} (ht : i.target? = some t) (hsize : m.code.size < 0x4000000000000000) :
    wrap t = t := by
  obtain ⟨hop, offset, hoperand, rfl⟩ := target?_eq_some ht
  have hlt := Item.lt_size_of_decode? hi
  have hlayout := layout_of_isRelative hop
  obtain ⟨hpos, hread⟩ := read?_of_decode? hi
  rw [hlayout, hoperand] at hread
  have hoffset := read?_word_bounds hread
  have hlength : i.op.length = 5 := by
    rw [Opcode.length, hlayout]
    rfl
  exact wrap_eq_self (by omega) (by omega)

theorem closeOver_ok {entry : Nat} {m' : Machine} (h : closeOver entry m = .ok () m') :
    ∃ r k, m'.acc = .closure r ∧ m'.heap.closure r = .ok k ∧ k.entry = entry := by
  obtain ⟨env, m₁, -, h⟩ := bind_eq_ok h
  cases h
  refine ⟨_, ⟨env, entry⟩, rfl, ?_, rfl⟩
  simp [Heap.closure, present]

theorem leaveReturnPoint_ok {target : Nat} {m' : Machine}
    (h : leaveReturnPoint target m = .ok () m') :
    m'.cont = .onStack m'.sp ∧ 4 ≤ m'.sp ∧ m'.stack[m'.sp - 4]? = some (.fixnum target) := by
  obtain ⟨_, m₁, hm₁, h⟩ := bind_eq_ok h
  have hroom := makeRoom_eq_ok hm₁
  rw [pushReturnCells hroom] at h
  cases h
  refine ⟨rfl, Nat.le_add_left .., ?_⟩
  exact Cells.getElem?_write (i := 0) hroom (by simp)

/-! ## The machine and the disassembler -/

/-- From `m`, a step performs the instruction `i` that stands there. -/
structure StepsBy (n : Nat) (m : Machine) (i : Instruction) : Prop where
  performs : step n m = perform (Machine.apply n) i (m.readTo (m.ip + i.op.length))
  straight : i.op.isControl = false → (final (step n m)).ip = m.ip + i.op.length
  untaken : i.op.isJump = true → i.op.usesTarget m.acc = false →
    step n m = .ok () (m.readTo (m.ip + i.op.length))
  taken {t : Int} : i.op.isJump = true → i.op.usesTarget m.acc = true → i.target? = some t →
    0 ≤ wrap t → step n m = .ok () (m.readTo (wrap t).toNat)
  entry {t : Int} {m' : Machine} : i.op = .closure → i.target? = some t → step n m = .ok () m' →
    ∃ r k, m'.acc = .closure r ∧ m'.heap.closure r = .ok k ∧ k.entry = wrap t
  returns {t : Int} {m' : Machine} : i.op = .returnPoint → i.target? = some t →
    step n m = .ok () m' →
    m'.cont = .onStack m'.sp ∧ 4 ≤ m'.sp ∧ m'.stack[m'.sp - 4]? = some (.fixnum (wrap t))
  faults : i.op ≠ .apply →
    ((∃ ip offset m', step n m = .error (.fault (.invalidJump ip offset)) m') ↔
    ∃ t, i.target? = some t ∧ i.op.usesTarget m.acc = true ∧ wrap t < 0)
  unwrapped {t : Int} : i.target? = some t → m.code.size < 0x4000000000000000 → wrap t = t

theorem isRelative_of_isJump {op : Opcode} (h : op.isJump = true) : op.isRelative = true := by
  cases op with
  | jump | jumpTrue | jumpFalse | jumpBound => rfl
  | _ => cases h

theorem ip_onTarget {op : Opcode} (h : op.isRelative = true) (hcontrol : op.isControl = false)
    (target : Nat) : (final (onTarget op target m)).ip = m.ip := by
  cases op with
  | closure => exact (maintains_closeOver (R := SameIp) target).related m
  | returnPoint => exact (maintains_leaveReturnPoint (R := SameIp) target).related m
  | jump | jumpTrue | jumpFalse | jumpBound => cases hcontrol
  | _ => cases h

theorem onTarget_of_isJump {op : Opcode} (h : op.isJump = true) (target : Nat) :
    onTarget op target = setIp target := by
  cases op with
  | jump | jumpTrue | jumpFalse | jumpBound => rfl
  | _ => cases h

theorem isControl_of_onTarget {op : Opcode} {target : Nat} {f : Fault} {m' : Machine}
    (h : onTarget op target m = .error (.fault f) m') : f.isControl = false := by
  cases op with
  | closure => exact (maintains_closeOver (R := SameIp) target).avoids h
  | returnPoint => exact (maintains_leaveReturnPoint (R := SameIp) target).avoids h
  | _ => cases h

theorem stepsBy_of_decode? (n : Nat) {i : Instruction}
    (hi : Item.decode? m.code m.ip = some (.instruction i)) : StepsBy n m i where
  performs := step_decoded hi n
  straight hcontrol := by
    have hshape := decode?_shape hi
    -- with a target there are three ways: it is not used, it is negative, or it is gone to
    cases hop : i.op.isRelative with
    | false =>
      rw [step_decoded hi n, ip_perform hshape hcontrol hop]
      rfl
    | true =>
      obtain ⟨t, ht⟩ := target?_of_isRelative hshape hop
      rcases step_target hi n ht with ⟨-, h⟩ | ⟨-, -, ip, offset, h⟩ | ⟨-, -, h⟩
      · rw [h]
        rfl
      · rw [h]
        rfl
      · rw [h, ip_onTarget hop hcontrol]
        rfl
  untaken hjump huse := by
    obtain ⟨t, ht⟩ := target?_of_isRelative (decode?_shape hi) (isRelative_of_isJump hjump)
    rcases step_target hi n ht with ⟨-, h⟩ | ⟨huse', -⟩ | ⟨huse', -⟩
    · exact h
    · cases huse.symm.trans huse'
    · cases huse.symm.trans huse'
  taken hjump huse ht hpos := by
    rcases step_target hi n ht with ⟨huse', -⟩ | ⟨-, hneg, -⟩ | ⟨-, -, h⟩
    · cases huse.symm.trans huse'
    · exact absurd hpos (Int.not_le.2 hneg)
    · rw [h, onTarget_of_isJump hjump]
      rfl
  entry hop ht hm' := by
    rcases step_target hi n ht with ⟨huse, -⟩ | ⟨-, -, ip, offset, h⟩ | ⟨-, hpos, h⟩
    · rw [hop] at huse
      cases huse
    · cases h.symm.trans hm'
    · rw [h, hop] at hm'
      obtain ⟨r, k, hacc, hk, hentry⟩ := closeOver_ok hm'
      exact ⟨r, k, hacc, hk, by omega⟩
  returns hop ht hm' := by
    rcases step_target hi n ht with ⟨huse, -⟩ | ⟨-, -, ip, offset, h⟩ | ⟨-, hpos, h⟩
    · rw [hop] at huse
      cases huse
    · cases h.symm.trans hm'
    · rw [h, hop] at hm'
      have hcells := leaveReturnPoint_ok hm'
      rwa [Int.toNat_of_nonneg hpos] at hcells
  faults happly := by
    have hshape := decode?_shape hi
    constructor
    · rintro ⟨ip, offset, m', hm'⟩
      cases hop : i.op.isRelative with
      | true =>
        obtain ⟨t, ht⟩ := target?_of_isRelative hshape hop
        rcases step_target hi n ht with ⟨-, h⟩ | ⟨huse, hneg, -⟩ | ⟨-, -, h⟩
        · cases h.symm.trans hm'
        · exact ⟨t, ht, huse, hneg⟩
        · cases isControl_of_onTarget (h.symm.trans hm')
      | false =>
        rw [step_decoded hi n] at hm'
        cases isControl_of_perform hshape hop happly hm'
    · rintro ⟨t, ht, huse, hneg⟩
      rcases step_target hi n ht with ⟨huse', -⟩ | ⟨-, -, ip, offset, h⟩ | ⟨-, hpos, -⟩
      · cases huse.symm.trans huse'
      · exact ⟨ip, offset, _, h⟩
      · exact absurd hpos (Int.not_le.2 hneg)
  unwrapped ht hsize := wrap_target hi ht hsize

/-- What a step fetches is what the disassembler reads at the same place. It is invalid, truncated
or an instruction for both, and an instruction is performed with the operands and the target that
the disassembler shows. -/
theorem step_reads_as_disassembled (n : Nat) (m : Machine) (hin : m.ip < m.code.size) :
    step n m = (fetchInstruction >>= perform (Machine.apply n)) m ∧
    (∀ byte, Item.decode? m.code m.ip = some (.invalid m.ip byte) ↔
      ∃ m', fetchInstruction m = .error (.fault (.invalidInstruction byte m.ip)) m') ∧
    ((∃ op, Item.decode? m.code m.ip = some (.truncated m.ip op)) ↔
      ∃ ip m', fetchInstruction m = .error (.fault (.codeOverrun ip)) m') ∧
    (∀ s m', fetchInstruction m = .error s m' → step n m = .error s m' ∧ ∃ ip, m' = m.readTo ip) ∧
    (∀ i, Item.decode? m.code m.ip = some (.instruction i) ↔ ∃ m', fetchInstruction m = .ok i m') ∧
    ∀ i, Item.decode? m.code m.ip = some (.instruction i) → StepsBy n m i := by
  obtain ⟨item, hitem⟩ : ∃ item, Item.decode? m.code m.ip = some item := by
    simp [Item.decode?, hin]
  have hfetch := fetches_of_decode? hitem
  have hstep : step n m = (fetchInstruction >>= perform (Machine.apply n)) m := by
    rw [step, stepWith_eq]
  have hfails {s : Stop} {m' : Machine} (h : fetchInstruction m = .error s m') :
      step n m = .error s m' := hstep.trans (bind_error h)
  have hperforms := fun i (hi : Item.decode? m.code m.ip = some (.instruction i)) =>
    stepsBy_of_decode? n hi
  cases item with
  | invalid pos byte =>
    obtain ⟨rfl, hfetch⟩ := hfetch
    refine ⟨hstep, by simp [hitem, hfetch], by simp [hitem, hfetch], fun s m' h => ⟨hfails h, ?_⟩,
      by simp [hitem, hfetch], hperforms⟩
    cases hfetch.symm.trans h
    exact ⟨_, rfl⟩
  | truncated pos op =>
    obtain ⟨rfl, ip, hfetch⟩ := hfetch
    refine ⟨hstep, by simp [hitem, hfetch], by simp [hitem, hfetch], fun s m' h => ⟨hfails h, ?_⟩,
      by simp [hitem, hfetch], hperforms⟩
    cases hfetch.symm.trans h
    exact ⟨_, rfl⟩
  | instruction i =>
    have hfetch : fetchInstruction m = .ok i (m.readTo (m.ip + i.op.length)) := hfetch
    refine ⟨hstep, by simp [hitem, hfetch], by simp [hitem, hfetch], fun s m' h => ?_,
      by simp [hitem, hfetch], hperforms⟩
    cases hfetch.symm.trans h

/-- A jump to one byte before the code. -/
theorem step_reads_as_disassembled_backwards :
    let m : Machine := { Machine.new 0 with code := #[0x4e, 0xfa, 0xff, 0xff, 0xff] }
    m.ip < m.code.size ∧
      Item.decode? m.code m.ip = some (.instruction ⟨0, .jump, .word (-6)⟩) ∧
      (∃ m', fetchInstruction m = .ok ⟨0, .jump, .word (-6)⟩ m') ∧
      ∃ ip offset m', step 0 m = .error (.fault (.invalidJump ip offset)) m' := by
  intro m
  have hin : m.ip < m.code.size := by decide
  have hdecode : Item.decode? m.code m.ip = some (.instruction ⟨0, .jump, .word (-6)⟩) := by decide
  obtain ⟨-, -, -, -, hfetch, hsteps⟩ := step_reads_as_disassembled 0 m hin
  have hjump : Opcode.jump ≠ .apply := by decide
  have htarget : Instruction.target? ⟨0, .jump, .word (-6)⟩ = some (-1) := by decide
  refine ⟨hin, hdecode, (hfetch _).1 hdecode, ?_⟩
  exact ((hsteps _ hdecode).faults hjump).2 ⟨-1, htarget, rfl, by decide⟩

end Machine

end LispMachine
