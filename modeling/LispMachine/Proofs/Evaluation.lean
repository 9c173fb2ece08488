import LispMachine.Machine.Run

/-! # Evaluating operations

An operation takes a machine to a result. These rules run the parts of an operation one after the
other.
-/

namespace LispMachine

variable {σ α β : Type} {x : EStateM Stop σ α} {f : α → EStateM Stop σ β} {s s' : σ} {a : α}
  {e : Stop}

theorem bind_ok (h : x s = .ok a s') : (x >>= f) s = f a s' := by
  change EStateM.bind x f s = _
  rw [EStateM.bind, h]

theorem bind_error (h : x s = .error e s') : (x >>= f) s = .error e s' := by
  change EStateM.bind x f s = _
  rw [EStateM.bind, h]

theorem bind_eq_ok {s'' : σ} {b : β} (h : (x >>= f) s = .ok b s'') :
    ∃ a s', x s = .ok a s' ∧ f a s' = .ok b s'' := by
  cases hx : x s with
  | ok a s' => exact ⟨a, s', rfl, by rwa [bind_ok hx] at h⟩
  | error e s' =>
    rw [bind_error hx] at h
    cases h

@[simp] theorem pure_apply : (pure a : EStateM Stop σ α) s = .ok a s := rfl

@[simp] theorem pure_bind_apply : (pure a >>= f) s = f a s := rfl

@[simp] theorem get_bind_apply {f : σ → EStateM Stop σ β} : (get >>= f) s = f s s := rfl

@[simp] theorem modify_apply {g : σ → σ} : (modify g : EStateM Stop σ PUnit) s = .ok ⟨⟩ (g s) := rfl

@[simp] theorem modify_bind_apply {g : σ → σ} {f : PUnit → EStateM Stop σ β} :
    (modify g >>= f) s = f ⟨⟩ (g s) := rfl

@[simp] theorem modifyGet_apply {g : σ → α × σ} :
    (modifyGet g : EStateM Stop σ α) s = .ok (g s).1 (g s).2 := rfl

@[simp] theorem modifyGet_bind_apply {g : σ → α × σ} :
    (modifyGet g >>= f) s = f (g s).1 (g s).2 := rfl

@[simp] theorem throw_apply : (throw e : EStateM Stop σ α) s = .error e s := rfl

theorem except_bind_eq_ok {x : Except Stop α} {f : α → Except Stop β} {b : β}
    (h : (x >>= f) = .ok b) : ∃ a, x = .ok a ∧ f a = .ok b := by
  cases x with
  | error e => cases h
  | ok a => exact ⟨a, rfl, h⟩

theorem present_eq_ok {o : Option α} : present o = .ok a ↔ o = some a := by
  cases o with
  | none => exact ⟨nofun, nofun⟩
  | some b => exact ⟨fun h => by cases h; rfl, fun h => by cases h; rfl⟩

theorem Heap.continuation_eq_ok {h : Heap} {r : Ref .continuation} {k : Continuation} :
    h.continuation r = .ok k ↔ h.continuations[r.index]? = some k := present_eq_ok

namespace Machine

def final : EStateM.Result Stop σ α → σ
  | .ok _ s | .error _ s => s

def result? : EStateM.Result Stop σ α → Option α
  | .ok a _ => some a
  | .error .. => none

theorem eq_ok_of_result? {r : EStateM.Result Stop σ α} (h : result? r = some a) :
    r = .ok a (final r) := by
  cases r with
  | ok b m =>
    cases h
    rfl
  | error s m => cases h

def stop? : EStateM.Result Stop σ α → Option Stop
  | .ok .. => none
  | .error s _ => some s

theorem eq_error_of_stop? {r : EStateM.Result Stop σ α} (h : stop? r = some e) :
    r = .error e (final r) := by
  cases r with
  | ok b m => cases h
  | error s m =>
    cases h
    rfl

@[simp] theorem registers_eq (m : Machine) : HasRegisters.registers m = m.toRegisters := rfl

@[simp] theorem withRegisters_eq (m : Machine) (r : Registers) :
    HasRegisters.withRegisters m r = { m with toRegisters := r } := rfl

variable {m : Machine} {φ : Machine → Except Stop α} {f : α → Exec β}

@[simp] theorem adjust_apply {g : Registers → Registers} :
    (adjust g : Exec Unit) m = .ok () { m with toRegisters := g m.toRegisters } := rfl

@[simp] theorem adjust_bind_apply {g : Registers → Registers} {f : Unit → Exec β} :
    (adjust g >>= f) m = f () { m with toRegisters := g m.toRegisters } := rfl

@[simp] theorem allocate_bind_apply {add : Heap → α × Heap} :
    (allocate add >>= f) m = f (add m.heap).1 { m with heap := (add m.heap).2 } := rfl

theorem query_ok (h : φ m = .ok a) : query φ m = .ok a m := by simp [query, h]

theorem query_bind_ok (h : φ m = .ok a) : (query φ >>= f) m = f a m := bind_ok (query_ok h)

theorem query_bind_error (h : φ m = .error e) : (query φ >>= f) m = .error e m :=
  bind_error (by simp [query, h])

theorem query_eq_ok {m' : Machine} (h : query φ m = .ok a m') : φ m = .ok a ∧ m' = m := by
  cases hm : φ m with
  | ok b =>
    rw [query_ok hm] at h
    cases h
    exact ⟨rfl, rfl⟩
  | error e =>
    simp only [query, hm] at h
    cases h

theorem attempt_ok (h : x s = .ok a s') : attempt x s = .ok (.ok a) s' := by
  rw [attempt, h]

theorem attempt_fault {f : Fault} (h : x s = .error (.fault f) s') :
    attempt x s = .ok (.error f) s' := by
  rw [attempt, h]

theorem distance_ok {hi lo : Nat} (h : lo ≤ hi) : distance hi lo = .ok (hi - lo) := if_pos h

/-! ## Popping -/

def top? (m : Machine) : Option Value := if m.sp = 0 then none else m.stack[m.sp - 1]?

def popped (m : Machine) : Machine :=
  { m with stack := m.stack.setIfInBounds (m.sp - 1) .nil, sp := m.sp - 1 }

theorem pop_eq (m : Machine) : pop m = match m.top? with
    | some v => .ok v m.popped
    | none => .error (if m.sp = 0 then .fault .stackUnderflow else .stuck) m := by
  simp only [pop, get_bind_apply, top?]
  cases hsp : m.sp with
  | zero => rfl
  | succ sp =>
    simp only [Nat.succ_ne_zero, if_false, Nat.add_sub_cancel]
    cases hv : m.stack[sp]? with
    | none => exact query_bind_error (by simp [cell, hv, present])
    | some v =>
      have hlt : sp < m.capacity := (Array.getElem?_eq_some_iff.1 hv).1
      have hw : writeCell sp .nil m = .ok () { m with stack := m.stack.setIfInBounds sp .nil } :=
        if_pos hlt
      rw [query_bind_ok (show m.cell sp = .ok v by simp [cell, hv, present]), bind_ok hw]
      simp only [popped, hsp, Nat.add_sub_cancel]
      rfl

theorem pop_of_top {v : Value} (h : m.top? = some v) : pop m = .ok v m.popped := by
  rw [pop_eq, h]

theorem pop_eq_ok {m' : Machine} {v : Value} (h : pop m = .ok v m') :
    m.top? = some v ∧ m' = m.popped := by
  rw [pop_eq] at h
  cases ht : m.top? with
  | none =>
    rw [ht] at h
    cases h
  | some u =>
    rw [ht] at h
    cases h
    exact ⟨rfl, rfl⟩

theorem checkArgc_ok {least most : Nat} (hl : least ≤ m.argc) (hm : m.argc ≤ most) :
    checkArgc least most m = .ok () m := by
  simp only [checkArgc, get_bind_apply, registers_eq, if_neg (Nat.not_lt.2 hl),
    if_neg (Nat.not_lt.2 hm)]
  rfl

theorem checkArgc_eq_ok {m' : Machine} {least most : Nat} (h : checkArgc least most m = .ok () m') :
    least ≤ m.argc ∧ m.argc ≤ most ∧ m' = m := by
  simp only [checkArgc, get_bind_apply, registers_eq] at h
  split at h
  · cases h
  · split at h
    · cases h
    · cases h
      exact ⟨by omega, by omega, rfl⟩

/-! ## Returning -/

theorem lt_size_of_position? {i n : Nat} (h : m.position? i = some n) : i < m.stack.size := by
  rcases Nat.lt_or_ge i m.stack.size with hi | hi
  · exact hi
  · rw [position?, Array.getElem?_eq_none hi] at h
    cases h

theorem descriptor_bounds {e start count : Nat} {parent : Env}
    (h : m.descriptor e = .ok (.live start count parent)) :
    start + count ≤ e ∧ e < m.stack.size := by
  have hd : m.descriptor? e = some (.live start count parent) := by
    rw [descriptor] at h
    cases hd : m.descriptor? e with
    | none =>
      rw [hd] at h
      cases h
    | some d =>
      rw [hd] at h
      cases h
      rfl
  rw [descriptor?] at hd
  split at hd
  · cases hd
  · simp only [Option.bind_eq_bind, Option.bind_eq_some_iff] at hd
    obtain ⟨start', hstart, count', -, parent', -, hd⟩ := hd
    split at hd
    · next hle =>
      cases hd
      exact ⟨hle, lt_size_of_position? hstart⟩
    · cases hd

theorem returnPoint_bounds {c : Nat} {p : ReturnPoint} (h : m.returnPoint c = .ok p) :
    4 ≤ c ∧ c ≤ m.sp ∧ p.bp + 4 ≤ c := by
  unfold returnPoint at h
  split at h
  · cases h
  · obtain ⟨ip, -, h⟩ := except_bind_eq_ok h
    obtain ⟨bp, -, h⟩ := except_bind_eq_ok h
    obtain ⟨envCell, -, h⟩ := except_bind_eq_ok h
    obtain ⟨env, -, h⟩ := except_bind_eq_ok h
    obtain ⟨prevCell, -, h⟩ := except_bind_eq_ok h
    obtain ⟨prev, -, h⟩ := except_bind_eq_ok h
    split at h
    · cases h
    · cases h
      exact ⟨by omega, by omega, by change bp + 4 ≤ c; omega⟩

theorem returnPoint_congr {m' : Machine} {c : Nat} (hsp : c ≤ m.sp) (hsp' : c ≤ m'.sp)
    (hcells : ∀ i < c, c ≤ i + 4 → m'.stack[i]? = m.stack[i]?) :
    m'.returnPoint c = m.returnPoint c := by
  by_cases hfew : c < 4
  · rw [returnPoint, returnPoint, if_pos (.inl hfew), if_pos (.inl hfew)]
  · have hcell {i : Nat} (hi : i < c) (hle : c ≤ i + 4) : m'.cell i = m.cell i := by
      rw [cell, cell, hcells i hi hle]
    have hpos {i : Nat} (hi : i < c) (hle : c ≤ i + 4) : m'.position? i = m.position? i := by
      rw [position?, position?, hcells i hi hle]
    rw [returnPoint, returnPoint, if_neg (by omega), if_neg (by omega),
      hpos (i := c - 4) (by omega) (by omega), hpos (i := c - 3) (by omega) (by omega),
      hcell (i := c - 2) (by omega) (by omega), hcell (i := c - 1) (by omega) (by omega)]

theorem ret_of_empty (hcont : m.cont = .empty) :
    ret m = .ok () { m with runnable := false } := by
  rw [ret]
  simp only [get_bind_apply, hcont]
  rw [← hcont]
  rfl

theorem ret_of_onHeap {k : Ref .continuation} (hcont : m.cont = .onHeap k) :
    ret m = resume k m := by
  simp only [ret, get_bind_apply, hcont]

theorem resume_halt {k : Ref .continuation} {c : Continuation}
    (hc : m.heap.continuation k = .ok c) (hr : c.resume = .halt) :
    resume k m = .ok () { m with runnable := false } := by
  rw [resume, query_bind_ok hc, hr]
  rfl

theorem resume_host {k : Ref .continuation} {c : Continuation} {id : Nat}
    (hc : m.heap.continuation k = .ok c) (hr : c.resume = .host id) :
    resume k m = if id ∈ m.hosts.active then
      .ok () { m with env := c.env, cont := c.prev, hosts.returned := some id }
    else .error (.fault .invalidContinuation) m := by
  rw [resume, query_bind_ok hc, hr]
  simp only [get_bind_apply]
  split <;> rfl

/-! ## Frames that the host asks for -/

theorem makeFrame_eq {taken extra : Nat} (h : taken + extra < Arity.slotLimit) :
    makeFrame taken extra = pushFrame taken extra := by
  funext m
  simp only [makeFrame, get_bind_apply, if_pos h]
  by_cases htaken : m.sp < taken
  · simp only [pushFrame, get_bind_apply, if_pos htaken]
  · rw [if_neg htaken]

theorem buildFrame_eq {a : Arity} (h : a.slots < Arity.slotLimit) :
    buildFrame a = enterFrame a := by
  funext m
  simp only [buildFrame, enterFrame, layOutFrame, get_bind_apply]
  unfold Arity.slots at h
  cases hvar : a.variadic with
  | true =>
    rw [hvar, Bool.toNat_true] at h
    rw [makeFrame_eq (by omega)]
    rfl
  | false =>
    rw [hvar, Bool.toNat_false] at h
    have hrest : (query (fun _ => distance (a.required + a.optional) m.argc) >>=
        fun missing => makeFrame m.argc (missing + a.extra)) =
        query (fun _ => distance (a.required + a.optional) m.argc) >>=
        fun missing => pushFrame m.argc (missing + a.extra) := by
      funext m'
      by_cases hle : m.argc ≤ a.required + a.optional
      · have hmissing := distance_ok hle
        rw [query_bind_ok hmissing, query_bind_ok hmissing, makeFrame_eq (by omega)]
      · have hnone : distance (a.required + a.optional) m.argc = .error .stuck := if_neg hle
        rw [query_bind_error hnone, query_bind_error hnone]
    simp only [Bool.false_eq_true, if_false, registers_eq]
    rw [hrest]
    rfl

/-! ## Fetching -/

def fetched (m : Machine) : Machine := { m with current := m.ip, ip := m.ip + 1 }

def operand? (m : Machine) (i : Nat) : Option Nat := m.code[m.ip + i]?.map UInt8.toNat

def opcode? (m : Machine) : Option Opcode := m.code[m.ip]? >>= Opcode.ofByte?

theorem fetchByte_some {b : UInt8} (h : m.code[m.ip]? = some b) :
    fetchByte m = .ok b { m with ip := m.ip + 1 } := by
  simp only [fetchByte, get_bind_apply, registers_eq, h]
  rfl

theorem fetchByte_none (h : m.code[m.ip]? = none) :
    fetchByte m = .error (.fault (.codeOverrun m.ip)) m := by
  simp only [fetchByte, get_bind_apply, registers_eq, h]
  rfl

theorem fetchNat_eq_ok {m' : Machine} {n : Nat} (h : fetchNat m = .ok n m') :
    m.operand? 0 = some n ∧ m' = { m with ip := m.ip + 1 } := by
  cases hb : m.code[m.ip]? with
  | none =>
    rw [fetchNat, bind_error (fetchByte_none hb)] at h
    cases h
  | some b =>
    rw [fetchNat, bind_ok (fetchByte_some hb)] at h
    cases h
    exact ⟨by simp [operand?, hb], rfl⟩

theorem fetchWord_cases (m : Machine) :
    (∃ n, fetchWord m = .ok n { m with ip := m.ip + 4 }) ∨
      fetchWord m = .error (.fault (.codeOverrun m.ip)) m := by
  simp only [fetchWord, get_bind_apply, registers_eq]
  cases m.code[m.ip]? with
  | none => exact .inr rfl
  | some a =>
    cases m.code[m.ip + 1]? with
    | none => exact .inr rfl
    | some b =>
      cases m.code[m.ip + 2]? with
      | none => exact .inr rfl
      | some c =>
        cases m.code[m.ip + 3]? with
        | none => exact .inr rfl
        | some d => exact .inl ⟨_, rfl⟩

theorem stepWith_of_opcode {apply : Exec Unit} {op : Opcode} (h : m.opcode? = some op) :
    stepWith apply m = execute apply op m.fetched := by
  cases hb : m.code[m.ip]? with
  | none => simp [opcode?, hb] at h
  | some b =>
    have hop : Opcode.ofByte? b = some op := by simpa [opcode?, hb] using h
    have hf : fetchByte { m with current := m.ip } = .ok b m.fetched :=
      fetchByte_some (show m.code[m.ip]? = some b from hb)
    simp only [stepWith, get_bind_apply, adjust_bind_apply, registers_eq]
    rw [bind_ok hf, hop]

theorem stepWith_of_none {apply : Exec Unit} (h : m.opcode? = none) :
    stepWith apply m = match m.code[m.ip]? with
      | some b => .error (.fault (.invalidInstruction b m.ip)) m.fetched
      | none => .error (.fault (.codeOverrun m.ip)) { m with current := m.ip } := by
  simp only [stepWith, get_bind_apply, adjust_bind_apply, registers_eq]
  cases hb : m.code[m.ip]? with
  | none => exact bind_error (fetchByte_none (show m.code[m.ip]? = none from hb))
  | some b =>
    have hop : Opcode.ofByte? b = none := by simpa [opcode?, hb] using h
    have hf : fetchByte { m with current := m.ip } = .ok b m.fetched :=
      fetchByte_some (show m.code[m.ip]? = some b from hb)
    rw [bind_ok hf, hop]
    rfl

end Machine

end LispMachine
