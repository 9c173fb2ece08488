import LispMachine.Proofs.Control.Basic
import LispMachine.Proofs.Safety.Operations

/-! # Instructions and calls are safe

Whatever the bytes of the code are, an instruction either does its work or ends with a fault. The
same holds for applying a procedure, for the requests of host procedures, and for the calls from the
host.
-/

namespace LispMachine.Machine

variable {α : Type} {loose : Bool} {N : Nat} {m : Machine} {v : Value}

namespace Intact

/-! ## Fetching -/

theorem fetchByte (hm : m.Intact loose N) : Safe loose N m (fun _ _ => True) (fetchByte m) := by
  cases hb : m.code[m.ip]? with
  | none =>
    rw [fetchByte_none hb]
    exact .fault hm
  | some b =>
    rw [fetchByte_some hb]
    exact .done (hm.withCounters ..) (.refl _) trivial

theorem fetchNat (hm : m.Intact loose N) : Safe loose N m (fun _ _ => True) (fetchNat m) :=
  hm.fetchByte.bind fun _ _ hm₁ _ _ => .ok hm₁ trivial

theorem fetchWord (hm : m.Intact loose N) : Safe loose N m (fun _ _ => True) (fetchWord m) := by
  rcases fetchWord_cases m with ⟨n, h⟩ | h
  · rw [h]
    exact .done (hm.withCounters ..) (.refl _) trivial
  · rw [h]
    exact .fault hm

/-! ## Executing -/

theorem toAcc {x : Exec Value} (hx : Safe loose N m (fun v m' => v.KnownIn m'.heap) (x m)) :
    Safe loose N m (fun _ _ => True) ((x >>= Machine.setAcc) m) :=
  hx.bind fun _ _ hm₁ _ hv => hm₁.setAcc hv

theorem unary (hm : m.Intact loose N) {op : Heap → Value → Except Stop Value}
    (hop : Found (Value.KnownIn m.heap) (op m.heap m.acc)) :
    Safe loose N m (fun _ _ => True) (unary op m) :=
  toAcc (.look hm hop)

theorem binary (hm : m.Intact loose N) {op : Value → Value → Except Fault Value}
    (hop : Value.Plain op) : Safe loose N m (fun _ _ => True) (binary op m) := by
  refine hm.pop.bind fun a m₁ hm₁ _ _ => ?_
  simp only [get_bind_apply]
  cases hv : op a m₁.acc with
  | ok v => exact hm₁.setAcc (hop _ _ v hv _)
  | error f => exact .fault hm₁

theorem update (hm : m.Intact loose N) {change : Value → Value → Exec Unit}
    (hc : ∀ {m : Machine} {cell v : Value}, m.Intact loose N → cell.KnownIn m.heap →
      v.KnownIn m.heap → Safe loose N m (fun _ _ => True) (change cell v m)) :
    Safe loose N m (fun _ _ => True) (update change m) := by
  refine hm.pop.bind fun cell m₁ hm₁ _ hcell => ?_
  simp only [get_bind_apply]
  exact (hc hm₁ hcell hm₁.acc).bind fun _ m₂ hm₂ hw₂ _ => hm₂.setAcc (hcell.mono hw₂)

theorem part {op : Heap → Value → Except Stop Value}
    (hv : Found (Value.KnownIn m.heap) (op m.heap v)) :
    Found (Value.KnownIn m.heap) (part op m.heap v) := by
  cases v with
  | nil | unbound => trivial
  | _ => exact hv

theorem jumpIf (hm : m.Intact loose N) (wanted : Value → Bool) :
    Safe loose N m (fun _ _ => True) (jumpIf wanted m) := by
  refine hm.fetchWord.bind fun offset m₁ hm₁ _ _ => ?_
  simp only [get_bind_apply]
  refine .ite (fun _ => ?_) fun _ => .ok hm₁ trivial
  exact .query_bind hm₁ (relative m₁ offset) fun _ _ => .done (hm₁.withCounters ..)
    (.refl _) trivial

theorem bindGlobal (hm : m.Intact loose N) (name : String) (hv : v.KnownIn m.heap) :
    Intact loose N { m with globals := m.globals.insert name v } := by
  refine { hm with globals := fun other u hu => ?_ }
  rw [Registers.global?, Std.TreeMap.getElem?_insert] at hu
  split at hu
  · cases hu
    exact hv
  · exact hm.globals other u hu

theorem define (hm : m.Intact loose N) (name : String) (hv : v.KnownIn m.heap) :
    Safe loose N m (fun _ _ => True) (define name v m) := by
  rw [Machine.define]
  cases Value.ofName name with
  | symbol s => exact .done (hm.bindGlobal s hv) (.refl _) trivial
  | _ => exact .ok hm trivial

/-- Every instruction is safe. Applying is not part of it. -/
theorem execute (hm : m.Intact loose N) (op : Opcode) :
    Safe loose N m (fun _ _ => True) (execute (pure ()) op m) := by
  have hheap := hm.heap
  cases op with
  | nop => exact .ok hm trivial
  | push => exact hm.push hm.acc
  | pop => exact toAcc hm.pop
  | ret => exact hm.ret
  | not =>
    rw [Machine.execute]
    exact hm.unary (Value.known_truth m.acc.isNil)
  | loadTrue | loadNil => exact hm.setAcc trivial
  | halt => exact hm.halt
  | add => exact hm.binary Value.plain_add
  | sub => exact hm.binary Value.plain_sub
  | mul => exact hm.binary Value.plain_mul
  | div => exact hm.binary Value.plain_div
  | same => exact hm.binary Value.plain_same
  | cons => exact hm.pop.bind fun car m₁ hm₁ _ hcar => toAcc (hm₁.cons hcar hm₁.acc)
  | consReversed => exact hm.pop.bind fun cdr m₁ hm₁ _ hcdr => toAcc (hm₁.cons hm₁.acc hcdr)
  | car => exact hm.unary (hheap.car hm.acc)
  | cdr => exact hm.unary (hheap.cdr hm.acc)
  | partCar => exact hm.unary (part (hheap.car hm.acc))
  | partCdr => exact hm.unary (part (hheap.cdr hm.acc))
  | setCar => exact hm.update fun hm hcell hv => hm.setCar hcell hv
  | setCdr => exact hm.update fun hm hcell hv => hm.setCdr hcell hv
  | dup => exact toAcc hm.top
  | splice => exact hm.pop.bind fun tail m₁ hm₁ _ htail => toAcc (hm₁.splice hm₁.acc htail)
  | loadLiteral =>
    exact hm.fetchWord.bind fun index m₁ hm₁ _ _ => toAcc (.look hm₁ (hm₁.literal index))
  | loadInteger => exact hm.fetchWord.bind fun n m₁ hm₁ _ _ => hm₁.setAcc (Value.known_fixnum n)
  | loadGlobal =>
    refine hm.fetchWord.bind fun index m₁ hm₁ _ _ => ?_
    refine .query_bind hm₁ (hm₁.literalName index) fun name _ => toAcc ?_
    exact .look hm₁ (.orFault (hm₁.globals name))
  | storeGlobal =>
    refine hm.fetchWord.bind fun index m₁ hm₁ _ _ => ?_
    refine .query_bind hm₁ (hm₁.literalName index) fun name _ => ?_
    exact .done (hm₁.bindGlobal name hm₁.acc) (.refl _) trivial
  | apply =>
    exact hm.fetchNat.bind fun n m₁ hm₁ _ _ => .done (hm₁.withCounters ..) (.refl _) trivial
  | closure =>
    refine hm.fetchWord.bind fun offset m₁ hm₁ _ _ => ?_
    refine .query_bind hm₁ (relative m₁ offset) fun entry _ => ?_
    refine hm₁.promoteCurrent.bind fun env m₂ hm₂ _ he => ?_
    exact (hm₂.newClosure (c := { env, entry }) he.1.loosen).bind fun _ _ hm₃ _ hr => hm₃.setAcc hr
  | jump | jumpTrue | jumpFalse | jumpBound =>
    rw [Machine.execute]
    exact hm.jumpIf _
  | reuseFrame => exact hm.fetchNat.bind fun n m₁ hm₁ _ _ => hm₁.reuseFrame n
  | loadLocal =>
    exact hm.fetchNat.bind fun index m₁ hm₁ _ _ => toAcc (.look hm₁ (hm₁.readSlot 0 index))
  | storeLocal => exact hm.fetchNat.bind fun index m₁ hm₁ _ _ => hm₁.writeSlot 0 index hm₁.acc
  | loadOuter =>
    refine hm.fetchNat.bind fun depth m₁ hm₁ _ _ => hm₁.fetchNat.bind fun index m₂ hm₂ _ _ => ?_
    exact toAcc (.look hm₂ (hm₂.readSlot depth index))
  | storeOuter =>
    refine hm.fetchNat.bind fun depth m₁ hm₁ _ _ => hm₁.fetchNat.bind fun index m₂ hm₂ _ _ => ?_
    exact hm₂.writeSlot depth index hm₂.acc
  | returnPoint => exact hm.fetchWord.bind fun offset m₁ hm₁ _ _ => hm₁.pushReturnPoint offset
  | frame | frameRest =>
    refine hm.fetchNat.bind fun required m₁ hm₁ _ _ => ?_
    refine hm₁.fetchNat.bind fun extra m₂ hm₂ _ _ => ?_
    exact hm₂.fetchNat.bind fun optional m₃ hm₃ _ _ => hm₃.enterFrame _

theorem stepWith (hm : m.Intact loose N) :
    Safe loose N m (fun _ _ => True) (stepWith (pure ()) m) := by
  cases hop : m.opcode? with
  | some op =>
    rw [stepWith_of_opcode hop]
    have hm' : m.fetched.Intact loose N := hm.withCounters ..
    have hw : m.heap.Within m.fetched.heap := .refl _
    exact (hm'.execute op).before hw
  | none =>
    rw [stepWith_of_none hop]
    cases m.code[m.ip]? with
    | some b => exact .stopped (hm.withCounters ..) (.refl _) fun h => by cases h
    | none => exact .stopped (hm.withCounters ..) (.refl _) fun h => by cases h

/-! ## Applying -/

theorem enterClosure (hm : m.Intact loose N) {r : Ref .closure}
    (hr : r.index < m.heap.closures.size) :
    Safe loose N m (fun _ _ => True) (enterClosure r m) := by
  refine .query_bind hm (.object hr hm.heap.closures) fun c hc => ?_
  exact .done { hm with env := hc.inRegister } (.refl _) trivial

theorem handOver (hm : m.Intact loose N) {r : Ref .continuation}
    (hr : r.index < m.heap.continuations.size) :
    Safe loose N m (fun _ _ => True) (handOver r m) := by
  refine (hm.checkArgc 1 1).bind fun _ m₁ hm₁ hw₁ _ => hm₁.pop.bind fun v m₂ hm₂ hw₂ hv => ?_
  have hr₂ : r.index < m₂.heap.continuations.size :=
    Nat.lt_of_lt_of_le hr (hw₁.trans hw₂).continuations
  have hm₃ : Intact loose N { m₂ with acc := v } := { hm₂ with acc := hv }
  refine .after_modify (.refl _) ?_
  refine .query_bind hm₃ (P := fun _ => True) (.object hr₂ fun _ _ => trivial) fun k _ => ?_
  exact .done { hm₃ with cont := hr₂ } (.refl _) trivial

theorem pickItem (hm : m.Intact loose N) {list : Value} (hl : list.KnownIn m.heap) :
    Safe loose N m (fun _ _ => True) (pickItem list m) := by
  refine (hm.enterFrame _).bind fun _ m₁ hm₁ hw₁ _ => ?_
  refine .query_bind hm₁ (hm₁.readSlot 0 0) fun v _ => ?_
  cases v with
  | fixnum index => exact toAcc (.look hm₁ (hm₁.heap.nth (hl.mono hw₁) index))
  | _ => exact .fault hm₁

theorem enterProcedure (hm : m.Intact loose N) {r : Ref .procedure}
    (hr : r.index < m.heap.procedures.size) :
    Safe loose N m (fun s m' => s.KnownIn m'.heap) (enterProcedure r m) := by
  refine .query_bind hm (.object hr hm.heap.procedures) fun p hp => ?_
  exact (hm.enterFrame _).bind fun _ m₁ hm₁ hw₁ _ => .ok hm₁ (hp.mono hw₁)

theorem passArguments (hm : m.Intact loose N) {callee : Value} {args : List Value}
    (hc : callee.KnownIn m.heap) (ha : ∀ v ∈ args, v.KnownIn m.heap) :
    Safe loose N m (fun _ _ => True) (passArguments callee args m) := by
  have hm₁ : Intact loose N { m with argc := args.length } := hm.withCounters ..
  refine .after_modify (.refl _) ?_
  exact (hm₁.pushAll ha).bind fun _ m₂ hm₂ hw₂ _ => hm₂.setAcc (hc.mono hw₂)

theorem answer (hm : m.Intact loose N) {q : Request} (hq : q.KnownIn m.heap)
    (hcall : ∀ callee args, q ≠ .call callee args) (call : Value → List Value → Exec Value) :
    Safe loose N m (fun a m' => q.ReplyIn m'.heap a) (answer call q m) := by
  cases q with
  | call callee args => exact absurd rfl (hcall callee args)
  | slot depth index =>
    rw [Machine.answer]
    exact .look (P := Value.KnownIn) hm (hm.readSlot depth index)
  | setSlot depth index v => exact hm.writeSlot depth index hq
  | global name => exact .ok hm fun v hv => hm.globals name v hv
  | define name v => exact hm.define name hq
  | capture => exact hm.capture.bind fun _ _ hm₁ _ hr => .ok hm₁ hr
  | items list =>
    rw [Machine.answer]
    exact .look (P := fun h (vs : List Value) => ∀ v ∈ vs, v.KnownIn h) hm (hm.heap.items hq)
  | car v =>
    rw [Machine.answer]
    exact .look (P := Value.KnownIn) hm (hm.heap.car hq)
  | cdr v =>
    rw [Machine.answer]
    exact .look (P := Value.KnownIn) hm (hm.heap.cdr hq)
  | setCar cell v => exact hm.setCar hq.1 hq.2
  | setCdr cell v => exact hm.setCdr hq.1 hq.2
  | pair car cdr => exact hm.cons hq.1 hq.2
  | elements r =>
    rw [Machine.answer]
    exact .look (P := fun h (vs : List Value) => ∀ v ∈ vs, v.KnownIn h) hm
      (.object hq hm.heap.vectors)
  | setElements r items => exact hm.setVector hq.1 hq.2
  | vector vs => exact (hm.newVector hq).bind fun _ _ hm₁ _ hr => .ok hm₁ hr

/-! ## Calls from the host -/

theorem beginCall (hm : m.Intact loose N) : Safe loose N m (fun _ _ => True) (beginCall m) := by
  refine hm.promoteCurrent.bind fun env m₁ hm₁ _ he => ?_
  simp only [get_bind_apply]
  refine (hm₁.promoteCont hm₁.cont).bind fun cont m₂ hm₂ hw₂ hc => ?_
  simp only [get_bind_apply]
  have hm₂' : Intact loose N { m₂ with cont, hosts := m₂.hosts.enter } :=
    { hm₂ with cont := hc.inRegister }
  refine .after_modify (.refl _) ?_
  -- what the marker links to has just been moved to the heap
  have hk : Continuation.KnownIn loose m₂.heap (.marker m₂.hosts.next cont env) :=
    ⟨fun v hv => absurd hv (Array.not_mem_empty v), (he.1.mono hw₂).loosen, hc.loosen⟩
  refine (hm₂'.newContinuation hk).bind fun r m₃ hm₃ _ hr => ?_
  exact .after_modify (.refl _) (.ok { hm₃ with cont := hr } trivial)

theorem beginWaiting (hm : m.Intact loose N) (next : Option (Except Fault Value → Script Outcome)) :
    Safe loose N m (fun w _ => w.next = next) (beginWaiting next m) := by
  have hm₁ : m.awake.Intact loose N := hm.withCounters ..
  have hbegin : Safe loose N m.awake (fun w _ => w.next = next) ((do
      let id ← Machine.beginCall
      return m.waitingFor next id (← get).sp : Exec Waiting) m.awake) :=
    hm₁.beginCall.bind fun id m₂ hm₂ _ _ => .ok hm₂ rfl
  have hw : m.heap.Within m.awake.heap := .refl _
  exact hbegin.before hw

theorem endWaiting (hm : m.Intact loose N) (w : Waiting) (outcome : Except Fault Unit) :
    Safe loose N m (fun v m' => v.KnownIn m'.heap) (endWaiting w outcome m) := by
  have hm₁ : Intact loose N { m with hosts := m.hosts.leave w.id } := hm.withCounters ..
  have hsp := hm.sp_le
  refine .after_modify (.refl _) ?_
  cases outcome with
  | ok =>
    refine .after_modify (.refl _) (.ok ?_ hm.acc)
    exact { hm₁ with sp_le := Nat.le_trans (Nat.min_le_right ..) hsp }
  | error f =>
    refine .ite (fun _ => ?_) fun _ => .fault hm₁
    simp only [get_bind_apply]
    refine .ite (fun _ => ?_) fun _ => ?_
    · exact .after_modify (.refl _) (.ok (hm₁.withCounters ..) hm.acc)
    · exact .after_modify (.refl _) (.fault (hm₁.withCounters ..))

theorem endRun (hm : m.Intact loose N) (outcome : Except Fault Unit) :
    Safe loose N m (fun v m' => v.KnownIn m'.heap) (endRun outcome m) := by
  cases outcome with
  | ok => exact .after_modify (.refl _) (.ok (hm.withCounters ..) hm.acc)
  | error f => exact .after_modify (.refl _) (.fault (hm.withCounters ..))

end Intact

end LispMachine.Machine
