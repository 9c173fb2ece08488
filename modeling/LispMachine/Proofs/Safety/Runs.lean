import LispMachine.Proofs.Arrangement.Basic
import LispMachine.Proofs.Control.Adequacy
import LispMachine.Proofs.Safety.Instructions
import LispMachine.Proofs.Safety.Standard

/-! # Machines in use

The host sets up a machine, operates it and gives it work, in any order and with any code. All that
time the machine stays intact: nothing is asked for that is not there, and if the host links no
object to the stack, the machine does not either.
-/

namespace LispMachine

open Machine LispMachine.Configuration

variable {α : Type} {loose : Bool} {N : Nat} {m : Machine} {k : Context}

/-! ## Configurations -/

/-- What goes on with a known result mentions known values only. -/
def Script.Expects (h : Heap) (next : Option (Except Fault Value → Script Outcome)) : Prop :=
  ∀ f, next = some f → ∀ h', h.Within h' → ∀ r : Except Fault Value,
    (∀ v, r = .ok v → v.KnownIn h') → (f r).KnownIn h'

namespace Context

def KnownIn (h : Heap) : Context → Prop
  | call w k => Script.Expects h w.next ∧ k.KnownIn h
  | _ => True

def Waits : Context → Prop
  | call .. => True
  | _ => False

theorem KnownIn.mono {h h' : Heap} (hk : k.KnownIn h) (hw : h.Within h') : k.KnownIn h' := by
  induction k with
  | call w k ih => exact ⟨fun f hf h'' hw' => hk.1 f hf h'' (hw.trans hw'), ih hk.2⟩
  | _ => trivial

end Context

def Activity.KnownIn (h : Heap) (k : Context) : Activity → Prop
  | .enter callee args => (callee.KnownIn h ∧ ∀ v ∈ args, v.KnownIn h) ∧ k.Waits
  | .script s => s.KnownIn h
  | .leave _ => k.Waits
  | .ended outcome => Found (Value.KnownIn h) outcome
  | _ => True

/-- The machine is intact, and what waits and what goes on mentions known values only. -/
structure Configuration.Intact (loose : Bool) (N : Nat) (c : Configuration) : Prop where
  machine : c.machine.Intact loose N
  context : c.context.KnownIn c.machine.heap
  activity : c.activity.KnownIn c.machine.heap c.context

namespace Configuration.Intact

theorem settle {x : EStateM.Result Stop Machine α} {Q : α → Machine → Prop}
    {next : Except Fault α → Activity} (hk : k.KnownIn m.heap) (hx : Safe loose N m Q x)
    (hnext : ∀ r m', m.heap.Within m'.heap → (∀ a, r = .ok a → Q a m') →
      (next r).KnownIn m'.heap k) :
    (settle k next x).Intact loose N := by
  cases hx with
  | @done a m' hm hw ha =>
    refine ⟨hm, hk.mono hw, hnext (.ok a) m' hw fun b hb => ?_⟩
    cases hb
    exact ha
  | @stopped s m' hm hw hs =>
    cases s with
    | fault f => exact ⟨hm, hk.mono hw, hnext (.error f) m' hw fun b hb => by cases hb⟩
    | unfinished => exact ⟨hm, trivial, hs⟩
    | stuck => exact absurd rfl hs

theorem unlessFault {x : EStateM.Result Stop Machine α} {Q : α → Machine → Prop}
    {next : α → Activity} (hk : k.KnownIn m.heap) (hx : Safe loose N m Q x)
    (hnext : ∀ a m', Q a m' → (next a).KnownIn m'.heap k) :
    (Configuration.settle k (.unlessFault next) x).Intact loose N := by
  refine settle hk hx fun r m' _ hr => ?_
  cases r with
  | ok a => exact hnext a m' (hr a rfl)
  | error f => trivial

theorem conclude {x : EStateM.Result Stop Machine Value}
    (hx : Safe loose N m (fun v m' => v.KnownIn m'.heap) x) :
    (conclude x).Intact loose N := by
  cases hx with
  | done hm _ hv => exact ⟨hm, trivial, hv⟩
  | stopped hm _ hs => exact ⟨hm, trivial, hs⟩

theorem reply {x : EStateM.Result Stop Machine Value}
    {next : Option (Except Fault Value → Script Outcome)} (hk : k.KnownIn m.heap)
    (hn : Script.Expects m.heap next) (hx : Safe loose N m (fun v m' => v.KnownIn m'.heap) x) :
    (reply k next x).Intact loose N := by
  cases next with
  | none => exact conclude hx
  | some f =>
    rw [Configuration.reply]
    exact settle hk hx fun r m' hw hr => hn f rfl m'.heap hw r hr

theorem begin {next : Option (Except Fault Value → Script Outcome)} {callee : Value}
    {args : List Value} (hm : m.Intact loose N) (hk : k.KnownIn m.heap)
    (hn : Script.Expects m.heap next) (hc : callee.KnownIn m.heap ∧ ∀ v ∈ args, v.KnownIn m.heap) :
    (begin k next callee args (beginWaiting next m)).Intact loose N := by
  have hx := hm.beginWaiting next
  generalize beginWaiting next m = x at hx
  cases hx with
  | done hm' hw hnext =>
    refine ⟨hm', ⟨fun f hf h' hw' => ?_, hk.mono hw⟩, ?_⟩
    · rw [hnext] at hf
      exact hn f hf h' (hw.trans hw')
    · exact ⟨⟨hc.1.mono hw, fun v hv => (hc.2 v hv).mono hw⟩, trivial⟩
  | stopped hm' hw hs => exact reply hk hn (.stopped hm' hw hs)

theorem instruct (hm : m.Intact loose N) (hk : k.KnownIn m.heap) :
    (instruct m k).Intact loose N := by
  have hstep := hm.stepWith
  rw [Configuration.instruct]
  split
  · exact unlessFault hk hstep fun _ _ _ => trivial
  · exact ⟨hm.withCounters .., hk, trivial⟩
  · exact unlessFault hk hstep fun _ _ _ => trivial

theorem turned (hm : m.Intact loose N) (hk : k.KnownIn m.heap) : (turned m k).Intact loose N := by
  cases k with
  | outside => exact ⟨hm, trivial, hm.acc⟩
  | run =>
    rw [Configuration.turned]
    split
    · exact instruct hm hk
    · exact conclude (hm.endRun _)
  | call w k =>
    have hm' (hosts : HostCalls) : Machine.Intact loose N { m with hosts } := hm.withCounters ..
    simp only [Configuration.turned]
    split
    · exact ⟨hm' _, hk, trivial⟩
    · exact ⟨hm' _, hk, trivial⟩
    · exact instruct (hm' _) hk

theorem applied (hm : m.Intact loose N) (hk : k.KnownIn m.heap) : (applied m k).Intact loose N := by
  have hacc := hm.acc
  rw [Configuration.applied]
  split
  · next r h =>
    rw [h] at hacc
    exact unlessFault hk (hm.enterClosure hacc) fun _ _ _ => trivial
  · next r h =>
    rw [h] at hacc
    exact unlessFault hk (hm.handOver hacc) fun _ _ _ => trivial
  · next r h =>
    rw [h] at hacc
    exact unlessFault hk (hm.pickItem hacc) fun _ _ _ => trivial
  · next r h =>
    rw [h] at hacc
    exact unlessFault hk (hm.enterProcedure hacc) fun _ _ hs => hs
  · exact ⟨hm, hk, trivial⟩

theorem worked (hm : m.Intact loose N) (hk : k.KnownIn m.heap) {s : Script Outcome}
    (hs : s.KnownIn m.heap) : (worked m k s).Intact loose N := by
  cases s with
  | done o =>
    cases o with
    | value v => exact ⟨{ hm with acc := hs }, hk, trivial⟩
    | tailCall callee args =>
      exact unlessFault hk (hm.passArguments hs.1 hs.2) fun _ _ _ => trivial
  | fail f => exact ⟨hm, hk, trivial⟩
  | ask q next =>
    obtain ⟨hq, hnext⟩ := hs
    have hask (hcall : ∀ callee args, q ≠ .call callee args) :
        (Configuration.settle k (fun reply => .script (next reply))
          (answer (fun _ _ => throw .stuck) q m)).Intact loose N :=
      settle hk (hm.answer hq hcall _) fun r m' hw hr => hnext m'.heap hw r hr
    cases q with
    | call callee args =>
      -- the rest of the script waits in the context until the call has its result
      refine begin hm hk (fun f hf => ?_) hq
      cases hf
      exact hnext
    | _ => exact hask fun _ _ h => by cases h

theorem failed (hm : m.Intact loose N) (hk : k.KnownIn m.heap) (f : Fault) :
    (failed m f k).Intact loose N := by
  cases k with
  | outside => exact ⟨hm, trivial, fun h => by cases h⟩
  | run =>
    rw [Configuration.failed]
    split
    · exact ⟨hm.withCounters .., trivial, trivial⟩
    · exact conclude (hm.endRun _)
  | call w k =>
    refine ⟨hm, hk, ?_⟩
    simp only [Configuration.failed]
    split <;> trivial

theorem advance {c : Configuration} (hc : c.Intact loose N) : c.advance.Intact loose N := by
  obtain ⟨m, k, a⟩ := c
  obtain ⟨hm, hk, ha⟩ := hc
  cases a with
  | loop => exact turned hm hk
  | enter callee args =>
    refine settle hk (hm.passArguments ha.1.1 ha.1.2) fun r m' _ _ => ?_
    cases r with
    | ok => trivial
    | error => exact ha.2
  | apply => exact applied hm hk
  | script s => exact worked hm hk ha
  | ret => exact unlessFault hk hm.ret fun _ _ _ => trivial
  | fault f => exact failed hm hk f
  | leave outcome =>
    cases k with
    | call w k => exact reply hk.2 hk.1 (hm.endWaiting w outcome)
    -- only a call that waits can be left
    | _ => cases ha
  | ended outcome => exact ⟨hm, hk, ha⟩

theorem reaches {c c' : Configuration} (hc : c.Intact loose N) (h : Reaches c c') :
    c'.Intact loose N := by
  obtain ⟨n, rfl⟩ := h
  induction n with
  | zero => exact hc
  | succ n ih =>
    rw [Function.iterate_succ_apply']
    exact ih.advance

end Configuration.Intact

/-! ## Tasks -/

namespace Task

def KnownIn (h : Heap) : Task → Prop
  | call callee args => callee.KnownIn h ∧ ∀ v ∈ args, v.KnownIn h
  | _ => True

theorem start_intact (hm : m.Intact loose N) {t : Task} (ht : t.KnownIn m.heap) :
    (t.start m).Intact loose N := by
  cases t with
  | step => exact .instruct hm trivial
  | apply => exact ⟨hm, trivial, trivial⟩
  | run =>
    rw [start]
    split
    · exact ⟨hm.withCounters .., trivial, trivial⟩
    · exact ⟨hm, trivial, fun h => by cases h⟩
  | call callee args => exact .begin hm trivial (fun f hf => by cases hf) ht

end Task

/-! ## Operations of the host -/

/-- What the host may do with a machine, apart from giving it work. -/
inductive Operation
  | load (p : Program)
  | define (name : String) (v : Value)
  | installStandard
  | setAcc (v : Value)
  | setArgc (n : Nat)
  | setIp (ip : Nat)
  | push (v : Value)
  | pop
  | makeFrame (taken extra : Nat)
  | buildFrame (a : Arity)
  | reuseFrame (n : Nat)
  | readSlot (depth index : Nat)
  | writeSlot (depth index : Nat) (v : Value)
  | promote
  | pushReturnPoint (offset : Int)
  | ret
  | capture
  | reclaim

namespace Operation

def exec : Operation → Exec Value
  | load p => reporting (Machine.load p)
  | define name v => reporting (Machine.define name v)
  | installStandard => reporting Machine.installStandard
  | setAcc v => reporting (Machine.setAcc v)
  | setArgc n => reporting (Machine.setArgc n)
  | setIp ip => reporting (Machine.setIp ip)
  | push v => reporting (Machine.push v)
  | pop => Machine.pop
  | makeFrame taken extra => reporting (Machine.makeFrame taken extra)
  | buildFrame a => reporting (Machine.buildFrame a)
  | reuseFrame n => reporting (Machine.reuseFrame n)
  | readSlot depth index => query (·.readSlot depth index)
  | writeSlot depth index v => reporting (Machine.writeSlot depth index v)
  | promote => do return (← promoteCurrent).toValue
  | pushReturnPoint offset => reporting (Machine.pushReturnPoint offset)
  | ret => reporting Machine.ret
  | capture => do return .continuation (← Machine.capture)
  | reclaim => reporting Machine.reclaim
where
  reporting (x : Exec Unit) : Exec Value := do
    x
    return (← get).acc

/-- The values that the host passes are known. They may be handles of the stack. -/
def KnownIn (h : Heap) : Operation → Prop
  | load p => ∀ v ∈ p.literals, v.KnownIn h
  | define _ v | setAcc v | push v | writeSlot _ _ v => v.KnownIn h
  | _ => True

/-- The frame that the host asks for, if any, is not too large. -/
def Addressable : Operation → Prop
  | makeFrame taken extra => taken + extra < Arity.slotLimit
  | buildFrame a => a.slots < Arity.slotLimit
  | _ => True

theorem reporting_safe {x : Exec Unit} (hx : Safe loose N m (fun _ _ => True) (x m)) :
    Safe loose N m (fun v m' => v.KnownIn m'.heap) (exec.reporting x m) :=
  hx.bind fun _ _ hm₁ _ _ => .ok hm₁ hm₁.acc

theorem load_safe (hm : m.Intact loose N) {p : Program} (hp : ∀ v ∈ p.literals, v.KnownIn m.heap) :
    Safe loose N m (fun _ _ => True) (Machine.load p m) := by
  refine .done ?_ (.refl _) trivial
  refine ⟨Array.size_replicate.trans hm.capacity, Nat.zero_le N, hm.heap, fun v hv => ?_, trivial,
    trivial, trivial, hp, hm.globals⟩
  rw [Array.eq_of_mem_replicate hv]
  trivial

theorem installStandard_safe (hm : m.Intact loose N) :
    Safe loose N m (fun _ _ => True) (Machine.installStandard m) := by
  -- which procedures there are does not matter from here on
  have hknown : ∀ p ∈ Standard.procedures, p.body.KnownIn m.heap := fun _ => Script.known_standard
  rw [Machine.installStandard]
  generalize Standard.procedures = ps at hknown
  refine Intact.forM (P := fun p h => p.body.KnownIn h) (fun hp hw => hp.mono hw) (fun hm hp => ?_)
    hm hknown
  exact (hm.newProcedure hp).bind fun r m₁ hm₁ _ hr => hm₁.define _ hr

/-- Every operation is safe, unless it asks for a frame that is too large. -/
theorem exec_safe (hm : m.Intact loose N) {op : Operation} (hop : op.KnownIn m.heap)
    (hsize : op.Addressable) : Safe loose N m (fun v m' => v.KnownIn m'.heap) (op.exec m) := by
  cases op with
  | load p => exact reporting_safe (load_safe hm hop)
  | define name v => exact reporting_safe (hm.define name hop)
  | installStandard =>
    exact reporting_safe (installStandard_safe hm)
  | setAcc v => exact reporting_safe (hm.setAcc hop)
  | setArgc n => exact reporting_safe (.done (hm.withCounters ..) (.refl _) trivial)
  | setIp ip => exact reporting_safe (.done (hm.withCounters ..) (.refl _) trivial)
  | push v => exact reporting_safe (hm.push hop)
  | pop => exact hm.pop
  | makeFrame taken extra => exact reporting_safe (makeFrame_eq hsize ▸ hm.pushFrame taken extra)
  | buildFrame a => exact reporting_safe (buildFrame_eq hsize ▸ hm.enterFrame a)
  | reuseFrame n => exact reporting_safe (hm.reuseFrame n)
  | readSlot depth index =>
    rw [exec]
    exact .look hm (hm.readSlot depth index)
  | writeSlot depth index v => exact reporting_safe (hm.writeSlot depth index hop)
  | promote => exact hm.promoteCurrent.bind fun env m₁ hm₁ _ he => .ok hm₁ he.1.toValue
  | pushReturnPoint offset => exact reporting_safe (hm.pushReturnPoint offset)
  | ret => exact reporting_safe hm.ret
  | capture => exact hm.capture.bind fun r m₁ hm₁ _ hr => .ok hm₁ hr
  | reclaim => exact reporting_safe hm.reclaim

theorem reporting_keepsIntact {x : Exec Unit} (hx : KeepsIntact loose N m (x m)) :
    KeepsIntact loose N m (exec.reporting x m) :=
  hx.bind fun _ _ hm₁ _ => .ok hm₁

/-- No operation does harm, even if it asks for a frame that is too large. -/
theorem exec_keepsIntact (hm : m.Intact loose N) {op : Operation} (hop : op.KnownIn m.heap) :
    KeepsIntact loose N m (op.exec m) := by
  by_cases hsize : op.Addressable
  · exact (exec_safe hm hop hsize).keepsIntact
  · cases op with
    | makeFrame taken extra => exact reporting_keepsIntact (hm.makeFrame taken extra)
    | buildFrame a => exact reporting_keepsIntact (hm.buildFrame a)
    | _ => exact absurd trivial hsize

end Operation

/-! ## Use -/

/-- The machines with `N` cells that the host comes across. It may operate a machine again wherever
a task has come to, as host procedures do. -/
inductive Operated (loose : Bool) (N : Nat) : Machine → Prop
  | new : Operated loose N (.new N)
  /-- The host makes objects or changes some. -/
  | supply {m : Machine} {heap : Heap} (h : Operated loose N m) (hs : heap.Sound loose)
    (hw : m.heap.Within heap) : Operated loose N { m with heap }
  /-- It carries out an operation, which may fail. -/
  | operate {m : Machine} (op : Operation) (h : Operated loose N m) (hop : op.KnownIn m.heap) :
    Operated loose N (final (op.exec m))
  /-- It begins a task, and some steps are taken. -/
  | work {m : Machine} (t : Task) {c : Configuration} (h : Operated loose N m)
    (ht : t.KnownIn m.heap) (hc : Reaches (t.start m) c) : Operated loose N c.machine

theorem Heap.sound_empty (loose : Bool) : Heap.Sound loose {} :=
  ⟨fun _ h => absurd h (Array.not_mem_empty _), fun _ h => absurd h (Array.not_mem_empty _),
    fun _ h => absurd h (Array.not_mem_empty _), fun _ h => absurd h (Array.not_mem_empty _),
    fun _ h => absurd h (Array.not_mem_empty _), fun _ h => absurd h (Array.not_mem_empty _)⟩

theorem Machine.Intact.new (loose : Bool) (N : Nat) : (Machine.new N).Intact loose N := by
  refine ⟨Array.size_replicate, Nat.zero_le N, Heap.sound_empty loose, fun v hv => ?_, trivial,
    trivial,
    trivial, fun v hv => absurd hv (Array.not_mem_empty v), fun name v hv => ?_⟩
  · rw [Array.eq_of_mem_replicate hv]
    trivial
  · simp [Registers.global?, Machine.new] at hv

theorem Operated.intact (h : Operated loose N m) : m.Intact loose N := by
  induction h with
  | new => exact .new loose N
  | supply _ hs hw ih => exact ih.withHeap hs hw
  | operate _ _ hop ih => exact (Operation.exec_keepsIntact ih hop).intact
  | work _ _ ht hc ih => exact ((Task.start_intact ih ht).reaches hc).machine

theorem Env.LeadsIn.closedIn {h : Heap} {env : Env} (he : env.LeadsIn false h) :
    env.ClosedIn h := by
  cases env with
  | onStack => cases he
  | _ => exact he

theorem Cont.LeadsIn.closedIn {h : Heap} {cont : Cont} (hc : cont.LeadsIn false h) :
    cont.ClosedIn h := by
  cases cont with
  | onStack => cases hc
  | _ => exact hc

/-- As long as the host makes no object that links to the stack, there is none. -/
theorem Operated.heap_linked (h : Operated false N m) : m.heap.Linked := by
  have hs := h.intact.heap
  exact
    { frames := fun f hf => (hs.frames f hf).2.closedIn
      closures := fun c hc => (hs.closures c hc).closedIn
      continuations := fun k hk =>
        ⟨(hs.continuations k hk).2.1.closedIn, (hs.continuations k hk).2.2.closedIn⟩ }

/-- A frame on the stack, and in it the code makes a closure. -/
def Machine.enclosing : Machine :=
  final ((Operation.makeFrame 0 1).exec
    (final ((Operation.load { code := #[0x4d, 0, 0, 0, 0] }).exec (.new 8))))

/-- The closure links to a copy of the frame. -/
theorem Machine.enclosing_heap_linked :
    let m := (Task.step.start enclosing).machine
    enclosing.env = .onStack 1 ∧ Operated false 8 m ∧
      m.heap.closures = #[{ env := .onHeap ⟨0⟩, entry := 5 }] ∧ m.heap.Linked := by
  intro m
  have hload :
      Operated false 8 (final ((Operation.load { code := #[0x4d, 0, 0, 0, 0] }).exec (.new 8))) :=
    .operate _ .new fun v hv => absurd hv (Array.not_mem_empty v)
  have hm : Operated false 8 m :=
    .work .step (.operate (.makeFrame 0 1) hload trivial) trivial ⟨0, rfl⟩
  exact ⟨rfl, hm, by decide +kernel, Operated.heap_linked hm⟩

end LispMachine
