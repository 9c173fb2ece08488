import LispMachine.Proofs.Control.Contract
import LispMachine.Proofs.Reentry.Confined
import LispMachine.Proofs.Reentry.Order

/-! # What a call from the host leaves of the operands

A call keeps in mind how high the stack was when it began, and in the end cuts it off there. As long
as nothing is collected while the callee is at work, the operands of the caller are then where they
were. But once the base is above them a collection takes them for something that nobody needs any
more, and there it stays after the call.
-/

namespace LispMachine

open Machine LispMachine.Configuration

/-! ## Instructions -/

/-- The number of cells that the instruction puts on the stack once there is room for them. -/
def Opcode.cells : Opcode → Nat
  | .push => 1
  | .returnPoint => 4
  | _ => 0

variable {α : Type} {lo : Nat} {cells : Array Value} {segs : List Segment} {m m' : Machine}

namespace Machine

/-- The next instruction takes only what lies above position `lo` and above all that the registers
name. It does not leave a frame below a return point, and no return point below the base. -/
structure KeepsAbove (lo : Nat) (m : Machine) : Prop where
  takes : ∀ op ∈ m.opcode?, ∀ n ∈ m.fetched.taken? op, m.ground lo + n ≤ m.sp
  leaves : .reuseFrame ∈ m.opcode? → ∀ start ∈ m.liveStart?, m.cont.top ≤ start
  calls : .returnPoint ∈ m.opcode? → m.bp ≤ m.sp

instance (lo : Nat) (m : Machine) : Decidable (m.KeepsAbove lo) :=
  decidable_of_iff
    ((∀ op ∈ m.opcode?, ∀ n ∈ m.fetched.taken? op, m.ground lo + n ≤ m.sp) ∧
      (.reuseFrame ∈ m.opcode? → ∀ start ∈ m.liveStart?, m.cont.top ≤ start) ∧
      (.returnPoint ∈ m.opcode? → m.bp ≤ m.sp))
    ⟨fun ⟨ht, hl, hc⟩ => ⟨ht, hl, hc⟩, fun h => ⟨h.takes, h.leaves, h.calls⟩⟩

namespace Confined

theorem fetchFrame (hm : m.Confined lo cells) (variadic : Bool)
    (htake : m.frameAccepts variadic = true → m.ground lo + m.argc ≤ m.sp) :
    RemainsAbove lo cells ((do
      let required ← Machine.fetchNat
      let extra ← Machine.fetchNat
      let optional ← Machine.fetchNat
      Machine.enterFrame { required, optional, extra, variadic } : Exec Unit) m) := by
  refine hm.fetchNat.bind ?_
  rintro required _ hm₁ ⟨rfl, hrequired⟩
  refine hm₁.fetchNat.bind ?_
  rintro extra _ hm₂ ⟨rfl, -⟩
  refine hm₂.fetchNat.bind ?_
  rintro optional _ hm₃ ⟨rfl, hoptional⟩
  have hoptional : m.operand? 2 = some optional := hoptional
  refine hm₃.enterFrame _ fun ha => htake ?_
  simp only [frameAccepts, hrequired, hoptional]
  exact decide_eq_true ha

theorem execute (hm : m.Confined lo cells) {op : Opcode} (hret : op ≠ .ret) (happly : op ≠ .apply)
    (htake : ∀ n ∈ m.taken? op, m.ground lo + n ≤ m.sp)
    (hleave : op = .reuseFrame → ∀ start ∈ m.liveStart?, m.cont.top ≤ start)
    (hcall : op = .returnPoint → m.bp ≤ m.sp) (hroom : m.sp + op.cells ≤ m.capacity)
    (x : Exec Unit) :
    RemainsAbove lo cells (Machine.execute x op m) := by
  have hone (h : m.taken? op = some 1) : m.ground lo + 1 ≤ m.sp := htake 1 h
  cases op with
  | nop => exact .ok hm trivial
  | push => exact hm.push hroom _
  | pop => exact (hm.pop (hone rfl)).bind fun v _ hm' _ => hm'.setAcc v
  | ret => exact absurd rfl hret
  | not =>
    rw [Machine.execute]
    exact hm.unary _
  | loadTrue => exact hm.setAcc _
  | loadNil => exact hm.setAcc _
  | halt => exact hm.halt
  | add => exact hm.binary (hone rfl) _
  | sub => exact hm.binary (hone rfl) _
  | mul => exact hm.binary (hone rfl) _
  | div => exact hm.binary (hone rfl) _
  | cons =>
    refine (hm.pop (hone rfl)).bind fun car m₁ hm₁ _ => ?_
    exact (hm₁.cons car m₁.acc).bind fun v _ hm' _ => hm'.setAcc v
  | consReversed =>
    refine (hm.pop (hone rfl)).bind fun cdr m₁ hm₁ _ => ?_
    exact (hm₁.cons m₁.acc cdr).bind fun v _ hm' _ => hm'.setAcc v
  | car => exact hm.unary _
  | cdr => exact hm.unary _
  | setCar => exact hm.update (hone rfl) fun _ hm' cell v => hm'.setCar cell v
  | setCdr => exact hm.update (hone rfl) fun _ hm' cell v => hm'.setCdr cell v
  | same =>
    rw [Machine.execute]
    exact hm.binary (hone rfl) _
  | dup => exact hm.top.bind fun v _ hm' _ => hm'.setAcc v
  | partCar => exact hm.unary _
  | partCdr => exact hm.unary _
  | splice =>
    refine (hm.pop (hone rfl)).bind fun tail m₁ hm₁ _ => ?_
    exact (hm₁.splice m₁.acc tail).bind fun v _ hm' _ => hm'.setAcc v
  | loadLiteral =>
    exact hm.fetchWord.bind fun _ _ hm₁ _ => hm₁.query_bind fun v _ => hm₁.setAcc v
  | loadInteger => exact hm.fetchWord.bind fun n _ hm₁ _ => hm₁.setAcc _
  | loadGlobal =>
    exact hm.fetchWord.bind fun _ _ hm₁ _ => hm₁.query_bind fun _ _ => hm₁.query_bind fun v _ =>
      hm₁.setAcc v
  | storeGlobal =>
    exact hm.fetchWord.bind fun _ _ hm₁ _ => hm₁.query_bind fun _ _ =>
      .ok (hm₁.registers rfl rfl rfl rfl rfl rfl) trivial
  | apply => exact absurd rfl happly
  | closure =>
    refine hm.fetchWord.bind fun _ _ hm₁ _ => hm₁.query_bind fun entry _ => ?_
    refine hm₁.promoteCurrent.bind fun env m₂ hm₂ henv => ?_
    exact (hm₂.newClosure (c := { env, entry }) henv).bind fun _ _ hm₃ _ => hm₃.setAcc _
  | jump =>
    rw [Machine.execute]
    exact hm.jumpIf _
  | jumpTrue =>
    rw [Machine.execute]
    exact hm.jumpIf _
  | jumpFalse => exact hm.jumpIf _
  | jumpBound =>
    rw [Machine.execute]
    exact hm.jumpIf _
  | reuseFrame =>
    refine hm.fetchNat.bind ?_
    rintro n _ hm₁ ⟨rfl, hn⟩
    exact hm₁.reuseFrame (fun hlive => htake n ((if_pos hlive).trans hn)) (hleave rfl)
  | loadLocal => exact hm.fetchNat.bind fun _ _ hm₁ _ => hm₁.query_bind fun v _ => hm₁.setAcc v
  | storeLocal => exact hm.fetchNat.bind fun _ _ hm₁ _ => hm₁.writeSlot ..
  | loadOuter =>
    exact hm.fetchNat.bind fun _ _ hm₁ _ => hm₁.fetchNat.bind fun _ _ hm₂ _ =>
      hm₂.query_bind fun v _ => hm₂.setAcc v
  | storeOuter =>
    exact hm.fetchNat.bind fun _ _ hm₁ _ => hm₁.fetchNat.bind fun _ _ hm₂ _ => hm₂.writeSlot ..
  | returnPoint =>
    refine hm.fetchWord.bind ?_
    rintro offset _ hm₁ rfl
    exact hm₁.pushReturnPoint (hcall rfl) hroom offset
  | frame => exact hm.fetchFrame false fun ha => htake m.argc (if_pos ha)
  | frameRest => exact hm.fetchFrame true fun ha => htake m.argc (if_pos ha)

end Confined

end Machine

/-- A call that has its result cuts the stack off where it was when the call began. -/
theorem Machine.Confined.cutOff (hm : m.Confined lo cells) (hoff : m.OffStack) {w : Waiting}
    (hw : lo ≤ w.sp) :
    ({ m.released w.id with
        ip := w.ip, argc := w.argc, sp := min w.sp m.sp, bp := min w.sp m.sp } : Machine).Confined
      lo cells :=
  hm.detach ⟨hoff.env, hoff.cont⟩ hm.linked (Nat.le_min.2 ⟨hw, hm.lo_le⟩)
    ((Nat.min_le_right ..).trans hm.room) rfl fun _ _ => rfl

theorem Machine.Confined.endWaiting (hm : m.Confined lo cells) (hoff : m.OffStack) {w : Waiting}
    {v : Value} (hw : lo ≤ w.sp) (hend : Machine.endWaiting w (.ok ()) m = .ok v m') :
    m'.Confined lo cells ∧ m'.bp = m'.sp ∧ m'.sp ≤ w.sp := by
  rw [endWaiting_ok] at hend
  cases hend
  exact ⟨hm.cutOff hoff hw, rfl, Nat.min_le_left ..⟩

/-! ## Configurations -/

namespace Configuration

/-- If the next step begins an instruction, that keeps above position `lo`. -/
def KeepsAbove (lo : Nat) (c : Configuration) : Prop := ∀ m ∈ c.begins?, m.KeepsAbove lo

def needs (c : Configuration) : Nat :=
  match c.activity with
  | .loop => (c.begins?.bind Machine.opcode?).elim 0 Opcode.cells
  | .enter _ args | .script (.done (.tailCall _ args)) => args.length
  | .ret => c.machine.restored
  | _ => 0

def HasRoom (c : Configuration) : Prop := c.machine.sp + c.needs ≤ c.machine.capacity

instance (lo : Nat) (c : Configuration) : Decidable (c.KeepsAbove lo) :=
  inferInstanceAs (Decidable (∀ m ∈ c.begins?, m.KeepsAbove lo))

instance (c : Configuration) : Decidable c.HasRoom := inferInstanceAs (Decidable (_ ≤ _))

/-- Some steps lead from one configuration to the other, and none of them collects anything. -/
inductive Uncollected : Configuration → Configuration → Prop
  | refl (c : Configuration) : Uncollected c c
  | head {c c' : Configuration} : c.HasRoom → Uncollected c.advance c' → Uncollected c c'

theorem Uncollected.reaches {c c' : Configuration} (h : Uncollected c c') : Reaches c c' := by
  induction h with
  | refl c => exact ⟨0, rfl⟩
  | head _ _ ih => exact ih.head

theorem Uncollected.iterate {n : Nat} {c : Configuration}
    (hroom : ∀ j < n, (advance^[j] c).HasRoom) :
    Uncollected c (advance^[n] c) := by
  induction n generalizing c with
  | zero => exact .refl c
  | succ n ih =>
    exact .head (hroom 0 n.succ_pos) (ih fun j hj => hroom (j + 1) (Nat.succ_lt_succ hj))

theorem Reaches.uncollected {c c' : Configuration} (h : Reaches c c')
    (hroom : ∀ c', Reaches c c' → c'.HasRoom) : Uncollected c c' := by
  obtain ⟨n, rfl⟩ := h
  exact .iterate fun j _ => hroom _ ⟨j, rfl⟩

end Configuration

/-- All calls that wait began above position `lo`, and what waits for them hands on faults. -/
inductive Context.Above (lo : Nat) : Context → Prop
  | outside : Above lo .outside
  | call {w : Waiting} {k : Context} : lo ≤ w.sp → PropagatesReply w.next → Above lo k →
    Above lo (.call w k)

/-- What is on top of the stack when arguments are taken from there, and what may be pending. When a
call has its result, nothing on the stack is referred to. -/
def Activity.Fits (lo : Nat) (m : Machine) : Activity → Prop
  | .loop => m.hosts.returned = none ∨ m.OffStack
  | .enter .. | .ret => m.hosts.returned = none
  | .apply => m.hosts.returned = none ∧ (m.appliesTo m.argc = true → m.ground lo + m.argc ≤ m.sp)
  | .script s => s.PropagatesFaults ∧ (m.hosts.returned = none ∨ s = .fail .unwound ∧ m.OffStack)
  | .fault f | .leave (.error f) => m.hosts.returned = none ∨ f = .unwound ∧ m.OffStack
  | .leave (.ok ()) => m.hosts.returned = none ∧ m.OffStack
  | .ended _ => True

/-- The cells below position `lo` are safe from what the machine does next. -/
inductive Configuration.CellsKept (lo : Nat) (cells : Array Value) : Configuration → Prop
  | working {m : Machine} {k : Context} {a : Activity} : m.Confined lo cells →
    (∀ p ∈ m.heap.procedures, p.body.PropagatesFaults) → k.Above lo → a.Fits lo m →
    CellsKept lo cells ⟨m, k, a⟩
  | finished {m : Machine} {o : Except Stop Value} : CellsKept lo cells (.ended m o)

namespace Configuration.CellsKept

variable {k : Context}

/-! ## Single steps -/

theorem settle {Q : α → Machine → Prop} {x : EStateM.Result Stop Machine α}
    {next : Except Fault α → Activity} (hx : Confines lo cells Q x) (hc : ContinuesTo m x)
    (hp : ∀ p ∈ m.heap.procedures, p.body.PropagatesFaults) (hk : k.Above lo)
    (hok : ∀ a m', x = .ok a m' → Q a m' → m'.hosts = m.hosts → (next (.ok a)).Fits lo m')
    (herror : ∀ f m', m'.hosts = m.hosts → (next (.error f)).Fits lo m') :
    (Configuration.settle k next x).CellsKept lo cells := by
  have hproc : ∀ p ∈ (final x).heap.procedures, p.body.PropagatesFaults := by
    rw [hc.same]
    exact hp
  cases hx with
  | ok hm hq => exact .working hm hproc hk (hok _ _ rfl hq hc.hosts)
  | @error s m' hm =>
    cases s with
    | fault f => exact .working hm hproc hk (herror f m' hc.hosts)
    | _ => exact .finished

theorem unlessFault {Q : α → Machine → Prop} {x : EStateM.Result Stop Machine α}
    {next : α → Activity} (hx : Confines lo cells Q x) (hc : ContinuesTo m x)
    (hp : ∀ p ∈ m.heap.procedures, p.body.PropagatesFaults)
    (hk : k.Above lo) (hq : m.hosts.returned = none)
    (hok : ∀ a m', x = .ok a m' → Q a m' → m'.hosts.returned = none → (next a).Fits lo m') :
    (Configuration.settle k (.unlessFault next) x).CellsKept lo cells :=
  .settle hx hc hp hk (fun a m' ha hqa hh => hok a m' ha hqa (hh ▸ hq)) fun _ _ hh => .inl (hh ▸ hq)

theorem instruct (hm : m.Confined lo cells) (hp : ∀ p ∈ m.heap.procedures, p.body.PropagatesFaults)
    (hk : k.Above lo) (hq : m.hosts.returned = none) (hown : m.KeepsAbove lo)
    (hroom : m.sp + m.opcode?.elim 0 Opcode.cells ≤ m.capacity) :
    (Configuration.instruct m k).CellsKept lo cells := by
  have hfetched : m.fetched.Confined lo cells := hm.registers rfl rfl rfl rfl rfl rfl
  by_cases hret : m.opcode? = some .ret
  · rw [Configuration.instruct, hret]
    exact .working hfetched hp hk hq
  have hc := (continues_stepWith hret).1
  by_cases happ : m.opcode? = some .apply
  · rw [Configuration.instruct, happ]
    dsimp only
    refine unlessFault
      (Q := fun _ m' => m'.appliesTo m'.argc = true → m'.ground lo + m'.argc ≤ m'.sp)
      ?_ hc hp hk hq fun _ _ _ hargs hq' => ⟨hq', hargs⟩
    rw [stepWith_of_opcode happ]
    refine hfetched.fetchNat.bind ?_
    rintro argc _ hm₁ ⟨rfl, hargc⟩
    refine .ok (hm₁.registers rfl rfl rfl rfl rfl rfl) fun happlies => ?_
    exact hown.takes _ happ argc (Option.filter_eq_some_iff.2 ⟨hargc, happlies⟩)
  have hinstruct : Configuration.instruct m k =
      Configuration.settle k (.unlessFault fun _ => .loop) (stepWith (pure ()) m) := by
    rw [Configuration.instruct]
    split
    · exact absurd ‹_› happ
    · exact absurd ‹_› hret
    · rfl
  rw [hinstruct]
  refine unlessFault (Q := fun _ _ => True) ?_ hc hp hk hq fun _ _ _ _ hq' => .inl hq'
  cases hop : m.opcode? with
  | none =>
    rw [stepWith_of_none hop]
    split
    · exact .error hfetched
    · exact .error (hm.registers rfl rfl rfl rfl rfl rfl)
  | some op =>
    rw [stepWith_of_opcode hop]
    rw [hop] at hroom
    refine hfetched.execute (fun h => hret (h ▸ hop)) (fun h => happ (h ▸ hop)) (hown.takes op hop)
      (fun h => hown.leaves (h ▸ hop)) (fun h => hown.calls (h ▸ hop)) hroom _

theorem turned (hm : m.Confined lo cells) (hp : ∀ p ∈ m.heap.procedures, p.body.PropagatesFaults)
    (hk : k.Above lo) (hpend : m.hosts.returned = none ∨ m.OffStack)
    (hown : KeepsAbove lo ⟨m, k, .loop⟩) (hroom : HasRoom ⟨m, k, .loop⟩) :
    (Configuration.turned m k).CellsKept lo cells := by
  have hsame (hosts : HostCalls) : ({ m with hosts } : Machine).Confined lo cells :=
    hm.registers rfl rfl rfl rfl rfl rfl
  have hoff (hosts : HostCalls) (h : m.OffStack) : ({ m with hosts } : Machine).OffStack :=
    ⟨h.env, h.cont⟩
  cases hk with
  | outside => exact .finished
  | @call w k hlo hnext hk =>
    have hk := Context.Above.call hlo hnext hk
    rw [Configuration.turned]
    simp only [KeepsAbove, HasRoom, needs, begins?] at hown hroom
    rcases m.hosts.turn_cases m.runnable w.id with
      ⟨hid, ht⟩ | ⟨-, -, ht⟩ | ⟨-, -, ht⟩ | ⟨hid, -, ht⟩ <;> rw [ht] at hown hroom ⊢
    · refine .working (hsame _) hp hk ⟨rfl, hoff _ (hpend.resolve_left fun h => ?_)⟩
      rw [h] at hid
      cases hid
    · exact .working (hsame _) hp hk (hpend.imp id fun h => ⟨rfl, hoff _ h⟩)
    · exact .working (hsame _) hp hk (hpend.imp id fun h => ⟨rfl, hoff _ h⟩)
    · exact instruct (hsame _) hp hk hid (hown _ rfl) hroom

theorem applied (hm : m.Confined lo cells) (hp : ∀ p ∈ m.heap.procedures, p.body.PropagatesFaults)
    (hk : k.Above lo) (hq : m.hosts.returned = none)
    (hargs : m.appliesTo m.argc = true → m.ground lo + m.argc ≤ m.sp) :
    (Configuration.applied m k).CellsKept lo cells := by
  rw [Configuration.applied]
  unfold appliesTo at hargs
  cases hacc : m.acc with
  | closure r =>
    exact unlessFault (hm.enterClosure r) ((maintains_enterClosure r).related m) hp hk hq
      fun _ _ _ _ hq' => .inl hq'
  | continuation r =>
    rw [hacc] at hargs
    have hover := hm.handOver r fun h1 => by rw [h1] at hargs; exact hargs rfl
    dsimp only
    rcases handOver_cases r m with ⟨e, m', he, hc, -⟩ | ⟨c, v, -, -, -, ho⟩
    · rw [he] at hover ⊢
      exact unlessFault (m := m) (Q := fun _ _ => True) hover hc hp hk hq fun _ _ h => by cases h
    · rw [ho] at hover ⊢
      cases hover with
      | ok hm' _ =>
        refine .working hm' hp hk ?_
        change (m.hosts.noteEntry c.owner).returned = none
        rw [HostCalls.noteEntry_eq]
        exact hq
  | pair r =>
    rw [hacc] at hargs
    exact unlessFault (hm.pickItem _ fun ha => hargs (decide_eq_true ha))
      ((maintains_pickItem _).related m) hp hk hq fun _ _ _ _ hq' => hq'
  | procedure r =>
    rw [hacc] at hargs
    refine unlessFault (hm.enterProcedure r fun p hr ha => hargs ?_)
      ((maintains_enterProcedure r).related m) hp hk hq fun s m' hs _ hq' => ⟨?_, .inl hq'⟩
    · simp only [hr]
      exact decide_eq_true ha
    · obtain ⟨p, hmem, rfl⟩ := enterProcedure_eq_ok hs
      exact hp p hmem
  | _ => exact .working hm hp hk (.inl hq)

theorem worked (hm : m.Confined lo cells) (hp : ∀ p ∈ m.heap.procedures, p.body.PropagatesFaults)
    (hk : k.Above lo) {s : Script Outcome} (hfits : (Activity.script s).Fits lo m)
    (hroom : HasRoom ⟨m, k, .script s⟩) : (Configuration.worked m k s).CellsKept lo cells := by
  obtain ⟨hs, hpend⟩ := hfits
  have hquiet (hne : s ≠ .fail .unwound) : m.hosts.returned = none :=
    hpend.resolve_right fun h => hne h.1
  cases s with
  | done o =>
    have hq := hquiet fun h => by cases h
    cases o with
    | value v => exact .working (hm.registers rfl rfl rfl rfl rfl rfl) hp hk hq
    | tailCall callee args =>
      exact unlessFault (hm.passArguments callee hroom)
        ((maintains_passArguments callee args).related m) hp hk
        hq fun _ _ _ hargs hq' => ⟨hq', fun _ => hargs⟩
  | fail f =>
    refine .working hm hp hk (hpend.imp id fun h => ⟨?_, h.2⟩)
    cases h.1
    rfl
  | ask q next =>
    have hq := hquiet fun h => by cases h
    by_cases hcall : ∃ callee args, q = .call callee args
    · obtain ⟨callee, args, rfl⟩ := hcall
      obtain ⟨segs, hlaid⟩ := hm.laid
      obtain ⟨w, m', hrun, hnext, hbegun⟩ := hlaid.toArranged.beginWaiting (some next)
      rw [Configuration.worked, hrun]
      refine .working (hbegun.confined hlaid hm) (hbegun.procedures ▸ hp) (.call ?_ ?_ hk)
        (hbegun.returned.trans hq)
      · rw [hbegun.height]
        exact hm.lo_le
      · rw [hnext]
        rintro _ ⟨⟩
        exact hs
    · have hne : ∀ callee args, q ≠ .call callee args := fun callee args h =>
        hcall ⟨callee, args, h⟩
      have hnext := hs.of_ask hne
      rw [worked_ask hne]
      exact settle (hm.answer hne _) ((maintains_answer hne _).related m) hp hk
        (fun a m' _ _ hh => ⟨hnext (.ok a), .inl (hh ▸ hq)⟩)
        fun f m' hh => ⟨hnext (.error f), .inl (hh ▸ hq)⟩

theorem returned (hm : m.Confined lo cells) (hp : ∀ p ∈ m.heap.procedures, p.body.PropagatesFaults)
    (hk : k.Above lo) (hq : m.hosts.returned = none) (hroom : HasRoom ⟨m, k, .ret⟩) :
    (Configuration.settle k (.unlessFault fun _ => .loop) (Machine.ret m)).CellsKept lo cells := by
  have hret := hm.ret hroom
  rcases ret_cases m with hc | ⟨r, c, id, -, -, -, -, hback⟩
  · exact unlessFault hret hc hp hk hq fun _ _ _ _ hq' => .inl hq'
  · rw [hback] at hret ⊢
    cases hret with
    | ok hm' hoff =>
      refine .working hm' hp hk (hoff.imp_left fun h => ?_)
      rw [h]
      exact hq

theorem failed (hm : m.Confined lo cells) (hp : ∀ p ∈ m.heap.procedures, p.body.PropagatesFaults)
    (hk : k.Above lo) {f : Fault} (hpend : m.hosts.returned = none ∨ f = .unwound ∧ m.OffStack) :
    (Configuration.failed m f k).CellsKept lo cells := by
  cases hk with
  | outside => exact .finished
  | call hlo hnext hk =>
    rw [Configuration.failed]
    refine .working hm hp (.call hlo hnext hk) ?_
    split
    · exact hpend.imp_right And.right
    · exact hpend

/-- The host procedure that waits gets the result, or it fails as the call has. -/
theorem reply {next : Option (Except Fault Value → Script Outcome)} (hnext : PropagatesReply next)
    (hm : m.Confined lo cells) (hp : ∀ p ∈ m.heap.procedures, p.body.PropagatesFaults)
    (hk : k.Above lo) :
    (∀ v, m.hosts.returned = none → (Configuration.reply k next (.ok v m)).CellsKept lo cells) ∧
    ∀ f, m.hosts.returned = none ∨ f = .unwound ∧ m.OffStack →
      (Configuration.reply k next (.error (.fault f) m)).CellsKept lo cells := by
  cases next with
  | none => exact ⟨fun _ _ => .finished, fun _ _ => .finished⟩
  | some script =>
    obtain ⟨hfail, hgo⟩ := hnext script rfl
    refine ⟨fun v hq => .working hm hp hk ⟨hgo v, .inl hq⟩, fun f hpend => ?_⟩
    refine .working hm hp hk ?_
    change (Activity.script (script (.error f))).Fits lo m
    rw [hfail]
    exact ⟨trivial, hpend.imp_right fun h => ⟨congrArg Script.fail h.1, h.2⟩⟩

theorem left (hm : m.Confined lo cells) (hp : ∀ p ∈ m.heap.procedures, p.body.PropagatesFaults)
    (hk : k.Above lo) {outcome : Except Fault Unit} (hfits : (Activity.leave outcome).Fits lo m) :
    (Configuration.left m outcome k).CellsKept lo cells := by
  cases hk with
  | outside => exact .finished
  | @call w k hlo hnext hk =>
    rw [Configuration.left]
    cases outcome with
    | ok _ =>
      obtain ⟨hq, hoff⟩ := hfits
      rw [endWaiting_ok]
      exact (reply hnext (hm.cutOff hoff hlo) hp hk).1 _ ((released_returned m w.id).trans hq)
    | error f =>
      have hm' : (m.released w.id).Confined lo cells := hm.registers rfl rfl rfl rfl rfl rfl
      have hpend : (m.released w.id).hosts.returned = none ∨ f = .unwound ∧
          (m.released w.id).OffStack :=
        hfits.imp (released_returned m w.id).trans fun h => ⟨h.1, h.2.env, h.2.cont⟩
      cases ho : w.outermost with
      | false =>
        rw [endWaiting_error_inner ho]
        exact (reply hnext hm' hp hk).2 f hpend
      | true =>
        rw [endWaiting_error_outer ho]
        have hstopped (runnable : Bool) (hosts : HostCalls) :
            ({ m.released w.id with runnable, hosts } : Machine).Confined lo cells :=
          hm'.registers rfl rfl rfl rfl rfl rfl
        split
        · exact (reply hnext (hstopped _ { (m.released w.id).hosts with returned := none }) hp hk).1
            _ rfl
        · exact (reply hnext (hstopped false { (m.released w.id).hosts with escape := none }) hp
            hk).2 f (hpend.imp_right fun h => ⟨h.1, h.2.env, h.2.cont⟩)

/-- A step that keeps above the cells and need not collect leaves them safe. -/
theorem advance {c : Configuration} (h : c.CellsKept lo cells) (hown : c.KeepsAbove lo)
    (hroom : c.HasRoom) : c.advance.CellsKept lo cells := by
  cases h with
  | finished => exact .finished
  | @working m k a hm hp hk hfits =>
    cases a with
    | loop => exact turned hm hp hk hfits hown hroom
    | enter callee args =>
      exact settle (hm.passArguments callee hroom) ((maintains_passArguments callee args).related m)
        hp hk (fun _ _ _ hargs hh => ⟨hh ▸ hfits, fun _ => hargs⟩) fun f _ hh => .inl (hh ▸ hfits)
    | apply => exact applied hm hp hk hfits.1 hfits.2
    | script s => exact worked hm hp hk hfits hroom
    | ret => exact returned hm hp hk hfits hroom
    | fault f => exact failed hm hp hk hfits
    | leave outcome => exact left hm hp hk hfits
    | ended o => exact .working hm hp hk trivial

/-- The cells stay safe as long as every step keeps above them and nothing is collected. -/
theorem uncollected {c c' : Configuration} (h : c.CellsKept lo cells) (hc : Uncollected c c')
    (hown : ∀ c', Uncollected c c' → c'.KeepsAbove lo) : c'.CellsKept lo cells := by
  induction hc with
  | refl c => exact h
  | head hroom _ ih =>
    exact ih (h.advance (hown _ (.refl _)) hroom) fun c' hc' => hown c' (.head hroom hc')

end Configuration.CellsKept

/-! ## Passing the arguments -/

def Machine.operands (m : Machine) : List Value := (m.stack.extract m.bp m.sp).toList

theorem WellLaid.length_operands (hm : WellLaid segs m) : m.operands.length = m.sp - m.bp := by
  have hroom : m.sp ≤ m.stack.size := hm.room
  rw [operands, Array.length_toList, Array.size_extract, Nat.min_eq_left hroom]

/-- The values have been put on the operands. If there was a collection, both are where it has moved
them. -/
structure Piled (vs : List Value) (m m' : Machine) : Prop where
  laid : WellLaid [] m'
  alike : Alike m m'
  values : m'.operands = m.operands ++ vs
  bp_le : m'.bp ≤ m.bp

theorem Cont.ClosedIn.top_eq {h : Heap} {cont : Cont} (hc : cont.ClosedIn h) : cont.top = 0 := by
  cases cont with
  | onStack => exact hc.elim
  | _ => rfl

theorem Env.ClosedIn.top_eq {h : Heap} {env : Env} (he : env.ClosedIn h) : env.top = 0 := by
  cases env with
  | onStack => exact he.elim
  | _ => rfl

namespace Piled

variable {m₁ : Machine} {vs us : List Value} {v : Value}

theorem trans (h : Piled vs m m₁) (h' : Piled us m₁ m') : Piled (vs ++ us) m m' where
  laid := h'.laid
  alike := h.alike.trans h'.alike
  values := by rw [h'.values, h.values, List.append_assoc]
  bp_le := h'.bp_le.trans h.bp_le

theorem of_room (hm : WellLaid [] m) (hroom : m.sp + vs.length ≤ m.capacity) :
    Piled vs m { m with stack := Cells.write m.stack m.sp vs, sp := m.sp + vs.length } := by
  have hle := hm.bp_le
  refine ⟨.of_nil { hm.toArranged with room := ?_, stacked := .nil } ?_, ⟨rfl, ?_, rfl⟩, ?_, le_rfl⟩
  · simpa [Machine.capacity] using hroom
  · exact hle.trans (Nat.le_add_right ..)
  · simp [Machine.capacity]
  · have hrun : m.sp + (vs ++ []).length ≤ m.stack.size := by rwa [List.append_nil]
    have := Cells.extract_write_append hle hrun
    rw [List.append_nil] at this
    exact (congrArg Array.toList this).trans (by simp [operands])

theorem of_reclaimed (hm : WellLaid [] m) (h : Reclaimed [] m m') : Piled [] m m' := by
  have hkept : m.kept = m.bp := by
    rw [kept, hm.cont.closed_of_nil.top_eq, Nat.max_zero]
    exact Nat.min_eq_left hm.bp_le
  have hvalues := h.extract_eq hm
  have hlaid := h.wellLaid hm.bp_le
  have halike := h.alike
  obtain ⟨w, target, -, -, hcol, -⟩ := h
  have hbp : m'.bp = 0 := by
    rw [hcol.bp hm.bp_le, hkept]
    exact Nat.sub_self _
  refine ⟨hlaid, halike, ?_, by omega⟩
  rw [operands, hbp, hvalues, hkept, List.append_nil, operands]

theorem of_push (hm : WellLaid [] m) (hrun : Machine.push v m = .ok () m') : Piled [v] m m' := by
  obtain ⟨m₁, hroom, hfit, rfl⟩ := push_eq_ok hrun
  have hm₁ : Piled [] m m₁ := by
    rcases Nat.lt_or_ge m.capacity (m.sp + 1) with hfull | hfree
    · obtain ⟨m₂, hm₂, hrec⟩ := hm.toArranged.reclaim
      cases hm₂.symm.trans (reclaim_of_makeRoom hroom hfull)
      exact of_reclaimed hm hrec
    · cases (makeRoom_of_room hfree).symm.trans hroom
      exact ⟨hm, .refl _, (List.append_nil _).symm, le_rfl⟩
  have hpush : Piled [v] m₁ _ := of_room hm₁.laid hfit
  rw [Cells.write_cons, Cells.write_nil] at hpush
  exact hm₁.trans hpush

theorem of_pushAll (hm : WellLaid [] m) (hrun : Machine.pushAll vs m = .ok () m') :
    Piled vs m m' := by
  induction vs generalizing m with
  | nil =>
    cases hrun
    exact ⟨hm, .refl _, (List.append_nil _).symm, le_rfl⟩
  | cons v vs ih =>
    obtain ⟨_, m₁, hpush, hrest⟩ := bind_eq_ok hrun
    have h := of_push hm hpush
    exact h.trans (ih h.laid hrest)

theorem sp_eq (h : Piled vs m m') (hm : WellLaid [] m) :
    m'.sp = m'.bp + (m.sp - m.bp) + vs.length := by
  have hlen := congrArg List.length h.values
  have := h.laid.bp_le
  rw [List.length_append, hm.length_operands, h.laid.length_operands] at hlen
  omega

end Piled

theorem passArguments_eq_ok {callee : Value} {args : List Value}
    (h : passArguments callee args m = .ok () m') :
    ∃ t, pushAll args { m with argc := args.length } = .ok () t ∧
      m' = { t with acc := callee } := by
  obtain ⟨_, t, hpush, hset⟩ := bind_eq_ok (x := pushAll args) (s := { m with argc := args.length })
    (f := fun _ => setAcc callee) h
  cases hset
  exact ⟨t, hpush, rfl⟩

/-! ## Calls -/

namespace Machine

def calling (m : Machine) (callee : Value) (args : List Value) : Configuration :=
  (Task.start m (.call callee args)).advance

def argumentsAt (m : Machine) (callee : Value) (args : List Value) : Nat :=
  (m.calling callee args).machine.sp - args.length

end Machine

theorem calling_eq {n : Nat} {callee v : Value} {args : List Value}
    (h : call n callee args m = .ok v m') (hrun : m'.runnable = true) :
    ∃ w m₁ m₂ m₃, beginWaiting none m = .ok w m₁ ∧ passArguments callee args m₁ = .ok () m₂ ∧
      m.calling callee args = ⟨m₂, .call w .outside, .apply⟩ ∧
      Reaches (m.calling callee args) ⟨m₃, .call w .outside, .leave (.ok ())⟩ ∧
      endWaiting w (.ok ()) m₃ = .ok v m' := by
  obtain ⟨i, w, m₁, m₃, hw, hloop, hend⟩ := callLoop_eq_ok h hrun none
  have hcomes := (adequate i).callLoop m₁ w .outside callee args
  rw [hloop] at hcomes
  cases i with
  | zero => cases hloop
  | succ i =>
    obtain ⟨_, m₂, hpass, -⟩ := bind_eq_ok hloop
    have hstart :
        Task.start m (.call callee args) = ⟨m₁, .call w .outside, .enter callee args⟩ := by
      rw [Task.start, hw]
      rfl
    have hcalling : m.calling callee args = ⟨m₂, .call w .outside, .apply⟩ := by
      rw [calling, hstart]
      change Configuration.settle _ _ (passArguments callee args m₁) = _
      rw [hpass]
      rfl
    refine ⟨w, m₁, m₂, m₃, hw, hpass, hcalling, ?_, hend⟩
    obtain ⟨N, hN⟩ : Reaches _ _ := hcomes
    cases N with
    | zero => cases hN
    | succ N => exact ⟨N, by rw [calling, hstart]; exact hN⟩

theorem Begun.wellLaid {w : Waiting} (h : Begun segs m w m') (hm : WellLaid segs m) :
    WellLaid [] m' := by
  refine .of_nil (.of_closed ?_ h.off.env h.off.cont h.linked) ?_
  · rw [capacity, h.sp, h.size]
    exact hm.room
  · rw [h.bp, h.sp]
    exact hm.bp_le

theorem Begun.extract_eq {w : Waiting} (h : Begun segs m w m') (hm : WellLaid segs m) :
    m'.stack.extract m'.bp m'.sp = m.stack.extract m.bp m.sp := by
  rw [h.bp, h.sp]
  refine Moved.extract_eq h.size fun i hi _ => h.cells i fun start count id hmem heq => ?_
  have := hm.frames_le start count id hmem
  omega

/-- The arguments are all that the callee may take. -/
theorem WellLaid.cellsKept (hm : WellLaid [] m)
    (hp : ∀ p ∈ m.heap.procedures, p.body.PropagatesFaults)
    (hq : m.hosts.returned = none) {w : Waiting} (hnext : w.next = none) (hlo : lo + m.argc = m.sp)
    (hw : lo ≤ w.sp) : CellsKept lo m.stack ⟨m, .call w .outside, .apply⟩ := by
  have hlaid : LaidAbove lo [] m := ⟨hm.toArranged, fun _ h => (by cases h), hm.frames_le⟩
  refine .working ⟨by omega, rfl, fun _ _ => rfl, [], hlaid⟩ hp (.call hw ?_ .outside)
    ⟨hq, fun _ => ?_⟩
  · rw [hnext]
    rintro _ ⟨⟩
  · rw [ground, hm.cont.closed_of_nil.top_eq, hm.env.closed_of_nil.top_eq]
    omega

theorem Machine.Confined.heldUnder (hm : m.Confined lo cells) {ops : List Value}
    (hle : ops.length ≤ lo) (hops : (cells.extract (lo - ops.length) lo).toList = ops) :
    m.HeldUnder ops (m.sp - lo) := by
  have hlo := hm.lo_le
  refine ⟨by omega, ?_⟩
  rw [show m.sp - (m.sp - lo) = lo by omega, Moved.extract_eq hm.size fun i _ hi => hm.below i hi]
  exact hops

/-- A collection keeps what lies right below the position if and only if it all lies above what is
given up. -/
theorem Machine.Confined.heldUnder_reclaim_iff (hm : m.Confined lo cells) {ops : List Value}
    (hle : ops.length ≤ lo) (hops : (cells.extract (lo - ops.length) lo).toList = ops)
    (hne : ops ≠ []) (h : reclaim m = .ok () m') :
    m'.HeldUnder ops (m.sp - lo) ↔ m.kept + ops.length ≤ lo := by
  have hlo := hm.lo_le
  have hsp := reclaim_sp h
  have hpos : 0 < ops.length := List.length_pos_iff.2 hne
  refine ⟨fun hheld => ?_, fun hkept => ⟨by omega, ?_⟩⟩
  · have := hheld.1
    omega
  obtain ⟨segs, hlaid⟩ := hm.laid
  have hbp : m.bp ≤ m.sp := by
    have hdef : m.kept = min (max m.bp m.cont.top) m.sp := rfl
    omega
  have hwell : WellLaid segs m :=
    { hlaid.toArranged with bp_le := hbp, frames_le := hlaid.frames_le }
  obtain ⟨m₁, hm₁, hrec⟩ := hwell.toArranged.reclaim
  cases hm₁.symm.trans h
  have hend : m'.sp - (m.sp - lo) = lo - m.kept := by omega
  have hmoved : m'.stack.extract (lo - m.kept - ops.length) (lo - m.kept) =
      m.stack.extract (lo - ops.length) lo := by
    have hcells :=
      congrArg (·.extract (lo - m.kept - ops.length) (lo - m.kept)) (hrec.extract_eq hwell)
    simp only [Array.extract_extract] at hcells
    rwa [Nat.zero_add, Nat.zero_add, Nat.min_eq_left (by omega),
      show m.kept + (lo - m.kept - ops.length) = lo - ops.length by omega,
      show m.kept + (lo - m.kept) = lo by omega, Nat.min_eq_left hlo] at hcells
  rw [hend, hmoved, Moved.extract_eq hm.size fun i _ hi => hm.below i hi]
  exact hops

/-- With the base at the end of the stack, what lies below the position stays just as long as
nothing is collected. -/
theorem Machine.Confined.heldUnder_iff (hm : m.Confined lo cells) {ops : List Value}
    (hle : ops.length ≤ lo) (hops : (cells.extract (lo - ops.length) lo).toList = ops)
    (hbp : m.bp = m.sp) (hne : ops ≠ []) {puts : List Put} (hrun : Put.execAll puts m = .ok () m') :
    m'.HeldUnder ops (m.sp - lo + Put.cellsAll puts) ↔
      .collect ∉ puts ∧ m.sp + Put.cellsAll puts ≤ m.capacity := by
  have hlo := hm.lo_le
  have hpos : 0 < ops.length := List.length_pos_iff.2 hne
  have hstart : lo - ops.length < m.bp := by omega
  exact Put.heldUnder_iff hne hstart (by omega) hm.room (hm.heldUnder hle hops) hrun

/-- A call has passed its arguments, which lie right above the operands of the caller. -/
structure HandedTo (ops args : List Value) (m : Machine) (w : Waiting) (t : Machine) : Prop where
  cellsKept : CellsKept (t.sp - args.length) t.stack ⟨t, .call w .outside, .apply⟩
  operands : t.HeldUnder ops args.length
  capacity : t.capacity = m.capacity
  height : w.sp = m.sp
  le_sp : t.sp - args.length ≤ m.sp
  eq_sp : m.sp + args.length ≤ m.capacity → t.sp - args.length = m.sp

theorem WellLaid.handedTo (hm : WellLaid segs m)
    (hp : ∀ p ∈ m.heap.procedures, p.body.PropagatesFaults)
    (hq : m.hosts.returned = none) {callee : Value} {args : List Value} {w : Waiting}
    {m₁ t : Machine} (hw : beginWaiting none m = .ok w m₁)
    (hpass : passArguments callee args m₁ = .ok () t) :
    HandedTo m.operands args m w t := by
  obtain ⟨w', m₁', hw', hnext, hbegun⟩ := hm.toArranged.beginWaiting none
  cases hw'.symm.trans hw
  have hcontinues : Continues m₁ t := (maintains_passArguments callee args).ok hpass
  obtain ⟨t, hpush, rfl⟩ := passArguments_eq_ok hpass
  have hm₁ := hbegun.wellLaid hm
  have hpiled := Piled.of_pushAll (m := { m₁ with argc := args.length }) { hm₁ with } hpush
  have hargc : t.argc = args.length := by rw [hpiled.alike.rest]
  have hle : t.bp ≤ m.bp := hpiled.bp_le.trans_eq hbegun.bp
  have hbp := hm.bp_le
  have hsp : t.sp = t.bp + (m.sp - m.bp) + args.length := by
    rw [hpiled.sp_eq { hm₁ with }, ← hbegun.sp, ← hbegun.bp]
  have hvalues : t.operands = m.operands ++ args := by
    rw [hpiled.values]
    exact congrArg (·.toList ++ args) (hbegun.extract_eq hm)
  have hlen := hm.length_operands
  refine ⟨?_, ⟨?_, ?_⟩, hpiled.alike.capacity.trans hbegun.size, hbegun.height, ?_, fun hfit => ?_⟩
  · refine WellLaid.cellsKept (m := { t with acc := callee }) { hpiled.laid with } ?_ ?_ hnext ?_ ?_
    · rw [hcontinues.same, hbegun.procedures]
      exact hp
    · rw [hcontinues.hosts, hbegun.returned]
      exact hq
    · change t.sp - args.length + t.argc = t.sp
      omega
    · rw [hbegun.height]
      change t.sp - args.length ≤ m.sp
      omega
  · change _ ≤ t.sp
    omega
  · change (t.stack.extract (t.sp - args.length - _) (t.sp - args.length)).toList = _
    rw [hlen, show t.sp - args.length - (m.sp - m.bp) = t.bp by omega,
      Cells.toList_extract_take t.stack (Nat.sub_le t.sp args.length), ← operands, hvalues]
    exact List.take_left' (by omega)
  · change t.sp - args.length ≤ m.sp
    omega
  · have hsame : t.bp = m.bp := by
      rw [← hbegun.sp] at hfit
      have hroom : m₁.sp + args.length ≤ m₁.capacity := hfit.trans_eq hbegun.size.symm
      cases hpush.symm.trans (pushAll_room (m := { m₁ with argc := args.length }) hroom)
      exact hbegun.bp
    change t.sp - args.length = m.sp
    omega

/-- Suppose that a call gives a result, and that the callee takes only what was put on the stack for
the call. As long as nothing is collected, the operands of the caller lie right below that, and the
first collection keeps them if and only if the base is not yet above them. So if there is room for
all that the callee puts on the stack, then they are still there in the end, with nothing above them
if there was room for the arguments as well. But now the base is above them, and they stay just as
long as nothing is collected. -/
theorem WellLaid.call_keeps_operands (hm : WellLaid segs m)
    (hp : ∀ p ∈ m.heap.procedures, p.body.PropagatesFaults) (hq : m.hosts.returned = none)
    {n : Nat} {callee v : Value} {args : List Value}
    (hcall : Machine.call n callee args m = .ok v m') (hrun : m'.runnable = true)
    (hown : ∀ c, Uncollected (m.calling callee args) c → c.KeepsAbove (m.argumentsAt callee args)) :
    (∀ c, Uncollected (m.calling callee args) c → ¬c.Over →
      c.machine.HeldUnder m.operands (c.machine.sp - m.argumentsAt callee args) ∧
      ∀ m₁, m.operands ≠ [] → Machine.reclaim c.machine = .ok () m₁ →
        (m₁.HeldUnder m.operands (c.machine.sp - m.argumentsAt callee args) ↔
          c.machine.kept + m.operands.length ≤ m.argumentsAt callee args)) ∧
    ((∀ c, Reaches (m.calling callee args) c → c.HasRoom) →
      ∃ above, m'.HeldUnder m.operands above ∧ (m.sp + args.length ≤ m.capacity → above = 0) ∧
        ∀ puts m₁, m.operands ≠ [] → Put.execAll puts m' = .ok () m₁ →
          (m₁.HeldUnder m.operands (above + Put.cellsAll puts) ↔
            .collect ∉ puts ∧ m'.sp + Put.cellsAll puts ≤ m.capacity)) := by
  obtain ⟨w, m₁, t, m₃, hw, hpass, hcalling, hreach, hend⟩ := calling_eq hcall hrun
  have hto := hm.handedTo hp hq hw hpass
  obtain ⟨hle, hops⟩ := hto.operands
  have hle := Nat.le_sub_of_add_le' hle
  have hat : m.argumentsAt callee args = t.sp - args.length := by rw [argumentsAt, hcalling]
  rw [hat, hcalling] at hown ⊢
  rw [hcalling] at hreach
  refine ⟨fun c hc hgoes => ?_, fun hroom => ?_⟩
  · cases hto.cellsKept.uncollected hc hown with
    | working hm₂ => exact ⟨hm₂.heldUnder hle hops, fun _ => hm₂.heldUnder_reclaim_iff hle hops⟩
    | finished => exact absurd (over_ended ..) hgoes
  · cases hto.cellsKept.uncollected (hreach.uncollected hroom) hown with
    | working hm₃ _ _ hfits =>
      obtain ⟨hm', hbp, hsp⟩ := hm₃.endWaiting hfits.2 (hto.le_sp.trans_eq hto.height.symm) hend
      refine ⟨_, hm'.heldUnder hle hops, fun hfit => ?_, fun puts m₂ hne hputs => ?_⟩
      · exact Nat.sub_eq_zero_of_le (hsp.trans_eq (hto.height.trans (hto.eq_sp hfit).symm))
      · rw [← show m'.capacity = m.capacity from hm'.size.trans hto.capacity]
        exact hm'.heldUnder_iff hle hops hbp hne hputs

/-! ## An operand that is lost -/

def Machine.beforeCall (free : Nat) : Machine where
  stack := #[.fixnum 7] ++ Array.replicate free .nil
  sp := 1
  code := #[Opcode.frame.byte, 1, 0, 0, Opcode.loadLocal.byte, 0, Opcode.push.byte,
    Opcode.push.byte, Opcode.ret.byte]
  heap := { closures := #[⟨.empty, 0⟩] }

theorem Machine.beforeCall_wellLaid (free : Nat) : WellLaid [] (beforeCall free) :=
  .of_nil (.of_closed (by simp [beforeCall, capacity]) trivial trivial
    (by constructor <;> simp [beforeCall, Env.ClosedIn])) (Nat.zero_le _)

/-- The callee takes nothing but its argument, however little room there is. -/
theorem Machine.beforeCall_keepsAbove :
    ∀ free ∈ [5, 6], ∀ c, Reaches ((beforeCall free).calling (.closure ⟨0⟩) [.fixnum 1]) c →
      c.KeepsAbove ((beforeCall free).argumentsAt (.closure ⟨0⟩) [.fixnum 1]) := by
  intro free hfree
  refine Over.forall_reaches (n := 9) ?_ ?_ <;> revert free <;> decide +kernel

/-- With six cells there is room until the call is over, and then for six more values but not for
seven. With five of them a collection is due when the callee has pushed its argument once, and takes
the operand away. -/
theorem Machine.beforeCall_keeps_operand :
    (∃ m', call 20 (.closure ⟨0⟩) [.fixnum 1] (beforeCall 6) = .ok (.fixnum 1) m' ∧
      m'.HeldUnder [.fixnum 7] 0 ∧
      (∃ m₁, Put.execAll (List.replicate 6 (.push .t)) m' = .ok () m₁ ∧
        m₁.HeldUnder [.fixnum 7] 6) ∧
      ∃ m₁, Put.execAll (List.replicate 7 (.push .t)) m' = .ok () m₁ ∧
        ¬m₁.HeldUnder [.fixnum 7] 7) ∧
    ∃ c m₁, Uncollected ((beforeCall 5).calling (.closure ⟨0⟩) [.fixnum 1]) c ∧
      c.machine.HeldUnder [.fixnum 7] 5 ∧ reclaim c.machine = .ok () m₁ ∧
      ¬m₁.HeldUnder [.fixnum 7] 5 := by
  have hcall (free : Nat) (hfree : free ∈ [5, 6]) :
      call 20 (.closure ⟨0⟩) [.fixnum 1] (beforeCall free) =
      .ok (.fixnum 1) (final (call 20 (.closure ⟨0⟩) [.fixnum 1] (beforeCall free))) ∧
      (final (call 20 (.closure ⟨0⟩) [.fixnum 1] (beforeCall free))).runnable = true := by
    refine ⟨eq_ok_of_result? ?_, ?_⟩ <;> revert free <;> decide +kernel
  have hkeeps (free : Nat) (hfree : free ∈ [5, 6]) := (beforeCall_wellLaid free).call_keeps_operands
    (fun _ h => by simp [beforeCall] at h) rfl (hcall free hfree).1 (hcall free hfree).2
    fun c hc => beforeCall_keepsAbove free hfree c hc.reaches
  constructor
  · obtain ⟨above, hheld, hfit, hiff⟩ := (hkeeps 6 (by decide)).2
      (Over.forall_reaches (n := 9) (by decide +kernel) (by decide +kernel))
    obtain rfl := hfit (by decide)
    have hputs : ∀ n ∈ [6, 7], result? (Put.execAll (List.replicate n (.push .t))
        (final (call 20 (.closure ⟨0⟩) [.fixnum 1] (beforeCall 6)))) = some () := by decide +kernel
    have hsix := eq_ok_of_result? (hputs 6 (by decide))
    have hseven := eq_ok_of_result? (hputs 7 (by decide))
    refine ⟨_, (hcall 6 (by decide)).1, hheld, ⟨_, hsix, ?_⟩, _, hseven, ?_⟩
    · exact (hiff _ _ (by decide) hsix).2 (by decide +kernel)
    · exact fun h => absurd ((hiff _ _ (by decide) hseven).1 h) (by decide +kernel)
  · have hc : Uncollected _ (advance^[4] ((beforeCall 5).calling (.closure ⟨0⟩) [.fixnum 1])) :=
      .iterate (by decide +kernel)
    have hrec := eq_ok_of_result? (show result? (reclaim
      (advance^[4] ((beforeCall 5).calling (.closure ⟨0⟩) [.fixnum 1])).machine) =
      some () by decide +kernel)
    have habove : (advance^[4] ((beforeCall 5).calling (.closure ⟨0⟩) [.fixnum 1])).machine.sp -
        (beforeCall 5).argumentsAt (.closure ⟨0⟩) [.fixnum 1] = 5 := by decide +kernel
    obtain ⟨hheld, hiff⟩ := (hkeeps 5 (by decide)).1 _ hc (by decide +kernel)
    rw [habove] at hheld hiff
    exact ⟨_, _, hc, hheld, hrec, fun h => absurd ((hiff _ (by decide) hrec).1 h)
      (by decide +kernel)⟩

/-- With one cell less the callee's second push collects, and the call cuts the stack off where the
operand was before that. -/
theorem Machine.beforeCall_loses_operand :
    WellLaid [] (beforeCall 5) ∧
    (∀ c, Reaches ((beforeCall 5).calling (.closure ⟨0⟩) [.fixnum 1]) c →
      c.KeepsAbove ((beforeCall 5).argumentsAt (.closure ⟨0⟩) [.fixnum 1])) ∧
    ∃ m', call 20 (.closure ⟨0⟩) [.fixnum 1] (beforeCall 5) = .ok (.fixnum 1) m' ∧
      m'.runnable = true ∧
      (beforeCall 5).HeldUnder [.fixnum 7] 0 ∧ ∀ above, ¬m'.HeldUnder [.fixnum 7] above := by
  have hcall : call 20 (.closure ⟨0⟩) [.fixnum 1] (beforeCall 5) = .ok (.fixnum 1) _ :=
    eq_ok_of_result? (by decide +kernel)
  refine ⟨beforeCall_wellLaid 5, beforeCall_keepsAbove 5 (by decide), _, hcall, by decide +kernel,
    by decide, fun above h => ?_⟩
  have hsp : (final (call 20 (.closure ⟨0⟩) [.fixnum 1] (beforeCall 5))).sp = 1 := by decide +kernel
  obtain rfl : above = 0 := by
    have hle := h.1
    rw [hsp, List.length_singleton] at hle
    omega
  revert h
  decide +kernel

end LispMachine
