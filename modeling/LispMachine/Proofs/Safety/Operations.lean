import LispMachine.Proofs.Safety.Intact
import LispMachine.Proofs.Simulation.Returns

/-! # The operations are safe

Moving frames and return points to the heap, making room, building and leaving frames, calling and
returning: from an intact machine none of them is stuck, whatever handles its registers and cells
hold. What moves to the heap has left the stack behind.
-/

namespace LispMachine.Machine

variable {α : Type} {loose : Bool} {N : Nat} {m : Machine} {env : Env} {cont : Cont} {v : Value}

namespace Intact

/-! ## Cells and objects -/

theorem withHeap (hm : m.Intact loose N) {h : Heap} (hs : h.Sound loose) (hw : m.heap.Within h) :
    Intact loose N { m with heap := h } where
  capacity := hm.capacity
  sp_le := hm.sp_le
  heap := hs
  cells v hv := (hm.cells v hv).mono hw
  acc := hm.acc.mono hw
  env := hm.env.mono hw
  cont := hm.cont.mono hw
  literals v hv := (hm.literals v hv).mono hw
  globals name v hv := (hm.globals name v hv).mono hw

theorem withStack (hm : m.Intact loose N) {stack : Array Value} (hsize : stack.size = m.stack.size)
    (hv : ∀ v ∈ stack, v.KnownIn m.heap) : Intact loose N { m with stack } :=
  { hm with capacity := hsize.trans hm.capacity, cells := hv }

theorem writeCell (hm : m.Intact loose N) {i : Nat} (hi : i < N) (hv : v.KnownIn m.heap) :
    Safe loose N m (fun _ m' => SameRegisters m m') (writeCell i v m) := by
  rw [Machine.writeCell, if_pos (by rwa [hm.capacity])]
  refine .done (hm.withStack (by simp) fun u hu => ?_) (.refl _) rfl
  rcases mem_setIfInBounds hu with rfl | hu
  · exact hv
  · exact hm.cells u hu

theorem clearCells (hm : m.Intact loose N) {lo hi : Nat} (hle : lo ≤ hi) (hhi : hi ≤ N) :
    Safe loose N m (fun _ m' => SameRegisters m m') (clearCells lo hi m) := by
  rw [Machine.clearCells, if_pos ⟨hle, by rwa [hm.capacity]⟩]
  refine .done (hm.withStack (by simp) fun u hu => ?_) (.refl _) rfl
  rcases Cells.mem_clear hu with rfl | hu
  · trivial
  · exact hm.cells u hu

theorem slideCells (hm : m.Intact loose N) {target source n : Nat} (hle : target ≤ source)
    (hn : source + n ≤ N) :
    Safe loose N m (fun _ m' => SameRegisters m m') (slideCells target source n m) := by
  have hn' : source + n ≤ m.stack.size := by rwa [hm.size]
  rw [Machine.slideCells, if_pos ⟨hle, hn'⟩]
  refine .done (hm.withStack (by simp) fun u hu => ?_) (.refl _) rfl
  rcases mem_slide hle hn' hu with rfl | hu
  · trivial
  · exact hm.cells u hu

theorem written (hm : m.Intact loose N) (lo : Nat) {vs : List Value}
    (hv : ∀ v ∈ vs, v.KnownIn m.heap) :
    Intact loose N { m with stack := Cells.write m.stack lo vs } := by
  refine hm.withStack (Cells.size_write ..) fun v hm' => ?_
  rcases Cells.mem_write hm' with hm' | hm'
  · exact hv v hm'
  · exact hm.cells v hm'

theorem newPair (hm : m.Intact loose N) {p : Pair} (hp : p.KnownIn m.heap) :
    Safe loose N m (fun r m' => (Value.pair r).KnownIn m'.heap) (newPair p m) :=
  .done (hm.withHeap (hm.heap.addPair hp) (.addPair p)) (.addPair p) (by simp [Value.KnownIn])

theorem newVector (hm : m.Intact loose N) {vs : List Value} (hv : ∀ v ∈ vs, v.KnownIn m.heap) :
    Safe loose N m (fun r m' => (Value.vector r).KnownIn m'.heap) (newVector vs m) :=
  .done (hm.withHeap (hm.heap.addVector hv) (.addVector vs)) (.addVector vs)
    (by simp [Value.KnownIn])

theorem newClosure (hm : m.Intact loose N) {c : Closure} (hc : c.env.LeadsIn loose m.heap) :
    Safe loose N m (fun r m' => (Value.closure r).KnownIn m'.heap) (newClosure c m) :=
  .done (hm.withHeap (hm.heap.addClosure hc) (.addClosure c)) (.addClosure c)
    (by simp [Value.KnownIn])

theorem newProcedure (hm : m.Intact loose N) {p : Procedure} (hp : p.body.KnownIn m.heap) :
    Safe loose N m (fun r m' => (Value.procedure r).KnownIn m'.heap) (newProcedure p m) :=
  .done (hm.withHeap (hm.heap.addProcedure hp) (.addProcedure p)) (.addProcedure p)
    (by simp [Value.KnownIn])

theorem newFrame (hm : m.Intact loose N) {f : Frame} (hf : f.KnownIn loose m.heap) :
    Safe loose N m (fun r m' => r.index < m'.heap.frames.size ∧ SameRegisters m m')
      (newFrame f m) :=
  .done (hm.withHeap (hm.heap.addFrame hf) (.addFrame f)) (.addFrame f) ⟨by simp, rfl⟩

theorem newContinuation (hm : m.Intact loose N) {k : Continuation} (hk : k.KnownIn loose m.heap) :
    Safe loose N m (fun r m' => r.index < m'.heap.continuations.size) (newContinuation k m) :=
  .done (hm.withHeap (hm.heap.addContinuation hk) (.addContinuation k)) (.addContinuation k)
    (by simp)

/-! ## Moving to the heap -/

theorem cellsKnown (hm : m.Intact loose N) {lo hi : Nat} (hle : lo ≤ hi) (hhi : hi ≤ N) :
    Found (fun vs => ∀ v ∈ vs, v.KnownIn m.heap) (m.cells lo hi) := by
  rw [Machine.cells, if_pos ⟨hle, by rwa [hm.capacity]⟩]
  exact fun v hv => hm.cells v (mem_of_mem_extract hv)

theorem promoteFrame (hm : m.Intact loose N) {f : LiveFrame}
    (hf : f.start + f.count ≤ f.pos ∧ f.pos < N) {parent : Env} (hp : parent.LeadsIn false m.heap) :
    Safe loose N m (fun env m' => env.LeadsIn false m'.heap) (promoteFrame f parent m) := by
  refine .query_bind hm (hm.cellsKnown (Nat.le_add_right ..) (by omega)) fun slots hs => ?_
  refine (hm.newFrame ⟨hs, hp.loosen⟩).bind fun r m₁ hm₁ _ hr => ?_
  refine (hm₁.writeCell hf.2 (v := .frame r) hr.1).bind fun _ m₂ hm₂ hw₂ _ => ?_
  exact .ok hm₂ (Nat.lt_of_lt_of_le hr.1 hw₂.frames)

theorem foldrM {γ δ : Type} {f : γ → δ → Exec δ} {P : γ → Heap → Prop} {Q : δ → Heap → Prop}
    (hP : ∀ {a h h'}, P a h → h.Within h' → P a h')
    (hf : ∀ {m : Machine} {a b}, m.Intact loose N → P a m.heap → Q b m.heap →
      Safe loose N m (fun b m' => Q b m'.heap) (f a b m))
    (hm : m.Intact loose N) {l : List γ} {b : δ} (hl : ∀ a ∈ l, P a m.heap) (hb : Q b m.heap) :
    Safe loose N m (fun b m' => Q b m'.heap) (l.foldrM f b m) := by
  induction l with
  | nil => exact .ok hm hb
  | cons a l ih =>
    rw [List.foldrM_cons]
    refine (ih fun a ha => hl a (List.mem_cons_of_mem _ ha)).bind fun b m' hm' hw hb => ?_
    exact hf hm' (hP (hl a List.mem_cons_self) hw) hb

theorem forM {γ : Type} {f : γ → Exec Unit} {P : γ → Heap → Prop}
    (hP : ∀ {a h h'}, P a h → h.Within h' → P a h')
    (hf : ∀ {m : Machine} {a}, m.Intact loose N → P a m.heap →
      Safe loose N m (fun _ _ => True) (f a m)) (hm : m.Intact loose N) {l : List γ}
    (hl : ∀ a ∈ l, P a m.heap) : Safe loose N m (fun _ _ => True) (l.forM f m) := by
  induction l generalizing m with
  | nil => exact .ok hm trivial
  | cons a l ih =>
    refine (hf hm (hl a List.mem_cons_self)).bind fun _ m' hm' hw _ => ?_
    exact ih hm' fun a ha => hP (hl a (List.mem_cons_of_mem _ ha)) hw

theorem promoteEnv (hm : m.Intact loose N) (he : env.LeadsIn true m.heap) :
    Safe loose N m (fun env m' => env.LeadsIn false m'.heap) (promoteEnv env m) := by
  refine .query_bind hm (hm.liveFrames _ he) fun ⟨frames, base⟩ hr => ?_
  exact foldrM (P := fun f _ => f.start + f.count ≤ f.pos ∧ f.pos < N)
    (Q := fun env h => Env.LeadsIn false h env) (fun h _ => h)
    (fun hm hf hp => hm.promoteFrame hf hp) hm hr.1 hr.2

theorem promoteCurrent (hm : m.Intact loose N) :
    Safe loose N m (fun env m' => env.LeadsIn false m'.heap ∧ m'.sp = m.sp) (promoteCurrent m) := by
  have hsame : SameRegisters m (final (Machine.promoteEnv m.env m)) :=
    (maintains_promoteEnv m.env).related m
  refine ((hm.promoteEnv hm.env).and_final hsame).bind fun env m₁ hm₁ _ he => ?_
  have hm₂ : Intact loose N { m₁ with env } := { hm₁ with env := he.1.inRegister }
  exact .after_modify (.refl _) (.ok hm₂ ⟨he.1, he.2.sp⟩)

theorem promoteReturnPoint (hm : m.Intact loose N) {q : Nat × ReturnPoint}
    (hq : (4 ≤ q.1 ∧ q.1 ≤ N ∧ q.2.bp + 4 ≤ q.1) ∧ q.2.env.LeadsIn true m.heap) {prev : Cont}
    (hp : prev.LeadsIn false m.heap) :
    Safe loose N m (fun cont m' => cont.LeadsIn false m'.heap) (promoteReturnPoint q prev m) := by
  obtain ⟨c, p⟩ := q
  obtain ⟨⟨hc, hN, hbp⟩, henv⟩ := hq
  simp only at hc hN hbp henv
  refine (hm.promoteEnv henv).bind fun env m₁ hm₁ hw₁ he => ?_
  refine .query_bind hm₁ (.distance hc) fun base hbase => ?_
  subst hbase
  refine .query_bind hm₁ (hm₁.cellsKnown (by omega) (by omega)) fun saved hs => ?_
  have hprev := hp.mono hw₁
  refine Safe.bind (.query_bind hm₁ (hm₁.ownerOf hprev.loosen) fun owner _ =>
    hm₁.newContinuation ⟨hs, he.loosen, hprev.loosen⟩) fun r m₂ hm₂ _ hr => ?_
  exact .ok hm₂ hr

theorem promoteCont (hm : m.Intact loose N) (hc : cont.LeadsIn true m.heap) :
    Safe loose N m (fun cont m' => cont.LeadsIn false m'.heap) (promoteCont cont m) := by
  refine .query_bind hm (hm.returnPoints _ hc) fun ⟨points, base⟩ hr => ?_
  exact foldrM
    (P := fun q h => (4 ≤ q.1 ∧ q.1 ≤ N ∧ q.2.bp + 4 ≤ q.1) ∧ q.2.env.LeadsIn true h)
    (Q := fun cont h => Cont.LeadsIn false h cont) (fun h hw => ⟨h.1, h.2.mono hw⟩)
    (fun hm hq hp => hm.promoteReturnPoint hq hp) hm hr.1 hr.2

theorem capture (hm : m.Intact loose N) :
    Safe loose N m (fun r m' => (Value.continuation r).KnownIn m'.heap) (capture m) := by
  have hset {m : Machine} {r : Ref .continuation} (hm : m.Intact loose N)
      (hr : r.index < m.heap.continuations.size) :
      Safe loose N m (fun r m' => (Value.continuation r).KnownIn m'.heap)
        ((do modify ({ · with cont := .onHeap r }); return r : Exec (Ref .continuation)) m) :=
    .after_modify (.refl _) (.ok { hm with cont := hr } hr)
  refine (hm.promoteCont hm.cont).bind fun cont m₁ hm₁ _ hc => ?_
  cases cont with
  | onHeap r => exact hset hm₁ hc
  | empty =>
    have hk : Continuation.halting.KnownIn loose m₁.heap :=
      ⟨fun v hv => absurd hv (Array.not_mem_empty v), trivial, trivial⟩
    exact (hm₁.newContinuation hk).bind fun r m₂ hm₂ _ hr => hset hm₂ hr
  | onStack => cases hc

/-! ## The stack -/

theorem withSp (hm : m.Intact loose N) {sp : Nat} (hsp : sp ≤ N) : Intact loose N { m with sp } :=
  { hm with sp_le := hsp }

theorem reclaim (hm : m.Intact loose N) : Safe loose N m (fun _ _ => True) (reclaim m) := by
  simp only [Machine.reclaim, get_bind_apply]
  refine (hm.promoteEnv hm.env).bind fun env m₁ hm₁ _ he => .after_modify (.refl _) ?_
  have hm₁' : Intact loose N { m₁ with env } := { hm₁ with env := he.inRegister }
  -- moving the frames has changed cells, so the return points are read from what is there now
  refine (hm₁'.promoteCont hm₁'.cont).bind fun cont m₂ hm₂ _ hc => .after_modify (.refl _) ?_
  have hm₂' : Intact loose N { m₂ with cont } := { hm₂ with cont := hc.inRegister }
  have hsp := hm₂.sp_le
  -- the part that is kept lies below the stack pointer wherever the registers point
  have hslide (base : Nat) (hbase : base ≤ m₂.sp) : Safe loose N { m₂ with cont } (fun _ _ => True)
      ((if base ≠ 0 then do
          Machine.slideCells 0 base (m₂.sp - base)
          modify fun m => { m with sp := m₂.sp - base, bp := min (m.bp - base) (m₂.sp - base) }
        else pure () : Exec Unit) { m₂ with cont }) := by
    split
    · refine (hm₂'.slideCells (Nat.zero_le _) (by omega)).bind fun _ m₃ hm₃ _ _ => ?_
      exact .done { hm₃ with sp_le := by simp only; omega } (.refl _) trivial
    · exact .ok hm₂' trivial
  cases env with
  | onStack => cases he
  | _ =>
    cases cont with
    | onStack => cases hc
    | _ => exact hslide _ (Nat.min_le_right ..)

theorem makeRoom (hm : m.Intact loose N) (n : Nat) (overflow : Fault) :
    Safe loose N m (fun _ m' => m'.sp + n ≤ N) (makeRoom n overflow m) := by
  simp only [Machine.makeRoom, get_bind_apply, hm.capacity]
  split
  · refine hm.reclaim.bind fun _ m₁ hm₁ _ _ => ?_
    simp only [get_bind_apply, hm₁.capacity]
    split
    · exact .fault hm₁
    · exact .ok hm₁ (by omega)
  · exact .ok hm (by omega)

theorem push (hm : m.Intact loose N) (hv : v.KnownIn m.heap) :
    Safe loose N m (fun _ _ => True) (push v m) := by
  refine (hm.makeRoom 1 .stackOverflow).bind fun _ m₁ hm₁ hw₁ hroom => ?_
  simp only [get_bind_apply]
  refine (hm₁.writeCell (by omega) (hv.mono hw₁)).bind fun _ m₂ hm₂ _ _ => ?_
  exact .done (hm₂.withSp hroom) (.refl _) trivial

theorem pushAll (hm : m.Intact loose N) {vs : List Value} (hv : ∀ v ∈ vs, v.KnownIn m.heap) :
    Safe loose N m (fun _ _ => True) (pushAll vs m) :=
  forM (P := fun v h => v.KnownIn h) (fun hv hw => hv.mono hw) (fun hm hv => hm.push hv) hm hv

theorem top (hm : m.Intact loose N) :
    Safe loose N m (fun v m' => v.KnownIn m'.heap) (top m) := by
  have hle := hm.sp_le
  simp only [Machine.top, get_bind_apply]
  cases hsp : m.sp with
  | zero => exact .fault hm
  | succ sp => exact .look hm (hm.cell (by omega))

theorem pop (hm : m.Intact loose N) :
    Safe loose N m (fun v m' => v.KnownIn m'.heap) (pop m) := by
  have hle := hm.sp_le
  simp only [Machine.pop, get_bind_apply]
  cases hsp : m.sp with
  | zero => exact .fault hm
  | succ sp =>
    refine .query_bind hm (hm.cell (by omega)) fun v hv => ?_
    refine (hm.writeCell (v := .nil) (by omega) trivial).bind fun _ m₁ hm₁ hw₁ _ => ?_
    exact .after_modify (.refl _) (.ok (hm₁.withSp (by omega)) (hv.mono hw₁))

/-! ## Registers and lists -/

theorem withCounters (hm : m.Intact loose N) (bp ip current argc : Nat) (runnable : Bool)
    (hosts : HostCalls) (code : Code) :
    Intact loose N { m with bp, ip, current, argc, runnable, hosts, code } :=
  { hm with sp_le := hm.sp_le }

theorem setAcc (hm : m.Intact loose N) (hv : v.KnownIn m.heap) :
    Safe loose N m (fun _ _ => True) (setAcc v m) :=
  .done { hm with acc := hv } (.refl _) trivial

theorem cons (hm : m.Intact loose N) {car cdr : Value} (hcar : car.KnownIn m.heap)
    (hcdr : cdr.KnownIn m.heap) :
    Safe loose N m (fun v m' => v.KnownIn m'.heap) (cons car cdr m) :=
  (hm.newPair ⟨hcar, hcdr⟩).bind fun _ _ hm₁ _ hr => .ok hm₁ hr

theorem changePair (hm : m.Intact loose N) (change : Pair → Pair)
    (hc : ∀ p, p.KnownIn m.heap → (change p).KnownIn m.heap) (r : Ref .pair) :
    Safe loose N m (fun _ _ => True) ((modify fun m =>
      { m with heap.pairs := m.heap.pairs.modify r.index change } : Exec Unit) m) := by
  have hw : m.heap.Within { m.heap with pairs := m.heap.pairs.modify r.index change } :=
    { Heap.Within.refl m.heap with pairs := by simp }
  exact .done (hm.withHeap (hm.heap.modifyPair hc) hw) hw trivial

theorem setCar (hm : m.Intact loose N) {cell : Value} (hcell : cell.KnownIn m.heap)
    (hv : v.KnownIn m.heap) : Safe loose N m (fun _ _ => True) (setCar cell v m) := by
  cases cell with
  | pair r =>
    refine .query_bind hm (P := fun _ => True) (.object hcell fun _ _ => trivial) fun _ _ => ?_
    exact hm.changePair ({ · with car := v }) (fun p hp => ⟨hv, hp.2⟩) r
  | _ => exact .fault hm

theorem setCdr (hm : m.Intact loose N) {cell : Value} (hcell : cell.KnownIn m.heap)
    (hv : v.KnownIn m.heap) : Safe loose N m (fun _ _ => True) (setCdr cell v m) := by
  cases cell with
  | pair r =>
    refine .query_bind hm (P := fun _ => True) (.object hcell fun _ _ => trivial) fun _ _ => ?_
    exact hm.changePair ({ · with cdr := v }) (fun p hp => ⟨hp.1, hv⟩) r
  | _ => exact .fault hm

theorem setVector (hm : m.Intact loose N) {r : Ref .vector} {items : List Value}
    (hr : (Value.vector r).KnownIn m.heap) (hitems : ∀ v ∈ items, v.KnownIn m.heap) :
    Safe loose N m (fun _ _ => True) (setVector r items m) := by
  refine .query_bind hm (P := fun _ => True) (.object hr fun _ _ => trivial) fun _ _ => ?_
  have hw : m.heap.Within (m.heap.setVector r items) :=
    { Heap.Within.refl m.heap with vectors := by simp [Heap.setVector] }
  exact .done (hm.withHeap (hm.heap.setVector hitems) hw) hw trivial

theorem splice (hm : m.Intact loose N) {list tail : Value} (hlist : list.KnownIn m.heap)
    (htail : tail.KnownIn m.heap) :
    Safe loose N m (fun v m' => v.KnownIn m'.heap) (splice list tail m) := by
  refine .query_bind hm (hm.heap.items hlist) fun items hi => ?_
  obtain ⟨hs, hw, hv⟩ := hm.heap.chain hi htail
  exact .done (hm.withHeap hs hw) hw hv

/-! ## Frames -/

theorem writeSlot (hm : m.Intact loose N) (depth index : Nat) (hv : v.KnownIn m.heap) :
    Safe loose N m (fun _ _ => True) (writeSlot depth index v m) := by
  refine .query_bind hm (hm.slotsAt hm.env depth) fun slots hs => ?_
  cases slots with
  | onStack start count =>
    have hle : start + count ≤ N := hs
    exact .ite (fun hi => (hm.writeCell (by omega) hv).imp fun _ _ _ _ => trivial) fun _ =>
      .fault hm
  | onHeap r =>
    refine .query_bind hm (P := fun _ => True) (.object hs fun _ _ => trivial) fun f _ => ?_
    refine .ite (fun _ => ?_) fun _ => .fault hm
    have hw : m.heap.Within { m.heap with frames := m.heap.frames.modify r.index fun f =>
        { f with slots := f.slots.setIfInBounds index v } } :=
      { Heap.Within.refl m.heap with frames := by simp }
    exact .done (hm.withHeap (hm.heap.modifyFrame hv) hw) hw trivial

theorem pushHeapFrame (hm : m.Intact loose N) {taken : Nat} (htaken : taken ≤ m.sp) (extra : Nat) :
    Safe loose N m (fun _ _ => True) (pushHeapFrame taken extra m) := by
  refine hm.promoteCurrent.bind fun parent m₁ hm₁ _ hp => ?_
  obtain ⟨hp, hsp⟩ := hp
  have hle := hm₁.sp_le
  simp only [get_bind_apply]
  refine .query_bind hm₁ (.distance (by omega)) fun start hstart => ?_
  refine .query_bind hm₁ (hm₁.cellsKnown (by omega) hle) fun slots hs => ?_
  refine (hm₁.clearCells (by omega) hle).bind fun _ m₂ hm₂ hw₂ _ => ?_
  have hf : Frame.KnownIn loose m₂.heap ⟨slots ++ Array.replicate extra .unbound, parent⟩ := by
    refine ⟨fun v hv => ?_, (hp.mono hw₂).loosen⟩
    rcases Array.mem_append.1 hv with hv | hv
    · exact (hs v hv).mono hw₂
    · rw [Array.eq_of_mem_replicate hv]
      trivial
  refine (hm₂.newFrame hf).bind fun r m₃ hm₃ _ hr => ?_
  exact .done { hm₃ with sp_le := by simp only; omega, env := hr.1 } (.refl _) trivial

theorem framed (hm : m.Intact loose N) {taken extra : Nat} (hroom : m.sp + extra + 3 ≤ N) :
    (m.framed taken extra).Intact loose N := by
  have hcells : ∀ v ∈ List.replicate extra .unbound ++
      [.fixnum ↑(m.sp - taken), .fixnum ↑(taken + extra), m.env.toValue],
      Value.KnownIn m.heap v := by
    intro v hv
    rcases List.mem_append.1 hv with hv | hv
    · rw [List.eq_of_mem_replicate hv]
      trivial
    · simp only [List.mem_cons, List.not_mem_nil, or_false] at hv
      rcases hv with rfl | rfl | rfl
      · trivial
      · trivial
      · exact hm.env.toValue
  exact { hm.written m.sp hcells with sp_le := hroom, env := rfl }

theorem pushFrame (hm : m.Intact loose N) (taken extra : Nat) :
    Safe loose N m (fun _ _ => True) (pushFrame taken extra m) := by
  have hcap := hm.capacity
  rcases Nat.lt_or_ge m.sp taken with htaken | htaken
  · simp only [Machine.pushFrame, get_bind_apply, if_pos htaken]
    exact .fault hm
  · rcases Nat.lt_or_ge m.capacity (m.sp + extra + 3) with hfull | hroom
    · simp only [Machine.pushFrame, get_bind_apply, if_neg (Nat.not_lt.2 htaken), if_pos hfull]
      exact hm.pushHeapFrame htaken extra
    · rw [pushFrame_room htaken hroom]
      exact .done (hm.framed (by omega)) (.refl _) trivial

theorem popOnto (hm : m.Intact loose N) (n : Nat) {list : Value} (hl : list.KnownIn m.heap) :
    Safe loose N m (fun v m' => v.KnownIn m'.heap) (popOnto n list m) := by
  induction n generalizing m list with
  | zero => exact .ok hm hl
  | succ n ih =>
    refine hm.pop.bind fun v m₁ hm₁ hw₁ hv => ?_
    exact (hm₁.cons hv (hl.mono hw₁)).bind fun list m₂ hm₂ _ hl => ih hm₂ hl

theorem checkArgc (hm : m.Intact loose N) (least most : Nat) :
    Safe loose N m (fun _ m' => m' = m ∧ m.argc ≤ most) (checkArgc least most m) := by
  simp only [Machine.checkArgc, get_bind_apply, registers_eq]
  split
  · exact .fault hm
  · split
    · exact .fault hm
    · exact .ok hm ⟨rfl, by omega⟩

theorem enterFrame (hm : m.Intact loose N) (a : Arity) :
    Safe loose N m (fun _ _ => True) (enterFrame a m) := by
  simp only [Machine.enterFrame, layOutFrame, get_bind_apply]
  split
  · refine (hm.checkArgc _ _).bind fun _ m₁ hm₁ _ _ => ?_
    have hnil : Value.nil.KnownIn m₁.heap := trivial
    refine (hm₁.popOnto _ hnil).bind fun rest m₂ hm₂ _ hrest => ?_
    refine (hm₂.pushFrame _ _).bind fun _ m₃ hm₃ hw₃ _ => ?_
    exact hm₃.writeSlot _ _ (hrest.mono hw₃)
  · refine (hm.checkArgc _ _).bind fun _ m₁ hm₁ _ hargc => ?_
    -- the number of arguments was checked, so the missing ones can be counted
    exact .query_bind hm₁ (.distance hargc.2) fun missing _ => hm₁.pushFrame _ _

theorem makeFrame (hm : m.Intact loose N) (taken extra : Nat) :
    KeepsIntact loose N m (makeFrame taken extra m) := by
  simp only [Machine.makeFrame, get_bind_apply]
  split
  · exact .error hm
  · split
    · exact (hm.pushFrame taken extra).keepsIntact
    · exact hm.promoteCurrent.keepsIntact.bind fun _ _ hm₁ _ => .error hm₁

theorem buildFrame (hm : m.Intact loose N) (a : Arity) :
    KeepsIntact loose N m (buildFrame a m) := by
  simp only [Machine.buildFrame, layOutFrame, get_bind_apply]
  split
  · refine (hm.checkArgc _ _).bind_keepsIntact fun _ m₁ hm₁ _ _ => ?_
    have hnil : Value.nil.KnownIn m₁.heap := trivial
    refine (hm₁.popOnto _ hnil).bind_keepsIntact fun rest m₂ hm₂ _ hrest => ?_
    refine (hm₂.makeFrame _ _).bind fun _ m₃ hm₃ hw₃ => ?_
    exact (hm₃.writeSlot _ _ (hrest.mono hw₃)).keepsIntact
  · refine (hm.checkArgc _ _).bind_keepsIntact fun _ m₁ hm₁ _ hargc => ?_
    refine (Safe.query hm₁ (.distance hargc.2)).bind_keepsIntact fun missing m₂ hm₂ _ _ => ?_
    exact hm₂.makeFrame _ _

theorem reuseFrame (hm : m.Intact loose N) (n : Nat) :
    Safe loose N m (fun _ _ => True) (reuseFrame n m) := by
  have hle := hm.sp_le
  have henv := hm.env
  simp only [Machine.reuseFrame, get_bind_apply]
  cases he : m.env with
  | empty => exact .ok hm trivial
  | _ =>
    rw [he] at henv
    refine .query_bind hm (hm.innermost henv) fun r hr => ?_
    obtain ⟨slots, parent⟩ := r
    cases slots with
    | onHeap r => exact .done { hm with env := hr.2 } (.refl _) trivial
    | onStack start count =>
      simp only [get_bind_apply]
      refine .ite (fun _ => .fault hm) fun hn => ?_
      refine (hm.slideCells (by omega) (by omega)).bind fun _ m₁ hm₁ hw₁ _ => ?_
      exact .done { hm₁ with sp_le := by simp only; omega, env := hr.2.mono hw₁ } (.refl _) trivial

/-! ## Return points -/

theorem relative (m : Machine) (offset : Int) : Found (fun _ => True) (m.relative offset) :=
  .ite (fun _ => Found.fault _) fun _ => trivial

theorem called (hm : m.Intact loose N) {target : Nat} (hroom : m.sp + 4 ≤ N) :
    (m.called target).Intact loose N := by
  have hcells : ∀ v ∈ [.fixnum target, .fixnum m.bp, m.env.toValue, m.cont.toValue],
      Value.KnownIn m.heap v := by
    intro v hv
    simp only [List.mem_cons, List.not_mem_nil, or_false] at hv
    rcases hv with rfl | rfl | rfl | rfl
    · trivial
    · trivial
    · exact hm.env.toValue
    · exact hm.cont.toValue
  exact { hm.written m.sp hcells with sp_le := hroom, cont := rfl }

theorem pushReturnPoint (hm : m.Intact loose N) (offset : Int) :
    Safe loose N m (fun _ _ => True) (pushReturnPoint offset m) := by
  refine .query_bind hm (relative m offset) fun target _ => ?_
  refine (hm.makeRoom 4 .continuationOverflow).bind fun _ m₁ hm₁ _ hroom => ?_
  rw [pushReturnCells (by rwa [hm₁.capacity])]
  exact .done (hm₁.called hroom) (.refl _) trivial

theorem halt (hm : m.Intact loose N) : Safe loose N m (fun _ _ => True) (halt m) :=
  .done (hm.withCounters ..) (.refl _) trivial

theorem resume (hm : m.Intact loose N) {r : Ref .continuation}
    (hr : r.index < m.heap.continuations.size) :
    Safe loose N m (fun _ _ => True) (resume r m) := by
  refine .query_bind hm (.object hr hm.heap.continuations) fun k hk => ?_
  obtain ⟨hsaved, henv, hprev⟩ := hk
  cases k.resume with
  | halt => exact hm.halt
  | host id =>
    simp only [get_bind_apply]
    split
    · exact .done { hm with env := henv.inRegister, cont := hprev.inRegister } (.refl _) trivial
    · exact .fault hm
  | code ip =>
    refine (hm.makeRoom _ _).bind fun _ m₁ hm₁ hw₁ _ => .after_modify (.refl _) ?_
    have hm₁' : Intact loose N { m₁ with bp := m₁.sp } := hm₁.withCounters ..
    have hsaved' : ∀ v ∈ k.saved.toList, v.KnownIn m₁.heap := fun v hv =>
      (hsaved v (Array.mem_toList_iff.1 hv)).mono hw₁
    refine (hm₁'.pushAll hsaved').bind fun _ m₂ hm₂ hw₂ _ => ?_
    have hw := hw₁.trans hw₂
    have hm₃ : Intact loose N { m₂ with ip, env := k.env, cont := k.prev } :=
      { hm₂ with env := (henv.mono hw).inRegister, cont := (hprev.mono hw).inRegister }
    exact .done hm₃ (.refl _) trivial

theorem ret (hm : m.Intact loose N) : Safe loose N m (fun _ _ => True) (ret m) := by
  simp only [Machine.ret, get_bind_apply]
  have hcont := hm.cont
  cases hk : m.cont with
  | empty => exact hm.halt
  | onHeap r =>
    rw [hk] at hcont
    exact hm.resume hcont
  | onStack c =>
    have hsp := hm.sp_le
    refine .query_bind hm (hm.returnPoint c) fun p hp => ?_
    obtain ⟨⟨hc, hN, hbp⟩, henv, hprev⟩ := hp
    refine .query_bind hm (hm.resolve henv) fun env he => ?_
    refine .query_bind hm (.distance hc) fun base hbase => .after_modify (.refl _) ?_
    subst hbase
    have hm' : Intact loose N { m with env, ip := p.ip, bp := p.bp, cont := p.prev, sp := c - 4 } :=
      { hm with env := he, cont := hprev, sp_le := by simp only; omega }
    exact (hm'.clearCells (by omega) hsp).imp fun _ _ _ _ => trivial

end Intact

end LispMachine.Machine
