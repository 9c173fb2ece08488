import LispMachine.Proofs.Arrangement.Entering

/-! # Leaving a frame for the last call

The arguments of a call that ends a procedure take the place of its slots. A frame that is entered
next finds them there. But the base of the activation stays where it was, above them, so a
collection that comes in between takes them for something that nobody needs any more.
-/

namespace LispMachine

open Machine

variable {segs rest : List Segment} {m m' : Machine} {start count id n : Nat} {parent : Env}
  {args : List Value}

theorem Cells.extract_slide {stack : Array Value} {target source n : Nat} (h : target ≤ source)
    (hs : source + n ≤ stack.size) :
    (slide stack target source n).extract target (target + n) =
      stack.extract source (source + n) := by
  refine Array.ext_getElem? fun i => ?_
  rw [Array.getElem?_extract, Array.getElem?_extract, size_slide, getElem?_slide h hs]
  by_cases hi : i < n
  · rw [if_pos (by omega), if_pos (by omega), if_pos (by omega), Nat.add_sub_cancel_left]
  · rw [if_neg (by omega), if_neg (by omega)]

/-- The machine after the last values have taken the place of the slots that begin at `start`. -/
def Machine.vacated (m : Machine) (start n : Nat) (parent : Env) : Machine :=
  { m with
    stack := Cells.slide m.stack start (m.sp - n) n
    sp := start + n
    env := parent }

theorem reuseFrame_onStack (hin : m.innermost m.env = .ok (.onStack start count, parent))
    (hn : start + n ≤ m.sp) (hroom : m.sp ≤ m.capacity) :
    reuseFrame n m = .ok () (m.vacated start n parent) := by
  have hne : m.env ≠ .empty := by
    intro h
    rw [h] at hin
    cases hin
  have hslide : slideCells start (m.sp - n) n m =
      .ok () { m with stack := Cells.slide m.stack start (m.sp - n) n } :=
    if_pos ⟨by omega, by omega⟩
  rw [reuseFrame_eq hne hin]
  simp only
  rw [if_neg (by omega), bind_ok hslide]
  rfl

theorem reuseFrame_live (he : m.env = .onStack (start + count))
    (hf : FrameCells m.stack start count parent) (hn : start + n ≤ m.sp)
    (hroom : m.sp ≤ m.capacity) :
    reuseFrame n m = .ok () (m.vacated start n parent) := by
  have hin : m.innermost m.env = .ok (.onStack start count, parent) := by
    rw [he, innermost, hf.descriptor]
    rfl
  exact reuseFrame_onStack hin hn hroom

theorem getElem?_vacated (hn : start + n ≤ m.sp) (hroom : m.sp ≤ m.capacity) (parent : Env)
    {i : Nat} (hi : i < start) : (m.vacated start n parent).stack[i]? = m.stack[i]? := by
  unfold capacity at hroom
  simp only [Machine.vacated]
  rw [Cells.getElem?_slide (by omega) (by omega), if_neg (by omega), if_neg (by omega)]

theorem Arranged.parentIn (hm : Arranged segs m) (hs : .frame start count id :: rest <:+ segs)
    (hf : FrameCells m.stack start count parent) : EnvIn m.heap rest parent := by
  rcases (hm.stacked.at_suffix hs).2.1 with ⟨q, hq, -⟩ | ⟨parent', hf', hp⟩
  · rw [hf.start_cell] at hq
    cases hq
  · obtain ⟨-, -, rfl⟩ := hf.unique hf' rfl
    exact hp

/-- A return point at or below a frame is one of the segments below it. -/
theorem Arranged.contIn_below (hm : Arranged segs m) (hs : .frame start count id :: rest <:+ segs)
    (htop : m.cont.top ≤ start) : ContIn m.heap rest m.cont := by
  have hc := hm.cont
  generalize m.cont = cont at hc htop
  cases hc with
  | closed hc => exact .closed hc
  | @onStack start' count' id' hmem =>
    obtain ⟨rest', hs'⟩ := exists_suffix hmem
    rcases hm.stacked.apart hs' hs with ⟨heq, -⟩ | ⟨hbelow, -⟩ | ⟨-, habove⟩
    · cases heq
    · exact .onStack (mem_of_cons_suffix hbelow)
    · rw [Segment.top_frame, Segment.start_point] at habove
      change start' + count' + 4 ≤ start at htop
      omega

theorem Arranged.vacated (hm : Arranged segs m) (hs : .frame start count id :: rest <:+ segs)
    (hp : EnvIn m.heap rest parent) (htop : m.cont.top ≤ start) (hn : start + n ≤ m.sp) :
    Arranged rest { m.vacated start n parent with sp := start } where
  room := by
    have := hm.room
    simp only [Machine.vacated, capacity, Cells.size_slide] at this ⊢
    omega
  stacked := by
    exact (hm.stacked.at_suffix hs).2.2.congr_below
      (fun i hi => getElem?_vacated hn hm.room parent hi) (.refl _)
  env := hp
  cont := hm.contIn_below hs htop
  linked := hm.linked

theorem Arranged.passed_vacated (hm : Arranged segs m) (hs : .frame start count id :: rest <:+ segs)
    (hp : EnvIn m.heap rest parent) (htop : m.cont.top ≤ start) (hn : start + args.length ≤ m.sp)
    (hargs : (m.stack.extract (m.sp - args.length) m.sp).toList = args) :
    Passed rest args { m.vacated start args.length parent with argc := args.length } where
  laid := by
    have := hm.vacated hs hp htop hn
    change Arranged rest { m.vacated start args.length parent with
      argc := args.length, sp := start + args.length - args.length }
    rw [Nat.add_sub_cancel]
    exact { this with }
  argc := rfl
  values := by
    have hroom := hm.room
    simp only [capacity] at hroom
    change ((Cells.slide m.stack start (m.sp - args.length) args.length).extract
      (start + args.length - args.length) (start + args.length)).toList = args
    rw [Nat.add_sub_cancel]
    rw [Cells.extract_slide (by omega) (by omega), Nat.sub_add_cancel (by omega)]
    exact hargs

/-! ## What may come in between -/

/-- What puts cells on the stack or clears it up. -/
inductive Put
  | push (v : Value)
  | call (offset : Int)
  | collect
  deriving DecidableEq

namespace Put

def exec : Put → Exec Unit
  | push v => Machine.push v
  | call offset => pushReturnPoint offset
  | collect => reclaim

def cells : Put → Nat
  | push _ => 1
  | call _ => 4
  | collect => 0

def execAll (ops : List Put) : Exec Unit := ops.forM exec

def cellsAll : List Put → Nat
  | [] => 0
  | op :: ops => op.cells + cellsAll ops

end Put

/-- The values stand right below the topmost `above` cells. -/
def Machine.HeldUnder (m : Machine) (args : List Value) (above : Nat) : Prop :=
  above + args.length ≤ m.sp ∧
    (m.stack.extract (m.sp - above - args.length) (m.sp - above)).toList = args

instance (m : Machine) (args : List Value) (above : Nat) : Decidable (m.HeldUnder args above) :=
  inferInstanceAs (Decidable (_ ∧ _))

/-- How much a collection leaves, whatever the stack is like. -/
theorem reclaim_sp (h : Machine.reclaim m = .ok () m') : m'.sp = m.sp - m.kept := by
  simp only [Machine.reclaim, get_bind_apply] at h
  obtain ⟨env, w₁, hw₁, h⟩ := bind_eq_ok h
  simp only [modify_bind_apply, get_bind_apply] at h
  obtain ⟨cont, w₂, hw₂, h⟩ := bind_eq_ok h
  simp only [modify_bind_apply] at h
  have hregs₁ := (maintains_promoteEnv (R := SameRegisters) m.env).ok hw₁
  have hregs₂ := (maintains_promoteCont (R := SameRegisters) w₁.cont).ok hw₂
  have hsp : w₂.sp = m.sp := hregs₂.sp.trans hregs₁.sp
  have hbp : w₂.bp = m.bp := hregs₂.bp.trans hregs₁.bp
  have hkept : min (max w₂.bp m.cont.top) w₂.sp = m.kept := by rw [hsp, hbp, Machine.kept]
  split at h
  · cases h
  · cases h
  · change (if min (max w₂.bp m.cont.top) w₂.sp ≠ 0 then do
        slideCells 0 (min (max w₂.bp m.cont.top) w₂.sp) (w₂.sp - min (max w₂.bp m.cont.top) w₂.sp)
        modify fun m' => { m' with
          sp := w₂.sp - min (max w₂.bp m.cont.top) w₂.sp
          bp := min (m'.bp - min (max w₂.bp m.cont.top) w₂.sp)
            (w₂.sp - min (max w₂.bp m.cont.top) w₂.sp) }
      else pure () : Exec Unit) { w₂ with cont } = .ok () m' at h
    rw [hkept, hsp] at h
    by_cases hzero : m.kept = 0
    · rw [if_neg (not_not_intro hzero)] at h
      cases h
      rw [hzero]
      rfl
    · rw [if_pos hzero] at h
      obtain ⟨-, w₃, -, h⟩ := bind_eq_ok h
      cases h
      rfl

theorem reclaim_of_makeRoom {f : Fault} (h : Machine.makeRoom n f m = .ok () m')
    (hfull : m.capacity < m.sp + n) : Machine.reclaim m = .ok () m' := by
  simp only [Machine.makeRoom, get_bind_apply, if_pos hfull] at h
  obtain ⟨_, m₁, hrec, h⟩ := bind_eq_ok h
  rw [get_bind_apply] at h
  split at h
  · cases h
  · cases h
    exact hrec

theorem push_eq_ok {v : Value} (h : Machine.push v m = .ok () m') :
    ∃ m₁, Machine.makeRoom 1 .stackOverflow m = .ok () m₁ ∧ m₁.sp + 1 ≤ m₁.capacity ∧
      m' = { m₁ with stack := m₁.stack.setIfInBounds m₁.sp v, sp := m₁.sp + 1 } := by
  obtain ⟨_, m₁, hm₁, hrest⟩ := bind_eq_ok h
  have hfit := makeRoom_eq_ok hm₁
  have hpush : Machine.push v m₁ = .ok () m' := by
    rw [Machine.push, bind_ok (makeRoom_of_room hfit)]
    exact hrest
  cases (push_room hfit).symm.trans hpush
  exact ⟨m₁, hm₁, hfit, rfl⟩

theorem pushReturnPoint_eq_ok {offset : Int} (h : pushReturnPoint offset m = .ok () m') :
    ∃ target m₁, Machine.makeRoom 4 .continuationOverflow m = .ok () m₁ ∧
      m₁.sp + 4 ≤ m₁.capacity ∧ m' = m₁.called target := by
  obtain ⟨target, w, ht, hrest⟩ := bind_eq_ok h
  obtain ⟨-, rfl⟩ := query_eq_ok ht
  obtain ⟨_, m₁, hm₁, hrest⟩ := bind_eq_ok hrest
  have hfit := makeRoom_eq_ok hm₁
  rw [pushReturnCells hfit] at hrest
  cases hrest
  exact ⟨target, m₁, hm₁, hfit, rfl⟩

namespace Put

variable {op : Put} {ops : List Put} {above : Nat}

/-- However the room was made, the cells are put on top of what is there then. -/
theorem exec_eq_ok (hrun : op.exec m = .ok () m') :
    ∃ m₁, (m₁ = m ∧ m.sp + op.cells ≤ m.capacity ∧ op ≠ collect ∨
        Machine.reclaim m = .ok () m₁ ∧ (op = collect ∨ m.capacity < m.sp + op.cells)) ∧
      m'.sp = m₁.sp + op.cells ∧ m'.bp = m₁.bp ∧ m'.capacity = m₁.capacity ∧
      ∀ i < m₁.sp, m'.stack[i]? = m₁.stack[i]? := by
  have hroom {f : Fault} {m₁ : Machine} (hne : op ≠ collect)
      (h : Machine.makeRoom op.cells f m = .ok () m₁) :
      m₁ = m ∧ m.sp + op.cells ≤ m.capacity ∧ op ≠ collect ∨
        Machine.reclaim m = .ok () m₁ ∧ (op = collect ∨ m.capacity < m.sp + op.cells) := by
    rcases Nat.lt_or_ge m.capacity (m.sp + op.cells) with hfull | hfit
    · exact .inr ⟨reclaim_of_makeRoom h hfull, .inr hfull⟩
    · cases (makeRoom_of_room hfit).symm.trans h
      exact .inl ⟨rfl, hfit, hne⟩
  cases op with
  | push v =>
    obtain ⟨m₁, hm₁, -, rfl⟩ := push_eq_ok hrun
    refine ⟨m₁, hroom (fun h => by cases h) hm₁, rfl, rfl, by simp [capacity], fun i hi => ?_⟩
    exact Array.getElem?_setIfInBounds_ne (by omega)
  | call offset =>
    obtain ⟨target, m₁, hm₁, -, rfl⟩ := pushReturnPoint_eq_ok hrun
    refine ⟨m₁, hroom (fun h => by cases h) hm₁, rfl, rfl, ?_, fun i hi =>
      Cells.getElem?_write_lt hi⟩
    simp [called, capacity]
  | collect => exact ⟨m', .inr ⟨hrun, .inl rfl⟩, rfl, rfl, rfl, fun _ _ => rfl⟩

theorem execAll_short (hshort : m.sp < n) (hrun : execAll ops m = .ok () m') :
    m'.sp < n + cellsAll ops := by
  induction ops generalizing m n with
  | nil =>
    cases hrun
    exact hshort
  | cons op ops ih =>
    obtain ⟨_, m₁, hop, hrest⟩ := bind_eq_ok hrun
    obtain ⟨w, hw, hsp, -⟩ := exec_eq_ok hop
    have hle : w.sp ≤ m.sp := by
      rcases hw with ⟨rfl, -⟩ | ⟨hrec, -⟩
      · exact le_rfl
      · rw [reclaim_sp hrec]
        exact Nat.sub_le ..
    have := ih (m := m₁) (n := n + op.cells) (by omega) hrest
    rw [cellsAll]
    omega

/-- The values stay where they are as long as nothing is collected, and the first collection takes
away at least one of them. -/
theorem heldUnder_iff (hne : args ≠ []) (hbp : start < m.bp)
    (hsp : m.sp = start + args.length + above) (hroom : m.sp ≤ m.capacity)
    (hheld : m.HeldUnder args above) (hrun : execAll ops m = .ok () m') :
    m'.HeldUnder args (above + cellsAll ops) ↔
      collect ∉ ops ∧ m.sp + cellsAll ops ≤ m.capacity := by
  have hpos : 0 < args.length := List.length_pos_iff.2 hne
  induction ops generalizing m above with
  | nil =>
    cases hrun
    simp [cellsAll, hheld, hroom]
  | cons op ops ih =>
    obtain ⟨_, m₁, hop, hrest⟩ := bind_eq_ok hrun
    obtain ⟨w, hw, hsp₁, hbp₁, hcap₁, hcells⟩ := exec_eq_ok hop
    rw [cellsAll]
    rcases hw with ⟨rfl, hfit, hkind⟩ | ⟨hrec, hkind⟩
    · have hheld₁ : m₁.HeldUnder args (above + op.cells) := by
        refine ⟨by omega, ?_⟩
        have hle := hheld.1
        rw [hsp₁, show w.sp + op.cells - (above + op.cells) = w.sp - above by omega,
          Moved.extract_eq hcap₁ fun i _ hi => hcells i (by omega)]
        exact hheld.2
      have hiff : m'.HeldUnder args (above + op.cells + cellsAll ops) ↔
          collect ∉ ops ∧ m₁.sp + cellsAll ops ≤ m₁.capacity :=
        ih (by omega) (by omega) (by omega) hheld₁ hrest
      rw [← Nat.add_assoc, hiff, hsp₁, hcap₁, Nat.add_assoc]
      simp [Ne.symm hkind]
    · have hshort : m₁.sp < args.length + above + op.cells := by
        have := reclaim_sp hrec
        have : min m.bp m.sp ≤ m.kept := by
          unfold Machine.kept
          omega
        omega
      have hlost := execAll_short hshort hrest
      constructor
      · rintro ⟨hle, -⟩
        omega
      · rintro ⟨hmem, hle⟩
        rcases hkind with rfl | hfull
        · exact absurd List.mem_cons_self hmem
        · omega

end Put

/-- After a frame was left the arguments are ready for the next frame to take them. What is put on
the stack before that, if anything, leaves them in place just as long as no collection takes place:
neither one that was asked for nor one that makes room. -/
theorem WellLaid.tail_arguments_held_iff (hm : WellLaid segs m) (args : List Value)
    (he : m.env = .onStack (start + count)) (hf : FrameCells m.stack start count parent)
    (htop : m.cont.top ≤ start) (habove : start + count + 3 + args.length ≤ m.sp)
    (hargs : (m.stack.extract (m.sp - args.length) m.sp).toList = args) :
    ∃ rest m₁, reuseFrame args.length m = .ok () m₁ ∧
      Passed rest args { m₁ with argc := args.length } ∧
      ∀ ops m', Put.execAll ops m₁ = .ok () m' → args ≠ [] →
        (m'.HeldUnder args (Put.cellsAll ops) ↔
          .collect ∉ ops ∧ start + args.length + Put.cellsAll ops ≤ m.capacity) := by
  have hroom := hm.room
  have hin : m.innermost m.env = .ok (.onStack start count, parent) := by
    rw [he, innermost, hf.descriptor]
    rfl
  obtain ⟨id, rest, -, hs, -⟩ := hm.frameCells_of_innermost hm.env hin
  have hpassed := hm.passed_vacated hs (hm.parentIn hs hf) htop (by omega) hargs
  have hbp := hm.frames_le _ _ _ (mem_of_cons_suffix hs)
  have hcap : (m.vacated start args.length parent).capacity = m.capacity := by
    simp [vacated, capacity]
  refine ⟨rest, _, reuseFrame_live he hf (by omega) hroom, hpassed, fun ops m' hrun hne => ?_⟩
  have hheld : (m.vacated start args.length parent).HeldUnder args 0 := by
    refine ⟨?_, hpassed.values⟩
    change 0 + args.length ≤ start + args.length
    omega
  have hbp' : start < (m.vacated start args.length parent).bp := by
    change start < m.bp
    omega
  have hiff := Put.heldUnder_iff hne hbp' rfl hpassed.bounds.2 hheld hrun
  rwa [Nat.zero_add, hcap] at hiff

/-- A frame with one slot and two values above it. -/
def Machine.beforeTailCall : Machine :=
  { stack := #[.fixnum 1, .fixnum 0, .fixnum 1, .nil, .fixnum 7, .fixnum 8]
    sp := 6
    bp := 4
    env := .onStack 1 }

theorem Machine.beforeTailCall_wellLaid : WellLaid [.frame 0 1 0] beforeTailCall where
  room := by decide
  stacked := ⟨by decide, .inr ⟨.empty, ⟨rfl, rfl, rfl⟩, .closed trivial⟩, trivial⟩
  env := .onStack List.mem_cons_self
  cont := .closed trivial
  linked := by constructor <;> simp [beforeTailCall]
  bp_le := by decide
  frames_le start count id h := by
    simp only [List.mem_singleton, Segment.frame.injEq] at h
    change start + count + 3 ≤ 4
    omega

/-- Four more values can be pushed, but with one more than that the arguments are lost. -/
theorem Machine.beforeTailCall_arguments :
    WellLaid [.frame 0 1 0] beforeTailCall ∧
    ∃ m₁, reuseFrame 2 beforeTailCall = .ok () m₁ ∧
      (∃ m', Put.execAll (List.replicate 4 (.push .t)) m₁ = .ok () m' ∧
        m'.HeldUnder [.fixnum 7, .fixnum 8] 4) ∧
      ∃ m', Put.execAll (List.replicate 5 (.push .t)) m₁ = .ok () m' ∧
        ¬m'.HeldUnder [.fixnum 7, .fixnum 8] 5 := by
  have hf : FrameCells beforeTailCall.stack 0 1 .empty := ⟨rfl, rfl, rfl⟩
  obtain ⟨rest, m₁, hrun, -, hiff⟩ := beforeTailCall_wellLaid.tail_arguments_held_iff
    [.fixnum 7, .fixnum 8] (show _ = Env.onStack (0 + 1) from rfl) hf (by decide) (by decide) rfl
  obtain rfl : beforeTailCall.vacated 0 2 .empty = m₁ := by
    cases hrun
    rfl
  have hfour := eq_ok_of_result? (show result? (Put.execAll (List.replicate 4 (.push .t))
    (beforeTailCall.vacated 0 2 .empty)) = some () by decide +kernel)
  have hfive := eq_ok_of_result? (show result? (Put.execAll (List.replicate 5 (.push .t))
    (beforeTailCall.vacated 0 2 .empty)) = some () by decide +kernel)
  refine ⟨beforeTailCall_wellLaid, _, hrun, ?_, ?_⟩
  · exact ⟨_, hfour, (hiff _ _ hfour (by simp)).2 (by decide)⟩
  · exact ⟨_, hfive, fun hheld => absurd ((hiff _ _ hfive (by simp)).1 hheld) (by decide)⟩

/-- A collection right after the frame was left takes away both arguments. -/
theorem Machine.beforeTailCall_collected :
    WellLaid [.frame 0 1 0] beforeTailCall ∧
    ∃ m₁ m', reuseFrame 2 beforeTailCall = .ok () m₁ ∧ m₁.HeldUnder [.fixnum 7, .fixnum 8] 0 ∧
      reclaim m₁ = .ok () m' ∧ m'.sp = 0 :=
  ⟨beforeTailCall_wellLaid, _, _, rfl, by decide, rfl, rfl⟩

end LispMachine
