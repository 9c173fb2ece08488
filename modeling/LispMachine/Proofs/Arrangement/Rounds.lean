import LispMachine.Proofs.Arrangement.Leaving

/-! # Rounds of last calls

A loop that is written as a last call pushes the next arguments, leaves its frame to them and enters
the next frame, again and again. As long as there is room for each round, every frame begins where
the first one began, whatever their sizes are.
-/

namespace LispMachine

open Machine

/-- A last call with these arguments, of a procedure with `extra` further slots. -/
structure Round where
  args : List Value
  extra : Nat

namespace Round

def exec (r : Round) : Exec Unit := do
  pushAll r.args
  reuseFrame r.args.length
  pushFrame r.args.length r.extra

def execAll (rounds : List Round) : Exec Unit := rounds.forM exec

def slots (r : Round) : List Value := r.args ++ List.replicate r.extra .unbound

def top (r : Round) (start : Nat) : Nat := start + r.args.length + r.extra + 3

/-- On a stack that is in use up to `sp`, there is always room for the arguments, and for the frame
once they are at `start`. -/
def Fit (capacity start : Nat) : Nat → List Round → Prop
  | _, [] => True
  | sp, r :: rounds =>
    sp + r.args.length ≤ capacity ∧ r.top start ≤ capacity ∧ Fit capacity start (r.top start) rounds

instance decidableFit (capacity start : Nat) : ∀ sp rounds, Decidable (Fit capacity start sp rounds)
  | _, [] => inferInstanceAs (Decidable True)
  | _, r :: rounds =>
    have := decidableFit capacity start (r.top start) rounds
    inferInstanceAs (Decidable (_ ∧ _ ∧ _))

theorem length_slots (r : Round) : r.slots.length = r.args.length + r.extra := by
  rw [slots, List.length_append, List.length_replicate]

end Round

/-- The current frame is on the stack. Its slots are the cells from `start` on, and it is inside the
environment `parent`. -/
structure Machine.InFrame (start : Nat) (slots : List Value) (parent : Env) (m : Machine) :
    Prop where
  env : m.env = .onStack (start + slots.length)
  live : m.descriptor (start + slots.length) = .ok (.live start slots.length parent)
  values : (m.stack.extract start (start + slots.length)).toList = slots

variable {m w m' : Machine} {start : Nat} {slots args tail : List Value} {parent : Env} {r : Round}

/-- A round changes nothing below `start`, and on the heap nothing at all. -/
structure Machine.SameBelow (start : Nat) (m m' : Machine) : Prop where
  rest : m' = { m with stack := m'.stack, sp := m'.sp, bp := m'.bp, env := m'.env }
  capacity : m'.capacity = m.capacity
  cells : ∀ i < start, m'.stack[i]? = m.stack[i]?

namespace Machine.SameBelow

theorem trans (h : SameBelow start m w) (h' : SameBelow start w m') : SameBelow start m m' where
  rest := by rw [h'.rest, h.rest]
  capacity := h'.capacity.trans h.capacity
  cells i hi := (h'.cells i hi).trans (h.cells i hi)

theorem returnPoint (h : SameBelow start m m') (hsp : start ≤ m.sp) (hsp' : start ≤ m'.sp) {c : Nat}
    (hc : c ≤ start) : m'.returnPoint c = m.returnPoint c :=
  returnPoint_congr (hc.trans hsp) (hc.trans hsp') fun i hi _ => h.cells i (by omega)

end Machine.SameBelow

theorem descriptor_congr {e : Nat} (h : ∀ i, e ≤ i → i < e + 3 → m'.stack[i]? = m.stack[i]?) :
    m'.descriptor e = m.descriptor e := by
  rw [descriptor, descriptor, descriptor?, descriptor?, position?, position?, position?, position?,
    h e (by omega) (by omega), h (e + 1) (by omega) (by omega), h (e + 2) (by omega) (by omega)]

/-! ## One round -/

/-- The machine after the values have been pushed and have taken the place of the slots that begin
at `start`. -/
def Machine.handedOver (m : Machine) (start : Nat) (parent : Env) (args : List Value) : Machine :=
  { m with
    stack := Cells.write m.stack m.sp args
    sp := m.sp + args.length }.vacated start args.length parent

theorem size_handedOver : (m.handedOver start parent args).stack.size = m.stack.size := by
  simp only [handedOver, vacated, Cells.size_slide, Cells.size_write]

/-- The values are moved down over the frame from which they were computed, descriptor and all. -/
theorem Machine.InFrame.handOver (hm : m.InFrame start slots parent)
    (hsp : start + slots.length + 3 ≤ m.sp) (hargs : m.sp + args.length ≤ m.capacity) :
    (do pushAll args; reuseFrame args.length) m = .ok () (m.handedOver start parent args) := by
  rw [bind_ok (pushAll_room hargs)]
  generalize hm₁ : ({ m with
    stack := Cells.write m.stack m.sp args, sp := m.sp + args.length } : Machine) = m₁
  have hin : m₁.innermost m₁.env = .ok (.onStack start slots.length, parent) := by
    have hcells : m₁.descriptor (start + slots.length) = m.descriptor (start + slots.length) :=
      descriptor_congr fun i _ hi => by
        rw [← hm₁]
        exact Cells.getElem?_write_lt (by omega)
    rw [show m₁.env = .onStack (start + slots.length) by rw [← hm₁]; exact hm.env, innermost,
      hcells, hm.live]
    rfl
  have hover := reuseFrame_onStack (n := args.length) hin (by rw [← hm₁]; simp only; omega)
    (by rw [← hm₁]; simpa only [capacity, Cells.size_write] using hargs)
  rw [hover, handedOver, hm₁]

theorem extract_handedOver (hsp : start ≤ m.sp) (hargs : m.sp + args.length ≤ m.capacity) :
    (m.handedOver start parent args).stack.extract start (start + args.length) = args.toArray := by
  have hsize : args.toArray.size = args.length := List.size_toArray
  simp only [handedOver, vacated, Nat.add_sub_cancel]
  rw [Cells.extract_slide hsp (by rwa [Cells.size_write]), ← hsize]
  exact Cells.extract_write (by rwa [hsize])

theorem sameBelow_handedOver (hsp : start ≤ m.sp) (hargs : m.sp + args.length ≤ m.capacity) :
    SameBelow start m (m.handedOver start parent args) where
  rest := rfl
  capacity := size_handedOver
  cells i hi := by
    rw [handedOver, getElem?_vacated (by simp only; omega)
      (by simpa only [capacity, Cells.size_write] using hargs) parent hi]
    exact Cells.getElem?_write_lt (by omega)

theorem framedWith_inFrame (hargs : args.length ≤ m.sp)
    (hroom : m.sp + tail.length + 3 ≤ m.capacity)
    (hvalues : m.stack.extract (m.sp - args.length) m.sp = args.toArray) :
    (m.framedWith args.length tail).InFrame (m.sp - args.length) (args ++ tail) m.env := by
  have hcells := framedWith_frameCells hargs hroom
  have hpos : m.sp - args.length + (args ++ tail).length = m.sp + tail.length := by
    rw [List.length_append]
    omega
  refine ⟨by rw [hpos]; rfl, by rw [List.length_append]; exact hcells.descriptor, ?_⟩
  rw [hpos, framedWith, Cells.extract_write_append (Nat.sub_le ..)
    (by rw [List.length_append]; exact hroom), hvalues, Array.toList_append]

structure Machine.Looped (start : Nat) (parent : Env) (r : Round) (m m' : Machine) : Prop where
  inFrame : m'.InFrame start r.slots parent
  sp : m'.sp = r.top start
  bp : m'.bp = r.top start
  same : SameBelow start m m'

theorem Machine.InFrame.round (hm : m.InFrame start slots parent)
    (hsp : start + slots.length + 3 ≤ m.sp) (hargs : m.sp + r.args.length ≤ m.capacity)
    (hframe : r.top start ≤ m.capacity) :
    ∃ m', r.exec m = .ok () m' ∧ m.Looped start parent r m' := by
  have hlen : (List.replicate r.extra Value.unbound).length = r.extra := List.length_replicate
  have hover := hm.handOver hsp hargs
  have hsame : SameBelow start m (m.handedOver start parent r.args) :=
    sameBelow_handedOver (by omega) hargs
  have hvalues : (m.handedOver start parent r.args).stack.extract start (start + r.args.length) =
      r.args.toArray := extract_handedOver (by omega) hargs
  have hsp₁ : (m.handedOver start parent r.args).sp = start + r.args.length := rfl
  have henv₁ : (m.handedOver start parent r.args).env = parent := rfl
  generalize m.handedOver start parent r.args = m₁ at *
  have hfit : m₁.sp + r.extra + 3 ≤ m₁.capacity := by
    rw [hsp₁, hsame.capacity]
    exact hframe
  have hbuild : pushFrame r.args.length r.extra m₁ = .ok () (m₁.framed r.args.length r.extra) :=
    pushFrame_room (by omega) hfit
  rw [framed_eq_framedWith] at hbuild
  have hfirst : m₁.sp - r.args.length = start := by omega
  have hin : (m₁.framedWith r.args.length (List.replicate r.extra .unbound)).InFrame
      (m₁.sp - r.args.length) r.slots m₁.env :=
    framedWith_inFrame (by omega) (by rwa [hlen]) (by rw [hfirst, hsp₁, hvalues])
  rw [hfirst, henv₁] at hin
  have htop : m₁.sp + (List.replicate r.extra Value.unbound).length + 3 = r.top start := by
    rw [hlen, hsp₁, Round.top]
  refine ⟨_, ?_, hin, htop, htop,
    hsame.trans ⟨rfl, ?_, fun i hi => Cells.getElem?_write_lt (by omega)⟩⟩
  · rw [Round.exec, ← bind_assoc, bind_ok hover, hbuild]
  · simp only [framedWith, capacity, Cells.size_write]

/-! ## Many rounds -/

/-- Every round finds what it needs in what the one before it has left. -/
theorem Machine.InFrame.rounds (hm : m.InFrame start slots parent)
    (hsp : start + slots.length + 3 ≤ m.sp) {before after : List Round}
    (hfit : Round.Fit m.capacity start m.sp (before ++ r :: after)) :
    ∃ m', Round.execAll (before ++ [r]) m = .ok () m' ∧ m.Looped start parent r m' ∧
      Round.execAll (before ++ r :: after) m = Round.execAll after m' := by
  induction before generalizing m slots with
  | nil =>
    obtain ⟨hargs, hframe, -⟩ := hfit
    obtain ⟨m', hrun, hlooped⟩ := hm.round hsp hargs hframe
    exact ⟨m', bind_ok hrun, hlooped, bind_ok hrun⟩
  | cons r₁ before ih =>
    obtain ⟨hargs, hframe, hfit⟩ := hfit
    obtain ⟨m₁, hrun₁, hlooped₁⟩ := hm.round hsp hargs hframe
    have hsp₁ : start + r₁.slots.length + 3 ≤ m₁.sp := by
      rw [hlooped₁.sp, r₁.length_slots, Round.top]
      omega
    obtain ⟨m', hrun, hlooped, hrest⟩ :=
      ih hlooped₁.inFrame hsp₁ (by rwa [hlooped₁.same.capacity, hlooped₁.sp])
    exact ⟨m', (bind_ok hrun₁).trans hrun,
      { hlooped with same := hlooped₁.same.trans hlooped.same }, (bind_ok hrun₁).trans hrest⟩

/-- However many rounds there are and whatever their sizes, each of them ends with a frame that
begins where the first one began. The stack ends right above it, and what was below is as it was. -/
theorem Machine.InFrame.rounds_in_place (hm : m.InFrame start slots parent)
    (hsp : start + slots.length + 3 ≤ m.sp) {before after : List Round}
    (hfit : Round.Fit m.capacity start m.sp (before ++ r :: after)) :
    ∃ m', Round.execAll (before ++ [r]) m = .ok () m' ∧
      Round.execAll (before ++ r :: after) m = Round.execAll after m' ∧
      m'.InFrame start (r.args ++ List.replicate r.extra .unbound) parent ∧
      m'.sp = start + r.args.length + r.extra + 3 ∧ m'.bp = m'.sp ∧
      m' = { m with stack := m'.stack, sp := m'.sp, bp := m'.bp, env := m'.env } ∧
      (∀ i < start, m'.stack[i]? = m.stack[i]?) ∧
      ∀ c ≤ start, m'.returnPoint c = m.returnPoint c := by
  obtain ⟨m', hrun, hlooped, hrest⟩ := hm.rounds hsp hfit
  have htop : start ≤ m'.sp := by
    rw [hlooped.sp, Round.top]
    omega
  exact ⟨m', hrun, hrest, hlooped.inFrame, hlooped.sp, hlooped.bp.trans hlooped.sp.symm,
    hlooped.same.rest, hlooped.same.cells, fun c hc => hlooped.same.returnPoint (by omega) htop hc⟩

def Machine.looping : Machine :=
  { Machine.new 16 with
    stack := #[.fixnum 5, .fixnum 0, .nil, .nil, .fixnum 1, .fixnum 4, .fixnum 1, .nil,
      .nil, .nil, .nil, .nil, .nil, .nil, .nil, .nil]
    sp := 8
    bp := 8
    env := .onStack 5
    cont := .onStack 4 }

theorem Machine.looping_inFrame : looping.InFrame 4 [.fixnum 1] .empty := ⟨rfl, rfl, rfl⟩

/-- The second round has more values than its frame has cells between them and the slots, so it
moves them over their own first cells. The third one has none. -/
theorem Machine.looping_rounds_in_place :
    Round.Fit looping.capacity 4 looping.sp
      [⟨[.fixnum 2], 0⟩, ⟨[.fixnum 3, .fixnum 4, .fixnum 5, .fixnum 6, .fixnum 7], 3⟩, ⟨[], 2⟩] ∧
    ∃ m', Round.execAll
        [⟨[.fixnum 2], 0⟩, ⟨[.fixnum 3, .fixnum 4, .fixnum 5, .fixnum 6, .fixnum 7], 3⟩] looping =
        .ok () m' ∧
      m'.InFrame 4 [.fixnum 3, .fixnum 4, .fixnum 5, .fixnum 6, .fixnum 7, .unbound, .unbound,
        .unbound]
        .empty ∧ m'.sp = 15 ∧ m'.cont = .onStack 4 ∧ m'.returnPoint 4 = looping.returnPoint 4 := by
  have hfit : Round.Fit looping.capacity 4 looping.sp ([⟨[.fixnum 2], 0⟩] ++
      ⟨[.fixnum 3, .fixnum 4, .fixnum 5, .fixnum 6, .fixnum 7], 3⟩ :: [⟨[], 2⟩]) := by
    decide
  obtain ⟨m', hrun, -, hin, hsp, -, hrest, -, hpoint⟩ :=
    looping_inFrame.rounds_in_place (by decide) hfit
  exact ⟨hfit, m', hrun, hin, hsp, by rw [hrest]; rfl, hpoint 4 (by decide)⟩

end LispMachine
