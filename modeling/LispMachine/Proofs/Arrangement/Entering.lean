import LispMachine.Proofs.Arrangement.Frames

/-! # Entering a procedure

A procedure is entered with its arguments on top of the stack. If there are as many as its arity
allows, they become the first slots of its frame, and those that are too many become a list in the
last slot.
-/

namespace LispMachine

open Machine

/-! ## Lists of arguments -/

namespace Heap

variable {h h' : Heap} {v a last : Value} {items : List Value} {n : Nat}

theorem walk_extended (he : Extended h.pairs h'.pairs) {x : List Value × Value}
    (hw : h.walk n v = .ok x) : h'.walk n v = .ok x := by
  induction n generalizing v x with
  | zero => cases v <;> exact hw
  | succ n ih =>
    cases v with
    | pair r =>
      rw [walk] at hw ⊢
      obtain ⟨p, hp, hw⟩ := except_bind_eq_ok hw
      obtain ⟨y, hy, hw⟩ := except_bind_eq_ok hw
      have hp' : h'.pair r = .ok p := present_eq_ok.2 (he _ _ (present_eq_ok.1 hp))
      simp only [hp', ih hy, bind, Except.bind]
      exact hw
    | _ => exact hw

theorem spine_nil : h.spine .nil = .ok ([], .nil) := by
  rw [spine]
  cases h.pairs.size <;> rfl

theorem spine_cons (hs : h.spine v = .ok (items, last)) :
    (h.cons a v).2.spine (h.cons a v).1 = .ok (a :: items, last) := by
  have hp : (h.cons a v).2.pair ⟨h.pairs.size⟩ = .ok ⟨a, v⟩ :=
    present_eq_ok.2 Array.getElem?_push_size
  have hw : (h.cons a v).2.walk h.pairs.size v = .ok (items, last) :=
    walk_extended (.push _ _) hs
  have hsize : (h.cons a v).2.pairs.size = h.pairs.size + 1 := Array.size_push _
  rw [spine, hsize]
  change (h.cons a v).2.walk (h.pairs.size + 1) (.pair ⟨h.pairs.size⟩) = _
  rw [walk, hp]
  simp only [bind, Except.bind, hw]
  rfl

theorem items_of_spine (hs : h.spine v = .ok (items, .nil)) : h.items v = .ok items := by
  rw [Heap.items, hs]
  rfl

end Heap

variable {segs : List Segment} {m m₁ m' : Machine} {lo : Nat} {args items : List Value}
  {list : Value} {a : Arity}

structure Unloaded (m m₁ : Machine) : Prop where
  rest : m₁ = { m with stack := m₁.stack, sp := m₁.sp, heap.pairs := m₁.heap.pairs }
  capacity : m₁.capacity = m.capacity
  cells : ∀ i < m₁.sp, m₁.stack[i]? = m.stack[i]?

theorem Unloaded.refl (m : Machine) : Unloaded m m := ⟨rfl, rfl, fun _ _ => rfl⟩

/-- The values on top become the front of a list, in their order. -/
theorem popOnto_eq (hle : args.length ≤ m.sp)
    (hvalues : ∀ i < args.length, m.stack[m.sp - args.length + i]? = args[i]?)
    (hs : m.heap.spine list = .ok (items, .nil)) :
    ∃ v m₁, popOnto args.length list m = .ok v m₁ ∧ Unloaded m m₁ ∧
      m₁.sp = m.sp - args.length ∧ m₁.heap.spine v = .ok (args ++ items, .nil) := by
  induction args using List.reverseRecOn generalizing m list items with
  | nil => exact ⟨list, m, rfl, .refl m, rfl, hs⟩
  | append_singleton args a ih =>
    rw [List.length_append, List.length_singleton] at hle hvalues
    have htop : m.top? = some a := by
      have := hvalues args.length (by omega)
      rw [List.getElem?_concat_length, show m.sp - (args.length + 1) + args.length =
        m.sp - 1 by omega]
        at this
      rw [top?, if_neg (by omega), this]
    have hcell {i : Nat} (hi : i < m.sp - 1) : m.popped.stack[i]? = m.stack[i]? :=
      Array.getElem?_setIfInBounds_ne (by omega)
    have hvalues' : ∀ i < args.length, m.popped.stack[m.popped.sp - args.length + i]? =
        args[i]? := by
      intro i hi
      have := hvalues i (by omega)
      rw [List.getElem?_append_left hi] at this
      rw [← this]
      change m.popped.stack[m.sp - 1 - args.length + i]? = _
      rw [hcell (by omega), show m.sp - 1 - args.length + i = m.sp - (args.length + 1) + i by omega]
    obtain ⟨v, m₁, hrun, hun, hsp, hspine⟩ := ih
      (m := { m.popped with heap := (m.heap.cons a list).2 })
      (by change args.length ≤ m.sp - 1; omega) hvalues' (Heap.spine_cons hs)
    change m₁.sp = m.sp - 1 - args.length at hsp
    refine ⟨v, m₁, ?_, ⟨hun.rest, hun.capacity.trans ?_, fun i hi => ?_⟩, ?_, ?_⟩
    · rw [List.length_append, List.length_singleton]
      exact (bind_ok (pop_of_top htop)).trans hrun
    · simp [capacity, popped]
    · rw [hun.cells i hi]
      exact hcell (by omega)
    · rw [hsp, List.length_append, List.length_singleton]
      omega
    · rw [hspine, List.append_assoc, List.singleton_append]

/-! ## New pairs make no difference to the stack -/

theorem Arranged.withPairs (hm : Arranged segs m) (pairs : Array Pair) :
    Arranged segs { m with heap.pairs := pairs } :=
  hm.withHeap rfl rfl ⟨hm.linked.frames, hm.linked.closures, hm.linked.continuations⟩

namespace Unloaded

theorem frames (h : Unloaded m m₁) : m₁.heap.frames = m.heap.frames := by rw [h.rest]

theorem arranged (h : Unloaded m m₁) (hlo : lo ≤ m₁.sp) (hm : Arranged segs { m with sp := lo }) :
    Arranged segs { m₁ with sp := lo } := by
  have hcells : Arranged segs { m with sp := lo, stack := m₁.stack } :=
    { hm with
      room := by
        change lo ≤ m₁.capacity
        rw [h.capacity]
        exact hm.room
      stacked := hm.stacked.congr_below (fun i hi => h.cells i (Nat.lt_of_lt_of_le hi hlo))
        (.refl _) }
  rw [h.rest]
  exact hcells.withPairs m₁.heap.pairs

theorem readSlot (h : Unloaded m m₁) (hlo : lo ≤ m₁.sp) (hm : Arranged segs { m with sp := lo })
    (hm' : Arranged segs m) (hm₁ : Arranged segs m₁) (depth index : Nat) :
    (m₁.readSlot depth index).mapError Stop.onHeap =
      (m.readSlot depth index).mapError Stop.onHeap := by
  have henv : m₁.env = m.env := by rw [h.rest]
  rw [readSlot_eq, readSlot_eq, hm'.readFrom hm'.env depth index, hm₁.readFrom hm₁.env depth index,
    henv]
  refine (slotOf_congr (R := fun a b => a = b ∧ EnvIn m.heap segs a) ?_
    ⟨rfl, hm.env⟩ depth index).symm
  rintro env _ ⟨rfl, he⟩
  have hframe : m₁.frame? env = m.frame? env :=
    hm.frame?_eq he h.capacity (fun i hi => h.cells i (Nat.lt_of_lt_of_le hi hlo))
      (h.frames ▸ .refl _)
  rw [hframe]
  rcases hm.frame? he with rfl | ⟨f, hf, hp⟩
  · exact .none
  · change m.frame? env = some f at hf
    rw [hf]
    exact .some ⟨rfl, rfl, hp⟩

theorem forwarded (h : Unloaded m m₁) (hlo : lo ≤ m₁.sp) (hm : Arranged segs { m with sp := lo })
    (hf : Forwarded segs lo m₁ m') : Forwarded segs lo m m' := by
  have hcell {i : Nat} (hi : i < lo) : m₁.stack[i]? = m.stack[i]? :=
    h.cells i (Nat.lt_of_lt_of_le hi hlo)
  intro i hi
  rcases hf i hi with hi | ⟨start, count, id, parent, q, new, hmem, rfl, hcells, hq, hframe, hres⟩
  · exact .inl (hi.trans (hcell (by assumption)))
  · have htop := hm.stacked.top_le_of_mem hmem
    change start + count + 3 ≤ lo at htop
    refine .inr ⟨start, count, id, parent, q, new, hmem, rfl, ?_, hq, hframe.trans ?_, hres⟩
    · exact hcells.congr fun i _ hi => (hcell (by omega)).symm
    · rw [Moved.extract_eq h.capacity fun i _ hi => hcell (by omega)]

end Unloaded

/-! ## The calling convention -/

/-- The values are on top of the stack, above all that the registers name. -/
structure OnTop (segs : List Segment) (args : List Value) (m : Machine) : Prop where
  laid : Arranged segs { m with sp := m.sp - args.length }
  values : (m.stack.extract (m.sp - args.length) m.sp).toList = args

/-- The values on top are the arguments of a call. -/
structure Passed (segs : List Segment) (args : List Value) (m : Machine) : Prop
    extends OnTop segs args m where
  argc : m.argc = args.length

/-- The slots of the frame of a procedure. If it takes more arguments than it has slots for, `rest`
is the last one. -/
def Arity.layout (a : Arity) (args : List Value) (rest : Value) : List Value :=
  args.take (a.required + a.optional) ++
    List.replicate (a.required + a.optional - args.length + a.extra) .unbound ++
    if a.variadic then [rest] else []

theorem Arity.length_layout (args : List Value) (rest : Value) :
    (a.layout args rest).length = a.slots := by
  unfold layout slots
  cases a.variadic <;> simp <;> omega

structure Entered (segs : List Segment) (args : List Value) (a : Arity) (m m' : Machine) :
    Prop where
  defined : ∀ i, (m'.readSlot 0 i).toOption.isSome ↔ i < a.slots
  slots : ∃ rest, (∀ i, (m'.readSlot 0 i).toOption = (a.layout args rest)[i]?) ∧
    m'.heap.items rest = .ok (args.drop (a.required + a.optional)) ∧
    (args.length ≤ a.required + a.optional → rest = .nil)
  parent : ∃ f, m'.frame? m'.env = some f ∧ m'.resolve f.parent = m'.resolve m.env
  outer : ∀ depth index, (m'.readSlot (depth + 1) index).mapError Stop.onHeap =
    (m.readSlot depth index).mapError Stop.onHeap
  rest : m' = { m with
    stack := m'.stack, sp := m'.sp, bp := m'.bp, env := m'.env, heap := m'.heap }
  below : Forwarded segs (m.sp - args.length) m m'

namespace OnTop

theorem bounds (hm : OnTop segs args m) : args.length ≤ m.sp ∧ m.sp ≤ m.capacity := by
  have hsize := congrArg List.length hm.values
  have hroom : m.sp - args.length ≤ m.stack.size := hm.laid.room
  rw [Array.length_toList, Array.size_extract] at hsize
  unfold capacity
  omega

theorem value (hm : OnTop segs args m) {i : Nat} (hi : i < args.length) :
    m.stack[m.sp - args.length + i]? = args[i]? := by
  obtain ⟨hle, hroom⟩ := hm.bounds
  unfold capacity at hroom
  nth_rewrite 2 [← hm.values]
  rw [Array.getElem?_toList, Array.getElem?_extract, if_pos (by omega)]

theorem arranged (hm : OnTop segs args m) : Arranged segs m :=
  hm.laid.raise (Nat.sub_le ..) hm.bounds.2

end OnTop

namespace Passed

/-- The frame may be built once the further arguments are gone. -/
theorem entered (hm : Passed segs args m) {slots : Array Value} {rest : Value} (hun : Unloaded m m₁)
    (hlo : m.sp - args.length ≤ m₁.sp) (hroom : m₁.sp ≤ m₁.capacity)
    (hfr : Framed segs (m.sp - args.length) slots m₁ m')
    (hslots : slots.toList = a.layout args rest)
    (hrest : m₁.heap.spine rest = .ok (args.drop (a.required + a.optional), .nil))
    (hnil : args.length ≤ a.required + a.optional → rest = .nil) : Entered segs args a m m' := by
  have hlaid := hun.arranged hlo hm.laid
  have hm₁ : Arranged segs m₁ := hlaid.raise hlo hroom
  have hread (i : Nat) : (m'.readSlot 0 i).toOption = (a.layout args rest)[i]? := by
    rw [hfr.readSlot_zero, ← hslots, Array.getElem?_toList]
  obtain ⟨w, target, hmoved, -, hgrown, -⟩ := hfr.keptBelow
  have hpairs : m'.heap.pairs = m₁.heap.pairs := hgrown.pairs.trans hmoved.heap.pairs
  obtain ⟨parent, hframe, -, hparent⟩ := hfr.frame
  refine
    { defined := fun i => ?_
      slots := ⟨rest, hread, Heap.items_of_spine ?_, hnil⟩
      parent := ⟨_, hframe, ?_⟩
      outer := fun depth index => ?_
      rest := ?_
      below := hun.forwarded hlo hm.laid (hfr.keptBelow.forwarded hlaid) }
  · rw [hread, Option.isSome_iff_exists, ← a.length_layout args rest]
    simp [List.getElem?_eq_some_iff]
  · rw [Heap.spine, hpairs]
    exact Heap.walk_extended (hpairs ▸ .refl _) hrest
  · rw [hparent, hun.rest]
  · rw [hfr.readSlot_succ hlaid hm₁, hun.readSlot hlo hm.laid hm.arranged hm₁]
  · rw [hfr.rest, hun.rest]

theorem enterFrame_fixed (hm : Passed segs args m) (hvar : a.variadic = false)
    (hreq : a.required ≤ args.length) (hmost : args.length ≤ a.required + a.optional) :
    ∃ m', enterFrame a m = .ok () m' ∧ Entered segs args a m m' := by
  obtain ⟨hle, hroom⟩ := hm.bounds
  obtain ⟨m', hrun, hbuilt⟩ := hm.arranged.pushFrame_built hle
    (a.required + a.optional - args.length + a.extra)
  have hnone : m.heap.spine .nil = .ok (args.drop (a.required + a.optional), .nil) := by
    rw [List.drop_eq_nil_of_le hmost, Heap.spine_nil]
  refine ⟨m', ?_, hm.entered (.refl m) (Nat.sub_le ..) hroom (hbuilt.framed hm.laid hle) ?_ hnone
    fun _ => rfl⟩
  · simp only [enterFrame, layOutFrame, get_bind_apply, registers_eq, hvar, hm.argc,
      Bool.false_eq_true, if_false]
    rw [bind_ok (checkArgc_ok (hm.argc ▸ hreq) (hm.argc ▸ hmost)),
      query_bind_ok (distance_ok hmost)]
    exact hrun
  · rw [Array.toList_append, hm.values, Arity.layout, hvar, List.take_of_length_le hmost]
    simp

/-- The further arguments are taken off first, and their list is set last. -/
theorem enterFrame_variadic (hm : Passed segs args m) (hvar : a.variadic = true)
    (hreq : a.required ≤ args.length) :
    ∃ m', enterFrame a m = .ok () m' ∧ Entered segs args a m m' := by
  obtain ⟨hle, hroom⟩ := hm.bounds
  generalize hfixed : a.required + a.optional = fixed
  generalize hsupplied : min args.length fixed = supplied
  have hlen : (args.drop fixed).length = args.length - fixed := List.length_drop
  have hvalues : ∀ i < (args.drop fixed).length,
      m.stack[m.sp - (args.drop fixed).length + i]? = (args.drop fixed)[i]? := by
    intro i hi
    rw [hlen] at hi ⊢
    rw [List.getElem?_drop, ← hm.value (by omega)]
    congr 1
    omega
  obtain ⟨rest, m₁, hpop, hun, hsp, hspine⟩ := popOnto_eq (by omega) hvalues Heap.spine_nil
  rw [hlen] at hpop hsp
  have hroom₁ : m₁.sp ≤ m₁.capacity := by
    rw [hun.capacity]
    omega
  have hlo : m.sp - args.length = m₁.sp - supplied := by omega
  have hlaid := hun.arranged (by omega) hm.laid
  have hm₁ : Arranged segs m₁ := hlaid.raise (by omega) hroom₁
  obtain ⟨m₂, hrun₂, hbuilt₂⟩ :=
    hm₁.pushFrame_built (show supplied ≤ m₁.sp by omega) (fixed - supplied + a.extra + 1)
  rw [List.replicate_succ'] at hbuilt₂
  obtain ⟨m', hrun, hbuilt⟩ := hbuilt₂.writeLast (by omega) rest
  rw [List.length_replicate, show supplied + (fixed - supplied + a.extra) =
    fixed + a.extra by omega]
    at hrun
  have hframed := hbuilt.framed (by rwa [hlo] at hlaid) (by omega)
  rw [← hlo] at hframed
  have hslots : (m₁.stack.extract (m.sp - args.length) m₁.sp).toList = args.take fixed := by
    rw [Moved.extract_eq hun.capacity fun i _ hi => hun.cells i hi]
    rw [Cells.toList_extract_take m.stack (show m₁.sp ≤ m.sp by omega), hm.values,
      show m₁.sp - (m.sp - args.length) = supplied by omega, ← hsupplied, ← List.take_take]
    exact List.take_of_length_le (List.length_take_le' ..)
  refine ⟨m', ?_, hm.entered hun (by omega) hroom₁ hframed ?_
    (by rw [hfixed, hspine, List.append_nil]) fun hfew => ?_⟩
  · simp only [enterFrame, layOutFrame, get_bind_apply, registers_eq, hvar, hm.argc, if_true]
    rw [bind_ok (checkArgc_ok (hm.argc ▸ hreq) (hm.argc ▸ le_rfl)), hfixed, bind_ok hpop, hsupplied]
    exact (bind_ok hrun₂).trans hrun
  · rw [Array.toList_append, hslots, Arity.layout, hvar, hfixed,
      show fixed - supplied = fixed - args.length by omega]
    simp
  · rw [show args.length - fixed = 0 by omega] at hpop
    cases hpop
    rfl

theorem enterFrame_few (hm : Passed segs args m) (hfew : args.length < a.required) :
    enterFrame a m = .error (.fault (.tooFewArguments a.required args.length)) m := by
  have hcheck (most : Nat) : checkArgc a.required most m =
      .error (.fault (.tooFewArguments a.required args.length)) m := by
    simp only [checkArgc, get_bind_apply, registers_eq, hm.argc, if_pos hfew]
    rfl
  simp only [enterFrame, layOutFrame, get_bind_apply]
  cases a.variadic with
  | true => exact bind_error (hcheck _)
  | false => exact bind_error (hcheck _)

theorem enterFrame_many (hm : Passed segs args m) (hvar : a.variadic = false)
    (hmany : a.required + a.optional < args.length) :
    enterFrame a m =
      .error (.fault (.tooManyArguments (a.required + a.optional) args.length)) m := by
  have hcheck : checkArgc a.required (a.required + a.optional) m =
      .error (.fault (.tooManyArguments (a.required + a.optional) args.length)) m := by
    have hreq : ¬args.length < a.required := by omega
    simp only [checkArgc, get_bind_apply, registers_eq, hm.argc, if_neg hreq, if_pos hmany]
    rfl
  simp only [enterFrame, layOutFrame, get_bind_apply, hvar, Bool.false_eq_true, if_false]
  exact bind_error hcheck

/-- Entering succeeds just if the number of arguments is right, and then the frame is as the arity
says, whether there was room for it on the stack or not. Otherwise nothing changes but that the
fault says what the bound is. -/
theorem calling_convention (hm : Passed segs args m) (a : Arity) :
    ((∃ m', enterFrame a m = .ok () m') ↔ a.required ≤ args.length ∧
      (a.variadic = true ∨ args.length ≤ a.required + a.optional)) ∧
    (args.length < a.required →
      enterFrame a m = .error (.fault (.tooFewArguments a.required args.length)) m) ∧
    (a.variadic = false → a.required + a.optional < args.length →
      enterFrame a m =
        .error (.fault (.tooManyArguments (a.required + a.optional) args.length)) m) ∧
    ∀ m', enterFrame a m = .ok () m' → Entered segs args a m m' := by
  have hok (hreq : a.required ≤ args.length)
      (hmost : a.variadic = true ∨ args.length ≤ a.required + a.optional) :
      ∃ m', enterFrame a m = .ok () m' ∧ Entered segs args a m m' := by
    cases hvar : a.variadic with
    | true => exact hm.enterFrame_variadic hvar hreq
    | false => exact hm.enterFrame_fixed hvar hreq (hmost.resolve_left (by simp [hvar]))
  have hright {m' : Machine} (hrun : enterFrame a m = .ok () m') : a.required ≤ args.length ∧
      (a.variadic = true ∨ args.length ≤ a.required + a.optional) := by
    by_contra hwrong
    rcases Nat.lt_or_ge args.length a.required with hfew | hreq
    · rw [hm.enterFrame_few hfew] at hrun
      cases hrun
    · have hvar : a.variadic = false := by
        by_contra hvar
        exact hwrong ⟨hreq, .inl (by simpa using hvar)⟩
      have hmany : a.required + a.optional < args.length := by
        by_contra hmany
        exact hwrong ⟨hreq, .inr (Nat.not_lt.1 hmany)⟩
      rw [hm.enterFrame_many hvar hmany] at hrun
      cases hrun
  refine ⟨⟨fun ⟨m', hrun⟩ => hright hrun, fun ⟨hreq, hmost⟩ => ?_⟩, hm.enterFrame_few,
    hm.enterFrame_many, fun m' hrun => ?_⟩
  · obtain ⟨m', hrun, -⟩ := hok hreq hmost
    exact ⟨m', hrun⟩
  · obtain ⟨hreq, hmost⟩ := hright hrun
    obtain ⟨m'', hrun', hentered⟩ := hok hreq hmost
    cases hrun.symm.trans hrun'
    exact hentered

end Passed

theorem Machine.insideCall_passed :
    Passed [.point 5 1 0, .frame 0 2 0] [.fixnum 3] { insideCall with argc := 1 } where
  laid := { insideCall_arranged with
    room := by decide
    stacked := ⟨by decide, insideCall_arranged.stacked.2⟩ }
  argc := rfl
  values := rfl

/-- There is no room for a descriptor, so the frame is built on the heap. Its last slot is the list
of the only argument. -/
theorem Machine.insideCall_calling_convention :
    Passed [.point 5 1 0, .frame 0 2 0] [.fixnum 3] { insideCall with argc := 1 } ∧
    ∃ m', enterFrame { required := 0, extra := 1, variadic := true } { insideCall with argc := 1 } =
        .ok () m' ∧ (m'.readSlot 0 0).toOption = some .unbound ∧
      ∃ rest, (m'.readSlot 0 1).toOption = some rest ∧ m'.heap.items rest = .ok [.fixnum 3] := by
  obtain ⟨hiff, -, -, hentered⟩ :=
    insideCall_passed.calling_convention { required := 0, extra := 1, variadic := true }
  obtain ⟨m', hrun⟩ := hiff.2 ⟨by decide, .inl rfl⟩
  obtain ⟨rest, hread, hitems, -⟩ := (hentered m' hrun).slots
  exact ⟨insideCall_passed, m', hrun, hread 0, rest, hread 1, hitems⟩

end LispMachine
