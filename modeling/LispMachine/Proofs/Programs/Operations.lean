import LispMachine.Proofs.Programs.Activations

/-! # What operations do to a procedure

The operations that programs are made of, as a procedure sees them. Those that put something on the
stack succeed if it fits there together with the operands of the current procedure alone, since a
collection moves all else away.
-/

namespace LispMachine

open Machine

variable {segs : List Segment} {m w m' : Machine} {slots operands args : List Value}
  {callers : List Suspended} {v : Value} {n : Nat}

/-- Nothing has changed but what is on the stack and what has moved from there. -/
structure Machine.Alike (m m' : Machine) : Prop where
  rest : m' = { m with
    stack := m'.stack, sp := m'.sp, bp := m'.bp, env := m'.env, cont := m'.cont, heap := m'.heap }
  capacity : m'.capacity = m.capacity
  closures : m'.heap.closures = m.heap.closures

namespace Machine.Alike

theorem refl (m : Machine) : Alike m m := ⟨rfl, rfl, rfl⟩

theorem trans (h : Alike m w) (h' : Alike w m') : Alike m m' where
  rest := by rw [h'.rest, h.rest]
  capacity := h'.capacity.trans h.capacity
  closures := h'.closures.trans h.closures

end Machine.Alike

theorem Reclaimed.alike (h : Reclaimed segs m m') : Alike m m' := by
  obtain ⟨w, target, hw, -, hcol, -⟩ := h
  exact ⟨by rw [hcol.heap]; exact hcol.rest, hcol.capacity, by rw [hcol.heap, hw.heap.closures]⟩

namespace Active

/-! ## Operands -/

/-- Whatever stands above the base now is what the procedure has as its operands. -/
theorem withOperands (hm : Active segs slots operands callers m) {stack : Array Value} {sp : Nat}
    (hcells : ∀ i < m.base, stack[i]? = m.stack[i]?) (hsize : stack.size = m.stack.size)
    (hle : m.base ≤ sp) (hroom : sp ≤ m.capacity)
    (hvalues : (stack.extract m.base sp).toList = args) :
    Active segs slots args callers { m with stack, sp } := by
  have hlast : KeptBelow segs m.base m { m with stack, sp } := .of_cells hm.laid hsize hcells rfl
  exact
    { laid :=
        { hm.laid with
          room := by
            change m.base ≤ stack.size
            exact hsize ▸ hm.laid.room
          stacked := hm.laid.stacked.congr_below hcells (.refl _) }
      frames_le := hm.frames_le
      base_le := hle
      room := by
        change sp ≤ stack.size
        exact hsize ▸ hroom
      values := hvalues
      slots := hlast.hasSlots hm.laid hm.laid.env hm.slots
      callers := hlast.leadsTo hm.laid hm.base_le hle hm.laid.cont hm.callers }

theorem makeRoom (hm : Active segs slots operands callers m) {f : Fault}
    (hroom : operands.length + n ≤ m.capacity) :
    ∃ segs' m', Machine.makeRoom n f m = .ok () m' ∧ Active segs' slots operands callers m' ∧
      m'.sp + n ≤ m'.capacity ∧ Alike m m' ∧ (m.cont.top ≤ m.bp → m'.cont.top ≤ m'.bp) := by
  have hkept : m.sp - m.kept = operands.length := by
    have := hm.sp_eq
    rw [show m.kept = m.base from Nat.min_eq_left hm.base_le]
    omega
  obtain ⟨m', hrun, hfit, rfl | hrec⟩ := hm.wellLaid.toArranged.makeRoom (f := f) (hkept ▸ hroom)
  · exact ⟨segs, m', hrun, hm, hfit, .refl m', id⟩
  · obtain ⟨hm', -, hbase⟩ := hm.reclaimed hrec
    refine ⟨[], m', hrun, hm', hfit, hrec.alike, fun _ => ?_⟩
    have : m'.cont.top ≤ m'.base := Nat.le_max_right ..
    omega

theorem push (hm : Active segs slots operands callers m) (hroom : operands.length + 1 ≤ m.capacity)
    (v : Value) :
    ∃ segs' m', Machine.push v m = .ok () m' ∧ Active segs' slots (operands ++ [v]) callers m' ∧
      Alike m m' ∧ (m.cont.top ≤ m.bp → m'.cont.top ≤ m'.bp) := by
  obtain ⟨segs', m₁, hrun, hm₁, hfit, halike, hdirect⟩ := hm.makeRoom (f := .stackOverflow) hroom
  have hle := hm₁.base_le
  have hpush : Machine.push v m = .ok () { m₁ with
      stack := m₁.stack.setIfInBounds m₁.sp v, sp := m₁.sp + 1 } := by
    rw [← push_room hfit, Machine.push, bind_ok hrun, bind_ok (makeRoom_of_room hfit)]
  have hwrite : m₁.stack.setIfInBounds m₁.sp v = Cells.write m₁.stack m₁.sp ([v] ++ []) := by
    rw [List.append_nil, Cells.write_cons, Cells.write_nil]
  refine ⟨segs', _, hpush, hm₁.withOperands (fun i hi => ?_) (by simp) (by omega) hfit ?_,
    halike.trans ⟨rfl, by simp [capacity], rfl⟩, hdirect⟩
  · exact Array.getElem?_setIfInBounds_ne (by omega)
  · have hone : m₁.sp + 1 = m₁.sp + [v].length := rfl
    rw [hwrite, hone, Cells.extract_write_append hle (by exact hfit), Array.toList_append,
      hm₁.values]

theorem pop (hm : Active segs slots (operands ++ [v]) callers m) :
    Machine.pop m = .ok v m.popped ∧ Active segs slots operands callers m.popped := by
  have hsp := hm.sp_eq
  have hroom := hm.room
  rw [List.length_append, List.length_singleton] at hsp
  have htop : m.top? = some v := by
    have hlast : (m.stack.extract m.base m.sp)[operands.length]? = some v := by
      rw [← Array.getElem?_toList, hm.values, List.getElem?_concat_length]
    rw [Array.getElem?_extract, if_pos (by unfold capacity at hroom; omega)] at hlast
    rw [top?, if_neg (by omega), show m.sp - 1 = m.base + operands.length by omega, hlast]
  have hcells {i : Nat} (hi : i < m.sp - 1) : m.popped.stack[i]? = m.stack[i]? :=
    Array.getElem?_setIfInBounds_ne (by omega)
  refine ⟨pop_of_top htop, hm.withOperands (fun i hi => hcells (by omega)) (by simp) (by omega)
    (by omega) ?_⟩
  have hvalues : m.popped.stack.extract m.base (m.sp - 1) = m.stack.extract m.base (m.sp - 1) :=
    Moved.extract_eq (by simp [popped]) fun i _ hi => hcells hi
  have htake : (m.stack.extract m.base (m.sp - 1)).toList =
      (m.stack.extract m.base m.sp).toList.take operands.length := by
    rw [Cells.toList_extract_take m.stack (Nat.sub_le m.sp 1)]
    congr 1
    omega
  exact (congrArg Array.toList hvalues).trans (by rw [htake, hm.values, List.take_left' rfl])

end Active

/-! ## Frames -/

structure Ready (segs : List Segment) (args : List Value) (callers : List Suspended) (m : Machine) :
    Prop extends OnTop segs args m where
  callers : LeadsTo m m.cont callers

theorem Framed.alike {lo : Nat} {items : Array Value} (h : Framed segs lo items m m') :
    Alike m m' := by
  obtain ⟨w, target, hmoved, -, hgrown, hcap, -⟩ := h.keptBelow
  have hcont : m'.cont = m.cont := by rw [h.rest]
  exact ⟨by rw [hcont]; exact h.rest, hcap, hgrown.closures.trans hmoved.heap.closures⟩

theorem Built.le_sp {tail : List Value} (h : Built segs m n tail m') : m.sp - n ≤ m'.sp := by
  cases h with
  | onStack =>
    change m.sp - n ≤ m.sp + tail.length + 3
    omega
  | @onHeap _ w _ _ hregs =>
    change m.sp - n ≤ w.sp - n
    rw [hregs.sp]

theorem Ready.enterFrame (hm : Ready segs args callers m) (hargc : m.argc = args.length) :
    ∃ segs' m', Machine.enterFrame (.fixed args.length) m = .ok () m' ∧
      Active segs' args [] callers m' ∧ Alike m m' ∧ m'.cont.top ≤ m'.bp := by
  obtain ⟨hle, hroom⟩ := hm.bounds
  obtain ⟨m', hrun, hbuilt⟩ := hm.arranged.pushFrame_built hle 0
  have hfr := hbuilt.framed hm.laid hle
  have halike := hfr.alike
  have hcont : m'.cont = m.cont := by rw [hfr.rest]
  obtain ⟨segs', harr, hsub, hnew⟩ := hfr.arranged
  obtain ⟨parent, hframe, -⟩ := hfr.frame
  have htop : m'.cont.top ≤ m'.bp := hfr.bp ▸ harr.top_le
  have hbase : m'.base = m'.sp := by
    rw [base, Nat.max_eq_left htop, hfr.bp]
  have hargs : (m.stack.extract (m.sp - args.length) m.sp).toList = args := hm.values
  refine ⟨segs', m', ?_, ⟨?_, fun start count id hmem => ?_, hbase.le, harr.room, ?_, ?_, ?_⟩,
    halike, htop⟩
  · simp only [Machine.enterFrame, layOutFrame, get_bind_apply, registers_eq, Arity.fixed, hargc,
      Nat.add_zero, Bool.false_eq_true, if_false]
    rw [bind_ok (checkArgc_ok hargc.ge hargc.le), query_bind_ok (distance_ok le_rfl), Nat.sub_self]
    exact hrun
  · rw [hbase]
    exact harr
  · rw [hfr.bp]
    exact harr.stacked.top_le_of_mem hmem
  · rw [hbase]
    simp
  · refine ⟨_, hframe, ?_⟩
    rw [List.replicate_zero, Array.toList_append, hargs]
    simp
  · rw [hcont]
    exact hfr.keptBelow.leadsTo hm.laid (Nat.sub_le ..) hbuilt.le_sp hm.laid.cont hm.callers

/-- A procedure whose environment is on the heap takes all operands as its arguments. -/
theorem Active.ready (hm : Active segs slots args callers m) {env : Env}
    (he : env.ClosedIn m.heap) :
    Ready segs args callers { m with env } where
  laid := by
    have hsp := hm.sp_eq
    rw [show m.sp - args.length = m.base by omega]
    exact { hm.laid with env := .closed he }
  values := by
    have hsp := hm.sp_eq
    rw [show m.sp - args.length = m.base by omega]
    exact hm.values
  callers := hm.callers.of_same rfl rfl le_rfl

theorem Ready.withEnv (hm : Ready segs args callers m) {env : Env} (he : env.ClosedIn m.heap) :
    Ready segs args callers { m with env } where
  laid := { hm.laid with env := .closed he }
  values := hm.values
  callers := hm.callers.of_same rfl rfl le_rfl

/-- A frame may be left if no return point is on the stack. -/
theorem Active.reuseFrame (hm : Active segs slots args callers m) (hcont : m.cont.ClosedIn m.heap) :
    ∃ segs' m', Machine.reuseFrame args.length m = .ok () m' ∧ Ready segs' args callers m' ∧
      Alike m m' := by
  obtain ⟨f, hframe, -⟩ := hm.slots
  have hne : m.env ≠ .empty := by
    intro h
    rw [h] at hframe
    cases hframe
  rcases innermost_of_frame? hframe with ⟨r, hin, hf⟩ | ⟨start, count, hin, -⟩
  · refine ⟨segs, { m with env := f.parent }, ?_, ?_, ⟨rfl, rfl, rfl⟩⟩
    · rw [reuseFrame_eq hne hin]
      rfl
    · exact hm.ready (hm.laid.linked.frames f (Array.mem_of_getElem? hf))
  · cases henv : m.env with
    | empty => exact absurd henv hne
    | onHeap r =>
      rw [henv, innermost_onHeap] at hin
      cases hr : m.heap.frame r with
      | error s =>
        rw [hr] at hin
        cases hin
      | ok f =>
        rw [hr] at hin
        cases hin
    | onStack e =>
      have harr := hm.wellLaid.toArranged
      obtain ⟨start', count', id, rest, rfl, hs, -, ⟨q, hq, -⟩ | ⟨parent, hcells, hp⟩⟩ :=
        harr.frameIn (henv ▸ harr.env)
      · rw [henv, innermost, descriptor_moved hq] at hin
        change (do return (Slots.onHeap ⟨q⟩, (← m.heap.frame ⟨q⟩).parent)) = _ at hin
        obtain ⟨f, -, hin⟩ := except_bind_eq_ok hin
        cases hin
      · have htop : m.cont.top = 0 := by
          generalize m.cont = cont at hcont
          cases cont with
          | onStack => exact hcont.elim
          | _ => rfl
        have hsp := hm.sp_eq
        have hle := hm.frames_le _ _ _ (mem_of_cons_suffix hs)
        have hbp : m.bp ≤ m.base := Nat.le_max_left ..
        have hargs : (m.stack.extract (m.sp - args.length) m.sp).toList = args := by
          rw [show m.sp - args.length = m.base by omega]
          exact hm.values
        have hpassed := harr.passed_vacated hs hp (by omega) (by omega) hargs
        refine ⟨rest, m.vacated start' args.length parent,
          reuseFrame_live henv hcells (by omega) hm.room, ?_,
          ⟨rfl, by simp [vacated, capacity], rfl⟩⟩
        exact ⟨⟨{ hpassed.laid with }, hpassed.values⟩, hm.callers.of_closed hcont hm.laid.linked
          (.refl _)⟩

/-! ## Calling and returning -/

theorem returnPoint_called (hbp : m.bp ≤ m.sp) (hroom : m.sp + 4 ≤ m.capacity) (target : Nat) :
    (m.called target).returnPoint (m.sp + 4) = .ok ⟨target, m.bp, m.env, m.cont⟩ := by
  have hpoint : PointCells (m.called target).stack m.sp 0 ⟨target, m.bp, m.env, m.cont⟩ :=
    pointCells_called rfl hbp hroom target
  exact hpoint.returnPoint le_rfl

/-- The procedure becomes a caller, with its operands. It must not have left a return point
already. -/
theorem Active.pushReturnPoint (hm : Active segs slots operands callers m)
    (hdirect : m.cont.top ≤ m.bp) (hroom : operands.length + 4 ≤ m.capacity) {offset : Int}
    {target : Nat} (ht : m.relative offset = .ok target) :
    ∃ segs' m', Machine.pushReturnPoint offset m = .ok () m' ∧
      Active segs' slots [] (⟨target, operands, slots⟩ :: callers) m' ∧ Alike m m' := by
  obtain ⟨segs', m₁, hrun, hm₁, hfit, halike, hdirect₁⟩ :=
    hm.makeRoom (f := .continuationOverflow) hroom
  have hbase : m₁.base = m₁.bp := Nat.max_eq_left (hdirect₁ hdirect)
  have hbp := hm₁.wellLaid.bp_le
  have hcells {i : Nat} (hi : i < m₁.sp) : (m₁.called target).stack[i]? = m₁.stack[i]? :=
    getElem?_called hi target
  have hsize := m₁.size_called target
  have hlast : KeptBelow segs' m₁.base m₁ (m₁.called target) :=
    .of_cells hm₁.laid hsize (fun i hi => hcells (by omega)) rfl
  have hlaid := (hm₁.wellLaid.called hfit target).1
  have hbase' : (m₁.called target).base = (m₁.called target).sp := by
    change max m₁.bp (m₁.sp + 4) = m₁.sp + 4
    omega
  have hexec : Machine.pushReturnPoint offset m = .ok () (m₁.called target) := by
    rw [Machine.pushReturnPoint, query_bind_ok ht, bind_ok hrun, pushReturnCells hfit]
  have hsaved : ((m₁.called target).stack.extract m₁.bp (m₁.sp + 4 - 4)).toList = operands := by
    rw [Nat.add_sub_cancel, Moved.extract_eq hsize fun i _ hi => hcells hi, ← hbase, hm₁.values]
  have hslots := hlast.hasSlots hm₁.laid hm₁.laid.env hm₁.slots
  have hcallers := hlast.leadsTo hm₁.laid hm₁.base_le (hm₁.base_le.trans (Nat.le_add_right ..))
    hm₁.laid.cont hm₁.callers
  refine ⟨_, _, hexec, ⟨?_, hlaid.frames_le, hbase'.le, hlaid.room, ?_, hslots, ?_⟩,
    halike.trans ⟨rfl, hsize, rfl⟩⟩
  · rw [hbase']
    exact hlaid.toArranged
  · rw [hbase']
    simp
  · rw [← hsaved]
    exact .point (returnPoint_called hbp hfit target) (hdirect₁ hdirect) hslots hcallers

theorem Arranged.lowered (hm : Arranged segs m) {lo : Nat} (hlo : lo ≤ m.sp) (henv : m.env.top ≤ lo)
    (hcont : m.cont.top ≤ lo) : ∃ sub, sub <:+ segs ∧ Arranged sub { m with sp := lo } := by
  obtain ⟨sub, hsub, hst, hmem⟩ := hm.stacked.below lo
  refine ⟨sub, hsub, hlo.trans hm.room, hst, ?_, ?_, hm.linked⟩
  · have he := hm.env
    change EnvIn m.heap sub m.env
    generalize m.env = env at he henv
    cases he with
    | closed he => exact .closed he
    | onStack h => exact .onStack (hmem _ h henv)
  · have hc := hm.cont
    change ContIn m.heap sub m.cont
    generalize m.cont = cont at hc hcont
    cases hc with
    | closed hc => exact .closed hc
    | onStack h => exact .onStack (hmem _ h hcont)

namespace Active

theorem ret_done (hm : Active segs slots operands [] m) :
    Machine.ret m = .ok () { m with runnable := false } := by
  have hc : m.cont = .empty := by
    have h := hm.callers
    generalize m.cont = cont at h
    cases h
    rfl
  exact ret_of_empty hc

theorem ret_object {k : Ref .continuation} {o : Continuation} {ip : Nat} {slots' : List Value}
    (hm : Active segs slots operands (⟨ip, o.saved.toList, slots'⟩ :: callers) m)
    (hcont : m.cont = .onHeap k) (hk : m.heap.continuation k = .ok o) (hr : o.resume = .code ip)
    (hslots : m.HasSlots o.env slots') (hcallers : LeadsTo m o.prev callers)
    (hroom : operands.length + o.saved.size ≤ m.capacity) :
    ∃ segs' m', Machine.ret m = .ok () m' ∧ Active segs' slots' o.saved.toList callers m' ∧
      Alike { m with ip } m' ∧ m'.cont.top ≤ m'.bp := by
  have harr := hm.wellLaid.toArranged
  have hbase : m.base = m.bp := by
    rw [base, hcont]
    exact Nat.max_zero _
  have hsp := hm.sp_eq
  obtain ⟨m', hrun, hres, harr'⟩ := harr.resume hcont hk hr (by omega)
  obtain ⟨henv, hprev⟩ := harr.linked.continuations o (Heap.mem_of_continuation hk)
  have hcont' : m'.cont = o.prev := by rw [hres.rest]
  have henv' : m'.env = o.env := by rw [hres.rest]
  have htop : m'.cont.top = 0 := by
    rw [hcont']
    generalize o.prev = prev at hprev
    cases prev with
    | onStack => exact hprev.elim
    | _ => rfl
  have hbase' : m'.base = m'.bp := by rw [base, htop, Nat.max_zero]
  have hle := hres.sp
  refine ⟨[], m', (ret_of_onHeap hcont).trans hrun, ⟨?_, (fun _ _ _ h => by cases h), by omega,
    harr'.room, ?_, ?_, ?_⟩, ⟨?_, hres.capacity, hres.heap.closures⟩, by omega⟩
  · exact .of_closed (by have := harr'.room; rw [hbase']; simp only [capacity] at this ⊢; omega)
      harr'.env.closed_of_nil harr'.cont.closed_of_nil harr'.linked
  · rw [hbase', hres.values]
  · rw [henv']
    exact hslots.of_closed henv hres.heap
  · rw [hcont']
    exact hcallers.of_closed hprev harr.linked hres.heap
  · rw [hcont', henv']
    exact hres.rest

theorem ret_point {pos : Nat} {p : ReturnPoint} {slots' : List Value}
    (hm : Active segs slots operands
      (⟨p.ip, (m.stack.extract p.bp (pos - 4)).toList, slots'⟩ :: callers) m)
    (hcont : m.cont = .onStack pos) (hp : m.returnPoint pos = .ok p) (hle : p.prev.top ≤ p.bp)
    (hslots : m.HasSlots p.env slots') (hcallers : LeadsTo m p.prev callers) :
    ∃ segs' m', Machine.ret m = .ok () m' ∧
      Active segs' slots' (m.stack.extract p.bp (pos - 4)).toList callers m' ∧
      Alike { m with ip := p.ip } m' ∧ m'.cont.top ≤ m'.bp := by
  obtain ⟨start, count, id, rest, q, env, rfl, hs, hpoint, hres, hrun, harr'⟩ :=
    hm.wellLaid.toArranged.ret_point hcont
  obtain rfl : q = p :=
    Except.ok.inj ((hpoint.returnPoint (returnPoint_bounds hp).2.1).symm.trans hp)
  have hbp := hpoint.bp_le
  have hcells {i : Nat} (hi : i < start + count) :
      (m.returned (start + count + 4) q env).stack[i]? = m.stack[i]? :=
    Cells.getElem?_clear_lt (by omega)
  have hsize : (m.returned (start + count + 4) q env).stack.size =
      m.stack.size := by simp [returned]
  have htop : env.top ≤ q.bp := by
    have he : EnvIn m.heap rest env := harr'.env
    cases he with
    | closed he =>
      cases env with
      | onStack => exact he.elim
      | _ => exact Nat.zero_le _
    | onStack h => exact hpoint.frames_le _ _ _ h
  obtain ⟨sub, hsub, hlow⟩ := harr'.lowered (show q.bp ≤ start + count + 4 - 4 by omega) htop hle
  have hbase : (m.returned (start + count + 4) q env).base = q.bp := Nat.max_eq_left hle
  -- the machine as it is just before the cells above are cleared
  have hlow₀ : Arranged sub { m with env, cont := q.prev, sp := q.bp } :=
    { hlow with
      room := by
        have := hlow.room
        simp only [capacity, hsize] at this ⊢
        exact this
      stacked := hlow.stacked.congr_below
        (fun i hi => (hcells (by change i < q.bp at hi; omega)).symm) (.refl _) }
  have hlast : KeptBelow sub q.bp { m with env, cont := q.prev }
      (m.returned (start + count + 4) q env) :=
    .of_cells hlow₀ hsize (fun i hi => hcells (by omega)) rfl
  have hslots₀ : HasSlots { m with env, cont := q.prev } env slots' := by
    obtain ⟨f, hf, hfs⟩ := hslots
    exact HasSlots.of_same ⟨f, (frame?_resolve hres).trans hf, hfs⟩ rfl rfl
  have hpos := returnPoint_bounds hp
  refine ⟨sub, _, hrun, ⟨?_, fun start' count' id' h => ?_, ?_, harr'.room, ?_, ?_, ?_⟩,
    ⟨rfl, hsize, rfl⟩, hle⟩
  · rw [hbase]
    exact hlow
  · exact hpoint.frames_le start' count' id' (hsub.subset h)
  · rw [hbase]
    change q.bp ≤ start + count + 4 - 4
    omega
  · rw [hbase]
    refine congrArg Array.toList (Moved.extract_eq hsize fun i _ hi => hcells ?_)
    change i < start + count + 4 - 4 at hi
    omega
  · exact hlast.hasSlots hlow₀ hlow₀.env hslots₀
  · exact hlast.leadsTo hlow₀ (by change q.bp ≤ m.sp; omega)
      (by change q.bp ≤ start + count + 4 - 4; omega) hlow₀.cont (hcallers.of_same rfl rfl le_rfl)

/-- The caller is as it was, whether it had stayed on the stack or not. -/
theorem ret {c : Suspended} (hm : Active segs slots operands (c :: callers) m)
    (hroom : operands.length + c.operands.length ≤ m.capacity) :
    ∃ segs' m', Machine.ret m = .ok () m' ∧ Active segs' c.slots c.operands callers m' ∧
      Alike { m with ip := c.ip } m' ∧ m'.cont.top ≤ m'.bp := by
  have h := hm.callers
  obtain ⟨cont, hcont⟩ : ∃ cont, m.cont = cont := ⟨_, rfl⟩
  rw [hcont] at h
  cases h with
  | object hk hr hslots hcallers => exact hm.ret_object hcont hk hr hslots hcallers hroom
  | point hp hle hslots hcallers => exact hm.ret_point hcont hp hle hslots hcallers

end Active

end LispMachine
