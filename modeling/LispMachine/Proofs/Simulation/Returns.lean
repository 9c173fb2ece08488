import LispMachine.Proofs.Simulation.Frames

/-! # Leaving and returning

A return point keeps the operands in place and becomes a segment. Returning through it brings them
back, whether they are still there or have moved to the heap in between.
-/

namespace LispMachine

open Machine

variable {ρ : Naming} {segs : List Segment} {lo : Nat} {m : Machine} {r : HeapMachine}
  {lax : Prop} {before : HostCalls} {left : Bool}

/-! ## Return points -/

def HeapMachine.called (r : HeapMachine) (target : Nat) (owner : Option Nat) : HeapMachine :=
  { r with
    operands := #[]
    demand := (r.demand.ask (r.operands.size + 4)).nest (r.operands.size + 4)
    cont := .onHeap ⟨r.heap.continuations.size⟩
    born := r.born.push ⟨r.heap.frames.size, r.demand.base⟩
    heap.continuations := r.heap.continuations.push
      { saved := r.operands, prev := r.cont, env := r.env, resume := .code target, owner } }

def Machine.called (m : Machine) (target : Nat) : Machine :=
  { m with
    stack := Cells.write m.stack m.sp
      [.fixnum target, .fixnum m.bp, m.env.toValue, m.cont.toValue]
    sp := m.sp + 4
    cont := .onStack (m.sp + 4) }

theorem Machine.size_called (m : Machine) (target : Nat) :
    (m.called target).stack.size = m.stack.size := by
  simp [called]

theorem Machine.getElem?_called {i : Nat} (hi : i < m.sp) (target : Nat) :
    (m.called target).stack[i]? = m.stack[i]? :=
  Cells.getElem?_write_lt hi

/-- The cells that were pushed are a return point above the pending values. -/
theorem pointCells_called {start count : Nat} (hsp : m.sp = start + count) (hbp : m.bp ≤ start)
    (hroom : m.sp + 4 ≤ m.capacity) (target : Nat) :
    PointCells (m.called target).stack start count ⟨target, m.bp, m.env, m.cont⟩ := by
  have hcell {i : Nat} (hi : i < 4) : (m.called target).stack[start + count + i]? =
      [Value.fixnum target, .fixnum m.bp, m.env.toValue, m.cont.toValue][i]? := by
    rw [← hsp]
    exact Cells.getElem?_write hroom hi
  exact
    { ip_cell := hcell (i := 0) (by omega)
      bp_cell := hcell (i := 1) (by omega)
      env_cell := hcell (i := 2) (by omega)
      prev_cell := hcell (i := 3) (by omega)
      bp_le := hbp }

theorem Core.ownerOf_ok (h : Core ρ segs lo m r) {cont cont' : Cont}
    (hc : ContOn ρ segs cont cont') :
    ∃ owner, HeapMachine.ownerOf r.heap cont' = .ok owner := by
  have hok {k : Nat} {c : Continuation} (hc : r.heap.continuations[k]? = some c) :
      HeapMachine.ownerOf r.heap (.onHeap ⟨k⟩) = .ok c.owner := by
    simp only [HeapMachine.ownerOf, Heap.continuation, hc]
    rfl
  cases hc with
  | @onStack s c k hmem =>
    obtain ⟨rest, hs⟩ := exists_suffix hmem
    obtain ⟨-, ⟨p, c, hp⟩, -⟩ := h.stacked.at_suffix hs
    exact ⟨_, hok hp.continuation⟩
  | agree hc =>
    cases hc with
    | empty => exact ⟨none, rfl⟩
    | onHeap hk =>
      obtain ⟨-, c', -, hc', -⟩ := h.heap.continuations _ _ hk
      exact ⟨_, hok hc'⟩

namespace Represents

theorem pointAt_called (h : Represents ρ segs lo m r) (hl : r.leaving = false)
    (hroom : m.sp + 4 ≤ m.capacity) {target : Nat} {owner : Option Nat}
    (ho : HeapMachine.ownerOf r.heap r.cont = .ok owner) :
    PointAt ρ (m.called target).stack (r.called target owner).heap (r.called target owner).born segs
      lo r.operands.size r.heap.continuations.size ⟨target, m.bp, m.env, m.cont⟩
      { saved := r.operands, prev := r.cont, env := r.env, resume := .code target, owner } := by
  have hext : Extended r.heap.continuations (r.called target owner).heap.continuations := .push _ _
  have hborn : (r.called target owner).born[r.heap.continuations.size]? =
      some ⟨r.heap.frames.size, r.demand.base⟩ := by
    simp [HeapMachine.called, ← h.born]
  exact
    { pointCells_called h.sp (h.bp hl) hroom target with
      continuation := by simp [HeapMachine.called]
      unique := fun _ _ hm => absurd (h.point_id_lt hm) (Nat.lt_irrefl _)
      frames_le := h.frames_le hl
      resume := rfl
      owner := ownerOf_extended hext ho
      env := h.env
      prev := h.cont
      size := rfl
      saved := h.operands.congr fun i _ hi => getElem?_called (hi.trans_eq h.sp.symm) target
      born := ⟨_, hborn, h.base, fun _ _ _ hm => h.frame_id_lt hm⟩ }

theorem stacked_called (h : Represents ρ segs lo m r) (target : Nat) (owner : Option Nat) :
    Stacked (SegmentAt ρ (m.called target).stack (r.called target owner).heap
      (r.called target owner).born) lo segs := by
  have hsp := h.sp
  refine h.stacked_congr le_rfl (fun _ _ h => h) (fun i hi => ?_) (.refl _) (.push _ _) (.push _ _)
  exact getElem?_called (by omega) target

theorem known_called (h : Represents ρ segs lo m r) (target : Nat) :
    ∀ v ∈ (m.called target).stack, Known ρ v := by
  intro v hv
  rcases Cells.mem_write hv with hv | hv
  · simp only [List.mem_cons, List.not_mem_nil, or_false] at hv
    rcases hv with rfl | rfl | rfl | rfl
    · exact ⟨_, .fixnum⟩
    · exact ⟨_, .fixnum⟩
    · exact .env _
    · exact h.cont.known
  · exact h.known v hv

theorem called (h : Represents ρ segs lo m r) (hl : r.leaving = false)
    (hroom : m.sp + 4 ≤ m.capacity) {target : Nat} {owner : Option Nat}
    (ho : HeapMachine.ownerOf r.heap r.cont = .ok owner) :
    Represents ρ (.point lo r.operands.size r.heap.continuations.size :: segs) (m.sp + 4)
      (m.called target) (r.called target owner) := by
  have hsp := h.sp
  have hcap : (m.called target).capacity = m.capacity := m.size_called target
  have hcont : ContOn ρ (.point lo r.operands.size r.heap.continuations.size :: segs)
      (.onStack (m.sp + 4)) (.onHeap ⟨r.heap.continuations.size⟩) := by
    rw [hsp]
    exact .onStack List.mem_cons_self
  refine
    { h with
      heap := h.heap.pushCont
      born := by simp [HeapMachine.called, h.born]
      saved := h.saved.pushCont h.heap h.born
      sp := rfl
      room := hcap ▸ hroom
      least := ?_
      base := ?_
      operands := .empty
      known := h.known_called target
      stacked := ⟨?_, ⟨_, _, h.pointAt_called hl hroom ho⟩, h.stacked_called target owner⟩
      bp := fun hl => (h.bp hl).trans (by omega)
      frames_le := fun hl start count j hm => ?_
      env := h.env.mono le_rfl fun _ _ _ hm => List.mem_cons_of_mem _ hm
      cont := hcont
      fresh := fun start count k hm => ?_
      slack := le_max_right m.bp (m.sp + 4) }
  · rw [Segment.top_point]
    omega
  · change max r.demand.least (r.operands.size + 4) ≤ _
    rw [hcap]
    exact max_le h.least (by omega)
  · have := h.base
    change m.sp + 4 ≤ m.bp + (r.demand.base + (r.operands.size + 4))
    omega
  · rcases List.mem_cons.1 hm with hm | hm
    · cases hm
    · exact h.frames_le hl start count j hm
  · rcases List.mem_cons.1 hm with hm | hm
    · cases hm
      exact h.heap.cont_size
    · exact h.fresh start count k hm

end Represents

theorem Core.relative (h : Core ρ segs lo m r) (offset : Int) :
    ExceptAgree Eq (m.relative offset) (r.relative offset) := by
  simp only [Registers.relative, h.ip]
  split
  · exact .fault _
  · exact .ok rfl

theorem pushReturnCells {target : Nat} (hroom : m.sp + 4 ≤ m.capacity) :
    (do
      push (.fixnum target)
      push (.fixnum (← get).bp)
      push (← get).env.toValue
      push (← get).cont.toValue
      modify fun m => { m with cont := .onStack m.sp } : Exec Unit) m =
        .ok () (m.called target) := by
  have hcap : m.capacity = m.stack.size := rfl
  rw [bind_ok (push_room (by omega))]
  simp only [get_bind_apply]
  rw [bind_ok (push_room (by simp only [capacity, Array.size_setIfInBounds]; omega))]
  simp only [get_bind_apply]
  rw [bind_ok (push_room (by simp only [capacity, Array.size_setIfInBounds]; omega))]
  simp only [get_bind_apply]
  rw [bind_ok (push_room (by simp only [capacity, Array.size_setIfInBounds]; omega))]
  simp only [modify_apply, called, Cells.write_cons, Cells.write_nil]

/-- Saving the operands succeeds, after a collection if need be, or the stack overflows. -/
theorem InStep.pushReturnPoint (hi : InStep before left ρ m r) (hl : lax ∨ left = false)
    (offset : Int) :
    Follows True lax before ρ (fun σ _ _ m' r' => InStep before left σ m' r')
      (Machine.pushReturnPoint offset m) (HeapMachine.pushReturnPoint offset r) := by
  obtain ⟨segs, lo, h, hhosts, hleft⟩ := hi
  have hi : InStep before left ρ m r := ⟨segs, lo, h, hhosts, hleft⟩
  refine .query_bind hi (h.relative offset) ?_
  rintro target _ rfl
  simp only [get_bind_apply]
  by_cases hleaving : r.leaving
  · rw [if_pos hleaving]
    exact .stuck (hl.resolve_right fun hl => by simp [hleft hl] at hleaving)
  · have hl : r.leaving = false := by simpa using hleaving
    rw [if_neg hleaving]
    obtain ⟨owner, ho⟩ := h.ownerOf_ok h.cont
    have hr : (do
        let owner ← Machine.query fun r => HeapMachine.ownerOf r.heap r.cont
        let k ← HeapMachine.newContinuation
          { saved := r.operands, prev := r.cont, env := r.env, resume := .code target, owner }
          ⟨r.heap.frames.size, r.demand.base⟩
        let cells := r.operands.size + 4
        modify ({ · with
          operands := #[], demand := (r.demand.ask cells).nest cells, cont := .onHeap k }) :
        HeapExec Unit) r =
          .ok () (r.called target owner) := by
      rw [HeapMachine.query_bind_ok ho]
      rfl
    rw [hr]
    rcases h.makeRoom (.inl (h.bp hl)) 4 .continuationOverflow with
      ⟨σ, segs', lo', m₁, hm₁, hρ, h₁, -, hroom, -⟩ | ⟨σ, segs', lo', m₁, hm₁, h₁, hcap⟩
    · rw [bind_ok hm₁, pushReturnCells hroom]
      exact .ok hρ ⟨_, _, h₁.called hl hroom ho, hhosts, hleft⟩
    · rw [bind_error hm₁]
      exact .overflow trivial (.inr rfl) ⟨σ, segs', lo', r, h₁⟩
        (lt_of_lt_of_le hcap (by rw [Nat.add_assoc]; exact le_max_right ..))

/-! ## Returning -/

def HeapMachine.resumed (r : HeapMachine) (k : Nat) (c : Continuation) (ip : Nat) : HeapMachine :=
  { r with
    operands := c.saved
    leaving := false
    demand := r.restoring ⟨k⟩ c.saved.size
    ip
    env := c.env
    cont := c.prev }

theorem Core.continuation (h : Core ρ segs lo m r) {k q : Nat} (hk : ρ.cont k = some q) :
    ∃ c c', m.heap.continuation ⟨q⟩ = .ok c ∧ r.heap.continuation ⟨k⟩ = .ok c' ∧
      ContinuationAgree ρ c c' := by
  obtain ⟨c, c', hc, hc', ha⟩ := h.heap.continuations k q hk
  refine ⟨c, c', ?_, ?_, ha⟩
  · rw [Heap.continuation, hc]
    rfl
  · rw [Heap.continuation, hc']
    rfl

/-- The operands of a continuation on the heap become a new activation at the top. -/
theorem Represents.resumed (h : Represents ρ segs lo m r) {c c' : Continuation} {demand : Demand}
    (ip : Nat) (hc : ContinuationAgree ρ c c') (hroom : m.sp + c.saved.size ≤ m.capacity)
    (hleast : demand.least ≤ m.capacity) (hbase : c.saved.size ≤ c'.saved.size + demand.base)
    (hslack : demand.slack = demand.base) :
    ∃ lo', Represents ρ [] lo'
      { m with
        stack := Cells.write m.stack m.sp c.saved.toList
        sp := m.sp + c.saved.size
        bp := m.sp
        ip
        env := c.env
        cont := c.prev }
      { r with
        operands := c'.saved, leaving := false, demand, ip, env := c'.env, cont := c'.prev } := by
  obtain ⟨d, hd, hsaved⟩ := hc.saved
  have hcap : m.capacity = m.stack.size := rfl
  have hlen : c.saved.toList.length = c.saved.size := Array.length_toList
  refine ⟨m.sp + d, ?_⟩
  exact
    { h with
      ip := rfl
      sp := by
        change m.sp + c.saved.size = m.sp + d + c'.saved.size
        omega
      room := by simpa [capacity] using hroom
      least := by simpa [capacity] using hleast
      base := by
        change m.sp + d ≤ m.sp + demand.base
        omega
      operands := by
        refine Holds.shift hsaved fun i hi => ?_
        change i < c'.saved.size at hi
        rw [Nat.add_assoc, Cells.getElem?_write (by omega) (by omega), Array.getElem?_toList]
      known := by
        intro v hv
        rcases Cells.mem_write hv with hv | hv
        · exact hc.known v (Array.mem_toList_iff.1 hv)
        · exact h.known v hv
      stacked := .nil
      bp := fun _ => Nat.le_add_right _ _
      frames_le := nofun
      env := .agree hc.env
      cont := .agree hc.prev
      fresh := fun _ _ _ hm => by cases hm
      slack := by
        change m.sp + d ≤ max m.sp c.prev.top + demand.slack
        omega }

/-- Whether a frame was left and no other entered, after going on in this way. Going back to code
enters its frame again. -/
def Resume.leftAfter (left : Bool) : Resume → Bool
  | .code _ => false
  | .host _ | .halt => left

/-- Whether a frame was left and no other entered, after returning to a continuation. -/
def Machine.leftAfterReturn (m : Machine) (left : Bool) : Cont → Bool
  | .empty => left
  | .onStack _ => false
  | .onHeap k =>
    match m.heap.continuation k with
    | .ok c => c.resume.leftAfter left
    | .error _ => left

@[simp] theorem Machine.leftAfterReturn_false (k : Cont) : m.leftAfterReturn false k = false := by
  cases k with
  | empty => rfl
  | onStack => rfl
  | onHeap k =>
    rw [Machine.leftAfterReturn]
    split
    · next c _ => cases h : c.resume <;> rfl
    · rfl

theorem InStep.resume (hi : InStep before left ρ m r) {k q : Nat} (hk : ρ.cont k = some q)
    (hm : m.cont = .onHeap ⟨q⟩) :
    Follows True lax before ρ
      (fun σ _ _ m' r' => Landed before (m.leftAfterReturn left m.cont) σ m' r')
      (Machine.resume ⟨q⟩ m) (HeapMachine.resume ⟨k⟩ r) := by
  obtain ⟨segs, lo, h, hhosts, hleft⟩ := hi
  obtain ⟨c, c', hc, hc', ha⟩ := h.continuation hk
  have hafter : m.leftAfterReturn left m.cont = c'.resume.leftAfter left := by
    rw [hm, Machine.leftAfterReturn, hc, ← ha.resume]
  rw [hafter, Machine.resume, query_bind_ok hc, HeapMachine.resume, HeapMachine.query_bind_ok hc',
    ha.resume]
  cases hresume : c'.resume with
  | halt => exact .ok le_rfl ⟨segs, lo, { h with runnable := rfl }, hhosts.loosen, hleft⟩
  | host id =>
    simp only [get_bind_apply, h.hosts]
    split
    · next hid =>
      refine .ok le_rfl ⟨[], lo, ?_, ⟨hhosts.running, .inl rfl⟩, hleft⟩
      have hslack : lo ≤ m.bp + r.demand.slack := by
        have := h.slack
        rwa [hm, show (Cont.onHeap ⟨q⟩).top = 0 from rfl, Nat.max_zero] at this
      refine Core.represents_nil { h.toCore with hosts := ?_, sound := ?_ } ha.env ha.prev hslack
      · exact congrArg (fun hosts => { hosts with returned := some id }) h.hosts
      · refine ⟨h.sound.active, ?_⟩
        rintro _ ⟨⟩
        exact h.sound.active id hid
    · next hid =>
      have hm : m.Orphaned := ⟨⟨q⟩, c, id, hm, hc, ha.resume.trans hresume, by rwa [h.hosts]⟩
      exact .fault le_rfl (.orphaned hm ⟨segs, lo, h, hhosts, by simp⟩)
  | code ip =>
    simp only
    have hbase := h.saved k q c c' hk (Heap.continuation_eq_ok.1 hc) (Heap.continuation_eq_ok.1 hc')
    rcases h.dropOperands.makeRoom (.inr rfl) c.saved.size .stackOverflow with
      ⟨σ, segs', lo', m₁, hm₁, hρ, h₁, hsame, hroom, hkept⟩ | ⟨σ, segs', lo', m₁, hm₁, h₁, hcap⟩
    · have hall : pushAll c.saved.toList { m₁ with bp := m₁.sp } = .ok () { m₁ with
          bp := m₁.sp
          stack := Cells.write m₁.stack m₁.sp c.saved.toList
          sp := m₁.sp + c.saved.size } := by
        rw [pushAll_room (by simpa [capacity] using hroom), Array.length_toList]
      have hleast : (r.restoring ⟨k⟩ c'.saved.size).least ≤ m₁.capacity := by
        obtain ⟨d, hd, -⟩ := ha.saved
        refine max_le (hsame ▸ h.least) ?_
        cases hl : r.leaving with
        | false =>
          have := h.le_sp_sub_kept hl
          simp only [Bool.false_eq_true, if_false]
          omega
        | true =>
          simp only [if_true]
          omega
      obtain ⟨lo'', h₂⟩ := h₁.resumed ip (ha.mono hρ) hroom hleast hbase rfl
      rw [bind_ok hm₁]
      simp only [modify_bind_apply]
      rw [bind_ok hall]
      exact .ok hρ ⟨[], lo'', h₂, ⟨hhosts.running, .inl rfl⟩, fun _ => rfl⟩
    · rw [bind_error hm₁]
      refine .overflow trivial (.inl rfl) ⟨σ, segs', lo', _, h₁⟩ (lt_of_lt_of_le hcap ?_)
      refine le_trans ?_ (le_max_right ..)
      simp only [Demand.bury, Array.size_empty]
      omega

def Machine.returned (m : Machine) (c : Nat) (p : ReturnPoint) (env : Env) : Machine :=
  { m with
    stack := Cells.clear m.stack (c - 4) (m.sp - (c - 4))
    sp := c - 4
    bp := p.bp
    ip := p.ip
    env
    cont := p.prev }

theorem ret_of_point {c : Nat} {p : ReturnPoint} {env : Env} (hcont : m.cont = .onStack c)
    (hp : m.returnPoint c = .ok p) (henv : m.resolve p.env = .ok env) (hc : c ≤ m.sp)
    (hroom : m.sp ≤ m.capacity) : Machine.ret m = .ok () (m.returned c p env) := by
  have hclear : clearCells (c - 4) m.sp
      { m with env, ip := p.ip, bp := p.bp, cont := p.prev, sp := c - 4 } =
      .ok () (m.returned c p env) :=
    if_pos ⟨by omega, hroom⟩
  simp only [Machine.ret, get_bind_apply, hcont]
  rw [query_bind_ok hp, query_bind_ok henv, get_bind_apply,
    query_bind_ok (distance_ok (returnPoint_bounds hp).1), modify_bind_apply]
  exact hclear

theorem Core.resolve (h : Core ρ segs lo m r) {sub : List Segment} (hs : sub <:+ segs)
    {env env' : Env} (he : EnvOn ρ sub env env') :
    ∃ new, m.resolve env = .ok new ∧ EnvOn ρ sub new env' := by
  cases he with
  | agree he => exact ⟨env, by cases he <;> rfl, .agree he⟩
  | @onStack start count j hmem =>
    obtain ⟨rest, hrest⟩ := exists_suffix hmem
    rcases (h.stacked.at_suffix (hrest.trans hs)).2.1 with ⟨q, hq, hj⟩ | ⟨parent, f, hl⟩
    · refine ⟨.onHeap ⟨q⟩, ?_, .agree (.onHeap hj)⟩
      rw [Machine.resolve, descriptor_moved hq]
      rfl
    · refine ⟨.onStack (start + count), ?_, .onStack hmem⟩
      rw [Machine.resolve, hl.descriptor]
      rfl

section Point

variable {start count k : Nat} {rest : List Segment} {p : ReturnPoint} {c : Continuation}
  {env : Env}

/-- The operands below a return point are current again. -/
theorem Represents.returned (h : Represents ρ segs lo m r)
    (hs : .point start count k :: rest <:+ segs)
    (hp : PointAt ρ m.stack r.heap r.born rest start count k p c) (henv : EnvOn ρ rest env c.env) :
    Represents ρ rest start (m.returned (start + count + 4) p env) (r.resumed k c p.ip) := by
  obtain ⟨hlo, -, hrest⟩ := h.stacked.at_suffix hs
  rw [Segment.top_point] at hlo
  have hsp := h.sp
  have hroom := h.room
  have hsize := hp.size
  obtain ⟨b, hb, hbase, -⟩ := hp.born
  have hbase' : start ≤ p.bp + (r.born[k]?).elim 0 Birth.base := by rwa [hb]
  exact
    { h with
      ip := rfl
      sp := congrArg (start + ·) hp.size.symm
      room := by
        simp only [Machine.returned, capacity, Cells.size_clear] at hroom ⊢
        omega
      least := by
        have hle : (r.resumed k c p.ip).demand.least ≤ m.capacity := by
          refine max_le h.least ?_
          split <;> omega
        simpa [Machine.returned, capacity] using hle
      base := hbase'
      operands := hp.saved.congr fun i _ hi =>
        Cells.getElem?_clear_lt (by rw [hp.size] at hi; exact hi)
      known := by
        intro v hv
        rcases Cells.mem_clear hv with rfl | hv
        · exact ⟨_, .nil⟩
        · exact h.known v hv
      stacked := hrest.congr_cells fun i hi => by
        rw [Segment.start_point] at hi
        exact Cells.getElem?_clear_lt (by omega)
      bp := fun _ => hp.bp_le
      frames_le := fun _ => hp.frames_le
      env := henv
      cont := hp.prev
      fresh := fun start count k hm =>
        h.fresh start count k ((suffix_of_cons_suffix hs).mem hm)
      slack := le_trans hbase' (Nat.add_le_add_right (le_max_left ..) _) }

theorem Represents.retPoint (h : Represents ρ segs lo m r)
    (hs : .point start count k :: rest <:+ segs) (hcont : m.cont = .onStack (start + count + 4)) :
    ∃ m' p c, Machine.ret m = .ok () m' ∧ r.heap.continuation ⟨k⟩ = .ok c ∧ c.resume = .code p ∧
      Represents ρ rest start m' (r.resumed k c p) := by
  obtain ⟨hlo, ⟨p, c, hp⟩, -⟩ := h.stacked.at_suffix hs
  rw [Segment.top_point] at hlo
  have hsp := h.sp
  have hroom := h.room
  obtain ⟨env, henv, he⟩ := h.resolve (suffix_of_cons_suffix hs) hp.env
  refine ⟨_, p.ip, c, ?_, ?_, hp.resume, h.returned hs hp he⟩
  · exact ret_of_point hcont (hp.returnPoint (by omega)) henv (by omega) hroom
  · rw [Heap.continuation, hp.continuation]
    rfl

end Point

theorem InStep.ret (hi : InStep before left ρ m r) :
    Follows True lax before ρ
      (fun σ _ _ m' r' => Landed before (m.leftAfterReturn left m.cont) σ m' r')
      (Machine.ret m) (HeapMachine.ret r) := by
  obtain ⟨segs, lo, h, hhosts, hleft⟩ := hi
  have hc := h.cont
  cases hr : r.cont with
  | onStack =>
    rw [hr] at hc
    exact hc.not_onStack.elim
  | empty =>
    rw [hr] at hc
    simp only [Machine.ret, HeapMachine.ret, get_bind_apply, hr, hc.eq_empty]
    exact .ok le_rfl ⟨segs, lo, { h with runnable := rfl }, hhosts.loosen, hleft⟩
  | onHeap k =>
    rw [hr] at hc
    simp only [HeapMachine.ret, get_bind_apply, hr]
    generalize hm : m.cont = cont at hc
    cases hc with
    | agree hc =>
      cases hc with
      | onHeap hk =>
        simp only [Machine.ret, get_bind_apply, hm]
        rw [← hm]
        exact InStep.resume ⟨segs, lo, h, hhosts, hleft⟩ hk hm
    | onStack hmem =>
      obtain ⟨rest, hs⟩ := exists_suffix hmem
      obtain ⟨m', ip, c, hrun, hk, hip, h'⟩ := h.retPoint hs hm
      rw [hrun, HeapMachine.resume, HeapMachine.query_bind_ok hk, hip]
      exact .ok le_rfl ⟨rest, _, h', hhosts.loosen, fun _ => rfl⟩

/-! ## Captured continuations -/

theorem Core.newCont (h : Core ρ segs lo m r) {c c' : Continuation} (hc : ContinuationAgree ρ c c')
    (hsize : c.saved.size ≤ c'.saved.size) (born : Birth) :
    Core (ρ.addCont r.heap.continuations.size m.heap.continuations.size h.heap.cont_fresh) segs lo
      { m with heap.continuations := m.heap.continuations.push c }
      { r with
        heap.continuations := r.heap.continuations.push c'
        born := r.born.push born } := by
  have h' : Core ρ segs lo m
      { r with
        heap.continuations := r.heap.continuations.push c'
        born := r.born.push born } :=
    { h with
      heap := h.heap.pushCont
      born := by simp [h.born]
      saved := h.saved.pushCont h.heap h.born
      stacked := h.stacked_congr le_rfl (fun _ _ h => h) (fun _ _ => rfl) (.refl _) (.push _ _)
        (.push _ _) }
  exact h'.nameCont h.heap.cont_size (by simp) hc (hsize.trans (Nat.le_add_right ..))

theorem Represents.capture (h : Represents ρ segs lo m r) :
    ∃ σ q k m' r' segs', Machine.capture m = .ok ⟨q⟩ m' ∧ HeapMachine.capture r = .ok ⟨k⟩ r' ∧
      ρ ≤ σ ∧ σ.cont k = some q ∧ Represents σ segs' lo m' r' ∧ r'.hosts = r.hosts ∧
      r'.leaving = r.leaving := by
  obtain ⟨σ, new, m₁, hm₁, hρ, hnew, h₁, hp⟩ := h.promoteContinuation
  have henv : EnvOn σ segs m₁.env r.env := by
    have := h.env.of_le hρ
    rwa [← hp.env] at this
  cases hr : r.cont with
  | onStack =>
    rw [hr] at hnew
    cases hnew
  | onHeap k =>
    rw [hr] at hnew
    cases hnew with
    | @onHeap k q hk =>
      have h₂ : Core σ segs lo { m₁ with cont := .onHeap ⟨q⟩ }
          { r with demand := r.demand.expose, cont := .onHeap ⟨k⟩ } := { h₁ with }
      refine ⟨σ, q, k, _, _, _, ?_, ?_, hρ, hk, h₂.represents_frames henv (.onHeap hk) h₁.base, rfl,
        rfl⟩
      · simp only [Machine.capture, get_bind_apply]
        rw [bind_ok hm₁]
        rfl
      · simp only [HeapMachine.capture, modify_bind_apply, get_bind_apply, hr]
        rw [← hr]
        rfl
  | empty =>
    rw [hr] at hnew
    cases hnew
    have hc : ContinuationAgree σ .halting .halting :=
      ⟨⟨0, rfl, .empty⟩, fun _ hv => by simp [Continuation.halting] at hv, .empty, .empty, rfl, rfl⟩
    have hσ : σ ≤ σ.addCont r.heap.continuations.size m₁.heap.continuations.size
        h₁.heap.cont_fresh :=
      Naming.le_addCont h₁.heap.cont_size
    have h₂ := h₁.newCont hc le_rfl ⟨0, 0⟩
    have h₃ : Core _ segs lo
        { m₁ with
          heap.continuations := m₁.heap.continuations.push .halting
          cont := .onHeap ⟨m₁.heap.continuations.size⟩ }
        { r with
          heap.continuations := r.heap.continuations.push .halting
          born := r.born.push ⟨0, 0⟩
          demand := r.demand.expose
          cont := .onHeap ⟨r.heap.continuations.size⟩ } := { h₂ with }
    refine ⟨_, _, _, _, _, _, ?_, ?_, hρ.trans hσ, Naming.addCont_cont_self,
      h₃.represents_frames (henv.of_le hσ) (.onHeap Naming.addCont_cont_self) h₁.base, rfl, rfl⟩
    · simp only [Machine.capture, get_bind_apply]
      rw [bind_ok hm₁]
      rfl
    · simp only [HeapMachine.capture, modify_bind_apply, get_bind_apply, hr]
      rfl

end LispMachine
