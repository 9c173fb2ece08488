import LispMachine.Proofs.Evaluation
import LispMachine.Proofs.Simulation.Reading

/-! # Moving to the heap

When a frame or a return point moves to the heap, it gets a name, and nothing else changes that the
machine without a stack could tell.
-/

namespace LispMachine

open Machine

/-- Moving to the heap leaves the registers alone. -/
structure Promoted (m m' : Machine) : Prop where
  sp : m'.sp = m.sp
  bp : m'.bp = m.bp
  env : m'.env = m.env
  cont : m'.cont = m.cont
  capacity : m'.capacity = m.capacity

theorem Promoted.refl (m : Machine) : Promoted m m := ⟨rfl, rfl, rfl, rfl, rfl⟩

theorem Promoted.trans {m m' m'' : Machine} (h : Promoted m m') (h' : Promoted m' m'') :
    Promoted m m'' :=
  ⟨h'.sp.trans h.sp, h'.bp.trans h.bp, h'.env.trans h.env, h'.cont.trans h.cont,
    h'.capacity.trans h.capacity⟩

variable {ρ : Naming} {segs rest sub : List Segment} {lo : Nat} {m : Machine} {r : HeapMachine}

/-! ## Frames -/

section Frames

variable {start count j : Nat} {parent new : Env} {f : Frame}

theorem promoteFrame_eq (hroom : start + count < m.capacity) :
    promoteFrame ⟨start + count, start, count⟩ new m =
      .ok (.onHeap ⟨m.heap.frames.size⟩)
        { m with
          stack := m.stack.setIfInBounds (start + count) (.frame ⟨m.heap.frames.size⟩)
          heap.frames := m.heap.frames.push ⟨m.stack.extract start (start + count), new⟩ } := by
  have hcells : m.cells start (start + count) = .ok (m.stack.extract start (start + count)) := by
    rw [cells, if_pos ⟨by omega, by omega⟩]
  rw [promoteFrame, query_bind_ok hcells]
  simp only [newFrame, allocate_bind_apply, Heap.addFrame]
  rw [bind_ok (a := ()) (by rw [writeCell, if_pos]; exact hroom)]
  rfl

/-- A live frame moves to the heap below an environment that is there already. -/
theorem Core.moveFrame (h : Core ρ segs lo m r) (hs : .frame start count j :: rest <:+ segs)
    (hl : LiveAt ρ m.stack r.heap rest start count j parent f) (hp : EnvAgree ρ new f.parent) :
    ∃ σ m', promoteFrame ⟨start + count, start, count⟩ new m =
        .ok (.onHeap ⟨m.heap.frames.size⟩) m' ∧ ρ ≤ σ ∧ σ.cont = ρ.cont ∧
      σ.frame j = some m.heap.frames.size ∧ Core σ segs lo m' r ∧ Promoted m m' ∧
      ∀ i, i ≠ start + count → m'.stack[i]? = m.stack[i]? := by
  have hlo : start + count + 3 ≤ lo := (h.stacked.at_suffix hs).1
  have hcap : m.stack.size = m.capacity := rfl
  have hroom : start + count < m.capacity := by have := h.room; have := h.sp; omega
  have hρ : ρ ≤ ρ.addFrame j m.heap.frames.size h.heap.frame_fresh := Naming.le_addFrame hl.unnamed
  have hcells {i : Nat} (hi : i ≠ start + count) :
      (m.stack.setIfInBounds (start + count) (.frame ⟨m.heap.frames.size⟩))[i]? = m.stack[i]? :=
    Array.getElem?_setIfInBounds_ne (Ne.symm hi)
  have hframe : FrameAgree ρ ⟨m.stack.extract start (start + count), new⟩ f := by
    refine ⟨⟨?_, ?_⟩, hp⟩
    · rw [Array.size_extract, hl.size]
      omega
    · have := hl.slots.extract (le_refl start) (by rw [hl.size])
      rwa [Nat.sub_self] at this
  refine ⟨_, _, promoteFrame_eq hroom, hρ, rfl, Naming.addFrame_frame_self, ?_,
    ⟨rfl, rfl, rfl, rfl, by simp [capacity]⟩, fun i hi => hcells hi⟩
  exact
    { h with
      acc := h.acc.mono hρ
      literals := h.literals.mono fun _ _ h => h.mono hρ
      globals := fun name => optionRel_mono (h.globals name) hρ
      heap := h.heap.nameFrame hl.unnamed hl.frame hframe
      room := by simpa [capacity] using h.room
      least := by simpa [capacity] using h.least
      operands := (h.operands.congr fun i hi _ => hcells (by omega)).mono fun _ _ h => h.mono hρ
      known := by
        intro v hv
        rcases mem_setIfInBounds hv with rfl | hv
        · exact ⟨_, .same (by simp)⟩
        · exact (h.known v hv).mono hρ
      stacked := by
        refine h.stacked.update hs (fun _ => ?_) fun s rs hss ho hseg => ?_
        · refine .inl ⟨_, ?_, Naming.addFrame_frame_self⟩
          exact Array.getElem?_setIfInBounds_self_of_lt (by omega)
        · refine hseg.congr hρ (fun i hi hi' => hcells ?_) ?_ (.refl _) (.refl _)
          · simp only [Segment.start_frame, Segment.top_frame] at ho
            omega
          · rintro start' count' j' f' rfl hj' hf'
            refine ⟨?_, hf'⟩
            have hne := hl.ne hseg hj' (ho.imp And.left And.left)
            rw [Naming.addFrame_frame_ne hne, hj'] }

/-- Moving an environment whose live frames are at most `n`. -/
def promoteFrom (n : Nat) (env : Env) : Exec Env := do
  let (frames, base) ← query fun m => m.liveFrames n env
  frames.foldrM promoteFrame base

theorem promoteEnv_eq (env : Env) : promoteEnv env m = promoteFrom m.capacity env m := rfl

theorem promoteFrom_done {n : Nat} {env new : Env} (h : m.liveFrames n env = .ok ([], new)) :
    promoteFrom n env m = .ok new m := by
  rw [promoteFrom, query_bind_ok h]
  rfl

theorem promoteFrom_live {n e : Nat} (h : m.descriptor e = .ok (.live start count parent)) :
    promoteFrom (n + 1) (.onStack e) m =
      (promoteFrom n parent >>= promoteFrame ⟨e, start, count⟩) m := by
  cases hp : m.liveFrames n parent with
  | error s =>
    have hn : m.liveFrames (n + 1) (.onStack e) = .error s := by
      simp [liveFrames, h, hp, bind, Except.bind]
    have hf : promoteFrom n parent m = .error s m := query_bind_error hp
    rw [promoteFrom, query_bind_error hn, bind_error hf]
  | ok x =>
    have hn : m.liveFrames (n + 1) (.onStack e) = .ok (⟨e, start, count⟩ :: x.1, x.2) := by
      simp [liveFrames, h, hp, bind, Except.bind, pure, Except.pure]
    rw [promoteFrom, query_bind_ok hn, promoteFrom, bind_assoc, query_bind_ok hp]
    simp only [List.foldrM_cons]

/-- An environment moves to the heap from its outermost live frame inward. Only cells of the
segments in question are written. -/
theorem Core.promoteFrom (h : Core ρ segs lo m r) (hs : sub <:+ segs) {env env' : Env}
    (he : EnvOn ρ sub env env') {n : Nat} (hn : sub.length ≤ n) :
    ∃ σ new m', promoteFrom n env m = .ok new m' ∧ ρ ≤ σ ∧ σ.cont = ρ.cont ∧
      EnvAgree σ new env' ∧ Core σ segs lo m' r ∧ Promoted m m' ∧
      ∀ i, (∀ s ∈ sub, s.top ≤ i) → m'.stack[i]? = m.stack[i]? := by
  induction sub generalizing env env' n with
  | nil =>
    cases he with
    | onStack hmem => cases hmem
    | agree he =>
      refine ⟨ρ, env, m, promoteFrom_done ?_, le_rfl, rfl, he, h, .refl m, fun _ _ => rfl⟩
      cases he <;> cases n <;> rfl
  | cons s rest ih =>
    have hrest := suffix_of_cons_suffix hs
    rw [List.length_cons] at hn
    by_cases hr : EnvOn ρ rest env env'
    · obtain ⟨σ, new, m', hm, hρ, hc, hnew, h', hp, hcells⟩ := ih hrest hr (n := n) (by omega)
      exact ⟨σ, new, m', hm, hρ, hc, hnew, h', hp,
        fun i hi => hcells i fun t ht => hi t (List.mem_cons_of_mem _ ht)⟩
    · obtain ⟨start, count, j, rfl, rfl, rfl⟩ : ∃ start count j, s = .frame start count j ∧
          env = .onStack (start + count) ∧ env' = .onHeap ⟨j⟩ := by
        cases he with
        | agree he => exact absurd (.agree he) hr
        | @onStack start count j hmem =>
          rcases List.mem_cons.1 hmem with rfl | hmem
          · exact ⟨start, count, j, rfl, rfl, rfl⟩
          · exact absurd (.onStack hmem) hr
      obtain ⟨-, hseg, hbelow⟩ := h.stacked.at_suffix hs
      rcases hseg with ⟨q, hq, hj⟩ | ⟨parent, f, hl⟩
      · refine ⟨ρ, .onHeap ⟨q⟩, m, promoteFrom_done ?_, le_rfl, rfl, .onHeap hj, h, .refl m,
          fun _ _ => rfl⟩
        cases n <;> simp [liveFrames, descriptor_moved hq, bind, Except.bind, pure, Except.pure]
      · obtain ⟨n, rfl⟩ : ∃ n', n = n' + 1 := ⟨n - 1, by omega⟩
        obtain ⟨σ, new, m₁, hm₁, hρ, hc, hnew, h₁, hp₁, hcells⟩ :=
          ih hrest hl.parent (n := n) (by omega)
        -- the frame is still live after the frames around it have moved
        have hcell : m₁.stack[start + count]? = some (.fixnum start) := by
          rw [hcells _ fun t ht => ?_, hl.start_cell]
          have := hbelow.top_le_of_mem ht
          simp only [Segment.start_frame] at this
          omega
        obtain ⟨parent', f', hl'⟩ : ∃ parent f,
            LiveAt σ m₁.stack r.heap rest start count j parent f := by
          rcases (h₁.stacked.at_suffix hs).2.1 with ⟨q, hq, -⟩ | hl'
          · rw [hcell] at hq
            cases hq
          · exact hl'
        obtain rfl : f' = f := Option.some.inj (hl'.frame.symm.trans hl.frame)
        obtain ⟨τ, m₂, hm₂, hστ, hc', hj, h₂, hp₂, hcells₂⟩ := h₁.moveFrame hs hl' hnew
        refine ⟨τ, _, m₂, ?_, hρ.trans hστ, hc'.trans hc, .onHeap hj, h₂, hp₁.trans hp₂, ?_⟩
        · rw [promoteFrom_live hl.descriptor, bind_ok hm₁, hm₂]
        · intro i hi
          have htop := hi _ List.mem_cons_self
          rw [Segment.top_frame] at htop
          rw [hcells₂ i (by omega), hcells i fun t ht => hi t (List.mem_cons_of_mem _ ht)]

theorem Core.promoteEnv (h : Core ρ segs lo m r) {env env' : Env} (he : EnvOn ρ segs env env') :
    ∃ σ new m', promoteEnv env m = .ok new m' ∧ ρ ≤ σ ∧ σ.cont = ρ.cont ∧
      EnvAgree σ new env' ∧ Core σ segs lo m' r ∧ Promoted m m' := by
  have hn : segs.length ≤ m.capacity := by
    have := h.stacked.length_le
    have := h.sp
    have := h.room
    omega
  obtain ⟨σ, new, m', hm, hρ, hc, hnew, h', hp, -⟩ := h.promoteFrom (List.suffix_refl _) he hn
  exact ⟨σ, new, m', (promoteEnv_eq env).trans hm, hρ, hc, hnew, h', hp⟩

end Frames

/-! ## Return points -/

section Points

variable {start count k : Nat} {p : ReturnPoint} {c c' : Continuation} {new : Cont}

theorem SavedWithin.nameCont {h g : Heap} {born : Array Birth} (hs : SavedWithin ρ h g born)
    (hg : HeapAgree ρ h g) (hc' : g.continuations[k]? = some c')
    (hsize : c.saved.size ≤ c'.saved.size + (born[k]?).elim 0 Birth.base) :
    SavedWithin (ρ.addCont k h.continuations.size hg.cont_fresh)
      { h with continuations := h.continuations.push c } g born := by
  intro i q d d' hi hd hd'
  by_cases hik : i = k
  · subst hik
    rw [Naming.addCont_cont_self] at hi
    cases hi
    rw [Array.getElem?_push_size] at hd
    cases hd
    rw [hc'] at hd'
    cases hd'
    exact hsize
  · rw [Naming.addCont_cont_ne hik] at hi
    have hlt := (hg.cont_lt hi).1
    rw [Array.getElem?_push, if_neg (by omega)] at hd
    exact hs i q d d' hi hd hd'

theorem SavedWithin.pushCont {h g : Heap} {born : Array Birth} {b : Birth}
    (hs : SavedWithin ρ h g born) (hg : HeapAgree ρ h g) (hb : born.size = g.continuations.size) :
    SavedWithin ρ h { g with continuations := g.continuations.push c } (born.push b) := by
  intro i q d d' hi hd hd'
  have hlt := (hg.cont_lt hi).2
  rw [Array.getElem?_push, if_neg (by omega)] at hd'
  rw [Array.getElem?_push, if_neg (by omega)]
  exact hs i q d d' hi hd hd'

theorem Core.nameCont (h : Core ρ segs lo m r) (hk : ρ.cont k = none)
    (hc' : r.heap.continuations[k]? = some c') (hc : ContinuationAgree ρ c c')
    (hsize : c.saved.size ≤ c'.saved.size + (r.born[k]?).elim 0 Birth.base) :
    Core (ρ.addCont k m.heap.continuations.size h.heap.cont_fresh) segs lo
      { m with heap.continuations := m.heap.continuations.push c } r := by
  have hρ : ρ ≤ ρ.addCont k m.heap.continuations.size h.heap.cont_fresh := Naming.le_addCont hk
  exact
    { h with
      acc := h.acc.mono hρ
      literals := h.literals.mono fun _ _ h => h.mono hρ
      globals := fun name => optionRel_mono (h.globals name) hρ
      heap := h.heap.nameCont hk hc' hc
      saved := h.saved.nameCont h.heap hc' hsize
      operands := h.operands.mono fun _ _ h => h.mono hρ
      known := fun v hv => (h.known v hv).mono hρ
      stacked := h.stacked.imp fun s rs _ hseg =>
        hseg.congr hρ (fun _ _ _ => rfl) (fun _ _ _ _ _ hj hf => ⟨hj, hf⟩) (.refl _) (.refl _) }

theorem Core.ownerOf (h : Core ρ segs lo m r) {cont cont' : Cont} {owner : Option Nat}
    (hc : ContAgree ρ cont cont') (ho : HeapMachine.ownerOf r.heap cont' = .ok owner) :
    m.ownerOf cont = .ok owner := by
  cases hc with
  | empty => exact ho
  | onHeap hk =>
    obtain ⟨c, c', hc, hc', ha⟩ := h.heap.continuations _ _ hk
    simp only [HeapMachine.ownerOf, Heap.continuation, hc', present] at ho
    simp only [Machine.ownerOf, Heap.continuation, hc, present]
    rw [← ho]
    exact congrArg Except.ok ha.owner

theorem mem_of_mem_extract {xs : Array Value} {i j : Nat} {v : Value} (h : v ∈ xs.extract i j) :
    v ∈ xs := by
  obtain ⟨n, hn, rfl⟩ := Array.mem_iff_getElem.1 h
  rw [Array.getElem_extract]
  exact Array.getElem_mem _

/-- A return point moves to the heap below a continuation that is there already. It was read before
the others moved. -/
theorem Core.movePoint (h : Core ρ segs lo m r) (hs : .point start count k :: rest <:+ segs)
    {ρ₀ : Naming} {stack₀ : Array Value} (hρ₀ : ρ₀ ≤ ρ)
    (hp : PointAt ρ₀ stack₀ r.heap r.born rest start count k p c) (hk : ρ.cont k = none)
    (hprev : ContAgree ρ new c.prev) :
    ∃ σ q m', promoteReturnPoint (start + count + 4, p) new m = .ok (.onHeap ⟨q⟩) m' ∧ ρ ≤ σ ∧
      σ.cont k = some q ∧ (∀ i, i ≠ k → σ.cont i = ρ.cont i) ∧ Core σ segs lo m' r ∧
      Promoted m m' := by
  have henv : EnvOn ρ segs p.env c.env :=
    hp.env.mono hρ₀ fun _ _ _ hr => (suffix_of_cons_suffix hs).mem hr
  obtain ⟨σ, env, m₁, hm₁, hρ, hcont, henv, h₁, hm⟩ := h.promoteEnv henv
  obtain ⟨htop, ⟨p₁, c₁, hp₁⟩, -⟩ := h₁.stacked.at_suffix hs
  obtain rfl : c₁ = c := Option.some.inj (hp₁.continuation.symm.trans hp.continuation)
  rw [Segment.top_point] at htop
  have hcap : start + count ≤ m₁.stack.size := by
    have := h₁.room
    have := h₁.sp
    unfold capacity at *
    omega
  have hbp := hp.bp_le
  have hcells : m₁.cells p.bp (start + count) = .ok (m₁.stack.extract p.bp (start + count)) := by
    rw [cells, if_pos ⟨by omega, hcap⟩]
  have howner := h₁.ownerOf (hprev.mono hρ) hp.owner
  have hagree : ContinuationAgree σ
      { saved := m₁.stack.extract p.bp (start + count), prev := new, env, resume := .code p.ip,
        owner := c₁.owner } c₁ := by
    refine ⟨⟨start - p.bp, ?_, ?_⟩, ?_, hprev.mono hρ, henv, hp.resume.symm, rfl⟩
    · rw [Array.size_extract, hp.size]
      omega
    · exact hp₁.saved.extract hbp (by rw [hp.size])
    · intro v hv
      exact h₁.known v (mem_of_mem_extract hv)
  have hk₁ : σ.cont k = none := by rw [hcont, hk]
  have hsize : (m₁.stack.extract p.bp (start + count)).size ≤
      c₁.saved.size + (r.born[k]?).elim 0 Birth.base := by
    obtain ⟨b, hb, hbase, -⟩ := hp.born
    rw [hb, Option.elim_some, Array.size_extract, hp.size]
    omega
  refine ⟨_, _, _, ?_, hρ.trans (Naming.le_addCont hk₁), Naming.addCont_cont_self, ?_,
    h₁.nameCont hk₁ hp.continuation hagree hsize, hm.trans ⟨rfl, rfl, rfl, rfl, rfl⟩⟩
  · simp only [promoteReturnPoint, newCodeContinuation, bind_assoc]
    rw [bind_ok hm₁, query_bind_ok (distance_ok (Nat.le_add_left ..)), Nat.add_sub_cancel,
      query_bind_ok hcells, query_bind_ok howner]
    rfl
  · intro i hi
    rw [Naming.addCont_cont_ne hi, hcont]

/-- Moving a continuation whose return points are at most `n`. -/
def promotePoints (n : Nat) (cont : Cont) : Exec Cont := do
  let (points, base) ← query fun m => m.returnPoints n cont
  points.foldrM promoteReturnPoint base

theorem promoteCont_eq (cont : Cont) : promoteCont cont m = promotePoints m.capacity cont m := rfl

theorem promotePoints_done {n : Nat} {cont new : Cont} (h : m.returnPoints n cont = .ok ([], new)) :
    promotePoints n cont m = .ok new m := by
  rw [promotePoints, query_bind_ok h]
  rfl

theorem promotePoints_point {n pos : Nat} (h : m.returnPoint pos = .ok p) :
    promotePoints (n + 1) (.onStack pos) m =
      (promotePoints n p.prev >>= promoteReturnPoint (pos, p)) m := by
  cases hp : m.returnPoints n p.prev with
  | error s =>
    have hn : m.returnPoints (n + 1) (.onStack pos) = .error s := by
      simp [returnPoints, h, hp, bind, Except.bind]
    have hf : promotePoints n p.prev m = .error s m := query_bind_error hp
    rw [promotePoints, query_bind_error hn, bind_error hf]
  | ok x =>
    have hn : m.returnPoints (n + 1) (.onStack pos) = .ok ((pos, p) :: x.1, x.2) := by
      simp [returnPoints, h, hp, bind, Except.bind, pure, Except.pure]
    rw [promotePoints, query_bind_ok hn, promotePoints, bind_assoc, query_bind_ok hp]
    simp only [List.foldrM_cons]

/-- A continuation moves to the heap from its outermost return point inward. -/
theorem Core.promotePoints (h : Core ρ segs lo m r) (hs : sub <:+ segs) {cont cont' : Cont}
    (hc : ContOn ρ sub cont cont')
    (hfresh : ∀ start count k, .point start count k ∈ sub → ρ.cont k = none) {n : Nat}
    (hn : sub.length ≤ n) :
    ∃ σ new m', promotePoints n cont m = .ok new m' ∧ ρ ≤ σ ∧ ContAgree σ new cont' ∧
      (∀ k, (∀ start count, .point start count k ∉ sub) → σ.cont k = ρ.cont k) ∧
      Core σ segs lo m' r ∧ Promoted m m' := by
  induction sub generalizing cont cont' n with
  | nil =>
    cases hc with
    | onStack hmem => cases hmem
    | agree hc =>
      refine ⟨ρ, cont, m, promotePoints_done ?_, le_rfl, hc, fun _ _ => rfl, h, .refl m⟩
      cases hc <;> cases n <;> rfl
  | cons s rest ih =>
    have hrest := suffix_of_cons_suffix hs
    have hfresh' : ∀ start count k, .point start count k ∈ rest → ρ.cont k = none :=
      fun start count k hm => hfresh start count k (List.mem_cons_of_mem _ hm)
    rw [List.length_cons] at hn
    by_cases hr : ContOn ρ rest cont cont'
    · obtain ⟨σ, new, m', hm, hρ, hnew, hsame, h', hp⟩ := ih hrest hr hfresh' (n := n) (by omega)
      exact ⟨σ, new, m', hm, hρ, hnew,
        fun k hk => hsame k fun start count hm => hk start count (List.mem_cons_of_mem _ hm), h',
        hp⟩
    · obtain ⟨start, count, k, rfl, rfl, rfl⟩ : ∃ start count k, s = .point start count k ∧
          cont = .onStack (start + count + 4) ∧ cont' = .onHeap ⟨k⟩ := by
        cases hc with
        | agree hc => exact absurd (.agree hc) hr
        | @onStack start count k hmem =>
          rcases List.mem_cons.1 hmem with rfl | hmem
          · exact ⟨start, count, k, rfl, rfl, rfl⟩
          · exact absurd (.onStack hmem) hr
      obtain ⟨n, rfl⟩ : ∃ n', n = n' + 1 := ⟨n - 1, by omega⟩
      obtain ⟨htop, ⟨p, c, hp⟩, -⟩ := h.stacked.at_suffix hs
      have hsp : start + count + 4 ≤ m.sp := by
        have := h.sp
        rw [Segment.top_point] at htop
        omega
      obtain ⟨σ, new, m₁, hm₁, hρ, hnew, hsame, h₁, hp₁⟩ :=
        ih hrest hp.prev hfresh' (n := n) (by omega)
      have hk : σ.cont k = none := by
        rw [hsame k hp.unique, hfresh start count k List.mem_cons_self]
      obtain ⟨τ, q, m₂, hm₂, hστ, hq, hsame₂, h₂, hp₂⟩ := h₁.movePoint hs hρ hp hk hnew
      refine ⟨τ, .onHeap ⟨q⟩, m₂, ?_, hρ.trans hστ, .onHeap hq, ?_, h₂, hp₁.trans hp₂⟩
      · rw [promotePoints_point (hp.returnPoint hsp), bind_ok hm₁, hm₂]
      · intro i hi
        have hne : i ≠ k := by
          rintro rfl
          exact hi start count List.mem_cons_self
        rw [hsame₂ i hne, hsame i fun start count hm => hi start count (List.mem_cons_of_mem _ hm)]

theorem Core.promoteCont (h : Core ρ segs lo m r) {cont cont' : Cont}
    (hc : ContOn ρ segs cont cont')
    (hfresh : ∀ start count k, .point start count k ∈ segs → ρ.cont k = none) :
    ∃ σ new m', promoteCont cont m = .ok new m' ∧ ρ ≤ σ ∧ ContAgree σ new cont' ∧
      Core σ segs lo m' r ∧ Promoted m m' := by
  have hn : segs.length ≤ m.capacity := by
    have := h.stacked.length_le
    have := h.sp
    have := h.room
    omega
  obtain ⟨σ, new, m', hm, hρ, hnew, -, h', hp⟩ :=
    h.promotePoints (List.suffix_refl _) hc hfresh hn
  exact ⟨σ, new, m', (promoteCont_eq cont).trans hm, hρ, hnew, h', hp⟩

end Points

end LispMachine
