import LispMachine.Proofs.Simulation.Promotion

/-! # Making room

Reclaiming the stack moves everything that the registers name to the heap and keeps the operands of
the current activation, so it cannot be seen from outside. No segment is left.
-/

namespace LispMachine

open Machine

def Machine.kept (m : Machine) : Nat := min (max m.bp m.cont.top) m.sp

variable {ρ : Naming} {segs : List Segment} {lo : Nat} {m : Machine} {r : HeapMachine}

/-- Once everything that the registers name is on the heap, the cells that are kept slide down. -/
theorem reclaim_eq {m₁ m₂ : Machine} {env : Env} {cont : Cont}
    (hm₁ : promoteEnv m.env m = .ok env m₁)
    (hm₂ : promoteCont m₁.cont { m₁ with env } = .ok cont m₂)
    (he : ∀ e, env ≠ .onStack e) (hc : ∀ c, cont ≠ .onStack c) (hsp : m₂.sp = m.sp)
    (hbp : m₂.bp = m.bp) (hroom : m₂.sp ≤ m₂.capacity) :
    Machine.reclaim m = .ok () (if m.kept = 0 then { m₂ with cont } else
      { m₂ with
        cont
        stack := Cells.slide m₂.stack 0 m.kept (m.sp - m.kept)
        sp := m.sp - m.kept
        bp := min (m.bp - m.kept) (m.sp - m.kept) }) := by
  have hkept : min (max m₂.bp m.cont.top) m₂.sp = m.kept := by rw [hsp, hbp, Machine.kept]
  have hrun : Machine.reclaim m = (if m.kept ≠ 0 then do
        slideCells 0 m.kept (m₂.sp - m.kept)
        modify fun m' => { m' with
          sp := m₂.sp - m.kept, bp := min (m'.bp - m.kept) (m₂.sp - m.kept) }
      else pure () : Exec Unit) { m₂ with cont } := by
    simp only [Machine.reclaim, get_bind_apply]
    rw [bind_ok hm₁]
    simp only [modify_bind_apply, get_bind_apply]
    rw [bind_ok hm₂, ← hkept]
    simp only [modify_bind_apply]
    cases env with
    | onStack e => exact absurd rfl (he e)
    | _ =>
      cases cont with
      | onStack c => exact absurd rfl (hc c)
      | _ => rfl
  rw [hrun]
  by_cases hk : m.kept = 0
  · rw [if_neg (not_not_intro hk), if_pos hk]
    rfl
  · have hle : m.kept ≤ m.sp := Nat.min_le_right _ _
    have hslide : slideCells 0 m.kept (m₂.sp - m.kept) { m₂ with cont } =
        .ok () { m₂ with cont, stack := Cells.slide m₂.stack 0 m.kept (m₂.sp - m.kept) } :=
      if_pos ⟨Nat.zero_le _, show m.kept + (m₂.sp - m.kept) ≤ m₂.capacity by omega⟩
    rw [if_pos hk, if_neg hk, bind_ok hslide, hsp]
    simp only [modify_apply, hbp]

theorem Core.forgetSegments (h : Core ρ segs lo m r) : Core ρ [] lo m r :=
  { h with stacked := .nil, frames_le := nofun }

theorem Core.represents_nil (h : Core ρ segs lo m r) (henv : EnvAgree ρ m.env r.env)
    (hcont : ContAgree ρ m.cont r.cont) (hslack : lo ≤ m.bp + r.demand.slack) :
    Represents ρ [] lo m r :=
  { h.forgetSegments with
    env := .agree henv
    cont := .agree hcont
    fresh := fun _ _ _ hm => by cases hm
    slack := by omega }

/-- With the continuation on the heap the return points are of no use any more. -/
theorem Core.represents_frames (h : Core ρ segs lo m r) (henv : EnvOn ρ segs m.env r.env)
    (hcont : ContAgree ρ m.cont r.cont) (hslack : lo ≤ m.bp + r.demand.slack) :
    Represents ρ (segs.filter Segment.isFrame) lo m r where
  toCore :=
    { h with
      stacked := by
        refine h.stacked.filter _ fun s rest _ hk hseg => ?_
        cases s with
        | point => cases hk
        | frame start count j =>
          rcases hseg with hmoved | ⟨parent, f, hl⟩
          · exact .inl hmoved
          · refine .inr ⟨parent, f, { hl with unique := ?_, parent := ?_ }⟩
            · intro start' count' hm
              exact hl.unique start' count' (List.mem_of_mem_filter hm)
            · exact hl.parent.mono le_rfl fun _ _ _ hm => List.mem_filter.2 ⟨hm, rfl⟩
      frames_le := fun hl start count j hm =>
        h.frames_le hl start count j (List.mem_of_mem_filter hm) }
  env := henv.mono le_rfl fun _ _ _ hm => List.mem_filter.2 ⟨hm, rfl⟩
  cont := .agree hcont
  fresh := by
    intro start count k hm
    cases (List.mem_filter.1 hm).2
  slack := by omega

theorem Represents.promoteCurrent (h : Represents ρ segs lo m r) :
    ∃ σ new m', Machine.promoteCurrent m = .ok new m' ∧ ρ ≤ σ ∧ EnvAgree σ new r.env ∧
      m'.env = new ∧ Represents σ segs lo m' r ∧ m'.capacity = m.capacity := by
  obtain ⟨σ, new, m₁, hm₁, hρ, hcont, hnew, h₁, hp⟩ := h.promoteEnv h.env
  refine ⟨σ, new, { m₁ with env := new }, ?_, hρ, hnew, rfl, ?_, hp.capacity⟩
  · simp only [Machine.promoteCurrent, get_bind_apply]
    rw [bind_ok hm₁]
    rfl
  · exact
      { h₁ with
        env := .agree hnew
        cont := by
          have := h.cont.of_le hρ
          rwa [← hp.cont] at this
        fresh := fun start count k hm => by rw [hcont, h.fresh start count k hm]
        slack := by
          have := h.slack
          rwa [← hp.bp, ← hp.cont] at this }

theorem Represents.promoteContinuation (h : Represents ρ segs lo m r) :
    ∃ σ new m', promoteCont m.cont m = .ok new m' ∧ ρ ≤ σ ∧ ContAgree σ new r.cont ∧
      Core σ segs lo m' r ∧ Promoted m m' :=
  h.promoteCont h.cont h.fresh

theorem mem_slide {stack : Array Value} {target source n : Nat} {v : Value} (ht : target ≤ source)
    (hs : source + n ≤ stack.size) (h : v ∈ Cells.slide stack target source n) :
    v = .nil ∨ v ∈ stack := by
  obtain ⟨i, hi⟩ := Array.getElem?_of_mem h
  rw [Cells.getElem?_slide ht hs] at hi
  split at hi
  · exact .inr (Array.mem_of_getElem? hi)
  · split at hi
    · exact .inl (Option.some.inj hi).symm
    · exact .inr (Array.mem_of_getElem? hi)

theorem Core.slide (h : Core ρ [] lo m r) {base : Nat} (hbase : base ≤ lo) :
    Core ρ [] (lo - base)
      { m with
        stack := Cells.slide m.stack 0 base (m.sp - base)
        sp := m.sp - base
        bp := min (m.bp - base) (m.sp - base) } r := by
  have hsp := h.sp
  have hroom := h.room
  have hs : base + (m.sp - base) ≤ m.stack.size := by
    unfold capacity at hroom
    omega
  exact
    { h with
      sp := by
        simp only [hsp]
        omega
      room := by
        simp only [capacity, Cells.size_slide] at hroom ⊢
        omega
      least := by simpa [capacity] using h.least
      base := by
        have := h.base
        simp only
        omega
      operands := by
        refine h.operands.shift fun i hi => ?_
        rw [Cells.getElem?_slide (Nat.zero_le _) hs, if_pos (by omega)]
        congr 1
        omega
      known := by
        intro v hv
        rcases mem_slide (Nat.zero_le _) hs hv with rfl | hv
        · exact ⟨_, .nil⟩
        · exact h.known v hv
      stacked := .nil
      bp := fun hl => by
        have := h.bp hl
        simp only
        omega
      frames_le := nofun }

theorem ContOn.top_le {P : List Segment → Segment → Prop} {hi : Nat} {cont cont' : Cont}
    (hc : ContOn ρ segs cont cont') (h : Stacked P hi segs) : cont.top ≤ hi := by
  cases hc with
  | onStack hmem => exact h.top_le_of_mem hmem
  | agree hc => cases hc <;> exact Nat.zero_le _

/-- A collection keeps no more than the operands and what may lie below them. -/
theorem Represents.sp_sub_kept_le (h : Represents ρ segs lo m r) :
    m.sp - m.kept ≤ r.demand.slack + r.operands.size := by
  have := h.slack
  have := h.sp
  unfold Machine.kept
  omega

theorem Represents.le_sp_sub_kept (h : Represents ρ segs lo m r) (hl : r.leaving = false) :
    r.operands.size ≤ m.sp - m.kept := by
  have := h.bp hl
  have := h.cont.top_le h.stacked
  have := h.sp
  unfold Machine.kept
  omega

theorem Represents.reclaim (h : Represents ρ segs lo m r)
    (hbp : m.bp ≤ lo ∨ r.operands.size = 0) :
    ∃ σ lo' m', Machine.reclaim m = .ok () m' ∧ ρ ≤ σ ∧ Represents σ [] lo' m' r ∧
      m'.capacity = m.capacity ∧ m'.sp = m.sp - m.kept := by
  have htop : m.cont.top ≤ lo := h.cont.top_le h.stacked
  have hslack := h.slack
  obtain ⟨σ, env, m₁, hm₁, hρ, hcont₁, henv, h₁, hp₁⟩ := h.promoteEnv h.env
  have h₁' : Represents σ segs lo { m₁ with env } r :=
    { h₁ with
      env := .agree henv
      cont := by
        have := h.cont.of_le hρ
        rwa [← hp₁.cont] at this
      fresh := fun start count k hm => by rw [hcont₁, h.fresh start count k hm]
      slack := by rwa [← hp₁.bp, ← hp₁.cont] at hslack }
  obtain ⟨τ, cont, m₂, hm₂, hρ₂, hcont, h₂, hp₂⟩ := h₁'.promoteContinuation
  have henv₂ : EnvAgree τ m₂.env r.env := by
    have henv := henv.mono hρ₂
    rwa [← show m₂.env = env from hp₂.env] at henv
  have h₂' : Core τ segs lo { m₂ with cont } r := { h₂ with }
  have h₃ : Core τ [] lo { m₂ with cont } r := h₂'.forgetSegments
  have hbp₂ : m₂.bp = m.bp := hp₂.bp.trans hp₁.bp
  have hsp₂ : m₂.sp = m.sp := hp₂.sp.trans hp₁.sp
  have hcap₂ : m₂.capacity = m.capacity := hp₂.capacity.trans hp₁.capacity
  have hrun := reclaim_eq hm₁ hm₂ henv.not_onStack hcont.not_onStack hsp₂ hbp₂ h₂.room
  have hlo : m.sp = lo + r.operands.size := h.sp
  by_cases hk : m.kept = 0
  · rw [if_pos hk] at hrun
    refine ⟨τ, lo, _, hrun, hρ.trans hρ₂, h₃.represents_nil henv₂ hcont ?_, hcap₂, ?_⟩
    · unfold Machine.kept at hk
      simp only
      omega
    · simp only [hsp₂, hk, Nat.sub_zero]
  · rw [if_neg hk] at hrun
    have hkept : m.kept ≤ lo := by
      unfold Machine.kept
      omega
    have h₄ := h₃.slide hkept
    simp only [hsp₂, hbp₂] at h₄
    refine ⟨τ, _, _, hrun, hρ.trans hρ₂, h₄.represents_nil henv₂ hcont ?_,
      by simpa [capacity] using hcap₂, rfl⟩
    unfold Machine.kept
    simp only
    omega

theorem makeRoom_of_room {n : Nat} {f : Fault} (h : m.sp + n ≤ m.capacity) :
    Machine.makeRoom n f m = .ok () m := by
  simp only [Machine.makeRoom, get_bind_apply, if_neg (Nat.not_lt.2 h)]
  rfl

theorem makeRoom_of_reclaim {n : Nat} {f : Fault} {m' : Machine} (h : ¬ m.sp + n ≤ m.capacity)
    (hm : Machine.reclaim m = .ok () m') :
    Machine.makeRoom n f m =
      if m'.sp + n ≤ m'.capacity then .ok () m' else .error (.fault f) m' := by
  simp only [Machine.makeRoom, get_bind_apply, if_pos (Nat.not_le.1 h)]
  rw [bind_ok hm]
  by_cases hroom : m'.sp + n ≤ m'.capacity
  · simp only [get_bind_apply, if_neg (Nat.not_lt.2 hroom), if_pos hroom]
    rfl
  · simp only [get_bind_apply, if_pos (Nat.not_le.1 hroom), if_neg hroom]
    rfl

theorem makeRoom_eq_ok {n : Nat} {f : Fault} {m' : Machine}
    (h : Machine.makeRoom n f m = .ok () m') :
    m'.sp + n ≤ m'.capacity := by
  by_cases hroom : m.sp + n ≤ m.capacity
  · cases (makeRoom_of_room hroom).symm.trans h
    exact hroom
  · simp only [Machine.makeRoom, get_bind_apply, if_pos (Nat.not_le.1 hroom)] at h
    obtain ⟨-, m₁, -, h₁⟩ := bind_eq_ok h
    rw [get_bind_apply] at h₁
    split at h₁
    · cases h₁
    next hroom₁ =>
      cases h₁
      exact Nat.not_lt.1 hroom₁

/-- Either there is room, after a collection if need be, or the fault is raised. -/
theorem Represents.makeRoom (h : Represents ρ segs lo m r)
    (hbp : m.bp ≤ lo ∨ r.operands.size = 0) (n : Nat) (f : Fault) :
    (∃ σ segs' lo' m', Machine.makeRoom n f m = .ok () m' ∧ ρ ≤ σ ∧ Represents σ segs' lo' m' r ∧
      m'.capacity = m.capacity ∧ m'.sp + n ≤ m'.capacity ∧ m.sp - m.kept ≤ m'.sp) ∨
    ∃ σ segs' lo' m', Machine.makeRoom n f m = .error (.fault f) m' ∧
      Represents σ segs' lo' m' r ∧ m'.capacity < r.demand.slack + r.operands.size + n := by
  by_cases hroom : m.sp + n ≤ m.capacity
  · exact .inl ⟨ρ, segs, lo, m, makeRoom_of_room hroom, le_rfl, h, rfl, hroom, Nat.sub_le ..⟩
  · obtain ⟨σ, lo', m', hm, hρ, h', hcap, hsp⟩ := h.reclaim hbp
    rw [makeRoom_of_reclaim hroom hm]
    by_cases hroom' : m'.sp + n ≤ m'.capacity
    · exact .inl ⟨σ, [], lo', m', if_pos hroom', hρ, h', hcap, hroom', hsp.ge⟩
    · have := h.sp_sub_kept_le
      exact .inr ⟨σ, [], lo', m', if_neg hroom', h', by omega⟩

end LispMachine
