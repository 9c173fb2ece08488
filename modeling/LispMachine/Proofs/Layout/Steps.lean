import LispMachine.Proofs.Layout.Sustains

/-! # Single instructions sustain the layout

An orderly instruction finds all that it takes above what the registers name, so the operands of the
current activation may be taken to be just that.
-/

namespace LispMachine

open Machine

variable {before : HostCalls} {left : Bool} {ρ : Naming} {m : Machine} {r : HeapMachine}

theorem InStep.laidOut (hi : InStep before left ρ m r) : m.LaidOut left := by
  obtain ⟨segs, lo, h, -, hl⟩ := hi
  exact h.laidOut hl

/-! ## What an instruction takes -/

/-- The top cells may be taken for the operands. -/
theorem InStep.regroup (hi : InStep before left ρ m r) {n : Nat} (hn : m.floor left + n ≤ m.sp) :
    ∃ r', InStep before left ρ m r' ∧ r'.operands.size = n := by
  obtain ⟨segs, lo, h, hh, hl⟩ := hi
  unfold floor at hn
  have hbase : m.sp - n ≤ m.sp := Nat.sub_le ..
  have hbp (hl : left = false) : m.bp ≤ m.sp - n := by
    rw [hl] at hn
    simp only [Bool.false_eq_true, if_false] at hn
    omega
  obtain ⟨sub, operands, -, hsize, h'⟩ := h.regroup left hl (by omega) (by omega) hbase hbp
  refine ⟨_, ⟨sub, _, h', hh, fun hl => hl⟩, ?_⟩
  change operands.size = n
  omega

/-- The operands may be taken to be what the next instruction takes. -/
theorem InStep.supplied (hi : InStep before left ρ m r) (ho : m.Orderly left) {op : Opcode}
    (hop : m.opcode? = some op) :
    ∃ r', InStep before left ρ m r' ∧ ∀ n ∈ m.fetched.taken? op, n ≤ r'.operands.size := by
  cases ht : m.fetched.taken? op with
  | none => exact ⟨r, hi, nofun⟩
  | some n =>
    obtain ⟨r', hi', hsize⟩ := hi.regroup (ho.takes op hop n ht)
    refine ⟨r', hi', fun n' hn' => ?_⟩
    cases hn'
    exact hsize.ge

/-! ## Leaving a frame -/

theorem Machine.liveStart?_of_innermost {start count : Nat} {parent : Env}
    (h : m.innermost m.env = .ok (.onStack start count, parent)) : m.liveStart? = some start := by
  rw [liveStart?, h]

theorem Machine.reuseFrame_of_liveStart?_none {n : Nat} (h : m.liveStart? = none) :
    Machine.reuseFrame n m = Machine.reuseFrame 0 m := by
  by_cases hne : m.env = .empty
  · simp only [Machine.reuseFrame, get_bind_apply, hne]
  · cases hm : m.innermost m.env with
    | error s =>
      simp only [Machine.reuseFrame, get_bind_apply]
      rw [query_bind_error hm, query_bind_error hm]
    | ok x =>
      obtain ⟨slots, parent⟩ := x
      rw [reuseFrame_eq hne hm, reuseFrame_eq hne hm]
      cases slots with
      | onHeap => rfl
      | onStack start count =>
        rw [liveStart?_of_innermost hm] at h
        cases h

theorem InStep.keeps_reuseFrame (hi : InStep before left ρ m r) {n : Nat}
    (hn : m.liveStart?.isSome = true → n ≤ r.operands.size)
    (htop : ∀ start ∈ m.liveStart?, m.cont.top ≤ start) :
    Keeps before true ρ (fun left σ _ m' => Settled before left σ m') (Machine.reuseFrame n m) := by
  obtain ⟨segs, lo, h, hh, -⟩ := hi
  have htop' (start count : Nat) (parent : Env)
      (hm : m.innermost m.env = .ok (.onStack start count, parent)) : m.cont.top ≤ start :=
    htop start (liveStart?_of_innermost hm)
  cases hlive : m.liveStart? with
  | none =>
    obtain ⟨segs', lo', m', env, hm', h', -⟩ := h.reuseFrame (Nat.zero_le _) htop'
    rw [reuseFrame_of_liveStart?_none hlive, hm']
    exact .ok le_rfl ⟨_, segs', lo', h', hh.loosen, nofun⟩
  | some start =>
    obtain ⟨segs', lo', m', env, hm', h', -⟩ := h.reuseFrame (hn (by rw [hlive]; rfl)) htop'
    rw [hm']
    exact .ok le_rfl ⟨_, segs', lo', h', hh.loosen, nofun⟩

/-! ## All instructions -/

/-- An instruction sustains the layout, given that applying does. -/
theorem InStep.sustains_step {n : Nat} (hi : InStep before left ρ m r)
    (happly : ∀ {σ m r}, InStep before left σ m r →
      (m.appliesTo m.argc = true → r.argc ≤ r.operands.size) →
      Sustains before (m.leftAfterApply left) σ (fun left σ _ m' => Settled before left σ m')
        (applyVisits n m) (Machine.apply n m)) :
    Sustains before left ρ (fun left σ _ m' => Settled before left σ m')
      (stepVisits (applyVisits n) m) (step n m) := by
  rintro ⟨ho, hrest⟩
  suffices h : Sustains before (leftNext left m) ρ (fun left σ _ m' => Settled before left σ m')
      (if m.opcode? = some .apply then
        after Machine.fetchNat (fun argc m => applyVisits n { m with argc }) m.fetched
      else []) (step n m) from ⟨⟨hi.laidOut, (h hrest).1⟩, (h hrest).2⟩
  cases hop : m.opcode? with
  | none =>
    have hstep : Follows True False before ρ (fun _ _ _ _ _ => False) (step n m)
        (Machine.step n r) :=
      hi.stepWith fun op h => by rw [hop] at h; cases h
    rw [if_neg nofun]
    exact (hstep.keeps fun _ _ _ _ _ _ h => h.elim).sustains
  | some op =>
    obtain ⟨r', hi', htaken⟩ := hi.supplied ho hop
    have hleft : leftNext left m = m.fetched.leftAfter left op := by rw [leftNext, hop]
    rw [hleft, step, stepWith_of_opcode hop]
    by_cases happ : op = .apply
    · subst happ
      rw [if_pos rfl]
      refine hi'.fetched.fetchNat.sustains_bind ?_
      rintro σ argc _ m₁ r₁ - hm₁ ⟨rfl, hi₁, hops, -⟩
      obtain ⟨hargc, rfl⟩ := fetchNat_eq_ok hm₁
      refine happly (hi₁.withArgc argc) fun ha => ?_
      have hn : argc ≤ r'.operands.size := htaken argc (Option.filter_eq_some_iff.2 ⟨hargc, ha⟩)
      change argc ≤ r₁.operands.size
      rwa [hops]
    by_cases hreuse : op = .reuseFrame
    · subst hreuse
      rw [if_neg nofun, ← after_nil (x := Machine.fetchNat) (m := m.fetched)]
      refine hi'.fetched.fetchNat.sustains_bind ?_
      rintro σ k _ m₁ r₁ - hm₁ ⟨rfl, hi₁, hops, -⟩
      obtain ⟨hk, rfl⟩ := fetchNat_eq_ok hm₁
      refine (hi₁.keeps_reuseFrame (fun hlive => ?_) (ho.leaves hop)).sustains
      rw [hops]
      exact htaken k ((if_pos hlive).trans hk)
    · rw [if_neg fun h => happ (Option.some.inj h)]
      have hexec : Follows True False before ρ
          (fun σ _ _ m' r' => Landed before (m.fetched.leftAfter left op) σ m' r')
          (Machine.execute (Machine.apply n) op m.fetched)
          (Machine.execute (Machine.apply n) op r'.fetched) :=
        hi'.fetched.execute happ hreuse (.inr htaken) (.inr (ho.puts op hop))
      exact (hexec.keeps fun _ _ _ _ r _ hl => ⟨r, hl⟩).sustains

end LispMachine
