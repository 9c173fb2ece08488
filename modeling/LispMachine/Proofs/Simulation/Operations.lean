import LispMachine.Proofs.Simulation.Returns

/-! # Parts of instructions

Each operation of which the instructions are made follows the one of the machine without a stack. An
operation that takes operands needs as many as it takes, unless getting stuck is admitted.
-/

namespace LispMachine

open Machine

variable {full lax : Prop} {before : HostCalls} {left : Bool} {ρ : Naming} {m : Machine}
  {r : HeapMachine}
  {v u : Value}

/-- In the middle of an instruction, with the operands and arguments of `r₀`. -/
def Stays (before : HostCalls) (left : Bool) (r₀ : HeapMachine) (ρ : Naming) (m : Machine)
    (r : HeapMachine) : Prop :=
  InStep before left ρ m r ∧ r.operands = r₀.operands ∧ r.argc = r₀.argc

/-! ## Registers -/

theorem InStep.acc (hi : InStep before left ρ m r) : Agree ρ m.acc r.acc := by
  obtain ⟨segs, lo, h, -⟩ := hi
  exact h.acc

theorem InStep.heap (hi : InStep before left ρ m r) : HeapAgree ρ m.heap r.heap := by
  obtain ⟨segs, lo, h, -⟩ := hi
  exact h.heap

theorem InStep.ip (hi : InStep before left ρ m r) : m.ip = r.ip := by
  obtain ⟨segs, lo, h, -⟩ := hi
  exact h.ip

theorem InStep.argc (hi : InStep before left ρ m r) : m.argc = r.argc := by
  obtain ⟨segs, lo, h, -⟩ := hi
  exact h.argc

theorem InStep.readSlot (hi : InStep before left ρ m r) (depth index : Nat) :
    ExceptAgree (Agree ρ) (m.readSlot depth index) (r.readSlot depth index) := by
  obtain ⟨segs, lo, h, -⟩ := hi
  exact h.readSlot h.env depth index

theorem InStep.relative (hi : InStep before left ρ m r) (offset : Int) :
    ExceptAgree Eq (m.relative offset) (r.relative offset) := by
  obtain ⟨segs, lo, h, -⟩ := hi
  exact h.relative offset

theorem InStep.withAcc (hi : InStep before left ρ m r) (hv : Agree ρ v u) :
    InStep before left ρ { m with acc := v } { r with acc := u } := by
  obtain ⟨segs, lo, h, hr⟩ := hi
  exact ⟨segs, lo, { h with acc := hv }, hr⟩

theorem InStep.withIp (hi : InStep before left ρ m r) (ip : Nat) :
    InStep before left ρ { m with ip } { r with ip } := by
  obtain ⟨segs, lo, h, hr⟩ := hi
  exact ⟨segs, lo, { h with ip := rfl }, hr⟩

theorem InStep.withArgc (hi : InStep before left ρ m r) (argc : Nat) :
    InStep before left ρ { m with argc } { r with argc } := by
  obtain ⟨segs, lo, h, hr⟩ := hi
  exact ⟨segs, lo, { h with argc := rfl }, hr⟩

theorem InStep.setAcc (hi : InStep before left ρ m r) (hv : Agree ρ v u) :
    Follows full lax before ρ (fun σ _ _ m' r' => InStep before left σ m' r') (Machine.setAcc v m)
      (Machine.setAcc u r) :=
  .ok le_rfl (hi.withAcc hv)

theorem InStep.halt (hi : InStep before left ρ m r) :
    Follows full lax before ρ (fun σ _ _ m' r' => InStep before left σ m' r') (Machine.halt m)
      (Machine.halt r) := by
  obtain ⟨segs, lo, h, hr⟩ := hi
  exact .ok le_rfl ⟨segs, lo, { h with runnable := rfl }, hr⟩

/-! ## Objects -/

/-- A change to the heaps that leaves frames and continuations alone. -/
theorem InStep.withHeap (hi : InStep before left ρ m r) {h' g : Heap} (hg : HeapAgree ρ h' g)
    (hf : g.frames = r.heap.frames) (hc : g.continuations = r.heap.continuations)
    (hp : g.procedures = r.heap.procedures) (hc' : h'.continuations = m.heap.continuations) :
    InStep before left ρ { m with heap := h' } { r with heap := g } := by
  obtain ⟨segs, lo, h, hr⟩ := hi
  refine ⟨segs, lo, ?_, hr⟩
  exact
    { h with
      heap := hg
      saved := by
        have := h.saved
        unfold SavedWithin at this ⊢
        rwa [← hc, ← hc'] at this
      uniform := by
        change ∀ p ∈ g.procedures, p.body.Uniform
        rw [hp]
        exact h.uniform
      born := by
        change r.born.size = g.continuations.size
        rw [hc]
        exact h.born
      stacked := h.stacked_congr le_rfl (fun _ _ h => h) (fun _ _ => rfl) (hf ▸ .refl _)
        (hc ▸ .refl _) (.refl _) }

theorem InStep.cons {w z : Value} (hi : InStep before left ρ m r) (hv : Agree ρ v u)
    (hw : Agree ρ w z) :
    Follows full lax before ρ (fun σ a b m' r' => Agree σ a b ∧ Stays before left r σ m' r')
      (Machine.cons v w m) (Machine.cons u z r) := by
  refine .ok le_rfl ⟨?_, hi.withHeap (hi.heap.pushPair ⟨hv, hw⟩) rfl rfl rfl rfl, rfl, rfl⟩
  simp only [HasRegisters.registers, hi.heap.pairs.1]
  exact .same (by simp)

theorem InStep.newClosure {c c' : Closure} (hi : InStep before left ρ m r)
    (hc : ClosureAgree ρ c c') :
    Follows full lax before ρ (fun σ a b m' r' => a = b ∧ InStep before left σ m' r')
      (Machine.newClosure c m) (Machine.newClosure c' r) :=
  .ok le_rfl ⟨congrArg Ref.mk hi.heap.closures.1,
    hi.withHeap (hi.heap.pushClosure hc) rfl rfl rfl rfl⟩

theorem InStep.modifyPair (hi : InStep before left ρ m r) {i : Nat} {φ ψ : Pair → Pair}
    (hφ : ∀ p p', PairAgree ρ p p' → PairAgree ρ (φ p) (ψ p')) :
    InStep before left ρ { m with heap.pairs := m.heap.pairs.modify i φ }
      { r with heap.pairs := r.heap.pairs.modify i ψ } :=
  hi.withHeap (hi.heap.modifyPair hφ) rfl rfl rfl rfl

theorem chain_eq (g : Heap) (vs : List Value) (v : Value) :
    ∃ pairs, (g.chain vs v).2 = { g with pairs } := by
  induction vs with
  | nil => exact ⟨g.pairs, rfl⟩
  | cons a vs ih =>
    obtain ⟨pairs, h⟩ := ih
    refine ⟨pairs.push ⟨a, (g.chain vs v).1⟩, ?_⟩
    change { (g.chain vs v).2 with pairs := (g.chain vs v).2.pairs.push ⟨a, (g.chain vs v).1⟩ } = _
    rw [h]

theorem InStep.setCar {w z : Value} (hi : InStep before left ρ m r) (hv : Agree ρ v u)
    (hw : Agree ρ w z) :
    ResultAgree before left ρ (fun _ _ m' r' => InStep before left ρ m' r') (Machine.setCar v w m)
      (Machine.setCar u z r) := by
  cases hv with
  | continuation => exact .raise hi (.same _)
  | same hne =>
    cases v with
    | pair p =>
      exact .query_bind hi (hi.heap.pair p) fun _ _ _ =>
        .ok (hi.modifyPair fun _ _ hp => ⟨hw, hp.cdr⟩)
    | _ => exact .raise hi (.same _)

theorem InStep.setCdr {w z : Value} (hi : InStep before left ρ m r) (hv : Agree ρ v u)
    (hw : Agree ρ w z) :
    ResultAgree before left ρ (fun _ _ m' r' => InStep before left ρ m' r') (Machine.setCdr v w m)
      (Machine.setCdr u z r) := by
  cases hv with
  | continuation => exact .raise hi (.same _)
  | same hne =>
    cases v with
    | pair p =>
      exact .query_bind hi (hi.heap.pair p) fun _ _ _ =>
        .ok (hi.modifyPair fun _ _ hp => ⟨hp.car, hw⟩)
    | _ => exact .raise hi (.same _)

theorem InStep.setVector {vs us : List Value} (hi : InStep before left ρ m r) (p : Ref .vector)
    (hvs : List.Forall₂ (Agree ρ) vs us) :
    ResultAgree before left ρ (fun _ _ m' r' => InStep before left ρ m' r')
      (Machine.setVector p vs m) (Machine.setVector p us r) :=
  .query_bind hi (hi.heap.vector p) fun _ _ _ =>
    .ok (hi.withHeap (hi.heap.setVector p hvs) rfl rfl rfl rfl)

theorem InStep.splice {w z : Value} (hi : InStep before left ρ m r) (hv : Agree ρ v u)
    (hw : Agree ρ w z) :
    Follows full lax before ρ (fun σ a b m' r' => Agree σ a b ∧ InStep before left σ m' r')
      (Machine.splice v w m) (Machine.splice u z r) := by
  refine .query_bind hi (hi.heap.items hv) fun vs us hvs => ?_
  obtain ⟨ha, hh⟩ := hi.heap.chain hvs hw
  obtain ⟨pairs, hg⟩ := chain_eq r.heap us z
  obtain ⟨pairs', hg'⟩ := chain_eq m.heap vs w
  have hi' := hi.withHeap hh (by rw [hg]) (by rw [hg]) (by rw [hg]) (by rw [hg'])
  exact .ok le_rfl ⟨ha, hi'⟩

/-! ## Operands -/

theorem InStep.push (hi : InStep before left ρ m r) (hl : lax ∨ left = false) (hv : Agree ρ v u) :
    Follows True lax before ρ
      (fun σ _ _ m' r' => InStep before left σ m' r' ∧ r'.operands.size = r.operands.size + 1 ∧
        r'.argc = r.argc)
      (Machine.push v m) (HeapMachine.push u r) := by
  obtain ⟨segs, lo, h, hr, hleft⟩ := hi
  unfold HeapMachine.push
  split
  · next hleaving => exact .stuck (hl.resolve_right fun hl => by simp [hleft hl] at hleaving)
  · next hleaving =>
    rcases h.push (h.bp (by simpa using hleaving)) hv with
      ⟨σ, segs', lo', m', hm', hρ, h'⟩ | ⟨σ, segs', lo', m', hm', h', hcap⟩
    · rw [hm']
      exact .ok hρ ⟨⟨segs', lo', h', hr, hleft⟩, by simp, rfl⟩
    · rw [hm']
      exact .overflow trivial (.inl rfl) ⟨σ, segs', lo', r, h'⟩
        (lt_of_lt_of_le hcap (by rw [Nat.add_assoc]; exact le_max_right ..))

theorem InStep.pushAll {vs us : List Value} (hi : InStep before left ρ m r)
    (hl : lax ∨ left = false) (hvs : List.Forall₂ (Agree ρ) vs us) :
    Follows True lax before ρ
      (fun σ _ _ m' r' => InStep before left σ m' r' ∧
        r'.operands.size = r.operands.size + us.length ∧ r'.argc = r.argc)
      (Machine.pushAll vs m) (HeapMachine.pushAll us r) := by
  induction vs generalizing us ρ m r with
  | nil =>
    cases hvs
    exact .ok le_rfl ⟨hi, rfl, rfl⟩
  | cons a vs ih =>
    cases hvs with
    | cons hab hvs =>
      refine (hi.push hl hab).bind_of_grows (fun _ => HeapMachine.grows_pushAll _) ?_
      rintro σ - - m' r' hρ ⟨hi', hsize, hargc⟩
      refine (ih hi' (forall₂_mono hvs hρ)).imp ?_
      rintro τ - - m'' r'' - ⟨hi'', hsize', hargc'⟩
      refine ⟨hi'', ?_, hargc'.trans hargc⟩
      rw [hsize', hsize, List.length_cons]
      omega

theorem InStep.pop (hi : InStep before left ρ m r) (hn : lax ∨ 0 < r.operands.size) :
    Follows full lax before ρ
      (fun σ a b m' r' => Agree σ a b ∧ InStep before left σ m' r' ∧
        r'.operands.size + 1 = r.operands.size ∧ r'.argc = r.argc)
      (Machine.pop m) (HeapMachine.pop r) := by
  obtain ⟨segs, lo, h, hr⟩ := hi
  unfold HeapMachine.pop
  cases hb : r.operands.back? with
  | none =>
    have : r.operands.size = 0 := by simpa [Array.back?_eq_none_iff] using hb
    exact .stuck (hn.resolve_right (by omega))
  | some u =>
    obtain ⟨v, m', hm', hv, h'⟩ := h.popCell hb
    have hpos : 0 < r.operands.size := by
      rw [Array.back?_eq_getElem?] at hb
      have := (Array.getElem?_eq_some_iff.1 hb).1
      omega
    rw [hm']
    exact .ok le_rfl ⟨hv, ⟨segs, lo, h', hr⟩, by simp; omega, rfl⟩

theorem InStep.top (hi : InStep before left ρ m r) (hn : lax ∨ 0 < r.operands.size) :
    Follows full lax before ρ (fun σ a b m' r' => Agree σ a b ∧ InStep before left σ m' r')
      (Machine.top m) (HeapMachine.top r) := by
  obtain ⟨segs, lo, h, hr⟩ := hi
  cases hb : r.operands.back? with
  | none =>
    have : r.operands.size = 0 := by simpa [Array.back?_eq_none_iff] using hb
    have hstuck : HeapMachine.top r = .error .stuck r := by
      simp [HeapMachine.top, Machine.query, hb, present]
    rw [hstuck]
    exact .stuck (hn.resolve_right (by omega))
  | some u =>
    obtain ⟨v, sp, hsp, hv, hag⟩ := h.top hb
    have htop : HeapMachine.top r = .ok u r := by
      simp [HeapMachine.top, Machine.query, hb, present]
    rw [htop]
    simp only [Machine.top, get_bind_apply, hsp]
    rw [query_ok (show m.cell sp = .ok v by rw [cell, hv]; rfl)]
    exact .ok le_rfl ⟨hag, segs, lo, h, hr⟩

theorem InStep.popOnto (hi : InStep before left ρ m r) (n : Nat) (hn : lax ∨ n ≤ r.operands.size)
    (hv : Agree ρ v u) :
    Follows full lax before ρ
      (fun σ a b m' r' => Agree σ a b ∧ InStep before left σ m' r' ∧
        r'.operands.size + n = r.operands.size ∧ r'.argc = r.argc)
      (Machine.popOnto n v m) (Machine.popOnto n u r) := by
  induction n generalizing ρ m r v u with
  | zero => exact .ok le_rfl ⟨hv, hi, rfl, rfl⟩
  | succ n ih =>
    refine (hi.pop (hn.imp_right (by omega))).bind ?_
    rintro σ a b m₁ r₁ hρ ⟨hab, hi₁, hsize, hargc⟩
    refine (hi₁.cons hab (hv.mono hρ)).bind ?_
    rintro τ a b m₂ r₂ - ⟨hab, hi₂, hops, hargc₂⟩
    refine (ih hi₂ (hn.imp_right (by rw [hops]; omega)) hab).imp ?_
    rintro υ a b m₃ r₃ - ⟨hab, hi₃, hsize₃, hargc₃⟩
    exact ⟨hab, hi₃, by rw [hops] at hsize₃; omega, hargc₃.trans (hargc₂.trans hargc)⟩

/-! ## Frames -/

theorem InStep.checkArgc (hi : InStep before left ρ m r) (least most : Nat) :
    Follows full lax before ρ
      (fun σ _ _ m' r' => σ = ρ ∧ m' = m ∧ r' = r ∧ least ≤ r.argc ∧ r.argc ≤ most)
      (Machine.checkArgc least most m) (Machine.checkArgc least most r) := by
  simp only [Machine.checkArgc, get_bind_apply, HasRegisters.registers, hi.argc]
  by_cases hleast : r.argc < least
  · simp only [if_pos hleast]
    exact .raise hi (.same _)
  · by_cases hmost : most < r.argc
    · simp only [if_neg hleast, if_pos hmost]
      exact .raise hi (.same _)
    · simp only [if_neg hleast, if_neg hmost]
      exact .ok le_rfl ⟨rfl, rfl, rfl, by omega, by omega⟩

theorem InStep.pushFrame (hi : InStep before left ρ m r) (taken extra : Nat)
    (hn : lax ∨ taken ≤ r.operands.size) :
    Follows full lax before ρ (fun σ _ _ m' r' => InStep before false σ m' r')
      (Machine.pushFrame taken extra m) (HeapMachine.pushFrame taken extra r) := by
  obtain ⟨segs, lo, h, hr, -⟩ := hi
  by_cases htaken : taken ≤ r.operands.size
  · obtain ⟨σ, segs', lo', m', hm', hρ, h'⟩ := h.pushFrame htaken
    rw [hm', HeapMachine.pushFrame_eq htaken]
    exact .ok hρ ⟨segs', lo', h', hr, fun _ => rfl⟩
  · have hstuck : HeapMachine.pushFrame taken extra r = .error .stuck r := by
      rw [HeapMachine.pushFrame, if_pos (by omega)]
    rw [hstuck]
    exact .stuck (hn.resolve_right htaken)

theorem InStep.writeSlot (hi : InStep before left ρ m r) (depth index : Nat) (hv : Agree ρ v u) :
    ResultAgree before left ρ (fun _ _ m' r' => InStep before left ρ m' r')
      (Machine.writeSlot depth index v m) (HeapMachine.writeSlot depth index u r) := by
  obtain ⟨segs, lo, h, hr, hleft⟩ := hi
  refine (h.writeSlot hr hleft hv depth index).imp ?_
  rintro - - m' r' ⟨h', hhosts, hleaving⟩
  exact ⟨segs, lo, h', by rwa [hhosts], by rwa [hleaving]⟩

def Arity.Accepts (a : Arity) (argc : Nat) : Prop :=
  a.required ≤ argc ∧ (a.variadic = true ∨ argc ≤ a.required + a.optional)

instance (a : Arity) (argc : Nat) : Decidable (a.Accepts argc) :=
  inferInstanceAs (Decidable (_ ∧ _))

theorem InStep.enterFrame (hi : InStep before left ρ m r) (a : Arity)
    (hn : lax ∨ (a.Accepts r.argc → r.argc ≤ r.operands.size)) :
    Follows full lax before ρ (fun σ _ _ m' r' => InStep before false σ m' r')
      (Machine.enterFrame a m) (Machine.enterFrame a r) := by
  simp only [Machine.enterFrame, Machine.layOutFrame, get_bind_apply, HasRegisters.registers,
    hi.argc]
  by_cases hvariadic : a.variadic
  · simp only [if_pos hvariadic]
    refine (hi.checkArgc _ _).bind ?_
    rintro _ - - _ _ - ⟨rfl, rfl, rfl, hleast, -⟩
    replace hn := hn.imp_right fun hn => hn ⟨hleast, .inl hvariadic⟩
    refine (hi.popOnto _ (hn.imp_right fun hn => by omega) .nil).bind ?_
    rintro σ v u m₁ r₁ hρ ⟨hv, hi₁, hsize, -⟩
    refine (hi₁.pushFrame _ _ (hn.imp_right fun hn => by omega)).bind ?_
    rintro τ - - m₂ r₂ hσ hi₂
    exact (hi₂.writeSlot _ _ (hv.mono hσ)).follows
  · simp only [if_neg hvariadic]
    refine (hi.checkArgc _ _).bind ?_
    rintro _ - - _ _ - ⟨rfl, rfl, rfl, hleast, hmost⟩
    rw [query_bind_ok (distance_ok hmost), HeapMachine.query_bind_ok (distance_ok hmost)]
    exact hi.pushFrame _ _ (hn.imp_right fun hn => hn ⟨hleast, .inr hmost⟩)

/-- A frame that no pending continuation needs lies above all pending return points. -/
theorem Represents.top_le_of_innermost {segs : List Segment} {lo : Nat}
    (h : Represents ρ segs lo m r) {j : Ref .frame} (hr : r.env = .onHeap j)
    (hn : r.isNeeded j = false) {start count : Nat} {parent : Env}
    (hm : m.innermost m.env = .ok (.onStack start count, parent)) : m.cont.top ≤ start := by
  have he := h.env
  rw [hr] at he
  obtain ⟨slots, parent', f, hm', -, hslots⟩ := h.innermost he
  rw [hm] at hm'
  cases hm'
  cases hslots with
  | onStack hs => exact h.top_le_of_not_needed hs hn

theorem InStep.reuseFrame (hi : InStep before left ρ m r) (n : Nat) (hl : lax) :
    Follows full lax before ρ (fun σ _ _ m' r' => InStep before true σ m' r')
      (Machine.reuseFrame n m) (HeapMachine.reuseFrame n r) := by
  obtain ⟨segs, lo, h, hhosts, -⟩ := hi
  by_cases hn : r.operands.size < n
  · have hstuck : HeapMachine.reuseFrame n r = .error .stuck r := by
      simp [HeapMachine.reuseFrame, hn]
    rw [hstuck]
    exact .stuck hl
  · cases hr : r.env with
    | onStack =>
      have he := h.env
      rw [hr] at he
      exact he.not_onStack.elim
    | empty =>
      have htop (start count : Nat) (parent : Env)
          (hm : m.innermost m.env = .ok (.onStack start count, parent)) : m.cont.top ≤ start := by
        have he := h.env
        rw [hr] at he
        rw [he.eq_empty] at hm
        cases hm
      obtain ⟨segs', lo', m', env, hm', h', ⟨-, rfl⟩ | ⟨j, f, hj, -⟩⟩ :=
        h.reuseFrame (Nat.le_of_not_lt hn) htop
      · have hrun : HeapMachine.reuseFrame n r = .ok () (r.leaveFor .empty n) := by
          simp [HeapMachine.reuseFrame, hn, hr]
        rw [hm', hrun]
        exact .ok le_rfl ⟨segs', lo', h', hhosts, by simp⟩
      · rw [hr] at hj
        cases hj
    | onHeap j =>
      cases hneeded : r.isNeeded j with
      | true =>
        have hstuck : HeapMachine.reuseFrame n r = .error .stuck r := by
          simp [HeapMachine.reuseFrame, hn, hr, hneeded]
        rw [hstuck]
        exact .stuck hl
      | false =>
        obtain ⟨segs', lo', m', env, hm', h', ⟨he, -⟩ | ⟨i, f, hi, hf, rfl⟩⟩ :=
          h.reuseFrame (Nat.le_of_not_lt hn) fun _ _ _ hm => h.top_le_of_innermost hr hneeded hm
        · rw [hr] at he
          cases he
        · rw [hr] at hi
          cases hi
          have hrun : HeapMachine.reuseFrame n r = .ok () (r.leaveFor f.parent n) := by
            simp only [HeapMachine.reuseFrame, get_bind_apply, if_neg hn, hr, hneeded]
            exact HeapMachine.query_bind_ok hf
          rw [hm', hrun]
          exact .ok le_rfl ⟨segs', lo', h', hhosts, by simp⟩

end LispMachine
