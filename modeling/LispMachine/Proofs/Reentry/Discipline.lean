import LispMachine.Proofs.Reentry.Sessions

/-! # Code that takes only its own operands

In a disciplined run each operation takes only values that the current activation has pushed. Then a
continuation on the heap keeps the operands that one of the callers had pending. It keeps nothing
else if this caller had left no other return point on the same base.
-/

namespace LispMachine

open Machine

variable {segs : List Segment} {s s' : Session} {m : Machine} {a : Caller} {callers : List Caller}
  {acts : List Act} {act : Act} {n : Nat} {P : Value → Prop}

/-- What is on record about a run: everything pending was pushed, and each continuation from number
`n` on keeps the operands of a caller. -/
structure Recorded (n : Nat) (P : Value → Prop) (s : Session) : Prop where
  operands : ∀ v ∈ s.operands, P v
  log : ∀ a ∈ s.log, (∀ v ∈ a.operands, P v) ∧ (a.direct = true → a.under = 0)
  callers : s.callers ⊆ s.log
  captured : ∀ x ∈ s.captured,
    x.2 ⊆ s.log ∧ Recalls s.machine.stack s.machine.heap [] (.onHeap x.1) x.2
  created : ∀ i o, n ≤ i → s.machine.heap.continuations[i]? = some o →
    o = .halting ∨ ∃ a ∈ s.log, a.KeptIn o.saved

namespace Recorded

theorem grow (h : Recorded n P s) (hg : s.Grows m) : Recorded n P { s with machine := m } where
  operands := h.operands
  log := h.log
  callers := h.callers
  captured x hx := ⟨(h.captured x hx).1, (h.captured x hx).2.of_heap hg.extended⟩
  created i o hi ho := by
    by_cases hold : i < s.machine.heap.continuations.size
    · refine h.created i o hi ?_
      have hsame := Array.getElem?_eq_getElem hold
      rw [hsame, ← ho]
      exact (hg.extended _ _ hsame).symm
    · rcases hg.created i o (Nat.not_lt.1 hold) ho with rfl | ⟨a, ha, hkept⟩
      · exact .inl rfl
      · exact .inr ⟨a, h.callers ha, hkept⟩

theorem caller (h : Recorded n P s)
    (ha : (∀ v ∈ a.operands, P v) ∧ (a.direct = true → a.under = 0)) :
    Recorded n P { s with callers := a :: s.callers, log := a :: s.log } where
  operands := h.operands
  log b hb := by
    rcases List.mem_cons.1 hb with rfl | hb
    · exact ha
    · exact h.log b hb
  callers := List.cons_subset_cons _ h.callers
  captured x hx := ⟨List.subset_cons_of_subset _ (h.captured x hx).1, (h.captured x hx).2⟩
  created i o hi ho := by
    rcases h.created i o hi ho with rfl | ⟨b, hb, hkept⟩
    · exact .inl rfl
    · exact .inr ⟨b, List.mem_cons_of_mem _ hb, hkept⟩

theorem calledBy (h : Recorded n P s)
    (ha : (∀ v ∈ a.operands, P v) ∧ (a.direct = true → a.under = 0))
    (hg : Session.Grows { s with callers := a :: s.callers, log := a :: s.log } m) :
    Recorded n P (s.calledBy a m) :=
  { (h.caller ha).grow hg with operands := fun v hv => by cases hv }

theorem backTo (h : Recorded n P s) (hg : s.Grows m) (hc : a :: callers ⊆ s.log) :
    Recorded n P (s.backTo m (a :: callers)) :=
  { h.grow hg with
    operands := (h.log a (hc List.mem_cons_self)).1
    callers := List.subset_of_cons_subset hc }

end Recorded

theorem Session.mem_captured {k : Ref .continuation} (h : s.callersOf k = a :: callers) :
    (k, a :: callers) ∈ s.captured := by
  unfold callersOf at h
  cases hf : s.captured.find? (·.1 = k) with
  | none =>
    rw [hf] at h
    cases h
  | some x =>
    rw [hf] at h
    have hk : x.1 = k := by simpa using List.find?_some hf
    have hx : x.2 = a :: callers := h
    rw [← hk, ← hx]
    exact List.mem_of_find?_eq_some hf

/-- The account agrees with the machine and with what is on record. -/
structure Accounted (n : Nat) (P : Value → Prop) (s : Session) : Prop extends Recorded n P s where
  placed : ∃ segs, Placed segs s

namespace Accounted

theorem push {v : Value} (h : Accounted n P s) (hleft : s.left = false) (hv : P v)
    (hexec : Machine.push v s.machine = .ok () m) : Accounted n P (s.next m (.push v)) := by
  obtain ⟨segs, hp⟩ := h.placed
  obtain ⟨segs', hp', hg⟩ := hp.push hleft hexec
  refine { h.grow hg with operands := fun u hu => ?_, placed := ⟨segs', hp'⟩ }
  rcases List.mem_append.1 hu with hu | hu
  · exact h.operands u hu
  · exact List.mem_singleton.1 hu ▸ hv

theorem pop (h : Accounted n P s) (hne : s.operands ≠ [])
    (hexec : Act.exec .pop s.machine = .ok () m) :
    Accounted n P (s.next m .pop) := by
  obtain ⟨segs, hp⟩ := h.placed
  obtain ⟨v, m', hpop, hexec⟩ := bind_eq_ok hexec
  cases hexec
  have hsame : m.heap.continuations = s.machine.heap.continuations := by
    rw [(pop_eq_ok hpop).2]
    rfl
  exact
    { h.grow (.of_eq hsame) with
      operands := fun u hu => h.operands u (List.mem_of_mem_dropLast hu)
      placed := ⟨segs, hp.pop hne hpop⟩ }

theorem enter {taken extra : Nat} (h : Accounted n P s) (htaken : taken ≤ s.operands.length)
    (hexec : pushFrame taken extra s.machine = .ok () m) :
    Accounted n P (s.next m (.enter taken extra)) := by
  obtain ⟨segs, hp⟩ := h.placed
  obtain ⟨hp', hsame⟩ := hp.enter htaken hexec
  refine { h.grow (.of_eq hsame) with operands := fun u hu => ?_, placed := hp' }
  cases hu

theorem leave {k : Nat} (h : Accounted n P s) (hle : k ≤ s.operands.length)
    (howns : Session.ownsFrame s.machine = true) (hexec : reuseFrame k s.machine = .ok () m) :
    Accounted n P (s.next m (.leave k)) := by
  obtain ⟨segs, hp⟩ := h.placed
  obtain ⟨hp', hsame⟩ := hp.leave howns hle hexec
  refine { h.grow (.of_eq hsame) with operands := fun u hu => h.operands u ?_, placed := hp' }
  change u ∈ s.kept k at hu
  unfold Session.kept at hu
  split at hu
  · exact List.mem_of_mem_drop hu
  · exact hu

theorem withMachine (h : Accounted n P s) (hp : Placed segs { s with machine := m })
    (hsame : m.heap.continuations = s.machine.heap.continuations) :
    Accounted n P { s with machine := m } :=
  { h.grow (.of_eq hsame) with placed := ⟨segs, hp⟩ }

theorem scope {env : Env} (h : Accounted n P s) (hallow : s.allows (.scope env) = true) :
    Accounted n P { s with machine.env := env } := by
  obtain ⟨segs, hp⟩ := h.placed
  refine h.withMachine (hp.scope ?_) rfl
  cases env with
  | empty => trivial
  | onHeap r => simpa [Session.allows, Env.ClosedIn] using hallow
  | onStack => cases hallow

theorem call {offset : Int} (h : Accounted n P s) (hleft : s.left = false)
    (hexec : pushReturnPoint offset s.machine = .ok () m) :
    Accounted n P (s.next m (.call offset)) := by
  obtain ⟨segs, hp⟩ := h.placed
  obtain ⟨hp', hg, hdirect⟩ := hp.call hleft hexec
  exact { h.calledBy ⟨h.operands, hdirect⟩ (hg.mono (List.subset_cons_self ..)) with placed := hp' }

theorem hostCall (h : Accounted n P s) (hleft : s.left = false)
    (hexec : Act.exec .hostCall s.machine = .ok () m) : Accounted n P (s.next m .hostCall) := by
  obtain ⟨segs, hp⟩ := h.placed
  obtain ⟨id, m', hbegin, hexec⟩ := bind_eq_ok hexec
  cases hexec
  obtain ⟨hp', hg⟩ := hp.hostCall hleft hbegin
  have hnone : ∀ v ∈ Caller.ofHost.operands, P v := fun v hv => by cases hv
  exact { h.calledBy ⟨hnone, fun _ => rfl⟩ ⟨hg.extended, hg.created⟩ with placed := ⟨[], hp'⟩ }

theorem hostDone {id ip argc sp : Nat} (h : Accounted n P s)
    (hoff : Session.offStack s.machine = true)
    (hexec : (Act.hostDone id ip argc sp).exec s.machine = .ok () m) :
    Accounted n P (s.next m (.hostDone id ip argc sp)) := by
  obtain ⟨segs, hp⟩ := h.placed
  obtain ⟨hp', hsame⟩ := hp.hostDone hoff hexec
  refine { h.grow (.of_eq hsame) with operands := fun u hu => ?_, placed := ⟨[], hp'⟩ }
  cases hu

theorem ret (h : Accounted n P s) (hne : s.callers ≠ [])
    (hexec : Machine.ret s.machine = .ok () m) :
    Accounted n P (s.next m .ret) := by
  obtain ⟨segs, hp⟩ := h.placed
  obtain ⟨a, callers, hc⟩ := List.exists_cons_of_ne_nil hne
  have hsub := h.callers
  have hrec := hp.recalls
  rw [hc] at hsub hrec
  obtain ⟨hp', hsame⟩ := hp.ret hrec (h.log a (hsub List.mem_cons_self)).2 hexec
  change Accounted n P (s.backTo m s.callers)
  rw [hc]
  exact { h.backTo (.of_eq hsame) hsub with placed := hp' }

theorem reenter {k : Ref .continuation} (h : Accounted n P s) (hops : s.operands ≠ [])
    (hne : s.callersOf k ≠ []) (hexec : (Act.reenter k).exec s.machine = .ok () m) :
    Accounted n P (s.next m (.reenter k)) := by
  obtain ⟨segs, hp⟩ := h.placed
  obtain ⟨a, callers, hc⟩ := List.exists_cons_of_ne_nil hne
  obtain ⟨hsub, hrec⟩ := h.captured _ (Session.mem_captured hc)
  obtain ⟨hp', hsame⟩ := hp.reenter hops hrec (h.log a (hsub List.mem_cons_self)).2 hexec
  change Accounted n P (s.backTo m (s.callersOf k))
  rw [hc]
  exact { h.backTo (.of_eq hsame) hsub with placed := hp' }

theorem capture (h : Accounted n P s) (hexec : Act.exec .capture s.machine = .ok () m) :
    Accounted n P (s.next m .capture) := by
  obtain ⟨segs, hp⟩ := h.placed
  obtain ⟨k, m', hcapture, hexec⟩ := bind_eq_ok hexec
  cases hexec
  obtain ⟨hp', hg, hcont⟩ := hp.capture hcapture
  have hrec := hp'.recalls.offStack fun c hc => by cases hcont.symm.trans hc
  change Recalls m.stack m.heap [] m.cont s.callers at hrec
  rw [hcont] at hrec
  have hgrow := h.grow hg
  simp only [Session.next, hcont]
  refine { hgrow with captured := fun x hx => ?_, placed := ⟨segs, { hp' with }⟩ }
  rcases List.mem_cons.1 hx with rfl | hx
  · exact ⟨h.callers, hrec⟩
  · exact hgrow.captured x hx

theorem collect (h : Accounted n P s) (hleft : s.left = false)
    (hexec : reclaim s.machine = .ok () m) : Accounted n P (s.next m .collect) := by
  obtain ⟨segs, hp⟩ := h.placed
  obtain ⟨hp', hg⟩ := hp.collect hleft hexec
  exact { h.grow hg with placed := ⟨[], hp'⟩ }

theorem step (h : Accounted n P s) (hstep : s.step act = some s')
    (hpush : ∀ v, act = .push v → P v) : Accounted n P s' := by
  obtain ⟨hallow, m, hexec, rfl⟩ := Session.step_eq_some hstep
  have hleft (hl : (!s.left) = true) : s.left = false := by simpa using hl
  obtain ⟨segs, hp⟩ := h.placed
  cases act with
  | push v => exact h.push (hleft hallow) (hpush v rfl) hexec
  | pop => exact h.pop (of_decide_eq_true hallow) hexec
  | enter taken extra => exact h.enter (of_decide_eq_true hallow) hexec
  | leave k =>
    simp only [Session.allows, Bool.and_eq_true, decide_eq_true_eq] at hallow
    exact h.leave hallow.1.2 hallow.2 hexec
  | write depth index v =>
    obtain ⟨hp', hsame⟩ := hp.write hexec
    exact h.withMachine hp' hsame
  | promote =>
    obtain ⟨env, m', hpromote, hexec⟩ := bind_eq_ok hexec
    cases hexec
    obtain ⟨hp', hsame, -⟩ := hp.promote hpromote
    exact h.withMachine hp' hsame
  | scope env =>
    cases hexec
    exact h.scope hallow
  | call offset => exact h.call (hleft hallow) hexec
  | ret => exact h.ret (of_decide_eq_true hallow) hexec
  | capture => exact h.capture hexec
  | reenter k =>
    simp only [Session.allows, Bool.and_eq_true, decide_eq_true_eq] at hallow
    exact h.reenter hallow.1 hallow.2 hexec
  | collect => exact h.collect (hleft hallow) hexec
  | hostCall => exact h.hostCall (hleft hallow) hexec
  | hostDone id ip argc sp => exact h.hostDone hallow hexec
  | hostFail id f =>
    obtain ⟨hp', hsame⟩ := hp.hostFail hexec
    exact h.withMachine hp' hsame

theorem run (h : Accounted n P s) (hrun : s.run acts = some s')
    (hpush : ∀ v, .push v ∈ acts → P v) :
    Accounted n P s' := by
  induction acts generalizing s with
  | nil =>
    cases hrun
    exact h
  | cons act acts ih =>
    obtain ⟨s₁, hstep, hrun⟩ := Option.bind_eq_some_iff.1 (show (s.step act).bind _ = _ from hrun)
    have h₁ := h.step hstep fun v hv => hpush v (hv ▸ List.mem_cons_self)
    exact ih h₁ hrun fun v hv => hpush v (List.mem_cons_of_mem _ hv)

end Accounted

theorem Caller.KeptIn.toList_eq_iff {saved : Array Value} (h : a.KeptIn saved) :
    saved.toList = a.operands ↔ a.under = 0 := by
  obtain ⟨below, hlen, hsaved⟩ := h
  simp [hsaved, ← hlen]

/-- Each continuation that a disciplined run has put on the heap keeps the operands of someone who
has left a return point or a marker, all of which were pushed. It keeps nothing else just if these
lay right above the base, and so they do if this was the first return point on that base. If all
return points were such, nothing is kept but what was pushed. The current continuation leads back
through all the callers. -/
theorem Session.continuations_keep_operands (hm : Arranged [] m) (hbp : m.bp = m.sp)
    (hrun : Session.run { machine := m } acts = some s) :
    (∀ i o, m.heap.continuations.size ≤ i → s.machine.heap.continuations[i]? = some o →
      o = .halting ∨ ∃ a ∈ s.log, a.KeptIn o.saved ∧ (o.saved.toList = a.operands ↔ a.under = 0)) ∧
    (∀ a ∈ s.log, (∀ v ∈ a.operands, .push v ∈ acts) ∧ (a.direct = true → a.under = 0)) ∧
    ((∀ a ∈ s.log, a.direct = true) → ∀ i o, m.heap.continuations.size ≤ i →
      s.machine.heap.continuations[i]? = some o → ∀ v ∈ o.saved, .push v ∈ acts) ∧
    ∃ segs, Recalls s.machine.stack s.machine.heap segs s.machine.cont s.callers := by
  have hstart : Accounted m.heap.continuations.size (fun v => .push v ∈ acts)
      ({ machine := m } : Session) :=
    { operands := fun v hv => by cases hv
      log := fun a ha => by cases ha
      callers := List.Subset.refl _
      captured := fun x hx => by cases hx
      created := fun i o hi ho => absurd (Array.getElem?_eq_some_iff.1 ho).1 (Nat.not_lt.2 hi)
      placed := ⟨[], .fresh hm rfl hbp (.base hm.cont.closed_of_nil)⟩ }
  have hr := hstart.run hrun fun v hv => hv
  obtain ⟨segs, hp⟩ := hr.placed
  refine ⟨fun i o hi ho => ?_, hr.log, fun hdirect i o hi ho v hv => ?_, segs, hp.recalls⟩
  · rcases hr.created i o hi ho with rfl | ⟨a, ha, hkept⟩
    · exact .inl rfl
    · exact .inr ⟨a, ha, hkept, hkept.toList_eq_iff⟩
  · rcases hr.created i o hi ho with rfl | ⟨a, ha, hkept⟩
    · simp [Continuation.halting] at hv
    · have hsaved := hkept.toList_eq_iff.2 ((hr.log a ha).2 (hdirect a ha))
      exact (hr.log a ha).1 v (hsaved ▸ Array.mem_toList_iff.2 hv)

/-- Two calls, each the first one on its base. The inner one is gone back to by its continuation. -/
def Session.twoCalls : List Act :=
  [ .push (.fixnum 1), .push (.fixnum 2), .call 0, .push (.fixnum 3), .enter 1 0, .push (.fixnum 4),
    .call 0, .capture, .push (.fixnum 5), .reenter ⟨1⟩, .ret ]

theorem Session.twoCalls_keep_operands :
    ∃ s, Session.run { machine := new 16 } twoCalls = some s ∧
      s.machine.heap.continuations.map (·.saved) = #[#[.fixnum 1, .fixnum 2], #[.fixnum 4]] ∧
      ∀ (i : Nat) o, s.machine.heap.continuations[i]? = some o →
        ∀ v ∈ o.saved, .push v ∈ twoCalls := by
  have hnew : Arranged [] (new 16) :=
    .of_closed (by decide) trivial trivial (by constructor <;> simp [new])
  have heval : (Session.run { machine := new 16 } twoCalls).map (fun s =>
      (s.machine.heap.continuations.map (·.saved), s.log.all (·.direct))) =
      some (#[#[.fixnum 1, .fixnum 2], #[.fixnum 4]], true) := by decide +kernel
  obtain ⟨s, hrun, hs⟩ := Option.map_eq_some_iff.1 heval
  obtain ⟨hsaved, hdirect⟩ := Prod.mk.inj hs
  obtain ⟨-, -, hpushed, -⟩ := continuations_keep_operands hnew rfl hrun
  exact ⟨s, hrun, hsaved, fun i o => hpushed (List.all_eq_true.1 hdirect) i o (Nat.zero_le _)⟩

/-- The marker of a host call keeps nothing, and what it is in front of keeps the operands of the
caller. -/
example :
    (Session.run { machine := new 16 }
      [ .push (.fixnum 1), .call 0, .push (.fixnum 2), .enter 1 0, .hostCall, .push (.fixnum 3),
        .push (.fixnum 4), .enter 1 0, .ret, .hostDone 0 0 0 6, .ret ]).map (fun s =>
      (s.operands, s.callers, s.machine.heap.continuations.map (·.saved))) =
    some ([.fixnum 1], [], #[#[.fixnum 1], #[]]) := by
  decide +kernel

/-- The last of three return points on one base keeps the cells of the other two, among them a
position on the stack, although nothing was ever pushed. -/
theorem Session.nested_points_kept :
    (Session.run { machine := new 12 } [.call 0, .call 0, .call 0, .capture]).map (fun s =>
      (s.log.map (·.operands), s.machine.heap.continuations.map (·.saved))) =
    some ([[], [], []],
      #[#[],
        #[.fixnum 0, .fixnum 0, .nil, .nil],
        #[.fixnum 0, .fixnum 0, .nil, .nil, .fixnum 0, .fixnum 0, .nil, .stackReturn 4]]) := by
  decide +kernel

end LispMachine
