import LispMachine.Proofs.Reentry.Room

/-! # What a continuation keeps of its callers

Each return point keeps the cells from the base of its activation up to itself. The last of these
are the operands of the caller. Whatever else lies between them and the base is kept as well. The
marker of a host call keeps nothing.
-/

namespace LispMachine

open Machine

structure Caller where
  /-- The values that it had pushed and not taken back. -/
  operands : List Value
  /-- The number of cells between its base and these. -/
  under : Nat
  /-- It had left no other return point since its base was set. -/
  direct : Bool
  /-- It is the host, which has left a marker. -/
  host : Bool := false
  deriving DecidableEq

def Caller.ofHost : Caller := { operands := [], under := 0, direct := true, host := true }

/-- The values are the operands of the caller and what lay under these. -/
def Caller.KeptIn (a : Caller) (saved : Array Value) : Prop :=
  ∃ below : List Value, below.length = a.under ∧ saved.toList = below ++ a.operands

/-- A continuation with this end leads back to the caller. -/
def Caller.GoesOnBy (a : Caller) : Resume → Prop
  | .code _ => a.host = false
  | .host _ => a = .ofHost
  | .halt => False

/-- The continuation leads back through the callers, from the last one to the first. -/
inductive Recalls (stack : Array Value) (h : Heap) : List Segment → Cont → List Caller → Prop
  | base {segs : List Segment} {cont : Cont} : cont.ClosedIn h → Recalls stack h segs cont []
  | point {segs rest : List Segment} {c start id : Nat} {p : ReturnPoint} {a : Caller}
    {callers : List Caller} : a.host = false → c = start + a.operands.length + 4 →
    .point start a.operands.length id :: rest <:+ segs →
    PointCells stack start a.operands.length p →
    a.KeptIn (stack.extract p.bp (start + a.operands.length)) →
    Recalls stack h rest p.prev callers → Recalls stack h segs (.onStack c) (a :: callers)
  | object {segs : List Segment} {k : Ref .continuation} {o : Continuation} {a : Caller}
    {callers : List Caller} : h.continuation k = .ok o → a.GoesOnBy o.resume → a.KeptIn o.saved →
    Recalls stack h [] o.prev callers → Recalls stack h segs (.onHeap k) (a :: callers)

/-- Outside the frames the cells below `hi` are what they were. -/
structure Undisturbed (segs : List Segment) (hi : Nat) (stack stack' : Array Value) : Prop where
  size : stack'.size = stack.size
  cells : ∀ i < hi, (∀ start count id, .frame start count id ∈ segs →
    i < start ∨ start + count + 3 ≤ i) → stack'[i]? = stack[i]?

variable {segs sub rest : List Segment} {target : Nat → Option Nat} {m w m' : Machine}
  {stack stack' : Array Value} {h h' : Heap} {cont cont' : Cont} {callers : List Caller}
  {a : Caller} {start count id hi : Nat} {p : ReturnPoint}

theorem Undisturbed.of_cells (hsize : stack'.size = stack.size)
    (hcells : ∀ i < hi, stack'[i]? = stack[i]?) : Undisturbed segs hi stack stack' :=
  ⟨hsize, fun i hi _ => hcells i hi⟩

theorem Moved.undisturbed (hw : Moved segs target m w) : Undisturbed segs hi m.stack w.stack where
  size := hw.size
  cells i _ hclear := by
    refine hw.stays i (hw.target_eq_none fun start count id hmem he => ?_)
    have := hclear start count id hmem
    omega

/-- No frame lies in a return point or between it and the base that it restores. -/
theorem Stacked.frames_apart (hst : Stacked (SegmentIn h stack) hi segs)
    (hs : .point start count id :: rest <:+ segs) (hp : PointCells stack start count p) {i : Nat}
    (hle : p.bp ≤ i) (hlt : i < start + count + 4) (start' count' id' : Nat)
    (hmem : .frame start' count' id' ∈ segs) : i < start' ∨ start' + count' + 3 ≤ i := by
  obtain ⟨-, ⟨q, hq⟩, -⟩ := hst.at_suffix hs
  have hbp := hq.bp_cell.symm.trans hp.bp_cell
  simp only [Option.some.injEq, Value.fixnum.injEq] at hbp
  obtain ⟨rf, hrf⟩ := exists_suffix hmem
  rcases hst.apart hs hrf with ⟨heq, -⟩ | ⟨-, hbelow⟩ | ⟨hrest, -⟩
  · cases heq
  · rw [Segment.top_point, Segment.start_frame] at hbelow
    omega
  · have := hq.frames_le start' count' id' (mem_of_cons_suffix hrest)
    omega

theorem Extended.closedIn (hg : Extended h.continuations h'.continuations) (hc : cont.ClosedIn h) :
    cont.ClosedIn h' := by
  cases cont with
  | empty => trivial
  | onStack => exact hc.elim
  | onHeap => exact Nat.lt_of_lt_of_le hc hg.size_le

theorem Extended.continuation (hg : Extended h.continuations h'.continuations)
    {k : Ref .continuation} {o : Continuation} (ho : h.continuation k = .ok o) :
    h'.continuation k = .ok o :=
  Heap.continuation_eq_ok.2 (hg _ _ (Heap.continuation_eq_ok.1 ho))

theorem Extended.eq_of_size {α : Type} {xs ys : Array α} (hx : Extended xs ys)
    (hsize : ys.size = xs.size) : ys = xs := by
  refine Array.ext hsize fun i _ hi => ?_
  exact (Array.getElem?_eq_some_iff.1 (hx i _ (Array.getElem?_eq_getElem hi))).2

namespace Recalls

theorem mono (hr : Recalls stack h sub cont callers) (hs : sub <:+ segs) :
    Recalls stack h segs cont callers := by
  cases hr with
  | base hc => exact .base hc
  | point ha hc hsub hp hkept hprev => exact .point ha hc (hsub.trans hs) hp hkept hprev
  | object ho ha hkept hprev => exact .object ho ha hkept hprev

theorem offStack (hr : Recalls stack h segs cont callers) (hne : ∀ c, cont ≠ .onStack c) :
    Recalls stack h [] cont callers := by
  cases hr with
  | base hc => exact .base hc
  | point => exact absurd rfl (hne _)
  | object ho ha hkept hprev => exact .object ho ha hkept hprev

theorem carry (hr : Recalls stack h sub cont callers) (hs : sub <:+ segs)
    (hst : Stacked (SegmentIn h stack) hi segs) (hu : Undisturbed segs hi stack stack')
    (hg : Extended h.continuations h'.continuations) : Recalls stack' h' sub cont callers := by
  induction hr with
  | base hc => exact .base (hg.closedIn hc)
  | @point sub rest c start id p a callers ha hc hsub hp hkept hprev ih =>
    have hsub' := hsub.trans hs
    have htop := (hst.at_suffix hsub').1
    rw [Segment.top_point] at htop
    have hbp := hp.bp_le
    have hcell {i : Nat} (hle : p.bp ≤ i) (hlt : i < start + a.operands.length + 4) :
        stack'[i]? = stack[i]? :=
      hu.cells i (by omega) (hst.frames_apart hsub' hp hle hlt)
    refine .point ha hc hsub ?_ ?_ (ih (suffix_of_cons_suffix hsub'))
    · exact
        { ip_cell := (hcell (by omega) (by omega)).trans hp.ip_cell
          bp_cell := (hcell (by omega) (by omega)).trans hp.bp_cell
          env_cell := (hcell (by omega) (by omega)).trans hp.env_cell
          prev_cell := (hcell (by omega) (by omega)).trans hp.prev_cell
          bp_le := hbp }
    · rwa [Moved.extract_eq hu.size fun i hle hlt => hcell hle (by omega)]
  | object ho ha hkept _ ih =>
    exact .object (hg.continuation ho) ha hkept (ih (List.nil_suffix))

theorem of_heap (hr : Recalls stack h [] cont callers)
    (hg : Extended h.continuations h'.continuations) : Recalls stack' h' [] cont callers := by
  generalize hs : ([] : List Segment) = segs at hr
  induction hr with
  | base hc => exact .base (hg.closedIn hc)
  | point _ _ hsub =>
    subst hs
    exact absurd (List.suffix_nil.1 hsub) (List.cons_ne_nil _ _)
  | object ho ha hkept _ ih => exact .object (hg.continuation ho) ha hkept (ih rfl)

/-- The copy of a continuation leads back through the same callers. -/
theorem copied (hr : Recalls w.stack w.heap segs cont callers) (hc : Copied w cont cont') :
    Recalls w.stack w.heap [] cont' callers := by
  induction hc generalizing segs callers with
  | same hne => exact hr.offStack hne
  | @point c p k env prev owner hp hres hprev hk ih =>
    cases hr with
    | base hc => exact hc.elim
    | point ha hc _ hcells hkept hrest =>
      subst hc
      cases hp.symm.trans (hcells.returnPoint (returnPoint_bounds hp).2.1)
      exact .object hk ha hkept (ih hrest)

theorem caller (hr : Recalls m.stack m.heap segs cont callers) (hm : Arranged segs m) :
    ∃ callers', callers' <:+ callers ∧ Recalls m.stack m.heap segs (m.caller cont).2 callers' := by
  cases hr with
  | base hc =>
    refine ⟨[], List.suffix_rfl, .base ?_⟩
    cases cont with
    | empty => trivial
    | onStack => exact hc.elim
    | onHeap k =>
      obtain ⟨o, ho⟩ := hc.exists_continuation
      rw [caller_object ho]
      exact (hm.linked.continuations o (Heap.mem_of_continuation ho)).2
  | @point _ rest _ start id p a callers _ hc hsub hcells hkept hrest =>
    subst hc
    rw [caller_point (hcells.returnPoint (hm.stacked.at_suffix hsub).1)]
    exact ⟨callers, List.suffix_cons .., hrest.mono (suffix_of_cons_suffix hsub)⟩
  | @object _ k o a callers ho _ hkept hprev =>
    rw [caller_object ho]
    exact ⟨callers, List.suffix_cons .., hprev.mono List.nil_suffix⟩

theorem contAfter (hr : Recalls m.stack m.heap segs cont callers) (hm : Arranged segs m) (n : Nat) :
    ∃ callers', callers' <:+ callers ∧
      Recalls m.stack m.heap segs (m.contAfter cont n) callers' := by
  induction n generalizing cont callers with
  | zero => exact ⟨callers, List.suffix_rfl, hr⟩
  | succ n ih =>
    obtain ⟨callers₁, hsub₁, hr₁⟩ := hr.caller hm
    obtain ⟨callers₂, hsub₂, hr₂⟩ := ih hr₁
    exact ⟨callers₂, hsub₂.trans hsub₁, hr₂⟩

/-- Each continuation that is made when return points move keeps the operands of a caller. -/
theorem of_copies (hr : Recalls m.stack m.heap segs cont callers) (hm : Arranged segs m)
    (hw : Moved segs target m w) (hcopies : Copies m w cont) {i : Nat} {o : Continuation}
    (hi : m.heap.continuations.size ≤ i) (ho : w.heap.continuations[i]? = some o) :
    ∃ a ∈ callers, a.KeptIn o.saved := by
  have hlt := (Array.getElem?_eq_some_iff.1 ho).1
  have hcopied := hcopies (w.heap.continuations.size - 1 - i) (by omega)
  rw [show w.heap.continuations.size - 1 - (w.heap.continuations.size - 1 - i) =
    i by omega] at hcopied
  obtain ⟨callers', hsub, hr'⟩ := hr.contAfter hm (w.heap.continuations.size - 1 - i)
  generalize m.contAfter cont (w.heap.continuations.size - 1 - i) = cont' at hcopied hr'
  have hrw :=
    (hr'.carry List.suffix_rfl hm.stacked hw.undisturbed hw.heap.continuations).copied hcopied
  cases hrw with
  | base =>
    -- only what was on the heap before has no caller
    cases hr' with
    | base hc =>
      cases hcopied with
      | same =>
        change i < m.heap.continuations.size at hc
        omega
      | point => exact hc.elim
  | @object _ _ o' a _ ho' _ hkept =>
    cases (Heap.continuation_eq_ok.1 ho').symm.trans ho
    exact ⟨a, hsub.subset List.mem_cons_self, hkept⟩

theorem below_frame (hr : Recalls m.stack m.heap segs cont callers) (hm : Arranged segs m)
    (hs : .frame start count id :: rest <:+ segs) (htop : cont.top ≤ start) :
    Recalls m.stack m.heap rest cont callers := by
  cases hr with
  | base hc => exact .base hc
  | object ho ha hkept hprev => exact .object ho ha hkept hprev
  | @point _ rest' c start' id' p a callers ha hc hsub hcells hkept hprev =>
    rcases hm.stacked.apart hsub hs with ⟨heq, -⟩ | ⟨hbelow, -⟩ | ⟨-, habove⟩
    · cases heq
    · exact .point ha hc hbelow hcells hkept hprev
    · rw [Segment.top_frame, Segment.start_point] at habove
      change c ≤ start at htop
      omega

end Recalls

end LispMachine
