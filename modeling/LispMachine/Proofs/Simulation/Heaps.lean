import LispMachine.Heap.Lists
import LispMachine.Proofs.Simulation.Naming
import Mathlib.Data.List.Forall2

/-! # Heaps that agree

Pairs, vectors and closures are made by both machines at the same time, so they agree index by
index. Frames and continuations agree by name. What a heap answers is then the same up to names.
-/

namespace LispMachine

/-! ## Objects -/

structure PairAgree (ρ : Naming) (p p' : Pair) : Prop where
  car : Agree ρ p.car p'.car
  cdr : Agree ρ p.cdr p'.cdr

structure ClosureAgree (ρ : Naming) (c c' : Closure) : Prop where
  env : EnvAgree ρ c.env c'.env
  entry : c.entry = c'.entry

structure FrameAgree (ρ : Naming) (f f' : Frame) : Prop where
  slots : Each (Agree ρ) f.slots f'.slots
  parent : EnvAgree ρ f.parent f'.parent

/-- The first continuation may have saved more values, below those that matter. -/
structure ContinuationAgree (ρ : Naming) (k k' : Continuation) : Prop where
  saved : ∃ d, k.saved.size = d + k'.saved.size ∧ Holds (Agree ρ) k.saved d k'.saved
  known : ∀ v ∈ k.saved, Known ρ v
  prev : ContAgree ρ k.prev k'.prev
  env : EnvAgree ρ k.env k'.env
  resume : k.resume = k'.resume
  owner : k.owner = k'.owner

structure HeapAgree (ρ : Naming) (h g : Heap) : Prop where
  pairs : Each (PairAgree ρ) h.pairs g.pairs
  vectors : Each (List.Forall₂ (Agree ρ)) h.vectors g.vectors
  closures : Each (ClosureAgree ρ) h.closures g.closures
  procedures : h.procedures = g.procedures
  frames : ∀ j q, ρ.frame j = some q →
    ∃ f f', h.frames[q]? = some f ∧ g.frames[j]? = some f' ∧ FrameAgree ρ f f'
  continuations : ∀ k q, ρ.cont k = some q →
    ∃ c c', h.continuations[q]? = some c ∧ g.continuations[k]? = some c' ∧ ContinuationAgree ρ c c'
  named_frame : ∀ q < h.frames.size, ∃ j, ρ.frame j = some q
  named_cont : ∀ q < h.continuations.size, ∃ k, ρ.cont k = some q

section

variable {ρ σ : Naming}

theorem PairAgree.mono {p p' : Pair} (h : PairAgree ρ p p') (hρ : ρ ≤ σ) : PairAgree σ p p' :=
  ⟨h.car.mono hρ, h.cdr.mono hρ⟩

theorem ClosureAgree.mono {c c' : Closure} (h : ClosureAgree ρ c c') (hρ : ρ ≤ σ) :
    ClosureAgree σ c c' :=
  ⟨h.env.mono hρ, h.entry⟩

theorem FrameAgree.mono {f f' : Frame} (h : FrameAgree ρ f f') (hρ : ρ ≤ σ) : FrameAgree σ f f' :=
  ⟨h.slots.mono fun _ _ h => h.mono hρ, h.parent.mono hρ⟩

theorem ContinuationAgree.mono {k k' : Continuation} (h : ContinuationAgree ρ k k') (hρ : ρ ≤ σ) :
    ContinuationAgree σ k k' where
  saved := by
    obtain ⟨d, hd, hs⟩ := h.saved
    exact ⟨d, hd, hs.mono fun _ _ h => h.mono hρ⟩
  known v hv := (h.known v hv).mono hρ
  prev := h.prev.mono hρ
  env := h.env.mono hρ
  resume := h.resume
  owner := h.owner

theorem forall₂_mono {vs us : List Value} (h : List.Forall₂ (Agree ρ) vs us) (hρ : ρ ≤ σ) :
    List.Forall₂ (Agree σ) vs us :=
  h.imp fun _ _ h => h.mono hρ

end

namespace HeapAgree

variable {ρ : Naming} {h g : Heap} {j k q : Nat} {f f' : Frame} {c c' : Continuation}

theorem frame_lt (hg : HeapAgree ρ h g) (hj : ρ.frame j = some q) :
    q < h.frames.size ∧ j < g.frames.size := by
  obtain ⟨f, f', hf, hf', -⟩ := hg.frames j q hj
  exact ⟨(Array.getElem?_eq_some_iff.1 hf).1, (Array.getElem?_eq_some_iff.1 hf').1⟩

theorem cont_lt (hg : HeapAgree ρ h g) (hk : ρ.cont k = some q) :
    q < h.continuations.size ∧ k < g.continuations.size := by
  obtain ⟨c, c', hc, hc', -⟩ := hg.continuations k q hk
  exact ⟨(Array.getElem?_eq_some_iff.1 hc).1, (Array.getElem?_eq_some_iff.1 hc').1⟩

theorem frame_size (hg : HeapAgree ρ h g) : ρ.frame g.frames.size = none := by
  cases hj : ρ.frame g.frames.size with
  | none => rfl
  | some q => exact absurd (hg.frame_lt hj).2 (Nat.lt_irrefl _)

theorem cont_size (hg : HeapAgree ρ h g) : ρ.cont g.continuations.size = none := by
  cases hk : ρ.cont g.continuations.size with
  | none => rfl
  | some q => exact absurd (hg.cont_lt hk).2 (Nat.lt_irrefl _)

theorem frame_fresh (hg : HeapAgree ρ h g) (i : Nat) : ρ.frame i ≠ some h.frames.size :=
  fun hi => absurd (hg.frame_lt hi).1 (Nat.lt_irrefl _)

theorem cont_fresh (hg : HeapAgree ρ h g) (i : Nat) : ρ.cont i ≠ some h.continuations.size :=
  fun hi => absurd (hg.cont_lt hi).1 (Nat.lt_irrefl _)

/-! ## New objects -/

theorem nameFrame (hg : HeapAgree ρ h g) (hj : ρ.frame j = none) (hf' : g.frames[j]? = some f')
    (hf : FrameAgree ρ f f') :
    HeapAgree (ρ.addFrame j h.frames.size hg.frame_fresh)
      { h with frames := h.frames.push f } g := by
  have hρ : ρ ≤ ρ.addFrame j h.frames.size hg.frame_fresh := Naming.le_addFrame hj
  refine ⟨hg.pairs.mono fun _ _ p => p.mono hρ, hg.vectors.mono fun _ _ v => forall₂_mono v hρ,
    hg.closures.mono fun _ _ c => c.mono hρ, hg.procedures, ?_, ?_, ?_, hg.named_cont⟩
  · intro i q hi
    by_cases he : i = j
    · subst he
      rw [Naming.addFrame_frame_self] at hi
      obtain rfl := Option.some.inj hi
      exact ⟨f, f', by simp, hf', hf.mono hρ⟩
    · rw [Naming.addFrame_frame_ne he] at hi
      obtain ⟨fi, fi', hfi, hfi', ha⟩ := hg.frames i q hi
      exact ⟨fi, fi',
        by rw [Array.getElem?_push, if_neg (by have := (hg.frame_lt hi).1; omega), hfi],
        hfi', ha.mono hρ⟩
  · intro k q hk
    obtain ⟨c, c', hc, hc', ha⟩ := hg.continuations k q hk
    exact ⟨c, c', hc, hc', ha.mono hρ⟩
  · intro q hq
    rw [Array.size_push] at hq
    by_cases he : q = h.frames.size
    · exact ⟨j, he ▸ Naming.addFrame_frame_self⟩
    · obtain ⟨i, hi⟩ := hg.named_frame q (by omega)
      exact ⟨i, hρ.1 i q hi⟩

theorem nameCont (hg : HeapAgree ρ h g) (hk : ρ.cont k = none)
    (hc' : g.continuations[k]? = some c') (hc : ContinuationAgree ρ c c') :
    HeapAgree (ρ.addCont k h.continuations.size hg.cont_fresh)
      { h with continuations := h.continuations.push c } g := by
  have hρ : ρ ≤ ρ.addCont k h.continuations.size hg.cont_fresh := Naming.le_addCont hk
  refine ⟨hg.pairs.mono fun _ _ p => p.mono hρ, hg.vectors.mono fun _ _ v => forall₂_mono v hρ,
    hg.closures.mono fun _ _ c => c.mono hρ, hg.procedures, ?_, ?_, hg.named_frame, ?_⟩
  · intro j q hj
    obtain ⟨f, f', hf, hf', ha⟩ := hg.frames j q hj
    exact ⟨f, f', hf, hf', ha.mono hρ⟩
  · intro i q hi
    by_cases he : i = k
    · subst he
      rw [Naming.addCont_cont_self] at hi
      obtain rfl := Option.some.inj hi
      exact ⟨c, c', by simp, hc', hc.mono hρ⟩
    · rw [Naming.addCont_cont_ne he] at hi
      obtain ⟨ci, ci', hci, hci', ha⟩ := hg.continuations i q hi
      exact ⟨ci, ci',
        by rw [Array.getElem?_push, if_neg (by have := (hg.cont_lt hi).1; omega), hci],
        hci', ha.mono hρ⟩
  · intro q hq
    rw [Array.size_push] at hq
    by_cases he : q = h.continuations.size
    · exact ⟨k, he ▸ Naming.addCont_cont_self⟩
    · obtain ⟨i, hi⟩ := hg.named_cont q (by omega)
      exact ⟨i, hρ.2 i q hi⟩

theorem pushFrame (hg : HeapAgree ρ h g) :
    HeapAgree ρ h { g with frames := g.frames.push f' } := by
  refine { hg with frames := fun j q hj => ?_ }
  obtain ⟨f, f'', hf, hf'', ha⟩ := hg.frames j q hj
  exact ⟨f, f'', hf,
    by rw [Array.getElem?_push, if_neg (by have := (hg.frame_lt hj).2; omega), hf''], ha⟩

theorem pushCont (hg : HeapAgree ρ h g) :
    HeapAgree ρ h { g with continuations := g.continuations.push c' } := by
  refine { hg with continuations := fun k q hk => ?_ }
  obtain ⟨c, c'', hc, hc'', ha⟩ := hg.continuations k q hk
  exact ⟨c, c'', hc,
    by rw [Array.getElem?_push, if_neg (by have := (hg.cont_lt hk).2; omega), hc''], ha⟩

theorem pushPair {p p' : Pair} (hg : HeapAgree ρ h g) (hp : PairAgree ρ p p') :
    HeapAgree ρ { h with pairs := h.pairs.push p } { g with pairs := g.pairs.push p' } :=
  { hg with pairs := hg.pairs.push hp }

theorem pushVector {vs us : List Value} (hg : HeapAgree ρ h g) (hv : List.Forall₂ (Agree ρ) vs us) :
    HeapAgree ρ { h with vectors := h.vectors.push vs } { g with vectors := g.vectors.push us } :=
  { hg with vectors := hg.vectors.push hv }

theorem pushClosure {c c' : Closure} (hg : HeapAgree ρ h g) (hc : ClosureAgree ρ c c') :
    HeapAgree ρ { h with closures := h.closures.push c }
      { g with closures := g.closures.push c' } :=
  { hg with closures := hg.closures.push hc }

/-! ## Changed objects -/

theorem modifyPair {i : Nat} {φ ψ : Pair → Pair} (hg : HeapAgree ρ h g)
    (hφ : ∀ p p', PairAgree ρ p p' → PairAgree ρ (φ p) (ψ p')) :
    HeapAgree ρ { h with pairs := h.pairs.modify i φ } { g with pairs := g.pairs.modify i ψ } :=
  { hg with pairs := hg.pairs.modify hφ }

theorem setVector {vs us : List Value} (hg : HeapAgree ρ h g) (r : Ref .vector)
    (hv : List.Forall₂ (Agree ρ) vs us) : HeapAgree ρ (h.setVector r vs) (g.setVector r us) :=
  { hg with vectors := hg.vectors.modify fun _ _ _ => hv }

theorem modifyFrame {φ ψ : Frame → Frame} (hg : HeapAgree ρ h g) (hj : ρ.frame j = some q)
    (hφ : ∀ f f', FrameAgree ρ f f' → FrameAgree ρ (φ f) (ψ f')) :
    HeapAgree ρ { h with frames := h.frames.modify q φ }
      { g with frames := g.frames.modify j ψ } := by
  refine { hg with
    frames := fun i p hi => ?_
    named_frame := fun p hp => hg.named_frame p (by rwa [Array.size_modify] at hp) }
  obtain ⟨f, f', hf, hf', ha⟩ := hg.frames i p hi
  by_cases he : i = j
  · subst he
    obtain rfl : q = p := Option.some.inj (hj.symm.trans hi)
    exact ⟨φ f, ψ f', by simp [Array.getElem?_modify, hf], by simp [Array.getElem?_modify, hf'],
      hφ f f' ha⟩
  · have hp : q ≠ p := by
      rintro rfl
      exact he (ρ.frame_inj hi hj)
    exact ⟨f, f', by simp [Array.getElem?_modify, hp, hf],
      by simp [Array.getElem?_modify, Ne.symm he, hf'], ha⟩

theorem modifyFrame_of_none {ψ : Frame → Frame} (hg : HeapAgree ρ h g) (hj : ρ.frame j = none) :
    HeapAgree ρ h { g with frames := g.frames.modify j ψ } := by
  refine { hg with frames := fun i p hi => ?_ }
  obtain ⟨f, f', hf, hf', ha⟩ := hg.frames i p hi
  have he : j ≠ i := by
    rintro rfl
    simp [hj] at hi
  exact ⟨f, f', hf, by simp [Array.getElem?_modify, he, hf'], ha⟩

end HeapAgree

/-! ## Answers -/

/-- The fault says nothing about how frames and continuations are kept. -/
def Fault.isOrdinary : Fault → Bool
  | invalidEnvironment | invalidContinuation | stackOverflow | continuationOverflow
  | stackUnderflow | unwound => false
  | _ => true

/-- A slot index that is out of range is reported differently for the stack and for the heap. -/
inductive FaultAgree : Fault → Fault → Prop
  | same (f : Fault) (h : f.isOrdinary := by rfl) : FaultAgree f f
  | slotIndex (index count : Nat) :
    FaultAgree (.stackSlotIndex index count) (.heapSlotIndex index count)

inductive StopAgree : Stop → Stop → Prop
  | fault {f g : Fault} : FaultAgree f g → StopAgree (.fault f) (.fault g)
  | unfinished : StopAgree .unfinished .unfinished
  | stuck : StopAgree .stuck .stuck

theorem FaultAgree.isOrdinary {f g : Fault} (h : FaultAgree f g) : f.isOrdinary := by
  cases h with
  | same _ h => exact h
  | slotIndex => rfl

/-- Both succeed with results that are related, or both end in the same way. -/
inductive ExceptAgree {α β : Type} (R : α → β → Prop) : Except Stop α → Except Stop β → Prop
  | ok {a : α} {b : β} : R a b → ExceptAgree R (.ok a) (.ok b)
  | error {s t : Stop} : StopAgree s t → ExceptAgree R (.error s) (.error t)

namespace ExceptAgree

variable {α β γ δ : Type} {R : α → β → Prop} {S : γ → δ → Prop}

theorem bind {x : Except Stop α} {y : Except Stop β} {φ : α → Except Stop γ} {ψ : β → Except Stop δ}
    (h : ExceptAgree R x y) (hb : ∀ a b, R a b → ExceptAgree S (φ a) (ψ b)) :
    ExceptAgree S (x >>= φ) (y >>= ψ) := by
  cases h with
  | ok h => exact hb _ _ h
  | error h => exact .error h

theorem fault (f : Fault) (h : f.isOrdinary := by rfl) :
    ExceptAgree R (.error (.fault f)) (.error (.fault f)) :=
  .error (.fault (.same f h))

theorem present {xs : Array α} {ys : Array β} (h : Each R xs ys) (i : Nat) :
    ExceptAgree R (present xs[i]?) (present ys[i]?) := by
  cases hy : ys[i]? with
  | none =>
    rw [h.getElem?_none hy]
    exact .error .stuck
  | some b =>
    obtain ⟨a, ha, hab⟩ := h.getElem? hy
    rw [ha]
    exact .ok hab

theorem orFault {xs : Array α} {ys : Array β} {f f' : Fault} (h : Each R xs ys)
    (hf : FaultAgree f f') (i : Nat) : ExceptAgree R (orFault f xs[i]?) (orFault f' ys[i]?) := by
  cases hy : ys[i]? with
  | none =>
    rw [h.getElem?_none hy]
    exact .error (.fault hf)
  | some b =>
    obtain ⟨a, ha, hab⟩ := h.getElem? hy
    rw [ha]
    exact .ok hab

end ExceptAgree

namespace HeapAgree

variable {ρ : Naming} {h g : Heap} {v u : Value}

theorem pair (hg : HeapAgree ρ h g) (r : Ref .pair) :
    ExceptAgree (PairAgree ρ) (h.pair r) (g.pair r) :=
  .present hg.pairs r.index

theorem vector (hg : HeapAgree ρ h g) (r : Ref .vector) :
    ExceptAgree (List.Forall₂ (Agree ρ)) (h.vector r) (g.vector r) :=
  .present hg.vectors r.index

theorem closure (hg : HeapAgree ρ h g) (r : Ref .closure) :
    ExceptAgree (ClosureAgree ρ) (h.closure r) (g.closure r) :=
  .present hg.closures r.index

theorem car (hg : HeapAgree ρ h g) (hv : Agree ρ v u) :
    ExceptAgree (Agree ρ) (h.car v) (g.car u) := by
  cases hv with
  | continuation => exact .fault _
  | same =>
    cases v with
    | pair r => exact (hg.pair r).bind fun _ _ hp => .ok hp.car
    | nil => exact .ok .nil
    | _ => exact .fault _

theorem cdr (hg : HeapAgree ρ h g) (hv : Agree ρ v u) :
    ExceptAgree (Agree ρ) (h.cdr v) (g.cdr u) := by
  cases hv with
  | continuation => exact .fault _
  | same =>
    cases v with
    | pair r => exact (hg.pair r).bind fun _ _ hp => .ok hp.cdr
    | nil => exact .ok .nil
    | _ => exact .fault _

theorem walk (hg : HeapAgree ρ h g) (n : Nat) (hv : Agree ρ v u) :
    ExceptAgree (fun x y => List.Forall₂ (Agree ρ) x.1 y.1 ∧ Agree ρ x.2 y.2)
      (h.walk n v) (g.walk n u) := by
  induction n generalizing v u with
  | zero =>
    cases hv with
    | continuation hq => exact .ok ⟨.nil, .continuation hq⟩
    | same hv =>
      cases v with
      | pair r => exact .error .unfinished
      | _ => exact .ok ⟨.nil, .same hv⟩
  | succ n ih =>
    cases hv with
    | continuation hq => exact .ok ⟨.nil, .continuation hq⟩
    | same hv =>
      cases v with
      | pair r =>
        refine (hg.pair r).bind fun p p' hp => (ih hp.cdr).bind ?_
        rintro ⟨vs, v⟩ ⟨us, u⟩ ⟨hvs, hv⟩
        exact .ok ⟨.cons hp.car hvs, hv⟩
      | _ => exact .ok ⟨.nil, .same hv⟩

theorem items (hg : HeapAgree ρ h g) (hv : Agree ρ v u) :
    ExceptAgree (List.Forall₂ (Agree ρ)) (h.items v) (g.items u) := by
  unfold Heap.items Heap.spine
  rw [hg.pairs.1]
  refine (hg.walk _ hv).bind ?_
  rintro ⟨vs, v⟩ ⟨us, u⟩ ⟨hvs, hv⟩
  cases hv with
  | continuation => exact .fault _
  | same hv =>
    cases v with
    | nil => exact .ok hvs
    | _ => exact .fault _

theorem element? (hg : HeapAgree ρ h g) (n : Nat) (hv : Agree ρ v u) :
    ExceptAgree (Option.Rel (Agree ρ)) (h.element? n v) (g.element? n u) := by
  induction n generalizing v u with
  | zero =>
    cases hv with
    | continuation => exact .ok .none
    | same =>
      cases v with
      | pair r => exact (hg.pair r).bind fun _ _ hp => .ok (.some hp.car)
      | _ => exact .ok .none
  | succ n ih =>
    cases hv with
    | continuation => exact .ok .none
    | same =>
      cases v with
      | pair r => exact (hg.pair r).bind fun _ _ hp => ih hp.cdr
      | _ => exact .ok .none

theorem nth (hg : HeapAgree ρ h g) (hv : Agree ρ v u) (index : Int) :
    ExceptAgree (Agree ρ) (h.nth v index) (g.nth u index) := by
  unfold Heap.nth
  split
  · exact .fault _
  · refine (hg.element? index.toNat hv).bind ?_
    rintro _ _ (hab | _)
    · exact .ok hab
    · exact .fault _

theorem chain (hg : HeapAgree ρ h g) {vs us : List Value} (hvs : List.Forall₂ (Agree ρ) vs us)
    (hv : Agree ρ v u) :
    Agree ρ (h.chain vs v).1 (g.chain us u).1 ∧
      HeapAgree ρ (h.chain vs v).2 (g.chain us u).2 := by
  induction hvs with
  | nil => exact ⟨hv, hg⟩
  | cons hab _ ih =>
    obtain ⟨hr, hh⟩ := ih
    refine ⟨?_, hh.pushPair ⟨hab, hr⟩⟩
    simp only [Heap.chain, List.foldr_cons, Heap.cons, Heap.addPair] at hh ⊢
    rw [hh.pairs.1]
    exact .same (by simp)

end HeapAgree

end LispMachine
