import LispMachine.Proofs.Refinement.Steps

/-! # The same results

Two machines on stacks of different sizes have made the same pairs, vectors and closures, index by
index. Frames and continuations have come to their heaps at other times and in another order, so
these correspond by the names that they have on the machine without a stack, and what corresponds
has the same contents.
-/

namespace LispMachine

open Machine

variable {ρ σ : Naming}

inductive SameValue (ρ σ : Naming) : Value → Value → Prop
  | continuation {k i j : Nat} : ρ.cont k = some i → σ.cont k = some j →
    SameValue ρ σ (.continuation ⟨i⟩) (.continuation ⟨j⟩)
  | same {v : Value} : (∀ r, v ≠ .continuation r) → SameValue ρ σ v v

inductive SameEnv (ρ σ : Naming) : Env → Env → Prop
  | empty : SameEnv ρ σ .empty .empty
  | onHeap {k i j : Nat} : ρ.frame k = some i → σ.frame k = some j →
    SameEnv ρ σ (.onHeap ⟨i⟩) (.onHeap ⟨j⟩)

inductive SameCont (ρ σ : Naming) : Cont → Cont → Prop
  | empty : SameCont ρ σ .empty .empty
  | onHeap {k i j : Nat} : ρ.cont k = some i → σ.cont k = some j →
    SameCont ρ σ (.onHeap ⟨i⟩) (.onHeap ⟨j⟩)

structure SamePair (ρ σ : Naming) (p p' : Pair) : Prop where
  car : SameValue ρ σ p.car p'.car
  cdr : SameValue ρ σ p.cdr p'.cdr

structure SameClosure (ρ σ : Naming) (c c' : Closure) : Prop where
  env : SameEnv ρ σ c.env c'.env
  entry : c.entry = c'.entry

structure SameFrame (ρ σ : Naming) (f f' : Frame) : Prop where
  slots : Each (SameValue ρ σ) f.slots f'.slots
  parent : SameEnv ρ σ f.parent f'.parent

/-- Both continuations bring back the same `n` values on top, below which there may be others. -/
structure SameContinuation (ρ σ : Naming) (n : Nat) (o o' : Continuation) : Prop where
  saved : ∃ d d', o.saved.size = d + n ∧ o'.saved.size = d' + n ∧
    ∀ i < n, ∃ v w, o.saved[d + i]? = some v ∧ o'.saved[d' + i]? = some w ∧ SameValue ρ σ v w
  prev : SameCont ρ σ o.prev o'.prev
  env : SameEnv ρ σ o.env o'.env
  resume : o.resume = o'.resume
  owner : o.owner = o'.owner

/-- The same accumulator and the same global names, with all the objects they are made of. The
values that a continuation has to bring back are as many as on the machine without a stack. -/
structure SameResult (ρ σ : Naming) (r : HeapMachine) (m m' : Machine) : Prop where
  runnable : m.runnable = m'.runnable
  acc : SameValue ρ σ m.acc m'.acc
  globals : ∀ name : String, Option.Rel (SameValue ρ σ) m.globals[name]? m'.globals[name]?
  pairs : Each (SamePair ρ σ) m.heap.pairs m'.heap.pairs
  vectors : Each (List.Forall₂ (SameValue ρ σ)) m.heap.vectors m'.heap.vectors
  closures : Each (SameClosure ρ σ) m.heap.closures m'.heap.closures
  procedures : m.heap.procedures = m'.heap.procedures
  frames : ∀ {k i j : Nat}, ρ.frame k = some i → σ.frame k = some j →
    ∃ f f', m.heap.frames[i]? = some f ∧ m'.heap.frames[j]? = some f' ∧ SameFrame ρ σ f f'
  continuations : ∀ {k i j : Nat}, ρ.cont k = some i → σ.cont k = some j →
    ∃ o o' c, m.heap.continuations[i]? = some o ∧ m'.heap.continuations[j]? = some o' ∧
      r.heap.continuations[k]? = some c ∧ SameContinuation ρ σ c.saved.size o o'

/-! ## What agrees with the same -/

theorem Agree.sameValue {v w u : Value} (hv : Agree ρ v u) (hw : Agree σ w u) :
    SameValue ρ σ v w := by
  cases hv with
  | continuation hk =>
    cases hw with
    | continuation hk' => exact .continuation hk hk'
    | same hne => exact absurd rfl (hne _)
  | same hne =>
    cases hw with
    | continuation => exact absurd rfl (hne _)
    | same => exact .same hne

theorem EnvAgree.sameEnv {env env' link : Env} (h : EnvAgree ρ env link)
    (h' : EnvAgree σ env' link) : SameEnv ρ σ env env' := by
  cases h with
  | empty =>
    cases h'
    exact .empty
  | onHeap hk =>
    cases h' with
    | onHeap hk' => exact .onHeap hk hk'

theorem ContAgree.sameCont {cont cont' link : Cont} (h : ContAgree ρ cont link)
    (h' : ContAgree σ cont' link) : SameCont ρ σ cont cont' := by
  cases h with
  | empty =>
    cases h'
    exact .empty
  | onHeap hk =>
    cases h' with
    | onHeap hk' => exact .onHeap hk hk'

section Items

variable {α β : Type} {R S : α → β → Prop} {T : α → α → Prop}

theorem Each.common {xs ys : Array α} {zs : Array β} (hx : Each R xs zs) (hy : Each S ys zs)
    (hT : ∀ {a b c}, R a c → S b c → T a b) : Each T xs ys := by
  refine ⟨hx.1.trans hy.1.symm, fun i b hb => ?_⟩
  have hi : i < zs.size := hy.1 ▸ (Array.getElem?_eq_some_iff.1 hb).1
  have hc := Array.getElem?_eq_getElem hi
  obtain ⟨a, ha, hac⟩ := hx.getElem? hc
  exact ⟨a, by rwa [Nat.zero_add], hT hac (hy.rel hb hc)⟩

theorem forall₂_common {xs ys : List α} {zs : List β} (hx : List.Forall₂ R xs zs)
    (hy : List.Forall₂ S ys zs) (hT : ∀ {a b c}, R a c → S b c → T a b) :
    List.Forall₂ T xs ys := by
  induction hx generalizing ys with
  | nil =>
    cases hy
    exact .nil
  | cons hac _ ih =>
    cases hy with
    | cons hbc hy => exact .cons (hT hac hbc) (ih hy)

theorem optionRel_common {x y : Option α} {z : Option β} (hx : Option.Rel R x z)
    (hy : Option.Rel S y z) (hT : ∀ {a b c}, R a c → S b c → T a b) : Option.Rel T x y := by
  cases hx with
  | none =>
    cases hy
    exact .none
  | some hac =>
    cases hy with
    | some hbc => exact .some (hT hac hbc)

end Items

theorem PairAgree.samePair {p p' q : Pair} (h : PairAgree ρ p q) (h' : PairAgree σ p' q) :
    SamePair ρ σ p p' :=
  ⟨h.car.sameValue h'.car, h.cdr.sameValue h'.cdr⟩

theorem ClosureAgree.sameClosure {c c' d : Closure} (h : ClosureAgree ρ c d)
    (h' : ClosureAgree σ c' d) : SameClosure ρ σ c c' :=
  ⟨h.env.sameEnv h'.env, h.entry.trans h'.entry.symm⟩

theorem FrameAgree.sameFrame {f f' g : Frame} (h : FrameAgree ρ f g) (h' : FrameAgree σ f' g) :
    SameFrame ρ σ f f' :=
  ⟨h.slots.common h'.slots Agree.sameValue, h.parent.sameEnv h'.parent⟩

theorem ContinuationAgree.sameContinuation {o o' c : Continuation} (h : ContinuationAgree ρ o c)
    (h' : ContinuationAgree σ o' c) : SameContinuation ρ σ c.saved.size o o' where
  saved := by
    obtain ⟨d, hd, hsaved⟩ := h.saved
    obtain ⟨d', hd', hsaved'⟩ := h'.saved
    refine ⟨d, d', hd, hd', fun i hi => ?_⟩
    have hu := Array.getElem?_eq_getElem hi
    obtain ⟨v, hv, hvu⟩ := hsaved i _ hu
    obtain ⟨w, hw, hwu⟩ := hsaved' i _ hu
    exact ⟨v, w, hv, hw, hvu.sameValue hwu⟩
  prev := h.prev.sameCont h'.prev
  env := h.env.sameEnv h'.env
  resume := h.resume.trans h'.resume.symm
  owner := h.owner.trans h'.owner.symm

theorem Mirrors.sameResult {m m' : Machine} {r : HeapMachine} (h : Mirrors ρ m r)
    (h' : Mirrors σ m' r) : SameResult ρ σ r m m' where
  runnable := h.runnable.trans h'.runnable.symm
  acc := h.acc.sameValue h'.acc
  globals name := optionRel_common (h.globals name) (h'.globals name) Agree.sameValue
  pairs := h.heap.pairs.common h'.heap.pairs PairAgree.samePair
  vectors := h.heap.vectors.common h'.heap.vectors fun hv hw => forall₂_common hv hw Agree.sameValue
  closures := h.heap.closures.common h'.heap.closures ClosureAgree.sameClosure
  procedures := h.heap.procedures.trans h'.heap.procedures.symm
  frames := by
    intro k i j hi hj
    obtain ⟨f, g, hf, hg, hfg⟩ := h.heap.frames k i hi
    obtain ⟨f', g', hf', hg', hfg'⟩ := h'.heap.frames k j hj
    rw [hg] at hg'
    cases hg'
    exact ⟨f, f', hf, hf', hfg.sameFrame hfg'⟩
  continuations := by
    intro k i j hi hj
    obtain ⟨o, c, ho, hc, hoc⟩ := h.heap.continuations k i hi
    obtain ⟨o', c', ho', hc', hoc'⟩ := h'.heap.continuations k j hj
    rw [hc] at hc'
    cases hc'
    exact ⟨o, o', c, ho, ho', hc, hoc.sameContinuation hoc'⟩

end LispMachine
