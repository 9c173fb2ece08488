import LispMachine.Machine.Basic

/-! # References that lead somewhere

A reference leads to an object of the heap, and keeps doing so because objects are never given back.
A handle of the stack may be anything, wherever it comes from. Whether it may also stand in an
object is a parameter: the objects that the machine makes never link back to the stack, those that
it is given may.
-/

namespace LispMachine

/-! ## Values, handles and objects -/

/-- All references in use are good on the second heap if they are on the first. -/
structure Heap.Within (h h' : Heap) : Prop where
  pairs : h.pairs.size ≤ h'.pairs.size
  vectors : h.vectors.size ≤ h'.vectors.size
  closures : h.closures.size ≤ h'.closures.size
  procedures : h.procedures.size ≤ h'.procedures.size
  frames : h.frames.size ≤ h'.frames.size
  continuations : h.continuations.size ≤ h'.continuations.size

def Value.KnownIn (h : Heap) : Value → Prop
  | .vector r => r.index < h.vectors.size
  | .pair r => r.index < h.pairs.size
  | .closure r => r.index < h.closures.size
  | .procedure r => r.index < h.procedures.size
  | .continuation r => r.index < h.continuations.size
  | .frame r => r.index < h.frames.size
  | _ => True

/-- The handle leads nowhere, to a frame on the heap, or, where that is allowed, to the stack. -/
def Env.LeadsIn (loose : Bool) (h : Heap) : Env → Prop
  | .empty => True
  | .onStack _ => loose = true
  | .onHeap r => r.index < h.frames.size

@[inherit_doc Env.LeadsIn]
def Cont.LeadsIn (loose : Bool) (h : Heap) : Cont → Prop
  | .empty => True
  | .onStack _ => loose = true
  | .onHeap r => r.index < h.continuations.size

namespace Heap.Within

variable {h h' h'' : Heap}

theorem refl (h : Heap) : Within h h := ⟨Nat.le_refl _, Nat.le_refl _, Nat.le_refl _, Nat.le_refl _,
  Nat.le_refl _, Nat.le_refl _⟩

theorem trans (hw : Within h h') (hw' : Within h' h'') : Within h h'' where
  pairs := Nat.le_trans hw.pairs hw'.pairs
  vectors := Nat.le_trans hw.vectors hw'.vectors
  closures := Nat.le_trans hw.closures hw'.closures
  procedures := Nat.le_trans hw.procedures hw'.procedures
  frames := Nat.le_trans hw.frames hw'.frames
  continuations := Nat.le_trans hw.continuations hw'.continuations

end Heap.Within

section Links

variable {h h' : Heap} {loose : Bool} {v : Value} {env : Env} {cont : Cont}

theorem Value.KnownIn.mono (hv : v.KnownIn h) (hw : h.Within h') : v.KnownIn h' := by
  cases v with
  | vector => exact Nat.lt_of_lt_of_le hv hw.vectors
  | pair => exact Nat.lt_of_lt_of_le hv hw.pairs
  | closure => exact Nat.lt_of_lt_of_le hv hw.closures
  | procedure => exact Nat.lt_of_lt_of_le hv hw.procedures
  | continuation => exact Nat.lt_of_lt_of_le hv hw.continuations
  | frame => exact Nat.lt_of_lt_of_le hv hw.frames
  | _ => trivial

theorem Env.LeadsIn.mono (he : env.LeadsIn loose h) (hw : h.Within h') : env.LeadsIn loose h' := by
  cases env with
  | empty => trivial
  | onStack => exact he
  | onHeap => exact Nat.lt_of_lt_of_le he hw.frames

theorem Cont.LeadsIn.mono (hc : cont.LeadsIn loose h) (hw : h.Within h') :
    cont.LeadsIn loose h' := by
  cases cont with
  | empty => trivial
  | onStack => exact hc
  | onHeap => exact Nat.lt_of_lt_of_le hc hw.continuations

theorem Env.LeadsIn.loosen (he : env.LeadsIn false h) : env.LeadsIn loose h := by
  cases env with
  | onStack => cases he
  | _ => exact he

theorem Cont.LeadsIn.loosen (hc : cont.LeadsIn false h) : cont.LeadsIn loose h := by
  cases cont with
  | onStack => cases hc
  | _ => exact hc

theorem Env.LeadsIn.inRegister (he : env.LeadsIn loose h) : env.LeadsIn true h := by
  cases env with
  | onStack => rfl
  | _ => exact he

theorem Cont.LeadsIn.inRegister (hc : cont.LeadsIn loose h) : cont.LeadsIn true h := by
  cases cont with
  | onStack => rfl
  | _ => exact hc

theorem Env.LeadsIn.toValue (he : env.LeadsIn loose h) : env.toValue.KnownIn h := by
  cases env with
  | onHeap => exact he
  | _ => trivial

theorem Cont.LeadsIn.toValue (hc : cont.LeadsIn loose h) : cont.toValue.KnownIn h := by
  cases cont with
  | onHeap => exact hc
  | _ => trivial

theorem Value.KnownIn.toEnv (hv : v.KnownIn h) (he : Env.ofValue? v = some env) :
    env.LeadsIn true h := by
  cases v <;> cases he
  · trivial
  · exact hv
  · rfl

theorem Value.KnownIn.toCont (hv : v.KnownIn h) (hc : Cont.ofValue? v = some cont) :
    cont.LeadsIn true h := by
  cases v <;> cases hc
  · trivial
  · exact hv
  · rfl

theorem Value.known_fixnum (n : Int) : (Value.fixnum n).KnownIn h := trivial

theorem Value.known_truth (b : Bool) : (Value.truth b).KnownIn h := by cases b <;> trivial

end Links

/-! ## Numbers -/

namespace Value

def Plain (op : Value → Value → Except Fault Value) : Prop :=
  ∀ a b v, op a b = .ok v → ∀ h, v.KnownIn h

theorem plain_operands (name : String) {compute : Operands → Except Fault Value}
    (hc : ∀ o v, compute o = .ok v → ∀ h, v.KnownIn h) :
    Plain fun a b => operands name a b >>= compute := by
  intro a b v hv
  cases ho : operands name a b with
  | ok o =>
    simp only [ho] at hv
    exact hc o v hv
  | error f =>
    simp only [ho] at hv
    cases hv

theorem plain_add : Plain add := by
  refine plain_operands "add" fun o v hv h => ?_
  cases o <;> cases hv <;> trivial

theorem plain_mul : Plain mul := by
  refine plain_operands "multiply" fun o v hv h => ?_
  cases o <;> cases hv <;> trivial

theorem plain_div : Plain div := by
  refine plain_operands "divide" fun o v hv h => ?_
  cases o with
  | inexact x y =>
    cases hv
    trivial
  | exact m n =>
    by_cases hn : n = 0
    · simp only [hn, if_true] at hv
      cases hv
    · simp only [hn, if_false] at hv
      cases hv
      trivial

theorem plain_sub : Plain sub := by
  intro a b v hv
  rw [sub] at hv
  cases hb : b.negate with
  | ok c =>
    rw [hb] at hv
    exact plain_add a c v hv
  | error f =>
    rw [hb] at hv
    cases hv

theorem plain_same : Plain fun a b => .ok (truth (a.same b)) := by
  intro a b v hv h
  cases hv
  exact known_truth _

theorem known_negate {a v : Value} (hv : a.negate = .ok v) (h : Heap) : v.KnownIn h := by
  cases a <;> cases hv <;> trivial

end Value

/-! ## Scripts -/

namespace Request

/-- The values that are passed on are known. -/
def KnownIn (h : Heap) : Request → Prop
  | .call callee args => callee.KnownIn h ∧ ∀ v ∈ args, v.KnownIn h
  | .items v | .car v | .cdr v | .setSlot _ _ v | .define _ v => v.KnownIn h
  | .pair v w | .setCar v w | .setCdr v w => v.KnownIn h ∧ w.KnownIn h
  | .vector vs => ∀ v ∈ vs, v.KnownIn h
  | .elements r => (Value.vector r).KnownIn h
  | .setElements r vs => (Value.vector r).KnownIn h ∧ ∀ v ∈ vs, v.KnownIn h
  | .slot .. | .global _ | .capture => True

def ReplyIn (h : Heap) : (q : Request) → q.Reply → Prop
  | .items _, vs | .elements _, vs => ∀ v ∈ vs, v.KnownIn h
  | .global _, o => ∀ v ∈ o, v.KnownIn h
  | .setSlot .., _ | .define .., _ | .setCar .., _ | .setCdr .., _ | .setElements .., _ => True
  | .slot .., v | .call .., v | .capture, v | .car _, v | .cdr _, v | .pair .., v | .vector _, v =>
    Value.KnownIn h v

theorem KnownIn.mono {q : Request} {h h' : Heap} (hq : q.KnownIn h) (hw : h.Within h') :
    q.KnownIn h' := by
  cases q with
  | call => exact ⟨hq.1.mono hw, fun v hv => (hq.2 v hv).mono hw⟩
  | items | car | cdr | setSlot | define => exact Value.KnownIn.mono hq hw
  | elements r => exact Value.KnownIn.mono (v := .vector r) hq hw
  | pair | setCar | setCdr => exact ⟨hq.1.mono hw, hq.2.mono hw⟩
  | vector => exact fun v hv => (hq v hv).mono hw
  | setElements => exact ⟨hq.1.mono hw, fun v hv => (hq.2 v hv).mono hw⟩
  | slot | global | capture => trivial

end Request

def Outcome.KnownIn (h : Heap) : Outcome → Prop
  | .value v => v.KnownIn h
  | .tailCall callee args => callee.KnownIn h ∧ ∀ v ∈ args, v.KnownIn h

theorem Outcome.KnownIn.mono {o : Outcome} {h h' : Heap} (ho : o.KnownIn h) (hw : h.Within h') :
    o.KnownIn h' := by
  cases o with
  | value => exact Value.KnownIn.mono ho hw
  | tailCall => exact ⟨ho.1.mono hw, fun v hv => (ho.2 v hv).mono hw⟩

namespace Script

variable {α β : Type} {Q : Heap → α → Prop} {R : Heap → β → Prop} {h h' : Heap}

/-- As long as the answers are known values, the script asks with known values and ends with a
result as wanted. Other objects may be made in between. -/
def Yields (Q : Heap → α → Prop) : Heap → Script α → Prop
  | h, .done a => Q h a
  | _, .fail _ => True
  | h, .ask q next => q.KnownIn h ∧ ∀ h', h.Within h' → ∀ r : Except Fault q.Reply,
    (∀ a, r = .ok a → q.ReplyIn h' a) → Yields Q h' (next r)

abbrev KnownIn (h : Heap) (s : Script Outcome) : Prop := s.Yields Outcome.KnownIn h

theorem Yields.bind {s : Script α} {f : α → Script β} (hs : s.Yields Q h)
    (hf : ∀ h' a, h.Within h' → Q h' a → (f a).Yields R h') : (s >>= f).Yields R h := by
  induction s generalizing h with
  | done a => exact hf h a (.refl h) hs
  | fail f => trivial
  | ask q next ih =>
    refine ⟨hs.1, fun h' hw r hr => ih r (hs.2 h' hw r hr) fun h'' a hw' => hf h'' a (hw.trans hw')⟩

theorem yields_ofExcept {x : Except Fault α} (hx : ∀ a, x = .ok a → Q h a) :
    (ofExcept x).Yields Q h := by
  cases x with
  | ok a => exact hx a rfl
  | error f => trivial

theorem yields_request {q : Request} (hq : q.KnownIn h) :
    (request q).Yields (fun h => q.ReplyIn h) h :=
  ⟨hq, fun _ _ _ hr => yields_ofExcept hr⟩

theorem KnownIn.mono {s : Script Outcome} (hs : s.KnownIn h) (hw : h.Within h') : s.KnownIn h' := by
  cases s with
  | done o => exact Outcome.KnownIn.mono hs hw
  | fail f => trivial
  | ask q next => exact ⟨hs.1.mono hw, fun h'' hw' => hs.2 h'' (hw.trans hw')⟩

end Script

/-! ## Heaps -/

def Pair.KnownIn (h : Heap) (p : Pair) : Prop := p.car.KnownIn h ∧ p.cdr.KnownIn h

def Frame.KnownIn (loose : Bool) (h : Heap) (f : Frame) : Prop :=
  (∀ v ∈ f.slots, v.KnownIn h) ∧ f.parent.LeadsIn loose h

def Continuation.KnownIn (loose : Bool) (h : Heap) (k : Continuation) : Prop :=
  (∀ v ∈ k.saved, v.KnownIn h) ∧ k.env.LeadsIn loose h ∧ k.prev.LeadsIn loose h

/-- What the objects refer to is there. They link to the stack only where that is allowed. -/
structure Heap.Sound (loose : Bool) (h : Heap) : Prop where
  pairs : ∀ p ∈ h.pairs, p.KnownIn h
  vectors : ∀ items ∈ h.vectors, ∀ v ∈ items, v.KnownIn h
  closures : ∀ c ∈ h.closures, c.env.LeadsIn loose h
  procedures : ∀ p ∈ h.procedures, p.body.KnownIn h
  frames : ∀ f ∈ h.frames, f.KnownIn loose h
  continuations : ∀ k ∈ h.continuations, k.KnownIn loose h

section Heaps

variable {loose : Bool} {h h' : Heap}

theorem Pair.KnownIn.mono {p : Pair} (hp : p.KnownIn h) (hw : h.Within h') : p.KnownIn h' :=
  ⟨hp.1.mono hw, hp.2.mono hw⟩

theorem Frame.KnownIn.mono {f : Frame} (hf : f.KnownIn loose h) (hw : h.Within h') :
    f.KnownIn loose h' :=
  ⟨fun v hv => (hf.1 v hv).mono hw, hf.2.mono hw⟩

theorem Continuation.KnownIn.mono {k : Continuation} (hk : k.KnownIn loose h) (hw : h.Within h') :
    k.KnownIn loose h' :=
  ⟨fun v hv => (hk.1 v hv).mono hw, hk.2.1.mono hw, hk.2.2.mono hw⟩

namespace Heap.Sound

/-- On a larger heap only new and changed objects have to be looked at. -/
theorem of_mem (hs : h.Sound loose) (hw : h.Within h')
    (hp : ∀ p ∈ h'.pairs, p ∈ h.pairs ∨ p.KnownIn h')
    (hv : ∀ items ∈ h'.vectors, items ∈ h.vectors ∨ ∀ v ∈ items, v.KnownIn h')
    (hc : ∀ c ∈ h'.closures, c ∈ h.closures ∨ c.env.LeadsIn loose h')
    (hq : ∀ p ∈ h'.procedures, p ∈ h.procedures ∨ p.body.KnownIn h')
    (hf : ∀ f ∈ h'.frames, f ∈ h.frames ∨ f.KnownIn loose h')
    (hk : ∀ k ∈ h'.continuations, k ∈ h.continuations ∨ k.KnownIn loose h') : h'.Sound loose where
  pairs p hm := (hp p hm).elim (fun hm => (hs.pairs p hm).mono hw) id
  vectors items hm := (hv items hm).elim (fun hm v hv => (hs.vectors items hm v hv).mono hw) id
  closures c hm := (hc c hm).elim (fun hm => (hs.closures c hm).mono hw) id
  procedures p hm := (hq p hm).elim (fun hm => (hs.procedures p hm).mono hw) id
  frames f hm := (hf f hm).elim (fun hm => (hs.frames f hm).mono hw) id
  continuations k hm := (hk k hm).elim (fun hm => (hs.continuations k hm).mono hw) id

end Heap.Sound

theorem Heap.Within.addPair (p : Pair) : h.Within (h.addPair p).2 :=
  { refl h with pairs := by simp [Heap.addPair] }

theorem Heap.Within.addVector (items : List Value) : h.Within (h.addVector items).2 :=
  { refl h with vectors := by simp [Heap.addVector] }

theorem Heap.Within.addClosure (c : Closure) : h.Within (h.addClosure c).2 :=
  { refl h with closures := by simp [Heap.addClosure] }

theorem Heap.Within.addProcedure (p : Procedure) : h.Within (h.addProcedure p).2 :=
  { refl h with procedures := by simp [Heap.addProcedure] }

theorem Heap.Within.addFrame (f : Frame) : h.Within (h.addFrame f).2 :=
  { refl h with frames := by simp [Heap.addFrame] }

theorem Heap.Within.addContinuation (k : Continuation) : h.Within (h.addContinuation k).2 :=
  { refl h with continuations := by simp [Heap.addContinuation] }

namespace Heap.Sound

variable (hs : h.Sound loose)
include hs

theorem addPair {p : Pair} (hp : p.KnownIn h) : (h.addPair p).2.Sound loose := by
  refine hs.of_mem (.addPair p) (fun q hm => ?_) (fun _ => .inl) (fun _ => .inl) (fun _ => .inl)
    (fun _ => .inl) fun _ => .inl
  rcases Array.mem_push.1 hm with hm | rfl
  · exact .inl hm
  · exact .inr (hp.mono (.addPair q))

theorem addVector {items : List Value} (hv : ∀ v ∈ items, v.KnownIn h) :
    (h.addVector items).2.Sound loose := by
  refine hs.of_mem (.addVector items) (fun _ => .inl) (fun vs hm => ?_) (fun _ => .inl)
    (fun _ => .inl) (fun _ => .inl) fun _ => .inl
  rcases Array.mem_push.1 hm with hm | rfl
  · exact .inl hm
  · exact .inr fun v hm => (hv v hm).mono (.addVector vs)

theorem addClosure {c : Closure} (hc : c.env.LeadsIn loose h) : (h.addClosure c).2.Sound loose := by
  refine hs.of_mem (.addClosure c) (fun _ => .inl) (fun _ => .inl) (fun d hm => ?_) (fun _ => .inl)
    (fun _ => .inl) fun _ => .inl
  rcases Array.mem_push.1 hm with hm | rfl
  · exact .inl hm
  · exact .inr (hc.mono (.addClosure d))

theorem addProcedure {p : Procedure} (hp : p.body.KnownIn h) :
    (h.addProcedure p).2.Sound loose := by
  refine hs.of_mem (.addProcedure p) (fun _ => .inl) (fun _ => .inl) (fun _ => .inl)
    (fun q hm => ?_) (fun _ => .inl) fun _ => .inl
  rcases Array.mem_push.1 hm with hm | rfl
  · exact .inl hm
  · exact .inr (hp.mono (.addProcedure q))

theorem addFrame {f : Frame} (hf : f.KnownIn loose h) : (h.addFrame f).2.Sound loose := by
  refine hs.of_mem (.addFrame f) (fun _ => .inl) (fun _ => .inl) (fun _ => .inl) (fun _ => .inl)
    (fun g hm => ?_) fun _ => .inl
  rcases Array.mem_push.1 hm with hm | rfl
  · exact .inl hm
  · exact .inr (hf.mono (.addFrame g))

theorem addContinuation {k : Continuation} (hk : k.KnownIn loose h) :
    (h.addContinuation k).2.Sound loose := by
  refine hs.of_mem (.addContinuation k) (fun _ => .inl) (fun _ => .inl) (fun _ => .inl)
    (fun _ => .inl) (fun _ => .inl) fun c hm => ?_
  rcases Array.mem_push.1 hm with hm | rfl
  · exact .inl hm
  · exact .inr (hk.mono (.addContinuation c))

theorem chain {items : List Value} {tail : Value} (hv : ∀ v ∈ items, v.KnownIn h)
    (ht : tail.KnownIn h) :
    (h.chain items tail).2.Sound loose ∧ h.Within (h.chain items tail).2 ∧
      (h.chain items tail).1.KnownIn (h.chain items tail).2 := by
  induction items with
  | nil => exact ⟨hs, .refl h, ht⟩
  | cons a items ih =>
    -- the chain is made from its end, so the rest is there when the pair is added
    obtain ⟨hsound, hw, hrest⟩ := ih fun v hm => hv v (List.mem_cons_of_mem _ hm)
    have ha := (hv a List.mem_cons_self).mono hw
    refine ⟨hsound.addPair ⟨ha, hrest⟩, hw.trans (.addPair _), ?_⟩
    exact Nat.lt_of_lt_of_eq (Nat.lt_succ_self _) (Array.size_push _).symm

theorem modifyPair {i : Nat} {change : Pair → Pair} (hc : ∀ p, p.KnownIn h → (change p).KnownIn h) :
    Heap.Sound loose { h with pairs := h.pairs.modify i change } := by
  have hw : h.Within { h with pairs := h.pairs.modify i change } :=
    { Heap.Within.refl h with pairs := by simp }
  refine hs.of_mem hw (fun p hm => ?_) (fun _ => .inl) (fun _ => .inl) (fun _ => .inl)
    (fun _ => .inl) fun _ => .inl
  obtain ⟨j, hj⟩ := Array.mem_iff_getElem?.1 hm
  rw [Array.getElem?_modify] at hj
  split at hj
  · obtain ⟨q, hq, rfl⟩ := Option.map_eq_some_iff.1 hj
    exact .inr ((hc q (hs.pairs q (Array.mem_of_getElem? hq))).mono hw)
  · exact .inl (Array.mem_of_getElem? hj)

theorem setVector {r : Ref .vector} {items : List Value} (hitems : ∀ v ∈ items, v.KnownIn h) :
    (h.setVector r items).Sound loose := by
  have hw : h.Within (h.setVector r items) :=
    { Heap.Within.refl h with vectors := by simp [Heap.setVector] }
  refine hs.of_mem hw (fun _ => .inl) (fun vs hm => ?_) (fun _ => .inl) (fun _ => .inl)
    (fun _ => .inl) fun _ => .inl
  obtain ⟨j, hj⟩ := Array.mem_iff_getElem?.1 hm
  rw [Heap.setVector, Array.getElem?_modify] at hj
  split at hj
  · obtain ⟨-, -, rfl⟩ := Option.map_eq_some_iff.1 hj
    exact .inr fun v hv => (hitems v hv).mono hw
  · exact .inl (Array.mem_of_getElem? hj)

theorem modifyFrame {i index : Nat} {v : Value} (hv : v.KnownIn h) :
    Heap.Sound loose { h with frames := h.frames.modify i fun f =>
      { f with slots := f.slots.setIfInBounds index v } } := by
  have hw : h.Within { h with frames := h.frames.modify i fun f =>
      { f with slots := f.slots.setIfInBounds index v } } :=
    { Heap.Within.refl h with frames := by simp }
  refine hs.of_mem hw (fun _ => .inl) (fun _ => .inl) (fun _ => .inl) (fun _ => .inl)
    (fun f hm => ?_) fun _ => .inl
  obtain ⟨j, hj⟩ := Array.mem_iff_getElem?.1 hm
  rw [Array.getElem?_modify] at hj
  split at hj
  · obtain ⟨g, hg, rfl⟩ := Option.map_eq_some_iff.1 hj
    obtain ⟨hslots, hparent⟩ := hs.frames g (Array.mem_of_getElem? hg)
    refine .inr (Frame.KnownIn.mono ⟨fun u hu => ?_, hparent⟩ hw)
    rcases Array.mem_or_eq_of_mem_setIfInBounds hu with hu | rfl
    · exact hslots u hu
    · exact hv
  · exact .inl (Array.mem_of_getElem? hj)

end Heap.Sound

end Heaps

end LispMachine
