import LispMachine.Value
import Mathlib.Logic.Function.Basic
import Mathlib.Order.Basic

/-! # Names of frames and continuations

Two machines that do the same in different ways make their frames and continuations at different
times, so the same object has a different index in each. A naming says which index of the one stands
for which index of the other. It only grows.
-/

namespace LispMachine

/-- For a frame or continuation of the machine without a stack, the one on the heap of the machine
with a stack that stands for it, as soon as there is one. -/
structure Naming where
  frame : Nat → Option Nat
  cont : Nat → Option Nat
  frame_inj : ∀ {i j q : Nat}, frame i = some q → frame j = some q → i = j
  cont_inj : ∀ {i j q : Nat}, cont i = some q → cont j = some q → i = j

namespace Naming

instance : Preorder Naming where
  le ρ σ := (∀ j q, ρ.frame j = some q → σ.frame j = some q) ∧
    ∀ k q, ρ.cont k = some q → σ.cont k = some q
  le_refl _ := ⟨fun _ _ h => h, fun _ _ h => h⟩
  le_trans _ _ _ h g := ⟨fun j q e => g.1 j q (h.1 j q e), fun k q e => g.2 k q (h.2 k q e)⟩

/-- A new name keeps names apart if it was not used before. -/
theorem update_inj {f : Nat → Option Nat} {j q : Nat}
    (hf : ∀ {i j q : Nat}, f i = some q → f j = some q → i = j) (hq : ∀ i, f i ≠ some q)
    {i i' p : Nat} (hi : Function.update f j (some q) i = some p)
    (hi' : Function.update f j (some q) i' = some p) : i = i' := by
  by_cases he : i = j <;> by_cases he' : i' = j
  · rw [he, he']
  · subst he
    rw [Function.update_self] at hi
    rw [Function.update_of_ne he', ← hi] at hi'
    exact absurd hi' (hq i')
  · subst he'
    rw [Function.update_self] at hi'
    rw [Function.update_of_ne he, ← hi'] at hi
    exact absurd hi (hq i)
  · rw [Function.update_of_ne he] at hi
    rw [Function.update_of_ne he'] at hi'
    exact hf hi hi'

def addFrame (ρ : Naming) (j q : Nat) (hq : ∀ i, ρ.frame i ≠ some q) : Naming :=
  { ρ with frame := Function.update ρ.frame j (some q), frame_inj := update_inj ρ.frame_inj hq }

def addCont (ρ : Naming) (k q : Nat) (hq : ∀ i, ρ.cont i ≠ some q) : Naming :=
  { ρ with cont := Function.update ρ.cont k (some q), cont_inj := update_inj ρ.cont_inj hq }

section

variable {ρ : Naming} {i j q : Nat} {hq : ∀ i, ρ.frame i ≠ some q}

theorem le_addFrame (h : ρ.frame j = none) : ρ ≤ ρ.addFrame j q hq := by
  refine ⟨fun i p e => ?_, fun _ _ e => e⟩
  have hi : i ≠ j := by rintro rfl; simp [h] at e
  simpa [addFrame, Function.update_of_ne hi] using e

@[simp] theorem addFrame_frame_self : (ρ.addFrame j q hq).frame j = some q := by simp [addFrame]

theorem addFrame_frame_ne (h : i ≠ j) : (ρ.addFrame j q hq).frame i = ρ.frame i :=
  Function.update_of_ne h ..

@[simp] theorem addFrame_cont : (ρ.addFrame j q hq).cont = ρ.cont := rfl

end

section

variable {ρ : Naming} {i k q : Nat} {hq : ∀ i, ρ.cont i ≠ some q}

theorem le_addCont (h : ρ.cont k = none) : ρ ≤ ρ.addCont k q hq := by
  refine ⟨fun _ _ e => e, fun i p e => ?_⟩
  have hi : i ≠ k := by rintro rfl; simp [h] at e
  simpa [addCont, Function.update_of_ne hi] using e

@[simp] theorem addCont_cont_self : (ρ.addCont k q hq).cont k = some q := by simp [addCont]

theorem addCont_cont_ne (h : i ≠ k) : (ρ.addCont k q hq).cont i = ρ.cont i :=
  Function.update_of_ne h ..

@[simp] theorem addCont_frame : (ρ.addCont k q hq).frame = ρ.frame := rfl

end

end Naming

/-! ## Values and handles -/

/-- The first value stands for the second: a continuation for the one of which it is the name, any
other value for itself. -/
inductive Agree (ρ : Naming) : Value → Value → Prop
  | continuation {k q : Nat} : ρ.cont k = some q → Agree ρ (.continuation ⟨q⟩) (.continuation ⟨k⟩)
  | same {v : Value} : (∀ r, v ≠ .continuation r) → Agree ρ v v

def Known (ρ : Naming) (v : Value) : Prop := ∃ u, Agree ρ v u

/-- The handles name the same environment, which is on both heaps. -/
inductive EnvAgree (ρ : Naming) : Env → Env → Prop
  | empty : EnvAgree ρ .empty .empty
  | onHeap {j q : Nat} : ρ.frame j = some q → EnvAgree ρ (.onHeap ⟨q⟩) (.onHeap ⟨j⟩)

@[inherit_doc EnvAgree]
inductive ContAgree (ρ : Naming) : Cont → Cont → Prop
  | empty : ContAgree ρ .empty .empty
  | onHeap {k q : Nat} : ρ.cont k = some q → ContAgree ρ (.onHeap ⟨q⟩) (.onHeap ⟨k⟩)

section

variable {ρ σ : Naming} {v u : Value}

theorem Agree.mono (h : Agree ρ v u) (hρ : ρ ≤ σ) : Agree σ v u := by
  cases h with
  | continuation h => exact .continuation (hρ.2 _ _ h)
  | same h => exact .same h

theorem Known.mono (h : Known ρ v) (hρ : ρ ≤ σ) : Known σ v := by
  obtain ⟨u, h⟩ := h
  exact ⟨u, h.mono hρ⟩

theorem EnvAgree.mono {env env' : Env} (h : EnvAgree ρ env env') (hρ : ρ ≤ σ) :
    EnvAgree σ env env' := by
  cases h with
  | empty => exact .empty
  | onHeap h => exact .onHeap (hρ.1 _ _ h)

theorem ContAgree.mono {cont cont' : Cont} (h : ContAgree ρ cont cont') (hρ : ρ ≤ σ) :
    ContAgree σ cont cont' := by
  cases h with
  | empty => exact .empty
  | onHeap h => exact .onHeap (hρ.2 _ _ h)

theorem EnvAgree.not_onStack {env env' : Env} (h : EnvAgree ρ env env') (e : Nat) :
    env ≠ .onStack e := by
  rintro rfl
  cases h

theorem ContAgree.not_onStack {cont cont' : Cont} (h : ContAgree ρ cont cont') (c : Nat) :
    cont ≠ .onStack c := by
  rintro rfl
  cases h

theorem optionRel_mono {v u : Option Value} (h : Option.Rel (Agree ρ) v u) (hρ : ρ ≤ σ) :
    Option.Rel (Agree σ) v u := by
  cases h with
  | some h => exact .some (h.mono hρ)
  | none => exact .none

theorem Agree.known (h : Agree ρ v u) : Known ρ v := ⟨u, h⟩

@[simp] theorem Agree.nil : Agree ρ .nil .nil := .same (by simp)

@[simp] theorem Agree.unbound : Agree ρ .unbound .unbound := .same (by simp)

@[simp] theorem Agree.fixnum {n : Int} : Agree ρ (.fixnum n) (.fixnum n) := .same (by simp)

@[simp] theorem Agree.truth {b : Bool} : Agree ρ (.truth b) (.truth b) := by
  cases b <;> exact .same (by simp [Value.truth])

theorem Known.env (env : Env) : Known ρ env.toValue :=
  ⟨_, .same (by cases env <;> simp [Env.toValue])⟩

theorem Agree.isNil_eq (h : Agree ρ v u) : v.isNil = u.isNil := by
  cases h <;> rfl

theorem Agree.isUnbound_eq (h : Agree ρ v u) : v.isUnbound = u.isUnbound := by
  cases h <;> rfl

end

/-! ## Arrays -/

theorem mem_setIfInBounds {α : Type} {xs : Array α} {i : Nat} {a b : α}
    (h : b ∈ xs.setIfInBounds i a) : b = a ∨ b ∈ xs := by
  obtain ⟨k, hk, rfl⟩ := Array.mem_iff_getElem.1 h
  rw [Array.size_setIfInBounds] at hk
  rw [Array.getElem_setIfInBounds hk]
  split
  · exact .inl rfl
  · exact .inr (Array.getElem_mem hk)

/-- From position `lo` on the first array holds the items of the second. -/
def Holds {α β : Type} (R : α → β → Prop) (cells : Array α) (lo : Nat) (items : Array β) : Prop :=
  ∀ i b, items[i]? = some b → ∃ a, cells[lo + i]? = some a ∧ R a b

/-- Two arrays of the same size, item by item. -/
def Each {α β : Type} (R : α → β → Prop) (xs : Array α) (ys : Array β) : Prop :=
  xs.size = ys.size ∧ Holds R xs 0 ys

namespace Holds

variable {α β : Type} {R S : α → β → Prop} {cells cells' : Array α} {items items' : Array β}
  {lo n : Nat} {a : α} {b : β}

theorem mono (h : Holds R cells lo items) (hRS : ∀ a b, R a b → S a b) :
    Holds S cells lo items := by
  intro i b hb
  obtain ⟨a, ha, hab⟩ := h i b hb
  exact ⟨a, ha, hRS a b hab⟩

@[simp] theorem empty : Holds R cells lo #[] := by
  intro i b hb
  simp at hb

theorem congr (h : Holds R cells lo items)
    (hc : ∀ i, lo ≤ i → i < lo + items.size → cells'[i]? = cells[i]?) :
    Holds R cells' lo items := by
  intro i b hb
  obtain ⟨a, ha, hab⟩ := h i b hb
  have hi : i < items.size := (Array.getElem?_eq_some_iff.1 hb).1
  exact ⟨a, by rw [hc _ (by omega) (by omega), ha], hab⟩

theorem shift {lo' : Nat} (h : Holds R cells lo items)
    (hc : ∀ i, i < items.size → cells'[lo' + i]? = cells[lo + i]?) :
    Holds R cells' lo' items := by
  intro i b hb
  obtain ⟨a, ha, hab⟩ := h i b hb
  exact ⟨a, by rw [hc i (Array.getElem?_eq_some_iff.1 hb).1, ha], hab⟩

theorem push (h : Holds R cells lo items) (ha : cells[lo + items.size]? = some a) (hab : R a b) :
    Holds R cells lo (items.push b) := by
  intro i b' hb
  rw [Array.getElem?_push] at hb
  split at hb
  · next hi =>
    obtain rfl := Option.some.inj hb
    exact ⟨a, hi ▸ ha, hab⟩
  · exact h i b' hb

theorem append (h : Holds R cells lo items) (h' : Holds R cells (lo + items.size) items') :
    Holds R cells lo (items ++ items') := by
  intro i b hb
  rw [Array.getElem?_append] at hb
  split at hb
  · exact h i b hb
  · obtain ⟨a, ha, hab⟩ := h' _ b hb
    exact ⟨a, by rwa [show lo + items.size + (i - items.size) = lo + i by omega] at ha, hab⟩

theorem back (h : Holds R cells lo items) (hb : items.back? = some b) :
    ∃ a, cells[lo + items.size - 1]? = some a ∧ R a b := by
  rw [Array.back?_eq_getElem?] at hb
  have hs : items.size - 1 < items.size := (Array.getElem?_eq_some_iff.1 hb).1
  obtain ⟨a, ha, hab⟩ := h _ b hb
  exact ⟨a, by rwa [show lo + items.size - 1 = lo + (items.size - 1) by omega], hab⟩

theorem pop (h : Holds R cells lo items) : Holds R cells lo items.pop := by
  intro i b hb
  rw [Array.getElem?_pop] at hb
  split at hb
  · exact h i b hb
  · simp at hb

theorem last (h : Holds R cells lo items) :
    Holds R cells (lo + (items.size - n)) (items.extract (items.size - n) items.size) := by
  intro i b hb
  rw [Array.getElem?_extract] at hb
  split at hb
  · obtain ⟨a, ha, hab⟩ := h _ b hb
    exact ⟨a, by rwa [Nat.add_assoc], hab⟩
  · simp at hb

theorem extract {start stop : Nat} (h : Holds R cells lo items) (hs : start ≤ lo)
    (hstop : lo + items.size ≤ stop) : Holds R (cells.extract start stop) (lo - start) items := by
  intro i b hb
  obtain ⟨a, ha, hab⟩ := h i b hb
  have hi : i < items.size := (Array.getElem?_eq_some_iff.1 hb).1
  have hc : lo + i < cells.size := (Array.getElem?_eq_some_iff.1 ha).1
  refine ⟨a, ?_, hab⟩
  rw [Array.getElem?_extract, if_pos (by omega),
    show start + (lo - start + i) = lo + i by omega, ha]

theorem replicate (h : ∀ i, i < n → ∃ a, cells[lo + i]? = some a ∧ R a b) :
    Holds R cells lo (Array.replicate n b) := by
  intro i b' hb
  rw [Array.getElem?_replicate] at hb
  split at hb
  · next hi =>
    obtain rfl := Option.some.inj hb
    exact h i hi
  · simp at hb

theorem set {i : Nat} (h : Holds R cells lo items) (hi : i < items.size) (hab : R a b) :
    Holds R (cells.setIfInBounds (lo + i) a) lo (items.setIfInBounds i b) := by
  intro i' b' hb
  by_cases he : i = i'
  · subst he
    rw [Array.getElem?_setIfInBounds_self_of_lt hi] at hb
    obtain rfl := Option.some.inj hb
    obtain ⟨a', ha', -⟩ := h i items[i] (Array.getElem?_eq_getElem hi)
    exact ⟨a, Array.getElem?_setIfInBounds_self_of_lt (Array.getElem?_eq_some_iff.1 ha').1, hab⟩
  · rw [Array.getElem?_setIfInBounds_ne he] at hb
    obtain ⟨a', ha', hab'⟩ := h i' b' hb
    exact ⟨a', by rw [Array.getElem?_setIfInBounds_ne (by omega), ha'], hab'⟩

end Holds

namespace Each

variable {α β : Type} {R S : α → β → Prop} {xs : Array α} {ys : Array β} {i : Nat} {a : α} {b : β}

theorem mono (h : Each R xs ys) (hRS : ∀ a b, R a b → S a b) : Each S xs ys :=
  ⟨h.1, h.2.mono hRS⟩

theorem getElem? (h : Each R xs ys) (hb : ys[i]? = some b) : ∃ a, xs[i]? = some a ∧ R a b := by
  simpa using h.2 i b hb

theorem rel (h : Each R xs ys) (ha : xs[i]? = some a) (hb : ys[i]? = some b) : R a b := by
  obtain ⟨a', ha', hab⟩ := h.getElem? hb
  rw [ha] at ha'
  obtain rfl := Option.some.inj ha'
  exact hab

theorem getElem?_none (h : Each R xs ys) (hb : ys[i]? = none) : xs[i]? = none := by
  rw [Array.getElem?_eq_none_iff] at hb ⊢
  exact h.1 ▸ hb

theorem push (h : Each R xs ys) (hab : R a b) : Each R (xs.push a) (ys.push b) := by
  refine ⟨by simp [h.1], Holds.push ?_ (by simp [← h.1]) hab⟩
  intro i b' hb
  obtain ⟨a', ha', hab'⟩ := h.2 i b' hb
  have hi : 0 + i < xs.size := (Array.getElem?_eq_some_iff.1 ha').1
  exact ⟨a', by rw [Array.getElem?_push, if_neg (by omega), ha'], hab'⟩

theorem set (h : Each R xs ys) (hab : R a b) :
    Each R (xs.setIfInBounds i a) (ys.setIfInBounds i b) := by
  refine ⟨by simp [h.1], ?_⟩
  by_cases hi : i < ys.size
  · have := h.2.set hi hab
    rwa [Nat.zero_add] at this
  · have hs := h.1
    rw [Array.setIfInBounds_eq_of_size_le (by omega),
      Array.setIfInBounds_eq_of_size_le (by omega)]
    exact h.2

theorem modify {f : α → α} {g : β → β} (h : Each R xs ys) (hfg : ∀ a b, R a b → R (f a) (g b)) :
    Each R (xs.modify i f) (ys.modify i g) := by
  refine ⟨by simp [h.1], fun i' b' hb => ?_⟩
  rw [Array.getElem?_modify] at hb
  rw [Array.getElem?_modify, Nat.zero_add]
  split at hb
  · next he =>
    obtain ⟨b, hb', rfl⟩ := Option.map_eq_some_iff.1 hb
    obtain ⟨a, ha, hab⟩ := h.getElem? hb'
    exact ⟨f a, by rw [if_pos he, ha]; rfl, hfg a b hab⟩
  · next hne =>
    obtain ⟨a, ha, hab⟩ := h.getElem? hb
    exact ⟨a, by rw [if_neg hne, ha], hab⟩

end Each

end LispMachine
