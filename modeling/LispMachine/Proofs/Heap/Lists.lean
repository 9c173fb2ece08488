import Mathlib.Data.List.Nodup
import Mathlib.Data.List.Perm.Subperm
import LispMachine.Proofs.Arrangement.Basic
import LispMachine.Proofs.Simulation.Operations

/-! # Lists and their pairs

A list is followed from pair to pair until something comes that is no pair. The operations on lists
each follow it in their own way, and they agree on which items it has and where it ends. What they
add to the heap is new, so no list that was there before changes.
-/

namespace LispMachine

open Machine

namespace Heap

/-- These pairs follow one another from the value on. They hold the items, and the last of them goes
on with `rest`. -/
inductive Chained (h : Heap) : Value → List (Ref .pair) → List Value → Value → Prop
  | nil (v : Value) : Chained h v [] [] v
  | cons {r : Ref .pair} {p : Pair} {cells : List (Ref .pair)} {items : List Value} {rest : Value} :
    h.pair r = .ok p → Chained h p.cdr cells items rest →
    Chained h (.pair r) (r :: cells) (p.car :: items) rest

/-- The value is a list, so it comes to an end. It is a proper one if that is `nil`. -/
structure IsList (h : Heap) (v : Value) (cells : List (Ref .pair)) (items : List Value)
    (last : Value) :
    Prop where
  chained : h.Chained v cells items last
  ends : ∀ r, last ≠ .pair r

variable {h h' : Heap} {v rest last last' : Value} {cells cells' : List (Ref .pair)}
  {items items' : List Value} {n : Nat}

namespace Chained

theorem length_eq (hc : h.Chained v cells items rest) : items.length = cells.length := by
  induction hc with
  | nil => rfl
  | cons _ _ ih => simp [ih]

theorem extended (hc : h.Chained v cells items rest) (he : Extended h.pairs h'.pairs) :
    h'.Chained v cells items rest := by
  induction hc with
  | nil v => exact .nil v
  | cons hr _ ih => exact .cons (present_eq_ok.2 (he _ _ (present_eq_ok.1 hr))) ih

theorem of_mem (hc : h.Chained v cells items rest) {r : Ref .pair} (hr : r ∈ cells) :
    ∃ cells' items', (r :: cells').length ≤ cells.length ∧
      h.Chained (.pair r) (r :: cells') items' rest := by
  induction hc with
  | nil => cases hr
  | cons hp hc ih =>
    rcases List.mem_cons.1 hr with rfl | hr
    · exact ⟨_, _, le_rfl, .cons hp hc⟩
    · obtain ⟨cells', items', hle, hc'⟩ := ih hr
      exact ⟨cells', items', hle.trans (Nat.le_succ _), hc'⟩

theorem lt_size (hc : h.Chained v cells items rest) {r : Ref .pair} (hr : r ∈ cells) :
    r.index < h.pairs.size := by
  obtain ⟨_, _, -, hc'⟩ := hc.of_mem hr
  cases hc' with
  | cons hp _ => exact (Array.getElem?_eq_some_iff.1 (present_eq_ok.1 hp)).1

/-- The items come first, and then what the rest has. -/
theorem element? (hc : h.Chained v cells items rest) (n : Nat) :
    h.element? n v =
      if n < cells.length then .ok items[n]? else h.element? (n - cells.length) rest := by
  induction hc generalizing n with
  | nil => rfl
  | cons hp _ ih =>
    cases n with
    | zero =>
      rw [Heap.element?, hp]
      rfl
    | succ n =>
      rw [Heap.element?, hp]
      change h.element? n _ = _
      rw [ih, List.length_cons, List.getElem?_cons_succ, Nat.add_sub_add_right]
      simp only [Nat.add_lt_add_iff_right]

end Chained

namespace IsList

theorem unique (hl : h.IsList v cells items last) (hl' : h.IsList v cells' items' last') :
    cells = cells' ∧ items = items' ∧ last = last' := by
  obtain ⟨hc, hends⟩ := hl
  induction hc generalizing cells' items' with
  | nil v =>
    obtain ⟨hc', -⟩ := hl'
    cases hc' with
    | nil => exact ⟨rfl, rfl, rfl⟩
    | cons => exact absurd rfl (hends _)
  | cons hp _ ih =>
    obtain ⟨hc', hends'⟩ := hl'
    cases hc' with
    | nil => exact absurd rfl (hends' _)
    | cons hp' hc' =>
      cases hp.symm.trans hp'
      obtain ⟨rfl, rfl, rfl⟩ := ih ⟨hc', hends'⟩ hends
      exact ⟨rfl, rfl, rfl⟩

theorem nodup (hl : h.IsList v cells items last) : cells.Nodup := by
  obtain ⟨hc, hends⟩ := hl
  induction hc with
  | nil => exact List.nodup_nil
  | @cons r p cells items last hp hc ih =>
    refine List.nodup_cons.2 ⟨fun hr => ?_, ih hends⟩
    obtain ⟨cells', items', hle, hc'⟩ := hc.of_mem hr
    obtain ⟨hsame, -⟩ := unique ⟨.cons hp hc, hends⟩ ⟨hc', hends⟩
    rw [← hsame, List.length_cons] at hle
    omega

theorem length_le (hl : h.IsList v cells items last) : cells.length ≤ h.pairs.size := by
  have hnodup : (cells.map Ref.index).Nodup := hl.nodup.map fun a b heq => congrArg Ref.mk heq
  have hsub : cells.map Ref.index ⊆ List.range h.pairs.size := by
    intro i hi
    obtain ⟨r, hr, rfl⟩ := List.mem_map.1 hi
    exact List.mem_range.2 (hl.chained.lt_size hr)
  simpa using (List.subperm_of_subset hnodup hsub).length_le

theorem walk (hl : h.IsList v cells items last) (hn : cells.length ≤ n) :
    h.walk n v = .ok (items, last) := by
  obtain ⟨hc, hends⟩ := hl
  induction hc generalizing n with
  | nil v =>
    cases v with
    | pair r => exact absurd rfl (hends r)
    | _ => cases n <;> rfl
  | cons hp _ ih =>
    cases n with
    | zero => simp at hn
    | succ n =>
      rw [Heap.walk, hp]
      change (h.walk n _ >>= _) = _
      rw [ih (Nat.le_of_succ_le_succ hn) hends]
      rfl

theorem items_eq (hl : h.IsList v cells items last) :
    h.items v = if last = .nil then .ok items
      else .error (.fault (.typeError "traverse improper list ending in" last.typeName)) := by
  rw [Heap.items, spine, hl.walk hl.length_le]
  cases last <;> rfl

theorem element? (hl : h.IsList v cells items last) (n : Nat) : h.element? n v = .ok items[n]? := by
  rw [hl.chained.element? n]
  split
  · rfl
  · rename_i hn
    have hnone : items[n]? = none :=
      List.getElem?_eq_none (hl.chained.length_eq ▸ Nat.le_of_not_lt hn)
    rw [hnone]
    cases last with
    | pair r => exact absurd rfl (hl.ends r)
    | _ => cases n - cells.length <;> rfl

end IsList

/-! ## Counting -/

/-- Going down a chain can only fail for a pair that does not exist. -/
theorem element?_eq_error {s : Stop} (he : h.element? n v = .error s) : s = .stuck := by
  induction n generalizing v with
  | zero =>
    cases v with
    | pair r =>
      rw [element?] at he
      cases hp : h.pairs[r.index]? <;> simp [pair, hp, present, bind, Except.bind, pure,
        Except.pure] at he
      exact he.symm
    | _ => cases he
  | succ n ih =>
    cases v with
    | pair r =>
      rw [element?] at he
      cases hp : h.pairs[r.index]? <;> simp [pair, hp, present, bind, Except.bind] at he
      · exact he.symm
      · exact ih he
    | _ => cases he

theorem nth_natCast (h : Heap) (v : Value) (n : Nat) :
    h.nth v n = h.element? n v >>= orFault (.indexOutOfRange n) := by
  rw [nth, if_neg (by omega), Int.toNat_natCast]

theorem nth_of_neg (h : Heap) (v : Value) {i : Int} (hi : i < 0) :
    h.nth v i = .error (.fault (.indexOutOfRange i)) := by
  rw [nth, if_pos hi]
  rfl

namespace Chained

theorem nth_front (hc : h.Chained v cells items rest) {i : Nat} {x : Value}
    (hx : items[i]? = some x) :
    h.nth v i = .ok x := by
  have hi : i < cells.length := hc.length_eq ▸ (List.getElem?_eq_some_iff.1 hx).1
  rw [nth_natCast, hc.element?, if_pos hi, hx]
  rfl

/-- Behind the items it is the rest that counts, but the fault names the whole index. -/
theorem nth_back (hc : h.Chained v cells items rest) (i : Nat) :
    (∀ x, h.nth v ↑(items.length + i) = .ok x ↔ h.nth rest i = .ok x) ∧
    (h.nth v ↑(items.length + i) = .error (.fault (.indexOutOfRange ↑(items.length + i))) ↔
      h.nth rest i = .error (.fault (.indexOutOfRange i))) := by
  rw [nth_natCast, nth_natCast, hc.element?, hc.length_eq, if_neg (by omega),
    Nat.add_sub_cancel_left]
  cases he : h.element? i rest with
  | error s =>
    obtain rfl := element?_eq_error he
    simp [bind, Except.bind]
  | ok o => cases o <;> simp [bind, Except.bind, orFault]

end Chained

namespace IsList

theorem nth_of_lt (hl : h.IsList v cells items last) {i : Nat} (hi : i < cells.length) :
    ∃ x, items[i]? = some x ∧ h.nth v i = .ok x := by
  have hx := List.getElem?_eq_getElem (hl.chained.length_eq ▸ hi)
  exact ⟨_, hx, hl.chained.nth_front hx⟩

theorem nth_outside (hl : h.IsList v cells items last) {i : Int} (hi : i < 0 ∨ cells.length ≤ i) :
    h.nth v i = .error (.fault (.indexOutOfRange i)) := by
  by_cases hneg : i < 0
  · exact nth_of_neg h v hneg
  · obtain ⟨n, rfl⟩ := Int.eq_ofNat_of_zero_le (Int.not_lt.1 hneg)
    have hn : items.length ≤ n := by
      rw [hl.chained.length_eq]
      omega
    rw [nth_natCast, hl.element?, List.getElem?_eq_none hn]
    rfl

end IsList

/-! ## New lists -/

theorem Chained.cons_new (hc : h.Chained v cells items rest) (a : Value) :
    (h.cons a v).2.Chained (h.cons a v).1 (⟨h.pairs.size⟩ :: cells) (a :: items) rest := by
  have hnew : (h.cons a v).2.pair ⟨h.pairs.size⟩ = .ok ⟨a, v⟩ :=
    present_eq_ok.2 Array.getElem?_push_size
  exact .cons hnew (hc.extended (.push _ _))

/-- A new chain is in new pairs, and the old ones are as they were. -/
theorem chain_chained (h : Heap) (items : List Value) (tail : Value) :
    Extended h.pairs (h.chain items tail).2.pairs ∧
    ∃ cells, (h.chain items tail).2.Chained (h.chain items tail).1 cells items tail ∧ cells.Nodup ∧
      ∀ r ∈ cells, h.pairs.size ≤ r.index := by
  induction items with
  | nil => exact ⟨.refl _, [], .nil tail, List.nodup_nil, fun _ hr => by cases hr⟩
  | cons item items ih =>
    obtain ⟨he, cells, hc, hnodup, hfresh⟩ := ih
    refine ⟨he.trans (.push _ _), _, hc.cons_new item, ?_, fun r hr => ?_⟩
    · exact List.nodup_cons.2 ⟨fun hr => Nat.lt_irrefl _ (hc.lt_size hr), hnodup⟩
    · rcases List.mem_cons.1 hr with rfl | hr
      · exact he.size_le
      · exact hfresh r hr

theorem items_chain (h : Heap) (items : List Value) :
    (h.chain items .nil).2.items (h.chain items .nil).1 = .ok items := by
  obtain ⟨-, cells, hc, -⟩ := h.chain_chained items .nil
  have hl : (h.chain items .nil).2.IsList (h.chain items .nil).1 cells items .nil :=
    ⟨hc, fun r hr => by cases hr⟩
  exact hl.items_eq

end Heap

/-! ## Splicing -/

/-- The value has the items in new pairs and goes on with the very `tail`. Nothing but the new pairs
has been added to the machine. -/
structure Spliced (items : List Value) (tail v : Value) (m m' : Machine) : Prop where
  rest : m' = { m with heap.pairs := m'.heap.pairs }
  kept : ∀ r p, m.heap.pair r = .ok p → m'.heap.pair r = .ok p
  fresh : ∃ cells, m'.heap.Chained v cells items tail ∧ cells.Nodup ∧
    ∀ r ∈ cells, m.heap.pairs.size ≤ r.index
  front : ∀ (i : Nat) x, items[i]? = some x → m'.heap.nth v i = .ok x
  back : ∀ i : Nat,
    (∀ x, m'.heap.nth v ↑(items.length + i) = .ok x ↔ m'.heap.nth tail i = .ok x) ∧
    (m'.heap.nth v ↑(items.length + i) = .error (.fault (.indexOutOfRange ↑(items.length + i))) ↔
      m'.heap.nth tail i = .error (.fault (.indexOutOfRange i)))

theorem spliced_chain (m : Machine) (items : List Value) (tail : Value) :
    Spliced items tail (m.heap.chain items tail).1 m
      { m with heap := (m.heap.chain items tail).2 } := by
  obtain ⟨he, cells, hc, hnodup, hfresh⟩ := m.heap.chain_chained items tail
  obtain ⟨pairs, hpairs⟩ := chain_eq m.heap items tail
  exact
    { rest := by rw [hpairs]
      kept := fun r p hp => present_eq_ok.2 (he _ _ (present_eq_ok.1 hp))
      fresh := ⟨cells, hc, hnodup, hfresh⟩
      front := fun i x hx => hc.nth_front hx
      back := fun i => hc.nth_back i }

namespace Machine

/-- The items of a new list are those that it was made of. A list is spliced onto anything if it is
a proper one, in new pairs; if not, nothing changes. Its items can be counted, whatever it ends in,
and there is nothing beyond its pairs. -/
theorem list_operations_agree (m : Machine) :
    (∀ items, (m.heap.chain items .nil).2.items (m.heap.chain items .nil).1 = .ok items) ∧
    ∀ list cells items last, m.heap.IsList list cells items last →
      (∀ tail,
        ((∃ v m', splice list tail m = .ok v m') ↔ last = .nil) ∧
        (∀ v m', splice list tail m = .ok v m' → Spliced items tail v m m') ∧
        (last ≠ .nil → splice list tail m =
          .error (.fault (.typeError "traverse improper list ending in" last.typeName)) m)) ∧
      (∀ i < cells.length, ∃ x, items[i]? = some x ∧ m.heap.nth list i = .ok x) ∧
      ∀ i : Int, i < 0 ∨ cells.length ≤ i →
        m.heap.nth list i = .error (.fault (.indexOutOfRange i)) := by
  refine ⟨m.heap.items_chain, fun list cells items last hl => ⟨fun tail => ?_,
    fun i hi => hl.nth_of_lt hi, fun i hi => hl.nth_outside hi⟩⟩
  have hitems := hl.items_eq
  by_cases hnil : last = .nil
  · rw [if_pos hnil] at hitems
    have hrun : splice list tail m = .ok (m.heap.chain items tail).1
        { m with heap := (m.heap.chain items tail).2 } := query_bind_ok hitems
    refine ⟨⟨fun _ => hnil, fun _ => ⟨_, _, hrun⟩⟩, fun v m' h => ?_, fun h => absurd hnil h⟩
    cases hrun.symm.trans h
    exact spliced_chain m items tail
  · rw [if_neg hnil] at hitems
    have hrun : splice list tail m =
        .error (.fault (.typeError "traverse improper list ending in" last.typeName)) m :=
      query_bind_error hitems
    have hfails (v : Value) (m' : Machine) : splice list tail m ≠ .ok v m' := by
      rw [hrun]
      exact fun h => by cases h
    exact ⟨⟨fun ⟨v, m', h⟩ => absurd h (hfails v m'), fun h => absurd h hnil⟩,
      fun v m' h => absurd h (hfails v m'), fun _ => hrun⟩

/-- A proper list of two items, and a pair that ends in a number. -/
def twoLists : Machine where
  stack := #[]
  heap :=
    { pairs := #[⟨.fixnum 1, .pair ⟨1⟩⟩, ⟨.fixnum 2, .nil⟩, ⟨.fixnum 3, .fixnum 4⟩] }

/-- The proper list is spliced onto the other one, which then has its item at the third place. The
other one cannot be spliced onto anything. -/
theorem twoLists_operations :
    twoLists.heap.IsList (.pair ⟨0⟩) [⟨0⟩, ⟨1⟩] [.fixnum 1, .fixnum 2] .nil ∧
    twoLists.heap.IsList (.pair ⟨2⟩) [⟨2⟩] [.fixnum 3] (.fixnum 4) ∧
    (∃ v m', splice (.pair ⟨0⟩) (.pair ⟨2⟩) twoLists = .ok v m' ∧
      m'.heap.nth v 1 = .ok (.fixnum 2) ∧ m'.heap.nth v 2 = .ok (.fixnum 3) ∧
      m'.heap.nth v 3 = .error (.fault (.indexOutOfRange 3))) ∧
    splice (.pair ⟨2⟩) (.pair ⟨0⟩) twoLists =
      .error (.fault (.typeError "traverse improper list ending in" "fixnum")) twoLists := by
  have hproper : twoLists.heap.IsList (.pair ⟨0⟩) [⟨0⟩, ⟨1⟩] [.fixnum 1, .fixnum 2] .nil :=
    ⟨.cons (p := ⟨.fixnum 1, .pair ⟨1⟩⟩) rfl (.cons (p := ⟨.fixnum 2, .nil⟩) rfl (.nil _)),
      fun r hr => by cases hr⟩
  have hdotted : twoLists.heap.IsList (.pair ⟨2⟩) [⟨2⟩] [.fixnum 3] (.fixnum 4) :=
    ⟨.cons (p := ⟨.fixnum 3, .fixnum 4⟩) rfl (.nil _), fun r hr => by cases hr⟩
  obtain ⟨-, hlists⟩ := list_operations_agree twoLists
  obtain ⟨hsome, hspliced, -⟩ := (hlists _ _ _ _ hproper).1 (.pair ⟨2⟩)
  obtain ⟨-, -, hfails⟩ := (hlists _ _ _ _ hdotted).1 (.pair ⟨0⟩)
  obtain ⟨v, m', hrun⟩ := hsome.2 rfl
  have hs := hspliced v m' hrun
  have htail : m'.heap.IsList (.pair ⟨2⟩) [⟨2⟩] [.fixnum 3] (.fixnum 4) :=
    ⟨.cons (hs.kept ⟨2⟩ ⟨.fixnum 3, .fixnum 4⟩ rfl) (.nil _), hdotted.ends⟩
  refine ⟨hproper, hdotted, ⟨v, m', hrun, hs.front 1 _ rfl, ?_, ?_⟩, hfails (by simp)⟩
  · exact ((hs.back 0).1 _).2 (htail.chained.nth_front (i := 0) rfl)
  · exact (hs.back 1).2.2 (htail.nth_outside (by decide))

end Machine

end LispMachine
