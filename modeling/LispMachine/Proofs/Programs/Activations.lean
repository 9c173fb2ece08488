import LispMachine.Proofs.Arrangement.Leaving
import LispMachine.Proofs.Layout.Basic

/-! # What a procedure has in front of it

A procedure has the slots of its frame, the operands that it has pushed, and the callers to which it
will return one after the other, each with its own slots and operands. Where all this is does not
matter: a frame may be in its cells or on the heap, a caller may be a return point or an object.
-/

namespace LispMachine

open Machine

/-! ## Callers -/

/-- A procedure that has called another one: where it goes on, with which operands and in a frame
with which slots. -/
structure Suspended where
  ip : Nat
  operands : List Value
  slots : List Value

def Machine.HasSlots (m : Machine) (env : Env) (slots : List Value) : Prop :=
  ∃ f, m.frame? env = some f ∧ f.slots.toList = slots

/-- The continuation returns to these callers. A return point on the stack restores just the
operands of its caller. -/
inductive LeadsTo (m : Machine) : Cont → List Suspended → Prop
  | done : LeadsTo m .empty []
  | object {k : Ref .continuation} {c : Continuation} {ip : Nat} {slots : List Value}
    {callers : List Suspended} : m.heap.continuation k = .ok c → c.resume = .code ip →
    m.HasSlots c.env slots → LeadsTo m c.prev callers →
    LeadsTo m (.onHeap k) (⟨ip, c.saved.toList, slots⟩ :: callers)
  | point {c : Nat} {p : ReturnPoint} {slots : List Value} {callers : List Suspended} :
    m.returnPoint c = .ok p → p.prev.top ≤ p.bp → m.HasSlots p.env slots →
      LeadsTo m p.prev callers →
    LeadsTo m (.onStack c) (⟨p.ip, (m.stack.extract p.bp (c - 4)).toList, slots⟩ :: callers)

variable {segs : List Segment} {target : Nat → Option Nat} {m w m' : Machine} {lo : Nat}
  {env env' : Env} {cont cont' : Cont} {slots : List Value} {callers : List Suspended}

/-! ## What does not change them -/

theorem Machine.HasSlots.of_same (h : m.HasSlots env slots) (hs : m'.stack = m.stack)
    (hh : m'.heap = m.heap) : m'.HasSlots env slots := by
  have hin : m'.innermost env = m.innermost env := by
    cases env <;> simp only [innermost, descriptor, descriptor?, position?, hs, hh]
  have hf : m'.frame? env = m.frame? env := by rw [frame?, frame?, hin, hs, hh]
  obtain ⟨f, hframe, hslots⟩ := h
  exact ⟨f, hf.trans hframe, hslots⟩

theorem LeadsTo.of_same (h : LeadsTo m cont callers) (hs : m'.stack = m.stack)
    (hh : m'.heap = m.heap) (hsp : m.sp ≤ m'.sp) : LeadsTo m' cont callers := by
  induction h with
  | done => exact .done
  | object hc hr hslots _ ih => exact .object (by rwa [hh]) hr (hslots.of_same hs hh) ih
  | @point c p slots callers hp hle hslots _ ih =>
    obtain ⟨-, hc, -⟩ := returnPoint_bounds hp
    rw [← hs]
    exact .point ((returnPoint_congr hc (hc.trans hsp) fun i _ _ => by rw [hs]).trans hp) hle
      (hslots.of_same hs hh) ih

theorem Machine.HasSlots.of_closed (h : m.HasSlots env slots) (he : env.ClosedIn m.heap)
    (hg : m.heap.Grown m'.heap) : m'.HasSlots env slots := by
  obtain ⟨f, hframe, hslots⟩ := h
  cases env with
  | empty => cases hframe
  | onStack => exact he.elim
  | onHeap r =>
    rw [frame?_onHeap] at hframe
    exact ⟨f, by rw [frame?_onHeap, hg.frames _ _ hframe], hslots⟩

theorem LeadsTo.of_closed (h : LeadsTo m cont callers) (hc : cont.ClosedIn m.heap)
    (hl : m.heap.Linked) (hg : m.heap.Grown m'.heap) : LeadsTo m' cont callers := by
  induction h with
  | done => exact .done
  | object hk hr hslots _ ih =>
    obtain ⟨henv, hprev⟩ := hl.continuations _ (Heap.mem_of_continuation hk)
    exact .object (hg.continuation hk) hr (hslots.of_closed henv hg) (ih hprev)
  | point => exact hc.elim

theorem KeptBelow.of_cells (hm : Arranged segs { m with sp := lo })
    (hcap : m'.capacity = m.capacity)
    (hcells : ∀ i < lo, m'.stack[i]? = m.stack[i]?) (hheap : m'.heap = m.heap) :
    KeptBelow segs lo m m' :=
  ⟨m, _, .refl segs m, hm, hheap ▸ .refl _, hcap, hcells⟩

theorem KeptBelow.hasSlots (h : KeptBelow segs lo m m') (hm : Arranged segs { m with sp := lo })
    (he : EnvIn m.heap segs env) (hs : m.HasSlots env slots) : m'.HasSlots env slots := by
  obtain ⟨f, hf, rfl⟩ := hs
  have hrel := h.frame?_rel hm he
  rw [hf] at hrel
  generalize hg : m'.frame? env = x at hrel
  cases hrel with
  | some hfg => exact ⟨_, hg, by rw [hfg.1]⟩

theorem KeptBelow.leadsTo (h : KeptBelow segs lo m m') (hm : Arranged segs { m with sp := lo })
    (hsp : lo ≤ m.sp) (hsp' : lo ≤ m'.sp) (hin : ContIn m.heap segs cont)
    (hl : LeadsTo m cont callers) : LeadsTo m' cont callers := by
  have hlast := h
  obtain ⟨w, target, hmoved, -, hgrown, hcap, hcells⟩ := h
  induction hl with
  | done => exact .done
  | @object k c ip slots callers hk hr hslots _ ih =>
    obtain ⟨henv, hprev⟩ := hm.linked.continuations _ (Heap.mem_of_continuation hk)
    exact .object (hgrown.continuation (hmoved.heap.continuation hk)) hr
      (hlast.hasSlots hm (.closed henv) hslots) (ih (.closed hprev))
  | @point c p slots callers hp hle hslots _ ih =>
    obtain ⟨start, count, id, rest, q, rfl, hs, hc, -, hpoint⟩ := hm.pointIn hin
    change start + count + 4 ≤ lo at hc
    have hq : m.returnPoint (start + count + 4) = .ok q :=
      PointCells.returnPoint (m := m) hpoint.toPointCells (hc.trans hsp)
    obtain rfl : q = p := Except.ok.inj (hq.symm.trans hp)
    have hrest := (suffix_of_cons_suffix hs).subset
    have hcell {i : Nat} (hle : q.bp ≤ i) (hlt : i < start + count + 4) :
        m'.stack[i]? = m.stack[i]? :=
      (hcells i (by omega)).trans
        (Moved.stays_point (m := { m with sp := lo }) { hmoved with } hm hs hpoint hle hlt)
    have hbp := hpoint.bp_le
    have hpoint' : m'.returnPoint (start + count + 4) = .ok q :=
      (returnPoint_congr (hc.trans hsp) (hc.trans hsp') fun i hi hge => hcell (by omega) hi).trans
        hp
    have hsaved : m'.stack.extract q.bp (start + count + 4 - 4) =
        m.stack.extract q.bp (start + count + 4 - 4) :=
      Moved.extract_eq hcap fun i hle hlt => hcell hle (by omega)
    rw [← hsaved]
    exact .point hpoint' hle (hlast.hasSlots hm (hpoint.env.mono (.refl _) hrest) hslots)
      (ih (hpoint.prev.mono (.refl _) hrest))

/-! ## Collections -/

/-- What has moved is found on the heap to which it has moved, whatever is in the cells. -/
theorem Moved.hasSlots (hw : Moved segs target m w) (hm : Arranged segs m)
    (hheap : m'.heap = w.heap) (he : EnvIn m.heap segs env) (hr : w.resolve env = .ok env')
    (hc : env'.ClosedIn w.heap) (hs : m.HasSlots env slots) : m'.HasSlots env' slots := by
  obtain ⟨f, hf, rfl⟩ := hs
  have hframe : m'.frame? env' = w.frame? env := by
    rw [← frame?_resolve hr]
    cases env' with
    | empty => rfl
    | onStack => exact hc.elim
    | onHeap r => rw [frame?_onHeap, frame?_onHeap, hheap]
  have hrel := hw.frame?_rel hm he
  rw [hf] at hrel
  generalize hg : w.frame? env = x at hrel
  cases hrel with
  | some hfg => exact ⟨_, hframe.trans hg, by rw [hfg.1]⟩

theorem Copied.leadsTo (hc : Copied w cont cont') (hw : Moved segs target m w) (hsp : w.sp = m.sp)
    (hm : Arranged segs m) (hlink : w.heap.Linked) (hheap : m'.heap = w.heap)
    (hin : ContIn m.heap segs cont) (hl : LeadsTo m cont callers) : LeadsTo m' cont' callers := by
  induction hc generalizing callers with
  | @same cont hne =>
    refine hl.of_closed ?_ hm.linked (hheap ▸ hw.heap)
    cases hin with
    | closed hc => exact hc
    | onStack => exact absurd rfl (hne _)
  | @point c p k env prev owner hp hr hprev hk ih =>
    obtain ⟨start, count, id, rest, q, rfl, hs, hle, hq, hpoint⟩ := hm.pointIn hin
    have hpq := (hw.pointCells hm hs hpoint).returnPoint (by rwa [hsp])
    obtain rfl : q = p := Except.ok.inj (hpq.symm.trans hp)
    have hrest := (suffix_of_cons_suffix hs).subset
    have henv := (hlink.continuations _ (Heap.mem_of_continuation hk)).1
    cases hl with
    | @point _ q' slots callers hq' htop hslots hl =>
      obtain rfl : q = q' := Except.ok.inj (hq.symm.trans hq')
      have hsaved : w.stack.extract q.bp (start + count + 4 - 4) =
          m.stack.extract q.bp (start + count + 4 - 4) := hw.saved_eq hm hs hpoint
      rw [← hsaved]
      exact .object (by rw [hheap, hk]) rfl
        (hw.hasSlots hm hheap (hpoint.env.mono (.refl _) hrest) hr henv hslots)
        (ih (hpoint.prev.mono (.refl _) hrest) hl)

/-! ## Activations -/

/-- Where the operands begin: above the base of the activation and above the return point that it
left for a call. -/
def Machine.base (m : Machine) : Nat := max m.bp m.cont.top

structure Active (segs : List Segment) (slots operands : List Value) (callers : List Suspended)
    (m : Machine) : Prop where
  laid : Arranged segs { m with sp := m.base }
  frames_le : ∀ start count id, .frame start count id ∈ segs → start + count + 3 ≤ m.bp
  base_le : m.base ≤ m.sp
  room : m.sp ≤ m.capacity
  values : (m.stack.extract m.base m.sp).toList = operands
  slots : m.HasSlots m.env slots
  callers : LeadsTo m m.cont callers

namespace Active

variable {operands : List Value}

theorem sp_eq (hm : Active segs slots operands callers m) : m.sp = m.base + operands.length := by
  have hsize := congrArg List.length hm.values
  have hroom := hm.room
  have hle := hm.base_le
  unfold capacity at hroom
  rw [Array.length_toList, Array.size_extract] at hsize
  omega

theorem wellLaid (hm : Active segs slots operands callers m) : WellLaid segs m where
  toArranged := hm.laid.raise hm.base_le hm.room
  bp_le := (Nat.le_max_left ..).trans hm.base_le
  frames_le := hm.frames_le

theorem reclaimed (hm : Active segs slots operands callers m) (h : Reclaimed segs m m') :
    Active [] slots operands callers m' ∧ m'.sp = operands.length ∧ m'.base = 0 := by
  have hlaid := hm.wellLaid
  obtain ⟨w, target, hw, hsp, hcol, harr⟩ := h
  have hle := hm.base_le
  have hkept : m.kept = m.base := Nat.min_eq_left hle
  have hsp' := hcol.sp
  have hbp' := hcol.bp hlaid.bp_le
  rw [hkept] at hsp' hbp'
  have hbp : m'.bp = 0 := by
    rw [hbp', base]
    omega
  have hcont : m'.cont.ClosedIn m'.heap := harr.cont.closed_of_nil
  have henv : m'.env.ClosedIn m'.heap := harr.env.closed_of_nil
  have htop : m'.cont.top = 0 := by
    generalize m'.cont = cont at hcont
    cases cont with
    | onStack => exact hcont.elim
    | _ => rfl
  have hbase : m'.base = 0 := by rw [base, hbp, htop, Nat.max_self]
  have hlen := hm.sp_eq
  have hlinked : w.heap.Linked := hcol.heap ▸ harr.linked
  have hvalues : m'.stack.extract 0 m'.sp = m.stack.extract m.base m.sp :=
    hkept ▸ Reclaimed.extract_eq ⟨w, target, hw, hsp, hcol, harr⟩ hlaid
  refine ⟨⟨?_, (fun _ _ _ h => by cases h), by omega, harr.room, ?_, ?_, ?_⟩, by omega, hbase⟩
  · exact .of_closed (by rw [hbase]; exact Nat.zero_le _) henv hcont harr.linked
  · rw [hbase, hvalues]
    exact hm.values
  · exact hw.hasSlots hlaid.toArranged hcol.heap hlaid.env hcol.env (hcol.heap ▸ henv) hm.slots
  · exact hcol.cont.leadsTo hw hsp hlaid.toArranged hlinked hcol.heap hlaid.cont hm.callers

end Active

end LispMachine
