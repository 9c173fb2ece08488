import LispMachine.Proofs.Layout.Visits
import LispMachine.Proofs.Simulation.Calls

/-! # Operations that sustain the layout

An operation sustains the layout if, as long as all the instructions that it executes are orderly,
the stack is laid out well in all the states it visits, and it ends with a result in good order or
with a fault that is not about the layout.
-/

namespace LispMachine

open Machine

def Settled (before : HostCalls) (left : Bool) (ρ : Naming) (m : Machine) : Prop :=
  ∃ r, Landed before left ρ m r

def NotAboutLayout (f : Fault) (m : Machine) : Prop :=
  f.isOrdinary ∨ f.IsOverflow ∨ f = .invalidContinuation ∧ m.Orphaned

/-- How an operation may end, where the flag tells whether a frame was left and no other entered. -/
inductive Keeps {α : Type} (before : HostCalls) (left : Bool) (ρ : Naming)
    (Q : Bool → Naming → α → Machine → Prop) : EStateM.Result Stop Machine α → Prop
  | ok {σ : Naming} {a : α} {m : Machine} : ρ ≤ σ → Q left σ a m → Keeps before left ρ Q (.ok a m)
  | fault {f : Fault} {m : Machine} : NotAboutLayout f m → Represented m →
    Keeps before left ρ Q (.error (.fault f) m)
  | unwound {σ : Naming} {m : Machine} : ρ ≤ σ → Settled before left σ m →
    Keeps before left ρ Q (.error (.fault .unwound) m)
  | unfinished {m : Machine} : Keeps before left ρ Q (.error .unfinished m)
  | stuck {m : Machine} : Keeps before left ρ Q (.error .stuck m)

/-- Where `visits` are the states in which instructions are begun: if all of these are orderly, the
stack is laid out well in each of them, and the end is as `K` says. -/
def Sustained (left : Bool) (visits : List Machine) (K : Bool → Prop) : Prop :=
  Along Orderly left visits → Along LaidOut left visits ∧ K (leftAfterAll left visits)

abbrev Sustains {α : Type} (before : HostCalls) (left : Bool) (ρ : Naming)
    (Q : Bool → Naming → α → Machine → Prop) (visits : List Machine)
    (x : EStateM.Result Stop Machine α) : Prop :=
  Sustained left visits fun left => Keeps before left ρ Q x

section

variable {α β γ : Type} {before now : HostCalls} {left : Bool} {ρ σ : Naming} {m : Machine}
  {r : HeapMachine} {Q : Bool → Naming → α → Machine → Prop}
  {S : Bool → Naming → γ → Machine → Prop} {visits : List Machine}

theorem Keeps.of_le {x : EStateM.Result Stop Machine α} (h : Keeps before left σ Q x) (hρ : ρ ≤ σ) :
    Keeps before left ρ Q x := by
  cases h with
  | ok hσ h => exact .ok (hρ.trans hσ) h
  | fault hf h => exact .fault hf h
  | unwound hσ h => exact .unwound (hρ.trans hσ) h
  | unfinished => exact .unfinished
  | stuck => exact .stuck

theorem Follows.keeps {x : EStateM.Result Stop Machine α} {y : EStateM.Result Stop HeapMachine β}
    {R : Naming → α → β → Machine → HeapMachine → Prop} (h : Follows True False before ρ R x y)
    (hQ : ∀ σ a b m r, ρ ≤ σ → R σ a b m r → Q left σ a m) : Keeps before left ρ Q x := by
  cases h with
  | ok hρ h => exact .ok hρ (hQ _ _ _ _ _ hρ h)
  | fault _ h =>
    cases h with
    | ordinary hf hi => exact .fault (.inl hf.isOrdinary) hi.landed.represented
    | orphaned hm hi => exact .fault (.inr (.inr ⟨rfl, hm⟩)) hi.landed.represented
    | unwound h => exact h.elim
  | unfinished => exact .unfinished
  | broken => exact .stuck
  | overflow _ hf h => exact .fault (.inr (.inl hf)) h
  | stuck h => exact h.elim

theorem Keeps.sustains {x : EStateM.Result Stop Machine α} (h : Keeps before left ρ Q x) :
    Sustains before left ρ Q [] x := fun _ => ⟨along_nil, h⟩

/-! ## One operation after the other -/

theorem Keeps.error {s : Stop} (h : Keeps before left ρ Q (.error s m)) :
    Keeps before left ρ S (.error s m) := by
  cases h with
  | fault hf hm => exact .fault hf hm
  | unwound hρ hm => exact .unwound hρ hm
  | unfinished => exact .unfinished
  | stuck => exact .stuck

theorem Sustains.bind_end {x : Exec α} {f : α → Exec γ} {others : α → Machine → List Machine}
    {K : Bool → EStateM.Result Stop Machine γ → Prop} (h : Sustains before left ρ Q visits (x m))
    (hok : ∀ σ a m', ρ ≤ σ → x m = .ok a m' → Q (leftAfterAll left visits) σ a m' →
      Sustained (leftAfterAll left visits) (others a m') fun left => K left (f a m'))
    (herror : ∀ left s m', Keeps before left ρ Q (.error s m') → K left (.error s m')) :
    Sustained left (visits ++ after x others m) fun left => K left ((x >>= f) m) := by
  intro ho
  rw [along_append] at ho
  obtain ⟨hlaid, hk⟩ := h ho.1
  rw [along_append, leftAfterAll_append]
  cases hx : x m with
  | ok a m' =>
    rw [hx] at hk
    cases hk with
    | ok hρ hq =>
      rw [after_ok hx] at ho ⊢
      obtain ⟨hlaid', hk'⟩ := hok _ a m' hρ hx hq ho.2
      rw [bind_ok hx]
      exact ⟨⟨hlaid, hlaid'⟩, hk'⟩
  | error s m' =>
    rw [hx] at hk
    rw [after_error hx, bind_error hx]
    exact ⟨⟨hlaid, along_nil⟩, herror _ s m' hk⟩

theorem Sustained.imp {K K' : Bool → Prop} (h : Sustained left visits K)
    (hK : ∀ left, K left → K' left) :
    Sustained left visits K' := fun ho => ⟨(h ho).1, hK _ (h ho).2⟩

theorem Sustains.bind {x : Exec α} {f : α → Exec γ} {others : α → Machine → List Machine}
    (h : Sustains before left ρ Q visits (x m))
    (hb : ∀ σ a m', ρ ≤ σ → x m = .ok a m' → Q (leftAfterAll left visits) σ a m' →
      Sustains before (leftAfterAll left visits) σ S (others a m') (f a m')) :
    Sustains before left ρ S (visits ++ after x others m) ((x >>= f) m) := by
  refine h.bind_end (fun σ a m' hρ hx hq => ?_) fun _ _ _ hk => hk.error
  exact (hb σ a m' hρ hx hq).imp fun _ hk => hk.of_le hρ

theorem Follows.sustains_bind {x : Exec α} {y : HeapExec β} {f : α → Exec γ}
    {others : α → Machine → List Machine} {R : Naming → α → β → Machine → HeapMachine → Prop}
    (h : Follows True False before ρ R (x m) (y r))
    (hb : ∀ σ a b m' r', ρ ≤ σ → x m = .ok a m' → R σ a b m' r' →
      Sustains before left σ S (others a m') (f a m')) :
    Sustains before left ρ S (after x others m) ((x >>= f) m) := by
  have hx : Sustains before left ρ (fun _ σ a m' => ∃ b r', R σ a b m' r') [] (x m) :=
    (h.keeps fun σ a b m' r' _ hR => ⟨b, r', hR⟩).sustains
  change Sustains before left ρ S ([] ++ after x others m) ((x >>= f) m)
  refine hx.bind ?_
  rintro σ a m' hρ hm' ⟨b, r', hR⟩
  exact hb σ a b m' r' hρ hm' hR

inductive Attempted (now : HostCalls) (Q : Bool → Naming → α → Machine → Prop) (left : Bool)
    (ρ : Naming) : Except Fault α → Machine → Prop
  | ok {a : α} {m : Machine} : Q left ρ a m → Attempted now Q left ρ (.ok a) m
  | fault {f : Fault} {m : Machine} : NotAboutLayout f m → Represented m →
    Attempted now Q left ρ (.error f) m
  | unwound {m : Machine} : Settled now left ρ m → Attempted now Q left ρ (.error .unwound) m

theorem Sustains.attempt {x : Exec α} (h : Sustains now left ρ Q visits (x m)) :
    Sustains before left ρ (Attempted now Q) visits (Machine.attempt x m) := by
  intro ho
  obtain ⟨hlaid, hk⟩ := h ho
  refine ⟨hlaid, ?_⟩
  unfold Machine.attempt
  generalize x m = X at hk
  cases hk with
  | ok hρ hq => exact .ok hρ (.ok hq)
  | fault hf hm => exact .ok le_rfl (.fault hf hm)
  | unwound hρ hm => exact .ok hρ (.unwound hm)
  | unfinished => exact .unfinished
  | stuck => exact .stuck

end

end LispMachine
