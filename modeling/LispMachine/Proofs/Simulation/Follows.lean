import LispMachine.Proofs.HeapMachine.Growth
import LispMachine.Proofs.Simulation.Operands

/-! # One operation follows another

An operation of the machine follows one of the machine without a stack if both give related results
and leave machines of which one represents the other, or both end with the same fault. The first one
may also overflow, provided that this is admitted and that the second one asks for more cells than
there are. Nothing is said if the second one is stuck because the program asks for too much, where
that is admitted too.
-/

namespace LispMachine

/-- The same run is going on as before, and no host call has got its result since then unless that
is admitted. -/
structure HostCalls.Since (hosts before : HostCalls) (admitted : Prop) : Prop where
  running : hosts.running = before.running
  returned : admitted ∨ ∀ id, hosts.returned = some id → before.returned = some id

theorem HostCalls.Since.loosen {hosts before : HostCalls} {admitted : Prop}
    (h : hosts.Since before False) : hosts.Since before admitted :=
  ⟨h.running, h.returned.imp_left False.elim⟩

def Fault.IsOverflow (f : Fault) : Prop := f = .stackOverflow ∨ f = .continuationOverflow

/-- In the middle of an instruction, when no host call has got its result yet. The flag admits that
a frame was left and no other entered. -/
def InStep (before : HostCalls) (left : Bool) (ρ : Naming) (m : Machine) (r : HeapMachine) : Prop :=
  ∃ segs lo, Represents ρ segs lo m r ∧ r.hosts.Since before False ∧
    (left = false → r.leaving = false)

/-- After an instruction. If a host call has got its result, nothing is left on the stack. -/
def Landed (before : HostCalls) (left : Bool) (ρ : Naming) (m : Machine) (r : HeapMachine) : Prop :=
  ∃ segs lo, Represents ρ segs lo m r ∧ r.hosts.Since before (segs = []) ∧
    (left = false → r.leaving = false)

def Represented (m : Machine) : Prop := ∃ ρ segs lo r, Represents ρ segs lo m r

/-- The current continuation ends a host call that is over. -/
def Machine.Orphaned (m : Machine) : Prop :=
  ∃ k c id, m.cont = .onHeap k ∧ m.heap.continuation k = .ok c ∧ c.resume = .host id ∧
    id ∉ m.hosts.active

/-- The machines end with faults that agree. A fault that unwinds may come after an instruction, if
that is admitted; all others come in the middle of one. -/
inductive Raised (lax : Prop) (before : HostCalls) (ρ : Naming) (m : Machine) (r : HeapMachine) :
    Fault → Fault → Prop
  | ordinary {f g : Fault} : FaultAgree f g → InStep before true ρ m r → Raised lax before ρ m r f g
  | orphaned : m.Orphaned → InStep before true ρ m r →
    Raised lax before ρ m r .invalidContinuation .invalidContinuation
  | unwound : lax → Landed before true ρ m r → Raised lax before ρ m r .unwound .unwound

inductive Follows {α β : Type} (full lax : Prop) (before : HostCalls) (ρ : Naming)
    (Q : Naming → α → β → Machine → HeapMachine → Prop) :
    EStateM.Result Stop Machine α → EStateM.Result Stop HeapMachine β → Prop
  | ok {σ : Naming} {a : α} {b : β} {m : Machine} {r : HeapMachine} :
    ρ ≤ σ → Q σ a b m r → Follows full lax before ρ Q (.ok a m) (.ok b r)
  | fault {σ : Naming} {f g : Fault} {m : Machine} {r : HeapMachine} :
    ρ ≤ σ → Raised lax before σ m r f g →
    Follows full lax before ρ Q (.error (.fault f) m) (.error (.fault g) r)
  | unfinished {m : Machine} {r : HeapMachine} :
    Follows full lax before ρ Q (.error .unfinished m) (.error .unfinished r)
  | broken {m : Machine} {r : HeapMachine} :
    Follows full lax before ρ Q (.error .stuck m) (.error .stuck r)
  | overflow {f : Fault} {m : Machine} {y : EStateM.Result Stop HeapMachine β} :
    full → f.IsOverflow → Represented m → m.capacity < HeapMachine.demanded y →
    Follows full lax before ρ Q (.error (.fault f) m) y
  | stuck {x : EStateM.Result Stop Machine α} {r : HeapMachine} :
    lax → Follows full lax before ρ Q x (.error .stuck r)

section

variable {before : HostCalls} {left : Bool} {ρ : Naming} {m : Machine} {r : HeapMachine}

theorem InStep.landed (h : InStep before left ρ m r) : Landed before left ρ m r := by
  obtain ⟨segs, lo, h, hh, hl⟩ := h
  exact ⟨segs, lo, h, hh.loosen, hl⟩

theorem InStep.weaken {left' : Bool} (h : InStep before left ρ m r)
    (hleft : left' = false → left = false) : InStep before left' ρ m r := by
  obtain ⟨segs, lo, h, hr, hl⟩ := h
  exact ⟨segs, lo, h, hr, fun hl' => hl (hleft hl')⟩

theorem Landed.weaken {left' : Bool} (h : Landed before left ρ m r)
    (hleft : left' = false → left = false) : Landed before left' ρ m r := by
  obtain ⟨segs, lo, h, hr, hl⟩ := h
  exact ⟨segs, lo, h, hr, fun hl' => hl (hleft hl')⟩

theorem InStep.loosen (h : InStep before left ρ m r) : InStep before true ρ m r := h.weaken nofun

theorem Landed.loosen (h : Landed before left ρ m r) : Landed before true ρ m r := h.weaken nofun

theorem Landed.represented (h : Landed before left ρ m r) : Represented m := by
  obtain ⟨segs, lo, h, -⟩ := h
  exact ⟨ρ, segs, lo, r, h⟩

end

theorem HeapMachine.adjust_bind_apply {α : Type} {g : Registers → Registers} {f : Unit → HeapExec α}
    {r : HeapMachine} :
    (Machine.adjust g >>= f) r = f () { r with toRegisters := g r.toRegisters } := rfl

theorem HeapMachine.query_bind_ok {α β : Type} {φ : HeapMachine → Except Stop α} {a : α}
    {f : α → HeapExec β} {r : HeapMachine} (h : φ r = .ok a) :
    (Machine.query φ >>= f) r = f a r :=
  bind_ok (by rw [Machine.query, h])

theorem HeapMachine.query_bind_error {α β : Type} {φ : HeapMachine → Except Stop α} {e : Stop}
    {f : α → HeapExec β} {r : HeapMachine} (h : φ r = .error e) :
    (Machine.query φ >>= f) r = .error e r :=
  bind_error (by rw [Machine.query, h])

namespace Follows

variable {α β γ δ : Type} {full lax : Prop} {before : HostCalls} {left : Bool} {ρ σ : Naming}
  {Q R : Naming → α → β → Machine → HeapMachine → Prop}
  {S : Naming → γ → δ → Machine → HeapMachine → Prop} {m : Machine} {r : HeapMachine}

theorem imp {x : EStateM.Result Stop Machine α} {y : EStateM.Result Stop HeapMachine β}
    (h : Follows full lax before ρ Q x y) (hQR : ∀ σ a b m r, ρ ≤ σ → Q σ a b m r → R σ a b m r) :
    Follows full lax before ρ R x y := by
  cases h with
  | ok hρ h => exact .ok hρ (hQR _ _ _ _ _ hρ h)
  | fault hρ h => exact .fault hρ h
  | unfinished => exact .unfinished
  | broken => exact .broken
  | overflow hfull hf h hcap => exact .overflow hfull hf h hcap
  | stuck h => exact .stuck h

theorem of_le {x : EStateM.Result Stop Machine α} {y : EStateM.Result Stop HeapMachine β}
    (h : Follows full lax before σ Q x y) (hσ : ρ ≤ σ) : Follows full lax before ρ Q x y := by
  cases h with
  | ok hρ h => exact .ok (hσ.trans hρ) h
  | fault hρ h => exact .fault (hσ.trans hρ) h
  | unfinished => exact .unfinished
  | broken => exact .broken
  | overflow hfull hf h hcap => exact .overflow hfull hf h hcap
  | stuck h => exact .stuck h

/-- One operation after the other, where the second one may refer to what the first one did. If the
first one may overflow, what it has asked for counts for both. -/
theorem bind_eq_of_grows {first : Prop} {x : Exec α} {y : HeapExec β} {f : α → Exec γ}
    {g : β → HeapExec δ} (h : Follows first lax before ρ Q (x m) (y r))
    (hg : first → full ∧ ∀ b, HeapMachine.Grows (g b))
    (hb : ∀ σ a b m' r', ρ ≤ σ → x m = .ok a m' → Q σ a b m' r' →
      Follows full lax before σ S (f a m') (g b r')) :
    Follows full lax before ρ S ((x >>= f) m) ((y >>= g) r) := by
  have hdemanded (hg : ∀ b, HeapMachine.Grows (g b)) :=
    HeapMachine.demanded_le_bind (x := y) (r := r) hg
  generalize hx : x m = X at h
  generalize hy : y r = Y at h hdemanded
  cases h with
  | ok hρ h =>
    rw [bind_ok hx, bind_ok hy]
    exact (hb _ _ _ _ _ hρ hx h).of_le hρ
  | fault hρ h =>
    rw [bind_error hx, bind_error hy]
    exact .fault hρ h
  | unfinished =>
    rw [bind_error hx, bind_error hy]
    exact .unfinished
  | broken =>
    rw [bind_error hx, bind_error hy]
    exact .broken
  | overflow hfirst hf h hcap =>
    obtain ⟨hfull, hg⟩ := hg hfirst
    rw [bind_error hx]
    exact .overflow hfull hf h (hcap.trans_le (hdemanded hg))
  | stuck h =>
    rw [bind_error hy]
    exact .stuck h

theorem bind_eq {x : Exec α} {y : HeapExec β} {f : α → Exec γ} {g : β → HeapExec δ}
    (h : Follows False lax before ρ Q (x m) (y r))
    (hb : ∀ σ a b m' r', ρ ≤ σ → x m = .ok a m' → Q σ a b m' r' →
      Follows full lax before σ S (f a m') (g b r')) :
    Follows full lax before ρ S ((x >>= f) m) ((y >>= g) r) :=
  h.bind_eq_of_grows False.elim hb

theorem bind {x : Exec α} {y : HeapExec β} {f : α → Exec γ} {g : β → HeapExec δ}
    (h : Follows False lax before ρ Q (x m) (y r))
    (hb : ∀ σ a b m r, ρ ≤ σ → Q σ a b m r → Follows full lax before σ S (f a m) (g b r)) :
    Follows full lax before ρ S ((x >>= f) m) ((y >>= g) r) :=
  h.bind_eq fun σ a b m' r' hρ _ hq => hb σ a b m' r' hρ hq

theorem bind_of_grows {x : Exec α} {y : HeapExec β} {f : α → Exec γ} {g : β → HeapExec δ}
    (h : Follows True lax before ρ Q (x m) (y r)) (hg : ∀ b, HeapMachine.Grows (g b))
    (hb : ∀ σ a b m r, ρ ≤ σ → Q σ a b m r → Follows True lax before σ S (f a m) (g b r)) :
    Follows True lax before ρ S ((x >>= f) m) ((y >>= g) r) :=
  h.bind_eq_of_grows (fun _ => ⟨trivial, hg⟩) fun σ a b m' r' hρ _ hq => hb σ a b m' r' hρ hq

theorem error {f g : Stop} (hi : InStep before left ρ m r) (hf : StopAgree f g) :
    Follows full lax before ρ Q (.error f m) (.error g r) := by
  cases hf with
  | unfinished => exact .unfinished
  | stuck => exact .broken
  | fault hf => exact .fault le_rfl (.ordinary hf hi.loosen)

theorem raise {f g : Fault} (hi : InStep before left ρ m r) (hf : FaultAgree f g) :
    Follows full lax before ρ Q (Machine.raise f m) (Machine.raise g r) :=
  .error hi (.fault hf)

theorem query {φ : Machine → Except Stop α} {ψ : HeapMachine → Except Stop β} {P : α → β → Prop}
    (hi : InStep before left ρ m r) (h : ExceptAgree P (φ m) (ψ r)) :
    Follows full lax before ρ (fun σ a b m' r' => σ = ρ ∧ m' = m ∧ r' = r ∧ φ m = .ok a ∧ P a b)
      (Machine.query φ m) (Machine.query ψ r) := by
  unfold Machine.query
  generalize φ m = x, ψ r = y at h
  cases h with
  | ok h => exact .ok le_rfl ⟨rfl, rfl, rfl, rfl, h⟩
  | error h => exact .error hi h

theorem query_bind {φ : Machine → Except Stop α} {ψ : HeapMachine → Except Stop β}
    {f : α → Exec γ} {g : β → HeapExec δ} {P : α → β → Prop} (hi : InStep before left ρ m r)
    (h : ExceptAgree P (φ m) (ψ r))
    (hb : ∀ a b, P a b → Follows full lax before ρ S (f a m) (g b r)) :
    Follows full lax before ρ S ((Machine.query φ >>= f) m) ((Machine.query ψ >>= g) r) := by
  refine (query hi h).bind ?_
  rintro _ a b _ _ - ⟨rfl, rfl, rfl, -, hab⟩
  exact hb a b hab

end Follows

/-! ## Operations that fail before they do anything -/

/-- Both operations have come to related results, or both have failed in the same way, with the
machines as they were. -/
inductive ResultAgree {α β : Type} (before : HostCalls) (left : Bool) (ρ : Naming)
    (Q : α → β → Machine → HeapMachine → Prop) :
    EStateM.Result Stop Machine α → EStateM.Result Stop HeapMachine β → Prop
  | ok {a : α} {b : β} {m : Machine} {r : HeapMachine} :
    Q a b m r → ResultAgree before left ρ Q (.ok a m) (.ok b r)
  | error {f g : Stop} {m : Machine} {r : HeapMachine} :
    StopAgree f g → InStep before left ρ m r → ResultAgree before left ρ Q (.error f m) (.error g r)

namespace ResultAgree

variable {α β γ δ : Type} {full lax : Prop} {before : HostCalls} {left : Bool} {ρ : Naming}
  {Q R : α → β → Machine → HeapMachine → Prop} {S : γ → δ → Machine → HeapMachine → Prop}
  {m : Machine} {r : HeapMachine}

theorem imp {x : EStateM.Result Stop Machine α} {y : EStateM.Result Stop HeapMachine β}
    (h : ResultAgree before left ρ Q x y) (hQR : ∀ a b m r, Q a b m r → R a b m r) :
    ResultAgree before left ρ R x y := by
  cases h with
  | ok h => exact .ok (hQR _ _ _ _ h)
  | error h hi => exact .error h hi

theorem follows {Q : Naming → α → β → Machine → HeapMachine → Prop}
    {x : EStateM.Result Stop Machine α} {y : EStateM.Result Stop HeapMachine β}
    (h : ResultAgree before left ρ (Q ρ) x y) : Follows full lax before ρ Q x y := by
  cases h with
  | ok h => exact .ok le_rfl h
  | error h hi => exact .error hi h

theorem raise {f g : Fault} (hi : InStep before left ρ m r) (hf : FaultAgree f g) :
    ResultAgree before left ρ Q (Machine.raise f m) (Machine.raise g r) :=
  .error (.fault hf) hi

theorem query {φ : Machine → Except Stop α} {ψ : HeapMachine → Except Stop β} {P : α → β → Prop}
    (hi : InStep before left ρ m r) (h : ExceptAgree P (φ m) (ψ r))
    (hQ : ∀ a b, P a b → Q a b m r) :
    ResultAgree before left ρ Q (Machine.query φ m) (Machine.query ψ r) := by
  unfold Machine.query
  generalize φ m = x, ψ r = y at h
  cases h with
  | ok h => exact .ok (hQ _ _ h)
  | error h => exact .error h hi

theorem query_bind {φ : Machine → Except Stop α} {ψ : HeapMachine → Except Stop β}
    {f : α → Exec γ} {g : β → HeapExec δ} {P : α → β → Prop} (hi : InStep before left ρ m r)
    (h : ExceptAgree P (φ m) (ψ r))
    (hb : ∀ a b, P a b → ResultAgree before left ρ S (f a m) (g b r)) :
    ResultAgree before left ρ S ((Machine.query φ >>= f) m) ((Machine.query ψ >>= g) r) := by
  generalize hx : φ m = x, hy : ψ r = y at h
  cases h with
  | ok h =>
    rw [Machine.query_bind_ok hx, HeapMachine.query_bind_ok hy]
    exact hb _ _ h
  | error h =>
    rw [Machine.query_bind_error hx, HeapMachine.query_bind_error hy]
    exact .error h hi

/-- Whoever goes on after a fault finds the machines as they were. -/
theorem attempt {x : Exec α} {y : HeapExec β} {P : Except Fault α → Except Fault β → Prop}
    (h : ResultAgree before left ρ
      (fun a b m' r' => P (.ok a) (.ok b) ∧ InStep before left ρ m' r') (x m) (y r))
    (hfault : ∀ f g, FaultAgree f g → P (.error f) (.error g)) :
    Follows full lax before ρ (fun σ a b m' r' => σ = ρ ∧ P a b ∧ InStep before left ρ m' r')
      (Machine.attempt x m) (Machine.attempt y r) := by
  unfold Machine.attempt
  generalize x m = X, y r = Y at h
  cases h with
  | ok h => exact .ok le_rfl ⟨rfl, h⟩
  | error h hi =>
    cases h with
    | fault h => exact .ok le_rfl ⟨rfl, hfault _ _ h, hi⟩
    | unfinished => exact .unfinished
    | stuck => exact .broken

end ResultAgree

end LispMachine
