import LispMachine.Proofs.Assembly.RoundTrip

/-! # Finishing again

A program may be finished any number of times. What was stated since the last time that this
succeeded falls into three parts. Of what is lost only the labels are left, since a finish dropped
the code when it could not fill in an offset. What is held is still there, but a label that was
defined twice in it has been reported and is not reported again. The rest is new.
-/

namespace LispMachine

namespace Statement

def target? : Statement → Option String
  | branch _ name => some name
  | _ => none

def defined (statements : List Statement) : List String := statements.filterMap label?

def referred (statements : List Statement) : List String := statements.filterMap target?

@[simp] theorem defined_append (front rest : List Statement) :
    defined (front ++ rest) = defined front ++ defined rest := List.filterMap_append

end Statement

open Statement

namespace Assembler

variable {a a' : Assembler} {lost held new : List Statement}

/-- An assembler that was called in any way, and what was stated since it was last finished with
success: first what was dropped by a later finish, then what such a finish has left, then what came
after the last one. -/
inductive Called : (lost held new : List Statement) → Assembler → Prop
  | fresh : Called [] [] [] {}
  | add {lost held new : List Statement} {a : Assembler} (s : Statement) : Called lost held new a →
      Called lost held (new ++ [s]) (a.add s)
  | done {lost held new : List Statement} {a a' : Assembler} {program : Assembly} :
      Called lost held new a → a.finish = (.ok program, a') → Called [] [] [] a'
  | repeated {lost held new : List Statement} {a a' : Assembler} {name : String} :
      Called lost held new a → a.finish = (.error (.duplicateLabel name), a') →
      Called lost (held ++ new) [] a'
  | unresolved {lost held new : List Statement} {a a' : Assembler} {e : AssemblyError} :
      Called lost held new a → a.finish = (.error e, a') → (∀ name, e ≠ .duplicateLabel name) →
      Called (lost ++ held ++ new) [] [] a'

/-! ## Filling in -/

def Resolvable (labels : List (String × Nat)) (use : LabelUse) : Prop :=
  ∃ target, labels.lookup use.label = some target ∧
    -0x40000000 ≤ (target - (use.pos + 4) : Int) ∧ (target - (use.pos + 4) : Int) < 0x40000000

theorem resolve_cases (labels : List (String × Nat)) (code : Code) (use : LabelUse) :
    (Resolvable labels use ∧ ∃ code', resolve labels code use = .ok code') ∨
    (¬ Resolvable labels use ∧ ∃ e, resolve labels code use = .error e ∧
      ∀ name, e ≠ .duplicateLabel name) := by
  rw [Resolvable, resolve]
  cases labels.lookup use.label with
  | none =>
    refine .inr ⟨?_, _, rfl, fun _ h => by cases h⟩
    rintro ⟨_, h, -⟩
    cases h
  | some target =>
    by_cases hnear : -0x40000000 ≤ (target - (use.pos + 4) : Int) ∧
        (target - (use.pos + 4) : Int) < 0x40000000
    · exact .inl ⟨⟨target, rfl, hnear⟩, _, if_pos hnear⟩
    · refine .inr ⟨?_, _, if_neg hnear, fun _ h => by cases h⟩
      rintro ⟨_, ⟨⟩, h⟩
      exact hnear h

theorem foldlM_resolve_cases (labels : List (String × Nat)) (uses : List LabelUse) (code : Code) :
    ((∀ use ∈ uses, Resolvable labels use) ∧ ∃ code', uses.foldlM (resolve labels) code =
      .ok code') ∨
    (¬ (∀ use ∈ uses, Resolvable labels use) ∧
      ∃ e, uses.foldlM (resolve labels) code = .error e ∧ ∀ name, e ≠ .duplicateLabel name) := by
  induction uses generalizing code with
  | nil => exact .inl ⟨fun _ h => (by cases h), code, rfl⟩
  | cons use uses ih =>
    rw [List.foldlM_cons, List.forall_mem_cons]
    rcases resolve_cases labels code use with ⟨hr, code', hcode⟩ | ⟨hr, e, he, hne⟩
    · rw [hcode]
      rcases ih code' with ⟨hall, hok⟩ | ⟨hall, herror⟩
      · exact .inl ⟨⟨hr, hall⟩, hok⟩
      · exact .inr ⟨fun h => hall h.2, herror⟩
    · rw [he]
      exact .inr ⟨fun h => hr h.1, e, rfl, hne⟩

theorem finish_cases (a : Assembler) :
    (a.duplicate = none ∧ (∀ use ∈ a.uses, Resolvable a.labels use) ∧
      ∃ code, a.finish = (.ok ⟨code, a.labels⟩, {})) ∨
    (∃ name, a.duplicate = some name ∧
      a.finish = (.error (.duplicateLabel name), { a with duplicate := none })) ∨
    (a.duplicate = none ∧ ¬ (∀ use ∈ a.uses, Resolvable a.labels use) ∧
      ∃ e, a.finish = (.error e, { labels := a.labels }) ∧ ∀ name, e ≠ .duplicateLabel name) := by
  rw [finish]
  cases hdup : a.duplicate with
  | some name => exact .inr (.inl ⟨name, rfl, rfl⟩)
  | none =>
    rcases foldlM_resolve_cases a.labels a.uses a.code with ⟨hall, code, hcode⟩ | ⟨hall, e, he, hne⟩
    · exact .inl ⟨rfl, hall, code, by rw [hcode]⟩
    · exact .inr (.inr ⟨rfl, hall, e, by rw [he], hne⟩)

/-! ## What is left of what was stated -/

theorem lookup_addLabel (a : Assembler) (name other : String) :
    ((a.add (.label name)).labels.lookup other).isSome ↔ other = name ∨
      (a.labels.lookup other).isSome := by
  rw [add, List.lookup_cons]
  by_cases h : other = name
  · rw [h, beq_self_eq_true]
    exact ⟨fun _ => .inl rfl, fun _ => rfl⟩
  · rw [beq_false_of_ne h]
    exact ⟨.inr, fun h' => h'.resolve_left h⟩

/-- The assembler holds what the account says. -/
structure Account (lost held new : List Statement) (a : Assembler) : Prop where
  code : a.code = (addAll {} (held ++ new)).code
  uses : a.uses = (addAll {} (held ++ new)).uses
  labels (name : String) : (a.labels.lookup name).isSome ↔ name ∈ defined (lost ++ held ++ new)
  duplicate : a.duplicate = none ↔
    (defined new).Nodup ∧ ∀ name ∈ defined new, name ∉ defined (lost ++ held)
  twice {name : String} : a.duplicate = some name →
    name ∈ defined new ∧ 2 ≤ (defined (lost ++ held ++ new)).count name

theorem addAll_concat (a : Assembler) (statements : List Statement) (s : Statement) :
    a.addAll (statements ++ [s]) = (a.addAll statements).add s := by
  rw [addAll, List.foldl_append]
  rfl

theorem duplicate_addLabel (a : Assembler) (name : String) :
    (a.add (.label name)).duplicate = none ↔ a.duplicate = none ∧
      ¬ (a.labels.lookup name).isSome := by
  rw [add]
  cases a.duplicate with
  | none => simp
  | some other => simp

theorem duplicate_addLabel_eq_some {a : Assembler} {name other : String}
    (h : (a.add (.label name)).duplicate = some other) :
    a.duplicate = some other ∨ (other = name ∧ (a.labels.lookup name).isSome) := by
  rw [add] at h
  cases hdup : a.duplicate with
  | none => grind
  | some first => grind

theorem Account.fresh : Account [] [] [] {} where
  code := rfl
  uses := rfl
  labels _ := by simp [defined]
  duplicate := by simp [defined]
  twice h := by cases h

theorem Account.addLabel (h : Account lost held new a) (name : String) :
    Account lost held (new ++ [.label name]) (a.add (.label name)) := by
  have hdefined : defined [.label name] = [name] := rfl
  refine ⟨?_, ?_, fun other => ?_, ?_, fun {other} hother => ?_⟩
  · rw [← List.append_assoc, addAll_concat]
    exact h.code
  · rw [← List.append_assoc, addAll_concat]
    exact h.uses
  · rw [lookup_addLabel, h.labels, ← List.append_assoc, defined_append _ [_], hdefined,
      List.mem_append, List.mem_singleton, or_comm]
  · rw [duplicate_addLabel, h.duplicate, h.labels]
    simp only [defined_append, hdefined, List.mem_append, List.mem_singleton]
    rw [List.nodup_append]
    grind
  · rw [← List.append_assoc, defined_append _ [_], defined_append _ [_], hdefined, List.mem_append,
      List.count_append]
    rcases duplicate_addLabel_eq_some hother with hbefore | ⟨rfl, hlabel⟩
    · obtain ⟨hmem, hcount⟩ := h.twice hbefore
      exact ⟨.inl hmem, Nat.le_add_right_of_le hcount⟩
    · have honce := List.count_pos_iff.2 ((h.labels _).1 hlabel)
      rw [List.count_singleton_self]
      exact ⟨.inr (List.mem_singleton_self _), Nat.succ_le_succ honce⟩

theorem Account.add (h : Account lost held new a) (s : Statement) :
    Account lost held (new ++ [s]) (a.add s) := by
  cases hs : s.label? with
  | some name =>
    cases s with
    | label other => exact h.addLabel other
    | _ => cases hs
  | none =>
    have hdefined : defined (new ++ [s]) = defined new := by simp [defined, hs]
    have hall : defined (lost ++ held ++ (new ++ [s])) = defined (lost ++ held ++ new) := by
      rw [defined_append _ new, defined_append _ (new ++ [s]), hdefined]
    have hlabels : (a.add s).labels = a.labels := by
      cases s with
      | label name => cases hs
      | _ => rfl
    have hduplicate : (a.add s).duplicate = a.duplicate := by
      cases s with
      | label name => cases hs
      | _ => rfl
    refine ⟨?_, ?_, fun other => ?_, ?_, fun {other} => ?_⟩
    · rw [← List.append_assoc, addAll_concat]
      cases s <;> simp [Assembler.add, append, h.code]
    · rw [← List.append_assoc, addAll_concat]
      cases s <;> simp [Assembler.add, append, h.code, h.uses, here]
    · rw [hlabels, hall, h.labels]
    · rw [hduplicate, hdefined, h.duplicate]
    · rw [hduplicate, hdefined, hall]
      exact h.twice

theorem Account.repeated (h : Account lost held new a) :
    Account lost (held ++ new) [] { a with duplicate := none } where
  code := by rw [List.append_nil, h.code]
  uses := by rw [List.append_nil, h.uses]
  labels name := by rw [List.append_nil, ← List.append_assoc, h.labels]
  duplicate := by simp [defined]
  twice h := by cases h

theorem Account.unresolved (h : Account lost held new a) :
    Account (lost ++ held ++ new) [] [] { labels := a.labels } where
  code := rfl
  uses := rfl
  labels name := by rw [List.append_nil, List.append_nil, h.labels]
  duplicate := by simp [defined]
  twice h := by cases h

theorem Called.account (h : Called lost held new a) : Account lost held new a := by
  induction h with
  | fresh => exact .fresh
  | add s _ ih => exact ih.add s
  | @done lost held new a a' program _ hfin ih =>
    rcases a.finish_cases with ⟨-, -, code, h⟩ | ⟨name, -, h⟩ | ⟨-, -, e, h, -⟩
    · cases h.symm.trans hfin
      exact .fresh
    · cases h.symm.trans hfin
    · cases h.symm.trans hfin
  | @repeated lost held new a a' name _ hfin ih =>
    rcases a.finish_cases with ⟨-, -, code, h⟩ | ⟨name', -, h⟩ | ⟨-, -, e, h, hne⟩
    · cases h.symm.trans hfin
    · cases h.symm.trans hfin
      exact ih.repeated
    · cases h.symm.trans hfin
      exact absurd rfl (hne name)
  | @unresolved lost held new a a' e _ hfin hne ih =>
    rcases a.finish_cases with ⟨-, -, code, h⟩ | ⟨name, -, h⟩ | ⟨-, -, e, h, -⟩
    · cases h.symm.trans hfin
    · cases h.symm.trans hfin
      exact absurd rfl (hne name)
    · cases h.symm.trans hfin
      exact ih.unresolved

theorem map_label_uses (a : Assembler) (statements : List Statement) :
    (a.addAll statements).uses.map (·.label) = a.uses.map (·.label) ++ referred statements := by
  induction statements generalizing a with
  | nil => exact (List.append_nil _).symm
  | cons s statements ih =>
    rw [addAll, List.foldl_cons, ← addAll, ih]
    cases s <;> simp [add, append, referred, target?, List.filterMap_cons]

def InReach (a : Assembler) : Prop :=
  ∀ use ∈ a.uses, ∀ target, a.labels.lookup use.label = some target →
    -0x40000000 ≤ (target - (use.pos + 4) : Int) ∧ (target - (use.pos + 4) : Int) < 0x40000000

theorem Account.resolvable_iff (h : Account lost held new a) :
    (∀ use ∈ a.uses, Resolvable a.labels use) ↔
      (∀ name ∈ referred (held ++ new), name ∈ defined (lost ++ held ++ new)) ∧ a.InReach := by
  have huses : a.uses.map (·.label) = referred (held ++ new) := by
    rw [h.uses, map_label_uses]
    rfl
  rw [← huses]
  constructor
  · intro hall
    refine ⟨fun name hname => ?_, fun use huse target ht => ?_⟩
    · obtain ⟨use, huse, rfl⟩ := List.mem_map.1 hname
      obtain ⟨target, ht, -⟩ := hall use huse
      exact (h.labels _).1 (ht ▸ rfl)
    · obtain ⟨target', ht', hnear⟩ := hall use huse
      rw [ht] at ht'
      cases ht'
      exact hnear
  · rintro ⟨hdefined, hreach⟩ use huse
    have hsome := (h.labels _).2 (hdefined _ (List.mem_map.2 ⟨use, huse, rfl⟩))
    obtain ⟨target, ht⟩ := Option.isSome_iff_exists.1 hsome
    exact ⟨target, ht, hreach use huse target ht⟩

theorem finish_eq_ok_iff (a : Assembler) :
    (∃ program, a.finish.1 = .ok program) ↔
      a.duplicate = none ∧ ∀ use ∈ a.uses, Resolvable a.labels use := by
  rcases a.finish_cases with ⟨hdup, hall, code, h⟩ | ⟨name, hdup, h⟩ | ⟨hdup, hall, e, h, -⟩
  · rw [h]
    exact ⟨fun _ => ⟨hdup, hall⟩, fun _ => ⟨_, rfl⟩⟩
  · rw [h, hdup]
    constructor
    · rintro ⟨_, h⟩
      cases h
    · rintro ⟨h, -⟩
      cases h
  · rw [h]
    constructor
    · rintro ⟨_, h⟩
      cases h
    · rintro ⟨-, h⟩
      exact absurd h hall

theorem finish_of_error_duplicate {name : String} (h : a.finish.1 = .error (.duplicateLabel name)) :
    a.duplicate = some name ∧ a.finish.2 = { a with duplicate := none } := by
  rcases a.finish_cases with ⟨-, -, code, hfin⟩ | ⟨name', hdup, hfin⟩ | ⟨-, -, e, hfin, hne⟩
  · rw [hfin] at h
    cases h
  · rw [hfin] at h
    cases h
    exact ⟨hdup, by rw [hfin]⟩
  · rw [hfin] at h
    cases h
    exact absurd rfl (hne name)

theorem finish_of_error {e : AssemblyError} (h : a.finish.1 = .error e)
    (hne : ∀ name, e ≠ .duplicateLabel name) : a.finish.2 = { labels := a.labels } := by
  rcases a.finish_cases with ⟨-, -, code, hfin⟩ | ⟨name, -, hfin⟩ | ⟨-, -, e', hfin, -⟩
  · rw [hfin] at h
    cases h
  · rw [hfin] at h
    cases h
    exact absurd rfl (hne name)
  · rw [hfin]

/-- Finishing succeeds exactly if no label that was defined since the last finish had been defined
before, every label is defined that is referred to by what is not lost, and the labels are near
enough. So if no finish has failed since the last success, every label was defined once and every
label that is referred to is defined.

A finish that reports a label that was defined twice leaves the code, the labels and the references,
but forgets the label, and the next finish goes by the references alone. Any other failure drops the
code and the references, and the next finish succeeds with an empty program. -/
theorem Called.finish_outcome (h : Called lost held new a) :
    ((∃ program, a.finish.1 = .ok program) ↔
      ((defined new).Nodup ∧ ∀ name ∈ defined new, name ∉ defined (lost ++ held)) ∧
      (∀ name ∈ referred (held ++ new), name ∈ defined (lost ++ held ++ new)) ∧ a.InReach) ∧
    (lost = [] → held = [] → (∃ program, a.finish.1 = .ok program) →
      (defined new).Nodup ∧ ∀ name ∈ referred new, name ∈ defined new) ∧
    (∀ name, a.finish.1 = .error (.duplicateLabel name) →
      (name ∈ defined new ∧ 2 ≤ (defined (lost ++ held ++ new)).count name) ∧
      a.finish.2 = { a with duplicate := none } ∧
      (∀ other, a.finish.2.finish.1 ≠ .error (.duplicateLabel other)) ∧
      ((∃ program, a.finish.2.finish.1 = .ok program) ↔
        (∀ name ∈ referred (held ++ new), name ∈ defined (lost ++ held ++ new)) ∧ a.InReach)) ∧
    (∀ e, a.finish.1 = .error e → (∀ name, e ≠ .duplicateLabel name) →
      a.finish.2 = { labels := a.labels } ∧ a.finish.2.finish = (.ok ⟨#[], a.labels⟩, {})) := by
  have hok : (∃ program, a.finish.1 = .ok program) ↔
      ((defined new).Nodup ∧ ∀ name ∈ defined new, name ∉ defined (lost ++ held)) ∧
      (∀ name ∈ referred (held ++ new), name ∈ defined (lost ++ held ++ new)) ∧ a.InReach := by
    rw [finish_eq_ok_iff, h.account.duplicate, h.account.resolvable_iff]
  refine ⟨hok, ?_, ?_, ?_⟩
  · rintro rfl rfl hprogram
    obtain ⟨⟨hnodup, -⟩, hreferred, -⟩ := hok.1 hprogram
    exact ⟨hnodup, hreferred⟩
  · intro name hname
    obtain ⟨hdup, hleft⟩ := finish_of_error_duplicate hname
    refine ⟨h.account.twice hdup, hleft, fun other hother => ?_, ?_⟩
    · rw [hleft] at hother
      cases (finish_of_error_duplicate hother).1
    · rw [hleft, finish_eq_ok_iff, ← h.account.resolvable_iff]
      exact ⟨And.right, fun hall => ⟨rfl, hall⟩⟩
  · intro e he hne
    have hleft := finish_of_error he hne
    exact ⟨hleft, by rw [hleft]; rfl⟩

/-- A jump to a label whose code was dropped goes to where it had been. -/
theorem finish_outcome_lost_label :
    Called [.label "start", .branch .jump "end"] [] [.branch .jump "start"]
      (((addAll {} [.label "start", .branch .jump "end"]).finish.2).add (.branch .jump "start")) ∧
    ∃ program, (((addAll {} [.label "start", .branch .jump "end"]).finish.2).add
      (.branch .jump "start")).finish.1 = .ok program := by
  have h : Called [.label "start", .branch .jump "end"] [] [.branch .jump "start"]
      (((addAll {} [.label "start", .branch .jump "end"]).finish.2).add (.branch .jump "start")) :=
    .add _ (.unresolved (e := .undefinedLabel "end") (.add _ (.add _ .fresh)) rfl
      fun _ h => by cases h)
  refine ⟨h, h.finish_outcome.1.2 ⟨by decide, by decide, ?_⟩⟩
  intro use huse target htarget
  cases List.mem_singleton.1 huse
  cases (Option.some.inj htarget : 0 = target)
  decide

/-- A failed finish loses and hides what was wrong: finishing once more succeeds. -/
theorem finish_succeeds_after_error :
    (addAll {} [.label "x", .label "x"]).finish.1 = .error (.duplicateLabel "x") ∧
    (addAll {} [.label "x", .label "x"]).finish.2.finish.1 = .ok ⟨#[], [("x", 0), ("x", 0)]⟩ ∧
    (addAll {} [.branch .jump "nowhere"]).finish.1 = .error (.undefinedLabel "nowhere") ∧
    (addAll {} [.branch .jump "nowhere"]).code.size = 5 ∧
    (addAll {} [.branch .jump "nowhere"]).finish.2.code.size = 0 ∧
    (addAll {} [.branch .jump "nowhere"]).finish.2.finish.1 = .ok ⟨#[], []⟩ :=
  ⟨rfl, rfl, rfl, rfl, rfl, rfl⟩

end Assembler

end LispMachine
