import LispMachine.Report

/-! # Suggestions do not depend on the order of names

The names that are near to an unknown one are ranked by a total order, and only then are all but the
first three dropped. So a report is the same in whatever order the global names are given.
-/

namespace LispMachine

namespace Text

variable {name a b c : String} {candidates others ranking ranking' : List String} {most : Nat}

/-- The order of suggestions for a name: by the distance from it, then by the names themselves. -/
def Precedes (name a b : String) : Prop :=
  editDistance name a < editDistance name b ∨ editDistance name a = editDistance name b ∧ a ≤ b

instance (name a b : String) : Decidable (Precedes name a b) := inferInstanceAs (Decidable (_ ∨ _))

namespace Precedes

theorem trans (hab : Precedes name a b) (hbc : Precedes name b c) : Precedes name a c := by
  rcases hab with hab | ⟨hab, hle⟩
  · exact .inl (hbc.elim (fun h => Nat.lt_trans hab h) fun h => h.1 ▸ hab)
  · rcases hbc with hbc | ⟨hbc, hle'⟩
    · exact .inl (hab ▸ hbc)
    · exact .inr ⟨hab.trans hbc, String.le_trans hle hle'⟩

theorem total (name a b : String) : Precedes name a b ∨ Precedes name b a := by
  rcases Nat.lt_trichotomy (editDistance name a) (editDistance name b) with h | h | h
  · exact .inl (.inl h)
  · exact (String.le_total a b).imp (fun hle => .inr ⟨h, hle⟩) fun hle => .inr ⟨h.symm, hle⟩
  · exact .inr (.inl h)

theorem antisymm (hab : Precedes name a b) (hba : Precedes name b a) : a = b := by
  rcases hab with hab | ⟨hab, hle⟩
  · rcases hba with hba | ⟨hba, -⟩
    · exact absurd hba (Nat.lt_asymm hab)
    · exact absurd hba.symm (Nat.ne_of_lt hab)
  · rcases hba with hba | ⟨-, hle'⟩
    · exact absurd hab.symm (Nat.ne_of_lt hba)
    · exact String.le_antisymm hle hle'

end Precedes

def sooner (name a b : String) : Bool := nearer (editDistance name a, a) (editDistance name b, b)

theorem sooner_iff : sooner name a b = true ↔ Precedes name a b := by
  simp [sooner, nearer, Precedes]

def near (name : String) (candidates : List String) (most : Nat) : List String :=
  candidates.filter fun c => 1 ≤ editDistance name c ∧ editDistance name c ≤ most

/-- All candidates that are near to the name, each as often as it is one, the nearest first. -/
structure Ranking (name : String) (candidates : List String) (most : Nat) (ranking : List String) :
    Prop where
  perm : ranking.Perm (near name candidates most)
  sorted : ranking.Pairwise (Precedes name)

namespace Ranking

theorem unique (h : Ranking name candidates most ranking)
    (h' : Ranking name candidates most ranking') :
    ranking = ranking' :=
  List.Perm.eq_of_pairwise (fun _ _ _ _ => Precedes.antisymm) h.sorted h'.sorted
    (h.perm.trans h'.perm.symm)

theorem of_perm (h : Ranking name candidates most ranking) (hp : candidates.Perm others) :
    Ranking name others most ranking :=
  ⟨h.perm.trans (hp.filter _), h.sorted⟩

end Ranking

theorem ranking_mergeSort (name : String) (candidates : List String) (most : Nat) :
    Ranking name candidates most ((near name candidates most).mergeSort (sooner name)) where
  perm := List.mergeSort_perm ..
  sorted := by
    have htrans (a b c : String) (hab : sooner name a b) (hbc : sooner name b c) :
        sooner name a c :=
      sooner_iff.2 ((sooner_iff.1 hab).trans (sooner_iff.1 hbc))
    have htotal (a b : String) : sooner name a b || sooner name b a := by
      simpa [sooner_iff] using Precedes.total name a b
    exact (List.pairwise_mergeSort htrans htotal (near name candidates most)).imp fun h =>
      sooner_iff.1 h

theorem similar_eq_take (name : String) (candidates : List String) (most : Nat) :
    similar name candidates most =
      ((near name candidates most).mergeSort (sooner name)).take 3 := by
  have hnear : (candidates.map fun c => (editDistance name c, c)).filter
      (fun x => 0 < x.1 && x.1 ≤ most) =
        (near name candidates most).map fun c => (editDistance name c, c) := by
    rw [List.filter_map, near]
    congr 1
    exact List.filter_congr fun c _ => by simp [Nat.succ_le_iff]
  have hsort : ((near name candidates most).mergeSort (sooner name)).map
      (fun c => (editDistance name c, c)) =
        ((near name candidates most).map fun c => (editDistance name c, c)).mergeSort nearer :=
    List.map_mergeSort fun _ _ _ _ => rfl
  simp only [similar, hnear, ← hsort, ← List.map_take, List.map_map]
  exact List.map_id _

theorem Ranking.similar_eq (h : Ranking name candidates most ranking) :
    similar name candidates most = ranking.take 3 := by
  rw [similar_eq_take, (ranking_mergeSort name candidates most).unique h]

end Text

namespace Report

open Text

/-- A report is the same in whatever order the names are given. The suggestions are the first three
names of the ranking, which is that of every such order. -/
theorem fault_perm (s : Style) {names names' : List String} (h : names.Perm names') :
    (∀ f code ip, fault s f code ip names = fault s f code ip names') ∧
    ∀ name most, ∃ ranking, Ranking name names most ranking ∧
      similar name names most = ranking.take 3 ∧ similar name names' most = ranking.take 3 := by
  have hranked (name : String) (most : Nat) : ∃ ranking, Ranking name names most ranking ∧
      similar name names most = ranking.take 3 ∧ similar name names' most = ranking.take 3 := by
    have hr := ranking_mergeSort name names most
    exact ⟨_, hr, hr.similar_eq, (hr.of_perm h).similar_eq⟩
  refine ⟨fun f code ip => ?_, hranked⟩
  have hsame : suggestion s f names = suggestion s f names' := by
    cases f with
    | unboundSymbol name =>
      obtain ⟨_, -, h₁, h₂⟩ := hranked name 2
      rw [suggestion, suggestion, h₁, h₂]
    | _ => rfl
  rw [fault, fault, hsame]

/-- Two names are as near to the unknown one, and the name itself is not suggested. -/
theorem fault_perm_near_misses :
    ["list", "last", "map", "lst"].Perm ["lst", "map", "last", "list"] ∧
    fault {} (.unboundSymbol "lst") #[] 0 ["list", "last", "map", "lst"] =
      fault {} (.unboundSymbol "lst") #[] 0 ["lst", "map", "last", "list"] ∧
    similar "lst" ["list", "last", "map", "lst"] 1 = ["last", "list"] := by
  have hperm : ["list", "last", "map", "lst"].Perm ["lst", "map", "last", "list"] := by decide
  obtain ⟨hfault, hranked⟩ := fault_perm {} hperm
  obtain ⟨ranking, hr, hsimilar, -⟩ := hranked "lst" 1
  have hr' : Ranking "lst" ["list", "last", "map", "lst"] 1 ["last", "list"] := by
    refine ⟨by decide +kernel, ?_⟩
    decide +kernel
  exact ⟨hperm, hfault .., by rw [hsimilar, hr.unique hr']; rfl⟩

end Report

end LispMachine
