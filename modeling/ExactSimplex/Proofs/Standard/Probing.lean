import Mathlib.Algebra.Group.Nat.Defs
import Mathlib.Order.Bounds.Defs
import ExactSimplex.Program.Declarations
import ExactSimplex.Standard.FreshName

/-! Probing for a fresh name without a bound. The loop tries one number after the other until a name
is free, and nothing in it says that it ends; it does, since distinct numbers give distinct names
and only finitely many are taken. The bounded search finds what the loop returns. -/

namespace ExactSimplex.Standard

/-- A new variable can have the name: it is neither reserved nor declared. -/
def IsFree (reserved : String) (d : Declarations) (name : String) : Prop :=
  name ≠ reserved ∧ d.get? name = none

/-- The loop, from a number on: the candidates that it examines and the name that it returns. Its
counter is a signed word of 32 bits, so that there is no step beyond the greatest one. -/
inductive Probes (reserved : String) (d : Declarations) (stem : String) :
    Nat → List String → String → Prop
  | found {k : Nat} : IsFree reserved d (numbered stem k) →
      Probes reserved d stem k [numbered stem k] (numbered stem k)
  | next {k : Nat} {examined : List String} {name : String} :
      ¬ IsFree reserved d (numbered stem k) → k + 1 < 2 ^ 31 →
      Probes reserved d stem (k + 1) examined name →
      Probes reserved d stem k (numbered stem k :: examined) name

variable {reserved stem name : String} {d : Declarations} {examined : List String} {k : Nat}

theorem isFree_iff : IsFree reserved d name ↔ name ∉ reserved :: d.names := by
  rw [IsFree, Declarations.get?_eq_none, List.mem_cons, not_or]

/-! ## Runs of the loop -/

/-- Where every number before it is taken the loop goes on to a free one. -/
theorem probes_of_taken {n : Nat} (hfree : IsFree reserved d (numbered stem (k + n)))
    (htaken : ∀ i < n, ¬ IsFree reserved d (numbered stem (k + i))) (hword : k + n < 2 ^ 31) :
    Probes reserved d stem k ((List.range' k (1 + n)).map (numbered stem))
      (numbered stem (k + n)) := by
  induction n generalizing k with
  | zero => exact .found hfree
  | succ n ih =>
    have hnext : k + (n + 1) = k + 1 + n := by omega
    have hlater : ∀ i < n, ¬ IsFree reserved d (numbered stem (k + 1 + i)) := by
      intro i hi
      rw [show k + 1 + i = k + (i + 1) by omega]
      exact htaken (i + 1) (by omega)
    rw [hnext] at hfree hword ⊢
    exact .next (htaken 0 (by omega)) (by omega) (ih hfree hlater hword)

theorem Probes.unique {examined' : List String} {name' : String}
    (h : Probes reserved d stem k examined name) (h' : Probes reserved d stem k examined' name') :
    examined = examined' ∧ name = name' := by
  induction h generalizing examined' name' with
  | found hfree =>
    cases h' with
    | found => exact ⟨rfl, rfl⟩
    | next htaken => exact absurd hfree htaken
  | next htaken _ _ ih =>
    cases h' with
    | found hfree => exact absurd hfree htaken
    | next _ _ h' =>
      obtain ⟨rfl, rfl⟩ := ih h'
      exact ⟨rfl, rfl⟩

/-! ## The number that is found -/

theorem freshIndex_isLeast (reserved stem : String) (d : Declarations) :
    IsLeast {k | 1 ≤ k ∧ IsFree reserved d (numbered stem k)}
      (freshIndex (reserved :: d.names) stem) := by
  simp only [isFree_iff]
  refine ⟨⟨freshIndex_pos _ stem, freshName_not_mem _ stem⟩, ?_⟩
  rintro i ⟨hi, hfree⟩
  exact Nat.le_of_not_lt fun hlt => hfree (taken_below_firstFree hi hlt)

theorem freshIndex_le_entries (reserved stem : String) (d : Declarations) :
    freshIndex (reserved :: d.names) stem ≤ d.entries.length + 2 := by
  have hle := freshIndex_le (reserved :: d.names) stem
  have hlength : (reserved :: d.names).length = d.entries.length + 1 := by
    simp [Declarations.names]
  omega

theorem probes_freshName (h : d.entries.length < 2 ^ 31 - 2) :
    Probes reserved d stem 1
      ((List.range' 1 (freshIndex (reserved :: d.names) stem)).map (numbered stem))
      (freshName (reserved :: d.names) stem) := by
  have hle := freshIndex_le_entries reserved stem d
  have hleast := freshIndex_isLeast reserved stem d
  obtain ⟨n, hn⟩ := Nat.exists_eq_add_of_le hleast.1.1
  rw [freshName]
  rw [hn] at hle hleast ⊢
  refine probes_of_taken hleast.1.2 (fun i hi hfree => ?_) (by omega)
  have := hleast.2 ⟨Nat.le_add_right 1 i, hfree⟩
  omega

/-- The loop ends: it examines the numbers from 1 to the least one whose name is neither reserved
nor declared, and returns that name. There are at most two more of them than declarations. -/
theorem probes_iff_freshName (reserved stem : String) (d : Declarations)
    (h : d.entries.length < 2 ^ 31 - 2) :
    ∃ k ≤ d.entries.length + 2,
      (∀ examined name, Probes reserved d stem 1 examined name ↔
        examined = (List.range' 1 k).map (numbered stem) ∧
          name = freshName (reserved :: d.names) stem) ∧
      freshName (reserved :: d.names) stem = stem ++ toString k ∧
      IsLeast {k | 1 ≤ k ∧ IsFree reserved d (stem ++ toString k)} k := by
  refine ⟨_, freshIndex_le_entries reserved stem d, fun examined name => ?_, rfl,
    freshIndex_isLeast reserved stem d⟩
  constructor
  · exact fun hprobes => hprobes.unique (probes_freshName h)
  · rintro ⟨rfl, rfl⟩
    exact probes_freshName h

/-- All the names that are taken are candidates, so the loop examines as many as it ever can. -/
theorem probes_iff_freshName_crowded :
    let d : Declarations := ⟨[("e3", .unrestricted), ("e1", .nonNegative)]⟩
    d.entries.length < 2 ^ 31 - 2 ∧ freshName ("e2" :: d.names) "e" = "e4" ∧
      Probes "e2" d "e" 1 ["e1", "e2", "e3", "e4"] "e4" := by
  intro d
  have hsmall : d.entries.length < 2 ^ 31 - 2 := by simp [d]
  have hname : freshName ("e2" :: d.names) "e" = "e4" := by decide +kernel
  obtain ⟨k, -, hprobes, hfresh, -⟩ := probes_iff_freshName "e2" "e" d hsmall
  obtain rfl : k = 4 := numbered_injective "e" (hfresh.symm.trans hname)
  exact ⟨hsmall, hname, (hprobes _ _).mpr ⟨by decide +kernel, hname.symm⟩⟩

end ExactSimplex.Standard
