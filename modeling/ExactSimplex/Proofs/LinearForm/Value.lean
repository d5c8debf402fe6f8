import Mathlib.Algebra.BigOperators.Group.Finset.Basic
import Mathlib.Algebra.Order.Ring.Rat
import ExactSimplex.LinearForm.Basic

/-! Values of linear forms. A form does not look at variables that it does not name, a new
term adds its own value, and over any list of names that has those of the form the value is
the sum of the coefficients times the values. -/

namespace ExactSimplex.LinearForm

variable {p : LinearForm} {name other : String} {q : Rat} {v w : String → Rat}

/-! ## Names -/

theorem names_nodup (p : LinearForm) : p.names.Nodup := by
  refine List.pairwise_map.mpr (p.sorted.imp fun {a b} h he => ?_)
  rw [he] at h
  exact String.lt_irrefl _ h

theorem lookup_isSome_iff {ts : List (String × Rat)} :
    (ts.lookup name).isSome = true ↔ name ∈ ts.map (·.1) := by
  induction ts with
  | nil => simp
  | cons t ts ih =>
    rw [lookup_term]
    by_cases h : name = t.1
    · simp [h]
    · simp [h, ih]

theorem lookup_eq_none_iff {ts : List (String × Rat)} :
    ts.lookup name = none ↔ name ∉ ts.map (·.1) := by
  rw [← lookup_isSome_iff, Option.not_isSome_iff_eq_none]

theorem get?_eq_none : p.get? name = none ↔ name ∉ p.names := lookup_eq_none_iff

theorem coefficient_of_not_mem (h : name ∉ p.names) : p.coefficient name = 0 := by
  simp [coefficient, get?_eq_none.mpr h]

theorem mem_names_insert (hq : q ≠ 0) :
    other ∈ (p.insert name q).names ↔ other = name ∨ other ∈ p.names := by
  rw [names, ← lookup_isSome_iff, ← get?, get?_insert, if_neg hq]
  by_cases h : other = name
  · simp [h]
  · rw [if_neg h, get?, lookup_isSome_iff, names]
    simp [h]

/-! ## Values -/

theorem eval_eq_sum_terms (p : LinearForm) (v : String → Rat) :
    p.eval v = (p.terms.map fun t => t.2 * v t.1).sum := by
  rw [eval, List.sum_eq_foldr, List.foldr_map]

theorem eval_congr (h : ∀ name ∈ p.names, v name = w name) : p.eval v = p.eval w := by
  rw [eval_eq_sum_terms, eval_eq_sum_terms]
  congr 1
  refine List.map_congr_left ?_
  intro t ht
  rw [h t.1 (List.mem_map_of_mem ht)]

theorem sum_placeTerm {ts : List (String × Rat)} (h : name ∉ ts.map (·.1)) :
    ((placeTerm name q ts).map fun t => t.2 * v t.1).sum =
      q * v name + (ts.map fun t => t.2 * v t.1).sum := by
  induction ts with
  | nil => simp [placeTerm]
  | cons t ts ih =>
    simp only [List.map_cons, List.mem_cons, not_or] at h
    simp only [placeTerm, if_neg h.1]
    split
    · simp
    · simp only [List.map_cons, List.sum_cons, ih h.2]
      exact add_left_comm _ _ _

/-- A term with a new name adds its value. -/
theorem eval_insert_of_not_mem (hq : q ≠ 0) (h : name ∉ p.names) :
    (p.insert name q).eval v = q * v name + p.eval v := by
  rw [insert, if_neg hq, eval_eq_sum_terms, eval_eq_sum_terms]
  exact sum_placeTerm h

theorem coefficient_of_mem {t : String × Rat} (ht : t ∈ p.terms) : p.coefficient t.1 = t.2 := by
  obtain ⟨ts, hsorted⟩ := p
  simp only [coefficient, get?] at ht ⊢
  induction ts with
  | nil => cases ht
  | cons s ts ih =>
    obtain ⟨hs, hts⟩ := List.pairwise_cons.mp hsorted
    rw [lookup_term]
    rcases List.mem_cons.mp ht with rfl | ht
    · simp
    · have hne : t.1 ≠ s.1 := fun he => String.lt_irrefl _ (he ▸ hs t ht)
      rw [if_neg hne]
      exact ih hts ht

/-- The value as a sum over a list of names. -/
theorem eval_eq_sum {order : List String} (hd : order.Nodup) (h : ∀ n ∈ p.names, n ∈ order) :
    p.eval v = (order.map fun n => p.coefficient n * v n).sum := by
  have hown : p.eval v = (p.names.map fun n => p.coefficient n * v n).sum := by
    rw [eval_eq_sum_terms, names, List.map_map]
    congr 1
    refine List.map_congr_left ?_
    intro t ht
    rw [Function.comp_apply, coefficient_of_mem ht]
  rw [hown, ← List.sum_toFinset _ p.names_nodup, ← List.sum_toFinset _ hd]
  refine Finset.sum_subset ?_ ?_
  · intro n hn
    exact List.mem_toFinset.mpr (h n (List.mem_toFinset.mp hn))
  · intro n _ hn
    rw [coefficient_of_not_mem (by simpa using hn), zero_mul]

end ExactSimplex.LinearForm
