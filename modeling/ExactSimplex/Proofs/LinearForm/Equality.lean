import ExactSimplex.Proofs.LinearForm.Stored

/-! When two forms are equal. The coefficients of a form are its values at the unit points, so forms
with equal values have equal coefficients, and a form without stored zeros has no other content. -/

namespace ExactSimplex.LinearForm

variable {p p' : LinearForm} {v : String → Rat}

/-- The point at which one variable is 1 and every other is 0. -/
def unitPoint (name other : String) : Rat := if other = name then 1 else 0

theorem eval_unitPoint (p : LinearForm) (name : String) :
    p.eval (unitPoint name) = p.coefficient name := by
  rw [eval_eq_sum p.names_nodup fun _ h => h, ← List.sum_toFinset _ p.names_nodup]
  by_cases hname : name ∈ p.names
  · rw [Finset.sum_eq_single name]
    · simp [unitPoint]
    · intro other _ hne
      simp [unitPoint, hne]
    · exact fun hnot => absurd (List.mem_toFinset.mpr hname) hnot
  · rw [coefficient_of_not_mem hname]
    refine Finset.sum_eq_zero fun other hother => ?_
    have hne : other ≠ name := fun he => hname (he ▸ List.mem_toFinset.mp hother)
    simp [unitPoint, hne]

/-- Stored zeros do not show in the values. -/
theorem eval_eq_of_coefficient_eq (h : ∀ name, p.coefficient name = p'.coefficient name) :
    p.eval v = p'.eval v := by
  have hnodup : (p.names ++ p'.names).dedup.Nodup := List.nodup_dedup _
  rw [eval_eq_sum hnodup (by simp +contextual), eval_eq_sum hnodup (by simp +contextual)]
  simp only [h]

theorem eval_eq_iff :
    (∀ v, p.eval v = p'.eval v) ↔ ∀ name, p.coefficient name = p'.coefficient name := by
  constructor
  · intro h name
    rw [← eval_unitPoint, ← eval_unitPoint, h]
  · exact fun h v => eval_eq_of_coefficient_eq h

theorem Reduced.get?_eq (h : p.Reduced) (name : String) :
    p.get? name = if p.coefficient name = 0 then none else some (p.coefficient name) := by
  rw [coefficient]
  cases hget : p.get? name with
  | none => simp
  | some q =>
    have hq : q ≠ 0 := fun he => reduced_iff.mp h name (he ▸ hget)
    simp [hq]

/-- Forms without stored zeros are equal precisely if they have the same values. -/
theorem Reduced.eq_iff_eval_eq (hp : p.Reduced) (hp' : p'.Reduced) :
    p = p' ↔ ∀ v, p.eval v = p'.eval v := by
  refine ⟨fun h v => by rw [h], fun h => ext_get? fun name => ?_⟩
  rw [hp.get?_eq, hp'.get?_eq, eval_eq_iff.mp h]

theorem coefficient_scale (p : LinearForm) (k : Rat) (name : String) :
    (p.scale k).coefficient name = p.coefficient name * k := by
  have hnodup : ((p.terms.map fun t => (t.1, t.2 * k)).map (·.1)).Nodup := by
    rw [List.map_map]
    exact p.names_nodup
  have hlookup : (p.terms.map fun t => (t.1, t.2 * k)).lookup name =
      (p.get? name).map (· * k) := by
    rw [get?]
    induction p.terms with
    | nil => rfl
    | cons t ts ih =>
      rw [List.map_cons, lookup_term, lookup_term, ih]
      split <;> rfl
  rw [coefficient, coefficient, scale, ofTerms, get?_foldl_insert hnodup, hlookup, get?_empty]
  cases p.get? name with
  | none => simp
  | some q => by_cases hq : q * k = 0 <;> simp [hq]

end ExactSimplex.LinearForm
