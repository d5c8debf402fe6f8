import ExactSimplex.Proofs.LinearForm.Terms

/-! Forms as they are stored. Each name has the last coefficient listed for it, zeros included, so
a form is what its own terms are stored as, and storing leaves a zero behind precisely where the
last coefficient of some name is zero. -/

namespace ExactSimplex.LinearForm

variable {p : LinearForm} {name : String} {q : Rat} {ts : List (String × Rat)}

/-- Later terms override earlier ones and what was there before. -/
theorem get?_foldl_put (p : LinearForm) (ts : List (String × Rat)) (name : String) :
    (ts.foldl (fun p t => p.put t.1 t.2) p).get? name =
      (ts.reverse.lookup name).or (p.get? name) := by
  induction ts generalizing p with
  | nil => rfl
  | cons t ts ih =>
    rw [List.foldl_cons, ih, get?_put, List.reverse_cons, List.lookup_append, Option.or_assoc,
      lookup_term, List.lookup_nil]
    split <;> rfl

theorem get?_ofStored (ts : List (String × Rat)) (name : String) :
    (ofStored ts).get? name = ts.reverse.lookup name := by
  rw [ofStored, get?_foldl_put, get?_empty, Option.or_none]

/-- The order in which the terms of a form are listed does not matter. -/
theorem ofStored_terms (p : LinearForm) : ofStored p.terms = p := by
  have hreverse : (p.terms.reverse.map (·.1)).Nodup := by
    rw [List.map_reverse, List.nodup_reverse]
    exact p.names_nodup
  refine ext_get? fun name => Option.ext fun q => ?_
  rw [get?_ofStored, lookup_eq_some_iff_mem hreverse, List.mem_reverse, get?_eq_some_iff]

theorem reduced_iff : p.Reduced ↔ ∀ name, p.get? name ≠ some 0 := by
  constructor
  · intro h name hzero
    exact h _ (get?_eq_some_iff.mp hzero) rfl
  · rintro h ⟨name, q⟩ ht rfl
    exact h name (get?_eq_some_iff.mpr ht)

theorem reduced_ofStored_iff : (ofStored ts).Reduced ↔ ∀ name, ts.reverse.lookup name ≠ some 0 := by
  simp only [reduced_iff, get?_ofStored]

end ExactSimplex.LinearForm
