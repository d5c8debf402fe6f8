import ExactSimplex.Proofs.Tableau.Columns
import ExactSimplex.Solution.Reading

/-! Reading a solution off a canonical tableau. The names of the basis lead back to the rows,
so the values that are read are those of the basic solution. -/

namespace ExactSimplex.Tableau

variable {t : Tableau} {j : Nat} {s : Solution}

/-- The basic variables of the constraint rows, in the order of the rows. -/
def basisNames (t : Tableau) : List String :=
  t.constraintRows.map fun i => t.columnName (t.basicCol i)

/-- The values of the basic solution for the decision columns. -/
def basicPoint (t : Tableau) : List (String × Rat) :=
  t.decisionRange.map fun j => (t.columnName j, t.spread t.rhs j)

theorem lookup_map {α : Type} {f : α → String} {g : α → Rat} {l : List α} {a : α} (ha : a ∈ l)
    (hinj : ∀ b ∈ l, f a = f b → a = b) :
    (l.map fun b => (f b, g b)).lookup (f a) = some (g a) := by
  induction l with
  | nil => cases ha
  | cons b l ih =>
    rw [List.map_cons, LinearForm.lookup_term]
    by_cases h : f a = f b
    · rw [if_pos h, hinj b (by simp) h]
    · rw [if_neg h]
      rcases List.mem_cons.mp ha with rfl | ha
      · exact absurd rfl h
      · exact ih ha fun c hc => hinj c (List.mem_cons_of_mem _ hc)

theorem valueIn_basicPoint (hd : t.columns.dropLast.Nodup) (h0 : 0 < j) (hj : j < t.rhsColumn) :
    valueIn t.basicPoint (t.columnName j) = t.spread t.rhs j := by
  unfold valueIn
  rw [basicPoint, lookup_map (mem_decisionRange.mpr ⟨h0, hj⟩) fun k hk =>
    columnName_injective hd hj (mem_decisionRange.mp hk).2]
  rfl

namespace Canonical

theorem basis_eq (ht : t.Canonical) (hn : 0 < t.rhsColumn) : t.basis = .ok t.basisNames := by
  refine mapM_eq_pure ?_
  intro i hi
  have hi : i < t.rows.length := by
    simp only [constraintRows, constraintCount, List.mem_range'_1] at hi; omega
  rw [ht.basicVariable?_eq hn hi]
  rfl

/-- The value read for a column is that of the row in which it is basic, if there is one. -/
theorem basicValue_eq (ht : t.Canonical) (h0 : 0 < j) (hj : j < t.rhsColumn) :
    t.basicValue t.basisNames (t.columnName j) = .ok (t.spread t.rhs j) := by
  have hn : 0 < t.rhsColumn := by omega
  have hlen : t.basisNames.length = t.rows.length - 1 := by
    simp [basisNames, constraintRows, constraintCount]
  have hname : ∀ k (hk : k < t.basisNames.length),
      t.basisNames[k] = t.columnName (t.basicCol (1 + k)) := by
    intro k hk
    simp [basisNames, constraintRows]
  unfold basicValue
  cases hidx : t.basisNames.idxOf? (t.columnName j) with
  | some k =>
    obtain ⟨hk, heq, -⟩ := List.idxOf?_eq_some_iff.mp hidx
    have hrow : 1 + k < t.rows.length := by omega
    have hcol : t.basicCol (1 + k) = j := by
      rw [hname k hk] at heq
      exact columnName_injective ht.distinct (ht.basicCol_lt hn hrow) hj (by simpa using heq)
    rw [spread_of_basic t.rhs hrow (hcol ▸ ht.basicColumn?_eq hn hrow), Nat.add_comm 1 k]
    have hrhs := rhs?_eq_rhs ht.rectangular (Nat.add_comm 1 k ▸ hrow)
      (by have := lt_columns_length hj; omega)
    simp only [hrhs]
  | none =>
    rw [spread_of_nonbasic]
    intro i hi hb
    have hpos : 0 < i := by
      refine Nat.pos_of_ne_zero ?_
      intro hz
      rw [hz, ht.basicColumn?_zero hn, Option.some.injEq] at hb
      omega
    refine List.idxOf?_eq_none_iff.mp hidx (List.mem_map.mpr ⟨i, ?_, by simp [basicCol, hb]⟩)
    simp only [constraintRows, constraintCount, List.mem_range'_1]
    omega

theorem basicValues_eq (ht : t.Canonical) : t.basicValues t.basisNames = .ok t.basicPoint := by
  have hvalues : ∀ c ∈ t.decisionColumns,
      ((t.basicValue t.basisNames c.1).map fun q => (c.1, q)) =
        pure (c.1, t.spread t.rhs c.2) := by
    rw [decisionColumns_eq]
    intro c hc
    obtain ⟨j, hj, rfl⟩ := List.mem_map.mp hc
    obtain ⟨h0, hj⟩ := mem_decisionRange.mp hj
    rw [ht.basicValue_eq h0 hj]
    rfl
  refine (mapM_eq_pure hvalues).trans ?_
  rw [decisionColumns_eq, List.map_map]
  rfl

/-- What is read off a canonical tableau. -/
theorem readSolution_eq_ok (ht : t.Canonical) (hn : 0 < t.rhsColumn)
    (h : t.readSolution = .ok s) :
    s.values = t.basicPoint ∧
      s.objectiveValue = t.objective.expression.eval (valueIn t.basicPoint) := by
  unfold readSolution at h
  rw [ht.basis_eq hn] at h
  simp only [bind, Except.bind, ht.basicValues_eq] at h
  split at h
  · obtain rfl := Except.ok.inj h
    exact ⟨rfl, rfl⟩
  · cases h

end Canonical

end ExactSimplex.Tableau
