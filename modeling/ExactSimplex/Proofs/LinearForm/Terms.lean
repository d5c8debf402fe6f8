import Mathlib.Data.List.Nodup
import ExactSimplex.LinearForm.Text
import ExactSimplex.Proofs.LinearForm.Value

/-! A linear form is determined by its coefficients, so the order in which its terms are listed
does not matter: from its terms in any order of the names the same form is built. -/

namespace ExactSimplex.LinearForm

variable {p p' : LinearForm} {name : String} {q : Rat} {order : List String}
  {ts : List (String × Rat)}

/-! ## Terms and coefficients -/

theorem lookup_eq_some_iff_mem (h : (ts.map (·.1)).Nodup) :
    ts.lookup name = some q ↔ (name, q) ∈ ts := by
  induction ts with
  | nil => simp
  | cons t ts ih =>
    obtain ⟨hfresh, hts⟩ := List.nodup_cons.mp h
    rw [lookup_term, List.mem_cons]
    by_cases hn : name = t.1
    · have hnot : (name, q) ∉ ts := fun hm =>
        hfresh (List.mem_map.mpr ⟨_, hm, hn⟩)
      simp only [if_pos hn, hnot, or_false, Option.some.injEq]
      exact ⟨fun hq => by rw [hn, ← hq], fun heq => by rw [← heq]⟩
    · have hne : (name, q) ≠ t := fun heq => hn (heq ▸ rfl)
      simp only [if_neg hn, hne, false_or]
      exact ih hts

theorem get?_eq_some_iff : p.get? name = some q ↔ (name, q) ∈ p.terms :=
  lookup_eq_some_iff_mem p.names_nodup

theorem ext_get? (h : ∀ name, p.get? name = p'.get? name) : p = p' := by
  have hmem : ∀ t, t ∈ p.terms ↔ t ∈ p'.terms := fun t => by
    rw [← get?_eq_some_iff, ← get?_eq_some_iff, h]
  have hperm : p.terms.Perm p'.terms :=
    (List.perm_ext_iff_of_nodup p.names_nodup.of_map p'.names_nodup.of_map).mpr hmem
  have heq : p.terms = p'.terms :=
    hperm.eq_of_pairwise (fun a b _ _ hab hba => absurd (String.lt_trans hab hba)
      (String.lt_irrefl _))
      p.sorted p'.sorted
  cases p
  cases p'
  simp_all

/-- A term with a new name is added to the others. -/
theorem mem_terms_insert {t : String × Rat} (hq : q ≠ 0) (h : name ∉ p.names) :
    t ∈ (p.insert name q).terms ↔ t = (name, q) ∨ t ∈ p.terms := by
  obtain ⟨other, c⟩ := t
  rw [← get?_eq_some_iff, ← get?_eq_some_iff, get?_insert]
  by_cases hn : other = name
  · simp [hn, hq, get?_eq_none.mpr h, eq_comm]
  · simp [hn]

/-! ## Forms from terms -/

/-- Inserting terms of different names overrides what was there for these names. -/
theorem get?_foldl_insert (hnodup : (ts.map (·.1)).Nodup) :
    (ts.foldl (fun p t => p.insert t.1 t.2) p).get? name =
      match ts.lookup name with
      | some q => if q = 0 then none else some q
      | none => p.get? name := by
  induction ts generalizing p with
  | nil => rfl
  | cons t ts ih =>
    obtain ⟨hfresh, hts⟩ := List.nodup_cons.mp hnodup
    rw [List.foldl_cons, ih hts, lookup_term, get?_insert]
    by_cases hn : name = t.1
    · have hnone : ts.lookup name = none := lookup_eq_none_iff.mpr (hn ▸ hfresh)
      simp [hn, hn ▸ hnone]
    · simp [hn]

/-- The form has the coefficients that the terms list, those that are zero left out. -/
def Collects (p : LinearForm) (ts : List (String × Rat)) : Prop :=
  ∀ name q, p.get? name = some q ↔ (name, q) ∈ ts ∧ q ≠ 0

theorem collects_ofTerms (hnodup : (ts.map (·.1)).Nodup) : (ofTerms ts).Collects ts := by
  intro name q
  rw [ofTerms, get?_foldl_insert hnodup, ← lookup_eq_some_iff_mem hnodup]
  cases ts.lookup name with
  | none => simp
  | some c =>
    by_cases hc : c = 0
    · simp +contextual [hc, eq_comm]
    · simp only [if_neg hc, Option.some.injEq]
      exact ⟨fun h => ⟨h, h ▸ hc⟩, And.left⟩

theorem collects_iff (hnodup : (ts.map (·.1)).Nodup) : p.Collects ts ↔ p = ofTerms ts := by
  have hts := collects_ofTerms hnodup
  constructor
  · exact fun h => ext_get? fun name => Option.ext fun q => (h name q).trans (hts name q).symm
  · rintro rfl
    exact hts

theorem Collects.reduced (h : p.Collects ts) : p.Reduced :=
  fun t ht => ((h t.1 t.2).mp (get?_eq_some_iff.mpr ht)).2

/-! ## Terms in a given order -/

theorem mem_orderedTerms_iff {t : String × Rat} : t ∈ p.orderedTerms order ↔ t ∈ p.terms := by
  obtain ⟨n, c⟩ := t
  rw [mem_orderedTerms, get?_eq_some_iff]
  by_cases hn : n ∈ order <;> simp [hn]

theorem termsIn_names (p : LinearForm) (order : List String) :
    (p.termsIn order).map (·.1) = order.filter p.contains := by
  induction order with
  | nil => rfl
  | cons n ns ih =>
    rw [termsIn] at ih ⊢
    cases h : p.get? n <;> simp [h, ih, contains]

theorem orderedTerms_nodup (ho : order.Nodup) : ((p.orderedTerms order).map (·.1)).Nodup := by
  rw [orderedTerms, List.map_append, termsIn_names]
  refine List.nodup_append.mpr ⟨ho.filter _, ?_, ?_⟩
  · exact p.names_nodup.sublist (List.filter_sublist.map _)
  · intro a ha b hb hab
    obtain ⟨t, ht, rfl⟩ := List.mem_map.mp hb
    have hnot : t.1 ∉ order := by simpa using (List.mem_filter.mp ht).2
    exact hnot (hab ▸ (List.mem_filter.mp ha).1)

theorem ofTerms_orderedTerms (hp : p.Reduced) (ho : order.Nodup) :
    ofTerms (p.orderedTerms order) = p := by
  have hnodup := orderedTerms_nodup (p := p) ho
  refine ((collects_iff hnodup).mp fun name q => ?_).symm
  rw [get?_eq_some_iff, mem_orderedTerms_iff]
  exact (and_iff_left_of_imp (hp (name, q))).symm

theorem orderedTerms_eq_nil : p.orderedTerms order = [] ↔ p = empty := by
  have hnil : p.orderedTerms order = [] ↔ p.terms = [] := by
    simp only [List.eq_nil_iff_forall_not_mem, mem_orderedTerms_iff]
  rw [hnil]
  cases p
  simp [empty]

end ExactSimplex.LinearForm
