import Mathlib.Algebra.BigOperators.Ring.List
import ExactSimplex.Proofs.LinearForm.Equality

/-! The operations on forms are those on the functions that they denote. Each is pinned down by
the coefficients of its result, and forms without stored zeros have nothing but their coefficients,
so the laws of sums and multiples are equations between forms. -/

namespace ExactSimplex.LinearForm

variable {p q : LinearForm} {name : String} {ts : List (String × Rat)}

/-! ## Coefficients -/

theorem coefficient_foldl_add (hnodup : (ts.map (·.1)).Nodup) (p : LinearForm) (name : String) :
    (ts.foldl (fun sum t => sum.insert t.1 (sum.coefficient t.1 + t.2)) p).coefficient name =
      p.coefficient name + (ts.lookup name).getD 0 := by
  induction ts generalizing p with
  | nil => simp
  | cons t ts ih =>
    obtain ⟨hfresh, hts⟩ := List.nodup_cons.mp hnodup
    rw [List.foldl_cons, ih hts, coefficient_insert, lookup_term]
    by_cases hn : name = t.1
    · have hnone : ts.lookup name = none := lookup_eq_none_iff.mpr (hn ▸ hfresh)
      simp [hn, hn ▸ hnone]
    · simp [hn]

theorem coefficient_add (p q : LinearForm) (name : String) :
    (p.add q).coefficient name = p.coefficient name + q.coefficient name :=
  coefficient_foldl_add q.names_nodup p name

theorem coefficient_foldl_insert (p : LinearForm) (ts : List (String × Rat)) (name : String) :
    (ts.foldl (fun p t => p.insert t.1 t.2) p).coefficient name =
      (ts.reverse.lookup name).getD (p.coefficient name) := by
  induction ts generalizing p with
  | nil => rfl
  | cons t ts ih =>
    rw [List.foldl_cons, ih, coefficient_insert, List.reverse_cons, List.lookup_append,
      lookup_term, List.lookup_nil]
    cases ts.reverse.lookup name with
    | some c => rfl
    | none => by_cases hn : name = t.1 <;> simp [hn]

/-- Of the coefficients listed for a name the last one counts. -/
theorem coefficient_ofTerms (ts : List (String × Rat)) (name : String) :
    (ofTerms ts).coefficient name = (ts.reverse.lookup name).getD 0 :=
  coefficient_foldl_insert empty ts name

/-! ## Values -/

/-- Some list of names has those of all the forms. -/
theorem exists_common_names (ps : List LinearForm) : ∃ order : List String,
    ∀ p ∈ ps, ∀ v, p.eval v = (order.map fun n => p.coefficient n * v n).sum := by
  refine ⟨(ps.flatMap names).dedup, fun p hp v => ?_⟩
  refine eval_eq_sum (List.nodup_dedup _) fun n hn => ?_
  exact List.mem_dedup.mpr (List.mem_flatMap.mpr ⟨p, hp, hn⟩)

theorem eval_add (p q : LinearForm) (v : String → Rat) :
    (p.add q).eval v = p.eval v + q.eval v := by
  obtain ⟨order, hsum⟩ := exists_common_names [p.add q, p, q]
  rw [hsum (p.add q) (by simp), hsum p (by simp), hsum q (by simp), ← List.sum_map_add]
  simp only [coefficient_add, add_mul]

theorem eval_scale (p : LinearForm) (k : Rat) (v : String → Rat) :
    (p.scale k).eval v = k * p.eval v := by
  obtain ⟨order, hsum⟩ := exists_common_names [p.scale k, p]
  rw [hsum (p.scale k) (by simp), hsum p (by simp), ← List.sum_map_mul_left]
  simp only [coefficient_scale, mul_assoc, mul_left_comm]

/-! ## Equations between forms -/

theorem Reduced.ext (hp : p.Reduced) (hq : q.Reduced)
    (h : ∀ name, p.coefficient name = q.coefficient name) : p = q :=
  (hp.eq_iff_eval_eq hq).mpr (eval_eq_iff.mpr h)

theorem eq_ofTerms_iff : p = ofTerms ts ↔
    p.Reduced ∧ ∀ name, p.coefficient name = (ts.reverse.lookup name).getD 0 := by
  constructor
  · rintro rfl
    exact ⟨ofTerms_reduced ts, coefficient_ofTerms ts⟩
  · rintro ⟨hp, h⟩
    exact hp.ext (ofTerms_reduced ts) fun name => (h name).trans (coefficient_ofTerms ts name).symm

theorem Reduced.add_comm (hp : p.Reduced) (hq : q.Reduced) : p.add q = q.add p := by
  refine (add_reduced hp q).ext (add_reduced hq p) fun name => ?_
  rw [coefficient_add, coefficient_add, Rat.add_comm]

/-- A form on the right can have stored zeros: they are not added. -/
theorem Reduced.add_assoc (hp : p.Reduced) (q r : LinearForm) :
    (p.add q).add r = p.add (q.add r) := by
  refine (add_reduced (add_reduced hp q) r).ext (add_reduced hp _) fun name => ?_
  simp only [coefficient_add, Rat.add_assoc]

theorem Reduced.add_scale_neg_one (hp : p.Reduced) : p.add (p.scale (-1)) = empty := by
  refine (add_reduced hp _).ext empty_reduced fun name => ?_
  rw [coefficient_add, coefficient_scale, mul_neg_one, add_neg_cancel]
  rfl

/-- Sums and multiples of forms denote the sums and multiples of functions, and collected terms the
last coefficient listed for each name. No operation leaves a zero behind, so sums commute and
associate, a form and its opposite cancel, and equality is that of the functions. -/
theorem operations_linear (hp : p.Reduced) (hq : q.Reduced) (r : LinearForm) (k : Rat) :
    (∀ v, (p.add q).eval v = p.eval v + q.eval v) ∧
    (∀ v, (p.scale k).eval v = k * p.eval v) ∧
    (∀ (ts : List (String × Rat)) (collected : LinearForm), collected = ofTerms ts ↔
      collected.Reduced ∧
        ∀ name, collected.coefficient name = (ts.reverse.lookup name).getD 0) ∧
    ((p.add q).Reduced ∧ (p.scale k).Reduced ∧ ∀ name c, (p.insert name c).Reduced) ∧
    p.add q = q.add p ∧
    (p.add q).add r = p.add (q.add r) ∧
    p.add (p.scale (-1)) = empty ∧
    (p = q ↔ ∀ v, p.eval v = q.eval v) :=
  ⟨eval_add p q, eval_scale p k, fun _ _ => eq_ofTerms_iff,
    ⟨add_reduced hp q, scale_reduced p k, insert_reduced hp⟩, hp.add_comm hq, hp.add_assoc q r,
    hp.add_scale_neg_one, hp.eq_iff_eval_eq hq⟩

/-- The halves of `x1` cancel, so that the sums of these forms have no term with it. -/
theorem operations_linear_halves :
    let p := ofTerms [("x2", 1), ("x1", 3), ("x1", 1 / 2)]
    let q := ofTerms [("x1", -1 / 2), ("x3", 3)]
    p.Reduced ∧ q.Reduced ∧ p.add q = ofTerms [("x2", 1), ("x3", 3)] ∧ p.add q = q.add p ∧
      (p.add q).add p = p.add (q.add p) ∧ p.add (p.scale (-1)) = empty ∧
      ¬ ∀ v, p.eval v = q.eval v := by
  intro p q
  have hp : p.Reduced := by decide +kernel
  have hq : q.Reduced := by decide +kernel
  obtain ⟨-, -, -, -, hcomm, hassoc, hcancel, heq⟩ := operations_linear hp hq p 1
  exact ⟨hp, hq, by decide +kernel, hcomm, hassoc, hcancel, heq.not.mp (by decide +kernel)⟩

end ExactSimplex.LinearForm
