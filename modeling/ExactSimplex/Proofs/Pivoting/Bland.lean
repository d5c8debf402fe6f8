import Mathlib.Algebra.Order.BigOperators.Group.Finset
import Mathlib.Data.Fintype.Pi
import Mathlib.Data.Fintype.Pigeonhole
import Mathlib.Order.OrderIsoNat
import ExactSimplex.Proofs.Pivoting.Exchange

/-! Bland's rule does not cycle. In a cycle no pivot moves the basic solution. Take the last
column that ever enters, a tableau `D` in which it leaves for an earlier column `s`, and a
tableau `E` in which it enters. Raising `s` in `D` solves the rows of `E`; comparing what
row 0 of `E` says of two heights of `s` finds a row of `D` that is tied with the leaving
one and has an earlier basic column, which the rule would have taken. -/

namespace ExactSimplex.Tableau

/-! ## Sequences of numbers -/

/-- What holds at one point and not at a later one stops holding somewhere between. -/
theorem exists_last_before {P : Nat → Prop} {a b : Nat} (hab : a ≤ b) (ha : P a) (hb : ¬ P b) :
    ∃ k, a ≤ k ∧ P k ∧ ¬ P (k + 1) := by
  induction b, hab using Nat.le_induction with
  | base => exact absurd ha hb
  | succ b hab ih =>
    by_cases h : P b
    · exact ⟨b, hab, h, hb⟩
    · exact ih h

theorem eq_of_le_succ_of_periodic {f : Nat → Rat} {n : Nat} (hf : ∀ k, f k ≤ f (k + 1))
    (hn : 0 < n) (hp : ∀ k, f (k + n) = f k) (k : Nat) : f (k + 1) = f k := by
  have hmono := monotone_nat_of_le_succ hf
  have hle : f (k + 1) ≤ f (k + n) := hmono (by omega)
  rw [hp k] at hle
  exact le_antisymm hle (hf k)

/-! ## Cycles -/

/-- A cycle of pivots under Bland's rule: the tableaux, with the entering columns and the
leaving rows that lead from each to the next. -/
structure BlandCycle (run : Nat → Tableau) (q r : Nat → Nat) (n : Nat) : Prop where
  canonical : (run 0).Canonical
  enters : ∀ k, (run k).Enters .bland (q k)
  leaves : ∀ k, (run k).Leaves .bland (q k) (r k)
  next : ∀ k, run (k + 1) = (run k).exchange (r k) (q k)
  pos : 0 < n
  periodic : ∀ k, run (k + n) = run k

namespace BlandCycle

variable {run : Nat → Tableau} {q r : Nat → Nat} {n i j k : Nat}

theorem reaches (h : BlandCycle run q r n) (k : Nat) : (run 0).Reaches (run k) := by
  induction k with
  | zero => exact .refl h.canonical
  | succ k ih =>
    rw [h.next k]
    exact ih.exchange (h.enters k).lt (h.leaves k)

theorem run_add_mul (h : BlandCycle run q r n) (k m : Nat) : run (k + n * m) = run k := by
  induction m with
  | zero => rw [Nat.mul_zero, Nat.add_zero]
  | succ m ih => rw [Nat.mul_succ, ← Nat.add_assoc, h.periodic, ih]

/-- Every tableau comes up again after any point. -/
theorem exists_later (h : BlandCycle run q r n) (k b : Nat) : ∃ k', b ≤ k' ∧ run k' = run k :=
  ⟨k + n * b, by have := Nat.le_mul_of_pos_left b h.pos; omega, h.run_add_mul k b⟩

/-- No pivot of a cycle moves. -/
theorem rhs_leaving_eq_zero (h : BlandCycle run q r n) (k : Nat) : (run k).rhs (r k) = 0 := by
  have hsign : ∀ k, (run (k + 1)).direction.sign = (run k).direction.sign := by
    intro k
    rw [h.next k, exchange_direction]
  have hle : ∀ k, (run k).direction.sign * (run k).rhs 0 ≤
      (run (k + 1)).direction.sign * (run (k + 1)).rhs 0 := by
    intro k
    rw [hsign, h.next k]
    exact sign_mul_rhs_zero_le (h.reaches k).canonical (h.enters k) (h.leaves k)
  have heq := eq_of_le_succ_of_periodic
    (f := fun k => (run k).direction.sign * (run k).rhs 0) hle h.pos
    (fun k => by rw [h.periodic k]) k
  simp only [hsign] at heq
  rw [h.next k] at heq
  exact rhs_eq_zero_of_objective_eq (h.reaches k).canonical (h.enters k) (h.leaves k) heq

theorem rhs_eq (h : BlandCycle run q r n) (hi : i < (run 0).rows.length) (k : Nat) :
    (run k).rhs i = (run 0).rhs i := by
  induction k with
  | zero => rfl
  | succ k ih =>
    rw [h.next k, rhs_exchange_of_rhs_eq_zero (h.reaches k).canonical (h.enters k).lt
      (h.leaves k) (h.rhs_leaving_eq_zero k) ((h.reaches k).rows ▸ hi), ih]

theorem basicColumn?_succ (h : BlandCycle run q r n) (k i : Nat) :
    (run (k + 1)).basicColumn? i =
      if i = r k then some (q k) else (run k).basicColumn? i := by
  rw [h.next k]
  exact exchange_basicColumn? (h.reaches k).canonical (h.enters k) (h.leaves k)

/-- A column that is basic in a row at one point and not at another leaves that row. -/
theorem exists_leaves (h : BlandCycle run q r n) {a b : Nat}
    (ha : (run a).basicColumn? i = some j) (hb : (run b).basicColumn? i ≠ some j) :
    ∃ k, (run k).basicColumn? i = some j ∧ r k = i := by
  obtain ⟨b', hab, hb'⟩ := h.exists_later b a
  rw [← hb'] at hb
  obtain ⟨k, -, hk, hk1⟩ := exists_last_before
    (P := fun k => (run k).basicColumn? i = some j) hab ha hb
  refine ⟨k, hk, ?_⟩
  by_contra hne
  rw [h.basicColumn?_succ, if_neg (Ne.symm hne)] at hk1
  exact hk1 hk

/-- A column that is basic in a row at one point and not at another enters that row. -/
theorem exists_enters (h : BlandCycle run q r n) {a b : Nat}
    (ha : (run a).basicColumn? i = some j) (hb : (run b).basicColumn? i ≠ some j) :
    ∃ k, q k = j := by
  obtain ⟨a', hba, ha'⟩ := h.exists_later a b
  rw [← ha'] at ha
  obtain ⟨k, -, hk, hk1⟩ := exists_last_before
    (P := fun k => (run k).basicColumn? i ≠ some j) hba hb (not_not.mpr ha)
  refine ⟨k, ?_⟩
  rw [not_not, h.basicColumn?_succ] at hk1
  split at hk1
  · exact Option.some.inj hk1
  · exact absurd hk1 hk

/-- Of the columns that enter there is a last one. -/
theorem exists_last_entering (h : BlandCycle run q r n) : ∃ e, ∀ k, q k ≤ q e := by
  have hbound : ∀ k, q k ≤ (run 0).rhsColumn := by
    intro k
    have := (h.enters k).lt
    rw [(h.reaches k).rhsColumn] at this
    exact le_of_lt this
  have hfound : ∃ m, (∃ e, q e = m) ∧ ∀ k, q k ≤ m := by
    have hex : ∃ m, ∀ k, q k ≤ m := ⟨_, hbound⟩
    classical
    refine ⟨Nat.find hex, ?_, Nat.find_spec hex⟩
    by_contra hne
    have hlt : ∀ k, q k ≤ Nat.find hex - 1 := by
      intro k
      have hle := Nat.find_spec hex k
      have hneq : q k ≠ Nat.find hex := fun he => hne ⟨k, he⟩
      omega
    have hpos : 0 < Nat.find hex := lt_of_lt_of_le (h.enters 0).pos (Nat.find_spec hex 0)
    have := Nat.find_min' hex hlt
    omega
  obtain ⟨m, ⟨e, rfl⟩, hm⟩ := hfound
  exact ⟨e, hm⟩

/-- Where the last entering column leaves again. -/
theorem exists_leaves_last (h : BlandCycle run q r n) (e : Nat) :
    ∃ d, (run d).basicColumn? (r d) = some (q e) := by
  have hin : (run (e + 1)).basicColumn? (r e) = some (q e) := by
    rw [h.basicColumn?_succ, if_pos rfl]
  have hout : (run e).basicColumn? (r e) ≠ some (q e) :=
    (h.enters e).basicColumn?_ne (h.leaves e).pos (h.leaves e).lt
  obtain ⟨d, hd, hrow⟩ := h.exists_leaves hin hout
  exact ⟨d, hrow ▸ hd⟩

end BlandCycle

/-! ## Two tableaux of a cycle -/

/-- The reduced costs of one tableau weigh the entries of another with the same solutions:
raising a column changes the basic columns by its entries, and row 0 holds throughout. -/
theorem Canonical.sum_cost_mul_entry {t u : Tableau} (ht : t.Canonical)
    (hcols : u.columns = t.columns) (hrows : 0 < u.rows.length)
    (hsol : ∀ x, u.SolvedBy x ↔ t.SolvedBy x) {s : Nat} (hs : s < t.rhsColumn) :
    u.entry 0 s =
      ∑ i ∈ Finset.range t.rows.length, u.entry 0 (t.basicCol i) * t.entry i s := by
  have hcol : u.rhsColumn = t.rhsColumn := by simp only [rhsColumn, hcols]
  have hrow : ∀ θ : Rat, u.entry 0 s * θ + ∑ i ∈ Finset.range t.rows.length,
      u.entry 0 (t.basicCol i) * (t.rhs i - t.entry i s * θ) = u.rhs 0 := by
    intro θ
    rw [← ht.sum_mul_raised hs, ← hcol]
    exact (hsol _).mpr (ht.raised_solves hs θ) 0 hrows
  have hsplit : ∑ i ∈ Finset.range t.rows.length,
        u.entry 0 (t.basicCol i) * (t.rhs i - t.entry i s * 1) =
      (∑ i ∈ Finset.range t.rows.length, u.entry 0 (t.basicCol i) * (t.rhs i - t.entry i s * 0)) -
        ∑ i ∈ Finset.range t.rows.length, u.entry 0 (t.basicCol i) * t.entry i s := by
    rw [← Finset.sum_sub_distrib]
    exact Finset.sum_congr rfl fun i _ => by ring
  have h0 := hrow 0
  have h1 := hrow 1
  rw [hsplit] at h1
  linarith

/-- Where a column improves one tableau and not another, some constraint row of the first
weighs in against the objective. -/
theorem Canonical.exists_opposed_row {t u : Tableau} (ht : t.Canonical) (hu : u.Canonical)
    (hcols : u.columns = t.columns) (hrows : u.rows.length = t.rows.length)
    (hsol : ∀ x, u.SolvedBy x ↔ t.SolvedBy x) {s : Nat} (hs : s < t.rhsColumn)
    (hm : 0 < t.rows.length) (himp : t.direction.sign * t.entry 0 s < 0)
    (hnot : 0 ≤ t.direction.sign * u.entry 0 s) :
    ∃ i, 0 < i ∧ i < t.rows.length ∧
      0 < t.direction.sign * (u.entry 0 (t.basicCol i) * t.entry i s) := by
  by_contra hnone
  push Not at hnone
  have hsum := ht.sum_cost_mul_entry hcols (hrows ▸ hm) hsol hs
  obtain ⟨m, hlen⟩ := Nat.exists_eq_succ_of_ne_zero (Nat.ne_of_gt hm)
  -- row 0 gives the cost in the first tableau, and no other row adds to it
  rw [hlen, Finset.sum_range_succ', ht.basicCol_zero (by omega), hu.entry_zero (hrows ▸ hm),
    if_pos rfl, one_mul] at hsum
  have hrest : ∑ i ∈ Finset.range m, t.direction.sign *
      (u.entry 0 (t.basicCol (i + 1)) * t.entry (i + 1) s) ≤ 0 :=
    Finset.sum_nonpos fun i hi =>
      hnone (i + 1) (by omega) (by have := Finset.mem_range.mp hi; omega)
  rw [← Finset.mul_sum] at hrest
  rw [hsum, mul_add] at hnot
  linarith

namespace BlandCycle

variable {run : Nat → Tableau} {q r : Nat → Nat} {n i j d e : Nat}

theorem rows_eq (h : BlandCycle run q r n) (k m : Nat) :
    (run k).rows.length = (run m).rows.length :=
  (h.reaches k).rows.trans (h.reaches m).rows.symm

theorem direction_eq (h : BlandCycle run q r n) (k m : Nat) :
    (run k).direction = (run m).direction :=
  (h.reaches k).direction.trans (h.reaches m).direction.symm

theorem solvedBy_iff (h : BlandCycle run q r n) (k m : Nat) (x : Nat → Rat) :
    (run k).SolvedBy x ↔ (run m).SolvedBy x :=
  ((h.reaches k).solutions x).trans ((h.reaches m).solutions x).symm

/-- No column before the entering one improves, by the rule. -/
theorem cost_nonneg (h : BlandCycle run q r n) (d e : Nat) (h0 : 0 < j) (hj : j < q e) :
    0 ≤ (run d).direction.sign * (run e).entry 0 j := by
  rw [h.direction_eq d e, ← improves_eq_false_iff]
  refine Bool.eq_false_iff.mpr ?_
  intro himp
  obtain ⟨hrule, -⟩ := (h.enters e).first j h0 hj himp
  cases hrule

/-- Where a column leaves that later enters as the last one, some constraint row weighs in
against the objective. -/
theorem exists_opposed (h : BlandCycle run q r n) (hlast : ∀ k, q k ≤ q e)
    (hd : (run d).basicColumn? (r d) = some (q e)) :
    ∃ i, 0 < i ∧ i < (run d).rows.length ∧ 0 < (run d).direction.sign *
      ((run e).entry 0 ((run d).basicCol i) * (run d).entry i (q d)) := by
  -- the leaving column is basic, so the column that enters there comes before it
  have hbefore : q d < q e := by
    refine lt_of_le_of_ne (hlast d) ?_
    intro heq
    exact (h.enters d).basicColumn?_ne (h.leaves d).pos (h.leaves d).lt (heq ▸ hd)
  exact (h.reaches d).canonical.exists_opposed_row (h.reaches e).canonical
    ((h.reaches e).columns.trans (h.reaches d).columns.symm) (h.rows_eq e d)
    (h.solvedBy_iff e d) (h.enters d).lt (by have := (h.leaves d).lt; omega)
    (improves_iff.mp (h.enters d).improves) (h.cost_nonneg d e (h.enters d).pos hbefore)

/-- The row of a column that comes and goes is at zero throughout. -/
theorem rhs_eq_zero (h : BlandCycle run q r n) {a b : Nat} (hi : i < (run a).rows.length)
    (ha : (run a).basicColumn? i = some j) (hb : (run b).basicColumn? i ≠ some j) :
    (run a).rhs i = 0 := by
  obtain ⟨m, -, hrm⟩ := h.exists_leaves ha hb
  have hi0 : i < (run 0).rows.length := h.rows_eq a 0 ▸ hi
  rw [h.rhs_eq hi0 a, ← h.rhs_eq hi0 m, ← hrm]
  exact h.rhs_leaving_eq_zero m

/-- The leaving row itself weighs in for the objective, so an opposed row is another one. -/
theorem not_opposed (h : BlandCycle run q r n) : ¬ 0 < (run d).direction.sign *
    ((run e).entry 0 (q e) * (run d).entry (r d) (q d)) := by
  have hcost := improves_iff.mp (h.enters e).improves
  rw [h.direction_eq e d] at hcost
  have hneg := mul_pos_of_neg_of_neg hcost (neg_neg_of_pos (h.leaves d).entry_pos)
  intro hpos
  linarith

theorem false (h : BlandCycle run q r n) : False := by
  obtain ⟨e, hlast⟩ := h.exists_last_entering
  obtain ⟨d, hd⟩ := h.exists_leaves_last e
  obtain ⟨i, h0, hi, hpos⟩ := h.exists_opposed hlast hd
  have hD := (h.reaches d).canonical
  have hn : 0 < (run d).rhsColumn := by have := (h.enters d).lt; omega
  have hb := hD.basicColumn?_eq hn hi
  -- the basic column of the opposed row has a cost in `E`, so it comes and goes
  have hcost : (run e).entry 0 ((run d).basicCol i) ≠ 0 := by
    intro hz
    rw [hz, zero_mul, mul_zero] at hpos
    exact lt_irrefl _ hpos
  have hout := basicColumn?_ne_of_cost h0 (h.rows_eq d e ▸ hi) hcost
  obtain ⟨k, hk⟩ := h.exists_enters hb hout
  have hne : (run d).basicCol i ≠ q e := by
    intro heq
    rw [heq] at hb hpos
    rw [basicColumn?_injective hi hb hd] at hpos
    exact h.not_opposed hpos
  have hlt : (run d).basicCol i < q e := lt_of_le_of_ne (hk ▸ hlast k) hne
  have hentry : 0 < (run d).entry i (q d) := by
    rw [← mul_assoc] at hpos
    exact pos_of_mul_pos_right hpos (h.cost_nonneg d e (hD.basicCol_pos h0 hi hn) hlt)
  -- the row is tied at ratio zero with the one that the rule took, and it comes before
  have htied : (run d).Tied (q d) (r d) i :=
    ⟨h0, hi, hentry, by rw [h.rhs_eq_zero hi hb hout, h.rhs_leaving_eq_zero, zero_div, zero_div]⟩
  have hle := (h.leaves d).firstBasic rfl i htied
  have hbd : (run d).basicCol (r d) = q e := by simp [basicCol, hd]
  omega

end BlandCycle

/-! ## Runs do not repeat and end -/

theorem reaches_of_exchanges {ts : Nat → Tableau} {rule : PivotRule} {n : Nat}
    (hc : (ts 0).Canonical) (hstep : ∀ k, k < n → Exchanges rule (ts k) (ts (k + 1))) :
    ∀ k, k ≤ n → (ts 0).Reaches (ts k) := by
  intro k
  induction k with
  | zero => intro _; exact .refl hc
  | succ k ih => intro hk; exact (ih (by omega)).exchanges (hstep k (by omega))

/-- Under Bland's rule no tableau comes up twice. -/
theorem exchanges_injective {ts : Nat → Tableau} {n i j : Nat} (hc : (ts 0).Canonical)
    (hstep : ∀ k, k < n → Exchanges .bland (ts k) (ts (k + 1))) (hij : i < j) (hj : j ≤ n) :
    ts i ≠ ts j := by
  intro heq
  have hcan := (reaches_of_exchanges hc hstep i (by omega)).canonical
  choose! q r he hl hnext using hstep
  have hmod : ∀ k, k % (j - i) < j - i := fun k => Nat.mod_lt _ (by omega)
  suffices h : BlandCycle (fun k => ts (i + k % (j - i))) (fun k => q (i + k % (j - i)))
      (fun k => r (i + k % (j - i))) (j - i) from h.false
  refine ⟨by simpa using hcan, fun k => ?_, fun k => ?_, fun k => ?_, by omega, fun k => ?_⟩
  · exact he _ (by have := hmod k; omega)
  · exact hl _ (by have := hmod k; omega)
  · have hk := hmod k
    rw [← hnext _ (by omega)]
    -- the last tableau of the cycle leads to the first again
    rcases Nat.lt_or_ge (k % (j - i) + 1) (j - i) with hlt | hge
    · rw [← Nat.mod_add_mod, Nat.mod_eq_of_lt hlt, Nat.add_assoc]
    · have hzero : (k + 1) % (j - i) = 0 := by
        rw [← Nat.mod_add_mod, show k % (j - i) + 1 = j - i by omega, Nat.mod_self]
      rw [hzero, Nat.add_zero, heq]
      congr 1
      omega
  · rw [Nat.add_mod_right]

/-- Bases tell the tableaux of one start apart, so there are finitely many. -/
theorem finite_reaches {start : Tableau} (hn : 0 < start.rhsColumn) :
    Finite {t // start.Reaches t} := by
  let basis : {t // start.Reaches t} → Fin start.rows.length → Fin start.rhsColumn :=
    fun t i => ⟨t.1.basicCol i, by
      have hi : i.1 < t.1.rows.length := by rw [t.2.rows]; exact i.2
      have := t.2.canonical.basicCol_lt (t.2.rhsColumn ▸ hn) hi
      rwa [t.2.rhsColumn] at this⟩
  refine Finite.of_injective basis fun t u h => Subtype.ext ?_
  refine u.2.eq_of_basis t.2 hn ?_
  intro i hi
  have hcol : t.1.basicCol i = u.1.basicCol i :=
    congrArg Fin.val (congrFun h ⟨i, hi⟩)
  rw [t.2.canonical.basicColumn?_eq (t.2.rhsColumn ▸ hn) (t.2.rows ▸ hi),
    u.2.canonical.basicColumn?_eq (u.2.rhsColumn ▸ hn) (u.2.rows ▸ hi), hcol]

/-- From a canonical start there is no endless sequence of pivots under Bland's rule. -/
theorem exchanges_wellFounded (start : Tableau) :
    WellFounded fun u t : {t // start.Reaches t} => Exchanges .bland t.1 u.1 := by
  refine wellFounded_iff_isEmpty_descending_chain.mpr ⟨fun ⟨ts, hts⟩ => ?_⟩
  have hn : 0 < start.rhsColumn := by
    obtain ⟨q, -, he, -⟩ := hts 0
    have := he.lt
    rw [(ts 0).2.rhsColumn] at this
    omega
  have := finite_reaches hn
  obtain ⟨i, j, hne, heq⟩ := Finite.exists_ne_map_eq_of_infinite ts
  have hdiff : ∀ i j, i < j → ts i ≠ ts j := by
    intro i j hij he
    have hts' : ∀ k, k < j → Exchanges .bland (ts k).1 (ts (k + 1)).1 := fun k _ => hts k
    exact exchanges_injective (ts 0).2.canonical hts' hij (le_refl j) (congrArg Subtype.val he)
  rcases lt_or_gt_of_ne hne with h | h
  · exact hdiff i j h heq
  · exact hdiff j i h heq.symm

end ExactSimplex.Tableau
