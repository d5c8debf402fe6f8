import ExactSimplex.Proofs.Pivoting.Selection

/-! What the two choices of a pivot come to, in terms of entries. The entering column
improves the objective and comes first in the order of its rule. The leaving row has a
positive entry and the least ratio, and comes first among tied rows in the order of its
rule; without a positive entry below row 0 the problem is unbounded. -/

namespace ExactSimplex

namespace Tableau

/-- Column `q` enters under a rule: it improves, Bland's rule passes over no improving column
before it, and Dantzig's rule passes over less steep ones before it and finds none that is
steeper. -/
structure Enters (t : Tableau) (rule : PivotRule) (q : Nat) : Prop where
  pos : 0 < q
  lt : q < t.rhsColumn
  improves : t.improves (t.entry 0 q) = true
  first : ∀ j, 0 < j → j < q → t.improves (t.entry 0 j) = true →
    rule = .dantzig ∧ (t.entry 0 j).abs < (t.entry 0 q).abs
  steepest : rule = .dantzig → ∀ j, 0 < j → j < t.rhsColumn →
    t.improves (t.entry 0 j) = true → (t.entry 0 j).abs ≤ (t.entry 0 q).abs

/-- Row `i` binds column `q` with the ratio of row `r`. -/
structure Tied (t : Tableau) (q r i : Nat) : Prop where
  pos : 0 < i
  lt : i < t.rows.length
  entry_pos : 0 < t.entry i q
  ratio_eq : t.rhs i / t.entry i q = t.rhs r / t.entry r q

/-- Row `r` leaves for column `q` under a rule: it has the least ratio of the rows that bind
the column, and of tied rows it is the first, or the one whose basic column comes first. -/
structure Leaves (t : Tableau) (rule : PivotRule) (q r : Nat) : Prop where
  pos : 0 < r
  lt : r < t.rows.length
  entry_pos : 0 < t.entry r q
  least : ∀ i, 0 < i → i < t.rows.length → 0 < t.entry i q →
    t.rhs r / t.entry r q ≤ t.rhs i / t.entry i q
  firstRow : rule = .dantzig → ∀ i, t.Tied q r i → r ≤ i
  firstBasic : rule = .bland → ∀ i, t.Tied q r i → t.basicCol r ≤ t.basicCol i

end Tableau

/-! ## The entering column -/

namespace Tableau

variable {t : Tableau} {rule : PivotRule} {i j k q r : Nat}

theorem improvesAt_iff (ht : t.Rectangular) (hm : 0 < t.rows.length) {cost : Rat} :
    t.ImprovesAt j cost ↔
      0 < j ∧ j < t.rhsColumn ∧ t.improves (t.entry 0 j) = true ∧ cost = t.entry 0 j := by
  constructor
  · rintro ⟨h0, hlt, hcell, hsign⟩
    rw [cell?_eq_entry ht hm (lt_columns_length hlt), Option.some.injEq] at hcell
    exact ⟨h0, hlt, hcell ▸ improves_iff_sign.mpr hsign, hcell.symm⟩
  · rintro ⟨h0, hlt, himp, rfl⟩
    exact ⟨h0, hlt, cell?_eq_entry ht hm (lt_columns_length hlt), improves_iff_sign.mp himp⟩

/-- A tableau is optimal when no decision column improves the objective. -/
theorem isOptimal_iff (ht : t.Rectangular) (hm : 0 < t.rows.length) :
    t.isOptimal = true ↔
      ∀ j, 0 < j → j < t.rhsColumn → t.improves (t.entry 0 j) = false := by
  simp only [isOptimal_iff_improvesAt, improvesAt_iff ht hm, ← Bool.not_eq_true]
  exact ⟨fun h j h0 hlt himp => h j _ ⟨h0, hlt, himp, rfl⟩,
    fun h j _ hj => h j hj.1 hj.2.1 hj.2.2.1⟩

theorem Picks.enters (ht : t.Rectangular) {cost : Rat} (h : t.Picks rule q cost) :
    t.Enters rule q ∧ cost = t.entry 0 q := by
  have hm : 0 < t.rows.length := by
    refine Nat.pos_of_ne_zero fun hz => ?_
    simpa [cell?, List.eq_nil_of_length_eq_zero hz] using h.improves.cell
  obtain ⟨h0, hlt, himp, rfl⟩ := (improvesAt_iff ht hm).mp h.improves
  have hat : ∀ j, 0 < j → j < t.rhsColumn → t.improves (t.entry 0 j) = true →
      t.ImprovesAt j (t.entry 0 j) := fun j hj hjn hji =>
    (improvesAt_iff ht hm).mpr ⟨hj, hjn, hji, rfl⟩
  refine ⟨⟨h0, hlt, himp, ?_, fun hd j hj hjn hji => h.steepest hd _ _ (hat j hj hjn hji)⟩, rfl⟩
  intro j hj hjq hji
  have hj := hat j hj (by omega) hji
  cases rule with
  | bland => exact absurd (h.first rfl _ _ hj) (by omega)
  | dantzig =>
    refine ⟨rfl, lt_of_le_of_ne (h.steepest rfl _ _ hj) fun heq => ?_⟩
    exact absurd (h.firstSteepest rfl _ _ hj heq) (by omega)

theorem entering?_spec (ht : t.Rectangular) {name : String} {cost : Rat}
    (h : t.entering? rule = some (name, cost)) :
    ∃ q, t.Enters rule q ∧ name = t.columnName q ∧ cost = t.entry 0 q := by
  obtain ⟨q, hpicks, hname⟩ := entering?_picks h
  obtain ⟨he, hcost⟩ := hpicks.enters ht
  exact ⟨q, he, hname, hcost⟩

/-! ## The leaving row -/

theorem rowRatio_eq_finite {a b x : Rat} :
    rowRatio i a b = .finite x ↔ 0 < i ∧ 0 < a ∧ b / a = x := by
  unfold rowRatio
  by_cases h : 0 < i ∧ 0 < a
  · simp [h]
  · simp only [if_neg h, reduceCtorEq, false_iff]
    exact fun hx => h ⟨hx.1, hx.2.1⟩

theorem rowRatio_eq_infinite {a b : Rat} :
    rowRatio i a b = .infinite ↔ ¬ (0 < i ∧ 0 < a) := by
  unfold rowRatio
  by_cases h : 0 < i ∧ 0 < a <;> simp [h]

/-- Nothing limits the column exactly when no row below row 0 has a positive entry. -/
theorem minimum_ratioList_eq_infinite :
    Ratio.minimum (t.ratioList q) = .infinite ↔
      ∀ i, 0 < i → i < t.rows.length → t.entry i q ≤ 0 := by
  constructor
  · intro h i h0 hi
    refine not_lt.mp ?_
    intro hpos
    have hle := Ratio.minimum_le (mem_ratioList.mpr ⟨i, hi, rfl⟩ : _ ∈ t.ratioList q)
    rw [h, rowRatio_eq_finite.mpr ⟨h0, hpos, rfl⟩] at hle
    cases hle
  · intro h
    by_contra hne
    obtain ⟨i, hi, he⟩ := mem_ratioList.mp (Ratio.minimum_mem hne)
    rw [← he, rowRatio_eq_infinite, not_not] at hne
    exact absurd (h i hne.1 hi) (not_le.mpr hne.2)

theorem rankBefore_trans_neg {a b c : Option Nat} (hab : rankBefore a b = false)
    (hbc : rankBefore b c = false) : rankBefore a c = false := by
  cases a <;> cases b <;> cases c <;> simp_all [rankBefore]
  omega

/-- The scan for the lowest rank ends with a row that no row comes before. -/
theorem foldl_rank_spec (rows : List Nat) (best : Nat) :
    let last := rows.foldl (fun best j =>
      if rankBefore (t.basicRank? j) (t.basicRank? best) then j else best) best
    last ∈ best :: rows ∧
      ∀ i ∈ best :: rows, rankBefore (t.basicRank? i) (t.basicRank? last) = false := by
  induction rows generalizing best with
  | nil => cases h : t.basicRank? best <;> simp [rankBefore, h]
  | cons j rows ih =>
    simp only [List.foldl_cons]
    by_cases hj : rankBefore (t.basicRank? j) (t.basicRank? best) = true
    · obtain ⟨hmem, hmin⟩ := ih j
      simp only [hj, if_true]
      refine ⟨List.mem_cons_of_mem _ hmem, ?_⟩
      intro i hi
      rcases List.mem_cons.mp hi with rfl | hi
      · refine rankBefore_trans_neg ?_ (hmin j (by simp))
        cases hb : t.basicRank? i <;> cases hc : t.basicRank? j <;>
          simp_all [rankBefore]
        omega
      · exact hmin i hi
    · obtain ⟨hmem, hmin⟩ := ih best
      simp only [hj, Bool.false_eq_true, if_false]
      refine ⟨?_, ?_⟩
      · rcases List.mem_cons.mp hmem with h | h
        · rw [h]; simp
        · exact List.mem_cons_of_mem _ (List.mem_cons_of_mem _ h)
      · intro i hi
        rcases List.mem_cons.mp hi with rfl | hi
        · exact hmin i (by simp)
        · rcases List.mem_cons.mp hi with rfl | hi
          · exact rankBefore_trans_neg (Bool.not_eq_true _ ▸ hj) (hmin best (by simp))
          · exact hmin i (by simp [hi])

theorem pickRow?_spec {rows : List Nat} (h : t.pickRow? rule rows = some r) :
    r ∈ rows ∧ (rule = .dantzig → rows.head? = some r) ∧
      (rule = .bland →
        ∀ i ∈ rows, rankBefore (t.basicRank? i) (t.basicRank? r) = false) := by
  cases rows with
  | nil => simp [pickRow?] at h
  | cons i rows =>
    cases rule with
    | dantzig =>
      simp only [pickRow?, Option.some.injEq] at h
      simp [h]
    | bland =>
      simp only [pickRow?, Option.some.injEq] at h
      obtain ⟨hmem, hmin⟩ := foldl_rank_spec (t := t) rows i
      rw [h] at hmem hmin
      exact ⟨hmem, nofun, fun _ => hmin⟩

theorem tiedRows_sorted (ratios : List Ratio) (least : Ratio) :
    (tiedRows ratios least).Pairwise (· < ·) := by
  have hsub : (tiedRows ratios least).Sublist (ratios.zipIdx.map (·.2)) :=
    List.filter_sublist.map _
  rw [List.zipIdx_map_snd] at hsub
  exact (List.pairwise_lt_range' 1).sublist hsub

theorem pickRow?_isSome (rule : PivotRule) {rows : List Nat} (h : rows ≠ []) :
    ∃ r, t.pickRow? rule rows = some r := by
  cases rows with
  | nil => exact absurd rfl h
  | cons i rows => cases rule <;> exact ⟨_, rfl⟩

theorem chooseLeaving_spec (rule : PivotRule) (q : Nat) (ht : t.Based) :
    (t.chooseLeaving rule (t.ratioList q) = .ok .unbounded ∧
      ∀ i, 0 < i → i < t.rows.length → t.entry i q ≤ 0) ∨
    ∃ r, t.Leaves rule q r ∧ t.chooseLeaving rule (t.ratioList q) =
      .ok (.leaves r (t.columnName (t.basicCol r)) (.finite (t.rhs r / t.entry r q))) := by
  by_cases hmin : Ratio.minimum (t.ratioList q) = .infinite
  · exact .inl ⟨by simp [chooseLeaving, hmin], minimum_ratioList_eq_infinite.mp hmin⟩
  right
  obtain ⟨r, hr⟩ := pickRow?_isSome (t := t) rule (tiedRows_ne_nil hmin)
  obtain ⟨hmem, hhead, hrank⟩ := pickRow?_spec hr
  -- every tied row binds and has the least ratio
  have htied : ∀ i, i ∈ tiedRows (t.ratioList q) (Ratio.minimum (t.ratioList q)) ↔
      i < t.rows.length ∧ rowRatio i (t.entry i q) (t.rhs i) = Ratio.minimum (t.ratioList q) := by
    intro i
    rw [mem_tiedRows]
    constructor
    · intro h
      have hi : i < t.rows.length := by
        obtain ⟨this, -⟩ := List.getElem?_eq_some_iff.mp h
        simpa [ratioList] using this
      rw [ratioList_getElem? hi, Option.some.injEq] at h
      exact ⟨hi, h⟩
    · rintro ⟨hi, h⟩
      rw [ratioList_getElem? hi, h]
  obtain ⟨hlt, hratio⟩ := (htied r).mp hmem
  obtain ⟨x, hx⟩ : ∃ x, Ratio.minimum (t.ratioList q) = .finite x := by
    cases h : Ratio.minimum (t.ratioList q) with
    | finite x => exact ⟨x, rfl⟩
    | infinite => exact absurd h hmin
  obtain ⟨hpos, hentry, hval⟩ := rowRatio_eq_finite.mp (hratio.trans hx)
  have hbind : ∀ i, t.Tied q r i →
      i ∈ tiedRows (t.ratioList q) (Ratio.minimum (t.ratioList q)) := fun i hi =>
    (htied i).mpr ⟨hi.lt, by
      rw [hx, ← hval]; exact rowRatio_eq_finite.mpr ⟨hi.pos, hi.entry_pos, hi.ratio_eq⟩⟩
  refine ⟨r, ⟨hpos, hlt, hentry, ?_, ?_, ?_⟩, ?_⟩
  · intro i h0 hi he
    have hle := Ratio.minimum_le (mem_ratioList.mpr ⟨i, hi, rfl⟩ : _ ∈ t.ratioList q)
    rw [hx, rowRatio_eq_finite.mpr ⟨h0, he, rfl⟩, ← hval] at hle
    simpa [Ratio.le] using hle
  · intro hd i hi
    obtain ⟨rest, hrest⟩ := List.head?_eq_some_iff.mp (hhead hd)
    have hs := tiedRows_sorted (t.ratioList q) (Ratio.minimum (t.ratioList q))
    have hi := hbind i hi
    rw [hrest] at hi hs
    rcases List.mem_cons.mp hi with rfl | hi
    · exact le_refl _
    · obtain ⟨hlater, -⟩ := List.pairwise_cons.mp hs
      exact le_of_lt (hlater i hi)
  · intro hb i hi
    have := hrank hb i (hbind i hi)
    rw [ht.basicRank?_eq hi.pos hi.lt, ht.basicRank?_eq hpos hlt] at this
    simpa [rankBefore] using this
  · simp only [chooseLeaving, if_neg hmin, hr, ht.basicVariable?_eq hpos hlt]
    rw [hx, hval]

end Tableau

end ExactSimplex
