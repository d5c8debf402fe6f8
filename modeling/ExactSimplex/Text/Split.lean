/-! Splitting a text at the first occurrence of a mark. -/

namespace ExactSimplex.Text

/-- The parts before and after the first `mark`, if there is one. -/
def splitFirst? (mark : Char) : List Char → Option (List Char × List Char)
  | [] => none
  | c :: cs =>
    if c = mark then some ([], cs)
    else (splitFirst? mark cs).map fun (before, after) => (c :: before, after)

theorem splitFirst?_eq_some {mark : Char} {cs before after : List Char}
    (h : splitFirst? mark cs = some (before, after)) :
    cs = before ++ mark :: after ∧ mark ∉ before := by
  induction cs generalizing before with
  | nil => simp [splitFirst?] at h
  | cons c cs ih =>
    by_cases hc : c = mark
    · simp only [splitFirst?, if_pos hc, Option.some.injEq, Prod.mk.injEq] at h
      obtain ⟨rfl, rfl⟩ := h
      simp [hc]
    · simp only [splitFirst?, if_neg hc, Option.map_eq_some_iff, Prod.mk.injEq] at h
      obtain ⟨⟨b, a⟩, hs, rfl, rfl⟩ := h
      obtain ⟨rfl, hb⟩ := ih hs
      simp [hb, Ne.symm hc]

theorem splitFirst?_eq_none {mark : Char} {cs : List Char} :
    splitFirst? mark cs = none ↔ mark ∉ cs := by
  induction cs with
  | nil => simp [splitFirst?]
  | cons c cs ih =>
    by_cases hc : c = mark
    · simp [splitFirst?, hc]
    · simp [splitFirst?, hc, ih, Ne.symm hc]

end ExactSimplex.Text
