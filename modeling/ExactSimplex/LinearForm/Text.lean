import ExactSimplex.LinearForm.Basic
import ExactSimplex.Rational.Basic

/-! A linear form as an expression. The first term carries its own sign; every later one
is joined by a plus or a minus and shows the absolute value of its coefficient. -/

namespace ExactSimplex.LinearForm

/-- The terms in the given order of names, then the others in order of their names. -/
def orderedTerms (p : LinearForm) (order : List String) : List (String × Rat) :=
  p.termsIn order ++ p.terms.filter fun t => !order.contains t.1

def firstTermText (t : String × Rat) : String := Rational.termText t.2 ++ t.1

def laterTermText (t : String × Rat) : String :=
  if t.2 < 0 then " - " ++ Rational.termText t.2.abs ++ t.1
  else " + " ++ Rational.termText t.2 ++ t.1

def termsText : List (String × Rat) → String
  | [] => "0"
  | t :: ts => firstTermText t ++ String.join (ts.map laterTermText)

def text (p : LinearForm) (order : List String) : String := termsText (p.orderedTerms order)

theorem mem_orderedTerms {p : LinearForm} {order : List String} {t : String × Rat} :
    t ∈ p.orderedTerms order ↔
      (t.1 ∈ order ∧ p.get? t.1 = some t.2) ∨ (t ∈ p.terms ∧ t.1 ∉ order) := by
  obtain ⟨name, q⟩ := t
  simp only [orderedTerms, termsIn, List.mem_append, List.mem_filterMap, List.mem_filter,
    Option.map_eq_some_iff, Prod.mk.injEq]
  constructor
  · rintro (⟨n, hn, c, hc, rfl, rfl⟩ | ⟨hm, hn⟩)
    · exact .inl ⟨hn, hc⟩
    · exact .inr ⟨hm, by simpa using hn⟩
  · rintro (⟨hn, hc⟩ | ⟨hm, hn⟩)
    · exact .inl ⟨name, hn, q, hc, rfl, rfl⟩
    · exact .inr ⟨hm, by simpa using hn⟩

end ExactSimplex.LinearForm
