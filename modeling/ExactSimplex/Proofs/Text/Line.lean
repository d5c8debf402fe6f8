import ExactSimplex.Text.Blank
import ExactSimplex.Text.Line

/-! Lines that are put together with line feeds come apart as they were, if no character of
theirs breaks a line and none of them is blank: an empty last line would not be seen. -/

namespace ExactSimplex.Text

/-- No character of the line belongs to a line break. -/
def Unbroken (line : List Char) : Prop := '\n' ∉ line ∧ '\r' ∉ line

instance (line : List Char) : Decidable (Unbroken line) :=
  inferInstanceAs (Decidable (_ ∧ _))

@[simp] theorem unbroken_nil : Unbroken [] := by simp [Unbroken]

@[simp] theorem unbroken_cons {c : Char} {line : List Char} :
    Unbroken (c :: line) ↔ (c ≠ '\n' ∧ c ≠ '\r') ∧ Unbroken line := by
  simp only [Unbroken, List.mem_cons, not_or, ne_eq, eq_comm (a := c)]
  exact and_and_and_comm

@[simp] theorem unbroken_append {line rest : List Char} :
    Unbroken (line ++ rest) ↔ Unbroken line ∧ Unbroken rest := by
  simp only [Unbroken, List.mem_append, not_or]
  exact and_and_and_comm

theorem unbroken_flatMap {α : Type} {f : α → List Char} {l : List α}
    (h : ∀ a ∈ l, Unbroken (f a)) : Unbroken (l.flatMap f) := by
  induction l with
  | nil => simp
  | cons a l ih =>
    rw [List.flatMap_cons, unbroken_append]
    exact ⟨h a List.mem_cons_self, ih fun b hb => h b (List.mem_cons_of_mem _ hb)⟩

theorem lines_cons {c : Char} {cs line : List Char} {rest : List (List Char)}
    (hc : c ≠ '\n' ∧ c ≠ '\r') (h : lines cs = line :: rest) :
    lines (c :: cs) = (c :: line) :: rest := by
  rw [lines.eq_4 c cs (fun he => hc.1 he) (fun _ he => absurd he hc.2), h]

theorem lines_singleton {c : Char} (hc : c ≠ '\n' ∧ c ≠ '\r') : lines [c] = [[c]] := by
  rw [lines.eq_4 c [] (fun he => hc.1 he) (fun _ he => absurd he hc.2), lines_nil]

theorem lines_of_unbroken {line : List Char} (h : Unbroken line) (hne : line ≠ []) :
    lines line = [line] := by
  induction line with
  | nil => exact absurd rfl hne
  | cons c cs ih =>
    obtain ⟨hc, hcs⟩ := unbroken_cons.mp h
    by_cases hnil : cs = []
    · rw [hnil]
      exact lines_singleton hc
    · exact lines_cons hc (ih hcs hnil)

theorem lines_append_feed {line : List Char} (h : Unbroken line) (rest : List Char) :
    lines (line ++ '\n' :: rest) = line :: lines rest := by
  induction line with
  | nil => rfl
  | cons c cs ih =>
    obtain ⟨hc, hcs⟩ := unbroken_cons.mp h
    exact lines_cons hc (ih hcs)

/-- One line, with something in it that is not blank. -/
def Shown (line : List Char) : Prop := Unbroken line ∧ line.all isBlank = false

instance (line : List Char) : Decidable (Shown line) := inferInstanceAs (Decidable (_ ∧ _))

theorem shown_around {before word after : List Char} (hbefore : Unbroken before)
    (hword : Shown word) (hafter : Unbroken after) : Shown (before ++ word ++ after) := by
  refine ⟨by simp [hbefore, hword.1, hafter], ?_⟩
  simp only [List.all_append, hword.2, Bool.and_false, Bool.false_and]

theorem lines_intercalate {ls : List (List Char)} (h : ∀ line ∈ ls, Shown line) :
    lines (['\n'].intercalate ls) = ls := by
  induction ls with
  | nil => rfl
  | cons line rest ih =>
    obtain ⟨hline, hblank⟩ := h line List.mem_cons_self
    have hne : line ≠ [] := by rintro rfl; cases hblank
    cases rest with
    | nil => simpa using lines_of_unbroken hline hne
    | cons next rest =>
      rw [List.intercalate_cons_cons, List.append_assoc, List.singleton_append,
        lines_append_feed hline, ih fun l hl => h l (List.mem_cons_of_mem _ hl)]

end ExactSimplex.Text
