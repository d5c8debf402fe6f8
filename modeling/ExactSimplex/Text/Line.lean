/-! The lines of a text and the widths of their characters. A line ends at a line feed,
a carriage return just before the feed belongs to the line break, and a break at the
end of the text opens no further line. -/

namespace ExactSimplex.Text

/-- The lines of a text, without their breaks. -/
def lines : List Char → List (List Char)
  | [] => []
  | '\n' :: cs => [] :: lines cs
  | '\r' :: '\n' :: cs => [] :: lines cs
  | c :: cs =>
    match lines cs with
    | [] => [[c]]
    | line :: rest => (c :: line) :: rest

/-- The parts of a text between its line feeds, one more than there are feeds. -/
def segments (cs : List Char) : List (List Char) := cs.splitOn '\n'

/-- Bytes that the text takes in UTF-8. -/
def width : List Char → Nat
  | [] => 0
  | c :: cs => c.utf8Size + width cs

@[simp] theorem lines_nil : lines [] = [] := rfl

theorem lines_ne_nil {cs : List Char} (h : cs ≠ []) : lines cs ≠ [] := by
  fun_cases lines cs with
  | case1 => exact absurd rfl h
  | case2 => simp
  | case3 => simp
  | case4 c cs => simp_all
  | case5 c cs => simp_all

theorem lines_no_feed {cs : List Char} : ∀ line ∈ lines cs, '\n' ∉ line := by
  fun_induction lines cs with
  | case1 => simp
  | case2 cs ih => simpa using ih
  | case3 cs ih => simpa using ih
  | case4 c cs hn _ _ _ => grind
  | case5 c cs hn _ line rest h ih => grind

@[simp] theorem width_nil : width [] = 0 := rfl

@[simp] theorem width_cons (c : Char) (cs : List Char) :
    width (c :: cs) = c.utf8Size + width cs := rfl

@[simp] theorem width_append (cs ds : List Char) : width (cs ++ ds) = width cs + width ds := by
  induction cs with
  | nil => simp
  | cons c cs ih => simp [ih, Nat.add_assoc]

theorem width_pos {cs : List Char} (h : cs ≠ []) : 0 < width cs := by
  obtain ⟨c, cs, rfl⟩ := List.exists_cons_of_ne_nil h
  exact Nat.add_pos_left c.utf8Size_pos _

/-- The width of a string is the size of its encoding. -/
theorem width_toList (s : String) : width s.toList = s.utf8ByteSize := by
  have h : ∀ cs : List Char, width cs = (String.ofList cs).utf8ByteSize := by
    intro cs
    induction cs with
    | nil => rfl
    | cons c cs ih =>
      have hc : String.ofList (c :: cs) = String.singleton c ++ String.ofList cs := by
        rw [String.singleton_eq_ofList, ← String.ofList_append, List.singleton_append]
      rw [hc, String.utf8ByteSize_append, String.utf8ByteSize_singleton, ← ih, width_cons]
  rw [h, String.ofList_toList]

end ExactSimplex.Text
