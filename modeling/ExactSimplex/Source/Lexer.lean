import ExactSimplex.Source.Token
import ExactSimplex.Text.Line

/-! Cutting a text into tokens. Spaces, tabs and carriage returns separate tokens and every
other character belongs to one; a character that begins no token is an unknown token of
its own. Nothing is lost: a lexeme and the rest of the text are the text. -/

namespace ExactSimplex.Source

/-- Separates tokens and belongs to none. -/
def isGap (c : Char) : Bool := c == ' ' || c == '\t' || c == '\r'

/-- A kind of token, its characters and what follows them. -/
structure Lexeme where
  kind : TokenKind
  text : List Char
  rest : List Char

/-! ## Numbers and words -/

/-- The digits of a number and its decimals, if a digit follows the point. -/
def splitNumber (cs : List Char) : List Char × List Char :=
  let whole := cs.takeWhile Char.isDigit
  match cs.dropWhile Char.isDigit with
  | '.' :: d :: ds =>
    if d.isDigit then
      (whole ++ '.' :: (d :: ds).takeWhile Char.isDigit, (d :: ds).dropWhile Char.isDigit)
    else (whole, '.' :: d :: ds)
  | rest => (whole, rest)

def number (cs : List Char) : Lexeme :=
  let (text, rest) := splitNumber cs
  ⟨.number, text, rest⟩

/-- The second half of the keyword `non-negative`. -/
def negativeSuffix : List Char := ['-', 'n', 'e', 'g', 'a', 't', 'i', 'v', 'e']

/-- What follows the suffix, if it is there and ends a word. -/
def dropNegative? (cs : List Char) : Option (List Char) :=
  if cs.take negativeSuffix.length = negativeSuffix then
    match cs.drop negativeSuffix.length with
    | c :: rest => if c.isAlphanum then none else some (c :: rest)
    | [] => some []
  else none

def wordKind (text : List Char) : TokenKind :=
  if text = ['m', 'i', 'n'] then .min
  else if text = ['m', 'a', 'x'] then .max
  else if text = ['u', 'n', 'r', 'e', 's', 't', 'r', 'i', 'c', 't', 'e', 'd'] then .unrestricted
  else .name

/-- A keyword or a name, from a text that begins with a letter. -/
def word (cs : List Char) : Lexeme :=
  let text := cs.takeWhile Char.isAlphanum
  let rest := cs.dropWhile Char.isAlphanum
  match if text = ['n', 'o', 'n'] then dropNegative? rest else none with
  | some after => ⟨.nonNegative, text ++ negativeSuffix, after⟩
  | none => ⟨wordKind text, text, rest⟩

/-! ## Lexemes and tokens -/

/-- An order sign, with the equals sign if one follows it. -/
def comparison (c : Char) (bare withEqual : Relation) : List Char → Lexeme
  | '=' :: rest => ⟨.relation withEqual, [c, '='], rest⟩
  | rest => ⟨.relation bare, [c], rest⟩

/-- The lexeme at the head of a text that begins with `c`, which is no gap. -/
def lexeme (c : Char) (cs : List Char) : Lexeme :=
  match c with
  | '\n' => ⟨.newline, [c], cs⟩
  | '+' => ⟨.plus, [c], cs⟩
  | '-' => ⟨.minus, [c], cs⟩
  | '/' => ⟨.slash, [c], cs⟩
  | ',' => ⟨.comma, [c], cs⟩
  | '=' => ⟨.relation .equal, [c], cs⟩
  | '<' => comparison c .less .atMost cs
  | '>' => comparison c .greater .atLeast cs
  | '.' =>
    match cs with
    | d :: _ => if d.isDigit then number (c :: cs) else ⟨.unknown, [c], cs⟩
    | [] => ⟨.unknown, [c], cs⟩
  | _ =>
    if c.isDigit then number (c :: cs)
    else if c.isAlpha then word (c :: cs)
    else ⟨.unknown, [c], cs⟩

theorem splitNumber_append (cs : List Char) : (splitNumber cs).1 ++ (splitNumber cs).2 = cs := by
  have h : cs.takeWhile Char.isDigit ++ cs.dropWhile Char.isDigit = cs :=
    List.takeWhile_append_dropWhile
  unfold splitNumber
  split
  · rename_i d ds hd
    rw [hd] at h
    split
    · simpa using h
    · exact h
  · exact h

theorem number_append (cs : List Char) : (number cs).text ++ (number cs).rest = cs :=
  splitNumber_append cs

theorem dropNegative?_append {cs rest : List Char} (h : dropNegative? cs = some rest) :
    negativeSuffix ++ rest = cs := by
  unfold dropNegative? at h
  split at h
  · rename_i ht
    have hs := List.take_append_drop negativeSuffix.length cs
    rw [ht] at hs
    split at h
    · rename_i c ds hr
      split at h
      · cases h
      · cases h; rw [← hr]; exact hs
    · rename_i hr
      cases h; rw [← hr]; exact hs
  · cases h

theorem word_append (cs : List Char) : (word cs).text ++ (word cs).rest = cs := by
  have h : cs.takeWhile Char.isAlphanum ++ cs.dropWhile Char.isAlphanum = cs :=
    List.takeWhile_append_dropWhile
  simp only [word]
  split
  · rename_i after hd
    split at hd
    · simpa only [List.append_assoc, dropNegative?_append hd] using h
    · cases hd
  · exact h

theorem lexeme_append (c : Char) (cs : List Char) :
    (lexeme c cs).text ++ (lexeme c cs).rest = c :: cs := by
  simp only [lexeme, comparison]
  repeat' split
  all_goals first
    | rfl
    | exact number_append _
    | exact word_append _

/-- A number begins with the digits at the head of the text. -/
theorem splitNumber_eq_append (cs : List Char) :
    ∃ ds, (splitNumber cs).1 = cs.takeWhile Char.isDigit ++ ds := by
  unfold splitNumber
  split
  · split
    · exact ⟨_, rfl⟩
    · exact ⟨[], (List.append_nil _).symm⟩
  · exact ⟨[], (List.append_nil _).symm⟩

theorem number_ne_nil {d : Char} {ds : List Char} (h : d.isDigit = true) :
    (number (d :: ds)).text ≠ [] := by
  obtain ⟨es, he⟩ := splitNumber_eq_append (d :: ds)
  simp [number, he, h]

theorem pointNumber_ne_nil {d : Char} {ds : List Char} (h : d.isDigit = true) :
    (number ('.' :: d :: ds)).text ≠ [] := by
  simp [number, splitNumber, show Char.isDigit '.' = false from by decide, h]

theorem word_ne_nil {c : Char} {cs : List Char} (h : c.isAlpha = true) :
    (word (c :: cs)).text ≠ [] := by
  have hc : c.isAlphanum = true := by simp [Char.isAlphanum, h]
  simp only [word, List.takeWhile_cons, hc, if_true]
  split <;> exact List.cons_ne_nil _ _

theorem lexeme_ne_nil (c : Char) (cs : List Char) : (lexeme c cs).text ≠ [] := by
  simp only [lexeme, comparison]
  repeat' split
  all_goals first
    | exact List.cons_ne_nil _ _
    | exact number_ne_nil ‹_›
    | exact pointNumber_ne_nil ‹_›
    | exact word_ne_nil ‹_›

/-- A lexeme has at least one character, so what follows is shorter than the text. -/
theorem lexeme_rest_lt (c : Char) (cs : List Char) :
    (lexeme c cs).rest.length < (c :: cs).length := by
  have happ := congrArg List.length (lexeme_append c cs)
  rw [List.length_append] at happ
  have := List.length_pos_iff.mpr (lexeme_ne_nil c cs)
  omega

/-- The tokens of a text whose first character stands at byte `pos`. -/
def tokensFrom (pos : Nat) : List Char → List Token
  | [] => [⟨.endOfText, ⟨pos, pos⟩, ""⟩]
  | c :: cs =>
    if isGap c then tokensFrom (pos + c.utf8Size) cs
    else
      let l := lexeme c cs
      let stop := pos + Text.width l.text
      ⟨l.kind, ⟨pos, stop⟩, String.ofList l.text⟩ :: tokensFrom stop l.rest
termination_by cs => cs.length
decreasing_by
  · simp
  · exact lexeme_rest_lt c cs

/-- The tokens of a text; the last one, and no other, is the end of the text. -/
def tokens (cs : List Char) : List Token := tokensFrom 0 cs

end ExactSimplex.Source
