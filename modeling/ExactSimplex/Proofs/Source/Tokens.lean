import ExactSimplex.Proofs.Text.Character
import ExactSimplex.Source.Lexer
import ExactSimplex.Variable

/-! The tokens of a text that is put together from the texts of tokens. Each text is cut off
as one token where what follows it cannot be part of it: a name stops before anything that is
not alphanumeric, a number before anything that is neither a digit nor a point. -/

namespace ExactSimplex.Source

/-! ## Where a run of characters stops -/

/-- What follows does not begin with a character that satisfies `p`. -/
def Stops (p : Char → Bool) (rest : List Char) : Prop := ∀ c ∈ rest.head?, p c = false

@[simp] theorem stops_nil (p : Char → Bool) : Stops p [] := by simp [Stops]

@[simp] theorem stops_cons {p : Char → Bool} {c : Char} {cs : List Char} :
    Stops p (c :: cs) ↔ p c = false := by simp [Stops]

theorem takeWhile_append_of_stops {p : Char → Bool} {run rest : List Char}
    (h : ∀ c ∈ run, p c = true) (hr : Stops p rest) : (run ++ rest).takeWhile p = run := by
  rw [List.takeWhile_append_of_pos h]
  cases rest with
  | nil => simp
  | cons c cs => simp [stops_cons.mp hr]

theorem dropWhile_append_of_stops {p : Char → Bool} {run rest : List Char}
    (h : ∀ c ∈ run, p c = true) (hr : Stops p rest) : (run ++ rest).dropWhile p = rest := by
  rw [List.dropWhile_append_of_pos h]
  cases rest with
  | nil => simp
  | cons c cs => simp [stops_cons.mp hr]

/-! ## Characters that open a token -/

theorem isGap_of_isAlphanum {c : Char} (h : c.isAlphanum = true) : isGap c = false := by
  have hne : ∀ d : Char, d.isAlphanum = false → (c == d) = false := by
    rintro d hd
    exact beq_false_of_ne fun he => by simp [he, hd] at h
  simp [isGap, hne ' ' (by decide), hne '\t' (by decide), hne '\r' (by decide)]

theorem lexeme_of_isDigit {c : Char} (h : c.isDigit = true) (cs : List Char) :
    lexeme c cs = number (c :: cs) := by
  unfold lexeme
  split
  all_goals first
    | exact absurd h (by decide)
    | simp [h]

theorem lexeme_of_isAlpha {c : Char} (h : c.isAlpha = true) (cs : List Char) :
    lexeme c cs = word (c :: cs) := by
  unfold lexeme
  split
  all_goals first
    | exact absurd h (by decide)
    | simp [h, Text.isDigit_of_isAlpha h]

/-! ## One token and the rest -/

/-- The token that `text` is at byte `pos`. -/
def tokenAt (kind : TokenKind) (pos : Nat) (text : List Char) : Token :=
  ⟨kind, ⟨pos, pos + Text.width text⟩, String.ofList text⟩

@[simp] theorem tokenAt_kind (kind : TokenKind) (pos : Nat) (text : List Char) :
    (tokenAt kind pos text).kind = kind := rfl

@[simp] theorem tokenAt_text (kind : TokenKind) (pos : Nat) (text : List Char) :
    (tokenAt kind pos text).text = String.ofList text := rfl

/-- Before `rest`, the lexer cuts `text` off as one token. -/
def LexesTo (kind : TokenKind) (text rest : List Char) : Prop :=
  ∃ c cs, text ++ rest = c :: cs ∧ isGap c = false ∧ lexeme c cs = ⟨kind, text, rest⟩

theorem tokensFrom_nil (pos : Nat) : tokensFrom pos [] = [tokenAt .endOfText pos []] := by
  rw [tokensFrom]
  rfl

theorem tokensFrom_space (pos : Nat) (rest : List Char) :
    tokensFrom pos (' ' :: rest) = tokensFrom (pos + 1) rest := by
  rw [tokensFrom]
  rfl

theorem LexesTo.tokensFrom_eq {kind : TokenKind} {text rest : List Char}
    (h : LexesTo kind text rest) (pos : Nat) : tokensFrom pos (text ++ rest) =
      tokenAt kind pos text :: tokensFrom (pos + Text.width text) rest := by
  obtain ⟨c, cs, happ, hgap, hlex⟩ := h
  rw [happ, tokensFrom]
  simp [hgap, hlex, tokenAt]

theorem lexesTo_plus (rest : List Char) : LexesTo .plus ['+'] rest := ⟨_, _, rfl, rfl, rfl⟩

theorem lexesTo_minus (rest : List Char) : LexesTo .minus ['-'] rest := ⟨_, _, rfl, rfl, rfl⟩

theorem lexesTo_slash (rest : List Char) : LexesTo .slash ['/'] rest := ⟨_, _, rfl, rfl, rfl⟩

theorem lexesTo_comma (rest : List Char) : LexesTo .comma [','] rest := ⟨_, _, rfl, rfl, rfl⟩

theorem lexesTo_symbol (r : Relation) (rest : List Char) :
    LexesTo (.relation r) r.symbol.toList (' ' :: rest) := by
  cases r <;> exact ⟨_, _, rfl, rfl, rfl⟩

/-! ## Numbers -/

theorem lexesTo_digits {digits rest : List Char} (hne : digits ≠ [])
    (h : ∀ c ∈ digits, c.isDigit = true) (hr : Stops Char.isDigit rest)
    (hp : Stops (· == '.') rest) : LexesTo .number digits rest := by
  obtain ⟨d, ds, rfl⟩ := List.exists_cons_of_ne_nil hne
  have hd : d.isDigit = true := h d List.mem_cons_self
  refine ⟨d, ds ++ rest, rfl, isGap_of_isAlphanum (Text.isAlphanum_of_isDigit hd), ?_⟩
  rw [lexeme_of_isDigit hd, ← List.cons_append]
  have hsplit : splitNumber (d :: ds ++ rest) = (d :: ds, rest) := by
    unfold splitNumber
    rw [takeWhile_append_of_stops h hr, dropWhile_append_of_stops h hr]
    split
    · simp at hp
    · rfl
  rw [number, hsplit]

/-! ## Words -/

theorem lexesTo_word {c : Char} {cs rest : List Char} (hc : c.isAlpha = true)
    (h : ∀ c ∈ cs, c.isAlphanum = true) (hr : Stops Char.isAlphanum rest)
    (hnon : c :: cs ≠ ['n', 'o', 'n']) : LexesTo (wordKind (c :: cs)) (c :: cs) rest := by
  have hall : ∀ d ∈ c :: cs, d.isAlphanum = true := by
    simpa [Text.isAlphanum_of_isAlpha hc] using h
  refine ⟨c, cs ++ rest, rfl, isGap_of_isAlphanum (Text.isAlphanum_of_isAlpha hc), ?_⟩
  rw [lexeme_of_isAlpha hc, ← List.cons_append, word, takeWhile_append_of_stops hall hr,
    dropWhile_append_of_stops hall hr]
  simp only [if_neg hnon]

def directionKind : Direction → TokenKind
  | .max => .max
  | .min => .min

def restrictionKind : Restriction → TokenKind
  | .nonNegative => .nonNegative
  | .unrestricted => .unrestricted

theorem lexesTo_direction (d : Direction) {rest : List Char} (hr : Stops Char.isAlphanum rest) :
    LexesTo (directionKind d) d.word.toList rest := by
  cases d with
  | max =>
    change LexesTo (wordKind ['m', 'a', 'x']) ['m', 'a', 'x'] rest
    exact lexesTo_word rfl (by simp) hr (by simp)
  | min =>
    change LexesTo (wordKind ['m', 'i', 'n']) ['m', 'i', 'n'] rest
    exact lexesTo_word rfl (by simp) hr (by simp)

/-- A restriction ends its line. -/
theorem lexesTo_restriction (r : Restriction) :
    LexesTo (restrictionKind r) r.keyword.toList [] := by
  cases r with
  | nonNegative => exact ⟨'n', "on-negative".toList, rfl, rfl, rfl⟩
  | unrestricted => exact ⟨'u', "nrestricted".toList, rfl, rfl, rfl⟩

theorem lexesTo_name {cs rest : List Char} (h : Variable.isName cs = true)
    (hr : Stops Char.isAlphanum rest) : LexesTo .name cs rest := by
  cases cs with
  | nil => cases h
  | cons c ds =>
    simp only [Variable.isName, Bool.and_eq_true, List.all_eq_true] at h
    -- The second character of a keyword is a letter, that of a name is a digit.
    have hne : ∀ e es, e.isDigit = false → ds ≠ e :: es := by
      rintro e es he rfl
      simp [he] at h
    have hkind : wordKind (c :: ds) = .name := by
      simp [wordKind, hne]
    rw [← hkind]
    exact lexesTo_word h.1 (fun d hd => Text.isAlphanum_of_isDigit (h.2 d hd)) hr (by simp [hne])

end ExactSimplex.Source
