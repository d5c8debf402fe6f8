import Mathlib.Logic.Function.Iterate
import ExactSimplex.Proofs.Guarded.Basic
import ExactSimplex.Proofs.Source.Lexemes

/-! Cutting a text into tokens with a cursor. The cursor holds the byte at which it stands and,
apart from that, the character there and those to come; the two are moved on side by side, and the
text of a token is cut out of the source by bytes, which is a fault inside a character or beyond the
end. On every text the cursor comes to the end, there is no fault, and the tokens are those of the
text: what was read and what is to come are the source all along. -/

namespace ExactSimplex.Source

open Guarded

/-- A place in a source: its byte, the character there, and the characters after that. -/
structure Cursor where
  source : List Char
  pos : Nat
  current : Option Char
  upcoming : List Char

namespace Cursor

/-! ## Moving on -/

def start (source : List Char) : Cursor := ⟨source, 0, source.head?, source.tail⟩

/-- The characters that have not been read. -/
def ahead (k : Cursor) : List Char := k.current.toList ++ k.upcoming

def advance (k : Cursor) : Cursor where
  source := k.source
  pos := k.pos + (k.current.map Char.utf8Size).getD 0
  current := k.upcoming.head?
  upcoming := k.upcoming.tail

variable {k later : Cursor} {c : Char} {p : Char → Bool}

theorem ahead_advance (k : Cursor) : k.advance.ahead = k.upcoming := by
  obtain ⟨source, pos, current, upcoming⟩ := k
  cases upcoming <;> rfl

theorem advance_le (k : Cursor) : k.advance.ahead.length ≤ k.ahead.length := by
  rw [ahead_advance, ahead, List.length_append]
  exact Nat.le_add_left _ _

theorem advance_lt (h : k.current = some c) : k.advance.ahead.length < k.ahead.length := by
  rw [ahead_advance, ahead, h]
  exact Nat.lt_succ_self _

/-- Move on as long as the characters satisfy `p`. -/
def skipWhile (p : Char → Bool) (k : Cursor) : Cursor :=
  match _h : k.current with
  | none => k
  | some c => if p c then skipWhile p k.advance else k
termination_by k.ahead.length
decreasing_by exact advance_lt _h

theorem skipWhile_le (p : Char → Bool) (k : Cursor) :
    (k.skipWhile p).ahead.length ≤ k.ahead.length := by
  fun_induction skipWhile p k with
  | case1 | case3 => exact Nat.le_refl _
  | case2 k c _ _ ih => exact Nat.le_trans ih k.advance_le

theorem skipWhile_of_pos (h : k.current = some c) (hc : p c = true) :
    k.skipWhile p = k.advance.skipWhile p := by
  rw [skipWhile]
  split <;> simp_all

theorem skipWhile_of_neg (h : ∀ c ∈ k.current, p c = false) : k.skipWhile p = k := by
  rw [skipWhile]
  split <;> simp_all

theorem skipWhile_le_advance (h : k.current = some c) (hc : p c = true) :
    (k.skipWhile p).ahead.length ≤ k.advance.ahead.length := by
  rw [skipWhile_of_pos h hc]
  exact skipWhile_le p k.advance

theorem iterate_le (n : Nat) (k : Cursor) :
    (advance^[n] k).ahead.length ≤ k.ahead.length := by
  induction n generalizing k with
  | zero => exact Nat.le_refl _
  | succ n ih => exact Nat.le_trans (ih k.advance) k.advance_le

/-! ## One token -/

/-- The text from byte `start` to the cursor. -/
def slice (k : Cursor) (start : Nat) : Guarded Empty (List Char) := do
  let (read, _) ← splitAtByte k.pos k.source
  let (_, text) ← splitAtByte start read
  .ok text

/-- The token from byte `start` to the cursor, with the cursor. -/
def token (k : Cursor) (kind : TokenKind) (start : Nat) : Guarded Empty (Token × Cursor) := do
  let text ← k.slice start
  .ok (⟨kind, ⟨start, k.pos⟩, String.ofList text⟩, k)

def single (k : Cursor) (kind : TokenKind) : Guarded Empty (Token × Cursor) :=
  k.advance.token kind k.pos

/-- An order sign, with the equals sign if one follows it. -/
def comparison (k : Cursor) (bare withEqual : Relation) : Guarded Empty (Token × Cursor) :=
  if k.advance.current = some '=' then k.advance.advance.token (.relation withEqual) k.pos
  else k.advance.token (.relation bare) k.pos

/-- A digit stands after the current character. -/
def digitNext (k : Cursor) : Bool := k.upcoming.head?.any Char.isDigit

def number (k : Cursor) : Guarded Empty (Token × Cursor) :=
  let whole := k.skipWhile Char.isDigit
  if whole.current = some '.' ∧ whole.digitNext then
    (whole.advance.skipWhile Char.isDigit).token .number k.pos
  else whole.token .number k.pos

/-- The suffix of the keyword `non-negative` stands at the cursor and ends a word. -/
def atSuffix (k : Cursor) : Guarded Empty Bool := do
  let (_, rest) ← splitAtByte k.pos k.source
  .ok (dropNegative? rest).isSome

/-- The word that ends at the cursor goes on with the suffix. -/
def goesOn (k : Cursor) (text : List Char) : Guarded Empty Bool :=
  if text = ['n', 'o', 'n'] then k.atSuffix else .ok false

def word (k : Cursor) : Guarded Empty (Token × Cursor) := do
  let ending := k.skipWhile Char.isAlphanum
  let text ← ending.slice k.pos
  let suffixed ← ending.goesOn text
  if suffixed then (advance^[negativeSuffix.length] ending).token .nonNegative k.pos
  else ending.token (wordKind text) k.pos

/-- The token that begins with the current character, which is `c`. -/
def lex (k : Cursor) (c : Char) : Guarded Empty (Token × Cursor) :=
  match c with
  | '\n' => k.single .newline
  | '+' => k.single .plus
  | '-' => k.single .minus
  | '/' => k.single .slash
  | ',' => k.single .comma
  | '=' => k.single (.relation .equal)
  | '<' => k.comparison .less .atMost
  | '>' => k.comparison .greater .atLeast
  | '.' => if k.digitNext then k.number else k.single .unknown
  | _ =>
    if c.isDigit then k.number
    else if c.isAlpha then k.word
    else k.single .unknown

/-- The token after the gap at the cursor. -/
def next (k : Cursor) : Guarded Empty (Token × Cursor) :=
  let k := k.skipWhile isGap
  match k.current with
  | none => .ok (⟨.endOfText, ⟨k.pos, k.pos⟩, ""⟩, k)
  | some c => k.lex c

/-! ## All tokens -/

theorem token_eq_ok {kind : TokenKind} {start : Nat} {t : Token}
    (h : k.token kind start = .ok (t, later)) : later = k := by
  obtain ⟨text, -, h⟩ := bind_eq_ok.mp h
  exact (Prod.mk.inj (Except.ok.inj h)).2.symm

theorem single_le {kind : TokenKind} {t : Token} (h : k.single kind = .ok (t, later)) :
    later.ahead.length ≤ k.advance.ahead.length :=
  Nat.le_of_eq (by rw [token_eq_ok h])

theorem comparison_le {bare withEqual : Relation} {t : Token}
    (h : k.comparison bare withEqual = .ok (t, later)) :
    later.ahead.length ≤ k.advance.ahead.length := by
  unfold comparison at h
  split at h <;> obtain rfl := token_eq_ok h
  · exact advance_le _
  · exact Nat.le_refl _

theorem number_le {t : Token} (hcurrent : k.current = some c)
    (hc : c.isDigit = true ∨ c = '.' ∧ k.digitNext = true) (h : k.number = .ok (t, later)) :
    later.ahead.length ≤ k.advance.ahead.length := by
  have hmore : ∀ k : Cursor, (k.advance.skipWhile Char.isDigit).ahead.length ≤ k.ahead.length :=
    fun k => Nat.le_trans (skipWhile_le _ _) k.advance_le
  rcases hc with hdigit | ⟨rfl, hnext⟩
  · have hwhole := skipWhile_le_advance hcurrent hdigit
    simp only [number] at h
    split at h <;> rw [token_eq_ok h]
    · exact Nat.le_trans (hmore _) hwhole
    · exact hwhole
  · have hwhole : k.skipWhile Char.isDigit = k :=
      skipWhile_of_neg fun c hc => by rw [← Option.some.inj (hcurrent.symm.trans hc)]; rfl
    simp only [number, hwhole, hcurrent, hnext, and_self, if_true] at h
    rw [token_eq_ok h]
    exact skipWhile_le _ _

theorem word_le {t : Token} (hcurrent : k.current = some c) (hc : c.isAlpha = true)
    (h : k.word = .ok (t, later)) : later.ahead.length ≤ k.advance.ahead.length := by
  have hending := skipWhile_le_advance hcurrent (Text.isAlphanum_of_isAlpha hc)
  obtain ⟨text, -, h⟩ := bind_eq_ok.mp h
  obtain ⟨suffixed, -, h⟩ := bind_eq_ok.mp h
  split at h <;> rw [token_eq_ok h]
  · exact Nat.le_trans (iterate_le _ _) hending
  · exact hending

/-- Every token reads its first character at least. -/
theorem lex_le {t : Token} (hcurrent : k.current = some c) (h : k.lex c = .ok (t, later)) :
    later.ahead.length ≤ k.advance.ahead.length := by
  unfold lex at h
  split at h
  case h_7 | h_8 => exact comparison_le h
  case h_9 =>
    split at h
    · exact number_le hcurrent (.inr ⟨rfl, ‹_›⟩) h
    · exact single_le h
  case h_10 =>
    split at h
    · exact number_le hcurrent (.inl ‹_›) h
    · split at h
      · exact word_le hcurrent ‹_› h
      · exact single_le h
  all_goals exact single_le h

/-- A token before the end leaves less to read. -/
theorem next_lt {t : Token} (h : k.next = .ok (t, later)) (ht : t.kind ≠ .endOfText) :
    later.ahead.length < k.ahead.length := by
  refine Nat.lt_of_lt_of_le ?_ (skipWhile_le isGap k)
  rw [next] at h
  split at h
  · obtain ⟨rfl, -⟩ := Prod.mk.inj (Except.ok.inj h)
    exact absurd rfl ht
  · rename_i c hcurrent
    exact Nat.lt_of_le_of_lt (lex_le hcurrent h) (advance_lt hcurrent)

/-- The tokens from the cursor on, up to the end of the text. -/
def tokens (k : Cursor) : Guarded Empty (List Token) :=
  match _h : k.next with
  | .error e => .error e
  | .ok (t, later) =>
    if _ht : t.kind = .endOfText then .ok [t]
    else later.tokens.map (t :: ·)
termination_by k.ahead.length
decreasing_by exact next_lt _h _ht

/-! ## What was read and what is to come -/

/-- The cursor in a source of which the first part has been read. -/
def after (before rest : List Char) : Cursor :=
  ⟨before ++ rest, Text.width before, rest.head?, rest.tail⟩

/-- What is read of a lexeme after a text: its token, and the cursor at its end. -/
def reading (before : List Char) (l : Lexeme) : Token × Cursor :=
  (tokenAt l.kind (Text.width before) l.text, after (before ++ l.text) l.rest)

variable {before rest text cs : List Char}

@[simp] theorem current_after (before rest : List Char) :
    (after before rest).current = rest.head? := rfl

@[simp] theorem pos_after (before rest : List Char) :
    (after before rest).pos = Text.width before := rfl

@[simp] theorem digitNext_after (before rest : List Char) :
    (after before rest).digitNext = rest.tail.head?.any Char.isDigit := rfl

theorem advance_after (before : List Char) (c : Char) (rest : List Char) :
    (after before (c :: rest)).advance = after (before ++ [c]) rest := by
  simp [after, advance]

theorem skipWhile_after (p : Char → Bool) (before rest : List Char) :
    (after before rest).skipWhile p =
      after (before ++ rest.takeWhile p) (rest.dropWhile p) := by
  induction rest generalizing before with
  | nil =>
    rw [skipWhile_of_neg (by simp)]
    simp
  | cons c rest ih =>
    cases hc : p c with
    | true =>
      rw [skipWhile_of_pos (current_after ..) hc, advance_after, ih, List.takeWhile_cons_of_pos hc,
        List.dropWhile_cons_of_pos hc, List.append_assoc, List.singleton_append]
    | false =>
      rw [skipWhile_of_neg (by simp [hc])]
      simp [hc]

theorem iterate_advance_after (before text rest : List Char) :
    advance^[text.length] (after before (text ++ rest)) = after (before ++ text) rest := by
  induction text generalizing before with
  | nil => simp
  | cons c text ih =>
    rw [List.length_cons, Function.iterate_succ_apply, List.cons_append, advance_after, ih,
      List.append_assoc, List.singleton_append]

/-- The text of a token can be cut out where it was read. -/
theorem slice_after (before text rest : List Char) :
    (after (before ++ text) rest).slice (Text.width before) = .ok text := by
  have hread := splitAtByte_width (ε := Empty) (before ++ text) rest
  have htext := splitAtByte_width (ε := Empty) before text
  simp only [slice, after, hread, htext, ok_bind]

theorem token_after (kind : TokenKind) (before text rest : List Char) :
    (after (before ++ text) rest).token kind (Text.width before) =
      .ok (reading before ⟨kind, text, rest⟩) := by
  rw [token, slice_after]
  simp [reading, tokenAt, after, ok_bind]

theorem atSuffix_after (before rest : List Char) :
    (after before rest).atSuffix = .ok (dropNegative? rest).isSome := by
  have hrest := splitAtByte_width (ε := Empty) before rest
  simp only [atSuffix, after, hrest, ok_bind]

/-! ## Lexemes -/

theorem single_after (kind : TokenKind) (before : List Char) (c : Char) (cs : List Char) :
    (after before (c :: cs)).single kind = .ok (reading before ⟨kind, [c], cs⟩) := by
  rw [single, advance_after, ← token_after]
  rfl

theorem comparison_after (bare withEqual : Relation) (before : List Char) (c : Char)
    (cs : List Char) : (after before (c :: cs)).comparison bare withEqual =
      .ok (reading before (Source.comparison c bare withEqual cs)) := by
  rw [comparison, advance_after, current_after, pos_after]
  split
  · rename_i hequal
    obtain ⟨rest, rfl⟩ := List.head?_eq_some_iff.mp hequal
    rw [advance_after, List.append_assoc]
    exact token_after _ before [c, '='] rest
  · rename_i hequal
    have hbare : Source.comparison c bare withEqual cs = ⟨.relation bare, [c], cs⟩ := by
      unfold Source.comparison
      split
      · exact absurd rfl hequal
      · rfl
    rw [hbare]
    exact token_after _ before [c] cs

theorem number_after (before cs : List Char) :
    (after before cs).number = .ok (reading before (Source.number cs)) := by
  simp only [number, skipWhile_after, current_after, digitNext_after, pos_after, Source.number,
    splitNumber]
  by_cases hpoint : ∃ d ds, cs.dropWhile Char.isDigit = '.' :: d :: ds ∧ d.isDigit = true
  · obtain ⟨d, ds, hrest, hd⟩ := hpoint
    have hdecimals := token_after .number before
      (cs.takeWhile Char.isDigit ++ '.' :: (d :: ds).takeWhile Char.isDigit)
      ((d :: ds).dropWhile Char.isDigit)
    rw [hrest, if_pos (by simp [hd]), advance_after, skipWhile_after]
    simp only [hd, if_true, List.append_assoc, List.singleton_append]
    exact hdecimals
  · have hwhole := token_after .number before (cs.takeWhile Char.isDigit)
      (cs.dropWhile Char.isDigit)
    rw [if_neg fun h => ?_, hwhole]
    · split
      · rename_i d ds hrest
        rw [if_neg fun hd => hpoint ⟨d, ds, hrest, hd⟩, hrest]
      · rfl
    · obtain ⟨rest, hrest⟩ := List.head?_eq_some_iff.mp h.1
      rw [hrest] at h
      cases rest with
      | nil => cases h.2
      | cons d ds => exact hpoint ⟨d, ds, hrest, h.2⟩

theorem word_after (before cs : List Char) :
    (after before cs).word = .ok (reading before (Source.word cs)) := by
  simp only [word, skipWhile_after, pos_after, slice_after, ok_bind, goesOn, atSuffix_after,
    Source.word]
  by_cases hnon : cs.takeWhile Char.isAlphanum = ['n', 'o', 'n']
  · simp only [if_pos hnon, ok_bind]
    cases hrest : dropNegative? (cs.dropWhile Char.isAlphanum) with
    | none => simp [token_after]
    | some rest =>
      rw [← dropNegative?_append hrest, Option.isSome_some, if_pos rfl, iterate_advance_after,
        List.append_assoc, token_after]
  · simp only [if_neg hnon, ok_bind, Bool.false_eq_true, if_false, token_after]

theorem lex_after (before : List Char) (c : Char) (cs : List Char) :
    (after before (c :: cs)).lex c = .ok (reading before (lexeme c cs)) := by
  fun_cases lexeme c cs
  case case7 | case8 => exact comparison_after _ _ before _ cs
  case case9 hd => simpa [lex, hd] using number_after before _
  case case10 hd => simpa [lex, hd] using single_after .unknown before '.' _
  case case11 => exact single_after .unknown before '.' []
  case case12 hd _ _ _ _ _ _ _ _ _ => simpa [lex, hd] using number_after before (c :: cs)
  case case13 hd ha _ _ _ _ _ _ _ _ _ => simpa [lex, hd, ha] using word_after before (c :: cs)
  case case14 hd ha _ _ _ _ _ _ _ _ _ => simpa [lex, hd, ha] using single_after .unknown before c cs
  all_goals exact single_after _ before _ cs

/-! ## The tokens of a text -/

theorem next_of_gap (hc : isGap c = true) :
    (after before (c :: cs)).next = (after (before ++ [c]) cs).next := by
  simp only [next, skipWhile_of_pos (current_after before (c :: cs)) hc, advance_after]

theorem next_of_lexeme (hc : isGap c = false) :
    (after before (c :: cs)).next = .ok (reading before (lexeme c cs)) := by
  rw [next, skipWhile_of_neg (by simp [hc])]
  exact lex_after before c cs

theorem tokens_eq (k : Cursor) : k.tokens = k.next.bind fun (t, later) =>
    if t.kind = .endOfText then .ok [t] else later.tokens.map (t :: ·) := by
  rw [tokens]
  split <;> rename_i hnext <;> rw [hnext] <;> rfl

/-- From every place in a source on, the cursor finds the tokens of what is to come. -/
theorem tokens_after (before rest : List Char) :
    (after before rest).tokens = .ok (tokensFrom (Text.width before) rest) := by
  induction hpos : Text.width before, rest using tokensFrom.induct generalizing before with
  | case1 pos =>
    subst hpos
    rw [tokens_eq, next, skipWhile_of_neg (by simp), tokensFrom]
    rfl
  | case2 pos c cs hc ih =>
    rw [tokens_eq, next_of_gap hc, ← tokens_eq, ih _ (by simp [hpos]), tokensFrom, if_pos hc]
  | case3 pos c cs hc l stop ih =>
    subst hpos
    rw [tokens_eq, next_of_lexeme (by simpa using hc)]
    change (if l.kind = .endOfText then _ else (after (before ++ l.text) l.rest).tokens.map _) = _
    rw [if_neg (lexeme_ne_endOfText c cs), ih _ (Text.width_append ..), tokensFrom, if_neg hc]
    rfl

/-- The cursor cuts every text into its tokens: it comes to the end of the text, and no cut is
inside a character or beyond the end. -/
theorem tokens_start (source : List Char) :
    (start source).tokens = .ok (Source.tokens source) :=
  tokens_after [] source

end Cursor

end ExactSimplex.Source
