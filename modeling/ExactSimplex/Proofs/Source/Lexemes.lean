import ExactSimplex.Proofs.Rational.Literal
import ExactSimplex.Proofs.Source.Tokens

/-! The tokens of any text. Each token before the last is cut off as a lexeme, the last one stands
at the end of the text, and a number is written with digits and at most one point. -/

namespace ExactSimplex.Source

/-! ## Lexemes -/

theorem wordKind_cases (text : List Char) :
    wordKind text = .min ∨ wordKind text = .max ∨ wordKind text = .unrestricted ∨
      wordKind text = .name := by
  unfold wordKind
  repeat' split
  all_goals simp

theorem word_kind_ne (cs : List Char) :
    (word cs).kind ≠ .number ∧ (word cs).kind ≠ .endOfText ∧ (word cs).kind ≠ .newline := by
  simp only [word]
  split
  · simp
  · rcases wordKind_cases (cs.takeWhile Char.isAlphanum) with h | h | h | h <;> simp [h]

theorem isDigits_takeWhile {d : Char} {ds : List Char} (h : d.isDigit = true) :
    Numeral.IsDigits ((d :: ds).takeWhile Char.isDigit) :=
  ⟨by simp [h], fun _ hc => List.all_eq_true.mp List.all_takeWhile _ hc⟩

/-- A number that has a digit, or a digit after its point, is a literal. -/
theorem number_writes {cs : List Char}
    (h : (∃ d ds, cs = d :: ds ∧ d.isDigit = true) ∨
      ∃ d ds, cs = '.' :: d :: ds ∧ d.isDigit = true) :
    ∃ q, Rational.WritesDecimal (number cs).text q := by
  have hwhole : ∀ c ∈ cs.takeWhile Char.isDigit, c.isDigit = true :=
    fun _ hc => List.all_eq_true.mp List.all_takeWhile _ hc
  simp only [number, splitNumber]
  split
  · rename_i d ds hrest
    split
    · rename_i hd
      exact ⟨_, .decimal hwhole (isDigits_takeWhile hd)⟩
    · rename_i hd
      rcases h with ⟨e, es, rfl, he⟩ | ⟨e, es, rfl, he⟩
      · exact ⟨_, .integer (isDigits_takeWhile he)⟩
      · rw [List.dropWhile_cons, if_neg (by decide)] at hrest
        cases hrest
        exact absurd he hd
  · rename_i hrest
    rcases h with ⟨e, es, rfl, he⟩ | ⟨e, es, rfl, he⟩
    · exact ⟨_, .integer (isDigits_takeWhile he)⟩
    · exact absurd (by rw [List.dropWhile_cons, if_neg (by decide)]) (hrest e es)

theorem lexeme_ne_endOfText (c : Char) (cs : List Char) : (lexeme c cs).kind ≠ .endOfText := by
  simp only [lexeme, comparison]
  repeat' split
  all_goals first
    | exact (word_kind_ne _).2.1
    | simp [number]

theorem lexeme_number {c : Char} {cs : List Char} (h : (lexeme c cs).kind = .number) :
    ∃ q, Rational.WritesDecimal (lexeme c cs).text q := by
  simp only [lexeme, comparison] at h ⊢
  repeat' split
  all_goals first
    | exact number_writes (.inl ⟨_, _, rfl, ‹_›⟩)
    | exact number_writes (.inr ⟨_, _, rfl, ‹_›⟩)
    | simp_all [word_kind_ne]

/-! ## Tokens -/

/-- The tokens of a text before its end. -/
def body (text : List Char) : List Token := (tokens text).dropLast

/-- What holds of every lexeme where it stands holds of all tokens but the last. -/
theorem exists_tokensFrom_eq {P : Token → Prop}
    (h : ∀ pos c cs, P (tokenAt (lexeme c cs).kind pos (lexeme c cs).text))
    (pos : Nat) (cs : List Char) : ∃ ts,
      tokensFrom pos cs = ts ++ [tokenAt .endOfText (pos + Text.width cs) []] ∧ ∀ t ∈ ts, P t := by
  induction pos, cs using tokensFrom.induct with
  | case1 pos => exact ⟨[], by rw [tokensFrom_nil]; rfl, by simp⟩
  | case2 pos c cs hgap ih =>
    obtain ⟨ts, hts, hall⟩ := ih
    refine ⟨ts, ?_, hall⟩
    rw [tokensFrom, if_pos hgap, hts, Text.width_cons, Nat.add_assoc]
  | case3 pos c cs hgap l stop ih =>
    obtain ⟨ts, hts, hall⟩ := ih
    have hwidth := congrArg Text.width (lexeme_append c cs)
    rw [Text.width_append] at hwidth
    refine ⟨tokenAt l.kind pos l.text :: ts, ?_, List.forall_mem_cons.mpr ⟨h pos c cs, hall⟩⟩
    rw [tokensFrom, if_neg hgap, ← hwidth, ← Nat.add_assoc]
    exact congrArg _ hts

theorem tokensFrom_ne_nil (pos : Nat) (cs : List Char) : tokensFrom pos cs ≠ [] := by
  obtain ⟨ts, hts, -⟩ := exists_tokensFrom_eq (P := fun _ => True) (fun _ _ _ => trivial) pos cs
  simp [hts]

/-- Every number among the tokens is a literal. -/
def WellLexed (ts : List Token) : Prop :=
  ∀ t ∈ ts, t.kind = .number → ∃ q, Rational.WritesDecimal t.text.toList q

theorem WellLexed.right {ts us : List Token} (h : WellLexed (ts ++ us)) : WellLexed us :=
  fun t ht => h t (List.mem_append_right _ ht)

theorem WellLexed.tail {t : Token} {ts : List Token} (h : WellLexed (t :: ts)) : WellLexed ts :=
  fun u hu => h u (List.mem_cons_of_mem _ hu)

theorem tokens_eq_body (text : List Char) :
    tokens text = body text ++ [tokenAt .endOfText (Text.width text) []] := by
  obtain ⟨ts, hts, -⟩ := exists_tokensFrom_eq (P := fun _ => True) (fun _ _ _ => trivial) 0 text
  rw [body, tokens, hts, List.dropLast_concat, Nat.zero_add]

theorem ne_endOfText_of_mem_body {text : List Char} {t : Token} (ht : t ∈ body text) :
    t.kind ≠ .endOfText := by
  obtain ⟨ts, hts, hall⟩ := exists_tokensFrom_eq (P := fun t => t.kind ≠ .endOfText)
    (fun _ c cs => lexeme_ne_endOfText c cs) 0 text
  rw [body, tokens, hts, List.dropLast_concat] at ht
  exact hall t ht

theorem wellLexed_tokens (text : List Char) : WellLexed (tokens text) := by
  obtain ⟨ts, hts, hall⟩ := exists_tokensFrom_eq
    (P := fun t => t.kind = .number → ∃ q, Rational.WritesDecimal t.text.toList q)
    (fun _ c cs h => by simpa using lexeme_number h) 0 text
  rw [tokens, hts]
  intro t ht hkind
  rcases List.mem_append.mp ht with ht | ht
  · exact hall t ht hkind
  · rw [List.mem_singleton.mp ht] at hkind
    cases hkind

end ExactSimplex.Source
