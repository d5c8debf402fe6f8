import ExactSimplex.Proofs.Source.Cursor

/-! The tokens of a text cover it. They come one after the other, each where its text stands, and
what is left out between them are gaps; so the text can be put together from both. -/

namespace ExactSimplex.Source

/-- A character of two texts stands in the first, or in the second after all of the first. -/
theorem eq_append_cons_cases {first second before after : List Char} {c : Char}
    (h : first ++ second = before ++ c :: after) :
    (∃ later, first = before ++ c :: later) ∨
      ∃ more, before = first ++ more ∧ second = more ++ c :: after := by
  rcases List.append_eq_append_iff.mp h with ⟨more, hbefore, hsecond⟩ | ⟨more, hfirst, hafter⟩
  · exact .inr ⟨more, hbefore, hsecond⟩
  · cases more with
    | nil => exact .inr ⟨[], by simpa using hfirst.symm, hafter.symm⟩
    | cons d more =>
      obtain ⟨rfl, -⟩ := List.cons.inj hafter
      exact .inl ⟨more, hfirst⟩

/-- The tokens of a text that begins at byte `pos`, each after a gap, up to the end of the text. -/
inductive Tiles : Nat → List Token → List Char → Prop
  | nil (pos : Nat) : Tiles pos [] []
  | cons {pos : Nat} {gap text rest : List Char} {ts : List Token} (kind : TokenKind) :
      (∀ c ∈ gap, isGap c = true) → Tiles (pos + Text.width gap + Text.width text) ts rest →
      Tiles pos (tokenAt kind (pos + Text.width gap) text :: ts) (gap ++ text ++ rest)

/-- The token covers the byte. -/
def Token.Covers (t : Token) (byte : Nat) : Prop := t.span.start ≤ byte ∧ byte < t.span.stop

/-- The token has the text that stands in the source from its first byte to its last. -/
def Token.CutFrom (t : Token) (source : List Char) : Prop :=
  ∃ before after, source = before ++ t.text.toList ++ after ∧
    t.span = ⟨Text.width before, Text.width (before ++ t.text.toList)⟩

variable {pos : Nat} {t : Token} {ts : List Token} {cs : List Char}

theorem Tiles.gap {c : Char} (hc : isGap c = true) (h : Tiles (pos + c.utf8Size) (t :: ts) cs) :
    Tiles pos (t :: ts) (c :: cs) := by
  cases h with
  | @cons _ gap text rest _ kind hgap hrest =>
    rw [Nat.add_assoc pos, ← Text.width_cons] at hrest ⊢
    exact .cons kind (List.forall_mem_cons.mpr ⟨hc, hgap⟩) hrest

theorem tiles_tokensFrom (pos : Nat) (cs : List Char) : Tiles pos (tokensFrom pos cs) cs := by
  induction pos, cs using tokensFrom.induct with
  | case1 pos =>
    rw [tokensFrom_nil]
    exact @Tiles.cons pos [] [] [] [] .endOfText (List.forall_mem_nil _) (.nil _)
  | case2 pos c cs hc ih =>
    rw [tokensFrom, if_pos hc]
    obtain ⟨t, ts, hts⟩ := List.exists_cons_of_ne_nil (tokensFrom_ne_nil (pos + c.utf8Size) cs)
    rw [hts] at ih ⊢
    exact ih.gap hc
  | case3 pos c cs hc l stop ih =>
    rw [tokensFrom, if_neg hc, ← lexeme_append c cs]
    exact @Tiles.cons pos [] _ _ _ l.kind (List.forall_mem_nil _) ih

namespace Tiles

theorem cutFrom (h : Tiles pos ts cs) {before : List Char} (hpos : pos = Text.width before) :
    ∀ t ∈ ts, t.CutFrom (before ++ cs) := by
  induction h generalizing before with
  | nil => simp
  | @cons pos gap text rest ts kind _ _ ih =>
    subst hpos
    refine List.forall_mem_cons.mpr ⟨⟨before ++ gap, rest, ?_, ?_⟩, ?_⟩
    · simp
    · simp [tokenAt, Nat.add_assoc]
    · have hrest := @ih (before ++ gap ++ text) (by simp [Nat.add_assoc])
      simpa using hrest

theorem le_start (h : Tiles pos ts cs) : ∀ t ∈ ts, pos ≤ t.span.start := by
  induction h with
  | nil => simp
  | cons kind _ _ ih =>
    refine List.forall_mem_cons.mpr ⟨Nat.le_add_right _ _, fun t ht => ?_⟩
    exact Nat.le_trans (by omega) (ih t ht)

theorem pairwise (h : Tiles pos ts cs) :
    ts.Pairwise fun a b => a.span.stop ≤ b.span.start := by
  induction h with
  | nil => exact .nil
  | cons kind _ hrest ih => exact .cons hrest.le_start ih

theorem isGap_of_not_covers (h : Tiles pos ts cs) {before after : List Char} {c : Char}
    (hcs : cs = before ++ c :: after) (hout : ∀ t ∈ ts, ¬ t.Covers (pos + Text.width before)) :
    isGap c = true := by
  induction h generalizing before with
  | nil => simp at hcs
  | @cons pos gap text rest ts kind hgap _ ih =>
    obtain ⟨hhead, hout⟩ := List.forall_mem_cons.mp hout
    rw [List.append_assoc] at hcs
    rcases eq_append_cons_cases hcs with ⟨later, rfl⟩ | ⟨more, rfl, hmore⟩
    · exact hgap c (by simp)
    rcases eq_append_cons_cases hmore with ⟨later, rfl⟩ | ⟨more, rfl, hrest⟩
    · refine absurd ⟨?_, ?_⟩ hhead <;> simp only [tokenAt, Text.width_append, Text.width_cons]
      · omega
      · have := c.utf8Size_pos
        omega
    · exact ih hrest (by simpa [Nat.add_assoc] using hout)

end Tiles

/-- The cursor cuts every text into tokens without a fault. The last token, and no other, is the end
of the text; each of the others covers a byte and is cut from the text where it stands, after those
before it; the characters that no token covers are spaces, tabs and carriage returns, and the text
is made of these and the tokens. -/
theorem tokens_cover (source : List Char) : ∃ ts last,
    (Cursor.start source).tokens = .ok (ts ++ [last]) ∧ tokens source = ts ++ [last] ∧
    last = ⟨.endOfText, ⟨Text.width source, Text.width source⟩, ""⟩ ∧
    (∀ t ∈ ts, t.kind ≠ .endOfText ∧ t.span.start < t.span.stop) ∧
    (∀ t ∈ ts ++ [last], t.CutFrom source) ∧
    (ts ++ [last]).Pairwise (fun a b => a.span.stop ≤ b.span.start) ∧
    (∀ before c after, source = before ++ c :: after →
      (∀ t ∈ ts, ¬ t.Covers (Text.width before)) → c = ' ' ∨ c = '\t' ∨ c = '\r') ∧
    Tiles 0 (ts ++ [last]) source := by
  obtain ⟨ts, htokens, hinside⟩ := exists_tokensFrom_eq
    (P := fun t => t.kind ≠ .endOfText ∧ t.span.start < t.span.stop)
    (fun pos c cs => ⟨lexeme_ne_endOfText c cs,
      Nat.lt_add_of_pos_right (Text.width_pos (lexeme_ne_nil c cs))⟩) 0 source
  rw [Nat.zero_add] at htokens
  have htiles := tiles_tokensFrom 0 source
  rw [htokens] at htiles
  refine ⟨ts, _, (Cursor.tokens_start source).trans (congrArg _ htokens), htokens, rfl, hinside,
    htiles.cutFrom Text.width_nil.symm, htiles.pairwise, fun before c after hsource hout => ?_,
    htiles⟩
  have hlast : ∀ t ∈ [tokenAt .endOfText (Text.width source) []],
      ¬ t.Covers (Text.width before) := by
    simp [Token.Covers, tokenAt]
  have hgap := htiles.isGap_of_not_covers hsource fun t ht => by
    rw [Nat.zero_add]
    exact (List.mem_append.mp ht).elim (hout t) (hlast t)
  simpa [isGap, or_assoc] using hgap

end ExactSimplex.Source
