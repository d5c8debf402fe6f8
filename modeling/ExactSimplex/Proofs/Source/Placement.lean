import ExactSimplex.Proofs.Source.Lexemes
import ExactSimplex.Proofs.Text.Break
import ExactSimplex.Proofs.Text.Line

/-! A text is cut into the tokens of its lines, each where its line stands, with the token of a
line feed between two lines. No token reaches over a line feed or a gap, since none of the
characters that a token may need to look at after it can be one of these. -/

namespace ExactSimplex.Source

/-! ## Looking ahead -/

/-- What follows a text is empty, or begins with a line feed or a gap. -/
def AtBreak (tail : List Char) : Prop :=
  ∀ c ∈ tail.head?, c = '\n' ∨ isGap c = true

theorem atBreak_nil : AtBreak [] := by simp [AtBreak]

theorem atBreak_append {brk : List Char} (h : Text.IsBreak brk) (rest : List Char) :
    AtBreak (brk ++ rest) := by
  cases h <;> simp [AtBreak, isGap]

theorem atBreak_of_gap {gap : List Char} (h : ∀ c ∈ gap, isGap c = true) : AtBreak gap :=
  fun c hc => .inr (h c (List.mem_of_mem_head? hc))

section AtBreak

variable {tail : List Char}

theorem AtBreak.stops (h : AtBreak tail) {p : Char → Bool} (hfeed : p '\n' = false)
    (hgap : ∀ c, isGap c = true → p c = false) : Stops p tail := by
  intro c hc
  rcases h c hc with rfl | hc
  · exact hfeed
  · exact hgap c hc

theorem AtBreak.stops_isAlphanum (h : AtBreak tail) : Stops Char.isAlphanum tail :=
  h.stops rfl fun _ hgap => Bool.eq_false_iff.mpr fun hc =>
    Bool.false_ne_true ((isGap_of_isAlphanum hc).symm.trans hgap)

theorem AtBreak.stops_isDigit (h : AtBreak tail) : Stops Char.isDigit tail :=
  fun c hc => Bool.eq_false_iff.mpr fun hdigit =>
    Bool.false_ne_true ((h.stops_isAlphanum c hc).symm.trans (Text.isAlphanum_of_isDigit hdigit))

theorem AtBreak.not_cons {c : Char} {cs : List Char} (h : AtBreak (c :: cs)) {d : Char}
    (hd : d ≠ '\n' ∧ isGap d = false) : c ≠ d := by
  rintro rfl
  rcases h c rfl with hc | hc
  · exact hd.1 hc
  · exact Bool.false_ne_true (hd.2.symm.trans hc)

theorem takeWhile_append_stop {p : Char → Bool} (h : Stops p tail) (cs : List Char) :
    (cs ++ tail).takeWhile p = cs.takeWhile p := by
  induction cs with
  | nil => exact takeWhile_append_of_stops (List.forall_mem_nil _) h
  | cons c cs ih => cases hc : p c <;> simp [hc, ih]

theorem dropWhile_append_stop {p : Char → Bool} (h : Stops p tail) (cs : List Char) :
    (cs ++ tail).dropWhile p = cs.dropWhile p ++ tail := by
  induction cs with
  | nil => exact dropWhile_append_of_stops (List.forall_mem_nil _) h
  | cons c cs ih => cases hc : p c <;> simp [hc, ih]

theorem splitNumber_append_tail (h : AtBreak tail) (cs : List Char) :
    splitNumber (cs ++ tail) = ((splitNumber cs).1, (splitNumber cs).2 ++ tail) := by
  have hdigit := h.stops_isDigit
  unfold splitNumber
  rw [takeWhile_append_stop hdigit, dropWhile_append_stop hdigit]
  -- A point is read on for if a digit follows it, so what matters is where the digits end: with
  -- the text, one character before its end, or earlier.
  rcases cs.dropWhile Char.isDigit with _ | ⟨c, _ | ⟨d, ds⟩⟩
  · cases tail with
    | nil => rfl
    | cons c ds =>
      have hpoint : c ≠ '.' := h.not_cons (by decide)
      simp [hpoint]
  · cases tail with
    | nil => simp
    | cons d ds =>
      have hd : d.isDigit = false := stops_cons.mp hdigit
      by_cases hc : c = '.'
      · simp [hc, hd]
      · simp [hc]
  · by_cases hc : c = '.'
    · subst hc
      have htake := takeWhile_append_stop hdigit (d :: ds)
      have hdrop := dropWhile_append_stop hdigit (d :: ds)
      simp only [List.cons_append] at htake hdrop ⊢
      rw [htake, hdrop]
      split <;> rfl
    · simp [hc]

theorem take_append_tail (h : AtBreak tail) {word : List Char}
    (hword : ∀ c ∈ word, c ≠ '\n' ∧ isGap c = false) (cs : List Char) :
    (cs ++ tail).take word.length = word ↔ cs.take word.length = word := by
  induction word generalizing cs with
  | nil => simp
  | cons c word ih =>
    obtain ⟨hc, hword⟩ := List.forall_mem_cons.mp hword
    cases cs with
    | nil =>
      cases tail with
      | nil => simp
      | cons d ds => simp [h.not_cons hc]
    | cons d ds => simp [ih hword]

theorem dropNegative?_append_tail (h : AtBreak tail) (cs : List Char) :
    dropNegative? (cs ++ tail) = (dropNegative? cs).map (· ++ tail) := by
  have halphanum := h.stops_isAlphanum
  have hsuffix : ∀ c ∈ negativeSuffix, c ≠ '\n' ∧ isGap c = false := by
    simp [negativeSuffix, isGap]
  unfold dropNegative?
  simp only [take_append_tail h hsuffix]
  split
  · rename_i htake
    have hlength : negativeSuffix.length ≤ cs.length := by
      have := congrArg List.length htake
      rw [List.length_take] at this
      omega
    rw [List.drop_append_of_le_length hlength]
    cases cs.drop negativeSuffix.length with
    | nil =>
      cases tail with
      | nil => rfl
      | cons c ds => simp [stops_cons.mp halphanum]
    | cons c ds =>
      simp only [List.cons_append]
      split <;> rfl
  · rfl

/-- The lexeme with more text after it. -/
def Lexeme.before (l : Lexeme) (tail : List Char) : Lexeme := { l with rest := l.rest ++ tail }

theorem number_append_tail (h : AtBreak tail) (cs : List Char) :
    number (cs ++ tail) = (number cs).before tail := by
  simp only [number, splitNumber_append_tail h, Lexeme.before]

theorem word_append_tail (h : AtBreak tail) (cs : List Char) :
    word (cs ++ tail) = (word cs).before tail := by
  have halphanum := h.stops_isAlphanum
  simp only [word, takeWhile_append_stop halphanum, dropWhile_append_stop halphanum,
    dropNegative?_append_tail h]
  by_cases hnon : cs.takeWhile Char.isAlphanum = ['n', 'o', 'n']
  · simp only [if_pos hnon]
    cases dropNegative? (cs.dropWhile Char.isAlphanum) <;> rfl
  · simp only [if_neg hnon, Lexeme.before]

theorem comparison_append_tail (h : AtBreak tail) (c : Char) (bare withEqual : Relation)
    (cs : List Char) :
    comparison c bare withEqual (cs ++ tail) = (comparison c bare withEqual cs).before tail := by
  cases cs with
  | nil =>
    cases tail with
    | nil => rfl
    | cons d ds =>
      have hd : d ≠ '=' := h.not_cons (by decide)
      simp [comparison, hd, Lexeme.before]
  | cons d ds =>
    by_cases hd : d = '='
    · subst hd
      rfl
    · simp [comparison, hd, Lexeme.before]

theorem point_append_tail (h : AtBreak tail) (cs : List Char) :
    lexeme '.' (cs ++ tail) = (lexeme '.' cs).before tail := by
  cases cs with
  | nil =>
    cases tail with
    | nil => rfl
    | cons d ds =>
      have hd : d.isDigit = false := stops_cons.mp h.stops_isDigit
      simp [lexeme, hd, Lexeme.before]
  | cons d ds =>
    by_cases hd : d.isDigit
    · simpa [lexeme, hd] using number_append_tail h ('.' :: d :: ds)
    · simp [lexeme, hd, Lexeme.before]

/-- A lexeme is the same whatever break and text come after it. -/
theorem lexeme_append_tail (h : AtBreak tail) (c : Char) (cs : List Char) :
    lexeme c (cs ++ tail) = (lexeme c cs).before tail := by
  have hnumber := number_append_tail h (c :: cs)
  have hword := word_append_tail h (c :: cs)
  rw [List.cons_append] at hnumber hword
  by_cases hpoint : c = '.'
  · exact hpoint ▸ point_append_tail h cs
  · unfold lexeme
    split
    case h_7 => exact comparison_append_tail h ..
    case h_8 => exact comparison_append_tail h ..
    case h_9 => exact absurd rfl hpoint
    case h_10 =>
      split
      · exact hnumber
      · split
        · exact hword
        · rfl
    all_goals rfl

end AtBreak

/-! ## Tokens moved along the text -/

def Span.shift (k : Nat) (s : Span) : Span := ⟨k + s.start, k + s.stop⟩

def Token.shift (k : Nat) (t : Token) : Token := { t with span := t.span.shift k }

theorem tokensFrom_shift (k pos : Nat) (cs : List Char) :
    tokensFrom (k + pos) cs = (tokensFrom pos cs).map (Token.shift k) := by
  induction pos, cs using tokensFrom.induct with
  | case1 pos =>
    rw [tokensFrom_nil, tokensFrom_nil]
    rfl
  | case2 pos c cs hgap ih =>
    rw [tokensFrom, if_pos hgap, tokensFrom, if_pos hgap, ← ih, Nat.add_assoc]
  | case3 pos c cs hgap l stop ih =>
    rw [tokensFrom, if_neg hgap, tokensFrom, if_neg hgap, List.map_cons, ← ih]
    simp [Token.shift, Span.shift, stop, l, Nat.add_assoc]

/-- Before a break, a text is cut into its own tokens, and what follows into the others. -/
theorem tokensFrom_append_tail {tail : List Char} (h : AtBreak tail) (pos : Nat) (cs : List Char) :
    tokensFrom pos (cs ++ tail) =
      (tokensFrom pos cs).dropLast ++ tokensFrom (pos + Text.width cs) tail := by
  induction pos, cs using tokensFrom.induct with
  | case1 pos => simp [tokensFrom_nil]
  | case2 pos c cs hgap ih =>
    rw [List.cons_append, tokensFrom, if_pos hgap, ih, tokensFrom, if_pos hgap, Text.width_cons,
      Nat.add_assoc]
  | case3 pos c cs hgap l stop ih =>
    have hstop : stop + Text.width l.rest = pos + Text.width (c :: cs) := by
      rw [← lexeme_append c cs, Text.width_append, ← Nat.add_assoc]
    rw [List.cons_append, tokensFrom, if_neg hgap, lexeme_append_tail h]
    rw [tokensFrom, if_neg hgap, List.dropLast_cons_of_ne_nil (tokensFrom_ne_nil _ _),
      List.cons_append, ← hstop]
    exact congrArg _ ih

theorem lexesTo_newline (rest : List Char) : LexesTo .newline ['\n'] rest :=
  ⟨_, _, rfl, rfl, rfl⟩

theorem tokensFrom_return (pos : Nat) (rest : List Char) :
    tokensFrom pos ('\r' :: rest) = tokensFrom (pos + 1) rest := by
  rw [tokensFrom]
  rfl

theorem tokensFrom_break {brk : List Char} (h : Text.IsBreak brk) (pos : Nat) (rest : List Char) :
    ∃ feed, feed.kind = .newline ∧
      tokensFrom pos (brk ++ rest) = feed :: tokensFrom (pos + Text.width brk) rest := by
  cases h with
  | feed => exact ⟨tokenAt .newline pos _, rfl, (lexesTo_newline rest).tokensFrom_eq pos⟩
  | returnFeed =>
    exact ⟨tokenAt .newline (pos + 1) _, rfl,
      (tokensFrom_return pos _).trans ((lexesTo_newline rest).tokensFrom_eq (pos + 1))⟩

/-! ## Lines -/

theorem dropLast_tokensFrom (pos : Nat) (text : List Char) :
    (tokensFrom pos text).dropLast = (body text).map (Token.shift pos) := by
  rw [body, tokens, List.map_dropLast, ← tokensFrom_shift, Nat.add_zero]

/-- The tokens of a line come before those of the rest, with the token of a line feed between. -/
theorem tokensFrom_line {brk : List Char} (h : Text.IsBreak brk) (pos : Nat)
    (line rest : List Char) : ∃ feed, feed.kind = .newline ∧
      tokensFrom pos (line ++ brk ++ rest) = (body line).map (Token.shift pos) ++
        feed :: tokensFrom (pos + Text.width (line ++ brk)) rest := by
  obtain ⟨feed, hfeed, hbreak⟩ := tokensFrom_break h (pos + Text.width line) rest
  refine ⟨feed, hfeed, ?_⟩
  rw [List.append_assoc, tokensFrom_append_tail (atBreak_append h rest), dropLast_tokensFrom,
    hbreak, Text.width_append, Nat.add_assoc]

theorem lexeme_ne_newline {c : Char} (hc : c ≠ '\n') (cs : List Char) :
    (lexeme c cs).kind ≠ .newline := by
  simp only [lexeme, comparison]
  repeat' split
  all_goals first
    | exact (word_kind_ne _).2.2
    | simp [number]
  exact hc rfl

/-- Only a line feed gives the token of one. -/
theorem ne_newline_of_mem_tokensFrom {pos : Nat} {cs : List Char} (h : '\n' ∉ cs) :
    ∀ t ∈ tokensFrom pos cs, t.kind ≠ .newline := by
  induction pos, cs using tokensFrom.induct with
  | case1 pos => simp [tokensFrom_nil]
  | case2 pos c cs hgap ih =>
    rw [tokensFrom, if_pos hgap]
    exact ih (List.not_mem_of_not_mem_cons h)
  | case3 pos c cs hgap l stop ih =>
    have hrest : '\n' ∉ l.rest :=
      fun hmem => h (lexeme_append c cs ▸ List.mem_append_right _ hmem)
    rw [tokensFrom, if_neg hgap]
    exact List.forall_mem_cons.mpr
      ⟨lexeme_ne_newline (List.ne_of_not_mem_cons h).symm cs, ih hrest⟩

/-- The token stands in a line. -/
def Token.inLine (t : Token) : Bool := t.kind != .newline && t.kind != .endOfText

theorem inLine_of_mem_body {line : List Char} (h : '\n' ∉ line) {t : Token}
    (ht : t ∈ body line) : t.inLine = true := by
  have hnewline := ne_newline_of_mem_tokensFrom h t (List.dropLast_subset _ ht)
  simp [Token.inLine, hnewline, ne_endOfText_of_mem_body ht]

theorem filter_inLine_body {line : List Char} (h : '\n' ∉ line) (pos : Nat) :
    ((body line).map (Token.shift pos)).filter Token.inLine =
      (body line).map (Token.shift pos) :=
  List.filter_eq_self.mpr fun _ ht => by
    obtain ⟨t, hmem, rfl⟩ := List.mem_map.mp ht
    change t.inLine = true
    exact inLine_of_mem_body h hmem

theorem body_eq_filter (text : List Char) :
    body text = (tokens text).filter fun t => t.kind != .endOfText := by
  have hself : (body text).filter (fun t => t.kind != .endOfText) = body text :=
    List.filter_eq_self.mpr fun t ht => by simpa using ne_endOfText_of_mem_body ht
  rw [tokens_eq_body, List.filter_append, hself]
  simp

theorem tokensFrom_eq_body (pos : Nat) (line : List Char) :
    tokensFrom pos line = (body line).map (Token.shift pos) ++
      [tokenAt .endOfText (pos + Text.width line) []] := by
  rw [← dropLast_tokensFrom, ← tokensFrom_nil]
  simpa using tokensFrom_append_tail atBreak_nil pos line

theorem filter_inLine_tokensFrom (pos : Nat) (cs : List Char) :
    (tokensFrom pos cs).filter Token.inLine =
      (Text.lines cs).zipIdx.flatMap fun line =>
        (body line.1).map (Token.shift (pos + Text.lineStart cs line.2)) := by
  induction cs using Text.lines_induction generalizing pos with
  | nil => simp [tokensFrom_nil, Token.inLine]
  | last line hmem hlines =>
    rw [tokensFrom_eq_body, List.filter_append, filter_inLine_body hmem, hlines]
    simp [Token.inLine]
  | first line brk rest hbrk hmem hlines ih =>
    obtain ⟨feed, hfeed, htokens⟩ := tokensFrom_line hbrk pos line rest
    have hnot : feed.inLine = false := by simp [Token.inLine, hfeed]
    rw [htokens, List.filter_append, filter_inLine_body hmem,
      List.filter_cons_of_neg (by simp [hnot]), ih, hlines, List.zipIdx_cons, List.zipIdx_succ,
      List.flatMap_cons, List.flatMap_map]
    simp only [Text.lineStart_zero, Nat.add_zero, Text.lineStart_succ hbrk hmem, Nat.add_assoc]

theorem countP_newline_tokensFrom (pos : Nat) (cs : List Char) :
    (tokensFrom pos cs).countP (·.kind == .newline) = cs.count '\n' := by
  induction cs using Text.lines_induction generalizing pos with
  | nil => simp [tokensFrom_nil]
  | last line hmem _ =>
    rw [List.count_eq_zero_of_not_mem hmem, List.countP_eq_zero]
    exact fun t ht => by simpa using ne_newline_of_mem_tokensFrom hmem t ht
  | first line brk rest hbrk hmem _ ih =>
    obtain ⟨feed, hfeed, htokens⟩ := tokensFrom_line hbrk pos line rest
    have hline : ((body line).map (Token.shift pos)).countP (·.kind == .newline) = 0 := by
      rw [List.countP_eq_zero, ← dropLast_tokensFrom]
      exact fun t ht => by
        simpa using ne_newline_of_mem_tokensFrom hmem t (List.dropLast_subset _ ht)
    rw [htokens, List.countP_append, hline, List.countP_cons, ih]
    simp only [hfeed, List.count_append, List.count_eq_zero_of_not_mem hmem, hbrk.count_feed]
    simp [Nat.add_comm]

/-- The tokens of a text that stand in lines are the tokens of its lines, in order, each line cut
on its own and its tokens moved to the byte at which the line starts. Besides these there is one
token for each line feed. -/
theorem tokens_eq_flatMap_lines (cs : List Char) :
    (tokens cs).filter (fun t => t.kind != .newline && t.kind != .endOfText) =
      ((Text.lines cs).zipIdx.flatMap fun (line, i) =>
        ((tokens line).filter fun t => t.kind != .endOfText).map
          (Token.shift (Text.lineStart cs i))) ∧
    (tokens cs).countP (·.kind == .newline) = cs.count '\n' ∧
    ∀ i line, (Text.lines cs)[i]? = some line →
      ∃ before after, cs = before ++ line ++ after ∧
        Text.width before = Text.lineStart cs i ∧ before.count '\n' = i ∧
        ∀ c ∈ before.getLast?, c = '\n' := by
  refine ⟨?tokens, countP_newline_tokensFrom 0 cs, fun _ _ => Text.exists_append_of_line⟩
  case tokens =>
    have h := filter_inLine_tokensFrom 0 cs
    simp only [Nat.zero_add, body_eq_filter] at h
    exact h

end ExactSimplex.Source
