import ExactSimplex.Proofs.Source.Acceptance
import ExactSimplex.Proofs.Source.Placement

/-! Gaps at the ends of a line. After a gap the tokens of a line stand elsewhere, and a gap at the
end gives none. What tokens write depends on where they stand only in so far as two of them touch,
so a line is read the same with gaps around it. -/

namespace ExactSimplex.Source

/-! ## Tokens that are moved together -/

/-- Tokens are what they were, elsewhere, and those that touched still do. -/
structure Moves (f : Token → Token) : Prop where
  kind : ∀ t, (f t).kind = t.kind
  text : ∀ t, (f t).text = t.text
  touches : ∀ {t u}, t.Touches u → (f t).Touches (f u)

/-- The token further to the front. -/
def Token.unshift (k : Nat) (t : Token) : Token :=
  { t with span := ⟨t.span.start - k, t.span.stop - k⟩ }

theorem moves_shift (k : Nat) : Moves (Token.shift k) where
  kind _ := rfl
  text _ := rfl
  touches h := by
    simp only [Token.Touches, Span.touches, Token.shift, Span.shift, beq_iff_eq] at h ⊢
    rw [h]

theorem moves_unshift (k : Nat) : Moves (Token.unshift k) where
  kind _ := rfl
  text _ := rfl
  touches h := by
    simp only [Token.Touches, Span.touches, Token.unshift, beq_iff_eq] at h ⊢
    rw [h]

theorem unshift_shift (k : Nat) (ts : List Token) :
    (ts.map (Token.shift k)).map (Token.unshift k) = ts := by
  rw [List.map_map]
  refine List.map_id'' (fun t => ?_) ts
  simp [Token.shift, Span.shift, Token.unshift]

section

variable {f : Token → Token} {ts : List Token} {q : Rat} {terms : List (String × Rat)}

theorem Moves.isName (hf : Moves f) {t : Token} (h : t.IsName) : (f t).IsName := by
  rw [Token.IsName, hf.kind, hf.text]
  exact h

theorem WritesMagnitude.moved (hf : Moves f) (h : WritesMagnitude ts q) :
    WritesMagnitude (ts.map f) q := by
  cases h with
  | number hkind hwrites => exact .number (by rwa [hf.kind]) (by rwa [hf.text])
  | @quotient t slash u hkind hslash hbelow htouch htouch' htop hbottom hzero =>
    rw [← hf.text t] at htop ⊢
    rw [← hf.text u] at hbottom hzero ⊢
    exact .quotient (by rwa [hf.kind]) (by rwa [hf.kind]) (by rwa [hf.kind]) (hf.touches htouch)
      (hf.touches htouch') htop hbottom hzero

theorem WritesValue.moved (hf : Moves f) (h : WritesValue ts q) : WritesValue (ts.map f) q := by
  cases h with
  | magnitude hm => exact .magnitude (hm.moved hf)
  | negative hsign htouch hm =>
    exact .negative (by rwa [hf.kind]) (hf.touches htouch) (hm.moved hf)

theorem WritesCoefficient.moved (hf : Moves f) (h : WritesCoefficient ts q) :
    WritesCoefficient (ts.map f) q := by
  cases h with
  | implicit => exact .implicit
  | sign hsign => exact .sign (by rwa [hf.kind])
  | value hvalue => exact .value (hvalue.moved hf)

theorem WritesTerm.moved (hf : Moves f) {t : String × Rat} (h : WritesTerm ts t) :
    WritesTerm (ts.map f) t := by
  cases h with
  | @mk ts name q hcoefficient hname =>
    rw [List.map_append, ← hf.text name]
    exact .mk (hcoefficient.moved hf) (hf.isName hname)

theorem WritesLater.moved (hf : Moves f) (h : WritesLater ts terms) :
    WritesLater (ts.map f) terms := by
  induction h with
  | none => exact .none
  | joined hsign ht _ ih =>
    rw [List.map_cons, List.map_append]
    exact .joined (by rwa [hf.kind]) (ht.moved hf) ih

theorem WritesExpression.moved (hf : Moves f) (h : WritesExpression ts terms) :
    WritesExpression (ts.map f) terms := by
  cases h with
  | mk ht hlater hnodup =>
    rw [List.map_append]
    exact .mk (ht.moved hf) (hlater.moved hf) hnodup

theorem DenotesObjective.moved (hf : Moves f) {o : Mentioning Objective}
    (h : DenotesObjective ts o) : DenotesObjective (ts.map f) o := by
  obtain ⟨terms, hwrites, hread⟩ := h
  refine ⟨terms, ?_, hread⟩
  generalize o.value.direction = d, o.value.goal = goal at hwrites ⊢
  cases hwrites with
  | @mk word goal _ _ _ _ hword hgoal hequals hterms =>
    rw [← hf.text goal]
    exact .mk (by rwa [hf.kind]) (hf.isName hgoal) (by rwa [hf.kind]) (hterms.moved hf)

theorem DenotesConstraint.moved (hf : Moves f) {c : Mentioning Constraint}
    (h : DenotesConstraint ts c) : DenotesConstraint (ts.map f) c := by
  obtain ⟨terms, ⟨hterms, hsymbol, hvalue⟩, hread⟩ := h
  refine ⟨terms, ?_, hread⟩
  rw [List.map_append, List.map_cons]
  exact .mk (hterms.moved hf) (by rwa [hf.kind]) (hvalue.moved hf)

theorem WritesNames.moved (hf : Moves f) {names : List String} (h : WritesNames ts names) :
    WritesNames (ts.map f) names := by
  induction h with
  | @last t ht =>
    rw [← hf.text t]
    exact .last (hf.isName ht)
  | @more t _ _ _ ht hcomma _ ih =>
    rw [← hf.text t]
    exact .more (hf.isName ht) (by rwa [hf.kind]) ih

theorem WritesDeclaration.moved (hf : Moves f) {entries : List (String × Restriction)}
    (h : WritesDeclaration ts entries) : WritesDeclaration (ts.map f) entries := by
  cases h with
  | mk hnames hword =>
    rw [List.map_append]
    exact .mk (hnames.moved hf) (by rwa [hf.kind])

end

/-- What tokens write is the same wherever they stand, if it is the same when they are moved. -/
theorem shift_iff {α : Type} {writes : List Token → α → Prop}
    (hmoved : ∀ {f ts a}, Moves f → writes ts a → writes (ts.map f) a) {ts : List Token} {a : α}
    (k : Nat) : writes (ts.map (Token.shift k)) a ↔ writes ts a := by
  refine ⟨fun h => ?_, hmoved (moves_shift k)⟩
  have hback := hmoved (moves_unshift k) h
  rwa [unshift_shift] at hback

/-! ## Gaps -/

def IsGaps (cs : List Char) : Prop := ∀ c ∈ cs, isGap c = true

theorem tokensFrom_gaps {gap : List Char} (h : IsGaps gap) (pos : Nat) (rest : List Char) :
    tokensFrom pos (gap ++ rest) = tokensFrom (pos + Text.width gap) rest := by
  induction gap generalizing pos with
  | nil => rfl
  | cons c gap ih =>
    obtain ⟨hc, hgap⟩ := List.forall_mem_cons.mp h
    rw [List.cons_append, tokensFrom, if_pos hc, ih hgap, Text.width_cons, Nat.add_assoc]

/-- Gaps around a line move its tokens. -/
theorem body_gaps {left right : List Char} (hleft : IsGaps left) (hright : IsGaps right)
    (line : List Char) :
    body (left ++ line ++ right) = (body line).map (Token.shift (Text.width left)) := by
  have hend : ∀ pos, tokensFrom pos right = [tokenAt .endOfText (pos + Text.width right) []] := by
    intro pos
    simpa [tokensFrom_nil] using tokensFrom_gaps hright pos []
  rw [body, tokens, List.append_assoc, tokensFrom_gaps hleft,
    tokensFrom_append_tail (atBreak_of_gap hright), hend, List.dropLast_concat, Nat.zero_add,
    dropLast_tokensFrom]

theorem isBlank_of_isGap {c : Char} (h : isGap c = true) : Text.isBlank c = true := by
  simp only [isGap, Bool.or_eq_true, beq_iff_eq] at h
  rcases h with (rfl | rfl) | rfl <;> rfl

theorem IsGaps.all_isBlank {gap : List Char} (h : IsGaps gap) : gap.all Text.isBlank = true :=
  List.all_eq_true.mpr fun c hc => isBlank_of_isGap (h c hc)

/-! ## Lines that are read the same -/

/-- The two lines are read the same, and both are blank or neither is. -/
structure ReadAlike (line other : List Char) : Prop where
  blank : other.all Text.isBlank = line.all Text.isBlank
  objective : ∀ o, readObjective other = .ok o ↔ readObjective line = .ok o
  constraint : ∀ c, readConstraint other = .ok c ↔ readConstraint line = .ok c
  declaration : ∀ entries, readDeclaration other = .ok entries ↔ readDeclaration line = .ok entries

namespace ReadAlike

variable {line other third : List Char}

theorem refl (line : List Char) : ReadAlike line line :=
  ⟨rfl, fun _ => Iff.rfl, fun _ => Iff.rfl, fun _ => Iff.rfl⟩

theorem symm (h : ReadAlike line other) : ReadAlike other line :=
  ⟨h.blank.symm, fun o => (h.objective o).symm, fun c => (h.constraint c).symm,
    fun entries => (h.declaration entries).symm⟩

theorem trans (h : ReadAlike line other) (h' : ReadAlike other third) : ReadAlike line third :=
  ⟨h'.blank.trans h.blank, fun o => (h'.objective o).trans (h.objective o),
    fun c => (h'.constraint c).trans (h.constraint c),
    fun entries => (h'.declaration entries).trans (h.declaration entries)⟩

/-- A line is read the same with gaps around it. -/
theorem of_gaps {left right : List Char} (hleft : IsGaps left) (hright : IsGaps right)
    (line : List Char) : ReadAlike line (left ++ line ++ right) where
  blank := by simp [List.all_append, hleft.all_isBlank, hright.all_isBlank]
  objective o := by
    rw [readObjective_eq_ok, readObjective_eq_ok, body_gaps hleft hright]
    exact shift_iff (fun hf h => DenotesObjective.moved hf h) _
  constraint c := by
    rw [readConstraint_eq_ok, readConstraint_eq_ok, body_gaps hleft hright]
    exact shift_iff (fun hf h => DenotesConstraint.moved hf h) _
  declaration entries := by
    rw [readDeclaration_eq_ok, readDeclaration_eq_ok, body_gaps hleft hright]
    exact shift_iff (fun hf h => WritesDeclaration.moved hf h) _

end ReadAlike

end ExactSimplex.Source
