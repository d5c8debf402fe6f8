import Mathlib.Data.List.Forall2
import Mathlib.Logic.Relation
import ExactSimplex.Proofs.Source.Gaps

/-! Edits of a text that leave its program. Such an edit is made on the segments of the text: a
blank one comes in, the break or the white space at the ends of one changes, or those below the
objective change places while the constraints stay in order and the declarations do. A program is
its objective, its constraints and its entries, each in their order, and no edit changes these. -/

namespace ExactSimplex.Source

open Text (IsReturn IsSegments)

/-! ## Edits -/

instance (line : List Char) : Decidable (IsConstraint line) :=
  match h : readConstraint line with
  | .ok c => .isTrue ⟨c, h⟩
  | .error _ => .isFalse (by simp [IsConstraint, h])

instance (line : List Char) : Decidable (IsDeclaration line) :=
  match h : readDeclaration line with
  | .ok entries => .isTrue ⟨entries, h⟩
  | .error _ => .isFalse (by simp [IsDeclaration, h])

/-- The lines that are not blank. -/
def visible (lines : List (List Char)) : List (List Char) :=
  lines.filter fun line => !line.all Text.isBlank

/-- Spaces and tabs. -/
def IsPadding (cs : List Char) : Prop := ∀ c ∈ cs, c = ' ' ∨ c = '\t'

theorem IsPadding.isGaps {cs : List Char} (h : IsPadding cs) : IsGaps cs := by
  intro c hc
  rcases h c hc with rfl | rfl <;> rfl

/-- An edit of a text, on its segments. -/
inductive Rearranges : List (List Char) → List (List Char) → Prop
  /-- A line of white space comes in. -/
  | blank {before after : List (List Char)} {line : List Char} :
      line.all Text.isBlank = true → '\n' ∉ line →
      Rearranges (before ++ after) (before ++ line :: after)
  /-- A carriage return before the feed comes or goes. -/
  | lineBreak {before after : List (List Char)} {line ret ret' : List Char} :
      IsReturn ret → IsReturn ret' →
      Rearranges (before ++ (line ++ ret) :: after) (before ++ (line ++ ret') :: after)
  /-- Spaces and tabs come to the ends of a line. -/
  | pad {before after : List (List Char)} {left line right ret : List Char} :
      IsPadding left → IsPadding right → IsReturn ret →
      Rearranges (before ++ (line ++ ret) :: after)
        (before ++ (left ++ line ++ right ++ ret) :: after)
  /-- The lines other than the objective, which stays the first that is not blank, change places.
  Neither two constraints nor two declarations do. -/
  | permute {blanks blanks' rest rest' : List (List Char)} {objective : List Char} :
      objective.all Text.isBlank = false → visible (blanks ++ blanks') = [] →
      (blanks ++ rest).Perm (blanks' ++ rest') →
      rest.filter (IsConstraint ·) = rest'.filter (IsConstraint ·) →
      rest.filter (IsDeclaration ·) = rest'.filter (IsDeclaration ·) →
      Rearranges (blanks ++ objective :: rest) (blanks' ++ objective :: rest')

variable {lines others parts parts' : List (List Char)} {line other : List Char}
  {o : Mentioning Objective} {constraints : List (Mentioning Constraint)}
  {entries : List (String × Restriction)} {p : Program}

/-! ## What the lines of a text give -/

theorem visible_append (lines others : List (List Char)) :
    visible (lines ++ others) = visible lines ++ visible others :=
  List.filter_append lines others

theorem visible_cons_of_blank (h : line.all Text.isBlank = true) (lines : List (List Char)) :
    visible (line :: lines) = visible lines :=
  List.filter_cons_of_neg (by rw [h]; decide)

theorem visible_cons_of_shown (h : line.all Text.isBlank = false) (lines : List (List Char)) :
    visible (line :: lines) = line :: visible lines :=
  List.filter_cons_of_pos (by rw [h]; rfl)

/-- The first line that is not blank is the objective, and the others give the constraints and the
entries. -/
def Gives (lines : List (List Char)) (o : Mentioning Objective)
    (constraints : List (Mentioning Constraint)) (entries : List (String × Restriction)) : Prop :=
  ∃ first rest, visible lines = first :: rest ∧ readObjective first = .ok o ∧
    (∀ line ∈ rest, IsConstraint line ∨ IsDeclaration line) ∧
    constraintsRead rest = constraints ∧ entriesRead rest = entries

/-- A text whose lines give the same is read as the same program. -/
theorem readProgramFrom_of_gives {text text' : List Char}
    (h : ∀ {o constraints entries}, Gives (Text.lines text) o constraints entries →
      Gives (Text.lines text') o constraints entries)
    (hread : readProgramFrom text = .ok p) : readProgramFrom text' = .ok p := by
  obtain ⟨first, rest, o, hlines, hobjective, hfit, rfl⟩ := readProgramFrom_eq_ok.mp hread
  obtain ⟨hkinds, hdistinct, hfault⟩ := (acceptable_iff hobjective).mp hfit
  obtain ⟨first', rest', hlines', hobjective', hkinds', hconstraints, hentries⟩ :=
    h ⟨first, rest, hlines, hobjective, hkinds, rfl, rfl⟩
  have hsame : assembled o rest' = assembled o rest := by
    rw [assembled, assembled, hconstraints, hentries]
  refine readProgramFrom_eq_ok.mpr ⟨first', rest', o, hlines', hobjective', ?_, hsame.symm⟩
  refine (acceptable_iff hobjective').mpr ⟨hkinds', ?_, ?_⟩
  · rwa [hentries]
  · rwa [hsame, hconstraints]

/-! ## Lines that are read the same -/

namespace ReadAlike

theorem isConstraint_iff (h : ReadAlike line other) : IsConstraint other ↔ IsConstraint line :=
  exists_congr h.constraint

theorem isDeclaration_iff (h : ReadAlike line other) : IsDeclaration other ↔ IsDeclaration line :=
  exists_congr h.declaration

theorem constraintsRead_eq (h : ReadAlike line other) :
    constraintsRead [other] = constraintsRead [line] := by
  have hread : (readConstraint other).toOption = (readConstraint line).toOption :=
    toOption_congr h.constraint
  simp only [constraintsRead, List.flatMap_singleton, hread]

theorem entriesRead_eq (h : ReadAlike line other) : entriesRead [other] = entriesRead [line] := by
  have hread : (readDeclaration other).toOption = (readDeclaration line).toOption :=
    toOption_congr h.declaration
  simp only [entriesRead, List.flatMap_singleton, hread]

end ReadAlike

theorem forall₂_visible_cons (h : ReadAlike line other)
    (hlines : List.Forall₂ ReadAlike (visible lines) (visible others)) :
    List.Forall₂ ReadAlike (visible (line :: lines)) (visible (other :: others)) := by
  cases hblank : line.all Text.isBlank with
  | true =>
    rwa [visible_cons_of_blank hblank, visible_cons_of_blank (h.blank.trans hblank)]
  | false =>
    rw [visible_cons_of_shown hblank, visible_cons_of_shown (h.blank.trans hblank)]
    exact .cons h hlines

theorem forall₂_readAlike_self (lines : List (List Char)) : List.Forall₂ ReadAlike lines lines :=
  List.forall₂_same.mpr fun line _ => .refl line

/-- Lines that are read the same give the same. -/
theorem forall₂_reads (h : List.Forall₂ ReadAlike lines others)
    (hkinds : ∀ line ∈ lines, IsConstraint line ∨ IsDeclaration line) :
    (∀ other ∈ others, IsConstraint other ∨ IsDeclaration other) ∧
      constraintsRead others = constraintsRead lines ∧
        entriesRead others = entriesRead lines := by
  induction h with
  | nil => exact ⟨hkinds, rfl, rfl⟩
  | @cons line other lines others hline _ ih =>
    obtain ⟨hkind, hkinds⟩ := List.forall_mem_cons.mp hkinds
    obtain ⟨hothers, hconstraints, hentries⟩ := ih hkinds
    refine ⟨List.forall_mem_cons.mpr ⟨?_, hothers⟩, ?_, ?_⟩
    · exact hkind.imp hline.isConstraint_iff.mpr hline.isDeclaration_iff.mpr
    · rw [constraintsRead_cons, constraintsRead_cons line, hline.constraintsRead_eq, hconstraints]
    · rw [entriesRead_cons, entriesRead_cons line, hline.entriesRead_eq, hentries]

theorem Gives.of_readAlike (h : List.Forall₂ ReadAlike (visible lines) (visible others))
    (hgives : Gives lines o constraints entries) : Gives others o constraints entries := by
  obtain ⟨first, rest, hlines, hobjective, hkinds, rfl, rfl⟩ := hgives
  rw [hlines] at h
  obtain ⟨first', rest', hfirst, hrest, hothers⟩ := List.forall₂_cons_left_iff.mp h
  obtain ⟨hkinds', hconstraints, hentries⟩ := forall₂_reads hrest hkinds
  exact ⟨first', rest', hothers, (hfirst.objective o).mpr hobjective, hkinds', hconstraints,
    hentries⟩

theorem IsReturn.readAlike {ret : List Char} (h : IsReturn ret) (line : List Char) :
    ReadAlike line (line ++ ret) := by
  have hgaps : IsGaps ret := by
    rcases h with rfl | rfl <;> simp [IsGaps, isGap]
  have hnone : IsGaps [] := List.forall_mem_nil _
  simpa using ReadAlike.of_gaps hnone hgaps line

/-- The segments of a text are its lines, some with a carriage return and at most one blank line
more. -/
theorem forall₂_visible_segments (cs : List Char) :
    List.Forall₂ ReadAlike (visible (Text.lines cs)) (visible (Text.segments cs)) := by
  induction cs using Text.lines_induction with
  | nil => exact .nil
  | last line hmem hlines =>
    rw [hlines, Text.segments_eq_singleton hmem]
    exact forall₂_readAlike_self _
  | first line brk rest hbrk hmem hlines ih =>
    obtain ⟨ret, hret, rfl⟩ := hbrk.exists_return
    rw [hlines, Text.segments_return hret hmem]
    exact forall₂_visible_cons (IsReturn.readAlike hret line) ih

theorem gives_segments {cs : List Char} :
    Gives (Text.segments cs) o constraints entries ↔
      Gives (Text.lines cs) o constraints entries := by
  have hsame := forall₂_visible_segments cs
  refine ⟨.of_readAlike ?_, .of_readAlike hsame⟩
  exact (List.Forall₂.flip hsame).imp fun _ _ h => h.symm

/-! ## One edit -/

theorem gives_replace (h : ReadAlike line other) {before after : List (List Char)}
    (hgives : Gives (before ++ line :: after) o constraints entries) :
    Gives (before ++ other :: after) o constraints entries := by
  refine hgives.of_readAlike ?_
  rw [visible_append, visible_append]
  have hline := forall₂_visible_cons h (forall₂_readAlike_self (visible after))
  exact List.rel_append (forall₂_readAlike_self _) hline

/-- Elements that give nothing can be left out. -/
theorem flatMap_filter {α β : Type} {keep : α → Bool} {f : α → List β} (l : List α)
    (h : ∀ a, keep a = false → f a = []) : (l.filter keep).flatMap f = l.flatMap f := by
  induction l with
  | nil => rfl
  | cons a l ih =>
    rw [List.filter_cons, List.flatMap_cons, ← ih]
    cases hkeep : keep a with
    | true => rfl
    | false => rw [h a hkeep]; rfl

theorem constraintsRead_filter (lines : List (List Char)) :
    constraintsRead (lines.filter (IsConstraint ·)) = constraintsRead lines := by
  refine flatMap_filter lines fun line h => ?_
  cases hread : readConstraint line with
  | ok c => exact absurd ⟨c, hread⟩ (of_decide_eq_false h)
  | error f => rfl

theorem entriesRead_filter (lines : List (List Char)) :
    entriesRead (lines.filter (IsDeclaration ·)) = entriesRead lines := by
  refine flatMap_filter lines fun line h => ?_
  cases hread : readDeclaration line with
  | ok entries => exact absurd ⟨entries, hread⟩ (of_decide_eq_false h)
  | error f => rfl

theorem filter_visible {keep : List Char → Bool} (h : lines.filter keep = others.filter keep) :
    (visible lines).filter keep = (visible others).filter keep := by
  rw [visible, visible, List.filter_comm, h, List.filter_comm]

/-- An edit leaves what the lines give. -/
theorem Rearranges.gives (h : Rearranges parts parts')
    (hgives : Gives parts o constraints entries) : Gives parts' o constraints entries := by
  cases h with
  | @blank before after line hblank _ =>
    refine hgives.of_readAlike ?_
    rw [visible_append, visible_append, visible_cons_of_blank hblank]
    exact forall₂_readAlike_self _
  | lineBreak hret hret' =>
    exact gives_replace ((IsReturn.readAlike hret _).symm.trans (IsReturn.readAlike hret' _)) hgives
  | pad hleft hright hret =>
    refine gives_replace ((IsReturn.readAlike hret _).symm.trans ?_) hgives
    exact (ReadAlike.of_gaps hleft.isGaps hright.isGaps _).trans (IsReturn.readAlike hret _)
  | @permute blanks blanks' rest rest' objective hobjective hblanks hperm hconstraints
      hdeclarations =>
    rw [visible_append, List.append_eq_nil_iff] at hblanks
    obtain ⟨hblanks, hblanks'⟩ := hblanks
    have hrest : (visible (blanks ++ rest)).Perm (visible (blanks' ++ rest')) := hperm.filter _
    rw [visible_append, visible_append, hblanks, hblanks', List.nil_append, List.nil_append]
      at hrest
    obtain ⟨first, later, hlines, ho, hkinds, rfl, rfl⟩ := hgives
    rw [visible_append, hblanks, visible_cons_of_shown hobjective, List.nil_append] at hlines
    obtain ⟨rfl, rfl⟩ := List.cons.inj hlines
    refine ⟨objective, visible rest', ?_, ho, fun line hline => ?_, ?_, ?_⟩
    · rw [visible_append, hblanks', visible_cons_of_shown hobjective, List.nil_append]
    · exact hkinds line (hrest.mem_iff.mpr hline)
    · rw [← constraintsRead_filter, ← filter_visible hconstraints, constraintsRead_filter]
    · rw [← entriesRead_filter, ← filter_visible hdeclarations, entriesRead_filter]

theorem IsPadding.feedless {cs : List Char} (h : IsPadding cs) : '\n' ∉ cs := by
  intro hmem
  rcases h _ hmem with hc | hc <;> cases hc

/-- An edit brings no line feed into a segment. -/
theorem Rearranges.isSegments (h : Rearranges parts parts') (hparts : IsSegments parts) :
    IsSegments parts' := by
  cases h with
  | blank _ hfeed => exact Text.isSegments_append_cons.mpr ⟨hparts.feedless, hfeed⟩
  | lineBreak _ hret' =>
    obtain ⟨hothers, hline⟩ := Text.isSegments_append_cons.mp hparts
    refine Text.isSegments_append_cons.mpr ⟨hothers, hret'.feedless fun hmem => hline ?_⟩
    exact List.mem_append_left _ hmem
  | pad hleft hright _ =>
    obtain ⟨hothers, hline⟩ := Text.isSegments_append_cons.mp hparts
    refine Text.isSegments_append_cons.mpr ⟨hothers, ?_⟩
    simp only [List.mem_append, not_or] at hline ⊢
    exact ⟨⟨⟨hleft.feedless, hline.1⟩, hright.feedless⟩, hline.2⟩
  | @permute blanks blanks' rest rest' objective _ _ hperm _ _ =>
    have hall : (blanks ++ objective :: rest).Perm (blanks' ++ objective :: rest') :=
      List.perm_middle.trans ((hperm.cons objective).trans List.perm_middle.symm)
    exact ⟨by simp, fun part hpart => hparts.feedless part (hall.mem_iff.mpr hpart)⟩

/-! ## Any number of edits -/

/-- Induction on the edits: each leaves segments of a text, and what they give. -/
theorem gives_of_edits (h : Relation.ReflTransGen Rearranges parts parts')
    (hparts : IsSegments parts) : IsSegments parts' ∧
      (Gives parts o constraints entries → Gives parts' o constraints entries) := by
  induction h with
  | refl => exact ⟨hparts, id⟩
  | tail _ hedit ih => exact ⟨hedit.isSegments ih.1, fun hgives => hedit.gives (ih.2 hgives)⟩

/-- Every text that comes from the text of a program by such edits is a text of the same
program. -/
theorem readProgram_rearranged {s : String} (h : readProgram s = .ok p)
    (hedits : Relation.ReflTransGen Rearranges (Text.segments s.toList) parts) :
    readProgram (String.ofList (['\n'].intercalate parts)) = .ok p := by
  rw [readProgram] at h ⊢
  refine readProgramFrom_of_gives (fun hgives => ?_) h
  have hparts := Text.isSegments_segments s.toList
  obtain ⟨hedited, hsame⟩ := gives_of_edits hedits hparts
  rw [String.toList_ofList, ← gives_segments, Text.segments_intercalate hedited]
  exact hsame (gives_segments.mpr hgives)

def compact : String := "max z = x\nx <= 4\nx non-negative"

def spacious : String := "\u00a0\nmax z = x\r\n x non-negative\t\nx <= 4"

def bounded : Program :=
  ⟨⟨.max, "z", .ofTerms [("x", 1)]⟩, [⟨.ofTerms [("x", 1)], .atMost, 4⟩],
    ⟨[("x", .nonNegative)]⟩⟩

/-- One edit of each kind. -/
theorem edits_spacious : Relation.ReflTransGen Rearranges
    (Text.segments compact.toList) (Text.segments spacious.toList) := by
  let goal := "max z = x".toList
  let bound := "x <= 4".toList
  let sign := "x non-negative".toList
  let padded := [' '] ++ sign ++ ['\t'] ++ []
  have hstart : Text.segments compact.toList = [goal ++ [], bound, sign ++ []] := by
    decide +kernel
  have hend : Text.segments spacious.toList = [['\u00a0'], goal ++ ['\r'], padded, bound] := by
    decide +kernel
  have hbreak : Rearranges [goal ++ [], bound, sign ++ []] [goal ++ ['\r'], bound, sign ++ []] :=
    @Rearranges.lineBreak [] _ goal _ _ (.inl rfl) (.inr rfl)
  have hpad : Rearranges [goal ++ ['\r'], bound, sign ++ []] [goal ++ ['\r'], bound, padded] :=
    @Rearranges.pad [goal ++ ['\r'], bound] [] _ sign _ _ (by simp [IsPadding])
      (by simp [IsPadding]) (.inl rfl)
  have hpermute : Rearranges [goal ++ ['\r'], bound, padded] [goal ++ ['\r'], padded, bound] :=
    @Rearranges.permute [] [] _ _ _ (by decide +kernel) rfl (.swap _ _ _) (by decide +kernel)
      (by decide +kernel)
  have hblank : Rearranges [goal ++ ['\r'], padded, bound]
      [['\u00a0'], goal ++ ['\r'], padded, bound] :=
    @Rearranges.blank [] _ ['\u00a0'] (by decide) (by decide)
  rw [hstart, hend]
  exact (((Relation.ReflTransGen.single hbreak).tail hpad).tail hpermute).tail hblank

theorem readProgram_rearranged_spacious :
    readProgram compact = .ok bounded ∧ readProgram spacious = .ok bounded := by
  have h : readProgram compact = .ok bounded := by decide +kernel
  have hedited := readProgram_rearranged h edits_spacious
  rw [Text.segments, List.intercalate_splitOn, String.ofList_toList] at hedited
  exact ⟨h, hedited⟩

end ExactSimplex.Source
