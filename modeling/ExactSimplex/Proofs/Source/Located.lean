import ExactSimplex.Proofs.Source.Rearrangement

/-! Where a reader stops. A fault that has a line is found at the first line that cannot follow
those before it, and what can follow them is a matter of these lines alone. So the fault stays
when more lines come, and without its line none is found. -/

namespace ExactSimplex

namespace Text

/-- A character that is in no break comes to the first line. -/
theorem lines_cons_inside {c : Char} {cs line : List Char} {rest : List (List Char)}
    (hfeed : c ≠ '\n') (hreturn : ∀ ds, c = '\r' → cs ≠ '\n' :: ds) (h : lines cs = line :: rest) :
    lines (c :: cs) = (c :: line) :: rest := by
  rw [lines.eq_4 c cs hfeed hreturn, h]

theorem getLast?_ne_of_cons {c d : Char} {cs : List Char} (h : (c :: cs).getLast? ≠ some d)
    (hne : cs ≠ []) : cs.getLast? ≠ some d := by
  rwa [List.getLast?_cons_of_ne_nil hne] at h

/-- More text after a line feed leaves the lines before it, unless a carriage return would come to
stand before the feed. -/
theorem lines_prefix {cs : List Char} (h : cs.getLast? ≠ some '\r') (more : List Char) :
    lines cs <+: lines (cs ++ '\n' :: more) := by
  fun_induction lines cs with
  | case1 => exact List.nil_prefix
  | case2 cs ih =>
    refine List.cons_prefix_cons.mpr ⟨rfl, ?_⟩
    by_cases hne : cs = []
    · simp [hne]
    · exact ih (getLast?_ne_of_cons h hne)
  | case3 cs ih =>
    refine List.cons_prefix_cons.mpr ⟨rfl, ?_⟩
    by_cases hne : cs = []
    · simp [hne]
    · exact ih (getLast?_ne_of_cons (getLast?_ne_of_cons h (List.cons_ne_nil _ _)) hne)
  | case4 c cs hfeed _ hlines =>
    obtain rfl : cs = [] := Decidable.byContradiction fun hne => lines_ne_nil hne hlines
    have hreturn : ∀ ds, c = '\r' → '\n' :: more ≠ '\n' :: ds := by
      rintro ds rfl
      simp at h
    have hfirst : lines ('\n' :: more) = [] :: lines more := rfl
    rw [List.singleton_append, lines_cons_inside hfeed hreturn hfirst]
    simp
  | case5 c cs hfeed hreturn line rest hlines ih =>
    have hne : cs ≠ [] := by
      rintro rfl
      cases hlines
    obtain ⟨later, hlater⟩ := hlines ▸ ih (getLast?_ne_of_cons h hne)
    have hreturn' : ∀ ds, c = '\r' → cs ++ '\n' :: more ≠ '\n' :: ds := by
      intro ds hc hds
      obtain ⟨d, tail, rfl⟩ := List.exists_cons_of_ne_nil hne
      obtain ⟨rfl, -⟩ := List.cons.inj hds
      exact hreturn _ hc rfl
    rw [List.cons_append, lines_cons_inside hfeed hreturn' hlater.symm]
    exact List.cons_prefix_cons.mpr ⟨rfl, List.prefix_append _ _⟩

end Text

namespace Source

variable {text : List Char} {line : List Char} {lines others : List (List Char)} {d e : Draft}
  {f : Fault} {n i k : Nat}

/-! ## Lines and their numbers -/

/-- An element of a filtered and numbered list has its number from its place in the list. -/
theorem getElem?_of_filter_zipIdx {α : Type} {l : List α} (keep : α → Bool) {start : Nat}
    {before after : List (α × Nat)} {a : α}
    (h : (l.zipIdx start).filter (fun x => keep x.1) = before ++ (a, n) :: after) :
    ∃ i, n = start + i ∧ l[i]? = some a ∧ keep a = true ∧
      (l.take i).filter keep = before.map (·.1) := by
  induction l generalizing start before with
  | nil => simp at h
  | cons b l ih =>
    rw [List.zipIdx_cons] at h
    cases hb : keep b with
    | false =>
      rw [List.filter_cons_of_neg (by simp [hb])] at h
      obtain ⟨i, rfl, hi, ha, htake⟩ := ih h
      refine ⟨i + 1, by omega, hi, ha, ?_⟩
      rw [List.take_succ_cons, List.filter_cons_of_neg (by simp [hb]), htake]
    | true =>
      rw [List.filter_cons_of_pos (by simp [hb])] at h
      cases before with
      | nil =>
        obtain ⟨⟨⟩, -⟩ := List.cons.inj h
        exact ⟨0, rfl, rfl, hb, rfl⟩
      | cons first before =>
        obtain ⟨rfl, hrest⟩ := List.cons.inj h
        obtain ⟨i, rfl, hi, ha, htake⟩ := ih hrest
        refine ⟨i + 1, by omega, hi, ha, ?_⟩
        rw [List.take_succ_cons, List.filter_cons_of_pos hb, htake, List.map_cons]

theorem exists_append_cons_of_getElem? {α : Type} {l : List α} {a : α} (h : l[i]? = some a) :
    ∃ before after, l = before ++ a :: after ∧ before.length = i := by
  obtain ⟨hlt, rfl⟩ := List.getElem?_eq_some_iff.mp h
  refine ⟨l.take i, l.drop (i + 1), ?_, List.length_take_of_le hlt.le⟩
  rw [List.getElem_cons_drop, List.take_append_drop]

theorem filter_zipIdx_of_getElem? {α : Type} {l : List α} (keep : α → Bool) {a : α}
    (start : Nat) (hi : l[i]? = some a) (ha : keep a = true) :
    ∃ before after, (l.zipIdx start).filter (fun x => keep x.1) =
        before ++ (a, start + i) :: after ∧ before.map (·.1) = (l.take i).filter keep := by
  obtain ⟨before, after, rfl, rfl⟩ := exists_append_cons_of_getElem? hi
  refine ⟨(before.zipIdx start).filter fun x => keep x.1,
    (after.zipIdx (start + before.length + 1)).filter fun x => keep x.1, ?_, ?_⟩
  · rw [List.zipIdx_append, List.filter_append, List.zipIdx_cons,
      List.filter_cons_of_pos (by simpa using ha)]
  · have hfst := List.filter_map (f := Prod.fst) (p := keep) (l := before.zipIdx start)
    rw [List.zipIdx_map_fst] at hfst
    rw [List.take_left]
    exact hfst.symm

theorem getElem?_of_numberedLines {before after : List (List Char × Nat)}
    (h : numberedLines text = before ++ (line, n) :: after) :
    ∃ i, n = i + 1 ∧ (Text.lines text)[i]? = some line ∧ line.all Text.isBlank = false ∧
      visible ((Text.lines text).take i) = before.map (·.1) := by
  obtain ⟨i, rfl, hi, hshown, htake⟩ :=
    getElem?_of_filter_zipIdx (fun line : List Char => !line.all Text.isBlank) h
  exact ⟨i, Nat.add_comm 1 i, hi, by simpa only [Bool.not_eq_true'] using hshown, htake⟩

theorem numberedLines_of_getElem? (hi : (Text.lines text)[i]? = some line)
    (hshown : line.all Text.isBlank = false) :
    ∃ before after, numberedLines text = before ++ (line, i + 1) :: after ∧
      before.map (·.1) = visible ((Text.lines text).take i) := by
  rw [Nat.add_comm i 1]
  exact filter_zipIdx_of_getElem? (fun line => !line.all Text.isBlank) 1 hi
    (by simp only [hshown, Bool.not_false])

/-! ## Lines that are read -/

/-- The lines are read one after the other and no fault is found in them: the first that is not
blank is the objective, and those below it, constraints and declarations which declare no name
twice, give the draft. -/
def Passes (lines : List (List Char)) (d : Draft) : Prop :=
  ∃ first rest o, visible lines = first :: rest ∧ readObjective first = .ok o ∧
    (∀ line ∈ rest, IsConstraint line ∨ IsDeclaration line) ∧
    d = Draft.empty.after rest ∧ d.declarations.names.Nodup

/-- The fault that is found in a line which stands below the others: it is no objective and should
be one, or it cannot be added to what they give. -/
inductive FaultBelow (lines : List (List Char)) (line : List Char) (f : Fault) : Prop
  | objective : visible lines = [] → readObjective line = .error f → FaultBelow lines line f
  | later {d : Draft} : Passes lines d → d.addLine line = .error f → FaultBelow lines line f

theorem Draft.addLines_append (numbered more : List (List Char × Nat)) :
    d.addLines (numbered ++ more) = d.addLines numbered >>= fun e => e.addLines more := by
  induction numbered generalizing d with
  | nil => rfl
  | cons first numbered ih =>
    rw [List.cons_append, addLines, addLines]
    cases d.addLine first.1 with
    | error f => rfl
    | ok next => exact ih

/-- The fault of a run of lines is that of one of them, and those before it have none. -/
theorem Draft.exists_of_addLines_error {numbered : List (List Char × Nat)} {err : ParseError}
    (h : d.addLines numbered = .error err) : ∃ before line n after e f,
      numbered = before ++ (line, n) :: after ∧ d.addLines before = .ok e ∧
        e.addLine line = .error f ∧ err = f.atLine n := by
  induction numbered generalizing d with
  | nil => cases h
  | cons first numbered ih =>
    obtain ⟨line, n⟩ := first
    rw [addLines] at h
    cases hline : d.addLine line with
    | error f =>
      rw [hline] at h
      cases h
      exact ⟨[], line, n, numbered, d, f, rfl, rfl, hline, rfl⟩
    | ok next =>
      rw [hline] at h
      obtain ⟨before, line', n', after, e, f, rfl, hbefore, hfault⟩ := ih h
      exact ⟨(line, n) :: before, line', n', after, e, f, rfl,
        by simpa only [addLines, hline] using hbefore, hfault⟩

theorem Draft.addLines_of_fault {before after : List (List Char × Nat)}
    (hbefore : d.addLines before = .ok e) (h : e.addLine line = .error f) :
    d.addLines (before ++ (line, n) :: after) = .error (f.atLine n) := by
  rw [addLines_append, hbefore]
  simp only [bind, Except.bind, addLines, h]

theorem Draft.addLines_empty {numbered : List (List Char × Nat)} :
    Draft.empty.addLines numbered = .ok d ↔
      (∀ line ∈ numbered.map (·.1), IsConstraint line ∨ IsDeclaration line) ∧
        d = Draft.empty.after (numbered.map (·.1)) ∧ d.declarations.names.Nodup := by
  rw [addLines_eq_ok (d := Draft.empty) List.nodup_nil]
  constructor
  · rintro ⟨hkinds, hnames, rfl⟩
    exact ⟨hkinds, rfl, hnames⟩
  · rintro ⟨hkinds, rfl, hnames⟩
    exact ⟨hkinds, hnames, rfl⟩

/-- A text has a fault at a line precisely if the line is one of its lines, not blank, and the fault
is found below the lines before it. -/
theorem readProgramFrom_eq_error : readProgramFrom text = .error (f.atLine n) ↔
    ∃ i line, n = i + 1 ∧ (Text.lines text)[i]? = some line ∧ line.all Text.isBlank = false ∧
      FaultBelow ((Text.lines text).take i) line f := by
  constructor
  · intro h
    unfold readProgramFrom at h
    split at h
    · cases h
    · rename_i first m rest hlines
      split at h
      · rename_i g hobjective
        cases h
        rw [← List.nil_append ((first, n) :: rest)] at hlines
        obtain ⟨i, rfl, hi, hshown, htake⟩ := getElem?_of_numberedLines hlines
        exact ⟨i, first, rfl, hi, hshown, .objective htake hobjective⟩
      · rename_i o hobjective
        split at h
        · rename_i err hrest
          cases h
          obtain ⟨before, line, n, after, e, g, rfl, hbefore, hline, herr⟩ :=
            Draft.exists_of_addLines_error hrest
          cases herr
          rw [← List.cons_append] at hlines
          obtain ⟨i, rfl, hi, hshown, htake⟩ := getElem?_of_numberedLines hlines
          exact ⟨i, line, rfl, hi, hshown,
            .later ⟨first, _, o, htake, hobjective, Draft.addLines_empty.mp hbefore⟩ hline⟩
        · dsimp only at h
          split at h <;> cases h
  · rintro ⟨i, line, rfl, hi, hshown, hfault⟩
    obtain ⟨before, after, hlines, hbefore⟩ := numberedLines_of_getElem? hi hshown
    rw [readProgramFrom, hlines]
    cases hfault with
    | objective hnone hobjective =>
      obtain rfl := List.map_eq_nil_iff.mp (hbefore.trans hnone)
      simp only [List.nil_append, hobjective]
    | later hpasses hline =>
      obtain ⟨first, rest, o, hvisible, hobjective, hread⟩ := hpasses
      obtain ⟨⟨first, m⟩, numbered, rfl, rfl, rfl⟩ :=
        List.map_eq_cons_iff.mp (hbefore.trans hvisible)
      have hrest := Draft.addLines_empty.mpr hread
      simp only [List.cons_append, hobjective, Draft.addLines_of_fault hrest hline]

/-! ## Lines without a fault -/

/-- No fault that has a line is found in the lines. -/
def Clean (lines : List (List Char)) : Prop := visible lines = [] ∨ ∃ d, Passes lines d

theorem FaultBelow.clean (h : FaultBelow lines line f) : Clean lines := by
  cases h with
  | objective hnone _ => exact .inl hnone
  | later hpasses _ => exact .inr ⟨_, hpasses⟩

theorem Clean.of_prefix (h : Clean lines) (hbefore : others <+: lines) : Clean others := by
  have hvisible : visible others <+: visible lines := hbefore.filter _
  rcases h with hnone | ⟨d, first, rest, o, hlines, hobjective, hkinds, rfl, hnames⟩
  · exact .inl (List.prefix_nil.mp (hnone ▸ hvisible))
  rw [hlines, List.prefix_cons_iff] at hvisible
  obtain hnone | ⟨before, hothers, more, rfl⟩ := hvisible
  · exact .inl hnone
  refine .inr ⟨_, first, before, o, hothers, hobjective, fun line hline => ?_, rfl, ?_⟩
  · exact hkinds line (List.mem_append_left _ hline)
  · rw [Draft.names_after, entriesRead_append, List.map_append, ← List.append_assoc] at hnames
    rw [Draft.names_after]
    exact hnames.of_append_left

theorem Clean.of_readAlike (hlines : List.Forall₂ ReadAlike (visible lines) (visible others))
    (h : Clean lines) : Clean others := by
  rcases h with hnone | ⟨d, first, rest, o, hfirst, hobjective, hkinds, rfl, hnames⟩
  · rw [hnone] at hlines
    exact .inl (List.forall₂_nil_left_iff.mp hlines)
  rw [hfirst] at hlines
  obtain ⟨first', rest', halike, hrest, hothers⟩ := List.forall₂_cons_left_iff.mp hlines
  obtain ⟨hkinds', hconstraints, hentries⟩ := forall₂_reads hrest hkinds
  have hafter : Draft.empty.after rest' = Draft.empty.after rest := by
    rw [Draft.after_empty, Draft.after_empty, hconstraints, hentries]
  exact .inr ⟨_, first', rest', o, hothers, (halike.objective o).mpr hobjective, hkinds', rfl,
    hafter ▸ hnames⟩

/-- Every line of a clean text can follow those before it. -/
theorem Clean.not_error (h : Clean (Text.lines text)) :
    readProgramFrom text ≠ .error (f.atLine n) := by
  have hnumbered : (numberedLines text).map (·.1) = visible (Text.lines text) :=
    numberedLines_map_fst text
  rcases h with hnone | ⟨d, first, rest, o, hlines, hobjective, hread⟩
  · rw [readProgramFrom, List.map_eq_nil_iff.mp (hnumbered.trans hnone)]
    simp [Fault.overall, Fault.atLine]
  · obtain ⟨⟨first, m⟩, numbered, hnumbered, rfl, rfl⟩ :=
      List.map_eq_cons_iff.mp (hnumbered.trans hlines)
    simp only [readProgramFrom, hnumbered, hobjective, Draft.addLines_empty.mpr hread]
    split <;> simp [Fault.overall, Fault.atLine]

/-- The text has these lines, or puts them together with line feeds. -/
def MadeOf (text : List Char) (lines : List (List Char)) : Prop :=
  Text.lines text = lines ∨ text = ['\n'].intercalate lines

theorem MadeOf.clean (hfeedless : ∀ line ∈ lines, '\n' ∉ line) (h : MadeOf text lines)
    (hclean : Clean lines) : Clean (Text.lines text) := by
  rcases h with rfl | rfl
  · exact hclean
  · by_cases hne : lines = []
    · exact .inl (by rw [hne]; rfl)
    · have halike := forall₂_visible_segments (['\n'].intercalate lines)
      rw [Text.segments_intercalate ⟨hne, hfeedless⟩] at halike
      exact .of_readAlike ((List.Forall₂.flip halike).imp fun _ _ h => h.symm) hclean

/-- A fault at a line stays whatever comes after a line feed, unless a carriage return at the end
would go with the feed, and the text of any number of lines before it has no fault at a line. -/
theorem located_fault_stays {s : String} (h : readProgram s = .error (f.atLine n)) :
    (s.toList.getLast? ≠ some '\r' →
      ∀ t : String, readProgram (s ++ "\n" ++ t) = .error (f.atLine n)) ∧
    ∀ k < n, ∀ u : String, MadeOf u.toList ((Text.lines s.toList).take k) →
      ∀ (g : Fault) (m : Nat), readProgram u ≠ .error (g.atLine m) := by
  obtain ⟨i, line, rfl, hi, hshown, hfault⟩ := readProgramFrom_eq_error.mp h
  constructor
  · intro hend t
    have htext : (s ++ "\n" ++ t).toList = s.toList ++ '\n' :: t.toList := by simp
    obtain ⟨later, hlater⟩ := Text.lines_prefix hend t.toList
    obtain ⟨hlt, -⟩ := List.getElem?_eq_some_iff.mp hi
    rw [readProgram, htext]
    refine readProgramFrom_eq_error.mpr ⟨i, line, rfl, ?_, hshown, ?_⟩
    · rwa [← hlater, List.getElem?_append_left hlt]
    · rwa [← hlater, List.take_append_of_le_length hlt.le]
  · intro k hk u hu g m
    have hclean : Clean ((Text.lines s.toList).take k) :=
      hfault.clean.of_prefix (List.take_prefix_take_left (by omega))
    exact (hu.clean (fun line hline => Text.lines_no_feed line (List.mem_of_mem_take hline))
      hclean).not_error

-- The feed takes the carriage return with it, and the end of the line is one byte earlier.
example : readProgram "max\r" = .error ⟨some 1, .unexpectedToken "objective variable" "end of line"
      ⟨4, 4⟩⟩ ∧
    readProgram ("max\r" ++ "\n" ++ "") = .error ⟨some 1,
      .unexpectedToken "objective variable" "end of line" ⟨3, 3⟩⟩ := by decide +kernel

/-- The fault is in the last of three lines. -/
def zeroBelow : String := "max z = x1\r\n\nx1 <= 3/0"

theorem located_fault_stays_zeroBelow :
    readProgram zeroBelow = .error ((Fault.invalidNumber "3/0").atLine 3) ∧
    zeroBelow.toList.getLast? ≠ some '\r' ∧
    (∀ t : String, readProgram (zeroBelow ++ "\n" ++ t) =
      .error ((Fault.invalidNumber "3/0").atLine 3)) ∧
    MadeOf "max z = x1\r\n\n".toList ((Text.lines zeroBelow.toList).take 2) ∧
    ∀ (g : Fault) (m : Nat), readProgram "max z = x1\r\n\n" ≠ .error (g.atLine m) := by
  have h : readProgram zeroBelow = .error ((Fault.invalidNumber "3/0").atLine 3) := by
    decide +kernel
  have hend : zeroBelow.toList.getLast? ≠ some '\r' := by decide +kernel
  have hmade : MadeOf "max z = x1\r\n\n".toList ((Text.lines zeroBelow.toList).take 2) :=
    .inl (by decide +kernel)
  obtain ⟨hstays, hbefore⟩ := located_fault_stays h
  exact ⟨h, hend, hstays hend, hmade, hbefore 2 (by decide) _ hmade⟩

end Source

end ExactSimplex
