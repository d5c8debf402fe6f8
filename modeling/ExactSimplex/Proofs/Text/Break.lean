import ExactSimplex.Text.Line

/-! Where the lines of a text stand in it. A text that is not empty is its last line alone, or its
first line with the break after it and the text of the other lines. -/

namespace ExactSimplex.Text

/-- What stands between two lines: a line feed, alone or after a carriage return. -/
inductive IsBreak : List Char → Prop
  | feed : IsBreak ['\n']
  | returnFeed : IsBreak ['\r', '\n']

theorem exists_lines_eq_cons {cs : List Char} (hne : cs ≠ []) :
    ∃ line, '\n' ∉ line ∧ (cs = line ∧ lines cs = [line] ∨
      ∃ brk rest, IsBreak brk ∧ cs = line ++ brk ++ rest ∧ lines cs = line :: lines rest) := by
  fun_induction lines cs with
  | case1 => exact absurd rfl hne
  | case2 cs => exact ⟨[], by simp, .inr ⟨_, cs, .feed, rfl, rfl⟩⟩
  | case3 cs => exact ⟨[], by simp, .inr ⟨_, cs, .returnFeed, rfl, rfl⟩⟩
  | case4 c cs hfeed _ hlines =>
    obtain rfl : cs = [] := Decidable.byContradiction fun h => lines_ne_nil h hlines
    have hc : '\n' ∉ [c] := by simpa using fun h : '\n' = c => hfeed h.symm
    exact ⟨[c], hc, .inl ⟨rfl, rfl⟩⟩
  | case5 c cs hfeed _ line others hlines ih =>
    have hcs : cs ≠ [] := by
      rintro rfl
      cases hlines
    obtain ⟨first, hmem, htext⟩ := ih hcs
    have hc : '\n' ∉ c :: first :=
      List.not_mem_cons_of_ne_of_not_mem (fun h => hfeed h.symm) hmem
    rcases htext with ⟨rfl, hlast⟩ | ⟨brk, rest, hbrk, rfl, hfirst⟩
    · obtain ⟨rfl, rfl⟩ := List.cons.inj (hlines.symm.trans hlast)
      exact ⟨_, hc, .inl ⟨rfl, rfl⟩⟩
    · obtain ⟨rfl, rfl⟩ := List.cons.inj (hlines.symm.trans hfirst)
      exact ⟨_, hc, .inr ⟨brk, rest, hbrk, rfl, rfl⟩⟩

/-- What holds of a text without line feeds, and of a text whenever it holds of what follows its
first line, holds of every text. -/
@[elab_as_elim]
theorem lines_induction {P : List Char → Prop} (nil : P [])
    (last : ∀ line, '\n' ∉ line → lines line = [line] → P line)
    (first : ∀ line brk rest, IsBreak brk → '\n' ∉ line →
      lines (line ++ brk ++ rest) = line :: lines rest → P rest → P (line ++ brk ++ rest))
    (cs : List Char) : P cs := by
  by_cases hne : cs = []
  · exact hne ▸ nil
  · obtain ⟨line, hmem, ⟨hcs, hlines⟩ | ⟨brk, rest, hbrk, hcs, hlines⟩⟩ :=
      exists_lines_eq_cons hne
    · subst hcs
      exact last cs hmem hlines
    · have hshorter : rest.length < cs.length := by
        cases hbrk <;> simp [hcs] <;> omega
      subst hcs
      exact first line brk rest hbrk hmem hlines (lines_induction nil last first rest)
termination_by cs.length

/-! ## Segments -/

theorem segments_feed {line : List Char} (h : '\n' ∉ line) (rest : List Char) :
    segments (line ++ ['\n'] ++ rest) = line :: segments rest := by
  rw [List.append_assoc, List.singleton_append]
  exact List.splitOn_append_cons_self_of_not_mem h rest

/-- What can stand between a line and its feed. -/
def IsReturn (cs : List Char) : Prop := cs = [] ∨ cs = ['\r']

theorem IsReturn.feedless {line ret : List Char} (h : IsReturn ret) (hline : '\n' ∉ line) :
    '\n' ∉ line ++ ret := by
  rcases h with rfl | rfl <;> simpa using hline

theorem IsBreak.exists_return {brk : List Char} (h : IsBreak brk) :
    ∃ ret, IsReturn ret ∧ brk = ret ++ ['\n'] := by
  cases h with
  | feed => exact ⟨[], .inl rfl, rfl⟩
  | returnFeed => exact ⟨['\r'], .inr rfl, rfl⟩

/-- Without its feed the break after a line belongs to the first segment. -/
theorem segments_return {line ret : List Char} (hret : IsReturn ret) (hline : '\n' ∉ line)
    (rest : List Char) :
    segments (line ++ (ret ++ ['\n']) ++ rest) = (line ++ ret) :: segments rest := by
  rw [← List.append_assoc line, segments_feed (hret.feedless hline)]

/-- Parts that a text can have between its line feeds. -/
structure IsSegments (parts : List (List Char)) : Prop where
  nonempty : parts ≠ []
  feedless : ∀ part ∈ parts, '\n' ∉ part

theorem IsSegments.cons {part : List Char} {parts : List (List Char)} (h : '\n' ∉ part)
    (hparts : IsSegments parts) : IsSegments (part :: parts) :=
  ⟨List.cons_ne_nil _ _, List.forall_mem_cons.mpr ⟨h, hparts.feedless⟩⟩

theorem isSegments_singleton {part : List Char} (h : '\n' ∉ part) : IsSegments [part] :=
  ⟨List.cons_ne_nil _ _, List.forall_mem_singleton.mpr h⟩

theorem isSegments_append_cons {before after : List (List Char)} {part : List Char} :
    IsSegments (before ++ part :: after) ↔
      (∀ other ∈ before ++ after, '\n' ∉ other) ∧ '\n' ∉ part := by
  constructor
  · intro h
    exact ⟨fun other hother => h.feedless other (by grind), h.feedless part (by simp)⟩
  · rintro ⟨hothers, hpart⟩
    exact ⟨by simp, by grind⟩

theorem segments_eq_singleton {line : List Char} (h : '\n' ∉ line) : segments line = [line] :=
  List.splitOn_eq_singleton h

theorem isSegments_segments (cs : List Char) : IsSegments (segments cs) := by
  induction cs using lines_induction with
  | nil => exact isSegments_singleton List.not_mem_nil
  | last line hmem _ =>
    rw [segments_eq_singleton hmem]
    exact isSegments_singleton hmem
  | first line brk rest hbrk hmem _ ih =>
    obtain ⟨ret, hret, rfl⟩ := hbrk.exists_return
    rw [segments_return hret hmem]
    exact .cons (hret.feedless hmem) ih

/-- Such parts, with feeds between them, are the segments of that text. -/
theorem segments_intercalate {parts : List (List Char)} (h : IsSegments parts) :
    segments (['\n'].intercalate parts) = parts :=
  List.splitOn_intercalate '\n' h.feedless h.nonempty

/-! ## Where a line starts -/

/-- The byte at which a line starts, after the segments before it and their line feeds. -/
def lineStart (cs : List Char) (i : Nat) : Nat :=
  width (((segments cs).take i).flatMap fun s => s ++ ['\n'])

@[simp] theorem lineStart_zero (cs : List Char) : lineStart cs 0 = 0 := rfl

theorem lineStart_succ {line brk : List Char} (hbrk : IsBreak brk) (hline : '\n' ∉ line)
    (rest : List Char) (i : Nat) :
    lineStart (line ++ brk ++ rest) (i + 1) = width (line ++ brk) + lineStart rest i := by
  obtain ⟨ret, hret, rfl⟩ := hbrk.exists_return
  rw [lineStart, segments_return hret hline, List.take_succ_cons, List.flatMap_cons,
    width_append, lineStart, List.append_assoc line]

theorem IsBreak.count_feed {brk : List Char} (h : IsBreak brk) : brk.count '\n' = 1 := by
  cases h <;> rfl

theorem IsBreak.getLast? {brk : List Char} (h : IsBreak brk) : brk.getLast? = some '\n' := by
  cases h <;> rfl

/-- Before a line stand as many line feeds as lines, the last of them right before it. -/
theorem exists_append_of_line {cs line : List Char} {i : Nat} (h : (lines cs)[i]? = some line) :
    ∃ before after, cs = before ++ line ++ after ∧ width before = lineStart cs i ∧
      before.count '\n' = i ∧ ∀ c ∈ before.getLast?, c = '\n' := by
  induction cs using lines_induction generalizing i with
  | nil => cases h
  | last text _ hlines =>
    rw [hlines] at h
    cases i with
    | zero =>
      obtain rfl := Option.some.inj h
      exact ⟨[], [], by simp, by simp, by simp, by simp⟩
    | succ i => cases h
  | first text brk rest hbrk hmem hlines ih =>
    rw [hlines] at h
    cases i with
    | zero =>
      obtain rfl := Option.some.inj h
      exact ⟨[], brk ++ rest, by simp, by simp, by simp, by simp⟩
    | succ i =>
      obtain ⟨before, after, hrest, hwidth, hcount, hlast⟩ := ih h
      refine ⟨text ++ brk ++ before, after, by simp [hrest], ?_, ?_, ?_⟩
      · rw [width_append, hwidth, lineStart_succ hbrk hmem]
      · rw [List.count_append, List.count_append, List.count_eq_zero_of_not_mem hmem,
          hbrk.count_feed, hcount]
        omega
      · intro c hc
        rw [List.getLast?_append, List.getLast?_append, hbrk.getLast?] at hc
        cases hbefore : before.getLast? with
        | none => simpa [hbefore, eq_comm] using hc
        | some d => exact hlast c (by simpa [hbefore] using hc)

/-- The first line has a letter of two bytes and ends with a carriage return. -/
example : lines "é1\r\nx2".toList = ["é1".toList, "x2".toList] ∧
    lineStart "é1\r\nx2".toList 1 = 5 := by decide +kernel

end ExactSimplex.Text
