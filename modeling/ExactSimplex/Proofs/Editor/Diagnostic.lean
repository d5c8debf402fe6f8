import ExactSimplex.Editor.Diagnostic
import ExactSimplex.Proofs.Source.Located

/-! What an editor marks. A reader counts the lines of a text and an editor its segments, which can
end with carriage returns that the lines do not have. Both have the same numbers, so the range of a
fault is in the line that the reader has found it in. -/

namespace ExactSimplex

namespace Text

variable {p : Char → Bool} {cs : List Char}

theorem dropEnd_append {es : List Char} (h : ∀ c ∈ es, p c = true) (cs : List Char) :
    dropEnd p (cs ++ es) = dropEnd p cs := by
  rw [dropEnd, List.reverse_append,
    List.dropWhile_append_of_pos fun c hc => h c (List.mem_reverse.mp hc), dropEnd]

/-- What is dropped from the end satisfies `p`, and the last character that stays does not. -/
theorem eq_dropEnd_append (p : Char → Bool) (cs : List Char) :
    ∃ es, cs = dropEnd p cs ++ es ∧ (∀ c ∈ es, p c = true) ∧
      ∀ c ∈ (dropEnd p cs).getLast?, p c = false := by
  refine ⟨(cs.reverse.takeWhile p).reverse, ?_, fun c hc => ?_, fun c hc => ?_⟩
  · rw [dropEnd, ← List.reverse_append, List.takeWhile_append_dropWhile, List.reverse_reverse]
  · exact List.all_eq_true.mp List.all_takeWhile c (List.mem_reverse.mp hc)
  · have hfirst := List.head?_dropWhile_not p cs.reverse
    rw [dropEnd, List.getLast?_reverse, Option.mem_def] at hc
    rwa [hc] at hfirst

/-- A line is a segment, perhaps without a carriage return at its end. -/
theorem getElem?_segments {line : List Char} {i : Nat} (h : (lines cs)[i]? = some line) :
    ∃ ret, IsReturn ret ∧ (segments cs)[i]? = some (line ++ ret) := by
  induction cs using lines_induction generalizing i with
  | nil => cases h
  | last text hmem hlines =>
    refine ⟨[], .inl rfl, ?_⟩
    rwa [List.append_nil, segments_eq_singleton hmem, ← hlines]
  | first text brk rest hbrk hmem hlines ih =>
    obtain ⟨ret, hret, rfl⟩ := hbrk.exists_return
    rw [hlines] at h
    rw [segments_return hret hmem]
    cases i with
    | zero =>
      obtain rfl := Option.some.inj h
      exact ⟨ret, hret, rfl⟩
    | succ i => exact ih h

end Text

namespace Editor

open Source

/-- The bytes of the range are those of `part` where it stands in the text. -/
def Marks (text part : List Char) (range : Span) : Prop :=
  ∃ before after, text = before ++ part ++ after ∧
    range = ⟨Text.width before, Text.width (before ++ part)⟩

theorem Marks.bounds {text part : List Char} {range : Span} (h : Marks text part range) :
    range.start ≤ range.stop ∧ range.stop ≤ Text.width text := by
  obtain ⟨before, after, rfl, rfl⟩ := h
  simp

/-- The line without all carriage returns at its end. -/
def IsWithoutReturns (line part : List Char) : Prop :=
  (∃ k, line = part ++ List.replicate k '\r') ∧ part.getLast? ≠ some '\r'

variable {text line : List Char} {i : Nat}

theorem isWithoutReturns_dropEnd (line : List Char) :
    IsWithoutReturns line (Text.dropEnd isReturn line) := by
  obtain ⟨es, hline, hes, hlast⟩ := Text.eq_dropEnd_append isReturn line
  refine ⟨⟨es.length, ?_⟩, fun h => ?_⟩
  · have hreturns : es = List.replicate es.length '\r' :=
      List.eq_replicate_iff.mpr ⟨rfl, fun c hc => by simpa [isReturn] using hes c hc⟩
    rw [← hreturns]
    exact hline
  · have hnot := hlast '\r' h
    simp [isReturn] at hnot

/-- Induction on the segments: one begins after those before it and their feeds. -/
theorem segmentRange?_eq_some {segments : List (List Char)} {segment : List Char}
    (start : Nat) (h : segments[i]? = some segment) :
    let first := start + Text.width ((segments.take i).flatMap fun s => s ++ ['\n'])
    segmentRange? start segments (i + 1) =
      some ⟨first, first + Text.width (Text.dropEnd isReturn segment)⟩ := by
  induction segments generalizing start i with
  | nil => cases h
  | cons s segments ih =>
    cases i with
    | zero =>
      obtain rfl := Option.some.inj h
      rfl
    | succ i =>
      have hfeed : Text.width ['\n'] = 1 := rfl
      simp only [segmentRange?, ih _ h, List.take_succ_cons, List.flatMap_cons, Text.width_append,
        hfeed, Nat.add_assoc]

/-- The range of a line is where the line stands, without the carriage returns at its end. -/
theorem exists_lineRange?_eq (h : (Text.lines text)[i]? = some line) : ∃ range,
    lineRange? text (i + 1) = some range ∧ Marks text (Text.dropEnd isReturn line) range := by
  obtain ⟨before, after, htext, hwidth, -⟩ := Text.exists_append_of_line h
  obtain ⟨ret, hret, hsegment⟩ := Text.getElem?_segments h
  obtain ⟨es, hline, -⟩ := Text.eq_dropEnd_append isReturn line
  have hreturn : ∀ c ∈ ret, isReturn c = true := by
    rcases hret with rfl | rfl <;> simp [isReturn]
  have hrange := segmentRange?_eq_some 0 hsegment
  simp only [Nat.zero_add, Text.dropEnd_append hreturn] at hrange
  rw [← Text.lineStart, ← hwidth, ← Text.width_append] at hrange
  refine ⟨_, hrange, before, es ++ after, ?_, rfl⟩
  calc text = before ++ (Text.dropEnd isReturn line ++ es) ++ after := by rw [← hline, htext]
    _ = before ++ Text.dropEnd isReturn line ++ (es ++ after) := by simp

/-- Nothing is marked in the text of a program and in no other. A fault at a line is marked in that
line, from its start to its end without carriage returns; for any other fault the whole text is. -/
theorem diagnostics_point (source : String) :
    (diagnostics source = [] ↔ ∃ p, readProgram source = .ok p) ∧
    (∀ (n : Nat) (f : Source.Fault), readProgram source = .error (f.atLine n) →
      ∃ i line part range, n = i + 1 ∧ (Text.lines source.toList)[i]? = some line ∧
        IsWithoutReturns line part ∧ Marks source.toList part range ∧
        range.start ≤ range.stop ∧ range.stop ≤ Text.width source.toList ∧
        lineRange? source.toList n = some range ∧
        diagnostics source = [⟨some n, range, "error", f.message⟩]) ∧
    (∀ f : Source.Fault, readProgram source = .error f.overall →
      diagnostics source = [⟨none, ⟨0, Text.width source.toList⟩, "error", f.message⟩]) := by
  refine ⟨?accepted, fun n f h => ?located, fun f h => ?overall⟩
  case accepted =>
    unfold diagnostics
    cases readProgram source <;> simp
  case located =>
    obtain ⟨i, line, rfl, hline, -, -⟩ := readProgramFrom_eq_error.mp h
    obtain ⟨range, hrange, hmarks⟩ := exists_lineRange?_eq hline
    refine ⟨i, line, _, range, rfl, hline, isWithoutReturns_dropEnd line, hmarks, hmarks.bounds.1,
      hmarks.bounds.2, hrange, ?_⟩
    simp [diagnostics, h, Source.Fault.atLine, hrange]
  case overall =>
    simp [diagnostics, h, Source.Fault.overall]

/-- The last line has a letter of two bytes and a carriage return, and no feed. -/
def accented : String := "max z = x1\r\n\r\nx1 + é\r"

theorem diagnostics_point_accented :
    readProgram accented = .error ((Source.Fault.invalidLine "x1 + é").atLine 3) ∧
    ∃ part range, IsWithoutReturns "x1 + é\r".toList part ∧ Marks accented.toList part range ∧
      diagnostics accented =
        [⟨some 3, range, "error", (Source.Fault.invalidLine "x1 + é").message⟩] := by
  have h : readProgram accented = .error ((Source.Fault.invalidLine "x1 + é").atLine 3) := by
    decide +kernel
  obtain ⟨i, line, part, range, hi, hline, hpart, hmarks, -, -, -, hdiagnostics⟩ :=
    (diagnostics_point accented).2.1 3 _ h
  obtain rfl : i = 2 := by omega
  have hlast : (Text.lines accented.toList)[2]? = some "x1 + é\r".toList := by decide +kernel
  obtain rfl := Option.some.inj (hline.symm.trans hlast)
  exact ⟨h, part, range, hpart, hmarks, hdiagnostics⟩

end Editor

end ExactSimplex
