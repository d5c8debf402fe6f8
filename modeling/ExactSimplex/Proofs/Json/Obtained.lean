import ExactSimplex.Json.Program
import ExactSimplex.Proofs.LinearForm.Equality
import ExactSimplex.Proofs.Traversal

/-! What holds of every linear form and of every table of declarations, however it was obtained. The
operations on forms never store a zero and declaring never repeats a name. Reading JSON takes what
is there: a form has a stored zero precisely where the last member of some name writes zero, and a
table repeats a name precisely where the list does. So forms without zeros, equal only where their
values differ nowhere, and tables without repetitions are all that can be obtained precisely if the
JSON values that are read have neither. -/

namespace ExactSimplex

/-! ## What JSON values write -/

namespace Json

/-- The last member of some name writes zero. -/
def KeepsZero (j : Json) : Prop :=
  ∃ members name v, j = object members ∧ members.reverse.lookup name = some v ∧
    v.rational? = some 0

/-- The name that an entry of a list of declarations begins with. -/
def entryName? : Json → Option String
  | array (string name :: _) => some name
  | _ => none

/-- Two entries begin with the same name. -/
def RepeatsName (j : Json) : Prop :=
  ∃ items, j = array items ∧ ¬ (items.filterMap entryName?).Nodup

end Json

open Json

namespace LinearForm

variable {given : Json → Prop} {j : Json} {p p' : LinearForm}

/-- The member writes the term. -/
def Writes (m : String × Json) (t : String × Rat) : Prop := m.1 = t.1 ∧ m.2.rational? = some t.2

theorem lookup_of_writes {members : List (String × Json)} {ts : List (String × Rat)}
    (h : List.Forall₂ Writes members ts) (name : String) :
    ts.lookup name = (members.lookup name).bind rational? := by
  induction h with
  | nil => rfl
  | @cons m t _ _ hm _ ih =>
    obtain ⟨hname, hvalue⟩ := hm
    rw [lookup_term, List.lookup_cons, ih, hname]
    by_cases hn : name = t.1
    · simp [hn, hvalue]
    · simp only [if_neg hn, beq_false_of_ne hn]

theorem ofJson?_eq_some {j : Json} (h : ofJson? j = some p) :
    ∃ members ts, j = object members ∧ List.Forall₂ Writes members ts ∧ p = ofStored ts := by
  obtain ⟨members, hobject, h⟩ := Option.bind_eq_some_iff.mp h
  obtain ⟨ts, hts, h⟩ := Option.bind_eq_some_iff.mp h
  refine ⟨members, ts, ?_, (mapM_eq_some_iff.mp hts).imp fun m t hm => ?_, (Option.some.inj h).symm⟩
  · cases j <;> cases hobject
    rfl
  · obtain ⟨q, hq, rfl⟩ := Option.map_eq_some_iff.mp hm
    exact ⟨rfl, hq⟩

/-- A form that was read has a stored zero where the value that it was read from keeps one. -/
theorem reduced_iff_of_ofJson? (h : ofJson? j = some p) : p.Reduced ↔ ¬ j.KeepsZero := by
  obtain ⟨members, ts, rfl, hwrites, rfl⟩ := ofJson?_eq_some h
  have hlast := lookup_of_writes (List.forall₂_reverse_iff.mpr hwrites)
  simp only [reduced_ofStored_iff, hlast, KeepsZero, object.injEq, Ne, Option.bind_eq_some_iff]
  grind

/-- The forms made by the operations from no term at all and from the given JSON values. -/
inductive Obtained (given : Json → Prop) : LinearForm → Prop
  | empty : Obtained given empty
  | insert {p : LinearForm} (name : String) (q : Rat) :
      Obtained given p → Obtained given (p.insert name q)
  | scale {p : LinearForm} (k : Rat) : Obtained given p → Obtained given (p.scale k)
  | add {p p' : LinearForm} : Obtained given p → Obtained given p' → Obtained given (p.add p')
  | ofTerms (ts : List (String × Rat)) : Obtained given (ofTerms ts)
  | read {j : Json} {p : LinearForm} : given j → ofJson? j = some p → Obtained given p

theorem Obtained.reduced
    (hgiven : ∀ j p, given j → ofJson? j = some p → ¬ j.KeepsZero) (h : Obtained given p) :
    p.Reduced := by
  induction h with
  | empty => exact empty_reduced
  | insert name q _ ih => exact insert_reduced ih name q
  | scale k _ _ => exact scale_reduced _ k
  | add _ _ ih _ => exact add_reduced ih _
  | ofTerms ts => exact ofTerms_reduced ts
  | read hj hread => exact (reduced_iff_of_ofJson? hread).mpr (hgiven _ _ hj hread)

/-- A form obtained beside its multiple by 1, which has the same values and no stored zero. -/
theorem Obtained.reduced_of_eq_iff (h : Obtained given p)
    (heq : ∀ p', Obtained given p' → ((∀ v, p.eval v = p'.eval v) → p = p')) : p.Reduced := by
  have hvalues : ∀ v, p.eval v = (p.scale 1).eval v :=
    eval_eq_iff.mpr fun name => by rw [coefficient_scale, mul_one]
  rw [heq (p.scale 1) (.scale 1 h) hvalues]
  exact scale_reduced p 1

end LinearForm

namespace Declarations

variable {given : Json → Prop} {j : Json} {d : Declarations}

/-- The tables made by declaring from the empty one and from the given JSON values. -/
inductive Obtained (given : Json → Prop) : Declarations → Prop
  | empty : Obtained given empty
  | declare {d e : Declarations} (name : String) (r : Restriction) :
      Obtained given d → d.declare? name r = some e → Obtained given e
  | read {j : Json} {d : Declarations} : given j → ofJson? j = some d → Obtained given d

theorem pairOf?_eq_some {item : Json} {e : String × Restriction}
    (h : pairOf? string? Restriction.ofJson? item = some e) : entryName? item = some e.1 := by
  unfold pairOf? at h
  split at h
  · obtain ⟨name, hname, h⟩ := Option.bind_eq_some_iff.mp h
    obtain ⟨r, -, h⟩ := Option.bind_eq_some_iff.mp h
    obtain rfl := Option.some.inj h
    unfold string? at hname
    split at hname
    · exact hname
    · cases hname
  · cases h

theorem filterMap_entryName? {items : List Json} {entries : List (String × Restriction)}
    (h : List.Forall₂ (fun item e => pairOf? string? Restriction.ofJson? item = some e) items
      entries) : items.filterMap entryName? = entries.map (·.1) := by
  induction h with
  | nil => rfl
  | cons hitem _ ih => rw [List.filterMap_cons, pairOf?_eq_some hitem, List.map_cons, ih]

/-- A table that was read repeats a name where the value that it was read from does. -/
theorem nodup_iff_of_ofJson? (h : ofJson? j = some d) : d.names.Nodup ↔ ¬ j.RepeatsName := by
  obtain ⟨entries, hentries, rfl⟩ := Option.map_eq_some_iff.mp h
  obtain ⟨items, harray, hitems⟩ := Option.bind_eq_some_iff.mp hentries
  have hj : j = array items := by
    cases j <;> cases harray
    rfl
  simp [hj, RepeatsName, names, filterMap_entryName? (mapM_eq_some_iff.mp hitems)]

theorem Obtained.nodup
    (hgiven : ∀ j d, given j → ofJson? j = some d → ¬ j.RepeatsName) (h : Obtained given d) :
    d.names.Nodup := by
  induction h with
  | empty => exact List.nodup_nil
  | declare name r _ hdeclare ih => exact nodup_of_declare? ih hdeclare
  | read hj hread => exact (nodup_iff_of_ofJson? hread).mpr (hgiven _ _ hj hread)

end Declarations

/-- Whatever JSON values are given to be read: all forms that can be obtained are without stored
zeros, and likewise all of them are equal where their values are, precisely if none of the values
that are read as a form keeps a zero; and no table that can be obtained repeats a name precisely if
none of the values that are read as a table does. -/
theorem obtained_sound_iff (given : Json → Prop) :
    ((∀ p, LinearForm.Obtained given p → p.Reduced) ↔
      ∀ j p, given j → LinearForm.ofJson? j = some p → ¬ j.KeepsZero) ∧
    ((∀ p p', LinearForm.Obtained given p → LinearForm.Obtained given p' →
        (p = p' ↔ ∀ v, p.eval v = p'.eval v)) ↔
      ∀ j p, given j → LinearForm.ofJson? j = some p → ¬ j.KeepsZero) ∧
    ((∀ d, Declarations.Obtained given d → d.names.Nodup) ↔
      ∀ j d, given j → Declarations.ofJson? j = some d → ¬ j.RepeatsName) := by
  have hforms : (∀ p, LinearForm.Obtained given p → p.Reduced) ↔
      ∀ j p, given j → LinearForm.ofJson? j = some p → ¬ j.KeepsZero :=
    ⟨fun h j p hj hread => (LinearForm.reduced_iff_of_ofJson? hread).mp (h p (.read hj hread)),
      fun h _ hp => hp.reduced h⟩
  refine ⟨hforms, ?values, ?tables⟩
  case values =>
    rw [← hforms]
    constructor
    · exact fun h p hp => hp.reduced_of_eq_iff fun p' hp' => (h p p' hp hp').mpr
    · exact fun h p p' hp hp' => (h p hp).eq_iff_eval_eq (h p' hp')
  case tables =>
    constructor
    · intro h j d hj hread
      exact (Declarations.nodup_iff_of_ofJson? hread).mp (h d (.read hj hread))
    · exact fun h _ hd => hd.nodup h

/-- The object `{"x1": "0"}` is read as a form that keeps its zero. It has the value of the form
without terms wherever both are evaluated, and it is another form. The list that declares `x1`
twice is read as a table with both entries. -/
theorem not_obtained_sound_storedZero :
    (∃ p, LinearForm.Obtained (fun _ => True) p ∧
      LinearForm.ofJson? (object [("x1", string "0")]) = some p ∧ ¬ p.Reduced ∧
      p ≠ LinearForm.empty ∧ ∀ v, p.eval v = LinearForm.empty.eval v) ∧
    ∃ d, Declarations.Obtained (fun _ => True) d ∧
      Declarations.ofJson? (array [array [string "x1", string "non-negative"],
        array [string "x1", string "unrestricted"]]) = some d ∧ ¬ d.names.Nodup := by
  have hform : LinearForm.ofJson? (object [("x1", string "0")]) =
      some (LinearForm.ofStored [("x1", 0)]) := by decide +kernel
  have htable : Declarations.ofJson? (array [array [string "x1", string "non-negative"],
      array [string "x1", string "unrestricted"]]) =
      some ⟨[("x1", .nonNegative), ("x1", .unrestricted)]⟩ := by decide +kernel
  refine ⟨⟨_, .read trivial hform, hform, ?stored, by decide +kernel, ?values⟩,
    ⟨_, .read trivial htable, htable, by decide⟩⟩
  case stored =>
    exact fun h => h ("x1", 0) (by decide +kernel) rfl
  case values =>
    have hterms : (LinearForm.ofStored [("x1", 0)]).terms = [("x1", 0)] := by decide +kernel
    intro v
    simp [LinearForm.eval, hterms, LinearForm.empty]

end ExactSimplex
