import ExactSimplex.Program.Relation

/-! The declared variables of a program, in the order of their declarations. Declaring
refuses a name that is already there, so a table that grew from nothing by declaring
names each variable once. -/

namespace ExactSimplex

structure Declarations where
  entries : List (String × Restriction)
  deriving DecidableEq, Repr

namespace Declarations

def empty : Declarations := ⟨[]⟩

def names (d : Declarations) : List String := d.entries.map (·.1)

def get? (d : Declarations) (name : String) : Option Restriction := d.entries.lookup name

def contains (d : Declarations) (name : String) : Bool := d.names.contains name

/-- Append an entry without looking at the others. -/
def push (d : Declarations) (name : String) (r : Restriction) : Declarations :=
  ⟨d.entries ++ [(name, r)]⟩

/-- The table with one more variable, unless the name is taken. -/
def declare? (d : Declarations) (name : String) (r : Restriction) : Option Declarations :=
  if d.contains name then none else some (d.push name r)

@[simp] theorem names_push (d : Declarations) (name : String) (r : Restriction) :
    (d.push name r).names = d.names ++ [name] := by simp [names, push]

theorem contains_iff {d : Declarations} {name : String} :
    d.contains name = true ↔ name ∈ d.names := by simp [contains]

theorem get?_eq_none {d : Declarations} {name : String} :
    d.get? name = none ↔ name ∉ d.names := by
  rw [get?, List.lookup_eq_none_iff, names, List.mem_map]
  constructor
  · rintro h ⟨entry, hentry, rfl⟩
    simpa using h entry hentry
  · intro h entry hentry
    exact bne_iff_ne.mpr fun hname => h ⟨entry, hentry, hname.symm⟩

theorem declare?_eq_some {d e : Declarations} {name : String} {r : Restriction} :
    d.declare? name r = some e ↔ name ∉ d.names ∧ e = d.push name r := by
  by_cases h : name ∈ d.names
  · simp [declare?, contains_iff, h]
  · simp only [declare?, contains_iff, h, if_false, Option.some.injEq, not_false_eq_true,
      true_and]
    exact eq_comm

theorem declare?_eq_none {d : Declarations} {name : String} {r : Restriction} :
    d.declare? name r = none ↔ name ∈ d.names := by
  by_cases h : name ∈ d.names <;> simp [declare?, contains_iff, h]

theorem nodup_of_declare? {d e : Declarations} {name : String} {r : Restriction}
    (hd : d.names.Nodup) (h : d.declare? name r = some e) : e.names.Nodup := by
  obtain ⟨hn, rfl⟩ := declare?_eq_some.mp h
  rw [names_push]
  refine List.nodup_append.mpr ⟨hd, by simp, ?_⟩
  intro a ha b hb heq
  obtain rfl := List.mem_singleton.mp hb
  exact hn (heq ▸ ha)

end Declarations

end ExactSimplex
