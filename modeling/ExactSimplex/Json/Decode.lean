import ExactSimplex.Json.Basic
import ExactSimplex.Rational.Literal

/-! Taking JSON values apart. A record is an object with all its fields, in any order and
among others, or the list of its fields in their order. A case of an enumeration is its
name, or an object with one member that has its name and holds what the case carries;
fields that a case carries are an object, never a list. -/

namespace ExactSimplex.Json

def string? : Json → Option String
  | string s => some s
  | _ => none

def bool? : Json → Option Bool
  | bool b => some b
  | _ => none

def int? : Json → Option Int
  | number n => some n
  | _ => none

/-- An unsigned number of 64 bits. -/
def nat? : Json → Option Nat
  | number (.ofNat n) => if n < UInt64.size then some n else none
  | _ => none

def array? : Json → Option (List Json)
  | array items => some items
  | _ => none

def object? : Json → Option (List (String × Json))
  | object members => some members
  | _ => none

/-- The value of a member of an object. -/
def member? (name : String) : Json → Option Json
  | object members => members.lookup name
  | _ => none

def listOf? {α : Type} (item? : Json → Option α) (j : Json) : Option (List α) :=
  j.array?.bind fun items => items.mapM item?

def pairOf? {α β : Type} (first? : Json → Option α) (second? : Json → Option β) :
    Json → Option (α × β)
  | array [a, b] => do some (← first? a, ← second? b)
  | _ => none

/-- The values of the named fields of an object, in the order of the names. -/
def fields? (names : List String) : Json → Option (List Json)
  | object members => names.mapM fun name => members.lookup name
  | _ => none

/-- The values of the named fields of a record, in the order of the names. -/
def record? (names : List String) : Json → Option (List Json)
  | object members => (object members).fields? names
  | array items => if items.length = names.length then some items else none
  | _ => none

/-- The name of a case and what it carries. -/
def case? : Json → Option (String × Option Json)
  | string s => some (s, none)
  | object [(name, v)] => some (name, some v)
  | _ => none

/-- One of finitely many values that carry nothing, by its name. -/
def oneOf? {α : Type} (all : List α) (name : α → String) (j : Json) : Option α :=
  match j.case? with
  | some (s, none) => all.find? fun a => name a == s
  | some (s, some null) => all.find? fun a => name a == s
  | _ => none

/-- A fraction, written as a literal in a string. -/
def rational? (j : Json) : Option Rat := j.string?.bind fun s => (Rational.read s).toOption

def ofRational (q : Rat) : Json := .string (Rational.text q)

/-! ## Parts are smaller than the whole -/

theorem sizeOf_lookup_lt {members : List (String × Json)} {name : String} {v : Json}
    (h : members.lookup name = some v) : sizeOf v < sizeOf (object members) := by
  have hlt : sizeOf v < sizeOf members := by
    induction members with
    | nil => cases h
    | cons m rest ih =>
      obtain ⟨n, w⟩ := m
      rw [List.lookup_cons] at h
      split at h
      · cases h
        simp only [List.cons.sizeOf_spec, Prod.mk.sizeOf_spec]
        omega
      · have := ih h
        simp only [List.cons.sizeOf_spec]
        omega
  simp only [object.sizeOf_spec]
  omega

theorem sizeOf_record?_lt {names : List String} {j v : Json} {vs : List Json}
    (h : record? names j = some vs) (hv : v ∈ vs) : sizeOf v < sizeOf j := by
  cases j with
  | object members =>
    simp only [record?, fields?] at h
    induction names generalizing vs with
    | nil => simp at h; subst h; cases hv
    | cons n names ih =>
      simp only [List.mapM_cons] at h
      cases hn : members.lookup n with
      | none => simp [hn] at h
      | some w =>
        cases hr : names.mapM (fun name => members.lookup name) with
        | none => simp [hn, hr] at h
        | some ws =>
          simp only [hn, hr, bind, Option.bind, pure, Option.some.injEq] at h
          subst h
          rcases List.mem_cons.mp hv with rfl | hv
          · exact sizeOf_lookup_lt hn
          · exact ih hv hr
  | array items =>
    simp only [record?] at h
    split at h
    · cases h
      have := List.sizeOf_lt_of_mem hv
      simp only [array.sizeOf_spec]
      omega
    · cases h
  | _ => simp [record?] at h

end ExactSimplex.Json
