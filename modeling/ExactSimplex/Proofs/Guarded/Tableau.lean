import ExactSimplex.Proofs.Guarded.Basic
import ExactSimplex.Proofs.Text.Character
import ExactSimplex.Tableau.Text

/-! Basic variables and tables, made with guarded operations. A unit column is one of the columns
before the right-hand side, and the digits that close a name are single bytes. -/

namespace ExactSimplex.Guarded

variable {ε : Type}

/-! ## Basic variables -/

def basicVariable (t : Tableau) (row : Nat) : Guarded ε (Option String) :=
  match t.basicColumn? row with
  | none => .ok none
  | some j => (item t.columns j).map some

def basicVariables (t : Tableau) : Guarded ε (List (Option String)) :=
  (List.range t.rows.length).mapM (basicVariable t)

theorem basicColumn?_lt {t : Tableau} {row j : Nat} (h : t.basicColumn? row = some j) :
    j < t.columns.length := by
  have hj : j < t.rhsColumn := List.mem_range.mp (List.mem_of_find?_eq_some h)
  simp only [Tableau.rhsColumn] at hj
  omega

theorem basicVariable_eq (t : Tableau) (row : Nat) :
    (basicVariable t row : Guarded ε _) = .ok (t.basicVariable? row) := by
  unfold basicVariable Tableau.basicVariable?
  cases h : t.basicColumn? row with
  | none => rfl
  | some j =>
    have hj := List.getElem?_eq_getElem (basicColumn?_lt h)
    simp only [item_eq_ok hj, Option.bind_some, hj]
    rfl

theorem basicVariables_eq (t : Tableau) :
    (basicVariables t : Guarded ε _) = .ok t.basicVariables :=
  mapM_eq_pure fun row _ => basicVariable_eq t row

/-- The list of basic variables has an item for each row. -/
theorem item_basicVariables {t : Tableau} {i : Nat} (h : i < t.rows.length) :
    (item t.basicVariables i : Guarded ε _) = .ok (t.basicVariable? i) :=
  item_eq_ok (by simp [Tableau.basicVariables, h])

/-! ## Names with subscripts -/

def subscripts : List Char := ['₀', '₁', '₂', '₃', '₄', '₅', '₆', '₇', '₈', '₉']

/-- The subscript for the byte of a digit, by its distance from the byte of zero. -/
def subscript (b : UInt8) : Guarded ε Char := do
  let i ← subtract b.toNat 48
  item subscripts i

/-- The name with the bytes of its closing digits as subscripts. -/
def shown (name : String) : Guarded ε String := do
  let stemWidth := Text.width (Text.dropEnd Char.isDigit name.toList)
  let parts ← splitAtByte stemWidth name.toList
  let marks ← (parts.2.flatMap String.utf8EncodeChar).mapM subscript
  .ok (String.ofList (parts.1 ++ marks))

theorem utf8EncodeChar_of_isDigit {c : Char} (h : c.isDigit = true) :
    String.utf8EncodeChar c = [UInt8.ofNat c.toNat] := by
  have hcode : c.toNat ≤ 127 := Nat.le_trans (Text.code_of_isDigit h).2 (by decide)
  simp [String.utf8EncodeChar, hcode]

theorem subscript_eq {c : Char} (h : c.isDigit = true) :
    (subscript (UInt8.ofNat c.toNat) : Guarded ε _) = .ok (Variable.subscript c) := by
  obtain ⟨hleast, hgreatest⟩ := Text.code_of_isDigit h
  -- One evaluation for each of the ten digits, by the distance from zero.
  have hcode : ∀ i, i < 10 → (subscript (UInt8.ofNat (48 + i)) : Guarded ε _) =
      .ok (Variable.subscript (Char.ofNat (48 + i))) := by
    intro i hi
    match i, hi with
    | 0, _ | 1, _ | 2, _ | 3, _ | 4, _ | 5, _ | 6, _ | 7, _ | 8, _ | 9, _ => rfl
  have hc := hcode (c.toNat - 48) (by omega)
  rwa [Nat.add_sub_cancel' hleast, Char.ofNat_toNat] at hc

theorem bytes_of_digits {digits : List Char} (h : ∀ c ∈ digits, c.isDigit = true) :
    digits.flatMap String.utf8EncodeChar = digits.map fun c => UInt8.ofNat c.toNat := by
  induction digits with
  | nil => rfl
  | cons c digits ih =>
    obtain ⟨hc, hdigits⟩ := List.forall_mem_cons.mp h
    rw [List.flatMap_cons, List.map_cons, utf8EncodeChar_of_isDigit hc, ih hdigits,
      List.singleton_append]

theorem shown_eq (name : String) : (shown name : Guarded ε _) = .ok (Variable.shown name) := by
  obtain ⟨⟨stem, digits⟩, hparts⟩ : ∃ parts, Variable.splitSubscript name.toList = parts :=
    ⟨_, rfl⟩
  have hname : stem ++ digits = name.toList := by
    simpa [hparts] using Variable.splitSubscript_append name.toList
  have hdigits : ∀ c ∈ digits, c.isDigit = true := by
    simpa [hparts] using Variable.splitSubscript_digits name.toList
  have hstem : Text.dropEnd Char.isDigit name.toList = stem := congrArg Prod.fst hparts
  have hmarks : (digits.map fun c => UInt8.ofNat c.toNat).mapM subscript =
      (.ok (digits.map Variable.subscript) : Guarded ε _) := by
    rw [List.mapM_map]
    exact mapM_eq_pure fun c hc => subscript_eq (hdigits c hc)
  simp only [shown, Variable.shown, hparts, hstem]
  rw [← hname, splitAtByte_width, ok_bind, bytes_of_digits hdigits, hmarks, ok_bind]

/-! ## Tables -/

def rowCells (t : Tableau) (i : Nat) (row : List Rat) : Guarded ε (List String) := do
  let basic ← match ← basicVariable t i with
    | some name => shown name
    | none => .ok "-"
  .ok (basic :: row.map Rational.text)

def text (t : Tableau) : Guarded ε String := do
  let names ← t.columns.mapM shown
  let rows ← t.rows.zipIdx.mapM fun (row, i) => rowCells t i row
  .ok (Table.text (("basic" :: names) :: rows))

theorem rowCells_eq (t : Tableau) (i : Nat) (row : List Rat) :
    (rowCells t i row : Guarded ε _) = .ok (t.rowCells i row) := by
  unfold rowCells Tableau.rowCells
  rw [basicVariable_eq, ok_bind]
  cases t.basicVariable? i with
  | none => rfl
  | some name =>
    simp only [shown_eq, ok_bind]
    rfl

/-- A table is made of any tableau, whatever its rows and its names are. -/
theorem text_eq (t : Tableau) : (text t : Guarded ε _) = .ok t.text := by
  have hnames : (t.columns.mapM shown : Guarded ε _) = .ok (t.columns.map Variable.shown) :=
    mapM_eq_pure fun name _ => shown_eq name
  have hrows : (t.rows.zipIdx.mapM fun (row, i) => rowCells t i row : Guarded ε _) =
      .ok (t.rows.mapIdx t.rowCells) := by
    rw [List.mapIdx_eq_zipIdx_map]
    exact mapM_eq_pure fun row _ => rowCells_eq t row.2 row.1
  unfold text
  rw [hnames, ok_bind, hrows, ok_bind]
  rfl

end ExactSimplex.Guarded
