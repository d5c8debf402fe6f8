import ExactSimplex.Proofs.Except
import ExactSimplex.Proofs.Traversal
import ExactSimplex.Text.Line

/-! Computations whose operations are guarded: taking or replacing an item beyond the end of a
list, inverting zero, subtracting below zero and cutting a text inside a character are faults of
their own. What a computation reports itself, its failures, stays apart from these. -/

namespace ExactSimplex

/-- What an operation does not answer. -/
inductive Fault where
  | outOfRange (index length : Nat)
  | zeroInverted
  | belowZero
  | insideCharacter
  deriving DecidableEq

/-- Why a computation has no result: an operation without an answer, or a failure that the
computation reports. -/
inductive Stop (ε : Type) where
  | fault (f : Fault)
  | failure (e : ε)
  deriving DecidableEq

abbrev Guarded (ε α : Type) := Except (Stop ε) α

namespace Guarded

variable {ε δ α β : Type}

/-! ## Operations -/

def item (xs : List α) (i : Nat) : Guarded ε α :=
  match xs[i]? with
  | some a => .ok a
  | none => .error (.fault (.outOfRange i xs.length))

def replace (xs : List α) (i : Nat) (a : α) : Guarded ε (List α) :=
  if i < xs.length then .ok (xs.set i a) else .error (.fault (.outOfRange i xs.length))

def invert (q : Rat) : Guarded ε Rat :=
  if q = 0 then .error (.fault .zeroInverted) else .ok q⁻¹

def subtract (a b : Nat) : Guarded ε Nat :=
  if b ≤ a then .ok (a - b) else .error (.fault .belowZero)

/-- The characters before and after the given number of bytes. -/
def splitAtByte : Nat → List Char → Guarded ε (List Char × List Char)
  | 0, cs => .ok ([], cs)
  | n + 1, [] => .error (.fault (.outOfRange (n + 1) 0))
  | n + 1, c :: cs =>
    if c.utf8Size ≤ n + 1 then
      (splitAtByte (n + 1 - c.utf8Size) cs).map fun (before, after) => (c :: before, after)
    else .error (.fault .insideCharacter)

theorem item_eq_ok {xs : List α} {i : Nat} {a : α} (h : xs[i]? = some a) :
    (item xs i : Guarded ε α) = .ok a := by
  rw [item, h]

theorem replace_eq_ok {xs : List α} {i : Nat} (h : i < xs.length) (a : α) :
    (replace xs i a : Guarded ε (List α)) = .ok (xs.set i a) := if_pos h

theorem invert_eq_ok {q : Rat} (h : q ≠ 0) : (invert q : Guarded ε Rat) = .ok q⁻¹ := if_neg h

/-- A text can be cut at the width of what it begins with. -/
theorem splitAtByte_width (before after : List Char) :
    (splitAtByte (Text.width before) (before ++ after) : Guarded ε _) = .ok (before, after) := by
  induction before with
  | nil => simp [splitAtByte]
  | cons c before ih =>
    obtain ⟨n, hn⟩ := Nat.exists_eq_succ_of_ne_zero
      (Nat.ne_of_gt (Nat.add_pos_left c.utf8Size_pos (Text.width before)))
    have hwidth : n + 1 - c.utf8Size = Text.width before := by omega
    rw [Text.width_cons, hn, List.cons_append, splitAtByte, if_pos (by omega), hwidth, ih]
    rfl

/-- The euro sign takes three bytes. -/
example : (splitAtByte 2 ['€', 'x'] : Guarded Empty _) = .error (.fault .insideCharacter) ∧
    (item ['€', 'x'] 2 : Guarded Empty _) = .error (.fault (.outOfRange 2 2)) := ⟨rfl, rfl⟩

/-! ## Results without faults -/

/-- The same result, as that of a guarded computation. -/
def ofExcept (x : Except ε α) : Guarded ε α := x.mapError .failure

/-- What a computation that is part of another one reports, as the other one reports it. -/
def reported (f : ε → δ) (x : Guarded ε α) : Guarded δ α :=
  x.mapError fun
    | .fault fault => .fault fault
    | .failure e => .failure (f e)

/-- The value, or else the failure. -/
def orFailure (o : Option α) (e : ε) : Guarded ε α :=
  match o with
  | some a => .ok a
  | none => .error (.failure e)

theorem ok_bind (a : α) (f : α → Guarded ε β) : (Except.ok a >>= f) = f a := rfl

@[simp] theorem ofExcept_ok (a : α) : (ofExcept (.ok a) : Guarded ε α) = .ok a := rfl

@[simp] theorem ofExcept_error (e : ε) :
    (ofExcept (.error e) : Guarded ε α) = .error (.failure e) := rfl

theorem ok_or_failure (x : Except ε α) : (∃ a, ofExcept x = .ok a ∧ x = .ok a) ∨
    ∃ e, ofExcept x = .error (.failure e) ∧ x = .error e := by
  cases x with
  | error e => exact .inr ⟨e, rfl, rfl⟩
  | ok a => exact .inl ⟨a, rfl, rfl⟩

theorem ofExcept_bind (x : Except ε α) (f : α → Except ε β) :
    ofExcept (x >>= f) = ofExcept x >>= fun a => ofExcept (f a) := by
  cases x <;> rfl

theorem ofExcept_map (x : Except ε α) (f : α → β) : ofExcept (x.map f) = (ofExcept x).map f := by
  cases x <;> rfl

theorem reported_ofExcept (f : ε → δ) (x : Except ε α) :
    reported f (ofExcept x) = ofExcept (x.mapError f) := by
  cases x <;> rfl

/-- A walk over a list in which every failure is the same one. -/
theorem mapM_orFailure {xs : List α} {f : α → Guarded ε β} {g : α → Option β} {e : ε}
    (h : ∀ a, f a = orFailure (g a) e) : xs.mapM f = orFailure (xs.mapM g) e := by
  induction xs with
  | nil => rfl
  | cons a xs ih =>
    rw [List.mapM_cons, List.mapM_cons, h a, ih]
    cases g a with
    | none => rfl
    | some b => cases xs.mapM g <;> rfl

theorem mapM_eq_ofExcept {xs : List α} {f : α → Guarded ε β} {g : α → Except ε β}
    (h : ∀ a, f a = ofExcept (g a)) : xs.mapM f = ofExcept (xs.mapM g) := by
  induction xs with
  | nil => rfl
  | cons a xs ih =>
    rw [List.mapM_cons, List.mapM_cons, h a, ih]
    cases g a with
    | error e => rfl
    | ok b => cases xs.mapM g <;> rfl

end Guarded

end ExactSimplex
