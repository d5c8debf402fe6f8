/-! Linear forms: a coefficient for each of finitely many variables, listed in the order
of the names. The operations never leave a zero behind, and on forms without stored
zeros equality is equality of the functions that they denote. A zero coefficient can
still be stored, by `put` alone; it then counts as an occurrence of its variable. -/

namespace ExactSimplex

structure LinearForm where
  terms : List (String × Rat)
  /-- Names increase, so each occurs once. -/
  sorted : terms.Pairwise fun a b => a.1 < b.1
  deriving DecidableEq

namespace LinearForm

/-! ## Sorted lists of terms -/

/-- Place a term by its name, replacing one of the same name. -/
def placeTerm (name : String) (q : Rat) : List (String × Rat) → List (String × Rat)
  | [] => [(name, q)]
  | t :: ts =>
    if name < t.1 then (name, q) :: t :: ts
    else if name = t.1 then (name, q) :: ts
    else t :: placeTerm name q ts

theorem mem_placeTerm {name : String} {q : Rat} {ts : List (String × Rat)} {x : String × Rat}
    (h : x ∈ placeTerm name q ts) : x = (name, q) ∨ x ∈ ts := by
  induction ts with
  | nil => simpa [placeTerm] using h
  | cons t ts ih =>
    simp only [placeTerm] at h
    split at h
    · simpa using h
    · split at h
      · rcases List.mem_cons.mp h with h | h
        · exact .inl h
        · exact .inr (List.mem_cons_of_mem _ h)
      · rcases List.mem_cons.mp h with h | h
        · exact .inr (h ▸ List.mem_cons_self)
        · exact (ih h).imp id (List.mem_cons_of_mem _)

theorem placeTerm_sorted {name : String} {q : Rat} {ts : List (String × Rat)}
    (h : ts.Pairwise fun a b => a.1 < b.1) :
    (placeTerm name q ts).Pairwise fun a b => a.1 < b.1 := by
  induction ts with
  | nil => simp [placeTerm]
  | cons t ts ih =>
    obtain ⟨ht, hts⟩ := List.pairwise_cons.mp h
    simp only [placeTerm]
    split
    · rename_i hlt
      refine List.pairwise_cons.mpr ⟨fun x hx => ?_, h⟩
      rcases List.mem_cons.mp hx with rfl | hx
      · exact hlt
      · exact String.lt_trans hlt (ht x hx)
    · split
      · rename_i heq
        exact List.pairwise_cons.mpr ⟨fun x hx => heq ▸ ht x hx, hts⟩
      · rename_i hlt hne
        refine List.pairwise_cons.mpr ⟨fun x hx => ?_, ih hts⟩
        rcases mem_placeTerm hx with rfl | hx
        · exact String.not_le.mp fun hle => hlt (String.not_le.mp fun hge =>
            hne (String.le_antisymm hle hge))
        · exact ht x hx

/-! ## Forms -/

def empty : LinearForm := ⟨[], .nil⟩

/-- The coefficient stored for a variable. -/
def get? (p : LinearForm) (name : String) : Option Rat := p.terms.lookup name

/-- The coefficient of a variable, zero when none is stored. -/
def coefficient (p : LinearForm) (name : String) : Rat := (p.get? name).getD 0

def contains (p : LinearForm) (name : String) : Bool := (p.get? name).isSome

def names (p : LinearForm) : List String := p.terms.map (·.1)

/-- Store a coefficient as it is, zero included. -/
def put (p : LinearForm) (name : String) (q : Rat) : LinearForm :=
  ⟨placeTerm name q p.terms, placeTerm_sorted p.sorted⟩

def erase (p : LinearForm) (name : String) : LinearForm :=
  ⟨p.terms.filter (·.1 != name), p.sorted.filter _⟩

/-- Set a coefficient; setting it to zero removes the variable. -/
def insert (p : LinearForm) (name : String) (q : Rat) : LinearForm :=
  if q = 0 then p.erase name else p.put name q

/-- The form in which each name has the last coefficient listed for it. -/
def ofTerms (terms : List (String × Rat)) : LinearForm :=
  terms.foldl (fun p t => p.insert t.1 t.2) empty

/-- As `ofTerms`, with explicit zeros kept. -/
def ofStored (terms : List (String × Rat)) : LinearForm :=
  terms.foldl (fun p t => p.put t.1 t.2) empty

def scale (p : LinearForm) (k : Rat) : LinearForm :=
  ofTerms (p.terms.map fun t => (t.1, t.2 * k))

def add (p q : LinearForm) : LinearForm :=
  q.terms.foldl (fun sum t => sum.insert t.1 (sum.coefficient t.1 + t.2)) p

/-- The terms whose names are listed, in that order. -/
def termsIn (p : LinearForm) (order : List String) : List (String × Rat) :=
  order.filterMap fun name => (p.get? name).map fun q => (name, q)

/-- The coefficients of the listed names. -/
def dense (p : LinearForm) (order : List String) : List Rat := order.map p.coefficient

/-- The value of the form when each variable has the value that `v` gives it. -/
def eval (p : LinearForm) (v : String → Rat) : Rat :=
  p.terms.foldr (fun t rest => t.2 * v t.1 + rest) 0

/-- No zero is stored. -/
def Reduced (p : LinearForm) : Prop := ∀ t ∈ p.terms, t.2 ≠ 0

instance (p : LinearForm) : Decidable p.Reduced := inferInstanceAs (Decidable (∀ t ∈ p.terms, _))

/-! ## Looking up after a change -/

theorem lookup_term (name : String) (t : String × Rat) (ts : List (String × Rat)) :
    (t :: ts).lookup name = if name = t.1 then some t.2 else ts.lookup name := by
  rw [List.lookup_cons]
  by_cases h : name = t.1
  · simp [h]
  · rw [beq_false_of_ne h, if_neg h]

theorem lookup_placeTerm (name other : String) (q : Rat) (ts : List (String × Rat)) :
    (placeTerm name q ts).lookup other = if other = name then some q else ts.lookup other := by
  induction ts with
  | nil => simp only [placeTerm, lookup_term, List.lookup_nil]
  | cons t ts ih =>
    simp only [placeTerm]
    split
    · simp only [lookup_term]
    · split
      · rename_i heq
        by_cases h : other = name <;> simp [lookup_term, h, ← heq]
      · rename_i hne
        by_cases h : other = t.1
        · simp [lookup_term, h, Ne.symm hne]
        · simp [lookup_term, h, ih]

@[simp] theorem get?_empty (name : String) : empty.get? name = none := rfl

theorem get?_put (p : LinearForm) (name other : String) (q : Rat) :
    (p.put name q).get? other = if other = name then some q else p.get? other :=
  lookup_placeTerm name other q p.terms

theorem get?_erase (p : LinearForm) (name other : String) :
    (p.erase name).get? other = if other = name then none else p.get? other := by
  obtain ⟨ts, hts⟩ := p
  simp only [get?, erase]
  clear hts
  induction ts with
  | nil => simp
  | cons t ts ih =>
    by_cases ht : t.1 = name
    · by_cases h : other = name
      · simpa [List.filter_cons, ht, h] using ih
      · simp [ht, h, ih, lookup_term]
    · by_cases h : other = t.1
      · simp [ht, h, lookup_term]
      · simp [ht, h, ih, lookup_term]

theorem get?_insert (p : LinearForm) (name other : String) (q : Rat) :
    (p.insert name q).get? other =
      if other = name then (if q = 0 then none else some q) else p.get? other := by
  by_cases hq : q = 0
  · simp [insert, hq, get?_erase]
  · simp [insert, hq, get?_put]

theorem coefficient_insert (p : LinearForm) (name other : String) (q : Rat) :
    (p.insert name q).coefficient other = if other = name then q else p.coefficient other := by
  simp only [coefficient, get?_insert]
  by_cases h : other = name <;> by_cases hq : q = 0 <;> simp [h, hq]

/-! ## Zeros are never left behind -/

theorem empty_reduced : empty.Reduced := by simp [Reduced, empty]

theorem insert_reduced {p : LinearForm} (h : p.Reduced) (name : String) (q : Rat) :
    (p.insert name q).Reduced := by
  intro t ht
  by_cases hq : q = 0
  · simp only [insert, if_pos hq, erase] at ht
    exact h t (List.mem_filter.mp ht).1
  · simp only [insert, if_neg hq, put] at ht
    rcases mem_placeTerm ht with rfl | ht
    · exact hq
    · exact h t ht

theorem foldl_insert_reduced (value : LinearForm → String × Rat → Rat)
    (terms : List (String × Rat)) {p : LinearForm} (h : p.Reduced) :
    (terms.foldl (fun p t => p.insert t.1 (value p t)) p).Reduced := by
  induction terms generalizing p with
  | nil => exact h
  | cons t terms ih => exact ih (insert_reduced h _ _)

theorem ofTerms_reduced (terms : List (String × Rat)) : (ofTerms terms).Reduced :=
  foldl_insert_reduced (fun _ t => t.2) terms empty_reduced

theorem scale_reduced (p : LinearForm) (k : Rat) : (p.scale k).Reduced := ofTerms_reduced _

theorem add_reduced {p : LinearForm} (h : p.Reduced) (q : LinearForm) : (p.add q).Reduced :=
  foldl_insert_reduced (fun sum t => sum.coefficient t.1 + t.2) q.terms h

end LinearForm

end ExactSimplex
