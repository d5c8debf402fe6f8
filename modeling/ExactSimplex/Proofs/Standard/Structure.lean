import ExactSimplex.Proofs.LinearForm.Terms
import ExactSimplex.Proofs.Standard.Meaning
import ExactSimplex.Proofs.Traversal

/-! What standard form changes and what it leaves. Each inequality becomes an equality by one more
term for a variable of its own; nothing else of the program changes, and no name is used twice,
however the names of the program are chosen. -/

namespace ExactSimplex

/-- The second constraint is the first as an equality, with one more variable. -/
structure Constraint.Gains (c : Constraint) (name : String) (d : Constraint) : Prop where
  relation : d.relation = .equal
  rhs : d.rhs = c.rhs
  unused : name ∉ c.expression.names
  terms : ∀ term, term ∈ d.expression.terms ↔ term = (name, 1) ∨ term ∈ c.expression.terms

/-- What becomes of a constraint, and the variable that it gains. -/
inductive Constraint.ClosesTo (c : Constraint) : Option String → Constraint → Prop
  | equality : c.relation = .equal → ClosesTo c none c
  | slack {k : Nat} {d : Constraint} : c.relation = .atMost → 0 < k →
      c.Gains ("e" ++ toString k) d → ClosesTo c (some ("e" ++ toString k)) d
  | excess {k : Nat} {d : Constraint} : c.relation = .atLeast → 0 < k →
      c.Gains ("s" ++ toString k) d → ClosesTo c (some ("s" ++ toString k)) d

/-- How a program is put into standard form: `gains` has for each constraint the variable that
it gains, if it gains one. -/
structure Program.ClosesTo (p : Program) (gains : List (Option String)) (std : Program) :
    Prop where
  objective : std.objective = p.objective
  gains_length : gains.length = p.constraints.length
  constraints_length : std.constraints.length = p.constraints.length
  constraint : ∀ (i : Nat) (c : Constraint), p.constraints[i]? = some c →
    ∃ name? d, gains[i]? = some name? ∧ std.constraints[i]? = some d ∧ c.ClosesTo name? d
  declarations : std.declarations.entries =
    p.declarations.entries ++ gains.reduceOption.map fun name => (name, .nonNegative)
  distinct : gains.reduceOption.Nodup
  new : ∀ name ∈ gains.reduceOption, name ∉ p.variableNames ∧ name ≠ p.objective.goal
  /-- A new variable occurs in its own constraint only. -/
  own : ∀ (i : Nat) (name : String), gains[i]? = some (some name) →
    name ∉ std.objective.expression.names ∧
      ∀ (j : Nat) (d : Constraint), std.constraints[j]? = some d →
        name ∈ d.expression.names → j = i
  wellFormed : std.WellFormed

/-- Where the members of a list are distinct, each has one position. -/
theorem getElem?_injective_of_reduceOption {α : Type} {l : List (Option α)} {a : α} {i j : Nat}
    (h : l.reduceOption.Nodup) (hi : l[i]? = some (some a)) (hj : l[j]? = some (some a)) :
    i = j := by
  have hpairs : l.Pairwise fun x y => ∀ b, x = some b → ∀ c, y = some c → b ≠ c :=
    List.pairwise_filterMap.mp h
  obtain ⟨hilt, hi⟩ := List.getElem?_eq_some_iff.mp hi
  obtain ⟨hjlt, hj⟩ := List.getElem?_eq_some_iff.mp hj
  have hne : ∀ m n (hm : m < l.length) (hn : n < l.length), l[m] = some a → l[n] = some a →
      ¬ m < n := fun m n hm hn hma hna hlt =>
    List.pairwise_iff_getElem.mp hpairs m n hm hn hlt a hma a hna rfl
  have := hne i j hilt hjlt hi hj
  have := hne j i hjlt hilt hj hi
  omega

namespace Constraint

variable {c d : Constraint} {name other : String} {name? : Option String}

theorem gains_close (h : name ∉ c.expression.names) : c.Gains name (Standard.close c name) where
  relation := rfl
  rhs := rfl
  unused := h
  terms _ := LinearForm.mem_terms_insert (one_ne_zero' Rat) h

theorem Gains.mem_names (h : c.Gains name d) :
    other ∈ d.expression.names ↔ other = name ∨ other ∈ c.expression.names := by
  simp only [LinearForm.names, List.mem_map, h.terms]
  constructor
  · rintro ⟨t, rfl | ht, rfl⟩
    · exact .inl rfl
    · exact .inr ⟨t, ht, rfl⟩
  · rintro (rfl | ⟨t, ht, rfl⟩)
    · exact ⟨_, .inl rfl, rfl⟩
    · exact ⟨t, .inr ht, rfl⟩

/-- A constraint that is not strict closes to what its gain makes of it. -/
theorem closesTo_closeBy {k : Nat} (hlax : c.relation.isStrict = false) (hk : 0 < k)
    (hname? : (Standard.stem? c.relation).map (Standard.numbered · k) = name?)
    (hnew : ∀ name, name? = some name → name ∉ c.expression.names) :
    c.ClosesTo name? (Standard.closeBy c name?) := by
  subst hname?
  cases hr : c.relation with
  | equal => exact .equality hr
  | atMost => exact .slack hr hk (gains_close (hnew _ (by rw [hr]; rfl)))
  | atLeast => exact .excess hr hk (gains_close (hnew _ (by rw [hr]; rfl)))
  | less => rw [hr] at hlax; cases hlax
  | greater => rw [hr] at hlax; cases hlax

/-- A closed constraint has the variables that it had and the one that it gained. -/
theorem ClosesTo.mem_names (h : c.ClosesTo name? d) (hn : other ∈ d.expression.names) :
    name? = some other ∨ other ∈ c.expression.names := by
  cases h with
  | equality => exact .inr hn
  | slack _ _ hgains => exact (hgains.mem_names.mp hn).imp (fun he => by rw [he]) id
  | excess _ _ hgains => exact (hgains.mem_names.mp hn).imp (fun he => by rw [he]) id

end Constraint

namespace Program

variable {p std : Program} {name : String}

theorem standardize_fails_iff :
    (∃ err, p.standardize = .error err) ↔ ∃ c ∈ p.constraints, c.relation.isStrict = true := by
  have hsome : (∃ c ∈ p.constraints, c.relation.isStrict = true) ↔ ¬ p.hasStrict = false := by
    simp [hasStrict]
  rw [hsome, ← firstStrict?_eq_none, standardize]
  cases p.firstStrict? <;> simp

theorem firstAt_of_standardize_eq_error {err : StandardizeError}
    (h : p.standardize = .error err) :
    ∃ i c, FirstAt (fun c : Constraint => c.relation.isStrict) p.constraints i c ∧
      err = .unsupportedRelation i c.relation := by
  unfold standardize at h
  split at h
  · rename_i index relation hfirst
    obtain ⟨c, hc, rfl⟩ := firstAt_of_find?_zipIdx (f := fun c : Constraint => c.relation.isStrict)
      (g := Constraint.relation) hfirst
    exact ⟨index, c, hc, (Except.error.inj h).symm⟩
  · cases h

theorem WellFormed.gained_nodup (hw : p.WellFormed) (h : p.standardize = .ok std) :
    (p.objective.goal :: p.variableNames ++ p.gained.reduceOption).Nodup :=
  (standardized_gained h).closes.nodup (List.nodup_cons.mpr ⟨hw.objectiveFree, hw.distinct⟩)

/-- The new names are none of the program's. -/
theorem WellFormed.not_mem_of_gained (hw : p.WellFormed) (h : p.standardize = .ok std)
    (hname : name ∈ p.gained.reduceOption) :
    name ∉ p.variableNames ∧ name ≠ p.objective.goal := by
  obtain ⟨-, -, hdisjoint⟩ := List.nodup_append.mp (hw.gained_nodup h)
  exact ⟨fun hmem => hdisjoint _ (List.mem_cons_of_mem _ hmem) _ hname rfl,
    fun heq => hdisjoint _ List.mem_cons_self _ hname heq.symm⟩

theorem WellFormed.constraint_closesTo (hw : p.WellFormed) (h : p.standardize = .ok std) {i : Nat}
    {c : Constraint} (hc : p.constraints[i]? = some c) :
    ∃ name? d, p.gained[i]? = some name? ∧ std.constraints[i]? = some d ∧ c.ClosesTo name? d := by
  obtain ⟨hlax, rfl⟩ := standardize_eq_ok_iff.mp h
  have hmem := List.mem_of_getElem? hc
  obtain ⟨k, hk, hgained⟩ : ∃ k, 0 < k ∧ p.gained[i]? = _ := Standard.gained_getElem? hc
  refine ⟨_, _, hgained, ?_, Constraint.closesTo_closeBy (isStrict_eq_false hlax c hmem) hk rfl
    fun name hname hused => ?_⟩
  · rw [closed, List.getElem?_zipWith, hc, hgained]
  · have hnew : name ∈ p.gained.reduceOption :=
      List.reduceOption_mem_iff.mpr (hname ▸ List.mem_of_getElem? hgained)
    exact (hw.not_mem_of_gained h hnew).1 (hw.constraint_names_mem hmem hused)

/-- A new variable that a constraint of the standard form has was gained by that constraint. -/
theorem WellFormed.gained_of_mem_names (hw : p.WellFormed) (h : p.standardize = .ok std)
    (hnew : name ∈ p.gained.reduceOption) {j : Nat} {d : Constraint}
    (hd : std.constraints[j]? = some d) (hused : name ∈ d.expression.names) :
    p.gained[j]? = some (some name) := by
  have hlength := (standardized_gained h).closes.length_eq
  obtain ⟨c, hc⟩ : ∃ c, p.constraints[j]? = some c :=
    ⟨_, List.getElem?_eq_getElem (hlength ▸ (List.getElem?_eq_some_iff.mp hd).1)⟩
  obtain ⟨name?, d', hgained, hd', hcloses⟩ := hw.constraint_closesTo h hc
  obtain rfl := Option.some.inj (hd.symm.trans hd')
  rcases hcloses.mem_names hused with hown | hold
  · exact hown ▸ hgained
  · exact absurd (hw.constraint_names_mem (List.mem_of_getElem? hc) hold)
      (hw.not_mem_of_gained h hnew).1

theorem WellFormed.closesTo (hw : p.WellFormed) (h : p.standardize = .ok std) :
    p.ClosesTo p.gained std where
  objective := (standardized_gained h).objective
  gains_length := Standard.gained_length _ _
  constraints_length := (standardized_gained h).closes.length_eq
  constraint _ _ hc := hw.constraint_closesTo h hc
  declarations := (standardized_gained h).entries
  distinct := (hw.gained_nodup h).of_append_right
  new _ hname := hw.not_mem_of_gained h hname
  own i name hi := by
    have hnew : name ∈ p.gained.reduceOption :=
      List.reduceOption_mem_iff.mpr (List.mem_of_getElem? hi)
    refine ⟨fun hused => ?_, fun j d hd hused => ?_⟩
    · rw [(standardized_gained h).objective] at hused
      exact (hw.not_mem_of_gained h hnew).1 (hw.names_mem List.mem_cons_self hused)
    · exact getElem?_injective_of_reduceOption (hw.gained_nodup h).of_append_right
        (hw.gained_of_mem_names h hnew hd hused) hi
  wellFormed := (standardized_gained h).wellFormed hw

/-- Standard form fails precisely for programs with a strict constraint, at the first one. It
turns every other constraint into an equality, by a new variable of its own for each inequality,
and changes nothing else. -/
theorem standardize_structure (p : Program) (hw : p.WellFormed) :
    ((∃ err, p.standardize = .error err) ↔
        ∃ c ∈ p.constraints, c.relation.isStrict = true) ∧
      (∀ err, p.standardize = .error err →
        ∃ i c, FirstAt (fun c : Constraint => c.relation.isStrict) p.constraints i c ∧
          err = .unsupportedRelation i c.relation) ∧
      ∀ std, p.standardize = .ok std → ∃ gains, p.ClosesTo gains std :=
  ⟨standardize_fails_iff, fun _ => firstAt_of_standardize_eq_error,
    fun _ h => ⟨p.gained, hw.closesTo h⟩⟩

/-- A program in which names that its inequalities could gain are taken: by a variable, by the
objective and by one another. -/
def crowded : Program where
  objective := ⟨.max, "e1", .ofTerms [("e2", 1), ("s1", 1)]⟩
  constraints := [⟨.ofTerms [("e2", 1), ("s1", 2)], .atMost, 4⟩,
    ⟨.ofTerms [("e2", 1), ("s1", -1)], .equal, 1⟩, ⟨.ofTerms [("s1", 1)], .atLeast, 1 / 2⟩,
    ⟨.ofTerms [("e2", 3)], .atMost, 7⟩]
  declarations := ⟨[("s1", .nonNegative), ("e2", .unrestricted)]⟩

theorem standardize_structure_crowded :
    crowded.WellFormed ∧ crowded.hasStrict = false ∧
      ∃ std gains, crowded.standardize = .ok std ∧ crowded.ClosesTo gains std := by
  have hw : crowded.WellFormed := by decide +kernel
  have hlax : crowded.hasStrict = false := by decide +kernel
  obtain ⟨std, hstd⟩ := standardize_isOk hlax
  obtain ⟨-, -, hcloses⟩ := standardize_structure crowded hw
  obtain ⟨gains, h⟩ := hcloses std hstd
  exact ⟨hw, hlax, std, gains, hstd, h⟩

example : crowded.standardize.map Program.variableNames =
    .ok ["s1", "e2", "e3", "s2", "e4"] := by decide +kernel

end Program

end ExactSimplex
