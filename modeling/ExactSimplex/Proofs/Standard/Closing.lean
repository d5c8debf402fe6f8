import Mathlib.Data.List.ReduceOption
import ExactSimplex.Proofs.LinearForm.Value
import ExactSimplex.Proofs.Program.Feasible
import ExactSimplex.Standard.Form

/-! Closing constraints into equalities. The new names are taken by nothing before them, so
each new variable occurs in one equality only and can be chosen for it. As it enters with
coefficient 1, it leaves the expression below the right-hand side, for both kinds of
inequalities: a closed `>=` bounds its expression from above as well. -/

namespace ExactSimplex

/-- What a closed constraint says of its expression and its right-hand side. -/
def Relation.closed : Relation → Relation
  | .atLeast => .atMost
  | r => r

namespace Standard

/-- The constraints are closed one after another with the `added` names, none of which is
taken when it is added. -/
inductive Closes : List String → List Constraint → List Constraint → List String → Prop
  | nil {taken : List String} : Closes taken [] [] []
  | keep {taken added : List String} {c : Constraint} {cs rest : List Constraint} :
      stem? c.relation = none → Closes taken cs rest added →
      Closes taken (c :: cs) (c :: rest) added
  | close {taken added : List String} {c : Constraint} {cs rest : List Constraint}
      {stem name : String} :
      stem? c.relation = some stem → name ∉ taken → Closes (taken ++ [name]) cs rest added →
      Closes taken (c :: cs) (close c name :: rest) (name :: added)

variable {taken added : List String} {cs rest : List Constraint} {c : Constraint}
  {name : String} {v w : String → Rat}

/-! ## The new variables -/

/-- The variable that each constraint gains, if it gains one. -/
def gained (taken : List String) : List Constraint → List (Option String)
  | [] => []
  | c :: cs =>
    match stem? c.relation with
    | none => none :: gained taken cs
    | some stem => some (freshName taken stem) :: gained (taken ++ [freshName taken stem]) cs

/-- The constraint with the variable that it gains. -/
def closeBy (c : Constraint) : Option String → Constraint
  | none => c
  | some name => close c name

theorem closeAll_eq (reserved : String) (d : Declarations) (cs : List Constraint) :
    (closeAll reserved d cs).1 = cs.zipWith closeBy (gained (reserved :: d.names) cs) ∧
      (closeAll reserved d cs).2.entries = d.entries ++
        (gained (reserved :: d.names) cs).reduceOption.map fun name => (name, .nonNegative) := by
  induction cs generalizing d with
  | nil => simp [closeAll, gained]
  | cons c cs ih =>
    cases hs : stem? c.relation with
    | none =>
      obtain ⟨hconstraints, hentries⟩ := ih d
      simp [closeAll, gained, hs, hconstraints, hentries, closeBy]
    | some stem =>
      obtain ⟨hconstraints, hentries⟩ :=
        ih (d.push (freshName (reserved :: d.names) stem) .nonNegative)
      simp only [closeAll, gained, hs, hconstraints, hentries, Declarations.names_push]
      simp [closeBy, Declarations.push]

theorem closes_gained (taken : List String) (cs : List Constraint) :
    Closes taken cs (cs.zipWith closeBy (gained taken cs)) (gained taken cs).reduceOption := by
  induction cs generalizing taken with
  | nil => exact .nil
  | cons c cs ih =>
    cases hs : stem? c.relation with
    | none =>
      simp only [gained, hs, List.reduceOption_cons_of_none]
      exact .keep hs (ih taken)
    | some stem =>
      simp only [gained, hs, List.reduceOption_cons_of_some]
      exact .close hs (freshName_not_mem _ _) (ih _)

theorem gained_length (taken : List String) (cs : List Constraint) :
    (gained taken cs).length = cs.length := by
  induction cs generalizing taken with
  | nil => rfl
  | cons c cs ih => cases hs : stem? c.relation <;> simp [gained, hs, ih]

/-- A constraint gains a name with the stem of its relation, or nothing if there is none. -/
theorem gained_getElem? {i : Nat} (h : cs[i]? = some c) :
    ∃ k, 0 < k ∧ (gained taken cs)[i]? = some ((stem? c.relation).map (numbered · k)) := by
  induction cs generalizing taken i with
  | nil => simp at h
  | cons d cs ih =>
    cases i with
    | zero =>
      obtain rfl : d = c := by simpa using h
      refine ⟨_, freshIndex_pos taken ((stem? d.relation).getD ""), ?_⟩
      cases hs : stem? d.relation <;> simp [gained, hs, freshName]
    | succ i =>
      cases hs : stem? d.relation <;> simpa [gained, hs] using ih (by simpa using h)

namespace Closes

theorem length_eq (h : Closes taken cs rest added) : rest.length = cs.length := by
  induction h with
  | nil => rfl
  | keep _ _ ih => simp [ih]
  | close _ _ _ ih => simp [ih]

/-! ## Names -/

theorem nodup (h : Closes taken cs rest added) (hd : taken.Nodup) : (taken ++ added).Nodup := by
  induction h with
  | nil => simpa using hd
  | keep _ _ ih => exact ih hd
  | close _ hname _ ih =>
    have hstep := ih (List.concat_eq_append ▸ List.Nodup.concat hname hd)
    simpa using hstep

theorem mem_names (h : Closes taken cs rest added) :
    (∃ c ∈ rest, name ∈ c.expression.names) ↔
      (∃ c ∈ cs, name ∈ c.expression.names) ∨ name ∈ added := by
  induction h with
  | nil => simp
  | keep _ _ ih => simp only [List.mem_cons, exists_eq_or_imp, ih, or_assoc]
  | close _ _ _ ih =>
    simp only [List.mem_cons, exists_eq_or_imp, ih, Standard.close,
      LinearForm.mem_names_insert (one_ne_zero' Rat), or_assoc, or_left_comm]

theorem reduced (h : Closes taken cs rest added) (hr : ∀ c ∈ cs, c.expression.Reduced) :
    ∀ c ∈ rest, c.expression.Reduced := by
  induction h with
  | nil => simp
  | keep _ _ ih =>
    simp only [List.mem_cons, forall_eq_or_imp] at hr ⊢
    exact ⟨hr.1, ih hr.2⟩
  | close _ _ _ ih =>
    simp only [List.mem_cons, forall_eq_or_imp] at hr ⊢
    exact ⟨LinearForm.insert_reduced hr.1 _ _, ih hr.2⟩

/-! ## Values -/

theorem closed_of_keep (hs : stem? c.relation = none) : c.relation.closed = c.relation := by
  cases hr : c.relation <;> simp_all [stem?, Relation.closed]

theorem closed_of_close {stem : String} (hs : stem? c.relation = some stem) :
    c.relation.closed = .atMost := by
  cases hr : c.relation <;> simp_all [stem?, Relation.closed]

theorem close_holds_iff (h : name ∉ c.expression.names) :
    (Standard.close c name).Holds w ↔ w name = c.rhs - c.expression.eval w := by
  simp only [Constraint.Holds, Standard.close, Relation.Holds,
    LinearForm.eval_insert_of_not_mem (one_ne_zero' Rat) h, one_mul]
  exact eq_sub_iff_add_eq.symm

/-- Values that are not negative for the new variables and solve the equalities keep the
constraints. -/
theorem holds (h : Closes taken cs rest added)
    (huse : ∀ c ∈ cs, ∀ n ∈ c.expression.names, n ∈ taken) (hadded : ∀ n ∈ added, 0 ≤ w n)
    (hrest : ∀ c ∈ rest, c.Holds w) :
    ∀ c ∈ cs, c.relation.closed.Holds (c.expression.eval w) c.rhs := by
  induction h with
  | nil => simp
  | keep hs _ ih =>
    simp only [List.mem_cons, forall_eq_or_imp] at huse hrest ⊢
    rw [closed_of_keep hs]
    exact ⟨hrest.1, ih huse.2 hadded hrest.2⟩
  | close hs hname _ ih =>
    simp only [List.mem_cons, forall_eq_or_imp] at huse hadded hrest ⊢
    have hnew := (close_holds_iff fun hn => hname (huse.1 _ hn)).mp hrest.1
    refine ⟨?_, ih (fun c hc n hn => List.mem_append_left _ (huse.2 c hc n hn)) hadded.2 hrest.2⟩
    rw [closed_of_close hs]
    exact sub_nonneg.mp (hnew ▸ hadded.1)

/-- Values that keep the constraints leave room for the new variables. -/
theorem extend (h : Closes taken cs rest added)
    (huse : ∀ c ∈ cs, ∀ n ∈ c.expression.names, n ∈ taken)
    (hcs : ∀ c ∈ cs, c.relation.closed.Holds (c.expression.eval v) c.rhs) :
    ∃ w, (∀ n ∈ taken, w n = v n) ∧ (∀ n ∈ added, 0 ≤ w n) ∧ ∀ c ∈ rest, c.Holds w := by
  induction h generalizing v with
  | nil => exact ⟨v, by simp⟩
  | keep hs _ ih =>
    simp only [List.mem_cons, forall_eq_or_imp] at huse hcs
    obtain ⟨w, hagree, hadded, hrest⟩ := ih huse.2 hcs.2
    refine ⟨w, hagree, hadded, ?_⟩
    simp only [List.mem_cons, forall_eq_or_imp]
    refine ⟨?_, hrest⟩
    rw [closed_of_keep hs] at hcs
    rw [Constraint.Holds, LinearForm.eval_congr fun n hn => hagree n (huse.1 n hn)]
    exact hcs.1
  | @close taken added c cs rest stem name hs hname _ ih =>
    simp only [List.mem_cons, forall_eq_or_imp] at huse hcs
    -- the new variable takes what the expression leaves of the right-hand side
    let v' := Function.update v name (c.rhs - c.expression.eval v)
    have hsame : ∀ n ∈ taken, v' n = v n := fun n hn =>
      Function.update_of_ne (ne_of_mem_of_not_mem hn hname) _ _
    obtain ⟨w, hagree, hadded, hrest⟩ := ih (v := v')
      (fun c hc n hn => List.mem_append_left _ (huse.2 c hc n hn)) fun c hc => by
        rw [LinearForm.eval_congr fun n hn => hsame n (huse.2 c hc n hn)]
        exact hcs.2 c hc
    have htaken : ∀ n ∈ taken, w n = v n := fun n hn =>
      (hagree n (List.mem_append_left _ hn)).trans (hsame n hn)
    have hnew : w name = c.rhs - c.expression.eval v :=
      (hagree name (by simp)).trans (Function.update_self _ _ _)
    refine ⟨w, htaken, ?_, ?_⟩
    · rw [closed_of_close hs] at hcs
      simp only [List.mem_cons, forall_eq_or_imp]
      exact ⟨hnew ▸ sub_nonneg.mpr hcs.1, hadded⟩
    · simp only [List.mem_cons, forall_eq_or_imp]
      refine ⟨(close_holds_iff fun hn => hname (huse.1 _ hn)).mpr ?_, hrest⟩
      rw [hnew, LinearForm.eval_congr fun n hn => htaken n (huse.1 n hn)]

end Closes

end Standard

end ExactSimplex
