/-! Fresh names: a stem followed by the least positive number that makes it free. Distinct
numbers give distinct names, so `taken.length` names cannot occupy one candidate more
than that many, and the search is bounded by the number of names it has to avoid. -/

namespace ExactSimplex.Standard

def numbered (stem : String) (k : Nat) : String := stem ++ toString k

theorem numbered_injective (stem : String) {i j : Nat} (h : numbered stem i = numbered stem j) :
    i = j := by
  have hlist := congrArg String.toList h
  simp only [numbered, String.toList_append] at hlist
  have hnum := congrArg (fun ds => Nat.ofDigitChars 10 ds 0) (List.append_cancel_left hlist)
  simpa [Nat.toString_eq_ofList_toDigits] using hnum

/-- The first free number from `k` on, among the next `fuel` ones; otherwise the one after. -/
def firstFree (taken : List String) (stem : String) : Nat → Nat → Nat
  | 0, k => k
  | fuel + 1, k =>
    if taken.contains (numbered stem k) then firstFree taken stem fuel (k + 1) else k

def freshIndex (taken : List String) (stem : String) : Nat :=
  firstFree taken stem taken.length 1

/-- The stem with the least positive number for which the name is not taken. -/
def freshName (taken : List String) (stem : String) : String :=
  numbered stem (freshIndex taken stem)

theorem firstFree_bounds (taken : List String) (stem : String) (fuel k : Nat) :
    k ≤ firstFree taken stem fuel k ∧ firstFree taken stem fuel k ≤ k + fuel := by
  induction fuel generalizing k with
  | zero => simp [firstFree]
  | succ fuel ih =>
    simp only [firstFree]
    split
    · have := ih (k + 1); omega
    · omega

theorem freshIndex_pos (taken : List String) (stem : String) : 0 < freshIndex taken stem :=
  (firstFree_bounds taken stem taken.length 1).1

theorem freshIndex_le (taken : List String) (stem : String) :
    freshIndex taken stem ≤ 1 + taken.length := (firstFree_bounds taken stem taken.length 1).2

/-- Every number that the search passes over is taken. -/
theorem taken_below_firstFree {taken : List String} {stem : String} {fuel k i : Nat}
    (hk : k ≤ i) (hi : i < firstFree taken stem fuel k) : numbered stem i ∈ taken := by
  induction fuel generalizing k with
  | zero => simp only [firstFree] at hi; omega
  | succ fuel ih =>
    simp only [firstFree] at hi
    split at hi
    · rename_i ht
      by_cases he : k = i
      · simpa [he] using ht
      · exact ih (by omega) hi
    · omega

/-- So many distinct candidates need as many names. -/
theorem length_le_of_numbered_mem {stem : String} {fuel k : Nat} {names : List String}
    (h : ∀ i, i < fuel → numbered stem (k + i) ∈ names) : fuel ≤ names.length := by
  induction fuel generalizing names k with
  | zero => exact Nat.zero_le _
  | succ fuel ih =>
    have hz : numbered stem k ∈ names := by simpa using h 0 (by omega)
    have hrest : fuel ≤ (names.erase (numbered stem k)).length := by
      refine ih (k := k + 1) fun i hi => ?_
      refine (List.mem_erase_of_ne fun he => ?_).mpr ?_
      · have := numbered_injective stem he; omega
      · have := h (i + 1) (by omega)
        rwa [show k + 1 + i = k + (i + 1) by omega]
    rw [List.length_erase_of_mem hz] at hrest
    have := List.length_pos_of_mem hz
    omega

/-- A search that stops before its bound stops at a free name. -/
theorem firstFree_not_mem {taken : List String} {stem : String} {fuel k : Nat}
    (h : firstFree taken stem fuel k < k + fuel) :
    numbered stem (firstFree taken stem fuel k) ∉ taken := by
  induction fuel generalizing k with
  | zero => simp [firstFree] at h
  | succ fuel ih =>
    by_cases ht : numbered stem k ∈ taken
    · simp only [firstFree, List.contains_eq_mem, ht, decide_true, if_true] at h ⊢
      exact ih (by omega)
    · simp [firstFree, ht]

theorem freshName_not_mem (taken : List String) (stem : String) :
    freshName taken stem ∉ taken := by
  intro hmem
  have hlast : freshIndex taken stem = 1 + taken.length :=
    Nat.le_antisymm (freshIndex_le taken stem)
      (Nat.le_of_not_lt fun hlt => firstFree_not_mem hlt hmem)
  have hall : ∀ i, i < 1 + taken.length → numbered stem (1 + i) ∈ taken := by
    intro i hi
    by_cases he : 1 + i = freshIndex taken stem
    · rw [he]; exact hmem
    · have hlt : 1 + i < freshIndex taken stem := by omega
      exact taken_below_firstFree (by omega) hlt
  have := length_le_of_numbered_mem hall
  omega

end ExactSimplex.Standard
