import Mathlib.Data.List.Forall2

/-! Walks over lists whose steps may fail: what they give when every step succeeds, and how the
items and what they were turned into correspond. A search for the first item with a property
gives the item and its position. -/

namespace ExactSimplex

theorem mapM_eq_pure {α β : Type} {m : Type → Type} [Monad m] [LawfulMonad m]
    {f : α → m β} {g : α → β} {l : List α} (h : ∀ a ∈ l, f a = pure (g a)) :
    l.mapM f = pure (l.map g) := by
  induction l with
  | nil => simp
  | cons a l ih =>
    rw [List.mapM_cons, h a (by simp), ih fun b hb => h b (by simp [hb])]
    simp

theorem mapM_eq_some_iff {α β : Type} {f : α → Option β} {as : List α} {bs : List β} :
    as.mapM f = some bs ↔ List.Forall₂ (fun a b => f a = some b) as bs := by
  induction as generalizing bs with
  | nil => cases bs <;> simp
  | cons a as ih =>
    rw [List.mapM_cons, List.forall₂_cons_left_iff]
    constructor
    · intro h
      obtain ⟨b, hb, h⟩ := Option.bind_eq_some_iff.mp h
      obtain ⟨rest, hrest, h⟩ := Option.bind_eq_some_iff.mp h
      exact ⟨b, rest, hb, ih.mp hrest, (Option.some.inj h).symm⟩
    · rintro ⟨b, rest, hb, hrest, rfl⟩
      rw [hb, ih.mpr hrest]
      rfl

/-- The item at a position has the property, and no item before it has. -/
structure FirstAt {α : Type} (f : α → Bool) (l : List α) (i : Nat) (a : α) : Prop where
  found : l[i]? = some a
  holds : f a = true
  before : ∀ j b, j < i → l[j]? = some b → f b = false

/-- A search that reports the position of the first such item and something of the item. -/
theorem firstAt_of_find?_zipIdx {α β : Type} {f : α → Bool} {g : α → β} {l : List α} {i : Nat}
    {b : β} (h : ((l.zipIdx.find? fun c => f c.1).map fun c => (c.2, g c.1)) = some (i, b)) :
    ∃ a, FirstAt f l i a ∧ b = g a := by
  obtain ⟨⟨a, k⟩, hfind, heq⟩ := Option.map_eq_some_iff.mp h
  obtain ⟨rfl, rfl⟩ := Prod.mk.inj heq
  obtain ⟨hf, j, hj, hget, hbefore⟩ := List.find?_eq_some_iff_getElem.mp hfind
  rw [List.getElem_zipIdx, Prod.mk.injEq, Nat.zero_add] at hget
  obtain ⟨rfl, rfl⟩ := hget
  refine ⟨_, ⟨List.getElem?_eq_getElem _, hf, fun m c hm hc => ?_⟩, rfl⟩
  obtain ⟨_, rfl⟩ := List.getElem?_eq_some_iff.mp hc
  simpa using hbefore m hm

end ExactSimplex
