/-! Results that can be failures: when a result put together from others is a success, and what
the others were then. -/

namespace ExactSimplex

theorem bind_eq_ok {ε α β : Type} {e : Except ε α} {f : α → Except ε β} {b : β} :
    (e >>= f) = .ok b ↔ ∃ a, e = .ok a ∧ f a = .ok b := by
  cases e with
  | error e => simp [bind, Except.bind]
  | ok a => simp [bind, Except.bind]

@[simp] theorem mapError_ok {ε δ α : Type} (a : α) (f : ε → δ) :
    (Except.ok a : Except ε α).mapError f = .ok a := rfl

@[simp] theorem mapError_error {ε δ α : Type} (e : ε) (f : ε → δ) :
    (Except.error e : Except ε α).mapError f = .error (f e) := rfl

theorem mapError_eq_ok {ε δ α : Type} {e : Except ε α} {f : ε → δ} {a : α} :
    e.mapError f = .ok a ↔ e = .ok a := by
  cases e <;> simp

theorem mapError_eq_error {ε δ α : Type} {e : Except ε α} {f : ε → δ} {err : δ} :
    e.mapError f = .error err ↔ ∃ cause, e = .error cause ∧ f cause = err := by
  cases e <;> simp

theorem bind_eq_error {ε α β : Type} {e : Except ε α} {f : α → Except ε β} {err : ε} :
    (e >>= f) = .error err ↔ e = .error err ∨ ∃ a, e = .ok a ∧ f a = .error err := by
  cases e with
  | error e => simp [bind, Except.bind]
  | ok a => simp [bind, Except.bind]

theorem map_eq_error {ε α β : Type} {e : Except ε α} {f : α → β} {err : ε} :
    e.map f = .error err ↔ e = .error err := by
  cases e <;> simp [Except.map]

theorem map_eq_ok {ε α β : Type} {e : Except ε α} {f : α → β} {b : β} :
    e.map f = .ok b ↔ ∃ a, e = .ok a ∧ f a = b := by
  cases e <;> simp [Except.map]

theorem toOption_eq_some {ε α : Type} {e : Except ε α} {a : α} :
    e.toOption = some a ↔ e = .ok a := by
  cases e <;> simp [Except.toOption]

theorem toOption_congr {ε α : Type} {e e' : Except ε α} (h : ∀ a, e = .ok a ↔ e' = .ok a) :
    e.toOption = e'.toOption :=
  Option.ext fun a => toOption_eq_some.trans ((h a).trans toOption_eq_some.symm)

/-- Both fail in the same way, or both succeed with results that are related. -/
inductive Alike {ε α β : Type} (R : α → β → Prop) : Except ε α → Except ε β → Prop
  | error (e : ε) : Alike R (.error e) (.error e)
  | ok {a : α} {b : β} : R a b → Alike R (.ok a) (.ok b)

namespace Alike

variable {ε δ α β γ κ : Type} {R : α → β → Prop} {S : γ → κ → Prop} {x : Except ε α}
  {y : Except ε β}

theorem bind {f : α → Except ε γ} {g : β → Except ε κ} (h : Alike R x y)
    (hfg : ∀ a b, x = .ok a → R a b → Alike S (f a) (g b)) : Alike S (x >>= f) (y >>= g) := by
  cases h with
  | error e => exact .error e
  | ok h => exact hfg _ _ rfl h

theorem map {f : α → γ} {g : β → κ} (h : Alike R x y) (hfg : ∀ a b, R a b → S (f a) (g b)) :
    Alike S (x.map f) (y.map g) := by
  cases h with
  | error e => exact .error e
  | ok h => exact .ok (hfg _ _ h)

theorem mapError (f : ε → δ) (h : Alike R x y) : Alike R (x.mapError f) (y.mapError f) := by
  cases h with
  | error e => exact .error _
  | ok h => exact .ok h

/-- Where the one result is the image of the other, what is made of them is related if it is for
each success. -/
theorem of_map {m : α → β} {f : α → γ} {g : β → κ} (h : y = x.map m)
    (hfg : ∀ a, S (f a) (g (m a))) : Alike S (x.map f) (y.map g) := by
  subst h
  cases x with
  | error e => exact .error e
  | ok a => exact .ok (hfg a)

end Alike

end ExactSimplex
