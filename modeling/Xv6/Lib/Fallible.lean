import Mathlib.Init

/-! # Calls that may fail

Inversion of computations in `Except`: a sequence of calls that returns is taken apart into calls
that return. `Ends` follows a sequence of calls forwards. -/

namespace Fallible

variable {ε α β : Type} {x : Except ε α} {f : α → Except ε β} {e : ε}

theorem bind_ok {b : β} (h : (x >>= f) = .ok b) : ∃ a, x = .ok a ∧ f a = .ok b := by
  cases x with
  | error e => cases h
  | ok a => exact ⟨a, rfl, h⟩

theorem ok_bind (a : α) (f : α → Except ε β) : ((.ok a : Except ε α) >>= f) = f a := rfl

theorem error_bind (e : ε) (f : α → Except ε β) : ((.error e : Except ε α) >>= f) = .error e := rfl

/-- A sequence of calls fails where one of them does. -/
theorem bind_error (h : (x >>= f) = .error e) : x = .error e ∨ ∃ a, x = .ok a ∧ f a = .error e := by
  cases x with
  | error e' => exact .inl (by rw [Except.error.inj h])
  | ok a => exact .inr ⟨a, rfl, h⟩

theorem map_ok {f : α → β} {b : β} (h : x.map f = .ok b) : ∃ a, x = .ok a ∧ f a = b := by
  cases x with
  | error e => cases h
  | ok a => exact ⟨a, rfl, Except.ok.inj h⟩

theorem map_error_iff {f : α → β} : x.map f = .error e ↔ x = .error e := by
  cases x with
  | error e' => simp [Except.map]
  | ok a => simp [Except.map]

theorem pair_ok {a a' : α} {b b' : β} (h : (.ok (a, b) : Except ε (α × β)) = .ok (a', b')) :
    a = a' ∧ b = b' :=
  Prod.mk.inj (Except.ok.inj h)

theorem toOption_some {a : α} (h : x.toOption = some a) : x = .ok a := by
  cases x with
  | error e => cases h
  | ok b => rw [Option.some.inj h]

/-- What the call returns satisfies `P`, and the error with which it fails `E`. -/
inductive Ends (E : ε → Prop) (P : α → Prop) : Except ε α → Prop where
  | ret {a : α} (h : P a) : Ends E P (.ok a)
  | fail {e : ε} (h : E e) : Ends E P (.error e)

/-- What the call returns, if it does, satisfies `P`. -/
abbrev Yields (P : α → Prop) : Except ε α → Prop := Ends (fun _ => True) P

namespace Ends

variable {E : ε → Prop} {P : α → Prop} {x : Except ε α}

theorem ok {a : α} (h : Ends E P x) (hx : x = .ok a) : P a := by
  subst hx
  cases h
  assumption

theorem error (h : Ends E P x) (hx : x = .error e) : E e := by
  subst hx
  cases h
  assumption

theorem bind {Q : β → Prop} (h : Ends E P x) (hf : ∀ a, P a → Ends E Q (f a)) : Ends E Q (x >>= f) := by
  cases h with
  | ret h => exact hf _ h
  | fail h => exact .fail h

theorem mono {E' : ε → Prop} {Q : α → Prop} (h : Ends E P x) (he : ∀ e, E e → E' e)
    (hp : ∀ a, P a → Q a) : Ends E' Q x := by
  cases h with
  | ret h => exact .ret (hp _ h)
  | fail h => exact .fail (he _ h)

theorem next {Q : α → Prop} (h : Ends E P x) (hp : ∀ a, P a → Q a) : Ends E Q x := h.mono (fun _ => id) hp

theorem yields (h : Ends E P x) : Yields P x := h.mono (fun _ _ => trivial) fun _ => id

end Ends

end Fallible
