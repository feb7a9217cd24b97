import Xv6.Lib.Prog

/-! # Programs and the states on the way

* `states h p s`: the states that a run of `p` from `s` goes through.
* `thru h J p Q E s`: all of them have `J`, and `p` ends with `Q`, or with a fault and `E`. -/

namespace Prog

variable {C : Type} {R : C → Type} {α β σ ε : Type}

/-- The states before each command of a program, and the last one. -/
def states (h : Handler C R σ ε) : Prog C R α → σ → List σ
  | ret _, s => [s]
  | op c k, s => s :: match h c s with
      | (.ok r, s') => states h (k r) s'
      | (.error _, s') => [s']

/-- All states on the way have `J`, and the program ends with `Q`, or with a fault and `E`. -/
def thru (h : Handler C R σ ε) (J : σ → Prop) :
    Prog C R α → (α → σ → Prop) → (ε → σ → Prop) → σ → Prop
  | ret a, Q, _, s => J s ∧ Q a s
  | op c k, Q, E, s => J s ∧ match h c s with
      | (.ok r, s') => thru h J (k r) Q E s'
      | (.error e, s') => J s' ∧ E e s'

section thru
variable {h : Handler C R σ ε} {J : σ → Prop} {Q Q' : α → σ → Prop} {E E' : ε → σ → Prop} {s : σ}
  {p : Prog C R α}

@[simp] theorem thru_ret (a : α) : (ret a : Prog C R α).thru h J Q E s ↔ J s ∧ Q a s := Iff.rfl

@[simp] theorem thru_pure (a : α) : (pure a : Prog C R α).thru h J Q E s ↔ J s ∧ Q a s := Iff.rfl

theorem thru_op (c : C) (k : R c → Prog C R α) : (op c k).thru h J Q E s ↔ J s ∧
    match h c s with
    | (.ok r, s') => (k r).thru h J Q E s'
    | (.error e, s') => J s' ∧ E e s' := by
  rw [thru]

theorem thru_iff (p : Prog C R α) :
    p.thru h J Q E s ↔ (∀ s' ∈ p.states h s, J s') ∧ p.wp h Q E s := by
  induction p generalizing s with
  | ret a => simp [states]
  | op c k ih =>
    rw [thru_op, wp_op, states]
    rcases h c s with ⟨e | r, s'⟩
    · simp [and_assoc]
    · simp [ih r, and_assoc]

theorem thru_start (hp : p.thru h J Q E s) : J s := by
  cases p with
  | ret a => exact hp.1
  | op c k => exact ((thru_op c k).mp hp).1

/-- **Sequencing.** -/
theorem thru_bind (p : Prog C R α) (f : α → Prog C R β) {Q : β → σ → Prop} :
    (p >>= f).thru h J Q E s ↔ p.thru h J (fun a => (f a).thru h J Q E) E s := by
  induction p generalizing s with
  | ret a => exact ⟨fun hp => ⟨thru_start hp, hp⟩, fun hp => hp.2⟩
  | op c k ih =>
    rw [op_bind, thru_op, thru_op]
    rcases h c s with ⟨e | r, s'⟩
    · exact Iff.rfl
    · exact and_congr_right fun _ => ih r

theorem thru_ite {P : Prop} [Decidable P] {q : Prog C R α} :
    (if P then p else q).thru h J Q E s ↔
      (P → p.thru h J Q E s) ∧ (¬ P → q.thru h J Q E s) := by
  by_cases hP : P <;> simp [hP]

theorem thru_mono (hp : p.thru h J Q E s) (hQ : ∀ a s', Q a s' → Q' a s')
    (hE : ∀ e s', E e s' → E' e s') : p.thru h J Q' E' s := by
  rw [thru_iff] at hp ⊢
  exact ⟨hp.1, wp_mono hp.2 hQ hE⟩

/-- From the specification of a program to that of its continuation. -/
theorem thru_seq {f : α → Prog C R β} {Q' : β → σ → Prop} (hp : p.thru h J Q E s)
    (hf : ∀ a s', Q a s' → (f a).thru h J Q' E s') : (p >>= f).thru h J Q' E s :=
  (thru_bind p f).mpr (thru_mono hp hf fun _ _ he => he)

end thru

end Prog
