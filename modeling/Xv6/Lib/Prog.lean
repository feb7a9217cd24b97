import Mathlib.Logic.Function.Basic

/-! # Programs over a set of commands

A program issues commands one after the other; `R c` is the type of the answers to the command `c`.
What a command does is not part of the program. A *handler* answers a command in a state: it
returns the answer or a fault, and the next state. One program can then be run under several
handlers.

* `run h p s`: the outcome of `p` from `s`, and the last state, also when a command faults.
* `wp h p Q E s`: `p` ends with `Q`, or with a fault and `E`.
* `inline f p`: every command of `p` replaced by a program over other commands.
* `Follows`: what holds of a program whatever the answers are, by a ghost state that the commands
  move. -/

/-- Programs over commands `C` with answers `R`. -/
inductive Prog (C : Type) (R : C → Type) (α : Type) : Type where
  | ret (a : α)
  | op (c : C) (k : R c → Prog C R α)

/-- How commands are answered. -/
abbrev Handler (C : Type) (R : C → Type) (σ ε : Type) := (c : C) → σ → Except ε (R c) × σ

namespace Prog

variable {C D : Type} {R : C → Type} {S : D → Type} {α β : Type} {σ ε γ : Type} {p : Prog C R α}

/-- Sequential composition. -/
def bind : Prog C R α → (α → Prog C R β) → Prog C R β
  | ret a, f => f a
  | op c k, f => op c fun r => bind (k r) f

instance : Monad (Prog C R) where
  pure := ret
  bind := bind

@[simp] theorem op_bind (c : C) (k : R c → Prog C R α) (f : α → Prog C R β) :
    (op c k : Prog C R α) >>= f = op c fun r => k r >>= f := rfl

/-! ### Running a program -/

/-- The outcome of a program, and the last state. -/
def run (h : Handler C R σ ε) : Prog C R α → σ → Except ε α × σ
  | ret a, s => (.ok a, s)
  | op c k, s =>
    match h c s with
    | (.ok r, s') => run h (k r) s'
    | (.error e, s') => (.error e, s')

/-- The program ends with `Q`, or with a fault and `E`. -/
def wp (h : Handler C R σ ε) (p : Prog C R α) (Q : α → σ → Prop) (E : ε → σ → Prop) (s : σ) : Prop :=
  match p.run h s with
  | (.ok a, s') => Q a s'
  | (.error e, s') => E e s'

section wp
variable {h : Handler C R σ ε} {Q Q' : α → σ → Prop} {E E' : ε → σ → Prop} {s s' : σ}

@[simp] theorem wp_ret (a : α) : (ret a).wp h Q E s ↔ Q a s := Iff.rfl

@[simp] theorem wp_pure (a : α) : (pure a : Prog C R α).wp h Q E s ↔ Q a s := Iff.rfl

theorem wp_op (c : C) (k : R c → Prog C R α) : (op c k).wp h Q E s ↔
    match h c s with
    | (.ok r, s') => (k r).wp h Q E s'
    | (.error e, s') => E e s' := by
  unfold wp
  rw [run]
  rcases h c s with ⟨_ | r, s'⟩ <;> exact Iff.rfl

theorem run_bind (p : Prog C R α) (f : α → Prog C R β) : (p >>= f).run h s =
    match p.run h s with
    | (.ok a, s') => (f a).run h s'
    | (.error e, s') => (.error e, s') := by
  induction p generalizing s with
  | ret a => rfl
  | op c k ih =>
    rw [op_bind, run, run]
    generalize h c s = o
    obtain ⟨_ | r, s'⟩ := o
    · rfl
    · exact ih r

/-- The rest of a run, when the first part has returned. -/
theorem run_seq {a : α} (hp : p.run h s = (.ok a, s'))
    (f : α → Prog C R β) : (p >>= f).run h s = (f a).run h s' := by
  rw [run_bind, hp]

theorem run_op {c : C} {r : R c} (hc : h c s = (.ok r, s')) :
    (op c ret : Prog C R (R c)).run h s = (.ok r, s') := by
  rw [run, hc]
  rfl

/-- **Sequencing.** -/
theorem wp_bind (p : Prog C R α) (f : α → Prog C R β) {Q : β → σ → Prop} :
    (p >>= f).wp h Q E s ↔ p.wp h (fun a => (f a).wp h Q E) E s := by
  induction p generalizing s with
  | ret a => exact Iff.rfl
  | op c k ih =>
    rw [op_bind, wp_op, wp_op]
    rcases h c s with ⟨_ | r, s'⟩
    · exact Iff.rfl
    · exact ih r

theorem wp_ite {P : Prop} [Decidable P] {q : Prog C R α} :
    (if P then p else q).wp h Q E s ↔ (P → p.wp h Q E s) ∧ (¬ P → q.wp h Q E s) := by
  by_cases hP : P <;> simp [hP]

theorem wp_mono (hp : p.wp h Q E s) (hQ : ∀ a s', Q a s' → Q' a s')
    (hE : ∀ e s', E e s' → E' e s') : p.wp h Q' E' s := by
  unfold wp at hp ⊢
  generalize p.run h s = o at hp ⊢
  obtain ⟨_ | a, s'⟩ := o
  · exact hE _ _ hp
  · exact hQ _ _ hp

theorem wp_true (p : Prog C R α) : p.wp h (fun _ _ => True) (fun _ _ => True) s := by
  unfold wp
  split <;> trivial

/-- From the specification of a program to that of its continuation. -/
theorem wp_seq {f : α → Prog C R β} {Q' : β → σ → Prop} (hp : p.wp h Q E s)
    (hf : ∀ a s', Q a s' → (f a).wp h Q' E s') : (p >>= f).wp h Q' E s :=
  (wp_bind p f).mpr (wp_mono hp hf fun _ _ he => he)

theorem exists_run (hp : p.wp h Q (fun _ _ => False) s) : ∃ a s', p.run h s = (.ok a, s') ∧ Q a s' := by
  unfold wp at hp
  generalize p.run h s = o at hp ⊢
  obtain ⟨_ | a, s'⟩ := o
  · exact hp.elim
  · exact ⟨a, s', rfl, hp⟩

theorem wp_run {r : Except ε α} (hp : p.wp h Q E s)
    (hr : p.run h s = (r, s')) : (∀ a, r = .ok a → Q a s') ∧ ∀ e, r = .error e → E e s' := by
  unfold wp at hp
  rw [hr] at hp
  cases r with
  | ok a => exact ⟨fun b hb => Except.ok.inj hb ▸ hp, fun e he => by cases he⟩
  | error e => exact ⟨fun b hb => (by cases hb), fun e' he => Except.error.inj he ▸ hp⟩

end wp

/-! ### Replacing commands by programs -/

/-- Every command is replaced by a program. -/
def inline (f : (d : D) → Prog C R (S d)) : Prog D S α → Prog C R α
  | ret a => ret a
  | op d k => f d >>= fun r => inline f (k r)

/-- The program with its commands replaced is the program under a handler that runs these. -/
theorem run_inline (h : Handler C R σ ε) (f : (d : D) → Prog C R (S d)) (p : Prog D S α) (s : σ) :
    (p.inline f).run h s = p.run (fun d s => (f d).run h s) s := by
  induction p generalizing s with
  | ret a => rfl
  | op d k ih =>
    rw [inline, run_bind, run]
    generalize (f d).run h s = o
    obtain ⟨_ | r, s'⟩ := o
    · rfl
    · exact ih r s'

theorem wp_inline {h : Handler C R σ ε} {f : (d : D) → Prog C R (S d)} {p : Prog D S α}
    {Q : α → σ → Prop} {E : ε → σ → Prop} {s : σ} :
    (p.inline f).wp h Q E s ↔ p.wp (fun d s => (f d).run h s) Q E s := by
  unfold wp
  rw [run_inline]

/-- One command under a handler that runs a program for it. -/
theorem wp_op_run {h : Handler C R σ ε} {f : (d : D) → Prog C R (S d)} {d : D} {k : S d → Prog D S α}
    {Q : α → σ → Prop} {E : ε → σ → Prop} {s : σ} :
    (op d k).wp (fun d s => (f d).run h s) Q E s ↔
      (f d).wp h (fun r => (k r).wp (fun d s => (f d).run h s) Q E) E s := by
  rw [wp_op, wp.eq_1 h]
  generalize (f d).run h s = o
  obtain ⟨_ | r, s'⟩ := o
  · exact Iff.rfl
  · exact Iff.rfl

/-! ### What holds whatever the answers are -/

/-- Rules for commands in a ghost state: when a command may be issued, which answers it can then
get, and how the ghost state moves. -/
structure Rules (C : Type) (R : C → Type) (γ : Type) where
  may : C → γ → Prop
  can : (c : C) → γ → R c → Prop
  next : (c : C) → γ → R c → γ

/-- Along every path that the rules admit, every command may be issued, and `Q` holds at the end. -/
def Follows (D : Rules C R γ) : Prog C R α → (α → γ → Prop) → γ → Prop
  | ret a, Q, g => Q a g
  | op c k, Q, g => D.may c g ∧ ∀ r, D.can c g r → Follows D (k r) Q (D.next c g r)

section follows
variable {D : Rules C R γ} {g : γ} {Q : α → γ → Prop}

@[simp] theorem follows_ret (a : α) :
    Follows D (ret a : Prog C R α) Q g ↔ Q a g := Iff.rfl

theorem follows_bind (p : Prog C R α) (f : α → Prog C R β) {Q : β → γ → Prop} :
    Follows D (p >>= f) Q g ↔ Follows D p (fun a => Follows D (f a) Q) g := by
  induction p generalizing g with
  | ret a => exact Iff.rfl
  | op c k ih => exact and_congr_right fun _ => forall_congr' fun r => imp_congr_right fun _ => ih r

theorem follows_ite {P : Prop} [Decidable P] {q : Prog C R α} :
    Follows D (if P then p else q) Q g ↔ (P → Follows D p Q g) ∧ (¬ P → Follows D q Q g) := by
  by_cases hP : P <;> simp [hP]

theorem Follows.mono {Q' : α → γ → Prop} (hp : Follows D p Q g)
    (hQ : ∀ a g', Q a g' → Q' a g') : Follows D p Q' g := by
  induction p generalizing g with
  | ret a => exact hQ a g hp
  | op c k ih => exact ⟨hp.1, fun r hr => ih r (hp.2 r hr)⟩

theorem Follows.seq {f : α → Prog C R β} {Q' : β → γ → Prop}
    (hp : Follows D p Q g) (hf : ∀ a g', Q a g' → Follows D (f a) Q' g') :
    Follows D (p >>= f) Q' g :=
  (follows_bind p f).mpr (hp.mono hf)

/-- Rules for the commands of a program carry over to the programs that replace them. -/
theorem Follows.inline {B : Type} {T : B → Type} {H : Rules B T γ} {f : (b : B) → Prog C R (T b)}
    (hf : ∀ b g, H.may b g → Follows D (f b) (fun r g' => H.can b g r ∧ g' = H.next b g r) g)
    {p : Prog B T α} (hp : Follows H p Q g) : Follows D (p.inline f) Q g := by
  induction p generalizing g with
  | ret a => exact hp
  | op b k ih =>
    refine (hf b g hp.1).seq fun r g' hr => ?_
    obtain ⟨hr, rfl⟩ := hr
    exact ih r (hp.2 r hr)

end follows

end Prog
