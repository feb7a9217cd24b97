import Mathlib.Data.List.Basic

/-! # Runs of a partial step function

A transition system is a partial step function `step : σ → ε → Option σ`: `step s e` is the
state the event `e` leads to from `s`, or `none` when `e` is not possible there.
`Run step ok s es s'` says that `s'` is reached from `s` by the events `es`, every one of
which meets the condition `ok` in the state it happens in; `ok` is a condition on the state
*before* the step. With `Always` for `ok` every run is admitted.

`Run.invariant` is the only induction on runs the rest of the development uses: a property
that every admitted step preserves holds in every state reached. `exec` runs a list of
events and serves to exhibit concrete runs (`exec_run`). -/

namespace Runs

variable {σ ε : Type*} {es : List ε}

/-- The condition every step meets. -/
def Always (_ : σ) (_ : ε) : Prop := True
deriving Decidable

/-- `s'` is reached from `s` by the events `es`, each of which meets `ok` where it happens. -/
inductive Run (step : σ → ε → Option σ) (ok : σ → ε → Prop) : σ → List ε → σ → Prop
  | nil (s : σ) : Run step ok s [] s
  | cons {s s1 s2 : σ} {e : ε} {es : List ε} :
      ok s e → step s e = some s1 → Run step ok s1 es s2 → Run step ok s (e :: es) s2

/-- `s'` is reachable from `s` by steps that meet `ok`. -/
def Reaches (step : σ → ε → Option σ) (ok : σ → ε → Prop) (s s' : σ) : Prop :=
  ∃ es, Run step ok s es s'

variable {s s' : σ}

section rules
variable {step : σ → ε → Option σ} {ok ok' : σ → ε → Prop}

theorem Reaches.refl (s : σ) : Reaches step ok s s := ⟨[], .nil s⟩

theorem Run.single {e : ε} (ho : ok s e) (hs : step s e = some s') :
    Run step ok s [e] s' := .cons ho hs (.nil s')

variable {s1 s2 : σ}

theorem Run.trans {es' : List ε} (h : Run step ok s es s1)
    (h' : Run step ok s1 es' s2) : Run step ok s (es ++ es') s2 := by
  induction h with
  | nil s => exact h'
  | cons ho hs _ ih => exact .cons ho hs (ih h')

theorem Reaches.trans (h : Reaches step ok s s1) (h' : Reaches step ok s1 s2) :
    Reaches step ok s s2 := by
  obtain ⟨es, h⟩ := h
  obtain ⟨es', h'⟩ := h'
  exact ⟨es ++ es', h.trans h'⟩

theorem Reaches.snoc {e : ε} (h : Reaches step ok s s1) (ho : ok s1 e)
    (hs : step s1 e = some s2) : Reaches step ok s s2 :=
  h.trans ⟨[e], Run.single ho hs⟩

theorem Reaches.mono (hok : ∀ s e, ok s e → ok' s e) (h : Reaches step ok s s') :
    Reaches step ok' s s' := by
  obtain ⟨es, h⟩ := h
  refine ⟨es, ?_⟩
  induction h with
  | nil s => exact .nil s
  | cons ho hs _ ih => exact .cons (hok _ _ ho) hs ih

/-- The runs of a system all of whose steps another one has. -/
theorem Reaches.of_steps {step1 step2 : σ → ε → Option σ} {ok : σ → ε → Prop}
    (hstep : ∀ s e s', step1 s e = some s' → step2 s e = some s') (h : Reaches step1 ok s s') :
    Reaches step2 ok s s' := by
  obtain ⟨es, h⟩ := h
  refine ⟨es, ?_⟩
  induction h with
  | nil s => exact .nil s
  | cons ho hs _ ih => exact .cons ho (hstep _ _ _ hs) ih

/-- **Invariant rule**: what every admitted step preserves holds in every state reached. -/
theorem Run.invariant {I : σ → Prop} (hI : ∀ s e s', I s → ok s e → step s e = some s' → I s')
    (h : Run step ok s es s') (hs : I s) : I s' := by
  induction h with
  | nil s => exact hs
  | cons ho he _ ih => exact ih (hI _ _ _ hs ho he)

theorem Reaches.invariant {I : σ → Prop} (hI : ∀ s e s', I s → ok s e → step s e = some s' → I s')
    (h : Reaches step ok s s') (hs : I s) : I s' := by
  obtain ⟨es, h⟩ := h
  exact h.invariant hI hs

end rules

/-- Run the events of a list as long as they meet `ok`. -/
def exec (step : σ → ε → Option σ) (ok : σ → ε → Prop) [∀ s e, Decidable (ok s e)] :
    σ → List ε → Option σ
  | s, [] => some s
  | s, e :: es => if ok s e then (step s e).bind fun s' => exec step ok s' es else none

theorem exec_run {step : σ → ε → Option σ} {ok : σ → ε → Prop} [∀ s e, Decidable (ok s e)]
    (h : exec step ok s es = some s') : Run step ok s es s' := by
  induction es generalizing s with
  | nil =>
    obtain rfl : s = s' := by simpa [exec] using h
    exact .nil s
  | cons e es ih =>
    simp only [exec, Option.ite_none_right_eq_some] at h
    obtain ⟨ho, h⟩ := h
    obtain ⟨s1, hs, h⟩ := Option.bind_eq_some_iff.mp h
    exact .cons ho hs (ih h)

/-- A list of events that meet `ok` and lead to a state that passes the test `p`. -/
theorem reaches_of_exec (step : σ → ε → Option σ) (ok : σ → ε → Prop)
    [∀ s e, Decidable (ok s e)] (s : σ) (es : List ε) (p : σ → Bool)
    (h : (exec step ok s es).map p = some true) : ∃ s', Reaches step ok s s' ∧ p s' = true := by
  obtain ⟨s', hs, hp⟩ := Option.map_eq_some_iff.mp h
  exact ⟨s', ⟨es, exec_run hs⟩, hp⟩

end Runs
