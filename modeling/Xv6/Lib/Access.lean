import Mathlib.Data.List.Nodup

/-! # Using and giving back

A list of accesses to things that can be given back, in the order in which they are made. It is orderly if
nothing is accessed, and in particular nothing is given back again, after it has been given back. -/

/-- Using `v`, or giving it back. -/
inductive Access (α : Type) where
  | touch (v : α)
  | free (v : α)
deriving DecidableEq, Repr

namespace Access

open List

variable {α : Type}

/-- What is accessed. -/
def target : Access α → α
  | touch v => v
  | free v => v

/-- What is given back, in order. -/
def frees : List (Access α) → List α
  | [] => []
  | touch _ :: l => frees l
  | free v :: l => v :: frees l

/-- Nothing is accessed after it has been given back. -/
def Orderly (l : List (Access α)) : Prop := l.Pairwise fun a b => ∀ v, a = free v → b.target ≠ v

variable {a : Access α} {v : α} {l l' : List (Access α)}

theorem mem_frees : v ∈ frees l ↔ free v ∈ l := by
  induction l with
  | nil => simp [frees]
  | cons a l ih =>
    cases a with
    | touch u => simp [frees, ih]
    | free u => simp [frees, ih]

theorem frees_append : frees (l ++ l') = frees l ++ frees l' := by
  induction l with
  | nil => rfl
  | cons a l ih =>
    cases a with
    | touch u => exact ih
    | free u => exact congrArg (u :: ·) ih

theorem orderly_nil : Orderly ([] : List (Access α)) := .nil

theorem orderly_touch : Orderly (touch v :: l) ↔ Orderly l := by
  unfold Orderly
  rw [pairwise_cons]
  exact and_iff_right fun b _ u e => by cases e

theorem orderly_free : Orderly (free v :: l) ↔ (∀ b ∈ l, b.target ≠ v) ∧ Orderly l := by
  unfold Orderly
  rw [pairwise_cons]
  refine and_congr_left fun _ => ⟨fun h b hb => h b hb v rfl, fun h b hb u e => ?_⟩
  obtain rfl := free.inj e
  exact h b hb

/-- What comes first gives back nothing that is accessed later. -/
theorem orderly_append :
    Orderly (l ++ l') ↔ Orderly l ∧ Orderly l' ∧ ∀ v ∈ frees l, ∀ b ∈ l', b.target ≠ v := by
  unfold Orderly
  rw [pairwise_append]
  refine and_congr_right fun _ => and_congr_right fun _ => ⟨fun h v hv b hb => ?_, fun h a ha b hb v e => ?_⟩
  · exact h _ (mem_frees.mp hv) b hb v rfl
  · subst e
    exact h v (mem_frees.mpr ha) b hb

/-- It is enough that nothing is given back twice and nothing that is given back is used. -/
theorem orderly_of_nodup (hnd : (frees l).Nodup) (h : ∀ v ∈ frees l, touch v ∉ l) : Orderly l := by
  induction l with
  | nil => exact orderly_nil
  | cons a l ih =>
    cases a with
    | touch u => exact orderly_touch.mpr (ih hnd fun v hv hin => h v hv (mem_cons_of_mem _ hin))
    | free u =>
      obtain ⟨hu, hnd⟩ := nodup_cons.mp hnd
      refine orderly_free.mpr ⟨fun b hb e => ?_, ih hnd fun v hv hin =>
        h v (mem_cons_of_mem u hv) (mem_cons_of_mem _ hin)⟩
      subst e
      cases b with
      | touch w => exact h w mem_cons_self (mem_cons_of_mem _ hb)
      | free w => exact hu (mem_frees.mpr hb)

theorem Orderly.nodup (h : Orderly l) : (frees l).Nodup := by
  induction l with
  | nil => exact .nil
  | cons a l ih =>
    cases a with
    | touch u => exact ih (orderly_touch.mp h)
    | free u =>
      obtain ⟨hu, hl⟩ := orderly_free.mp h
      exact nodup_cons.mpr ⟨fun hin => hu _ (mem_frees.mp hin) rfl, ih hl⟩

end Access
