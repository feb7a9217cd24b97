import Mathlib.Logic.Function.Basic
import Mathlib.Data.Nat.Notation

/-! # A finite map in slots that are used again

Slot `t` is empty or holds a key with its value (`f t = some (k, v)`). No two slots hold the same key
(`Distinct`). Then the slots are a map (`Maps f k v`): filling an empty slot with a new key adds this key
(`maps_put`), and emptying a slot removes its key (`maps_drop`), and both leave the other keys alone. -/

namespace Slots

open Function Option Prod

variable {κ ν : Type} {f : ℕ → Option (κ × ν)} {k k' : κ} {v v' : ν} {t : ℕ}

/-- No two slots hold the same key. -/
def Distinct (f : ℕ → Option (κ × ν)) : Prop :=
  ∀ i j k v w, f i = some (k, v) → f j = some (k, w) → i = j

/-- The slots map `k` to `v`. -/
def Maps (f : ℕ → Option (κ × ν)) (k : κ) (v : ν) : Prop := ∃ t, f t = some (k, v)

theorem Distinct.put (h : Distinct f) (hnew : ∀ v, ¬ Maps f k v) :
    Distinct (update f t (some (k, v))) := by
  intro i j k' w w' hi hj
  by_cases hit : i = t
  · by_cases hjt : j = t
    · rw [hit, hjt]
    · rw [hit, update_self] at hi
      rw [update_of_ne hjt, ← (mk.inj (some.inj hi)).1] at hj
      exact absurd ⟨j, hj⟩ (hnew w')
  · rw [update_of_ne hit] at hi
    by_cases hjt : j = t
    · rw [hjt, update_self] at hj
      rw [← (mk.inj (some.inj hj)).1] at hi
      exact absurd ⟨i, hi⟩ (hnew w)
    · rw [update_of_ne hjt] at hj
      exact h i j k' w w' hi hj

theorem Distinct.drop (h : Distinct f) : Distinct (update f t none) := by
  have hold : ∀ {i k' w}, update f t none i = some (k', w) → f i = some (k', w) := by
    intro i k' w hi
    by_cases hit : i = t
    · rw [hit, update_self] at hi
      cases hi
    · rwa [update_of_ne hit] at hi
  exact fun i j k' w w' hi hj => h i j k' w w' (hold hi) (hold hj)

/-- The map with a new key, in a slot that was empty. -/
theorem maps_put (hempty : f t = none) (hnew : ∀ v, ¬ Maps f k v) :
    Maps (update f t (some (k, v))) k' v' ↔ (k' = k ∧ v' = v) ∨ (k' ≠ k ∧ Maps f k' v') := by
  constructor
  · rintro ⟨i, hi⟩
    by_cases hit : i = t
    · rw [hit, update_self] at hi
      obtain ⟨hk, hv⟩ := mk.inj (some.inj hi)
      exact .inl ⟨hk.symm, hv.symm⟩
    · rw [update_of_ne hit] at hi
      exact .inr ⟨fun hk => hnew v' ⟨i, hk ▸ hi⟩, i, hi⟩
  · rintro (⟨rfl, rfl⟩ | ⟨-, i, hi⟩)
    · exact ⟨t, update_self t _ f⟩
    · have hit : i ≠ t := by
        rintro rfl
        rw [hempty] at hi
        cases hi
      exact ⟨i, by rw [update_of_ne hit, hi]⟩

theorem Distinct.maps_drop (h : Distinct f) (hk : f t = some (k, v)) :
    Maps (update f t none) k' v' ↔ k' ≠ k ∧ Maps f k' v' := by
  constructor
  · rintro ⟨i, hi⟩
    by_cases hit : i = t
    · rw [hit, update_self] at hi
      cases hi
    · rw [update_of_ne hit] at hi
      refine ⟨?_, i, hi⟩
      rintro rfl
      exact hit (h i t k' v' v hi hk)
  · rintro ⟨hne, i, hi⟩
    have hit : i ≠ t := by
      rintro rfl
      rw [hk] at hi
      exact hne (mk.inj (some.inj hi)).1.symm
    exact ⟨i, by rw [update_of_ne hit, hi]⟩

end Slots
