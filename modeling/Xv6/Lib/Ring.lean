import Mathlib.Data.List.Basic
import Mathlib.Data.Nat.ModEq
import Mathlib.Logic.Function.Basic

/-! # Ring buffers with free-running counters

A ring of `N` cells is filled at the counter `w` and emptied at the counter `r`. The counters are never
reset: they run modulo `M`, a multiple of `N`, and a counter stands for the cell of its remainder modulo
`N`. `Ring.Holds N M data r w xs` says that the ring holds the elements `xs`, the oldest first.

Elements go in at the end (`Holds.push`) and come out at the front (`Holds.pop`) or at the end again
(`Holds.unpush`); a third counter between the two splits the ring (`Holds.front`, `Holds.back`). The
counters tell how many there are (`Holds.count_eq`), that there are none (`Holds.eq_iff`) and that the
ring is full (`Holds.full_iff`); for that `M` has to be larger than `N`. -/

namespace Ring

open List

variable {α : Type*} {N M r w : ℕ} {data : ℕ → α} {x : α} {xs : List α}

/-- The ring holds the elements `xs`. -/
structure Holds (N M : ℕ) (data : ℕ → α) (r w : ℕ) (xs : List α) : Prop where
  fits : xs.length ≤ N
  bound : r < M
  count : w = (r + xs.length) % M
  cell : ∀ i (h : i < xs.length), data ((r + i) % N) = xs[i]

theorem Holds.nil (data : ℕ → α) (h : r < M) : Holds N M data r r [] :=
  ⟨Nat.zero_le N, h, (Nat.mod_eq_of_lt h).symm, fun i hi => absurd hi (Nat.not_lt_zero i)⟩

section
variable (h : Holds N M data r w xs) (hN : N < M)
include h hN

/-- The writing counter has either not wrapped since the reading one or has wrapped once. -/
theorem Holds.counter :
    (r + xs.length < M ∧ w = r + xs.length) ∨ (M ≤ r + xs.length ∧ w + M = r + xs.length) := by
  have hr := h.bound
  have hlen : xs.length < M := lt_of_le_of_lt h.fits hN
  have hw := h.count
  rcases lt_or_ge (r + xs.length) M with hlt | hge
  · rw [Nat.mod_eq_of_lt hlt] at hw
    exact .inl ⟨hlt, hw⟩
  · rw [Nat.mod_eq_sub_mod hge, Nat.mod_eq_of_lt (by omega)] at hw
    exact .inr ⟨hge, by omega⟩

/-- The difference of the counters is the number of elements. -/
theorem Holds.count_eq : (w + M - r) % M = xs.length := by
  have hr := h.bound
  have hlen : xs.length < M := lt_of_le_of_lt h.fits hN
  obtain ⟨hlt, hw⟩ | ⟨hge, hw⟩ := h.counter hN
  · have hsum : w + M - r = xs.length + M := by omega
    rw [hsum, Nat.add_mod_right, Nat.mod_eq_of_lt hlen]
  · have hsum : w + M - r = xs.length := by omega
    rw [hsum, Nat.mod_eq_of_lt hlen]

theorem Holds.eq_iff : r = w ↔ xs = [] := by
  have hr := h.bound
  have hlen : xs.length < M := lt_of_le_of_lt h.fits hN
  rw [← length_eq_zero_iff]
  obtain ⟨hlt, hw⟩ | ⟨hge, hw⟩ := h.counter hN <;> omega

theorem Holds.full_iff : w = (r + N) % M ↔ xs.length = N := by
  constructor
  · intro hw
    have hmod : r + xs.length ≡ r + N [MOD M] := h.count.symm.trans hw
    exact (hmod.add_left_cancel' r).eq_of_lt_of_lt (lt_of_le_of_lt h.fits hN) hN
  · intro hlen
    rw [h.count, hlen]

end

/-- Two offsets from one counter that are fewer than `N` apart are two cells. -/
theorem cell_ne {i j : ℕ} (hi : i < j) (hj : j < i + N) : (r + i) % N ≠ (r + j) % N := by
  intro heq
  have hdvd : N ∣ (r + j) - (r + i) := (Nat.modEq_iff_dvd' (by omega)).mp heq
  have hle := Nat.le_of_dvd (by omega) hdvd
  omega

theorem Holds.push (h : Holds N M data r w xs) (hM : N ∣ M) (hlen : xs.length < N) (x : α) :
    Holds N M (Function.update data (w % N) x) r ((w + 1) % M) (xs ++ [x]) := by
  have hcell : w % N = (r + xs.length) % N := by rw [h.count, Nat.mod_mod_of_dvd _ hM]
  refine ⟨by simpa using Nat.succ_le_of_lt hlen, h.bound, ?_, fun i hi => ?_⟩
  · rw [h.count, Nat.mod_add_mod, length_append, length_singleton, Nat.add_assoc]
  · rw [hcell]
    rcases Nat.lt_succ_iff_lt_or_eq.mp (by simpa using hi : i < xs.length + 1) with hlt | rfl
    · rw [Function.update_of_ne (cell_ne hlt (by omega)), h.cell i hlt, getElem_append_left hlt]
    · simp

theorem Holds.pop (h : Holds N M data r w (x :: xs)) (hM : N ∣ M) :
    data (r % N) = x ∧ Holds N M data ((r + 1) % M) w xs := by
  have hpos : 0 < M := Nat.zero_lt_of_lt h.bound
  refine ⟨h.cell 0 (Nat.zero_lt_succ _), Nat.le_of_succ_le h.fits, Nat.mod_lt _ hpos, ?_, fun i hi => ?_⟩
  · rw [h.count, Nat.mod_add_mod, length_cons, Nat.add_assoc, Nat.add_comm 1]
  · rw [Nat.add_mod, Nat.mod_mod_of_dvd _ hM, ← Nat.add_mod, Nat.add_assoc, Nat.add_comm 1]
    exact h.cell (i + 1) (Nat.succ_lt_succ hi)

theorem pred_succ (a : ℕ) (hM : 0 < M) : ((a + 1) % M + M - 1) % M = a % M := by
  have hlt := Nat.mod_lt a hM
  rw [← Nat.mod_add_mod a M 1]
  obtain hsucc | hwrap := Nat.lt_or_eq_of_le (Nat.succ_le_of_lt hlt)
  · rw [Nat.mod_eq_of_lt hsucc, show a % M + 1 + M - 1 = a % M + M by omega, Nat.add_mod_right,
      Nat.mod_mod]
  · rw [← Nat.succ_eq_add_one, hwrap, Nat.mod_self, Nat.zero_add, Nat.mod_eq_of_lt (by omega)]
    omega

theorem Holds.unpush (h : Holds N M data r w (xs ++ [x])) (hM : N ∣ M) :
    data ((w + M - 1) % M % N) = x ∧ Holds N M data r ((w + M - 1) % M) xs := by
  have hpos : 0 < M := Nat.zero_lt_of_lt h.bound
  have hlen : (xs ++ [x]).length = xs.length + 1 := length_append
  have hpred : (w + M - 1) % M = (r + xs.length) % M := by
    rw [h.count, hlen, ← Nat.add_assoc, pred_succ _ hpos]
  refine ⟨?_, by have := h.fits; omega, h.bound, hpred, fun i hi => ?_⟩
  · rw [hpred, Nat.mod_mod_of_dvd _ hM, h.cell xs.length (by omega)]
    simp
  · rw [h.cell i (by omega), getElem_append_left hi]

/-- The elements in front are what a ring with an earlier end holds. -/
theorem Holds.front {ys : List α} (h : Holds N M data r w (xs ++ ys)) :
    Holds N M data r ((r + xs.length) % M) xs := by
  have hlen : (xs ++ ys).length = xs.length + ys.length := length_append
  refine ⟨by have := h.fits; omega, h.bound, rfl, fun i hi => ?_⟩
  rw [h.cell i (by omega), getElem_append_left hi]

/-- The elements behind are what a ring with a later start holds. -/
theorem Holds.back {ys : List α} (h : Holds N M data r w (xs ++ ys)) (hM : N ∣ M) :
    Holds N M data ((r + xs.length) % M) w ys := by
  induction xs generalizing r with
  | nil => rwa [length_nil, Nat.add_zero, Nat.mod_eq_of_lt h.bound]
  | cons x xs ih =>
    have hback := ih (h.pop hM).2
    rwa [Nat.mod_add_mod, Nat.add_assoc, Nat.add_comm 1] at hback

theorem Holds.eq_map (h : Holds N M data r w xs) (hN : N < M) :
    xs = (range ((w + M - r) % M)).map fun i => data ((r + i) % N) := by
  rw [h.count_eq hN]
  apply ext_getElem
  · simp
  · intro i hi _
    simp [h.cell i hi]

end Ring
