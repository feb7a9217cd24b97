import Mathlib.Algebra.BigOperators.Ring.Finset
import Mathlib.Data.Fintype.BigOperators
import Mathlib.Tactic.Ring

/-! # Finite tables

A table is a function from a finite index type. Two rules for programs that walk over one:
how the number of entries with a property changes when one entry is written, and a rule for
loops that visit every entry. -/

namespace Table

open Finset Function

section count
variable {ι α : Type*} [Fintype ι]

/-- Writing one entry changes a sum over the table by what the entry contributes. -/
theorem sum_update [DecidableEq ι] (w : α → ℕ) (f : ι → α) (i : ι) (a : α) :
    ∑ j, w (update f i a j) + w (f i) = ∑ j, w (f j) + w a := by
  have hg : (fun j => w (update f i a j)) =
      update (fun j => w (f j)) i (w a) := by
    funext j
    exact apply_update (fun _ => w) f i a j
  have hi := sum_erase_add univ (fun j => w (f j)) (mem_univ i)
  rw [hg, sum_update_of_mem (mem_univ i), ← hi, sdiff_singleton_eq_erase]
  ring

/-- Number of entries of `f` with property `P`. -/
def count (P : α → Prop) [DecidablePred P] (f : ι → α) : ℕ :=
  (univ.filter fun i => P (f i)).card

variable (P : α → Prop) [DecidablePred P] (f : ι → α)

/-- Writing one entry changes the count by what the entry contributes. -/
theorem count_update [DecidableEq ι] (i : ι) (a : α) :
    (count P (update f i a) : ℤ) =
      count P f + (if P a then 1 else 0) - (if P (f i) then 1 else 0) := by
  have hsum : ∀ g : ι → α, (count P g : ℤ) = ∑ j, if P (g j) then 1 else 0 := by
    intro g
    rw [count, card_filter]
    push_cast
    rfl
  have hg : (fun j => if P (update f i a j) then (1 : ℤ) else 0) =
      update (fun j => if P (f j) then (1 : ℤ) else 0) i (if P a then 1 else 0) := by
    funext j
    by_cases h : j = i
    · subst h; simp
    · simp [h]
  have hi := sum_erase_add univ (fun j => if P (f j) then (1 : ℤ) else 0)
    (mem_univ i)
  rw [hsum, hsum, hg, sum_update_of_mem (mem_univ i), ← hi,
    sdiff_singleton_eq_erase]
  ring

theorem count_eq_zero_iff : count P f = 0 ↔ ∀ i, ¬ P (f i) := by
  simp [count, filter_eq_empty_iff]

theorem count_pos {i : ι} (h : P (f i)) : 0 < count P f :=
  Nat.pos_of_ne_zero fun h0 => (count_eq_zero_iff P f).mp h0 i h

end count

section fill
variable {α : Type*}

/-- A row of a table after the elements of a list have been written into it, from `i` on. -/
def fill (row : ℕ → α) : ℕ → List α → ℕ → α
  | _, [] => row
  | i, a :: l => fill (update row i a) (i + 1) l

theorem fill_of_lt (row : ℕ → α) {i j : ℕ} (l : List α) (h : j < i) : fill row i l j = row j := by
  induction l generalizing row i with
  | nil => rfl
  | cons a l ih =>
    rw [fill, ih _ (by omega), update_of_ne (by omega)]

theorem map_fill (row : ℕ → α) (i : ℕ) (l : List α) :
    (List.range' i l.length).map (fill row i l) = l := by
  induction l generalizing row i with
  | nil => rfl
  | cons a l ih =>
    rw [List.length_cons, List.range'_succ, List.map_cons]
    congr 1
    · rw [fill, fill_of_lt _ _ (by omega), update_self]
    · exact ih _ _

theorem fill_getElem (row : ℕ → α) (l : List α) {j : ℕ} (h : j < l.length) :
    fill row 0 l j = l[j] := by
  have e := congrArg (fun m : List α => m[j]?) (map_fill row 0 l)
  simpa [h] using e

end fill

/-- A loop over a list whose body relates its states by a transitive relation `R`, provided
an invariant `I` that it keeps, relates its first and last state by `R`. -/
theorem foldl_rel {σ ι : Type*} {I : σ → Prop} {R : σ → σ → Prop} {f : σ → ι → σ}
    (hrefl : ∀ s, R s s) (htrans : ∀ s1 s2 s3, R s1 s2 → R s2 s3 → R s1 s3)
    (hf : ∀ s i, I s → R s (f s i) ∧ I (f s i)) (l : List ι) {s : σ} (hs : I s) :
    R s (l.foldl f s) ∧ I (l.foldl f s) := by
  induction l generalizing s with
  | nil => exact ⟨hrefl s, hs⟩
  | cons i l ih =>
    obtain ⟨h1, h2⟩ := hf s i hs
    obtain ⟨h3, h4⟩ := ih h2
    exact ⟨htrans _ _ _ h1 h3, h4⟩

theorem foldl_keeps {σ ι : Type*} {I : σ → Prop} {f : σ → ι → σ} (hf : ∀ s i, I s → I (f s i))
    (l : List ι) {s : σ} (hs : I s) : I (l.foldl f s) :=
  (foldl_rel (R := fun _ _ => True) (fun _ => trivial) (fun _ _ _ _ _ => trivial)
    (fun s i h => ⟨trivial, hf s i h⟩) l hs).2

/-- What a loop establishes when it visits `i`: the body keeps `I` everywhere, turns it into `Q`
at `i`, and keeps `Q`. -/
theorem foldl_visit {σ ι : Type*} {I Q : σ → Prop} {f : σ → ι → σ} {i : ι}
    (hI : ∀ s j, I s → I (f s j)) (hi : ∀ s, I s → Q (f s i))
    (hQ : ∀ s j, I s → Q s → Q (f s j)) {l : List ι} (hl : i ∈ l) {s : σ} (hs : I s) :
    Q (l.foldl f s) := by
  have hkeep : ∀ (l : List ι) s, I s → Q s → Q (l.foldl f s) := fun l s h1 h2 =>
    (foldl_keeps (I := fun s => I s ∧ Q s) (fun s j h => ⟨hI s j h.1, hQ s j h.1 h.2⟩) l
      ⟨h1, h2⟩).2
  induction l generalizing s with
  | nil => cases hl
  | cons j l ih =>
    rcases List.mem_cons.mp hl with rfl | hl
    · exact hkeep l _ (hI s i hs) (hi s hs)
    · exact ih hl (hI s j hs)

end Table
