import Mathlib.Data.Finset.Card
import Mathlib.Order.Interval.Finset.Nat

/-! # Tables of pointers with exclusive owners

`P i n` is the cell that place `n` of owner `i` points to, or `0`. In an `Owned` table all pointers
lie in an area `lo ≤ b < hi`, no cell has two places that point to it, and a cell of the area is marked
if and only if some place points to it or it is one of the stray cells `S`, which nothing points to.

The rules `Owned.add` and `Owned.drop` say how the table stays so when a place gets an unmarked cell, and
when an owner loses its cells, which become stray. `spare` is the number of cells that are not marked. -/

variable {ι κ : Type*} {S : Set ℕ} {P P' : ι → κ → ℕ} {mark mark' : ℕ → Bool} {lo hi : ℕ}

/-- Every cell in use is marked and has exactly one place that points to it. -/
structure Owned (S : Set ℕ) (P : ι → κ → ℕ) (mark : ℕ → Bool) (lo hi : ℕ) : Prop where
  area : ∀ i n, P i n ≠ 0 → lo ≤ P i n ∧ P i n < hi
  inj : ∀ i n j m, P i n ≠ 0 → P i n = P j m → i = j ∧ n = m
  marked : ∀ b, lo ≤ b → b < hi → (mark b = true ↔ b ∈ S ∨ ∃ i n, P i n = b)
  apart : ∀ i n, P i n ≠ 0 → P i n ∉ S

namespace Owned

theorem mark_of_ne (h : Owned S P mark lo hi) {i : ι} {n : κ} (hp : P i n ≠ 0) :
    mark (P i n) = true :=
  (h.marked _ (h.area i n hp).1 (h.area i n hp).2).mpr (.inr ⟨i, n, rfl⟩)

theorem ne_of_unmarked (h : Owned S P mark lo hi) {b : ℕ} (hlo : lo ≤ b) (hhi : b < hi)
    (hb : mark b = false) (i : ι) (n : κ) : P i n ≠ b := by
  intro e
  rw [(h.marked b hlo hhi).mpr (.inr ⟨i, n, e⟩)] at hb
  exact Bool.noConfusion hb

theorem congr (h : Owned S P mark lo hi) (hP : ∀ i n, P' i n = P i n)
    (hm : ∀ b, lo ≤ b → b < hi → mark' b = mark b) : Owned S P' mark' lo hi := by
  have e : P' = P := funext fun i => funext (hP i)
  subst e
  exact ⟨h.area, h.inj, fun b h1 h2 => hm b h1 h2 ▸ h.marked b h1 h2, h.apart⟩

theorem drop (h : Owned S P mark lo hi) (hpos : 0 < lo) {i : ι} (h0 : ∀ n, P' i n = 0)
    (hold : ∀ j n, j ≠ i → P' j n = P j n) (hm : ∀ b, lo ≤ b → b < hi → mark' b = mark b) :
    Owned (S ∪ {b | b ≠ 0 ∧ ∃ n, P i n = b}) P' mark' lo hi := by
  have hne : ∀ {j n}, P' j n ≠ 0 → j ≠ i := fun hp e => hp (e ▸ h0 _)
  refine ⟨fun j n hp => ?_, fun j n j' n' hp he => ?_, fun b h1 h2 => ?_, fun j n hp hs => ?_⟩
  · have e := hold j n (hne hp)
    rw [e] at hp ⊢
    exact h.area j n hp
  · have e := hold j n (hne hp)
    have e' := hold j' n' (hne (he ▸ hp))
    rw [e] at hp he
    exact h.inj j n j' n' hp (he.trans e')
  · rw [hm b h1 h2, h.marked b h1 h2]
    constructor
    · rintro (hs | ⟨j, n, e⟩)
      · exact .inl (.inl hs)
      · by_cases hj : j = i
        · exact .inl (.inr ⟨by omega, n, hj ▸ e⟩)
        · exact .inr ⟨j, n, (hold j n hj).trans e⟩
    · rintro ((hs | ⟨-, n, e⟩) | ⟨j, n, e⟩)
      · exact .inl hs
      · exact .inr ⟨i, n, e⟩
      · have hp : P' j n ≠ 0 := by omega
        exact .inr ⟨j, n, (hold j n (hne hp)).symm.trans e⟩
  · have hj := hne hp
    rw [hold j n hj] at hp hs
    obtain hs | ⟨-, n', e⟩ := hs
    · exact h.apart j n hp hs
    · exact hj (h.inj j n i n' hp e.symm).1

theorem add (h : Owned S P mark lo hi) (hpos : 0 < lo) {i : ι} {n : κ} {b : ℕ} (hlo : lo ≤ b)
    (hhi : b < hi) (hfree : mark b = false) (h0 : P i n = 0) (hnew : P' i n = b)
    (hold : ∀ j m, ¬ (j = i ∧ m = n) → P' j m = P j m)
    (hm : ∀ x, lo ≤ x → x < hi → (mark' x = true ↔ mark x = true ∨ x = b)) :
    Owned S P' mark' lo hi := by
  have hfresh := h.ne_of_unmarked hlo hhi hfree
  refine ⟨fun j m hp => ?_, fun j m j' m' hp he => ?_, fun x h1 h2 => ?_, fun j m hp hs => ?_⟩
  · by_cases hjm : j = i ∧ m = n
    · rw [hjm.1, hjm.2, hnew]
      exact ⟨hlo, hhi⟩
    · rw [hold j m hjm] at hp ⊢
      exact h.area j m hp
  · by_cases hjm : j = i ∧ m = n
    · by_cases hjm' : j' = i ∧ m' = n
      · exact ⟨hjm.1.trans hjm'.1.symm, hjm.2.trans hjm'.2.symm⟩
      · rw [hjm.1, hjm.2, hnew, hold j' m' hjm'] at he
        exact absurd he.symm (hfresh j' m')
    · rw [hold j m hjm] at hp he
      by_cases hjm' : j' = i ∧ m' = n
      · rw [hjm'.1, hjm'.2, hnew] at he
        exact absurd he (hfresh j m)
      · rw [hold j' m' hjm'] at he
        exact h.inj j m j' m' hp he
  · rw [hm x h1 h2, h.marked x h1 h2]
    constructor
    · rintro ((hs | ⟨j, m, e⟩) | rfl)
      · exact .inl hs
      · refine .inr ⟨j, m, (hold j m ?_).trans e⟩
        rintro ⟨rfl, rfl⟩
        omega
      · exact .inr ⟨i, n, hnew⟩
    · rintro (hs | ⟨j, m, e⟩)
      · exact .inl (.inl hs)
      by_cases hjm : j = i ∧ m = n
      · rw [hjm.1, hjm.2, hnew] at e
        exact .inr e.symm
      · exact .inl (.inr ⟨j, m, (hold j m hjm) ▸ e⟩)
  · by_cases hjm : j = i ∧ m = n
    · rw [hjm.1, hjm.2, hnew] at hs
      rw [(h.marked b hlo hhi).mpr (.inl hs)] at hfree
      exact Bool.noConfusion hfree
    · rw [hold j m hjm] at hp hs
      exact h.apart j m hp hs

end Owned

/-! ### Cells that are not marked -/

/-- The number of cells of the area that are not marked. -/
def spare (mark : ℕ → Bool) (lo hi : ℕ) : ℕ := ((Finset.Ico lo hi).filter (mark · = false)).card

theorem spare_congr (h : ∀ b, lo ≤ b → b < hi → mark' b = mark b) :
    spare mark' lo hi = spare mark lo hi := by
  unfold spare
  congr 1
  refine Finset.filter_congr fun b hb => ?_
  rw [h b (Finset.mem_Ico.mp hb).1 (Finset.mem_Ico.mp hb).2]

theorem exists_of_spare (h : 0 < spare mark lo hi) : ∃ b, lo ≤ b ∧ b < hi ∧ mark b = false := by
  obtain ⟨b, hb⟩ := Finset.card_pos.mp h
  obtain ⟨hb, hf⟩ := Finset.mem_filter.mp hb
  exact ⟨b, (Finset.mem_Ico.mp hb).1, (Finset.mem_Ico.mp hb).2, hf⟩

theorem spare_add {b : ℕ} (hlo : lo ≤ b) (hhi : b < hi) (hb : mark b = false)
    (hm : ∀ x, lo ≤ x → x < hi → (mark' x = true ↔ mark x = true ∨ x = b)) :
    spare mark' lo hi + 1 = spare mark lo hi := by
  have e : (Finset.Ico lo hi).filter (mark' · = false)
      = ((Finset.Ico lo hi).filter (mark · = false)).erase b := by
    ext x
    simp only [Finset.mem_filter, Finset.mem_erase, Finset.mem_Ico]
    constructor
    · rintro ⟨⟨h1, h2⟩, hf⟩
      have hx := mt (hm x h1 h2).mpr (by simp [hf])
      rw [not_or] at hx
      exact ⟨hx.2, ⟨h1, h2⟩, by simpa using hx.1⟩
    · rintro ⟨hne, ⟨h1, h2⟩, hf⟩
      refine ⟨⟨h1, h2⟩, ?_⟩
      by_contra ht
      obtain hx | hx := (hm x h1 h2).mp (by simpa using ht)
      · rw [hx] at hf
        exact Bool.noConfusion hf
      · exact hne hx
  unfold spare
  rw [e]
  exact Finset.card_erase_add_one (Finset.mem_filter.mpr ⟨Finset.mem_Ico.mpr ⟨hlo, hhi⟩, hb⟩)
