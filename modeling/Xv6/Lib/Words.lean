import Mathlib.Data.Nat.Bitwise

/-! # Words built from an aligned address and flag bits

A page-table entry is a word `a ||| f` with `a` a multiple of `2 ^ n` and `f < 2 ^ n`. The two
parts do not overlap, so that the word is their sum and both can be read back. -/

namespace Words

theorem or_eq_add {a f n : ℕ} (ha : a % 2 ^ n = 0) (hf : f < 2 ^ n) : a ||| f = a + f := by
  obtain ⟨b, rfl⟩ := Nat.dvd_of_mod_eq_zero ha
  rw [mul_comm, ← Nat.shiftLeft_eq, Nat.shiftLeft_add_eq_or_of_lt hf]

theorem div_mul_of_aligned {a f n : ℕ} (ha : a % n = 0) (hf : f < n) :
    (a + f) / n * n = a := by
  obtain ⟨b, rfl⟩ := Nat.dvd_of_mod_eq_zero ha
  rw [Nat.mul_add_div (by omega), Nat.div_eq_of_lt hf, add_zero, mul_comm]

theorem and_two_pow_ne_zero (w i : ℕ) : w &&& 2 ^ i ≠ 0 ↔ w / 2 ^ i % 2 = 1 := by
  rw [Nat.and_two_pow, Nat.testBit_eq_decide_div_mod_eq]
  by_cases h : w / 2 ^ i % 2 = 1 <;> simp [h]

end Words
