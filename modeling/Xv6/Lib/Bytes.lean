import Mathlib.Algebra.Ring.Parity
import Mathlib.Tactic.Ring

/-! # Little-endian numbers in blocks of bytes

A block is a function from offsets to bytes. `le w j` is byte `j` of the number `w`, and `val n f`
the number whose `n` bytes are `f 0`, `f 1`, …; so `val n (le w)` is `w` modulo `256 ^ n`. -/

namespace Bytes

/-- Byte `j` of `w`. -/
def le (w j : ℕ) : UInt8 := UInt8.ofNat (w / 256 ^ j)

/-- The number with the bytes `f 0`, …, `f (n - 1)`. -/
def val : ℕ → (ℕ → UInt8) → ℕ
  | 0, _ => 0
  | n + 1, f => (f 0).toNat + 256 * val n fun j => f (j + 1)

theorem val_congr {n : ℕ} {f g : ℕ → UInt8} (h : ∀ j < n, f j = g j) : val n f = val n g := by
  induction n generalizing f g with
  | zero => rfl
  | succ n ih =>
    unfold val
    rw [h 0 (by omega), ih fun j hj => h (j + 1) (by omega)]

theorem val_lt (n : ℕ) (f : ℕ → UInt8) : val n f < 256 ^ n := by
  induction n generalizing f with
  | zero => exact Nat.one_pos
  | succ n ih =>
    have h1 := (f 0).toNat_lt
    have h2 := ih fun j => f (j + 1)
    unfold val
    rw [pow_succ]
    omega

theorem le_succ (w j : ℕ) : le w (j + 1) = le (w / 256) j := by
  unfold le
  rw [pow_succ, mul_comm, Nat.div_div_eq_div_mul]

theorem val_le (n w : ℕ) : val n (le w) = w % 256 ^ n := by
  induction n generalizing w with
  | zero => rw [pow_zero, Nat.mod_one, val]
  | succ n ih =>
    have hstep : (fun j => le w (j + 1)) = le (w / 256) := funext (le_succ w)
    unfold val
    rw [hstep, ih, pow_succ, mul_comm (256 ^ n), Nat.mod_mul]
    simp [le]

theorem val_le_of_lt {n w : ℕ} (h : w < 256 ^ n) : val n (le w) = w := by
  rw [val_le, Nat.mod_eq_of_lt h]

theorem le_val {n j : ℕ} (f : ℕ → UInt8) (h : j < n) : le (val n f) j = f j := by
  induction n generalizing f j with
  | zero => omega
  | succ n ih =>
    have h0 := (f 0).toNat_lt
    unfold val
    cases j with
    | zero =>
      apply UInt8.toNat.inj
      unfold le
      rw [pow_zero, Nat.div_one, UInt8.toNat_ofNat']
      omega
    | succ j =>
      have hdiv : ((f 0).toNat + 256 * val n fun j => f (j + 1)) / 256 = val n fun j => f (j + 1) := by omega
      rw [le_succ, hdiv]
      exact ih (fun j => f (j + 1)) (by omega)

@[simp] theorem val_zero (n : ℕ) : val n (fun _ => 0) = 0 := by
  induction n with
  | zero => rfl
  | succ n ih =>
    unfold val
    rw [ih]
    rfl

end Bytes
