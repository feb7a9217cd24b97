import Mathlib.Algebra.Group.Nat.Defs
import Mathlib.Logic.Function.Basic
import Mathlib.Tactic.SplitIfs
import Mathlib.Data.Nat.Notation
import Mathlib.Data.Int.Notation

/-! # The two `memmove`s

`memmove` of `string.c`, for the kernel, and of `ulib.c`, for programs. Memory is a function of the
address, and pointers are 32-bit numbers. A loop is described by the memory after so many rounds.

The kernel's function copies downwards when the source lies below the destination and reaches into it; the
library's always copies upwards, and then repeats the bytes between the two addresses (`up_above`). -/

namespace Xv6.Memmove

open Function

/-- The number of addresses. -/
def space : ℕ := 2 ^ 32

section
variable (m : ℕ → UInt8) (d s : ℕ)

/-- `*d++ = *s++`, so many times. -/
def up : ℕ → (ℕ → UInt8)
  | 0 => m
  | i + 1 => update (up i) ((d + i) % space) (up i ((s + i) % space))

/-- `*--d = *--s`, so many times, from the ends of ranges of `n` bytes. -/
def down (n : ℕ) : ℕ → (ℕ → UInt8)
  | 0 => m
  | i + 1 =>
    update (down n i) ((d + n + space - (i + 1)) % space) (down n i ((s + n + space - (i + 1)) % space))

/-- `memmove(dst, src, n)` of the kernel. -/
def memmove (n : ℕ) : ℕ → UInt8 :=
  if s < d ∧ (s + n) % space > d then down m d s n n else up m d s n

/-- `memmove(vdst, vsrc, n)` of the user library, where `n` is an `int`. -/
def ulibMemmove (n : ℤ) : ℕ → UInt8 := up m d s n.toNat

/-- In `m'` the `n` bytes at `d` are those at `s` in `m`, and nothing else differs. -/
def Moved (m' : ℕ → UInt8) (n : ℕ) : Prop :=
  (∀ i < n, m' (d + i) = m (s + i)) ∧ ∀ a, a < d ∨ d + n ≤ a → m' a = m a

end

section
variable {m : ℕ → UInt8} {d s n : ℕ}

/-- Copying upwards to a lower address, no byte is overwritten before it is read. -/
theorem up_below (hs : s + n ≤ space) (hle : d ≤ s) (i : ℕ) (hi : i ≤ n) (a : ℕ) :
    up m d s i a = if d ≤ a ∧ a < d + i then m (s + (a - d)) else m a := by
  induction i generalizing a with
  | zero => rw [up, if_neg (by omega)]
  | succ i ih =>
    have hread : up m d s i (s + i) = m (s + i) := by
      rw [ih (by omega), if_neg (by omega)]
    rw [up, Nat.mod_eq_of_lt (by omega), Nat.mod_eq_of_lt (by omega), hread, update_apply,
      ih (by omega)]
    split_ifs <;> first | rfl | omega | (congr 1; omega)

/-- Copying upwards to a higher address, the bytes before the destination are repeated. -/
theorem up_above (hd : d + n ≤ space) (hlt : s < d) (i : ℕ) (hi : i ≤ n) (a : ℕ) :
    up m d s i a = if d ≤ a ∧ a < d + i then m (s + (a - d) % (d - s)) else m a := by
  induction i generalizing a with
  | zero => rw [up, if_neg (by omega)]
  | succ i ih =>
    have hread : up m d s i (s + i) = m (s + i % (d - s)) := by
      rw [ih (by omega)]
      split_ifs with h
      · rw [Nat.mod_eq_sub_mod (show i ≥ d - s by omega)]
        congr 3
        omega
      · rw [Nat.mod_eq_of_lt (by omega)]
    rw [up, Nat.mod_eq_of_lt (by omega), Nat.mod_eq_of_lt (by omega), hread, update_apply,
      ih (by omega)]
    split_ifs with h1 h2 h3
    · rw [h1, Nat.add_sub_cancel_left]
    · omega
    · rfl
    · omega
    · omega
    · rfl

/-- Copying downwards to a higher address, no byte is overwritten before it is read. -/
theorem down_above (hd : d + n ≤ space) (hlt : s < d) (i : ℕ) (hi : i ≤ n) (a : ℕ) :
    down m d s n i a = if d + n - i ≤ a ∧ a < d + n then m (s + (a - d)) else m a := by
  induction i generalizing a with
  | zero => rw [down, if_neg (by omega)]
  | succ i ih =>
    have hmod : ∀ x, x + n ≤ space → (x + n + space - (i + 1)) % space = x + n - (i + 1) := by
      intro x hx
      rw [show x + n + space - (i + 1) = x + n - (i + 1) + space by omega, Nat.add_mod_right]
      exact Nat.mod_eq_of_lt (by omega)
    have hread : down m d s n i (s + n - (i + 1)) = m (s + n - (i + 1)) := by
      rw [ih (by omega), if_neg (by omega)]
    rw [down, hmod d hd, hmod s (by omega), hread, update_apply, ih (by omega)]
    split_ifs <;> first | rfl | omega | (congr 1; omega)

theorem moved_iff {m' : ℕ → UInt8} {f : ℕ → ℕ}
    (h : ∀ a, m' a = if d ≤ a ∧ a < d + n then m (f (a - d)) else m a) :
    Moved m d s m' n ↔ ∀ i < n, m (f i) = m (s + i) := by
  have hi : ∀ i < n, m' (d + i) = m (f i) := by
    intro i hi
    rw [h, if_pos (by omega), Nat.add_sub_cancel_left]
  constructor
  · intro hm i hlt
    rw [← hi i hlt, hm.1 i hlt]
  · intro hm
    refine ⟨fun i hlt => by rw [hi i hlt, hm i hlt], fun a ha => ?_⟩
    rw [h, if_neg (by omega)]

/-- The kernel's `memmove` is right for all ranges; the library's is when the source does not lie below
the destination and reach into it, and else when the source happens to repeat the bytes before the
destination. -/
theorem memmove_agree_iff (m : ℕ → UInt8) {d s n : ℕ} (hd : d + n ≤ space) (hs : s + n ≤ space) :
    Moved m d s (memmove m d s n) n ∧
    (Moved m d s (ulibMemmove m d s n) n ↔
      ¬ (s < d ∧ d < s + n) ∨ ∀ i < n, m (s + i) = m (s + i % (d - s))) := by
  rw [ulibMemmove, Int.toNat_natCast]
  obtain hle | hlt := Nat.lt_or_ge s d |>.symm
  · have hup : Moved m d s (up m d s n) n :=
      (moved_iff (f := (s + ·)) (up_below hs hle n (Nat.le_refl n))).mpr fun i _ => rfl
    rw [memmove, if_neg (by omega)]
    exact ⟨hup, iff_of_true hup (.inl (by omega))⟩
  · have hup := moved_iff (s := s) (f := fun i => s + i % (d - s))
      (up_above (m := m) hd hlt n (Nat.le_refl n))
    have hfar : ¬ (s < d ∧ d < s + n) → ∀ i < n, m (s + i % (d - s)) = m (s + i) := by
      intro h i hi
      rw [Nat.mod_eq_of_lt (by omega)]
    constructor
    · rw [memmove]
      split_ifs with h
      · refine (moved_iff (f := (s + ·)) fun a => ?_).mpr fun i _ => rfl
        rw [down_above hd hlt n (Nat.le_refl n), Nat.add_sub_cancel]
      · obtain rfl | hn := Nat.eq_zero_or_pos n
        · exact hup.mpr nofun
        · rw [Nat.mod_eq_of_lt (by omega)] at h
          exact hup.mpr (hfar (by omega))
    · rw [hup]
      constructor
      · intro h
        exact .inr fun i hi => (h i hi).symm
      · rintro (h | h)
        · exact hfar h
        · exact fun i hi => (h i hi).symm

end

/-- Two bytes moved up by one: the first is there twice. -/
theorem ulibMemmove_overlap : ¬ Moved UInt8.ofNat 1 0 (ulibMemmove UInt8.ofNat 1 0 2) 2 := by
  intro h
  exact absurd (h.1 1 (by decide)) (by decide)

/-- Two bytes moved down by one. -/
theorem memmove_agree_down : Moved UInt8.ofNat 0 1 (memmove UInt8.ofNat 0 1 2) 2 ∧
    Moved UInt8.ofNat 0 1 (ulibMemmove UInt8.ofNat 0 1 2) 2 := by
  obtain ⟨h, h'⟩ := memmove_agree_iff UInt8.ofNat (d := 0) (s := 1) (n := 2) (by decide) (by decide)
  exact ⟨h, h'.mpr (.inl (by decide))⟩

end Xv6.Memmove
