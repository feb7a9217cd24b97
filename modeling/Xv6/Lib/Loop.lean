import Mathlib.Data.List.Basic
import Mathlib.Logic.Function.Basic

/-! # Circular lists with one link

The nodes of `l` form a loop under `next` when following `next` from the first one visits the others in
order and comes back (`IsLoop`). A loop may be entered anywhere (`isLoop_rotate`); a node is put in behind
another or taken out behind another by changing one or two links (`IsLoop.insert`, `IsLoop.remove`); and a
walk that stops at some node of the loop ends, wherever it starts (`IsLoop.walk`). -/

namespace Loop

open Function List

variable {α : Type*} {next : α → α} {x y z : α} {l m : List α}

/-- Following `next` from `x` leads through `l` to `y`. -/
def Path (next : α → α) : α → List α → α → Prop
  | x, [], y => next x = y
  | x, a :: l, y => next x = a ∧ Path next a l y

theorem path_append : Path next x (l ++ z :: m) y ↔ Path next x l z ∧ Path next z m y := by
  induction l generalizing x with
  | nil => exact Iff.rfl
  | cons a l ih =>
    rw [cons_append, Path, Path, ih, and_assoc]

theorem Path.congr {next' : α → α} (h : Path next x l y) (heq : ∀ a ∈ x :: l, next' a = next a) :
    Path next' x l y := by
  induction l generalizing x with
  | nil => exact (heq x mem_cons_self).trans h
  | cons a l ih =>
    exact ⟨(heq x mem_cons_self).trans h.1, ih h.2 fun b hb => heq b (mem_cons_of_mem _ hb)⟩

/-- The nodes of `l` form a loop. -/
def IsLoop (next : α → α) : List α → Prop
  | [] => True
  | x :: l => Path next x l x

theorem isLoop_rotate (l m : List α) : IsLoop next (l ++ m) ↔ IsLoop next (m ++ l) := by
  cases l with
  | nil => rw [nil_append, append_nil]
  | cons x l =>
    cases m with
    | nil => rw [nil_append, append_nil]
    | cons y m =>
      exact path_append.trans (and_comm.trans path_append.symm)

theorem IsLoop.congr {next' : α → α} (h : IsLoop next l) (heq : ∀ a ∈ l, next' a = next a) :
    IsLoop next' l := by
  cases l with
  | nil => exact h
  | cons x l => exact Path.congr h heq

theorem IsLoop.next_eq (h : IsLoop next (l ++ x :: y :: m)) : next x = y := by
  rw [isLoop_rotate] at h
  exact h.1

theorem IsLoop.next_last (h : IsLoop next (l ++ [x])) (heq : l ++ [x] = y :: m) : next x = y := by
  rw [isLoop_rotate] at h
  cases l with
  | nil =>
    obtain ⟨rfl, -⟩ := cons.inj heq
    exact h
  | cons a l =>
    obtain ⟨rfl, -⟩ := cons.inj heq
    exact h.1

section edit
variable [DecidableEq α]

theorem IsLoop.insert_head (h : IsLoop next (x :: l)) (hx : x ∉ l) (hz : z ∉ x :: l) :
    IsLoop (update (update next z (next x)) x z) (x :: z :: l) := by
  obtain ⟨hzx, hzl⟩ : z ≠ x ∧ z ∉ l := by simpa using hz
  have hnext : update (update next z (next x)) x z z = next x := by
    rw [update_of_ne hzx, update_self]
  refine ⟨update_self _ _ _, ?_⟩
  cases l with
  | nil => exact hnext.trans h
  | cons a l =>
    refine ⟨hnext.trans h.1, h.2.congr fun b hb => ?_⟩
    have hbx : b ≠ x := fun heq => hx (heq ▸ hb)
    have hbz : b ≠ z := fun heq => hzl (heq ▸ hb)
    rw [update_of_ne hbx, update_of_ne hbz]

theorem IsLoop.remove_head (h : IsLoop next (x :: z :: l)) (hx : x ∉ l) :
    IsLoop (update next x (next z)) (x :: l) := by
  cases l with
  | nil => exact (update_self _ _ _).trans h.2
  | cons a l =>
    refine ⟨(update_self _ _ _).trans h.2.1, h.2.2.congr fun b hb => ?_⟩
    have hbx : b ≠ x := fun heq => hx (heq ▸ hb)
    rw [update_of_ne hbx]

theorem IsLoop.insert (h : IsLoop next (l ++ x :: m)) (hx : x ∉ m ++ l) (hz : z ∉ l ++ x :: m) :
    IsLoop (update (update next z (next x)) x z) (l ++ x :: z :: m) := by
  rw [isLoop_rotate] at h ⊢
  have hz' : z ∉ x :: m ++ l := fun hmem => hz (mem_append.mpr (mem_append.mp hmem).symm)
  exact h.insert_head hx hz'

theorem IsLoop.remove (h : IsLoop next (l ++ x :: z :: m)) (hx : x ∉ m ++ l) :
    IsLoop (update next x (next z)) (l ++ x :: m) := by
  rw [isLoop_rotate] at h ⊢
  exact h.remove_head hx

end edit

/-! ### Walking -/

/-- Follow `next` until `stop`, for at most `n` nodes. -/
def walk (next : α → α) (stop : α → Bool) : ℕ → α → Option α
  | 0, _ => none
  | n + 1, x => if stop x = true then some x else walk next stop n (next x)

theorem Path.walk {stop : α → Bool} {n : ℕ} (h : Path next x l y) (hn : l.length + 1 < n)
    (hy : stop y = true) : ∃ z ∈ x :: (l ++ [y]), walk next stop n x = some z ∧ stop z = true := by
  induction l generalizing x n with
  | nil =>
    obtain ⟨n, rfl⟩ := Nat.exists_eq_succ_of_ne_zero (Nat.ne_zero_of_lt hn)
    obtain ⟨n, rfl⟩ := Nat.exists_eq_succ_of_ne_zero (show n ≠ 0 by simp at hn; omega)
    by_cases hx : stop x = true
    · exact ⟨x, by simp, by rw [Loop.walk, if_pos hx], hx⟩
    · refine ⟨y, by simp, ?_, hy⟩
      rw [Loop.walk, if_neg hx, show next x = y from h, Loop.walk, if_pos hy]
  | cons a l ih =>
    obtain ⟨n, rfl⟩ := Nat.exists_eq_succ_of_ne_zero (Nat.ne_zero_of_lt hn)
    by_cases hx : stop x = true
    · exact ⟨x, by simp, by rw [Loop.walk, if_pos hx], hx⟩
    · rw [length_cons] at hn
      obtain ⟨z, hz, hwalk, hstop⟩ := ih (n := n) h.2 (by omega)
      exact ⟨z, mem_cons_of_mem _ hz, by rw [Loop.walk, if_neg hx, h.1, hwalk], hstop⟩

theorem IsLoop.walk {stop : α → Bool} {n : ℕ} (h : IsLoop next l) (hx : x ∈ l) (hn : l.length < n)
    (hstop : ∃ y ∈ l, stop y = true) : ∃ z ∈ l, walk next stop n x = some z ∧ stop z = true := by
  obtain ⟨a, b, rfl⟩ := append_of_mem hx
  obtain ⟨y, hy, hstop⟩ := hstop
  rw [isLoop_rotate] at h
  have hmem : ∀ z, z ∈ a ++ x :: b ↔ z ∈ x :: (b ++ a) := by
    intro z
    rw [← cons_append, mem_append, mem_append, or_comm]
  simp only [length_append, length_cons] at hn
  obtain rfl | hy := mem_cons.mp ((hmem y).mp hy)
  · obtain ⟨n, rfl⟩ := Nat.exists_eq_succ_of_ne_zero (show n ≠ 0 by omega)
    exact ⟨y, hx, by rw [Loop.walk, if_pos hstop], hstop⟩
  · obtain ⟨c, d, hcd⟩ := append_of_mem hy
    have hpath : Path next x c y := by
      rw [cons_append, hcd] at h
      exact (path_append.mp h).1
    have hlen := congrArg length hcd
    simp only [length_append, length_cons] at hlen
    obtain ⟨z, hz, hwalk⟩ := hpath.walk (n := n) (by omega) hstop
    refine ⟨z, (hmem z).mpr ?_, hwalk⟩
    rw [hcd]
    obtain rfl | hz := mem_cons.mp hz
    · exact mem_cons_self
    · refine mem_cons_of_mem _ ?_
      rw [mem_append] at hz ⊢
      exact hz.imp_right fun hz => by rw [mem_singleton.mp hz]; exact mem_cons_self

end Loop
