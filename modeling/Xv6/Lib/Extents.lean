import Mathlib.Data.List.Basic
import Mathlib.Data.List.Perm.Basic
import Mathlib.Data.List.Range
import Mathlib.Data.List.Pairwise
import Mathlib.Tactic.Ring

/-! # Extents that tile regions of memory

An extent `(a, n)` is the `n` cells of `w` bytes from address `a` on. `Tiles w bs rs` says that the extents
`bs` and the regions `rs` have the same cells, each once, and that no two cells overlap. Extents are cut in
two and joined (`tiles_split`), and a region above all others is added as one extent (`Tiles.add`). In a
tiling the extents do not overlap (`Tiles.disjoint`), and every cell of the regions is in one of them
(`Tiles.existsUnique`). -/

namespace Extents

open List

variable {w a m n u : ℕ} {b c : ℕ × ℕ} {bs cs rs : List (ℕ × ℕ)}

/-- The addresses of the cells of an extent. -/
def cells (w : ℕ) (b : ℕ × ℕ) : List ℕ := (range b.2).map fun i => b.1 + w * i

theorem mem_cells : u ∈ cells w b ↔ ∃ i < b.2, b.1 + w * i = u := by
  simp [cells]

theorem cells_add (w a m n : ℕ) : cells w (a, m + n) = cells w (a, m) ++ cells w (a + w * m, n) := by
  simp only [cells, range_add, map_append, map_map]
  congr 1
  apply map_congr_left
  intro i _
  simp only [Function.comp_apply]
  ring

/-- Two cells do not overlap. -/
def Apart (w u v : ℕ) : Prop := u + w ≤ v ∨ v + w ≤ u

theorem Apart.symm {v : ℕ} (h : Apart w u v) : Apart w v u := Or.symm h

/-- Two extents do not overlap. -/
def Disjoint (w : ℕ) (b c : ℕ × ℕ) : Prop :=
  0 < b.2 → 0 < c.2 → b.1 + w * b.2 ≤ c.1 ∨ c.1 + w * c.2 ≤ b.1

instance (w : ℕ) : Std.Symm (Disjoint w) := ⟨fun _ _ h hc hb => (h hb hc).symm⟩

theorem disjoint_of_le (hw : 0 < w) (hc : 0 < c.2) (hle : b.1 ≤ c.1)
    (h : ∀ u ∈ cells w b, ∀ v ∈ cells w c, Apart w u v) : b.1 + w * b.2 ≤ c.1 := by
  by_contra hlt
  have hi : (c.1 - b.1) / w < b.2 := Nat.div_lt_of_lt_mul (by omega)
  have hdiv := Nat.div_add_mod (c.1 - b.1) w
  have hmod := Nat.mod_lt (c.1 - b.1) hw
  obtain happ | happ := h _ (mem_cells.mpr ⟨_, hi, rfl⟩) c.1 (mem_cells.mpr ⟨0, hc, by omega⟩)
  · omega
  · omega

theorem disjoint_of_apart (hw : 0 < w) (h : ∀ u ∈ cells w b, ∀ v ∈ cells w c, Apart w u v) :
    Disjoint w b c := by
  intro hb hc
  obtain hle | hle := Nat.le_total b.1 c.1
  · exact .inl (disjoint_of_le hw hc hle h)
  · exact .inr (disjoint_of_le hw hb hle fun u hu v hv => (h v hv u hu).symm)

/-- The extents `bs` and the regions `rs` have the same cells, and no two cells overlap. -/
structure Tiles (w : ℕ) (bs rs : List (ℕ × ℕ)) : Prop where
  perm : (bs.flatMap (cells w)).Perm (rs.flatMap (cells w))
  apart : (rs.flatMap (cells w)).Pairwise (Apart w)

theorem Tiles.pairwise (h : Tiles w bs rs) : (bs.flatMap (cells w)).Pairwise (Apart w) :=
  (h.perm.pairwise_iff fun hxy => Apart.symm hxy).mpr h.apart

theorem Tiles.reorder (h : Tiles w bs rs) (hp : cs.Perm bs) : Tiles w cs rs :=
  ⟨(hp.flatMap_right _).trans h.perm, h.apart⟩

theorem tiles_split : Tiles w ((a, m + n) :: bs) rs ↔ Tiles w ((a, m) :: (a + w * m, n) :: bs) rs := by
  have heq : ((a, m + n) :: bs).flatMap (cells w) =
      ((a, m) :: (a + w * m, n) :: bs).flatMap (cells w) := by
    simp only [flatMap_cons, cells_add, append_assoc]
  constructor
  · intro h
    exact ⟨heq ▸ h.perm, h.apart⟩
  · intro h
    exact ⟨heq ▸ h.perm, h.apart⟩

theorem cells_pairwise (w a n : ℕ) : (cells w (a, n)).Pairwise (Apart w) := by
  induction n with
  | zero => exact .nil
  | succ n ih =>
    rw [cells_add, pairwise_append]
    refine ⟨ih, by simp [cells], fun u hu v hv => .inl ?_⟩
    obtain ⟨i, hi, rfl⟩ := mem_cells.mp hu
    obtain ⟨j, hj, rfl⟩ := mem_cells.mp hv
    have hle : w * (i + 1) ≤ w * n := Nat.mul_le_mul_left w hi
    rw [Nat.mul_add, Nat.mul_one] at hle
    dsimp only
    omega

/-- A region above all others is added as one extent. -/
theorem Tiles.add (h : Tiles w bs rs) (habove : ∀ u ∈ rs.flatMap (cells w), u + w ≤ a) (n : ℕ) :
    Tiles w ((a, n) :: bs) ((a, n) :: rs) := by
  refine ⟨?_, ?_⟩
  · rw [flatMap_cons, flatMap_cons]
    exact h.perm.append_left _
  · rw [flatMap_cons, pairwise_append]
    refine ⟨cells_pairwise w a n, h.apart, fun u hu v hv => .inr ?_⟩
    obtain ⟨i, -, rfl⟩ := mem_cells.mp hu
    exact (habove v hv).trans (Nat.le_add_right _ _)

theorem Tiles.disjoint (h : Tiles w bs rs) (hw : 0 < w) : bs.Pairwise (Disjoint w) := by
  have hpair := h.pairwise
  clear h
  induction bs with
  | nil => exact .nil
  | cons b bs ih =>
    rw [flatMap_cons, pairwise_append] at hpair
    obtain ⟨-, hbs, happ⟩ := hpair
    refine .cons (fun c hc => ?_) (ih hbs)
    exact disjoint_of_apart hw fun u hu v hv => happ u hu v (mem_flatMap.mpr ⟨c, hc, hv⟩)

theorem Tiles.mem (h : Tiles w bs rs) (hb : b ∈ bs) (hu : u ∈ cells w b) : u ∈ rs.flatMap (cells w) :=
  h.perm.mem_iff.mp (mem_flatMap.mpr ⟨b, hb, hu⟩)

theorem Tiles.existsUnique (h : Tiles w bs rs) (hw : 0 < w) (hu : u ∈ rs.flatMap (cells w)) :
    ∃! b, b ∈ bs ∧ u ∈ cells w b := by
  obtain ⟨b, hb, hub⟩ := mem_flatMap.mp (h.perm.mem_iff.mpr hu)
  refine ⟨b, ⟨hb, hub⟩, ?_⟩
  rintro c ⟨hc, huc⟩
  by_contra hne
  have hdis : Disjoint w c b := (h.disjoint hw).forall hc hb hne
  obtain ⟨i, hi, rfl⟩ := mem_cells.mp hub
  obtain ⟨j, hj, heq⟩ := mem_cells.mp huc
  have hib : w * (i + 1) ≤ w * b.2 := Nat.mul_le_mul_left w hi
  have hjc : w * (j + 1) ≤ w * c.2 := Nat.mul_le_mul_left w hj
  rw [Nat.mul_add, Nat.mul_one] at hib hjc
  obtain hdis | hdis := hdis (Nat.zero_lt_of_lt hj) (Nat.zero_lt_of_lt hi) <;> omega

end Extents
