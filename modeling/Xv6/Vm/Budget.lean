import Mathlib.Data.Finset.Card
import Xv6.Vm.Copy

/-! # How far memory goes

How far `fork` and `exec` get with a new directory is a matter of counting: `setupkvm` takes 65 pages, and a
space of `n` pages from there on takes `cost n`, the pages and their tables.

The one page in which this goes wrong is the last page of a space that has a table of its own: when
the page is there and the table is not, `allocuvm` reports success and the page is lost (`held`). -/

namespace Xv6.Vm

open Finset

section
variable {d : ℕ} {k : Kernel}

/-! ### The tables of a directory -/

/-- The tables that the directory has. -/
def tables (k : Kernel) (d : ℕ) : Finset ℕ := (range 1024).filter fun x => Present (k.mem d x)

theorem mem_tables {x : ℕ} : x ∈ tables k d ↔ x < 1024 ∧ Present (k.mem d x) := by
  unfold tables
  rw [mem_filter, mem_range]

/-- The tables for page numbers from `lo` up to `hi`. -/
def tablesOf (lo hi : ℕ) : Finset ℕ := (Finset.Ico lo hi).image (· / 1024)

theorem mem_tablesOf {lo hi x : ℕ} : x ∈ tablesOf lo hi ↔ ∃ m, (lo ≤ m ∧ m < hi) ∧ m / 1024 = x := by
  unfold tablesOf
  simp only [mem_image, mem_Ico]

theorem tablesOf_self (lo : ℕ) : tablesOf lo (lo + 0) = ∅ := by
  unfold tablesOf
  simp

theorem tablesOf_succ (lo n : ℕ) :
    tablesOf lo (lo + (n + 1)) = {lo / 1024} ∪ tablesOf (lo + 1) (lo + 1 + n) := by
  ext x
  rw [mem_union, mem_singleton, mem_tablesOf, mem_tablesOf]
  constructor
  · rintro ⟨m, hm, rfl⟩
    by_cases e : m = lo
    · exact .inl (by rw [e])
    · exact .inr ⟨m, by omega, rfl⟩
  · rintro (rfl | ⟨m, hm, rfl⟩)
    · exact ⟨lo, by omega, rfl⟩
    · exact ⟨m, by omega, rfl⟩

theorem tablesOf_eq {lo hi : ℕ} (h : lo < hi) :
    tablesOf lo hi = Finset.Ico (lo / 1024) ((hi - 1) / 1024 + 1) := by
  ext x
  rw [mem_tablesOf, mem_Ico]
  constructor
  · rintro ⟨m, hm, rfl⟩
    omega
  · intro hx
    exact ⟨max lo (1024 * x), by omega, by omega⟩

/-! ### `setupkvm` -/

/-- First page number and number of pages of an entry of `kmap`. -/
def mapStart (m : ℕ × ℕ × ℕ × ℕ) : ℕ := pgRoundDown m.1 / 4096

def mapCount (m : ℕ × ℕ × ℕ × ℕ) : ℕ :=
  u32 (pgRoundDown (u32 (m.1 + u32 (m.2.2.1 + 2 ^ 32 - m.2.1) + 2 ^ 32 - 1)) + 2 ^ 32 -
    pgRoundDown m.1) / PGSIZE + 1

/-- The entries lie one after the other, from page number `lo` on. -/
def Ascending : ℕ → List (ℕ × ℕ × ℕ × ℕ) → Prop
  | _, [] => True
  | lo, m :: l => KernMap m ∧ lo ≤ mapStart m ∧ Ascending (mapStart m + mapCount m) l

/-- The tables for all entries. -/
def kmapTables : List (ℕ × ℕ × ℕ × ℕ) → Finset ℕ
  | [] => ∅
  | m :: l => tablesOf (mapStart m) (mapStart m + mapCount m) ∪ kmapTables l

/-- The tables of the kernel half. -/
def kernTables : Finset ℕ := Finset.Ico 512 568 ∪ Finset.Ico 1016 1024

theorem kmapTables_kmap : kmapTables kmap = kernTables := by
  have e : kmapTables kmap = tablesOf 524288 524544 ∪ (tablesOf 524544 524554 ∪
      (tablesOf 524554 581632 ∪ (tablesOf 1040384 1048576 ∪ ∅))) := rfl
  rw [e, tablesOf_eq (by decide), tablesOf_eq (by decide), tablesOf_eq (by decide),
    tablesOf_eq (by decide)]
  ext x
  simp only [kernTables, mem_union, mem_Ico, notMem_empty, or_false]
  omega

theorem kernTables_card : kernTables.card = 64 := by
  rw [kernTables, card_union_of_disjoint, Nat.card_Ico, Nat.card_Ico]
  refine disjoint_left.mpr fun x => ?_
  rw [mem_Ico, mem_Ico]
  omega

theorem kmap_ascending : Ascending userPages kmap :=
  ⟨by decide, by decide, by decide, by decide, by decide, by decide, by decide, by decide, trivial⟩

/-! ### The space that `exec` builds -/

/-- The pages and tables of a space of `n` pages. -/
def cost (n : ℕ) : ℕ := n + (n + 1023) / 1024

/-- `allocuvm` gets to `hi` pages with memory `M`; for a last page with a table of its own it may do
so without the table. -/
def Affords (M hi : ℕ) : Prop := cost hi ≤ M ∨ cost hi = M + 1 ∧ hi % 1024 = 1
deriving Decidable

/-- The pages that are mapped then. -/
def held (M hi : ℕ) : ℕ := if cost hi ≤ M then hi else hi - 1

/-- The tables that there are then. -/
def HasTables (M hi x : ℕ) : Prop := x < (held M hi + 1023) / 1024 ∨ x ∈ kernTables
deriving Decidable

/-- The number of pages of a space of `sz` bytes. -/
def pages (sz : ℕ) : ℕ := (sz + 4095) / 4096

/-- What `allocuvm` returns when `exec` calls it, `none` for `0`. -/
def grow (M sz newsz : ℕ) : Option ℕ :=
  if newsz ≥ KERNBASE then none
  else if newsz < sz then some sz
  else if newsz = 0 then none
  else if pages newsz = pages sz ∨ Affords M (pages newsz) then some newsz else none

end

end Xv6.Vm
