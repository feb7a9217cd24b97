import Xv6.Vm.Alloc
import Xv6.Vm.System

/-! # The initial state

The free list at boot: distinct pages that `kfree` accepts. -/

namespace Xv6.Vm

open List

variable {n v : ℕ}

theorem mem_pagesDown {w : ℕ} (hv : 4096 * n ≤ v) :
    w ∈ pagesDown n v ↔ ∃ i < n, w + 4096 * i = v := by
  induction n generalizing v with
  | zero => simp [pagesDown]
  | succ n ih =>
    rw [pagesDown, mem_cons, ih (by unfold PGSIZE; omega)]
    unfold PGSIZE
    constructor
    · rintro (rfl | ⟨i, hi, e⟩)
      · exact ⟨0, by omega, by omega⟩
      · exact ⟨i + 1, by omega, by omega⟩
    · rintro ⟨i, hi, e⟩
      cases i with
      | zero => exact .inl (by omega)
      | succ i => exact .inr ⟨i, by omega, by omega⟩

theorem nodup_pagesDown (hv : 4096 * n ≤ v) : (pagesDown n v).Nodup := by
  induction n generalizing v with
  | zero => exact nodup_nil
  | succ n ih =>
    have hv' : 4096 * n ≤ v - PGSIZE := by unfold PGSIZE; omega
    refine nodup_cons.mpr ⟨fun hm => ?_, ih hv'⟩
    obtain ⟨i, hi, e⟩ := (mem_pagesDown hv').mp hm
    unfold PGSIZE at e
    omega

theorem length_pagesDown (n v : ℕ) : (pagesDown n v).length = n := by
  induction n generalizing v with
  | zero => rfl
  | succ n ih => rw [pagesDown, length_cons, ih]

theorem boot_freelist_length : boot.freelist.length = 56846 := by
  rw [boot, length_append, length_pagesDown, length_pagesDown]

theorem top_134 : top 134 = 0x8df79000 := by decide

theorem kinit1_last : KERNBASE + 0x3be000 = 0x803be000 := by decide

/-- The two runs of pages on the free list: `kinit2`'s and what is left of `kinit1`'s. -/
theorem mem_boot_freelist : v ∈ boot.freelist ↔
    v % 4096 = 0 ∧ (0x80400000 ≤ v ∧ v ≤ top 134 ∨ 0x8012b000 ≤ v ∧ v ≤ 0x803be000) := by
  have h1 : 4096 * 0xdb7a ≤ top 134 := by decide
  have h2 : 4096 * 0x294 ≤ KERNBASE + 0x3be000 := by decide
  rw [boot, mem_append, mem_pagesDown h1, mem_pagesDown h2, top_134, kinit1_last]
  constructor
  · rintro (⟨i, hi, e⟩ | ⟨i, hi, e⟩) <;> omega
  · rintro ⟨h, hv | hv⟩
    · exact .inl ⟨(0x8df79000 - v) / 4096, by omega, by omega⟩
    · exact .inr ⟨(0x803be000 - v) / 4096, by omega, by omega⟩

theorem boot_freelist_page (h : v ∈ boot.freelist) : Page v := by
  rw [mem_boot_freelist, top_134] at h
  refine ⟨h.1, ?_, ?_⟩
  · unfold endAddr
    omega
  · unfold KERNBASE PHYSTOP
    omega

theorem boot_freelist_nodup : boot.freelist.Nodup := by
  have h1 : 4096 * 0xdb7a ≤ top 134 := by decide
  have h2 : 4096 * 0x294 ≤ KERNBASE + 0x3be000 := by decide
  have e1 := top_134
  have e2 := kinit1_last
  refine nodup_append.mpr ⟨nodup_pagesDown h1, nodup_pagesDown h2, ?_⟩
  rintro v hv w hw rfl
  obtain ⟨i, hi, e⟩ := (mem_pagesDown h1).mp hv
  obtain ⟨j, hj, e'⟩ := (mem_pagesDown h2).mp hw
  omega

theorem linked_pagesDown {mem : ℕ → ℕ → ℕ} {l : List ℕ} (hl : Linked mem l) (hv : 4096 * n ≤ v)
    (hmem : ∀ i < n, mem (v - 4096 * i) 0 = if i + 1 = n then l.headD 0 else v - 4096 * (i + 1)) :
    Linked mem (pagesDown n v ++ l) := by
  induction n generalizing v with
  | zero => exact hl
  | succ n ih =>
    have hnext : ∀ i, v - PGSIZE - 4096 * i = v - 4096 * (i + 1) := fun i => by unfold PGSIZE; omega
    rw [pagesDown, cons_append, Linked]
    refine ⟨?_, ih (by unfold PGSIZE; omega) fun i hi => ?_⟩
    · have hzero := hmem 0 (by omega)
      rw [Nat.mul_zero, Nat.sub_zero] at hzero
      rw [hzero]
      cases n with
      | zero => exact if_pos rfl
      | succ n => rw [if_neg (by omega), pagesDown, cons_append, headD_cons, PGSIZE]
    · rw [hnext, hnext, hmem (i + 1) (by omega)]
      exact if_congr (by omega) rfl rfl

/-- `kinit1` and `kinit2` have linked the free pages. -/
theorem linked_boot : Linked boot.mem boot.freelist := by
  have hlink : ∀ v, 0x8012b000 ≤ v → v ≤ 0x8df79000 → boot.mem v 0 =
      if v = 0x80400000 then 0x803be000 else if v = 0x8012b000 then 0 else v - 4096 := by
    intro v h1 h2
    show bootMem v 0 = _
    unfold bootMem bootPage KERNBASE PHYSTOP PGSIZE
    repeat rw [if_neg (by omega)]
    rw [if_pos (by omega), if_pos rfl]
    rfl
  have hlow : Linked boot.mem (pagesDown 0x294 0x803be000) := by
    rw [← append_nil (pagesDown _ _)]
    refine linked_pagesDown trivial (by decide) fun i hi => ?_
    rw [hlink _ (by omega) (by omega), headD_nil]
    split_ifs <;> omega
  have hhead : (pagesDown 0x294 0x803be000).headD 0 = 0x803be000 := by rw [pagesDown, headD_cons]
  refine linked_pagesDown hlow (by decide) fun i hi => ?_
  rw [top_134, hlink _ (by omega) (by omega), kinit1_last, hhead]
  split_ifs <;> omega

end Xv6.Vm
