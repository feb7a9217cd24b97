import Xv6.Vm.Tabled

/-! # Copying to user memory

`copyout` goes through the pages from `va` on, with addresses that wrap around, and copies a piece to each page that
users can reach. At the first page that they cannot reach it stops, if there is a page table for it; otherwise
`uva2ka` uses the null pointer that `walkpgdir` returns (`copyoutLoop_cases`). -/

namespace Xv6.Vm

open Fallible

/-- The directory, its mappings and the free list are as before. -/
structure SameTables (k k' : Kernel) (d : ℕ) : Prop where
  dir : k'.mem d = k.mem d
  entry : ∀ m, k'.entry d m = k.entry d m
  freelist : k'.freelist = k.freelist

/-- Users can reach the page. -/
def Reach (k : Kernel) (d m : ℕ) : Prop := Present (k.entry d m) ∧ k.entry d m / 4 % 2 = 1
deriving Decidable

/-- What users can reach is neither the directory nor one of its tables. -/
def Sealed (k : Kernel) (d : ℕ) : Prop :=
  ∀ m, Reach k d m → frame (k.entry d m) ≠ d ∧ NoTable k d (frame (k.entry d m))

/-- The number of pages that a range of `len` bytes touches. -/
def pieces (va len : ℕ) : ℕ := if len = 0 then 0 else (va % 4096 + len + 4095) / 4096

/-- The pieces from the `j`-th on are copied to `c` pages from page number `m` on. -/
def copied (d : ℕ) (data : ℕ → (ℕ → ℕ) → (ℕ → ℕ)) : ℕ → ℕ → ℕ → Kernel → Kernel
  | 0, _, _, k => k
  | c + 1, m, j, k =>
    copied d data c (m + 1) (j + 1) (k.setPage (frame (k.entry d m)) (data j (k.mem (frame (k.entry d m)))))

section
variable {k k' k1 : Kernel} {d m n c j va len : ℕ} {data : ℕ → (ℕ → ℕ) → (ℕ → ℕ)}

theorem SameTables.refl (k : Kernel) (d : ℕ) : SameTables k k d := ⟨rfl, fun _ => rfl, rfl⟩

theorem SameTables.trans (h : SameTables k k1 d) (h' : SameTables k1 k' d) : SameTables k k' d :=
  ⟨h'.dir.trans h.dir, fun m => (h'.entry m).trans (h.entry m), h'.freelist.trans h.freelist⟩

theorem SameTables.reach (h : SameTables k k' d) : Reach k' d m ↔ Reach k d m := by
  unfold Reach
  rw [h.entry]

theorem SameTables.sealed (h : SameTables k k' d) (hs : Sealed k d) : Sealed k' d := by
  intro m hm
  obtain ⟨hne, hnt⟩ := hs m (h.reach.mp hm)
  rw [h.entry]
  refine ⟨hne, fun n hp => ?_⟩
  rw [pde_congr h.dir] at hp ⊢
  exact hnt n hp

theorem pde_mod {n' : ℕ} (h : n % allPages = n' % allPages) : k.pde d n = k.pde d n' := by
  unfold Kernel.pde
  congr 1
  unfold allPages at h
  omega

theorem entry_mod {n' : ℕ} (h : n % allPages = n' % allPages) : k.entry d n = k.entry d n' := by
  have h2 : n % 1024 = n' % 1024 := by
    unfold allPages at h
    omega
  unfold Kernel.entry
  rw [pde_mod h, h2]

theorem Sealed.write (hs : Sealed k d) (hm : Reach k d m) (g : ℕ → ℕ) :
    SameTables k (k.setPage (frame (k.entry d m)) g) d := by
  obtain ⟨hne, hnt⟩ := hs m hm
  obtain ⟨hdir, hent⟩ := entry_setPage hne hnt g
  exact ⟨hdir, hent, rfl⟩

theorem copied_frame (hs : Sealed k d) (h : ∀ i < c, Reach k d (m + i)) :
    SameTables k (copied d data c m j k) d ∧
      ∀ v, (∀ i < c, frame (k.entry d (m + i)) ≠ v) → (copied d data c m j k).mem v = k.mem v := by
  induction c generalizing m j k with
  | zero => exact ⟨.refl k d, fun _ _ => rfl⟩
  | succ c ih =>
    have h1 := hs.write (show Reach k d m from h 0 (by omega)) (data j (k.mem (frame (k.entry d m))))
    obtain ⟨h2, hmem⟩ := ih (m := m + 1) (j := j + 1) (h1.sealed hs) fun i hi => by
      rw [h1.reach, Nat.add_assoc, Nat.add_comm 1]
      exact h (i + 1) (by omega)
    refine ⟨h1.trans h2, fun v hv => (hmem v fun i hi => ?_).trans ?_⟩
    · rw [h1.entry, Nat.add_assoc, Nat.add_comm 1]
      exact hv (i + 1) (by omega)
    · exact Function.update_of_ne (hv 0 (by omega)).symm _ _

theorem uva2ka_eq (m : ℕ) : uva2ka k d (4096 * m) =
    if Present (k.pde d m) then .ok (if Reach k d m then some (frame (k.entry d m)) else none)
    else .error .null := by
  have hm : 4096 * m / 4096 = m := by omega
  unfold uva2ka
  rw [walkpgdir_false, hm]
  by_cases hp : Present (k.pde d m)
  · rw [if_pos hp, if_pos hp]
    dsimp only
    rw [← entry_of_present hp, frame_eq]
    by_cases h1 : Present (k.entry d m)
    · rw [if_neg ((present_and _).mpr h1)]
      by_cases h2 : k.entry d m / 4 % 2 = 1
      · rw [if_neg ((user_iff _).mpr h2), if_pos (show Reach k d m from ⟨h1, h2⟩)]
      · rw [if_pos (not_not.mp (mt (user_iff _).mp h2)), if_neg fun e : Reach k d m => h2 e.2]
    · rw [if_pos (not_not.mp (mt (present_and _).mp h1)), if_neg fun e : Reach k d m => h1 e.1]
  · rw [if_neg hp, if_neg hp]

theorem copyoutLoop_succ (hlen : 0 < len) :
    copyoutLoop d data (n + 1) j va len k =
      if Present (k.pde d (va / 4096)) then
        if Reach k d (va / 4096) then
          copyoutLoop d data n (j + 1) (u32 (4096 * (va / 4096) + 4096)) (len - min len (4096 - va % 4096))
            (k.setPage (frame (k.entry d (va / 4096))) (data j (k.mem (frame (k.entry d (va / 4096))))))
        else .ok (false, k)
      else .error .null := by
  have h1 : pgRoundDown va = 4096 * (va / 4096) := by
    unfold pgRoundDown PGSIZE
    omega
  have h2 : PGSIZE - (va - 4096 * (va / 4096)) = 4096 - va % 4096 := by
    unfold PGSIZE
    omega
  rw [copyoutLoop, if_neg (by omega)]
  simp only [h1, h2, uva2ka_eq]
  split_ifs
  · rfl
  · rfl
  · rfl

/-- **The loop of `copyout`** gets through all pages, or to one that users cannot reach; `m` is the number of the first
page, which may count on beyond the last one. -/
theorem copyoutLoop_cases (hs : Sealed k d) (hn : pieces va len ≤ n) (hm : m % allPages = va / 4096 % allPages) :
    ∃ c ≤ pieces va len, (∀ i < c, Reach k d (m + i)) ∧
      (c = pieces va len ∧ copyoutLoop d data n j va len k = .ok (true, copied d data c m j k) ∨
        c < pieces va len ∧ ¬ Reach k d (m + c) ∧ copyoutLoop d data n j va len k =
          if Present (k.pde d (m + c)) then .ok (false, copied d data c m j k) else .error .null) := by
  induction n generalizing k j va len m with
  | zero =>
    have hz : pieces va len = 0 := by omega
    exact ⟨0, by omega, nofun, .inl ⟨hz.symm, rfl⟩⟩
  | succ n ih =>
    obtain rfl | hlen := Nat.eq_zero_or_pos len
    · have hz : pieces va 0 = 0 := if_pos rfl
      refine ⟨0, by omega, nofun, .inl ⟨hz.symm, ?_⟩⟩
      rw [copyoutLoop, if_pos rfl]
      rfl
    have hreach : Reach k d (va / 4096) ↔ Reach k d m := by
      unfold Reach
      rw [entry_mod hm]
    rw [copyoutLoop_succ hlen, ← pde_mod hm, ← entry_mod hm]
    simp only [hreach]
    have hpieces : pieces (u32 (4096 * (va / 4096) + 4096)) (len - min len (4096 - va % 4096)) + 1 = pieces va len := by
      rw [pieces, pieces, if_neg (by omega : len ≠ 0)]
      unfold u32
      split_ifs
      · omega
      · omega
    by_cases hr : Reach k d m
    swap
    · refine ⟨0, by omega, nofun, .inr ⟨by omega, hr, ?_⟩⟩
      rw [if_neg hr]
      rfl
    have h1 := hs.write hr (data j (k.mem (frame (k.entry d m))))
    have hnext : (m + 1) % allPages = u32 (4096 * (va / 4096) + 4096) / 4096 % allPages := by
      unfold u32
      unfold allPages at hm ⊢
      omega
    have hleft : pieces (u32 (4096 * (va / 4096) + 4096)) (len - min len (4096 - va % 4096)) ≤ n := by omega
    obtain ⟨c, hc, hall, hcase⟩ := ih (j := j + 1) (h1.sealed hs) hleft hnext
    have hstep : ∀ i, m + 1 + i = m + (i + 1) := fun i => by omega
    simp only [hstep, h1.reach, pde_congr h1.dir] at hall hcase
    rw [if_pos (pde_of_entry hr.1), if_pos hr]
    refine ⟨c + 1, by omega, fun i hi => ?_, ?_⟩
    · cases i with
      | zero => exact hr
      | succ i => exact hall i (by omega)
    · obtain ⟨e, hres⟩ | ⟨hlt, hno, hres⟩ := hcase
      · exact .inl ⟨by omega, hres⟩
      · exact .inr ⟨by omega, hno, hres⟩

theorem copyout_cases (va len : ℕ) (data : ℕ → (ℕ → ℕ) → (ℕ → ℕ)) (hs : Sealed k d) : ∃ c ≤ pieces va len, (∀ i < c, Reach k d (va / 4096 + i)) ∧
    (c = pieces va len ∧ copyout k d va len data = .ok (true, copied d data c (va / 4096) 0 k) ∨
      c < pieces va len ∧ ¬ Reach k d (va / 4096 + c) ∧ copyout k d va len data =
        if Present (k.pde d (va / 4096 + c)) then .ok (false, copied d data c (va / 4096) 0 k) else .error .null) := by
  refine copyoutLoop_cases hs ?_ rfl
  unfold pieces PGSIZE
  split_ifs
  · omega
  · omega

theorem copyout_all (hs : Sealed k d) (hall : ∀ i < pieces va len, Reach k d (va / 4096 + i)) :
    copyout k d va len data = .ok (true, copied d data (pieces va len) (va / 4096) 0 k) := by
  obtain ⟨c, -, -, ⟨rfl, hr⟩ | ⟨hlt, hno, -⟩⟩ := copyout_cases va len data hs
  · exact hr
  · exact absurd (hall c hlt) hno

theorem copyout_first (hs : Sealed k d) (hall : ∀ i < c, Reach k d (va / 4096 + i)) (hc : c < pieces va len)
    (hno : ¬ Reach k d (va / 4096 + c)) : copyout k d va len data =
      if Present (k.pde d (va / 4096 + c)) then .ok (false, copied d data c (va / 4096) 0 k) else .error .null := by
  obtain ⟨c', -, hall', ⟨rfl, -⟩ | ⟨hlt, hno', hr⟩⟩ := copyout_cases va len data hs
  · exact absurd (hall' c hc) hno
  · obtain hlt' | rfl | hlt' := Nat.lt_trichotomy c c'
    · exact absurd (hall' c hlt') hno
    · exact hr
    · exact absurd (hall c' hlt') hno'

/-- A `copyout` that returns has copied the pieces up to the first page that users cannot reach. -/
theorem copyout_ok {b : Bool} (hs : Sealed k d) (hr : copyout k d va len data = .ok (b, k')) :
    ∃ c ≤ pieces va len, (∀ i < c, Reach k d (va / 4096 + i)) ∧ k' = copied d data c (va / 4096) 0 k ∧
      (b = true → c = pieces va len) := by
  obtain ⟨c, hc, hall, ⟨e, hr'⟩ | ⟨hlt, hno, hr'⟩⟩ := copyout_cases va len data hs
  · obtain ⟨-, rfl⟩ := pair_ok (hr.symm.trans hr')
    exact ⟨c, hc, hall, rfl, fun _ => e⟩
  · rw [hr'] at hr
    split_ifs at hr
    obtain ⟨rfl, rfl⟩ := pair_ok hr
    exact ⟨c, hc, hall, rfl, nofun⟩

end

end Xv6.Vm
