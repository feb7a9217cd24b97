import Xv6.Vm.Fork
import Xv6.Vm.Freevm

/-! # Which pages an address space under construction holds

While `fork` or `exec` fills a new directory, the pages that are free or in the directory are a fixed set `S`
(`Held`), and no other page is written. Every function that works on the new directory keeps this, and `freevm`
puts `S` back on the free list; only the page that a failing `mappages` leaves behind drops out of it
(`Held.lost`). -/

namespace Xv6.Vm

open Fallible Function List

/-- The pages that are free or in the directory are those of `S`, all of them were free in `k0`, and nothing else has
been written since. -/
structure Held (k0 k : Kernel) (d : ℕ) (S : ℕ → Prop) : Prop where
  tree : Tree k d
  kern : ∀ m, userPages ≤ m → m < allPages → k.entry d m = kernEntry m
  account : ∀ v, Accounted k d v ↔ S v
  sub : ∀ v, S v → v ∈ k0.freelist
  mem : ∀ u ∉ k0.freelist, k.mem u = k0.mem u

section
variable {k0 k k' : Kernel} {d lo hi c m n v : ℕ} {S : ℕ → Prop} {f : ℕ → ℕ → ℕ}

/-! ### The steps -/

theorem KernelHalf.held (h : FreePages k0) (hk : KernelHalf k0 k d) : Held k0 k d (· ∈ k0.freelist) :=
  ⟨hk.tree h, fun m _ hm => hk.entry m hm, hk.account, fun _ hv => hv, hk.mem⟩

theorem Grows.tree (hg : Grows k k' d lo c f) (h : Tree k d) : Tree k' d := by
  have hua := userPages_le
  have hnew : ∀ m, lo ≤ m → m < lo + c → frame (k'.entry d m) ∈ k.freelist := fun m hm1 hm2 =>
    (hg.page h.toApart hm1 hm2).2.1
  refine ⟨hg.apart, fun m hm m' hm' hp hp' e => ?_, fun v hv => ?_⟩
  · by_cases hin : lo ≤ m ∧ m < lo + c
    · obtain ⟨hm1', hm2'⟩ := hg.mem_range h.toApart hm' hp' e.symm (hnew m hin.1 hin.2)
      exact hg.inj m m' hin.1 hin.2 hm1' hm2' e
    · by_cases hin' : lo ≤ m' ∧ m' < lo + c
      · exact absurd (hg.mem_range h.toApart hm hp e (hnew m' hin'.1 hin'.2)) hin
      · rw [hg.old m (by omega) (by omega)] at hp e
        rw [hg.old m' (by omega) (by omega)] at hp' e
        exact h.sole m hm m' hm' hp hp' e
  · obtain hfree | hin := (hg.account v).mp (.inr hv)
    · exact (h.free v hfree).1
    · exact h.page v hin

section
variable (h : Held k0 k d S)
include h

theorem Held.grows (hg : Grows k k' d lo c f) (hu : lo + c ≤ userPages) : Held k0 k' d S := by
  refine ⟨hg.tree h.tree, fun m hm hm' => ?_, fun v => (hg.account v).trans (h.account v), h.sub, fun u hu => ?_⟩
  · rw [hg.old m hm' (by omega), h.kern m hm hm']
  · rw [hg.mem_other fun ha => hu (h.sub u ((h.account u).mp ha)), h.mem u hu]

/-- A change of pages of the directory that are no tables. -/
theorem Held.write (hm : m < userPages) (hpr : Present (k.entry d m)) (g : ℕ → ℕ) :
    Held k0 (k.setPage (frame (k.entry d m)) g) d S ∧ SameTables k (k.setPage (frame (k.entry d m)) g) d := by
  obtain ⟨-, hne, hnt⟩ := h.tree.user m hm hpr
  obtain ⟨hdir, hent⟩ := entry_setPage hne hnt g
  have hin : InSpace k d (frame (k.entry d m)) := .inr (.inr ⟨m, hm, hpr, rfl⟩)
  refine ⟨⟨h.tree.congr hdir (fun n _ => by rw [hent]; exact ⟨Iff.rfl, rfl⟩) ⟨h.tree.nodup, h.tree.freePages.page⟩
    fun v hv => h.tree.not_free hv, fun n hn hn' => ?_, fun v => ?_, h.sub, fun u hu => ?_⟩, hdir, hent, rfl⟩
  · rw [hent, h.kern n hn hn']
  · rw [← h.account]
    unfold Accounted InSpace
    rw [hdir]
    simp only [hent]
    rfl
  · have hne : u ≠ frame (k.entry d m) := by
      rintro rfl
      exact hu (h.sub _ ((h.account _).mp (.inr hin)))
    rw [Kernel.setPage_mem, update_of_ne hne, h.mem u hu]

theorem Held.clear {uva : ℕ} (hu : uva < KERNBASE) (hr : clearpteu k d uva = .ok k') : Held k0 k' d S := by
  have hua := userPages_le
  have htree := h.tree.clear hu hr
  have hm : uva / 4096 < userPages := by
    have hk := kernbase_eq
    unfold userPages
    omega
  obtain ⟨hp, rfl⟩ := clearpteu_store hr
  generalize uva / 4096 = m at *
  obtain ⟨hdir, hent⟩ := h.tree.rooted.entry_store (by omega : m < allPages) hp (k.entry d m - (k.entry d m &&& PTE_U))
  refine ⟨htree, fun n hn hn' => ?_, fun v => ?_, h.sub, fun u hu => ?_⟩
  · rw [hent n hn', if_neg (by omega), h.kern n hn hn']
  · rw [← h.account]
    unfold Accounted InSpace
    rw [hdir]
    refine or_congr_right (or_congr_right (or_congr_right (exists_congr fun n => and_congr_right fun hn => ?_)))
    rw [hent n (by omega)]
    split_ifs with e
    · rw [e, present_clear_user, frame_clear_user]
    · exact Iff.rfl
  · have hne : u ≠ frame (k.pde d m) := by
      rintro rfl
      exact hu (h.sub _ ((h.account _).mp (.inr (.inr (.inl ⟨_, Nat.mod_lt _ (by decide), hp, rfl⟩)))))
    rw [Kernel.store_mem, update_of_ne hne, h.mem u hu]

theorem Held.lost (hl : k.freelist = [v]) (g : ℕ → ℕ) : S v ∧ Held k0 (k.lost v g) d fun u => S u ∧ u ≠ v := by
  have hv : v ∈ k.freelist := by
    rw [hl]
    exact mem_cons_self
  obtain ⟨-, -, hdir, hent, hacc, -⟩ := h.tree.toApart.take hl g
  have hdir : (k.lost v g).mem d = k.mem d := hdir
  have hent : ∀ n, (k.lost v g).entry d n = k.entry d n := hent
  have hacc : ∀ u, Accounted k d u ↔ Accounted (k.lost v g) d u ∨ u = v := hacc
  have hSv : S v := (h.account v).mp (.inl hv)
  have hgone : ¬ Accounted (k.lost v g) d v := by
    rintro (hfree | hin)
    · cases hfree
    · refine h.tree.not_free (v := v) ?_ hv
      unfold InSpace at hin
      rw [hdir] at hin
      simp only [hent] at hin
      exact hin
  refine ⟨hSv, h.tree.congr hdir (fun n _ => by rw [hent]; exact ⟨Iff.rfl, rfl⟩) ⟨nodup_nil, fun _ hin => by cases hin⟩
    (fun _ _ hin => by cases hin), fun m hm hm' => ?_, fun u => ?_, fun u hu => h.sub u hu.1, fun u hu => ?_⟩
  · rw [hent, h.kern m hm hm']
  · rw [← h.account, hacc]
    constructor
    · intro hu
      refine ⟨.inl hu, ?_⟩
      rintro rfl
      exact hgone hu
    · rintro ⟨hu | hu, hne⟩
      · exact hu
      · exact absurd hu hne
  · have hne : u ≠ v := by
      rintro rfl
      exact hu (h.sub u hSv)
    rw [Kernel.lost, Kernel.setPage_mem, update_of_ne hne]
    exact h.mem u hu

theorem Held.cleared (hc : Cleared k k' d (k.mapped d lo hi)) (hhi : hi ≤ userPages) : Held k0 k' d S := by
  have hua := userPages_le
  have hfree := (hc.freesRange (by omega)).freed
  have hmem : ∀ u, u ∈ k'.freelist ↔ (∃ m ∈ k.mapped d lo hi, frame (k.entry d m) = u) ∨ u ∈ k.freelist := fun u => by
    rw [hfree, mem_append, mem_reverse, mem_map]
  have hleft : ∀ m < allPages, Present (k'.entry d m) → k'.entry d m = k.entry d m ∧ m ∉ k.mapped d lo hi :=
    fun m hm hpr => by
      have hent := hc.entry m hm
      split_ifs at hent with hin
      · rw [hent] at hpr
        exact absurd hpr not_present_zero
      · refine ⟨hent, fun hmap => hin ⟨hmap, ?_⟩⟩
        rw [hent] at hpr
        exact hpr
  have huser : ∀ m ∈ k.mapped d lo hi, m < userPages ∧ Present (k.entry d m) := fun m hm => by
    obtain ⟨-, hlt, hpr⟩ := mem_mapped.mp hm
    exact ⟨by omega, hpr⟩
  have hacc : ∀ u, Accounted k' d u ↔ Accounted k d u := fun u => by
    unfold Accounted InSpace
    rw [hmem, hc.dir]
    constructor
    · rintro ((⟨m, hm, rfl⟩ | hu) | rfl | hu | ⟨m, hm, hpr, rfl⟩)
      · exact .inr (.inr (.inr ⟨m, (huser m hm).1, (huser m hm).2, rfl⟩))
      · exact .inl hu
      · exact .inr (.inl rfl)
      · exact .inr (.inr (.inl hu))
      · obtain ⟨e, -⟩ := hleft m (by omega) hpr
        rw [e] at hpr ⊢
        exact .inr (.inr (.inr ⟨m, hm, hpr, rfl⟩))
    · rintro (hu | rfl | hu | ⟨m, hm, hpr, rfl⟩)
      · exact .inl (.inr hu)
      · exact .inr (.inl rfl)
      · exact .inr (.inr (.inl hu))
      · by_cases hin : m ∈ k.mapped d lo hi
        · exact .inl (.inl ⟨m, hin, rfl⟩)
        · have e := hc.entry m (by omega)
          rw [if_neg fun hx => hin hx.1] at e
          rw [← e] at hpr ⊢
          exact .inr (.inr (.inr ⟨m, hm, hpr, rfl⟩))
  have htree : Tree k' d := by
    refine ⟨⟨hc.tabled, ?_, fun m hm hpr hin => ?_⟩, fun m hm m' hm' hp hp' e => ?_, fun u hu => ?_⟩
    · rw [hfree, nodup_append]
      refine ⟨nodup_reverse.mpr (List.Nodup.map_on (fun m hm m' hm' e => ?_) ((nodup_range' 1).filter _)),
        h.tree.nodup, fun u hu w hw e => ?_⟩
      · obtain ⟨hlt, hpr⟩ := huser m hm
        obtain ⟨hlt', hpr'⟩ := huser m' hm'
        exact h.tree.sole m hlt m' hlt' hpr hpr' e
      · obtain ⟨m, hm, rfl⟩ := mem_map.mp (mem_reverse.mp hu)
        rw [← e] at hw
        exact h.tree.unused m (huser m hm).1 (huser m hm).2 hw
    · obtain ⟨e, hout⟩ := hleft m (by omega) hpr
      rw [e] at hpr hin
      obtain ⟨m', hm', e'⟩ | hin := (hmem _).mp hin
      · obtain ⟨hlt', hpr'⟩ := huser m' hm'
        obtain rfl := h.tree.sole m' hlt' m hm hpr' hpr e'
        exact hout hm'
      · exact h.tree.unused m hm hpr hin
    · obtain ⟨e1, -⟩ := hleft m (by omega) hp
      obtain ⟨e2, -⟩ := hleft m' (by omega) hp'
      rw [e1] at hp e
      rw [e2] at hp' e
      exact h.tree.sole m hm m' hm' hp hp' e
    · obtain hu | hu := (hacc u).mp (.inr hu)
      · exact (h.tree.free u hu).1
      · exact h.tree.page u hu
  refine ⟨htree, fun m hm hm' => ?_, fun u => (hacc u).trans (h.account u), h.sub, fun u hu => ?_⟩
  · rw [hc.entry m hm', if_neg, h.kern m hm hm']
    rintro ⟨hin, -⟩
    have := (huser m hin).1
    omega
  · have hno : ¬ Accounted k d u := fun ha => hu (h.sub u ((h.account u).mp ha))
    obtain ⟨-, hin⟩ := not_or.mp hno
    rw [hc.mem u (fun e => hin (.inl e)) (noTable_iff.mpr fun x hx hp e => hin (.inr (.inl ⟨x, hx, hp, e⟩)))
      (fun m hm hpr e => hin (.inr (.inr ⟨m, (huser m hm).1, hpr, e⟩))), h.mem u hu]

theorem Held.freevm : ∃ k', freevm k d = .ok k' ∧ (∀ v, v ∈ k'.freelist ↔ S v) ∧
    ∀ u ∉ k0.freelist, k'.mem u = k0.mem u := by
  obtain ⟨l, k', hf⟩ := h.tree.freesAll
  refine ⟨k', hf.result, fun v => ?_, fun u hu => ?_⟩
  · rw [hf.freelist, mem_append, mem_reverse, hf.frees, or_comm]
    exact h.account v
  · rw [hf.mem u fun hin => hu (h.sub u ((h.account u).mp (.inr hin))), h.mem u hu]

end

/-! ### Copying out -/

theorem rowsEntry_user {l : List (ℕ × ℕ × ℕ × ℕ)} {w : ℕ} (hl : ∀ m ∈ l, m.2.1 % 4096 = 0 ∧ m.2.2.2 < 4)
    (hw : w / 4 % 2 = 0) (n : ℕ) : rowsEntry l n w / 4 % 2 = 0 := by
  induction l generalizing w with
  | nil => exact hw
  | cons m l ih =>
    obtain ⟨hpa, hperm⟩ := hl m mem_cons_self
    refine ih (fun m hm => hl m (mem_cons_of_mem _ hm)) ?_
    unfold rowEntry
    split_ifs
    · refine kern_entry ?_ hperm
      unfold u32
      omega
    · exact hw

theorem kernEntry_kernel (n : ℕ) : kernEntry n / 4 % 2 = 0 := rowsEntry_user (by decide) rfl n

theorem Held.reach (h : Held k0 k d S) (hm : Reach k d m) : m % allPages < userPages := by
  by_contra hge
  obtain ⟨-, huser⟩ := hm
  rw [← entry_mod (Nat.mod_mod m allPages), h.kern _ (not_lt.mp hge) (Nat.mod_lt _ (by decide)),
    kernEntry_kernel] at huser
  cases huser

theorem Held.sealed (h : Held k0 k d S) : Sealed k d := by
  intro m hm
  have hmod := entry_mod (k := k) (d := d) (Nat.mod_mod m allPages)
  obtain ⟨-, hne, hnt⟩ := h.tree.user _ (h.reach hm) (by rw [hmod]; exact hm.1)
  rw [hmod] at hne hnt
  exact ⟨hne, hnt⟩

theorem Held.copied {data : ℕ → (ℕ → ℕ) → (ℕ → ℕ)} {j : ℕ} (h : Held k0 k d S) (hall : ∀ i < c, Reach k d (m + i)) :
    Held k0 (copied d data c m j k) d S := by
  induction c generalizing m j k with
  | zero => exact h
  | succ c ih =>
    have hm : Reach k d m := hall 0 (by omega)
    have hmod := entry_mod (k := k) (d := d) (Nat.mod_mod m allPages)
    obtain ⟨h1, hs⟩ := h.write (h.reach hm) (by rw [hmod]; exact hm.1) (data j (k.mem (frame (k.entry d m))))
    rw [hmod] at h1 hs
    refine ih h1 fun i hi => ?_
    rw [hs.reach, Nat.add_assoc, Nat.add_comm 1]
    exact hall (i + 1) (by omega)

theorem Held.copyout {data : ℕ → (ℕ → ℕ) → (ℕ → ℕ)} {va len : ℕ} {b : Bool} (h : Held k0 k d S)
    (hr : copyout k d va len data = .ok (b, k')) : Held k0 k' d S ∧ SameTables k k' d := by
  obtain ⟨c, -, hall, rfl, -⟩ := copyout_ok h.sealed hr
  exact ⟨h.copied hall, (copied_frame h.sealed hall).1⟩

end

end Xv6.Vm
