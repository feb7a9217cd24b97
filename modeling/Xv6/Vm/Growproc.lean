import Xv6.Vm.Grow

/-! # `growproc`

`growproc` adds the signed `n` to the unsigned size and takes a result of 0 for an error. So it fails to shrink a
process to nothing, after freeing all of its memory, and takes a request for less than nothing for one that
changes nothing (`deallocuvm` sees a larger size). Growing inherits the page that `allocuvm` loses, if it
is the last one. In every other case the call is exact, and leaves everything as it was if it fails
(`growproc_exact_iff`). -/

namespace Xv6.Vm

open Fallible Function

/-- The memory of process `p` is the pages below its size. -/
def Whole (k : Kernel) (p : Slot) (sz : ℕ) : Prop :=
  ∀ m < userPages, Present (k.entry (k.dirOf p) m) ↔ m < (sz + 4095) / 4096

/-- What `growproc(n)` should do with the result `r`. -/
structure GrowExact (k k' : Kernel) (p : Slot) (n r : ℤ) : Prop where
  result : r = 0 ∨ r = -1
  grown : r = 0 → 0 ≤ (k.proc p).sz + n ∧ (k.proc p).sz + n < KERNBASE ∧
    ((k'.proc p).sz : ℤ) = (k.proc p).sz + n ∧ k'.dirOf p = k.dirOf p ∧ Whole k' p (k'.proc p).sz
  same : r = -1 → (k'.proc p).sz = (k.proc p).sz ∧ k'.dirOf p = k.dirOf p ∧ SameMappings k k' (k.dirOf p)
  refused : (k.proc p).sz + n < 0 ∨ KERNBASE ≤ (k.proc p).sz + n → r = -1

section
variable {k k1 : Kernel} {p : Slot} {n : ℤ} {r sz : ℕ}

/-- What is left to do when the memory has been resized. -/
theorem growproc_resized (hr : (if n > 0 then allocuvm k (k.dirOf p) (k.proc p).sz sz
      else if n < 0 then deallocuvm k (k.dirOf p) (k.proc p).sz sz else .ok ((k.proc p).sz, k)) = .ok (r, k1))
    (hsz : u32 (((k.proc p).sz : ℤ) + n + 2 ^ 32).toNat = sz) :
    growproc k p n = if n ≠ 0 ∧ r = 0 then .ok (-1, k1) else .ok (0, k1.setProc p fun q => { q with sz := r }) := by
  unfold growproc
  dsimp only
  rw [hsz]
  unfold Kernel.dirOf at hr
  rw [hr]
  rfl

theorem GrowExact.of_resized (hmo : MemOnly k k1) (h0 : 0 ≤ (k.proc p).sz + n) (h1 : (k.proc p).sz + n < KERNBASE)
    (hr : (r : ℤ) = (k.proc p).sz + n) (hw : Whole k1 p r) :
    GrowExact k (k1.setProc p fun q => { q with sz := r }) p n 0 := by
  have hd : (k1.setProc p fun q => { q with sz := r }).dirOf p = k1.dirOf p := by
    unfold Kernel.dirOf
    rw [Kernel.setProc_proc, update_self]
  have hs : ((k1.setProc p fun q => { q with sz := r }).proc p).sz = r := by
    rw [Kernel.setProc_proc, update_self]
  refine ⟨.inl rfl, fun _ => ⟨h0, h1, ?_, ?_, ?_⟩, fun e => by omega, fun e => by omega⟩
  · rw [hs, hr]
  · rw [hd]
    unfold Kernel.dirOf
    rw [hmo.proc]
  · rw [hs]
    intro m hm
    rw [hd]
    exact hw m hm

theorem GrowExact.of_failed (hmo : MemOnly k k1) (hsame : SameMappings k k1 (k.dirOf p)) : GrowExact k k1 p n (-1) := by
  refine ⟨.inr rfl, fun e => by omega, fun _ => ⟨by rw [hmo.proc], ?_, hsame⟩, fun _ => rfl⟩
  unfold Kernel.dirOf
  rw [hmo.proc]

/-! ### The three cases -/

/-- The last page of the range is the one that `allocuvm` loses. -/
def LosesLast (k : Kernel) (p : Slot) (sz : ℕ) : Prop :=
  ∃ m, ((k.proc p).sz + 4095) / 4096 ≤ m ∧ m + 1 = (sz + 4095) / 4096 ∧
    Starved k (k.dirOf p) (((k.proc p).sz + 4095) / 4096) m

theorem Starved.unique {k : Kernel} {d lo m m' : ℕ} (h : Starved k d lo m) (h' : Starved k d lo m') (hlo : lo ≤ m)
    (hlt : m < m') : False := by
  have hlen := h.length
  have hlen' := h'.length
  have hle := missingTables_mono k d lo (by omega : m ≤ m')
  omega

theorem growproc_grow (h : Apart k (k.dirOf p)) (hw : Whole k p (k.proc p).sz) (hn : 0 < n)
    (hsz : ((k.proc p).sz : ℤ) + n = sz) (hlt : sz < KERNBASE) :
    (∃ r k', growproc k p n = .ok (r, k') ∧ GrowExact k k' p n r) ↔ ¬ LosesLast k p sz := by
  have hk := kernbase_eq
  have hua := userPages_le
  have hhi : (sz + 4095) / 4096 ≤ userPages := by
    unfold userPages
    omega
  have hu32 : u32 (((k.proc p).sz : ℤ) + n + 2 ^ 32).toNat = sz := by
    unfold u32
    omega
  have hnew : ∀ m, ((k.proc p).sz + 4095) / 4096 ≤ m → m < (sz + 4095) / 4096 → ¬ Present (k.entry (k.dirOf p) m) :=
    fun m hm1 hm2 hpr => by
      have := (hw m (by omega)).mp hpr
      omega
  obtain ⟨c, k1, hc, hg, hcase⟩ := allocuvm_cases h (by omega : (k.proc p).sz ≤ sz) hlt hnew
  obtain ⟨e, hr⟩ | ⟨hcl, hl, hr⟩ | ⟨v, hcl, hl, hp, hr⟩ := hcase
  · refine iff_of_true ⟨0, _, ?_, .of_resized (allocuvm_memOnly.ok hr) (by omega) (by omega) hsz.symm fun m hm => ?_⟩ ?_
    · rw [growproc_resized (by rw [if_pos hn]; exact hr) hu32, if_neg (by omega)]
    · have hd : k1.dirOf p = k.dirOf p := by
        unfold Kernel.dirOf
        rw [(allocuvm_memOnly.ok hr).proc]
      rw [hd]
      by_cases hin : ((k.proc p).sz + 4095) / 4096 ≤ m ∧ m < ((k.proc p).sz + 4095) / 4096 + c
      · exact iff_of_true (hg.page h hin.1 hin.2).1 (by omega)
      · rw [hg.old m (by omega) (by omega), hw m hm]
        omega
    · rintro ⟨m, hm1, hm2, hs⟩
      exact hg.not_starved (by omega) hm1 (by omega) hs
  · have hst : Stuck k k1 k1 (k.dirOf p) (((k.proc p).sz + 4095) / 4096) c _ :=
      ⟨hg, hg.apart.toTabled, rfl, fun _ => rfl⟩
    obtain ⟨k', hr', hsame, -⟩ := hst.rollback h hcl hlt hnew
    have hr := hr.trans hr'
    refine iff_of_true ⟨-1, k', ?_, .of_failed (allocuvm_memOnly.ok hr) hsame⟩ ?_
    · rw [growproc_resized (by rw [if_pos hn]; exact hr) hu32, if_pos ⟨by omega, rfl⟩]
    · rintro ⟨m, hm1, hm2, hs⟩
      exact hg.not_starved_of_nil hl (by omega) hs
  · have hstarved := hg.starved (by omega) hl hp
    have hst := Stuck.of_lost hg hl fun _ => 0
    split_ifs at hr with hlast
    · refine iff_of_false ?_ fun hnot => hnot ⟨_, by omega, hlast, hstarved⟩
      rintro ⟨r, k', hgp, hexact⟩
      rw [growproc_resized (by rw [if_pos hn]; exact hr) hu32, if_neg (by omega)] at hgp
      obtain ⟨rfl, rfl⟩ := Prod.mk.inj (Except.ok.inj hgp)
      obtain ⟨-, -, hsz', hd, hw'⟩ := hexact.grown rfl
      have hpr := (hw' (((k.proc p).sz + 4095) / 4096 + c) (by omega)).mpr (by omega)
      rw [hd] at hpr
      have hpr : Present ((k1.lost v fun _ => 0).entry (k.dirOf p) (((k.proc p).sz + 4095) / 4096 + c)) := hpr
      rw [hst.entry] at hpr
      exact hp (pde_of_entry hpr)
    · obtain ⟨k', hr', hsame, -⟩ := hst.rollback h hcl hlt hnew
      have hr := hr.trans hr'
      refine iff_of_true ⟨-1, k', ?_, .of_failed (allocuvm_memOnly.ok hr) hsame⟩ ?_
      · rw [growproc_resized (by rw [if_pos hn]; exact hr) hu32, if_pos ⟨by omega, rfl⟩]
      · rintro ⟨m, hm1, hm2, hs⟩
        exact hstarved.unique hs (by omega) (by omega)

theorem growproc_shrink (h : Apart k (k.dirOf p)) (hw : Whole k p (k.proc p).sz) (hb : (k.proc p).sz < KERNBASE)
    (hn : n < 0) (hsz : ((k.proc p).sz : ℤ) + n = sz) :
    ∃ k1, deallocuvm k (k.dirOf p) (k.proc p).sz sz = .ok (sz, k1) ∧ Whole k1 p sz ∧
      growproc k p n = if sz = 0 then .ok (-1, k1) else .ok (0, k1.setProc p fun q => { q with sz := sz }) := by
  have hk := kernbase_eq
  have hua := userPages_le
  have hhi : ((k.proc p).sz + 4095) / 4096 ≤ userPages := by
    unfold userPages
    omega
  have hu32 : u32 (((k.proc p).sz : ℤ) + n + 2 ^ 32).toNat = sz := by
    unfold u32
    omega
  obtain ⟨k1, hr, hc⟩ := deallocuvm_range h.toTabled (by omega : sz < (k.proc p).sz) (by omega)
    fun m hm1 hm2 _ => (hw _ (by omega)).mpr (by omega)
  have hfree := hc.freesRange (by omega)
  refine ⟨k1, hr, fun m hm => ?_, ?_⟩
  · have hd : k1.dirOf p = k.dirOf p := by
      unfold Kernel.dirOf
      rw [(deallocuvm_memOnly.ok hr).proc]
    rw [hd]
    by_cases hin : (sz + 4095) / 4096 ≤ m ∧ m < ((k.proc p).sz + 4095) / 4096
    · exact iff_of_false (hfree.gone m hin.1 hin.2) (by omega)
    · rw [hfree.kept m (by omega) (by omega), hw m hm]
      omega
  · rw [growproc_resized (by rw [if_neg (by omega), if_pos hn]; exact hr) hu32]
    exact if_congr (and_iff_right (by omega)) rfl rfl

theorem growproc_below (hb : (k.proc p).sz < KERNBASE) (hn : -2 ^ 31 ≤ n) (hsz : ((k.proc p).sz : ℤ) + n < 0) :
    growproc k p n = if (k.proc p).sz = 0 then .ok (-1, k)
      else .ok (0, k.setProc p fun q => { q with sz := (k.proc p).sz }) := by
  have hk := kernbase_eq
  have hr : deallocuvm k (k.dirOf p) (k.proc p).sz (u32 (((k.proc p).sz : ℤ) + n + 2 ^ 32).toNat) =
      .ok ((k.proc p).sz, k) := by
    unfold deallocuvm
    rw [if_pos]
    unfold u32
    omega
  rw [growproc_resized (by rw [if_neg (by omega), if_pos (by omega)]; exact hr) rfl]
  exact if_congr (and_iff_right (by omega)) rfl rfl

theorem SameMappings.refl (k : Kernel) (d : ℕ) : SameMappings k k d := fun _ _ => ⟨Iff.rfl, fun _ => rfl⟩

/-- **`growproc` is exact**, and changes nothing if it fails, unless a process with memory is to shrink to nothing or
less, or memory runs out at the table of the last page. -/
theorem growproc_exact_iff (h : Apart k (k.dirOf p)) (hw : Whole k p (k.proc p).sz) (hb : (k.proc p).sz < KERNBASE)
    (hn1 : -2 ^ 31 ≤ n) (hn2 : n < 2 ^ 31) :
    (∃ r k', growproc k p n = .ok (r, k') ∧ GrowExact k k' p n r) ↔
      ¬ (n < 0 ∧ 0 < (k.proc p).sz ∧ (k.proc p).sz + n ≤ 0) ∧
      ¬ (0 < n ∧ (k.proc p).sz + n < KERNBASE ∧ LosesLast k p ((k.proc p).sz + n.toNat)) := by
  have hk := kernbase_eq
  obtain hneg | rfl | hpos := lt_trichotomy n 0
  · have hno : ¬ (0 < n ∧ (k.proc p).sz + n < KERNBASE ∧ LosesLast k p ((k.proc p).sz + n.toNat)) := by omega
    rw [and_iff_left hno]
    by_cases hlt : ((k.proc p).sz : ℤ) + n < 0
    · rw [growproc_below hb hn1 hlt]
      split_ifs with h0
      · exact iff_of_true ⟨-1, k, rfl, .of_failed (.refl k) (.refl k _)⟩ (by omega)
      · refine iff_of_false ?_ (by omega)
        rintro ⟨r, k', hr, hexact⟩
        obtain ⟨rfl, -⟩ := Prod.mk.inj (Except.ok.inj hr)
        have := (hexact.grown rfl).1
        omega
    · obtain ⟨sz, hsz⟩ := Int.eq_ofNat_of_zero_le (not_lt.mp hlt)
      obtain ⟨k1, hr, hw1, hgp⟩ := growproc_shrink h hw hb hneg hsz
      rw [hgp]
      split_ifs with h0
      · refine iff_of_false ?_ (by omega)
        rintro ⟨r, k', hr', hexact⟩
        obtain ⟨rfl, rfl⟩ := Prod.mk.inj (Except.ok.inj hr')
        obtain ⟨-, hd, hsame⟩ := hexact.same rfl
        have hpr := (hw 0 (by decide)).mpr (by omega)
        have hgone := (hsame 0 (by decide)).1.mpr hpr
        rw [← hd, hw1 0 (by decide)] at hgone
        omega
      · exact iff_of_true ⟨0, _, rfl, .of_resized (deallocuvm_memOnly.ok hr) (by omega) (by omega) hsz.symm hw1⟩ (by omega)
  · refine iff_of_true ⟨0, _, ?_, .of_resized (.refl k) (by omega) (by omega) (by omega) hw⟩ (by omega)
    rw [growproc_resized (if_neg (by omega)) rfl, if_neg (by omega)]
  · have hno : ¬ (n < 0 ∧ 0 < (k.proc p).sz ∧ (k.proc p).sz + n ≤ 0) := by omega
    rw [and_iff_right hno]
    by_cases hbig : ((k.proc p).sz : ℤ) + n < KERNBASE
    · rw [growproc_grow h hw hpos
        (by omega : ((k.proc p).sz : ℤ) + n = ((k.proc p).sz + n.toNat : ℕ)) (by omega)]
      exact not_congr ⟨fun hl => ⟨hpos, hbig, hl⟩, fun hl => hl.2.2⟩
    · refine iff_of_true ⟨-1, k, ?_, .of_failed (.refl k) (.refl k _)⟩ fun hl => hbig hl.2.1
      have hr : allocuvm k (k.dirOf p) (k.proc p).sz (u32 (((k.proc p).sz : ℤ) + n + 2 ^ 32).toNat) = .ok (0, k) := by
        unfold allocuvm
        rw [if_pos]
        unfold u32
        omega
      rw [growproc_resized (by rw [if_pos hpos]; exact hr) rfl, if_pos ⟨by omega, rfl⟩]

theorem boot_whole : Whole boot initproc (boot.proc initproc).sz := by
  intro m hm
  have hua := userPages_le
  change Present (boot.entry (top 1) m) ↔ m < 1
  constructor
  · intro hpr
    obtain e | ⟨-, rfl, -⟩ | ⟨hge, -⟩ := boot_entry (.inl rfl) (by omega : m < allPages)
    · rw [e] at hpr
      exact absurd hpr not_present_zero
    · exact Nat.one_pos
    · omega
  · intro h0
    obtain rfl : m = 0 := by omega
    decide +kernel

/-- Init grows by one page. -/
theorem growproc_exact_init : ∃ r k', growproc boot initproc 4096 = .ok (r, k') ∧ GrowExact boot k' initproc 4096 r := by
  have h : Apart boot (boot.dirOf initproc) := inv_boot.wf.apart (inv_boot.dir initproc (by decide))
  refine (growproc_exact_iff h boot_whole (by decide) (by decide) (by decide)).mpr ⟨by decide, ?_⟩
  rintro ⟨-, -, m, hm1, hm2, hs⟩
  obtain rfl : m = 1 := Nat.succ.inj hm2
  exact hs.table (by decide +kernel)

/-- Init shrinks by its size, and by more: all of its memory is gone, and `growproc` reports failure; nothing
changes, and it reports success. -/
theorem growproc_to_nothing : ∃ k, Apart k (k.dirOf initproc) ∧ Whole k initproc (k.proc initproc).sz ∧
    (∃ k', growproc k initproc (-4096) = .ok (-1, k') ∧ ¬ GrowExact k k' initproc (-4096) (-1)) ∧
    ∃ k', growproc k initproc (-4097) = .ok (0, k') ∧ ¬ GrowExact k k' initproc (-4097) 0 := by
  have h : Apart boot (boot.dirOf initproc) := inv_boot.wf.apart (inv_boot.dir initproc (by decide))
  refine ⟨boot, h, boot_whole, ?_, ?_⟩
  · obtain ⟨k1, -, hw1, hgp⟩ := growproc_shrink h boot_whole (by decide) (by decide)
      (by decide : ((boot.proc initproc).sz : ℤ) + -4096 = (0 : ℕ))
    refine ⟨k1, hgp, fun hexact => ?_⟩
    obtain ⟨-, hd, hsame⟩ := hexact.same rfl
    have hgone := (hsame 0 (by decide)).1.mpr ((boot_whole 0 (by decide)).mpr (by decide))
    rw [← hd, hw1 0 (by decide)] at hgone
    omega
  · refine ⟨_, growproc_below (by decide) (by decide) (by decide), fun hexact => ?_⟩
    exact absurd (hexact.grown rfl).1 (by decide)

end

end Xv6.Vm
