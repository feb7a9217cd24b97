import Xv6.Vm.Calls
import Xv6.Vm.Dealloc

/-! # What swapping does to one page table

`swapOut` empties a page table that stays where it is, and `swapIn` fills it again from the free list.
For this it does not matter what the other pages are used for, as long as the tables of the directory are
pages apart, neither free nor mapped (`Tabled`); then the loops of `deallocuvm`, `allocuvm` and `loaduvm`
can be followed exactly. -/

namespace Xv6.Vm

open Fallible Function

section
variable {k k' : Kernel} {d m v c : ℕ} {l : List ℕ} {writes : ℕ → Bool} {data : FileData} {p : Slot}

/-! ### `deallocuvm` -/

/-- Some entries have become empty. -/
structure Emptied (k k' : Kernel) (d lo sz : ℕ) : Prop where
  tabled : Tabled k' d
  dir : k'.mem d = k.mem d
  entry : ∀ n < allPages, k'.entry d n = if lo ≤ n ∧ 4096 * n < sz ∧ Present (k.entry d n) then 0 else k.entry d n

variable {n j : ℕ}

/-- The loop of `deallocuvm` where all tables are there. -/
theorem deallocLoop_emptied {sz : ℕ} (h : Tabled k d) (hsz : sz ≤ KERNBASE) (hfuel : sz ≤ 4096 * (m + n))
    (hp : ∀ i, m ≤ i → 4096 * i < sz → Present (k.pde d i)) :
    ∃ k', deallocLoop d sz n (4096 * m) k = .ok k' ∧ Emptied k k' d m sz := by
  have hua := userPages_le
  have hk := kernbase_eq
  obtain ⟨k', hr, hc⟩ := deallocLoop_cleared (n := n) (m := m) h
    (fun i => by omega : ∀ i, 4096 * i < sz ↔ i < (sz + 4095) / 4096) (by unfold userPages; omega)
  refine ⟨k', hr, hc.tabled, hc.dir, fun i hi => ?_⟩
  rw [hc.entry i hi]
  refine if_congr ⟨fun ⟨hin, hpr⟩ => ?_, fun ⟨h1, h2, hpr⟩ => ⟨?_, hpr⟩⟩ rfl rfl
  · obtain ⟨h1, h2⟩ := visits_ge hin
    exact ⟨h1, by omega, hpr⟩
  refine (mem_visits (by omega)).mpr ⟨h1, by omega, ?_, ?_⟩
  · exact (hasTable_page hi).mpr (pde_of_entry hpr)
  · rintro ⟨-, hlt, hall⟩
    have hnone := hall (m / 1024) (le_refl _) hlt
    rw [(hasTable_page (by omega)).mpr (hp m (le_refl m) (by omega))] at hnone
    cases hnone

/-! ### `allocuvm` -/

/-- `c` pages from page number `lo` on are mapped to pages from the free list. -/
structure Refilled (k k' : Kernel) (d lo c : ℕ) : Prop where
  tabled : Tabled k' d
  mapped : ∀ i < c, ∃ v, Page v ∧ k'.entry d (lo + i) = v2p v ||| (PTE_W ||| PTE_U ||| PTE_P)
  entry : ∀ n < allPages, n < lo ∨ lo + c ≤ n → k'.entry d n = k.entry d n

/-- `mappages` of a free page where the table is there. -/
theorem mappages_withPage (h : Tabled k d) (hl : k.freelist = v :: l) (hm : m < userPages) (hp : Present (k.pde d m)) :
    mappages (({ k with freelist := l } : Kernel).setPage v fun _ => 0) d (4096 * m) PGSIZE (v2p v) (PTE_W ||| PTE_U) =
      if Present (k.entry d m) then .error (.panic "remap") else .ok (true, k.withPage d m v l) := by
  obtain ⟨hpage, hne, hnt⟩ := h.free v (by rw [hl]; exact List.mem_cons_self)
  have e4 : 4096 * m / 4096 = m := by omega
  set k1 : Kernel := ({ k with freelist := l } : Kernel).setPage v fun _ => 0 with hk1
  have hdir : k1.mem d = k.mem d := by rw [hk1, Kernel.setPage_mem, update_of_ne hne.symm]
  have htab : k1.mem (frame (k.pde d m)) = k.mem (frame (k.pde d m)) := by
    rw [hk1, Kernel.setPage_mem, update_of_ne (hnt m hp)]
  have hwalk : walkpgdir k1 d (4096 * m) true = (some (frame (k.pde d m), m % 1024), k1) := by
    unfold walkpgdir
    dsimp only
    rw [pdx_eq, ptx_eq, e4, hdir, frame_eq]
    exact if_pos ((present_and _).mpr hp)
  rw [mappages_one (by omega) (by unfold userPages at hm; omega), mapLoop, hwalk]
  dsimp only
  rw [htab, ← entry_of_present hp]
  split_ifs with hand hpr hpr
  · rfl
  · exact absurd ((present_and _).mp hand) hpr
  · exact absurd ((present_and _).mpr hpr) hand
  · rfl

theorem allocLoop_page {oldsz newsz : ℕ} (h : Tabled k d) (hl : k.freelist = v :: l) (hm : m < userPages)
    (hp : Present (k.pde d m)) :
    allocLoop d oldsz newsz (c + 1) (4096 * m) k =
      if Present (k.entry d m) then .error (.panic "remap")
      else allocLoop d oldsz newsz c (4096 * (m + 1)) (k.withPage d m v l) := by
  have hnext : 4096 * m + PGSIZE = 4096 * (m + 1) := by unfold PGSIZE; omega
  rw [allocLoop, kalloc_cons hl]
  dsimp only
  rw [mappages_withPage h hl hm hp, hnext]
  split_ifs
  · rfl
  · rfl

theorem Refilled.present {i : ℕ} (hr : Refilled k k' d m c) (hi : i < c) : Present (k'.entry d (m + i)) := by
  obtain ⟨v, hv, he⟩ := hr.mapped i hi
  rw [he]
  exact hv.present_or (by decide) (by decide)

theorem Refilled.zero (h : Tabled k d) (m : ℕ) : Refilled k k d m 0 :=
  ⟨h, fun _ hi => by omega, fun _ _ _ => rfl⟩

theorem Refilled.succ (h : Tabled k d) (hl : k.freelist = v :: l) (hm : m < userPages)
    (hp : Present (k.pde d m)) (hr : Refilled (k.withPage d m v l) k' d (m + 1) c) :
    Refilled k k' d m (c + 1) := by
  have hua := userPages_le
  obtain ⟨-, hent⟩ := h.withPage_entry hl (by omega : m < allPages) hp
  refine ⟨hr.tabled, fun i hi => ?_, fun n hn hout => ?_⟩
  · cases i with
    | zero =>
      refine ⟨v, (h.free v (by rw [hl]; exact List.mem_cons_self)).1, ?_⟩
      rw [Nat.add_zero, hr.entry m (by omega) (by omega), hent m (by omega), if_pos rfl]
    | succ i =>
      rw [show m + (i + 1) = m + 1 + i by omega]
      exact hr.mapped i (by omega)
  · rw [hr.entry n hn (by omega), hent n hn, if_neg (by omega)]

/-- What the loop of `allocuvm` leaves where all tables are there. -/
theorem allocLoop_refilled {oldsz newsz r : ℕ} (h : Tabled k d) (hu : m + c ≤ userPages)
    (hp : ∀ i < c, Present (k.pde d (m + i))) (hr : allocLoop d oldsz newsz c (4096 * m) k = .ok (r, k'))
    (hr0 : r ≠ 0) : Refilled k k' d m c := by
  have hua := userPages_le
  induction c generalizing m k with
  | zero =>
    obtain ⟨-, rfl⟩ := pair_ok hr
    exact .zero h m
  | succ c ih =>
    cases hl : k.freelist with
    | nil =>
      rw [allocLoop, kalloc_nil hl] at hr
      obtain ⟨⟨sz, k1⟩, -, hr⟩ := bind_ok hr
      exact absurd (pair_ok hr).1.symm hr0
    | cons v l =>
      have hp0 : Present (k.pde d m) := hp 0 (by omega)
      rw [allocLoop_page h hl (by omega) hp0] at hr
      split_ifs at hr
      refine .succ h hl (by omega) hp0 (ih (h.withPage hl (by omega) hp0) (by omega) (fun i hi => ?_) hr)
      rw [pde_congr (h.withPage_entry hl (by omega) hp0).1, show m + 1 + i = m + (i + 1) by omega]
      exact hp (i + 1) (by omega)

/-! ### `loaduvm` -/

theorem loadLoop_page (hj : j < userPages) (hp : Present (k.pde d j)) :
    loadLoop d 0 data (n + 1) j k =
      if (data j (k.mem (frame (k.entry d j)))).1 = true then
        loadLoop d 0 data n (j + 1) (k.setPage (frame (k.entry d j)) (data j (k.mem (frame (k.entry d j)))).2)
      else .ok (false, k.setPage (frame (k.entry d j)) (data j (k.mem (frame (k.entry d j)))).2) := by
  have e4 : u32 (0 + j * PGSIZE) / 4096 = j := by
    unfold u32 PGSIZE userPages at *
    omega
  rw [loadLoop, walkpgdir_false, e4, if_pos hp]
  dsimp only
  rw [← entry_of_present hp, frame_eq]

/-- The loop of `loaduvm` leaves the page table as it is. -/
theorem loadLoop_entry {b : Bool} (h : Tabled k d) (hu : j + n ≤ userPages)
    (hpr : ∀ i < n, Present (k.entry d (j + i))) (hr : loadLoop d 0 data n j k = .ok (b, k')) (m : ℕ) :
    k'.entry d m = k.entry d m := by
  induction n generalizing j k with
  | zero =>
    obtain ⟨-, rfl⟩ := pair_ok hr
    rfl
  | succ n ih =>
    have hpr0 : Present (k.entry d j) := hpr 0 (by omega)
    obtain ⟨h', hent⟩ := h.setPage (by omega) hpr0 (data j (k.mem (frame (k.entry d j)))).2
    rw [loadLoop_page (by omega) (pde_of_entry hpr0)] at hr
    split_ifs at hr
    · rw [ih h' (by omega) (fun i hi => ?_) hr, hent]
      rw [hent, show j + 1 + i = j + (i + 1) by omega]
      exact hpr (i + 1) (by omega)
    · obtain ⟨-, rfl⟩ := pair_ok hr
      exact hent m

/-! ### `swapOut` and `swapIn` -/

/-- The number of pages of the process, the last one perhaps in part. -/
def Kernel.pagesOf (k : Kernel) (p : Slot) : ℕ := ((k.proc p).sz + PGSIZE - 1) / PGSIZE

theorem lt_pagesOf : m < k.pagesOf p ↔ 4096 * m < (k.proc p).sz := by
  unfold Kernel.pagesOf PGSIZE
  omega

/-- All calls of `filewrite` succeed. -/
def WritesAll (k : Kernel) (p : Slot) (writes : ℕ → Bool) : Prop := ∀ j < k.pagesOf p, writes j = true

theorem outLoop_page (hpr : Present (k.entry d j)) :
    outLoop d writes (n + 1) j k = if writes j = true then outLoop d writes n (j + 1) k else .ok false := by
  have e4 : j * PGSIZE / 4096 = j := by
    unfold PGSIZE
    omega
  have hp := pde_of_entry hpr
  rw [outLoop, walkpgdir_false, e4, if_pos hp]
  dsimp only
  rw [← entry_of_present hp, if_neg fun h0 => (present_and _).mpr hpr h0]

theorem outLoop_full {b : Bool} (hr : outLoop d writes n j k = .ok b)
    (hw : ∀ i < n, writes (j + i) = true) : ∀ i < n, Present (k.entry d (j + i)) := by
  induction n generalizing j with
  | zero => exact fun i hi => by omega
  | succ n ih =>
    have e4 : j * PGSIZE / 4096 = j := by
      unfold PGSIZE
      omega
    have hpos : ∀ i, j + (i + 1) = j + 1 + i := fun i => by omega
    have hpr : Present (k.entry d j) := by
      by_contra hnp
      rw [outLoop, walkpgdir_false, e4] at hr
      by_cases hp : Present (k.pde d j)
      · rw [if_pos hp] at hr
        dsimp only at hr
        rw [← entry_of_present hp, if_pos (not_not.mp (mt (present_and _).mp hnp))] at hr
        cases hr
      · rw [if_neg hp] at hr
        cases hr
    rw [outLoop_page hpr, if_pos (show writes j = true from hw 0 (by omega))] at hr
    intro i hi
    cases i with
    | zero => exact hpr
    | succ i =>
      rw [hpos]
      exact ih hr (fun i hi => by rw [← hpos]; exact hw (i + 1) (by omega)) i (by omega)

/-- With all pages there, the loop says whether every page has been written. -/
theorem outLoop_eq (writes : ℕ → Bool) (hpr : ∀ i < n, Present (k.entry d (j + i))) :
    outLoop d writes n j k = .ok (decide (∀ i < n, writes (j + i) = true)) := by
  induction n generalizing j with
  | zero => simp [outLoop]
  | succ n ih =>
    have hpos : ∀ i, j + 1 + i = j + (i + 1) := fun i => by omega
    rw [outLoop_page (show Present (k.entry d j) from hpr 0 (by omega))]
    split_ifs with hw
    · rw [ih fun i hi => by rw [hpos]; exact hpr (i + 1) (by omega)]
      congr 1
      refine decide_eq_decide.mpr ⟨fun hall i hi => ?_, fun hall i hi => ?_⟩
      · cases i with
        | zero => exact hw
        | succ i =>
          rw [← hpos]
          exact hall i (by omega)
      · rw [hpos]
        exact hall (i + 1) (by omega)
    · congr 1
      exact (decide_eq_false fun hall => hw (hall 0 (by omega))).symm

theorem swapOut_emptied (h : Tabled k (k.dirOf p)) (hsz : (k.proc p).sz ≤ KERNBASE)
    (hw : WritesAll k p writes) (hr : swapOut k p true writes = .ok k') :
    NoHoles k (k.dirOf p) (k.proc p).sz ∧ Emptied k k' (k.dirOf p) 0 (k.proc p).sz := by
  unfold swapOut at hr
  rw [if_neg (by decide)] at hr
  obtain ⟨ok, hout, hr⟩ := bind_ok hr
  have hw' : ∀ i < k.pagesOf p, writes (0 + i) = true := fun i hi => by
    rw [Nat.zero_add]
    exact hw i hi
  have hfull : NoHoles k (k.dirOf p) (k.proc p).sz := fun m hm => by
    have hpr := outLoop_full hout hw' m (lt_pagesOf.mpr hm)
    rwa [Nat.zero_add] at hpr
  have hout' := outLoop_eq (k := k) (d := k.dirOf p) writes (n := k.pagesOf p) (j := 0) fun i hi => by
    rw [Nat.zero_add]
    exact hfull i (lt_pagesOf.mp hi)
  rw [decide_eq_true hw'] at hout'
  obtain rfl := Except.ok.inj (hout.symm.trans hout')
  rw [if_pos rfl] at hr
  obtain ⟨⟨r, k1⟩, hde, hr⟩ := bind_ok hr
  obtain rfl := Except.ok.inj hr
  refine ⟨hfull, ?_⟩
  unfold deallocuvm at hde
  split_ifs at hde with hz
  · obtain ⟨-, rfl⟩ := pair_ok hde
    exact ⟨h, rfl, fun n _ => by rw [if_neg (by omega)]⟩
  · obtain ⟨k2, hloop, hde⟩ := bind_ok hde
    obtain ⟨-, rfl⟩ := pair_ok hde
    obtain ⟨k3, hloop', he⟩ := deallocLoop_emptied (m := 0) (n := (k.proc p).sz / PGSIZE + 1) h hsz
      (by unfold PGSIZE; omega) fun i _ hi => pde_of_entry (hfull i hi)
    obtain rfl := Except.ok.inj (hloop.symm.trans hloop')
    exact he

/-- `swapIn` when all goes well: the pages are there again. -/
theorem swapIn_refilled (h : Tabled k (k.dirOf p)) (hsz : (k.proc p).sz ≤ KERNBASE)
    (hp : ∀ m, 4096 * m < (k.proc p).sz → Present (k.pde (k.dirOf p) m))
    (hst : (k.proc p).state ≠ .running) (hr : swapIn k p true data = .ok k') (hrun : (k'.proc p).state = .running) :
    ∃ k1, Refilled k k1 (k.dirOf p) 0 (k.pagesOf p) ∧ k'.dirOf p = k.dirOf p ∧
      ∀ m, k'.entry (k.dirOf p) m = k1.entry (k.dirOf p) m := by
  have hu : 0 + k.pagesOf p ≤ userPages := by
    unfold Kernel.pagesOf PGSIZE userPages KERNBASE at *
    omega
  unfold swapIn at hr
  rw [if_neg (by decide)] at hr
  obtain ⟨⟨sz, k1⟩, hal, hr⟩ := bind_ok hr
  dsimp only at hr
  have hm1 := allocuvm_memOnly.ok hal
  have hstay : (k1.proc p).state ≠ .running := by
    rw [hm1.proc]
    exact hst
  split_ifs at hr with hz
  · obtain rfl := Except.ok.inj hr
    exact absurd hrun hstay
  obtain ⟨⟨b, k2⟩, hload, hr⟩ := bind_ok hr
  obtain rfl := Except.ok.inj hr
  have hm2 := loaduvm_memOnly.ok hload
  unfold allocuvm at hal
  split_ifs at hal with hbig hlt
  · exact absurd (pair_ok hal).1.symm hz
  · omega
  have hfill : Refilled k k1 (k.dirOf p) 0 (k.pagesOf p) :=
    allocLoop_refilled h hu (fun i hi => by rw [Nat.zero_add]; exact hp i (lt_pagesOf.mp hi)) hal hz
  have hdir : (k2.setProc p fun q => { q with state := .running }).dirOf p = k.dirOf p := by
    rw [Kernel.dirOf, setProc_self, hm2.proc, hm1.proc]
  refine ⟨k1, hfill, hdir, fun m => ?_⟩
  unfold loaduvm at hload
  rw [if_neg (by decide), hm1.proc] at hload
  refine Eq.trans ?_ (loadLoop_entry hfill.tabled hu (fun i hi => ?_) hload m)
  · exact congrFun (congrFun (entry_congr rfl) _) m
  · exact hfill.present hi

end

end Xv6.Vm
