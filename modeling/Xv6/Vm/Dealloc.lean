import Mathlib.Data.List.Sort
import Xv6.Vm.Start
import Xv6.Vm.Tabled

/-! # The pages that `deallocuvm` frees

Where a page table is missing, the loop of `deallocuvm` goes on by a whole table's worth of pages from where
it is (`visits`). If it is not at the start of the table there, it comes to the next table in the middle and
passes over the pages before (`PassedOver`). So `deallocuvm` frees all pages of its range exactly if none of
those it passes over is mapped (`deallocuvm_frees_iff`). -/

namespace Xv6.Vm

open Fallible List

/-- The page numbers below `hi` that the loop of `deallocuvm` comes to from `m` on and for which there is a
table; `tab x` says whether there is the `x`-th table. -/
def visits (tab : ℕ → Bool) (hi : ℕ) : ℕ → ℕ → List ℕ
  | 0, _ => []
  | n + 1, m =>
    if m < hi then
      if tab (m / 1024) = true then m :: visits tab hi n (m + 1) else visits tab hi n (m + 1024)
    else []

/-- The loop that starts at page number `m` passes over page number `i`: all tables from that of `m` up to that
of `i` are missing, and `i` lies in its table before the place of `m` in its own. -/
def PassedOver (tab : ℕ → Bool) (m i : ℕ) : Prop :=
  i % 1024 < m % 1024 ∧ m / 1024 < i / 1024 ∧ ∀ x, m / 1024 ≤ x → x < i / 1024 → tab x = false

/-! ### The way of the loop -/

section
variable {tab : ℕ → Bool} {hi n m i : ℕ}

theorem passedOver_succ (ht : tab (m / 1024) = true) : ¬ PassedOver tab (m + 1) i := by
  rintro ⟨hoff, hlt, hall⟩
  have htab : tab ((m + 1) / 1024) = false := hall _ (le_refl _) hlt
  rw [show (m + 1) / 1024 = m / 1024 by omega, ht] at htab
  cases htab

theorem not_passedOver (ht : tab (m / 1024) = true) : ¬ PassedOver tab m i := by
  rintro ⟨_, hlt, hall⟩
  have htab := hall _ (le_refl _) hlt
  rw [ht] at htab
  cases htab

theorem passedOver_skip (ht : tab (m / 1024) = false) (hi : tab (i / 1024) = true) :
    m + 1024 ≤ i ∧ ¬ PassedOver tab (m + 1024) i ↔ m ≤ i ∧ ¬ PassedOver tab m i := by
  have hne : i / 1024 ≠ m / 1024 := by
    intro e
    rw [e, ht] at hi
    cases hi
  constructor
  · rintro ⟨hle, hnot⟩
    refine ⟨by omega, fun ⟨hoff, hlt, hall⟩ => hnot ⟨by omega, by omega, fun x hx hx' => hall x (by omega) hx'⟩⟩
  · rintro ⟨hle, hnot⟩
    by_cases hfar : m + 1024 ≤ i
    · refine ⟨hfar, fun ⟨hoff, hlt, hall⟩ => hnot ⟨by omega, by omega, fun x hx hx' => ?_⟩⟩
      by_cases e : x = m / 1024
      · rw [e]
        exact ht
      · exact hall x (by omega) hx'
    · refine absurd ⟨by omega, by omega, fun x hx hx' => ?_⟩ hnot
      rw [show x = m / 1024 by omega]
      exact ht

/-- **What the loop comes to.** -/
theorem mem_visits (hn : hi ≤ m + n) :
    i ∈ visits tab hi n m ↔ m ≤ i ∧ i < hi ∧ tab (i / 1024) = true ∧ ¬ PassedOver tab m i := by
  induction n generalizing m with
  | zero =>
    refine iff_of_false not_mem_nil ?_
    rintro ⟨h1, h2, -⟩
    omega
  | succ n ih =>
    unfold visits
    split_ifs with hlt ht
    · rw [mem_cons, ih (by omega)]
      constructor
      · rintro (rfl | ⟨h1, h2, h3, -⟩)
        · exact ⟨le_refl i, hlt, ht, not_passedOver ht⟩
        · exact ⟨by omega, h2, h3, not_passedOver ht⟩
      · rintro ⟨h1, h2, h3, -⟩
        obtain rfl | hne := eq_or_ne i m
        · exact .inl rfl
        · exact .inr ⟨by omega, h2, h3, passedOver_succ ht⟩
    · rw [ih (by omega)]
      rw [Bool.not_eq_true] at ht
      constructor
      · rintro ⟨h1, h2, h3, h4⟩
        obtain ⟨h5, h6⟩ := (passedOver_skip ht h3).mp ⟨h1, h4⟩
        exact ⟨h5, h2, h3, h6⟩
      · rintro ⟨h1, h2, h3, h4⟩
        obtain ⟨h5, h6⟩ := (passedOver_skip ht h3).mpr ⟨h1, h4⟩
        exact ⟨h5, h2, h3, h6⟩
    · refine iff_of_false not_mem_nil ?_
      rintro ⟨h1, h2, -⟩
      omega

theorem visits_ge (h : i ∈ visits tab hi n m) : m ≤ i ∧ i < hi := by
  induction n generalizing m with
  | zero => cases h
  | succ n ih =>
    unfold visits at h
    split_ifs at h with hlt ht
    · obtain rfl | h := mem_cons.mp h
      · exact ⟨le_refl i, hlt⟩
      · exact ⟨by have := (ih h).1; omega, (ih h).2⟩
    · exact ⟨by have := (ih h).1; omega, (ih h).2⟩
    · cases h

theorem visits_pairwise : (visits tab hi n m).Pairwise (· < ·) := by
  induction n generalizing m with
  | zero => exact .nil
  | succ n ih =>
    unfold visits
    split_ifs
    · exact .cons (fun i h => (visits_ge h).1) ih
    · exact ih
    · exact .nil

end

/-! ### Unmapping the pages one after another -/

/-- The pages of the list are unmapped and freed, in this order, if they are there. -/
structure Cleared (k k' : Kernel) (d : ℕ) (l : List ℕ) : Prop where
  tabled : Tabled k' d
  dir : k'.mem d = k.mem d
  entry : ∀ n < allPages, k'.entry d n = if n ∈ l ∧ Present (k.entry d n) then 0 else k.entry d n
  freelist : k'.freelist =
    ((l.filter fun m => Present (k.entry d m)).map fun m => frame (k.entry d m)).reverse ++ k.freelist
  mem : ∀ u ≠ d, NoTable k d u → (∀ m ∈ l, Present (k.entry d m) → frame (k.entry d m) ≠ u) → k'.mem u = k.mem u

section
variable {k k' : Kernel} {d m sz n hi : ℕ} {l : List ℕ}

theorem Cleared.nil (h : Tabled k d) : Cleared k k d [] :=
  ⟨h, rfl, fun n _ => by rw [if_neg (by simp)], rfl, fun _ _ _ _ => rfl⟩

theorem Cleared.skip (hpr : ¬ Present (k.entry d m)) (h : Cleared k k' d l) : Cleared k k' d (m :: l) := by
  refine ⟨h.tabled, h.dir, fun n hn => ?_, ?_, fun u hu hnt hfr => ?_⟩
  · rw [h.entry n hn]
    refine if_congr (and_congr_left fun hp => ?_) rfl rfl
    have hne : n ≠ m := by
      rintro rfl
      exact hpr hp
    simp [hne]
  · rw [filter_cons_of_neg (by simpa using hpr)]
    exact h.freelist
  · exact h.mem u hu hnt fun m' hm' => hfr m' (mem_cons_of_mem m hm')

theorem Cleared.cons (h : Tabled k d) (hm : m < userPages) (hml : m ∉ l) (hl : ∀ m' ∈ l, m' < userPages)
    (hpr : Present (k.entry d m)) (hc : Cleared (k.unmapped d m) k' d l) : Cleared k k' d (m :: l) := by
  have hua := userPages_le
  obtain ⟨hdir, hent⟩ := h.unmapped_entry hm hpr
  have hsame : ∀ m' ∈ l, (k.unmapped d m).entry d m' = k.entry d m' := fun m' hm' => by
    have := hl m' hm'
    rw [hent m' (by omega), if_neg]
    rintro rfl
    exact hml hm'
  refine ⟨hc.tabled, hc.dir.trans hdir, fun n hn => ?_, ?_, fun u hu hnt hfr => ?_⟩
  · rw [hc.entry n hn, hent n hn]
    obtain rfl | hne := eq_or_ne n m
    · rw [if_neg (by simp [hml]), if_pos rfl, if_pos ⟨mem_cons_self, hpr⟩]
    · rw [if_neg hne]
      simp [hne]
  · have hfilter : (l.filter fun m' => Present ((k.unmapped d m).entry d m')) =
        l.filter fun m' => Present (k.entry d m') :=
      filter_congr fun m' hm' => by rw [hsame m' hm']
    have hmap : ((l.filter fun m' => Present (k.entry d m')).map fun m' => frame ((k.unmapped d m).entry d m')) =
        (l.filter fun m' => Present (k.entry d m')).map fun m' => frame (k.entry d m') :=
      map_congr_left fun m' hm' => by rw [hsame m' (mem_filter.mp hm').1]
    rw [hc.freelist, hfilter, hmap, filter_cons_of_pos (by simpa using hpr), map_cons, reverse_cons,
      append_assoc]
    rfl
  · have hnt' : NoTable (k.unmapped d m) d u := fun m' hp => by
      rw [pde_congr hdir] at hp ⊢
      exact hnt m' hp
    rw [hc.mem u hu hnt' fun m' hm' => by rw [hsame m' hm']; exact hfr m' (mem_cons_of_mem m hm')]
    rw [Kernel.unmapped, Kernel.store_mem, Function.update_of_ne (hnt m (pde_of_entry hpr)).symm,
      k.freed_mem_of_ne (hfr m mem_cons_self hpr).symm]

/-- The tables that a directory has. -/
def Kernel.hasTable (k : Kernel) (d x : ℕ) : Bool := decide (Present (k.mem d x))

theorem hasTable_page (hm : m < allPages) : k.hasTable d (m / 1024) = true ↔ Present (k.pde d m) := by
  unfold Kernel.hasTable Kernel.pde allPages at *
  rw [decide_eq_true_iff, Nat.mod_eq_of_lt (by omega : m / 1024 < 1024)]

theorem deallocLoop_page (hlt : 4096 * m < sz) (hp : Present (k.pde d m)) (h : Tabled k d) (hm : m < userPages) :
    deallocLoop d sz (n + 1) (4096 * m) k =
      deallocLoop d sz n (4096 * (m + 1)) (if Present (k.entry d m) then k.unmapped d m else k) := by
  have e4 : 4096 * m / 4096 = m := by omega
  have hnext : 4096 * m + PGSIZE = 4096 * (m + 1) := by unfold PGSIZE; omega
  rw [deallocLoop, if_pos hlt, walkpgdir_false, e4, if_pos hp]
  dsimp only
  rw [← entry_of_present hp, hnext, frame_eq]
  by_cases hpr : Present (k.entry d m)
  · have hpage := (h.user m hm hpr).1
    rw [if_pos hpr, if_pos ((present_and _).mpr hpr), if_neg hpage.pteAddr_ne, kfree_page hpage]
    rfl
  · rw [if_neg hpr, if_neg (mt (present_and _).mp hpr)]

theorem deallocLoop_table (hlt : 4096 * m < sz) (hp : ¬ Present (k.pde d m)) :
    deallocLoop d sz (n + 1) (4096 * m) k = deallocLoop d sz n (4096 * (m + 1024)) k := by
  have e4 : 4096 * m / 4096 = m := by omega
  have hnext : 4096 * m + (NPTENTRIES - 1) * PGSIZE + PGSIZE = 4096 * (m + 1024) := by
    unfold NPTENTRIES PGSIZE
    omega
  rw [deallocLoop, if_pos hlt, walkpgdir_false, e4, if_neg hp]
  dsimp only
  rw [hnext]

/-- The loop of `deallocuvm` unmaps what it comes to. -/
theorem deallocLoop_cleared (h : Tabled k d) (hhi : ∀ i, 4096 * i < sz ↔ i < hi) (hu : hi ≤ userPages) :
    ∃ k', deallocLoop d sz n (4096 * m) k = .ok k' ∧ Cleared k k' d (visits (k.hasTable d) hi n m) := by
  have hua := userPages_le
  induction n generalizing m k with
  | zero => exact ⟨k, rfl, .nil h⟩
  | succ n ih =>
    unfold visits
    split_ifs with hlt ht
    · have hp := (hasTable_page (by omega)).mp ht
      rw [deallocLoop_page ((hhi m).mpr hlt) hp h (by omega)]
      split_ifs with hpr
      · have hdir := (h.unmapped_entry (by omega) hpr).1
        obtain ⟨k', hr, hc⟩ := ih (m := m + 1) (h.unmapped (by omega) hpr)
        have htab : (k.unmapped d m).hasTable d = k.hasTable d := by
          unfold Kernel.hasTable
          rw [hdir]
        rw [htab] at hc
        refine ⟨k', hr, .cons h (by omega) (fun hm => ?_) (fun m' hm' => ?_) hpr hc⟩
        · have := (visits_ge hm).1
          omega
        · have := (visits_ge hm').2
          omega
      · obtain ⟨k', hr, hc⟩ := ih (m := m + 1) h
        exact ⟨k', hr, .skip hpr hc⟩
    · rw [deallocLoop_table ((hhi m).mpr hlt) (mt (hasTable_page (by omega)).mpr ht)]
      exact ih h
    · rw [deallocLoop, if_neg (mt (hhi m).mp hlt)]
      exact ⟨k, rfl, .nil h⟩

/-! ### `deallocuvm` -/

/-- The page numbers from `lo` up to `hi` that are mapped. -/
def Kernel.mapped (k : Kernel) (d lo hi : ℕ) : List ℕ :=
  (range' lo (hi - lo)).filter fun m => Present (k.entry d m)

/-- The whole range is unmapped: the frame of each page that was mapped there has been passed to `kfree`, in this
order, and the other mappings are as before. -/
structure FreesRange (k k' : Kernel) (d lo hi : ℕ) : Prop where
  gone : ∀ m, lo ≤ m → m < hi → ¬ Present (k'.entry d m)
  freed : k'.freelist = ((k.mapped d lo hi).map fun m => frame (k.entry d m)).reverse ++ k.freelist
  kept : ∀ m < allPages, m < lo ∨ hi ≤ m → k'.entry d m = k.entry d m

/-- In addition the frames are different: each has been passed to `kfree` exactly once. -/
structure FreesOnce (k k' : Kernel) (d lo hi : ℕ) : Prop extends FreesRange k k' d lo hi where
  once : ((k.mapped d lo hi).map fun m => frame (k.entry d m)).Nodup

variable {oldsz newsz : ℕ}

/-- `deallocuvm` returns, and unmaps what its loop comes to. -/
theorem deallocuvm_cleared (h : Tabled k d) (hlt : newsz < oldsz) (hsz : oldsz ≤ KERNBASE) :
    ∃ k', deallocuvm k d oldsz newsz = .ok (newsz, k') ∧
      Cleared k k' d (visits (k.hasTable d) ((oldsz + 4095) / 4096) (oldsz / PGSIZE + 1) ((newsz + 4095) / 4096)) := by
  have hk := kernbase_eq
  have hround : pgRoundUp newsz = 4096 * ((newsz + 4095) / 4096) := by
    unfold pgRoundUp u32 PGSIZE
    omega
  obtain ⟨k', hr, hc⟩ := deallocLoop_cleared (n := oldsz / PGSIZE + 1) (m := (newsz + 4095) / 4096) h
    (fun i => by omega : ∀ i, 4096 * i < oldsz ↔ i < (oldsz + 4095) / 4096) (by unfold userPages; omega)
  refine ⟨k', ?_, hc⟩
  unfold deallocuvm
  rw [if_neg (by omega), hround, hr]
  rfl

theorem mem_mapped {lo : ℕ} : m ∈ k.mapped d lo hi ↔ lo ≤ m ∧ m < hi ∧ Present (k.entry d m) := by
  unfold Kernel.mapped
  rw [mem_filter, mem_range'_1, decide_eq_true_iff, and_assoc]
  refine and_congr_right fun h => and_congr_left fun _ => ?_
  omega

/-- If it does not pass over a page that is mapped, it unmaps the whole range. -/
theorem deallocuvm_mapped (h : Tabled k d) (hlt : newsz < oldsz) (hsz : oldsz ≤ KERNBASE)
    (hnot : ∀ m, (newsz + 4095) / 4096 ≤ m → m < (oldsz + 4095) / 4096 → Present (k.entry d m) →
      ¬ PassedOver (k.hasTable d) ((newsz + 4095) / 4096) m) :
    ∃ k', deallocuvm k d oldsz newsz = .ok (newsz, k') ∧
      Cleared k k' d (k.mapped d ((newsz + 4095) / 4096) ((oldsz + 4095) / 4096)) := by
  have hk := kernbase_eq
  obtain ⟨k', hr, hc⟩ := deallocuvm_cleared h hlt hsz
  set lo := (newsz + 4095) / 4096 with hlo
  set hi := (oldsz + 4095) / 4096 with hhi
  have hfuel : hi ≤ lo + (oldsz / PGSIZE + 1) := by
    unfold PGSIZE
    omega
  have hmem : ∀ m, m ∈ visits (k.hasTable d) hi (oldsz / PGSIZE + 1) lo ∧ Present (k.entry d m) ↔
      m ∈ k.mapped d lo hi := fun m => by
    rw [mem_mapped]
    refine ⟨fun hm => ⟨(visits_ge hm.1).1, (visits_ge hm.1).2, hm.2⟩, fun ⟨hm1, hm2, hpr⟩ => ⟨?_, hpr⟩⟩
    have hall : m < allPages := by
      unfold allPages
      omega
    exact (mem_visits hfuel).mpr ⟨hm1, hm2, (hasTable_page hall).mpr (pde_of_entry hpr), hnot m hm1 hm2 hpr⟩
  have hpres : ∀ m ∈ k.mapped d lo hi, Present (k.entry d m) := fun m hm => (mem_mapped.mp hm).2.2
  refine ⟨k', hr, hc.tabled, hc.dir, fun n hn => ?_, ?_, fun u hu hnt hfr => hc.mem u hu hnt fun m hm hpr =>
    hfr m ((hmem m).mp ⟨hm, hpr⟩) hpr⟩
  · rw [hc.entry n hn]
    refine if_congr ?_ rfl rfl
    rw [hmem]
    exact ⟨fun hm => ⟨hm, hpres n hm⟩, fun hm => hm.1⟩
  · have hlist : (visits (k.hasTable d) hi (oldsz / PGSIZE + 1) lo).filter (fun m => Present (k.entry d m)) =
        (k.mapped d lo hi).filter fun m => Present (k.entry d m) := by
      refine (visits_pairwise.filter _).eq_of_mem_iff (((pairwise_lt_range' 1).filter _).filter _) fun m => ?_
      rw [mem_filter, mem_filter, decide_eq_true_iff, hmem]
      exact ⟨fun hm => ⟨hm, hpres m hm⟩, fun hm => hm.1⟩
    rw [hc.freelist, hlist]

theorem Cleared.freesRange {lo : ℕ} (hc : Cleared k k' d (k.mapped d lo hi)) (hhi : hi ≤ allPages) :
    FreesRange k k' d lo hi := by
  refine ⟨fun m hm1 hm2 hpr => ?_, ?_, fun m hm hout => ?_⟩
  · rw [hc.entry m (by omega)] at hpr
    split_ifs at hpr with hin
    · exact not_present_zero hpr
    · exact hin ⟨mem_mapped.mpr ⟨hm1, hm2, hpr⟩, hpr⟩
  · rw [hc.freelist, filter_eq_self.mpr fun m hm => decide_eq_true (mem_mapped.mp hm).2.2]
  · rw [hc.entry m hm, if_neg]
    rintro ⟨hin, -⟩
    have := mem_mapped.mp hin
    omega

/-- **`deallocuvm` frees the whole range**, each frame once, exactly if it does not pass over a page that is mapped
and no frame is mapped twice. -/
theorem deallocuvm_frees_iff (h : Tabled k d) (hlt : newsz < oldsz) (hsz : oldsz ≤ KERNBASE) :
    (∃ k', deallocuvm k d oldsz newsz = .ok (newsz, k') ∧
        FreesOnce k k' d ((newsz + 4095) / 4096) ((oldsz + 4095) / 4096)) ↔
      (∀ m, (newsz + 4095) / 4096 ≤ m → m < (oldsz + 4095) / 4096 → Present (k.entry d m) →
        ¬ PassedOver (k.hasTable d) ((newsz + 4095) / 4096) m) ∧
      ∀ m ∈ k.mapped d ((newsz + 4095) / 4096) ((oldsz + 4095) / 4096),
        ∀ n ∈ k.mapped d ((newsz + 4095) / 4096) ((oldsz + 4095) / 4096),
          frame (k.entry d m) = frame (k.entry d n) → m = n := by
  have hk := kernbase_eq
  have hall : (oldsz + 4095) / 4096 ≤ allPages := by
    unfold allPages
    omega
  have honce := nodup_map_iff_inj_on (f := fun m => frame (k.entry d m))
    (Nodup.filter _ nodup_range' : (k.mapped d ((newsz + 4095) / 4096) ((oldsz + 4095) / 4096)).Nodup)
  constructor
  · rintro ⟨k'', hr', hfree⟩
    refine ⟨fun m hm1 hm2 hpr hpass => ?_, honce.mp hfree.once⟩
    obtain ⟨k', hr, hc⟩ := deallocuvm_cleared h hlt hsz
    obtain ⟨-, rfl⟩ := Prod.mk.inj (Except.ok.inj (hr.symm.trans hr'))
    have hfuel : (oldsz + 4095) / 4096 ≤ (newsz + 4095) / 4096 + (oldsz / PGSIZE + 1) := by
      unfold PGSIZE
      omega
    refine hfree.gone m hm1 hm2 ?_
    rw [hc.entry m (by omega), if_neg fun e => ((mem_visits hfuel).mp e.1).2.2.2 hpass]
    exact hpr
  · rintro ⟨hnot, hinj⟩
    obtain ⟨k', hr, hc⟩ := deallocuvm_mapped h hlt hsz hnot
    exact ⟨k', hr, hc.freesRange hall, honce.mpr hinj⟩

/-- The one page of init. -/
theorem deallocuvm_frees_init : ∃ k', deallocuvm boot (boot.dirOf initproc) 4096 0 = .ok (0, k') ∧
    FreesOnce boot k' (boot.dirOf initproc) 0 1 := by
  have h : Tabled boot (boot.dirOf initproc) := inv_boot.wf.tabled (inv_boot.dir initproc (by decide))
  refine (deallocuvm_frees_iff h (by decide) (by decide)).mpr ⟨fun m _ _ _ hpass => ?_, fun m hm n hn _ => ?_⟩
  · exact absurd hpass.1 (by omega)
  · have hm := mem_mapped.mp hm
    have hn := mem_mapped.mp hn
    omega

/-- Init has a page at 8 MB and no table for the 4 MB before. Freeing from one page above 4 MB on leaves it
mapped. -/
theorem deallocuvm_passes_over : ∃ k d, Tabled k d ∧ Present (k.entry d 2048) ∧
    ∃ k', deallocuvm k d (4096 * 2049) (4096 * 1025) = .ok (4096 * 1025, k') ∧
      ¬ FreesOnce k k' d 1025 2049 := by
  have hd := inv_boot.dir initproc (by decide)
  have htest : (mappages (({ boot with freelist := boot.freelist.tail } : Kernel).setPage (top 134) fun _ => 0)
      (boot.dirOf initproc) (4096 * 2048) PGSIZE (v2p (top 134)) (PTE_W ||| PTE_U)).toOption.map
        (fun r => r.1 && !r.2.hasTable (boot.dirOf initproc) 1) = some true := by decide +kernel
  obtain ⟨⟨b, k⟩, hr, hb⟩ := Option.map_eq_some_iff.mp htest
  obtain ⟨rfl, htab⟩ := Bool.and_eq_true_iff.mp hb
  have hr : mappages _ _ _ _ _ _ = .ok (true, k) := toOption_some hr
  obtain ⟨own', hrs, -, hcase⟩ := map_new inv_boot.wf hd (l := boot.freelist.tail) rfl (by decide) hr
  obtain ⟨hfalse, -⟩ | ⟨-, -, hpr, -⟩ := hcase
  · cases hfalse
  have h : Tabled k (boot.dirOf initproc) := hrs.wf.tabled hrs.dir
  obtain ⟨k', hr', hc⟩ := deallocuvm_cleared h (by decide : 4096 * 1025 < 4096 * 2049) (by decide)
  refine ⟨k, _, h, hpr, k', hr', fun hfree => hfree.gone 2048 (by decide) (by decide) ?_⟩
  rw [hc.entry 2048 (by decide), if_neg]
  · exact hpr
  rintro ⟨hin, -⟩
  refine ((mem_visits (by decide)).mp hin).2.2.2 ⟨by decide, by decide, fun x hx hx' => ?_⟩
  obtain rfl : x = 1 := by omega
  simpa using htab

end

end Xv6.Vm
