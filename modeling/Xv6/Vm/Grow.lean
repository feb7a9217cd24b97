import Xv6.Vm.Dealloc
import Xv6.Vm.Mapping

/-! # `allocuvm` when memory runs out

`allocuvm` maps new pages one after another (`Grows`). It looks at the result of `kalloc`, and takes everything
back when there is none left, but not at the result of `mappages`: if the last free page is taken for a page
whose table is missing (`Starved`), this page is lost, and if it is the last one of the range `allocuvm` even
reports success. Apart from this one number of free pages it keeps to its contract
(`allocuvm_contract_iff`). -/

namespace Xv6.Vm

open Fallible Finset Option

/-- `c` pages from page number `lo` on have been mapped to pages from the free list, page number `m` to one
that holds `f m`. -/
structure Grows (k k' : Kernel) (d lo c : ℕ) (f : ℕ → ℕ → ℕ) : Prop extends Takes k k' d where
  apart : Apart k' d
  old : ∀ n < allPages, n < lo ∨ lo + c ≤ n → k'.entry d n = k.entry d n
  new : ∀ n, lo ≤ n → n < lo + c → ∃ v ∈ k.freelist, k'.entry d n = v2p v ||| (PTE_W ||| PTE_U ||| PTE_P) ∧
    k'.mem v = f n
  inj : ∀ n n', lo ≤ n → n < lo + c → lo ≤ n' → n' < lo + c →
    frame (k'.entry d n) = frame (k'.entry d n') → n = n'
  tables : ∀ x < 1024, Present (k'.mem d x) ↔ Present (k.mem d x) ∨ ∃ n, lo ≤ n ∧ n < lo + c ∧ x = n / 1024
  length : k'.freelist.length + c + (missingTables k d lo (lo + c)).card = k.freelist.length
  account : ∀ u, Accounted k' d u ↔ Accounted k d u

section
variable {k k' k1 : Kernel} {d lo c m v oldsz newsz : ℕ} {l : List ℕ} {f : ℕ → ℕ → ℕ}

theorem Grows.zero (h : Apart k d) (lo : ℕ) (f : ℕ → ℕ → ℕ) : Grows k k d lo 0 f := by
  refine ⟨.refl k d, h, fun _ _ _ => rfl, fun n _ _ => by omega, fun n _ _ _ _ => by omega, fun x _ => ?_, ?_,
    fun _ => Iff.rfl⟩
  · refine ⟨.inl, ?_⟩
    rintro (hp | ⟨n, h1, h2, -⟩)
    · exact hp
    · omega
  · unfold missingTables
    rw [Nat.add_zero, Nat.add_zero, Finset.Ico_self]
    rfl

theorem Grows.congr (hg : Grows k k' d lo c f) {f' : ℕ → ℕ → ℕ} (hf : ∀ n, lo ≤ n → n < lo + c → f n = f' n) :
    Grows k k' d lo c f' := by
  refine ⟨hg.toTakes, hg.apart, hg.old, fun n hn1 hn2 => ?_, hg.inj, hg.tables, hg.length, hg.account⟩
  rw [← hf n hn1 hn2]
  exact hg.new n hn1 hn2

theorem Grows.page (hg : Grows k k' d lo c f) (h : Apart k d) {n : ℕ} (hn1 : lo ≤ n) (hn2 : n < lo + c) :
    Present (k'.entry d n) ∧ frame (k'.entry d n) ∈ k.freelist ∧ k'.mem (frame (k'.entry d n)) = f n := by
  obtain ⟨v, hv, he, hf⟩ := hg.new n hn1 hn2
  obtain ⟨hpage, -⟩ := h.free v hv
  rw [he, hpage.frame_or (by decide)]
  exact ⟨hpage.present_or (by decide) (by decide), hv, hf⟩

theorem Grows.succ (h : Apart k d) (hl : k.freelist = v :: l) (hu : lo + (c + 1) ≤ userPages)
    (hn : NewPage k k1 d lo v (f lo) (PTE_W ||| PTE_U)) (hg : Grows k1 k' d (lo + 1) c f) :
    Grows k k' d lo (c + 1) f := by
  have hua := userPages_le
  have hall : lo + (c + 1) ≤ allPages := by omega
  obtain ⟨hpage, hvd, hvt⟩ := h.free v (by rw [hl]; exact List.mem_cons_self)
  have hnd := h.nodup
  rw [hl] at hnd
  obtain ⟨hvl, -⟩ := List.nodup_cons.mp hnd
  have hv1 : v ∉ k1.freelist := fun hin => by
    have hin := hn.tail.subset hin
    rw [hl] at hin
    exact hvl hin
  have hfirst : k'.entry d lo = v2p v ||| (PTE_W ||| PTE_U ||| PTE_P) := by
    rw [hg.old lo (by omega) (by omega), hn.entry lo (by omega), if_pos rfl]
  have hframe : frame (k1.entry d lo) = v := by
    rw [hn.entry lo (by omega), if_pos rfl]
    exact hpage.frame_or (by decide)
  have hpr1 : Present (k1.entry d lo) := by
    rw [hn.entry lo (by omega), if_pos rfl]
    exact hpage.present_or (by decide) (by decide)
  obtain ⟨-, hvd1, hvt1⟩ := hn.apart.user lo (by omega) hpr1
  rw [hframe] at hvd1 hvt1
  have hfirst' : frame (k'.entry d lo) = v := by
    rw [hfirst]
    exact hpage.frame_or (by decide)
  refine ⟨hn.toTakes.trans hg.toTakes, hg.apart, fun n hn' hout => ?_, fun n hn1 hn2 => ?_,
    fun n n' hn1 hn2 hn1' hn2' heq => ?_, fun x hx => ?_, ?_, fun u => ?_⟩
  · rw [hg.old n hn' (by omega), hn.entry n hn', if_neg (by omega)]
  · obtain rfl | hne := eq_or_ne n lo
    · refine ⟨v, by rw [hl]; exact List.mem_cons_self, hfirst, ?_⟩
      rw [hg.mem v hv1 hvd1 hvt1, hn.page]
    · obtain ⟨u, hu, he, hf⟩ := hg.new n (by omega) (by omega)
      exact ⟨u, hn.suffix.subset hu, he, hf⟩
  · have hlater : ∀ {i}, lo ≤ i → i < lo + (c + 1) → i ≠ lo → frame (k'.entry d i) ≠ v := by
      intro i hi1 hi2 hi heq
      have hin := (hg.page hn.apart (n := i) (by omega) (by omega)).2.1
      rw [heq] at hin
      exact hv1 hin
    obtain rfl | hne := eq_or_ne n lo
    · by_contra hne'
      rw [hfirst'] at heq
      exact hlater hn1' hn2' (fun e => hne' e.symm) heq.symm
    · obtain rfl | hne' := eq_or_ne n' lo
      · rw [hfirst'] at heq
        exact absurd heq (hlater hn1 hn2 hne)
      · exact hg.inj n n' (by omega) (by omega) (by omega) (by omega) heq
  · rw [hg.tables x hx, hn.tables x hx]
    constructor
    · rintro ((hp | rfl) | ⟨n, hn1, hn2, rfl⟩)
      · exact .inl hp
      · exact .inr ⟨lo, le_refl lo, by omega, rfl⟩
      · exact .inr ⟨n, by omega, by omega, rfl⟩
    · rintro (hp | ⟨n, hn1, hn2, rfl⟩)
      · exact .inl (.inl hp)
      · obtain rfl | hne := eq_or_ne n lo
        · exact .inl (.inr rfl)
        · exact .inr ⟨n, by omega, by omega, rfl⟩
  · have hmiss := missingTables_succ (k := k) (by omega : lo < lo + (c + 1)) hn.tables hall
    have hlen := hn.length
    have hlen' := hg.length
    rw [pde_eq_mem (by omega)] at hlen
    rw [show lo + 1 + c = lo + (c + 1) by omega] at hlen'
    omega
  · rw [hg.account, hn.account]

/-- A page from the free list is mapped nowhere else. -/
theorem Grows.mem_range (hg : Grows k k' d lo c f) (h : Apart k d) {m : ℕ} (hm : m < userPages)
    (hpr : Present (k'.entry d m)) (hf : frame (k'.entry d m) = v) (hv : v ∈ k.freelist) :
    lo ≤ m ∧ m < lo + c := by
  have hua := userPages_le
  by_contra hout
  have hsame := hg.old m (by omega) (by omega)
  rw [hsame] at hpr hf
  exact h.unused m hm hpr (hf ▸ hv)

/-! ### The way of the loop -/

/-- The last free page is taken for page number `m`, and there is none left for its table: the pages from `lo`
up to `m` and their tables have used up all but one. -/
structure Starved (k : Kernel) (d lo m : ℕ) : Prop where
  length : k.freelist.length = (m - lo) + (missingTables k d lo m).card + 1
  table : ¬ Present (k.pde d m)
  first : ∀ i, lo ≤ i → i < m → i / 1024 ≠ m / 1024

theorem missingTables_mono (k : Kernel) (d lo : ℕ) {hi hi' : ℕ} (h : hi ≤ hi') :
    (missingTables k d lo hi).card ≤ (missingTables k d lo hi').card :=
  card_le_card (filter_subset_filter _
    (image_subset_image (Finset.Ico_subset_Ico_right h)))

theorem Starved.missing (hs : Starved k d lo m) (hlo : lo ≤ m) (hm : m < allPages) :
    (missingTables k d lo m).card < (missingTables k d lo (m + 1)).card := by
  refine card_lt_card (ssubset_iff_of_subset (filter_subset_filter _
    (image_subset_image (Finset.Ico_subset_Ico_right (Nat.le_succ m)))) |>.mpr ⟨m / 1024, ?_, ?_⟩)
  · refine mem_filter.mpr ⟨mem_image.mpr ⟨m, mem_Ico.mpr ⟨hlo, by omega⟩, rfl⟩, ?_⟩
    rw [← pde_eq_mem hm]
    exact hs.table
  · intro hin
    obtain ⟨i, hi, e⟩ := mem_image.mp (mem_filter.mp hin).1
    exact hs.first i (mem_Ico.mp hi).1 (mem_Ico.mp hi).2 e

/-- A page that has been mapped had a page for its table. -/
theorem Grows.not_starved (hg : Grows k k' d lo c f) (hu : lo + c ≤ allPages) (hm1 : lo ≤ m) (hm2 : m < lo + c) :
    ¬ Starved k d lo m := by
  intro hs
  have hlen := hg.length
  have hlen' := hs.length
  have hlt := hs.missing hm1 (by omega)
  have hle := missingTables_mono k d lo (by omega : m + 1 ≤ lo + c)
  omega

theorem Grows.not_starved_of_nil (hg : Grows k k' d lo c f) (hl : k'.freelist = []) (hm : lo + c ≤ m) :
    ¬ Starved k d lo m := by
  intro hs
  have hlen := hg.length
  have hlen' := hs.length
  have hle := missingTables_mono k d lo hm
  rw [hl, List.length_nil] at hlen
  omega

/-- One page is left for the next one, and a table is missing. -/
theorem Grows.starved (hg : Grows k k' d lo c f) (hu : lo + c < allPages) (hl : k'.freelist = [v])
    (hp : ¬ Present (k'.pde d (lo + c))) : Starved k d lo (lo + c) := by
  rw [pde_eq_mem hu, hg.tables _ (by unfold allPages at hu; omega)] at hp
  refine ⟨?_, ?_, fun i hi1 hi2 e => hp (.inr ⟨i, hi1, hi2, e.symm⟩)⟩
  · have hlen := hg.length
    rw [hl, List.length_singleton] at hlen
    omega
  · rw [pde_eq_mem hu]
    exact fun hpr => hp (.inl hpr)

/-- The last page is taken and filled, but not mapped. -/
def Kernel.lost (k : Kernel) (v : ℕ) (f : ℕ → ℕ) : Kernel := ({ k with freelist := [] } : Kernel).setPage v f

/-- What `allocuvm` does when there is no page left. -/
def rollback (k : Kernel) (d newsz oldsz : ℕ) : Except Fault (ℕ × Kernel) := do
  let (_, k) ← deallocuvm k d newsz oldsz
  .ok (0, k)

/-- **The loop of `allocuvm`**: after `c` pages it is at its end, or there is no page left, or there is one left
and a table is missing. -/
theorem allocLoop_cases (oldsz newsz : ℕ) {n : ℕ} (h : Apart k d) (hu : lo + n ≤ userPages)
    (hnew : ∀ m, lo ≤ m → m < lo + n → ¬ Present (k.entry d m)) :
    ∃ c k1, c ≤ n ∧ Grows k k1 d lo c (fun _ _ => 0) ∧
      ((c = n ∧ allocLoop d oldsz newsz n (4096 * lo) k = .ok (newsz, k1)) ∨
        (c < n ∧ k1.freelist = [] ∧ allocLoop d oldsz newsz n (4096 * lo) k = rollback k1 d newsz oldsz) ∨
        ∃ v, c < n ∧ k1.freelist = [v] ∧ ¬ Present (k1.pde d (lo + c)) ∧
          allocLoop d oldsz newsz n (4096 * lo) k =
            if c + 1 = n then .ok (newsz, k1.lost v fun _ => 0) else rollback (k1.lost v fun _ => 0) d newsz oldsz) := by
  have hua := userPages_le
  induction n generalizing lo k with
  | zero => exact ⟨0, k, le_refl 0, .zero h lo _, .inl ⟨rfl, rfl⟩⟩
  | succ n ih =>
    have hnext : 4096 * lo + PGSIZE = 4096 * (lo + 1) := by unfold PGSIZE; omega
    cases hl : k.freelist with
    | nil =>
      refine ⟨0, k, Nat.zero_le _, .zero h lo _, .inr (.inl ⟨by omega, hl, ?_⟩)⟩
      rw [allocLoop, kalloc_nil hl]
      rfl
    | cons v l =>
      by_cases hroom : Present (k.pde d lo) ∨ l ≠ []
      · obtain ⟨k1, hr, hn⟩ := mappages_new (m := lo) h hl (by omega) (fun _ => 0)
          (hnew lo (le_refl lo) (by omega)) hroom (by decide : PTE_W ||| PTE_U < 4096)
        obtain ⟨c, k2, hc, hg, hcase⟩ := ih hn.apart (by omega : lo + 1 + n ≤ userPages) fun m hm1 hm2 => by
          rw [hn.entry m (by omega), if_neg (by omega)]
          exact hnew m (by omega) (by omega)
        have hstep : allocLoop d oldsz newsz (n + 1) (4096 * lo) k =
            allocLoop d oldsz newsz n (4096 * (lo + 1)) k1 := by
          rw [allocLoop, kalloc_cons hl]
          dsimp only
          rw [hr, hnext]
          rfl
        rw [hstep]
        refine ⟨c + 1, k2, by omega, .succ (f := fun _ _ => 0) h hl (by omega) hn hg, ?_⟩
        rw [show lo + (c + 1) = lo + 1 + c by omega, Nat.add_right_cancel_iff, Nat.add_lt_add_iff_right]
        simpa only [Nat.add_right_cancel_iff] using hcase
      · obtain ⟨hp, hnil⟩ := not_or.mp hroom
        obtain rfl : l = [] := not_not.mp hnil
        refine ⟨0, k, Nat.zero_le _, .zero h lo _, .inr (.inr ⟨v, by omega, hl, hp, ?_⟩)⟩
        rw [allocLoop, kalloc_cons hl]
        dsimp only
        rw [mappages_lost h hl (by omega) _ hp]
        cases n with
        | zero => rfl
        | succ n =>
          rw [if_neg (by omega)]
          rfl

/-! ### The contract of `allocuvm` -/

/-- `allocuvm` returns the new size: each page from `lo` up to `hi` is mapped for the user to write, to a page of
zeros that was free and is mapped nowhere else, and the other mappings are unchanged. -/
structure AllocDone (k k' : Kernel) (d lo hi : ℕ) : Prop where
  pages : ∀ m, lo ≤ m → m < hi → ∃ v ∈ k.freelist, k'.entry d m = v2p v ||| (PTE_W ||| PTE_U ||| PTE_P) ∧
    k'.mem v = (fun _ => 0) ∧ ∀ n < userPages, Present (k'.entry d n) → frame (k'.entry d n) = v → n = m
  kept : ∀ m < allPages, m < lo ∨ hi ≤ m → k'.entry d m = k.entry d m

/-- The mappings are the same; what is not mapped may look different. -/
def SameMappings (k k' : Kernel) (d : ℕ) : Prop :=
  ∀ m < allPages, (Present (k'.entry d m) ↔ Present (k.entry d m)) ∧
    (Present (k.entry d m) → k'.entry d m = k.entry d m)

/-- `allocuvm` returns 0: the mappings are as before, and a page that was free is free again unless it is a page
table now. -/
structure AllocUndone (k k' : Kernel) (d : ℕ) : Prop where
  mappings : SameMappings k k' d
  back : ∀ v ∈ k.freelist, v ∈ k'.freelist ∨ ∃ x < 1024, Present (k'.mem d x) ∧ frame (k'.mem d x) = v

theorem Grows.done (hg : Grows k k' d lo c fun _ _ => 0) (h : Apart k d) : AllocDone k k' d lo (lo + c) := by
  refine ⟨fun m hm1 hm2 => ?_, hg.old⟩
  obtain ⟨v, hv, he, hf⟩ := hg.new m hm1 hm2
  refine ⟨v, hv, he, hf, fun n hn hpr hfr => ?_⟩
  obtain ⟨hn1, hn2⟩ := hg.mem_range h hn hpr hfr hv
  refine hg.inj n m hn1 hn2 hm1 hm2 ?_
  rw [hfr, he, (h.free v hv).1.frame_or (by decide)]

/-- Unmapping a range whose first page is mapped if any is. -/
theorem deallocuvm_range (h : Tabled k d) (hlt : newsz < oldsz) (hsz : oldsz ≤ KERNBASE)
    (hfirst : ∀ m, (newsz + 4095) / 4096 ≤ m → m < (oldsz + 4095) / 4096 → Present (k.entry d m) →
      Present (k.entry d ((newsz + 4095) / 4096))) :
    ∃ k', deallocuvm k d oldsz newsz = .ok (newsz, k') ∧
      Cleared k k' d (k.mapped d ((newsz + 4095) / 4096) ((oldsz + 4095) / 4096)) := by
  have hk := kernbase_eq
  exact deallocuvm_mapped h hlt hsz fun m hm1 hm2 hpr =>
    not_passedOver ((hasTable_page (by unfold allPages; omega)).mpr (pde_of_entry (hfirst m hm1 hm2 hpr)))

/-- The state before the pages are taken back: after `c` pages, with the same directory and mappings. -/
structure Stuck (k k1 k2 : Kernel) (d lo c : ℕ) (f : ℕ → ℕ → ℕ) : Prop where
  grows : Grows k k1 d lo c f
  tabled : Tabled k2 d
  dir : k2.mem d = k1.mem d
  entry : ∀ n, k2.entry d n = k1.entry d n

theorem Stuck.of_lost (hg : Grows k k1 d lo c f) (hl : k1.freelist = [v]) (g : ℕ → ℕ) :
    Stuck k k1 (k1.lost v g) d lo c f := by
  obtain ⟨h1, -, hdir, hent, -⟩ := hg.apart.take hl g
  exact ⟨hg, h1.toTabled, hdir, hent⟩

theorem Stuck.cleared {k2 : Kernel} (hs : Stuck k k1 k2 d ((oldsz + 4095) / 4096) c f)
    (h : Apart k d) (hc : (oldsz + 4095) / 4096 + c < (newsz + 4095) / 4096) (hsz : newsz < KERNBASE)
    (hnew : ∀ m, (oldsz + 4095) / 4096 ≤ m → m < (newsz + 4095) / 4096 → ¬ Present (k.entry d m)) :
    ∃ k', rollback k2 d newsz oldsz = .ok (0, k') ∧
      Cleared k2 k' d (k2.mapped d ((oldsz + 4095) / 4096) ((newsz + 4095) / 4096)) := by
  have hk := kernbase_eq
  obtain ⟨k', hr, hcl⟩ := deallocuvm_range hs.tabled (by omega : oldsz < newsz) (by omega) fun m hm1 hm2 hpr => by
    rw [hs.entry] at hpr ⊢
    have hm : m < (oldsz + 4095) / 4096 + c := by
      by_contra hge
      rw [hs.grows.old m (by unfold allPages; omega) (by omega)] at hpr
      exact hnew m hm1 hm2 hpr
    exact (hs.grows.page h (le_refl _) (by omega)).1
  refine ⟨k', ?_, hcl⟩
  unfold Vm.rollback
  rw [hr]
  rfl

theorem Stuck.rollback {k2 : Kernel} (hs : Stuck k k1 k2 d ((oldsz + 4095) / 4096) c f)
    (h : Apart k d) (hc : (oldsz + 4095) / 4096 + c < (newsz + 4095) / 4096) (hsz : newsz < KERNBASE)
    (hnew : ∀ m, (oldsz + 4095) / 4096 ≤ m → m < (newsz + 4095) / 4096 → ¬ Present (k.entry d m)) :
    ∃ k', rollback k2 d newsz oldsz = .ok (0, k') ∧ SameMappings k k' d ∧ k'.mem d = k1.mem d ∧
      ∀ u, u ∈ k'.freelist ↔ u ∈ k2.freelist ∨ ∃ m, (oldsz + 4095) / 4096 ≤ m ∧ m < (newsz + 4095) / 4096 ∧
        Present (k1.entry d m) ∧ frame (k1.entry d m) = u := by
  have hk := kernbase_eq
  obtain ⟨k', hr, hcl⟩ := hs.cleared h hc hsz hnew
  have hfree := hcl.freesRange (by unfold allPages; omega)
  refine ⟨k', hr, fun m hm => ?_, hcl.dir.trans hs.dir, fun u => ?_⟩
  · by_cases hin : (oldsz + 4095) / 4096 ≤ m ∧ m < (newsz + 4095) / 4096
    · have hno := hnew m hin.1 hin.2
      exact ⟨iff_of_false (hfree.gone m hin.1 hin.2) hno, fun hpr => absurd hpr hno⟩
    · rw [hfree.kept m hm (by omega), hs.entry, hs.grows.old m hm (by omega)]
      exact ⟨Iff.rfl, fun _ => rfl⟩
  · rw [hfree.freed, List.mem_append, or_comm, List.mem_reverse, List.mem_map]
    simp only [mem_mapped, hs.entry, and_assoc]

/-- A page that was free is on the free list, a page table, or one of the new pages. -/
theorem Grows.where (hg : Grows k k' d lo c f) (h : Apart k d) (hv : v ∈ k.freelist) :
    v ∈ k'.freelist ∨ (∃ x < 1024, Present (k'.mem d x) ∧ frame (k'.mem d x) = v) ∨
      ∃ m, lo ≤ m ∧ m < lo + c ∧ Present (k'.entry d m) ∧ frame (k'.entry d m) = v := by
  obtain hfree | rfl | htab | ⟨m, hm, hpr, hf⟩ := (hg.account v).mpr (.inl hv)
  · exact .inl hfree
  · exact absurd rfl (h.free v hv).2.1
  · exact .inr (.inl htab)
  · obtain ⟨hm1, hm2⟩ := hg.mem_range h hm hpr hf hv
    exact .inr (.inr ⟨m, hm1, hm2, hpr, hf⟩)

/-- The loop of `allocuvm` runs over the pages from `PGROUNDUP(oldsz)` up to `newsz`. -/
theorem allocuvm_loop (hle : oldsz ≤ newsz) (hsz : newsz < KERNBASE) :
    allocuvm k d oldsz newsz = allocLoop d oldsz newsz ((newsz + 4095) / 4096 - (oldsz + 4095) / 4096)
      (4096 * ((oldsz + 4095) / 4096)) k := by
  have hk := kernbase_eq
  have hround : pgRoundUp oldsz = 4096 * ((oldsz + 4095) / 4096) := by
    unfold pgRoundUp u32 PGSIZE
    omega
  have hcount : (newsz - 4096 * ((oldsz + 4095) / 4096) + PGSIZE - 1) / PGSIZE =
      (newsz + 4095) / 4096 - (oldsz + 4095) / 4096 := by
    unfold PGSIZE
    omega
  unfold allocuvm
  rw [if_neg (by omega), if_neg (by omega), hround]
  dsimp only
  rw [hcount]

theorem allocuvm_cases (h : Apart k d) (hle : oldsz ≤ newsz) (hsz : newsz < KERNBASE)
    (hnew : ∀ m, (oldsz + 4095) / 4096 ≤ m → m < (newsz + 4095) / 4096 → ¬ Present (k.entry d m)) :
    ∃ c k1, (oldsz + 4095) / 4096 + c ≤ (newsz + 4095) / 4096 ∧
      Grows k k1 d ((oldsz + 4095) / 4096) c (fun _ _ => 0) ∧
      (((oldsz + 4095) / 4096 + c = (newsz + 4095) / 4096 ∧ allocuvm k d oldsz newsz = .ok (newsz, k1)) ∨
        ((oldsz + 4095) / 4096 + c < (newsz + 4095) / 4096 ∧ k1.freelist = [] ∧
          allocuvm k d oldsz newsz = rollback k1 d newsz oldsz) ∨
        ∃ v, (oldsz + 4095) / 4096 + c < (newsz + 4095) / 4096 ∧ k1.freelist = [v] ∧
          ¬ Present (k1.pde d ((oldsz + 4095) / 4096 + c)) ∧
          allocuvm k d oldsz newsz =
            if (oldsz + 4095) / 4096 + c + 1 = (newsz + 4095) / 4096 then .ok (newsz, k1.lost v fun _ => 0)
            else rollback (k1.lost v fun _ => 0) d newsz oldsz) := by
  have hk := kernbase_eq
  have hpages : (oldsz + 4095) / 4096 ≤ (newsz + 4095) / 4096 := by omega
  obtain ⟨c, k1, hc, hg, hcase⟩ := allocLoop_cases oldsz newsz h
    (by unfold userPages; omega :
      (oldsz + 4095) / 4096 + ((newsz + 4095) / 4096 - (oldsz + 4095) / 4096) ≤ userPages)
    fun m hm1 hm2 => hnew m hm1 (by omega)
  rw [← allocuvm_loop hle hsz] at hcase
  refine ⟨c, k1, by omega, hg, ?_⟩
  obtain ⟨e, hr⟩ | ⟨hlt, hl, hr⟩ | ⟨v, hlt, hl, hp, hr⟩ := hcase
  · exact .inl ⟨by omega, hr⟩
  · exact .inr (.inl ⟨by omega, hl, hr⟩)
  · refine .inr (.inr ⟨v, by omega, hl, hp, hr.trans (if_congr ?_ rfl rfl)⟩)
    omega

/-- **The contract of `allocuvm` when memory runs out.** -/
theorem allocuvm_contract_iff {oldsz newsz : ℕ} (h : Apart k d) (hle : oldsz ≤ newsz) (hsz : newsz < KERNBASE)
    (hnew : ∀ m, (oldsz + 4095) / 4096 ≤ m → m < (newsz + 4095) / 4096 → ¬ Present (k.entry d m)) :
    (∃ r k', allocuvm k d oldsz newsz = .ok (r, k') ∧ (r = newsz ∨ r = 0) ∧
        (r = newsz → AllocDone k k' d ((oldsz + 4095) / 4096) ((newsz + 4095) / 4096)) ∧
        (r = 0 → AllocUndone k k' d)) ↔
      ∀ m, (oldsz + 4095) / 4096 ≤ m → m < (newsz + 4095) / 4096 →
        ¬ Starved k d ((oldsz + 4095) / 4096) m := by
  have hk := kernbase_eq
  have hall : (newsz + 4095) / 4096 ≤ allPages := by
    unfold allPages
    omega
  obtain ⟨c, k1, hc, hg, hcase⟩ := allocuvm_cases h hle hsz hnew
  obtain ⟨e, hr⟩ | ⟨hlt, hl, hr⟩ | ⟨v, hlt, hl, hp, hr⟩ := hcase
  · refine iff_of_true ⟨newsz, k1, hr, .inl rfl, fun _ => e ▸ hg.done h, fun h0 => ?_⟩ fun m hm1 hm2 =>
      hg.not_starved (by omega) hm1 (by omega)
    refine ⟨fun m hm => ?_, fun v hv => ?_⟩
    · rw [hg.old m hm (by omega)]
      exact ⟨Iff.rfl, fun _ => rfl⟩
    · obtain hfree | htab | ⟨m, hm1, hm2, -⟩ := hg.where h hv
      · exact .inl hfree
      · exact .inr htab
      · omega
  · have hs : Stuck k k1 k1 d ((oldsz + 4095) / 4096) c _ := ⟨hg, hg.apart.toTabled, rfl, fun _ => rfl⟩
    obtain ⟨k', hr', hsame, hdir, hmem⟩ := hs.rollback h hlt hsz hnew
    refine iff_of_true ⟨0, k', hr.trans hr', .inr rfl, fun h0 => by omega, fun _ => ⟨hsame, fun v hv => ?_⟩⟩
      fun m hm1 hm2 hst => ?_
    · obtain hfree | htab | ⟨m, hm1, hm2, hpr, hf⟩ := hg.where h hv
      · exact .inl ((hmem v).mpr (.inl hfree))
      · rw [hdir]
        exact .inr htab
      · exact .inl ((hmem v).mpr (.inr ⟨m, hm1, by omega, hpr, hf⟩))
    · by_cases hm : m < (oldsz + 4095) / 4096 + c
      · exact hg.not_starved (by omega) hm1 hm hst
      · exact hg.not_starved_of_nil hl (by omega) hst
  · refine iff_of_false ?_ fun hnot => hnot _ (by omega) hlt (hg.starved (by omega) hl hp)
    have hs := Stuck.of_lost hg hl fun _ => 0
    rintro ⟨r, k', hr', -, hdone, hundone⟩
    rw [hr] at hr'
    split_ifs at hr' with hlast
    · obtain ⟨rfl, rfl⟩ := Prod.mk.inj (Except.ok.inj hr')
      obtain ⟨u, hu, he, -⟩ := (hdone rfl).pages _ (by omega) hlt
      have hpr : Present ((k1.lost v fun _ => 0).entry d ((oldsz + 4095) / 4096 + c)) := by
        rw [he]
        exact (h.free u hu).1.present_or (by decide) (by decide)
      rw [hs.entry] at hpr
      exact hp (pde_of_entry hpr)
    · obtain ⟨k'', hr'', -, hdir, hmem⟩ := hs.rollback h hlt hsz hnew
      obtain ⟨rfl, rfl⟩ := Prod.mk.inj (Except.ok.inj (hr'.symm.trans hr''))
      have hv : v ∈ k1.freelist := by
        rw [hl]
        exact List.mem_cons_self
      obtain ⟨-, -, hnt⟩ := hg.apart.free v hv
      obtain hfree | ⟨x, hx, hpr, hf⟩ := (hundone rfl).back v (hg.suffix.subset hv)
      · obtain hnil | ⟨m, hm1, hm2, hpr, hf⟩ := (hmem v).mp hfree
        · cases hnil
        · refine hg.apart.unused m ?_ hpr (hf ▸ hv)
          unfold userPages
          omega
      · rw [hdir] at hpr hf
        exact noTable_iff.mp hnt x hx hpr hf

/-- Init grows to two pages. -/
theorem allocuvm_contract_init :
    ∃ r k', allocuvm boot (boot.dirOf initproc) 4096 8192 = .ok (r, k') ∧ (r = 8192 ∨ r = 0) ∧
      (r = 8192 → AllocDone boot k' (boot.dirOf initproc) 1 2) ∧ (r = 0 → AllocUndone boot k' (boot.dirOf initproc)) := by
  have h : Apart boot (boot.dirOf initproc) := inv_boot.wf.apart (inv_boot.dir initproc (by decide))
  refine (allocuvm_contract_iff h (by decide) (by decide) fun m hm1 hm2 => ?_).mpr fun m hm1 hm2 hs => ?_
  · obtain rfl : m = 1 := by omega
    decide +kernel
  · obtain rfl : m = 1 := by omega
    exact hs.table (by decide +kernel)

/-- Init, with one free page. -/
def bootLast : Kernel := { boot with freelist := [top 134] }

theorem bootLast_apart : Apart bootLast (boot.dirOf initproc) := by
  refine (inv_boot.wf.apart (inv_boot.dir initproc (by decide))).of_sublist ?_
  rw [show boot.freelist = top 134 :: boot.freelist.tail from rfl]
  exact (List.nil_sublist _).cons_cons _

/-- At a 4 MB boundary with one free page `allocuvm` reports a page that is not there; asked for two pages it fails
and loses the page. -/
theorem allocuvm_loses_page : ∃ k d, Apart k d ∧ (∀ m, 1024 ≤ m → m < 1026 → ¬ Present (k.entry d m)) ∧
    (∃ k', allocuvm k d (4096 * 1024) (4096 * 1025) = .ok (4096 * 1025, k') ∧ ¬ AllocDone k k' d 1024 1025) ∧
    ∃ k', allocuvm k d (4096 * 1024) (4096 * 1026) = .ok (0, k') ∧ ¬ AllocUndone k k' d := by
  refine ⟨bootLast, boot.dirOf initproc, bootLast_apart, fun m hm1 hm2 => ?_, ?_, ?_⟩
  · obtain rfl | rfl : m = 1024 ∨ m = 1025 := by omega
    · decide +kernel
    · decide +kernel
  · have htest : (allocuvm bootLast (boot.dirOf initproc) (4096 * 1024) (4096 * 1025)).toOption.map
        (fun r => (r.1, decide (Present (r.2.entry (boot.dirOf initproc) 1024)))) = some (4096 * 1025, false) := by
      decide +kernel
    obtain ⟨⟨r, k'⟩, hr, hv⟩ := map_eq_some_iff.mp htest
    obtain ⟨rfl, hpr⟩ := Prod.mk.inj hv
    refine ⟨k', toOption_some hr, fun hdone => ?_⟩
    obtain ⟨v, hv, he, -⟩ := hdone.pages 1024 (by decide) (by decide)
    refine of_decide_eq_false hpr ?_
    rw [he]
    exact (bootLast_apart.free v hv).1.present_or (by decide) (by decide)
  · have htest : (allocuvm bootLast (boot.dirOf initproc) (4096 * 1024) (4096 * 1026)).toOption.map
        (fun r => (r.1, r.2.freelist, (List.range 1024).all fun x =>
          !decide (Present (r.2.mem (boot.dirOf initproc) x) ∧ frame (r.2.mem (boot.dirOf initproc) x) = top 134))) =
        some (0, [], true) := by
      decide +kernel
    obtain ⟨⟨r, k'⟩, hr, hv⟩ := map_eq_some_iff.mp htest
    obtain ⟨rfl, hl, htab⟩ := by simpa only [Prod.mk.injEq] using hv
    refine ⟨k', toOption_some hr, fun hundone => ?_⟩
    obtain hin | ⟨x, hx, hpr⟩ := hundone.back (top 134) List.mem_cons_self
    · rw [hl] at hin
      cases hin
    · have := List.all_eq_true.mp htab x (List.mem_range.mpr hx)
      simp [hpr] at this

end

end Xv6.Vm
