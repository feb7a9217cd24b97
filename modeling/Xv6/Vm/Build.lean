import Mathlib.Data.Finset.Image
import Mathlib.Order.Interval.Finset.Nat
import Xv6.Vm.Space

/-! # Building and freeing address spaces

`allocuvm`, `setupkvm`, `copyuvm`, `loaduvm`, `copyout` and `freevm` in terms of roles and entries.
`allocuvm` does not look at the result of `mappages`: when the memory for a page table is missing,
the page is lost and its entry stays empty. This goes unnoticed exactly for the last page. -/

namespace Xv6.Vm

open Fallible Function Finset

/-- The tables that page numbers from `lo` up to `hi` need and that `d` does not have. -/
def missingTables (k : Kernel) (d lo hi : ℕ) : Finset ℕ :=
  ((Finset.Ico lo hi).image (· / 1024)).filter fun x => ¬ Present (k.mem d x)

section
variable {d n : ℕ} {k k' : Kernel} {own : ℕ → Role}

theorem missingTables_succ {lo hi : ℕ} (hlo : lo < hi)
    (ht : ∀ x < 1024, Present (k'.mem d x) ↔ Present (k.mem d x) ∨ x = lo / 1024) (hhi : hi ≤ allPages) :
    (missingTables k' d (lo + 1) hi).card + (if Present (k.mem d (lo / 1024)) then 0 else 1) =
      (missingTables k d lo hi).card := by
  have hmem : ∀ x, x ∈ (Finset.Ico lo hi).image (· / 1024) ↔
      x = lo / 1024 ∨ x ∈ (Finset.Ico (lo + 1) hi).image (· / 1024) := by
    intro x
    simp only [mem_image, mem_Ico]
    constructor
    · rintro ⟨m, hm, rfl⟩
      by_cases e : m = lo
      · exact .inl (by rw [e])
      · exact .inr ⟨m, by omega, rfl⟩
    · rintro (rfl | ⟨m, hm, rfl⟩)
      · exact ⟨lo, by omega, rfl⟩
      · exact ⟨m, by omega, rfl⟩
  have he : missingTables k' d (lo + 1) hi = (missingTables k d lo hi).erase (lo / 1024) := by
    ext x
    simp only [missingTables, mem_erase, mem_filter, hmem]
    by_cases hx : x < 1024
    · rw [ht x hx]
      tauto
    · have hnot : x ∉ (Finset.Ico (lo + 1) hi).image (· / 1024) := by
        simp only [mem_image, mem_Ico]
        rintro ⟨m, hm, rfl⟩
        unfold allPages at hhi
        omega
      simp only [hnot, false_and, or_false, ne_eq, false_iff]
      tauto
  have hin : lo / 1024 ∈ (Finset.Ico lo hi).image (· / 1024) := (hmem _).mpr (.inl rfl)
  rw [he]
  split_ifs with hp
  · rw [erase_eq_of_notMem, add_zero]
    simp [missingTables, hp]
  · exact card_erase_add_one (by simp only [missingTables, mem_filter]; exact ⟨hin, hp⟩)

theorem tables_mem (hn : n < allPages)
    (ht : ∀ m, Present (k'.pde d m) ↔ Present (k.pde d m) ∨ m / 1024 % 1024 = n / 1024 % 1024) :
    ∀ x < 1024, Present (k'.mem d x) ↔ Present (k.mem d x) ∨ x = n / 1024 := by
  intro x hx
  have h := ht (1024 * x)
  have e1 : 1024 * x / 1024 % 1024 = x := by omega
  have e2 : n / 1024 % 1024 = n / 1024 := by
    unfold allPages at hn
    omega
  unfold Kernel.pde at h
  rwa [e1, e2] at h

theorem pde_eq_mem (hn : n < allPages) : k.pde d n = k.mem d (n / 1024) := by
  unfold Kernel.pde allPages at *
  congr 1
  omega

theorem missingTables_single (hn : n < allPages) (hp : ¬ Present (k.pde d n)) :
    (missingTables k d n (n + 1)).card = 1 := by
  rw [pde_eq_mem hn] at hp
  rw [missingTables, Nat.Ico_succ_singleton, image_singleton, filter_singleton,
    if_pos hp, card_singleton]

theorem page_lt {m sz : ℕ} (hsz : sz ≤ KERNBASE) (hm : 4096 * m < sz) : m < userPages := by
  unfold userPages KERNBASE at *
  omega

theorem pgRoundUp_div {sz : ℕ} (hsz : sz ≤ KERNBASE) : pgRoundUp sz / 4096 = (sz + 4095) / 4096 := by
  unfold pgRoundUp u32 PGSIZE KERNBASE at *
  omega

/-! ### One new page -/

/-- Taking a page, filling it and mapping it at page number `n`, as `allocuvm` and `copyuvm` do. -/
theorem map_new (h : Wf k own) (hd : own d = .dir) {v : ℕ} {l : List ℕ} {f : ℕ → ℕ} {b : Bool}
    (hl : k.freelist = v :: l) (hn : n < userPages)
    (hr : mappages (({ k with freelist := l } : Kernel).setPage v f) d (4096 * n) PGSIZE (v2p v)
      (PTE_W ||| PTE_U) = .ok (b, k')) :
    ∃ own', Resized d k own k' own' ∧ (∀ u, own' u = .free → own u = .free) ∧
      (b = false ∧ k'.freelist = [] ∧ l = [] ∧ ¬ Present (k.pde d n) ∧
        (∀ m, k'.entry d m = k.entry d m) ∧ k'.mem d = k.mem d ∨
      b = true ∧ (∀ m < allPages, m ≠ n → k'.entry d m = k.entry d m) ∧ Present (k'.entry d n) ∧
        (∀ x < 1024, Present (k'.mem d x) ↔ Present (k.mem d x) ∨ x = n / 1024) ∧
        k'.freelist.length + 1 + (if Present (k.mem d (n / 1024)) then 0 else 1) =
          k.freelist.length ∧
        k'.entry d n = v2p v ||| (PTE_W ||| PTE_U ||| PTE_P)) := by
  have hua := userPages_le
  have e4 : 4096 * n / 4096 = n := by omega
  obtain ⟨_, hv, hpage⟩ := h.alloc hl
  have hdv : d ≠ v := by
    rintro rfl
    rw [hv] at hd
    cases hd
  have h1 := Resized.alloc h hd hl
  obtain ⟨h2, he2⟩ := Resized.write h1.wf h1.dir (v := v) (by simp) f
  have h12 := h1.trans h2
  set k1 : Kernel := ({ k with freelist := l } : Kernel).setPage v f with hk1
  have hent : ∀ m, k1.entry d m = k.entry d m := fun m => he2 m
  have hmem : k1.mem d = k.mem d := by rw [hk1, Kernel.setPage_mem, update_of_ne hdv]
  have hfree : ∀ u, update own v .none u = .free → own u = .free := by
    intro u hu
    by_cases e : u = v
    · rw [e, update_self] at hu
      cases hu
    · rwa [update_of_ne e] at hu
  rw [mappages_one (by omega) (by unfold userPages at hn; omega)] at hr
  rcases map_private h12.wf h12.dir (by rw [e4]; exact hn) (by simp) hpage (by decide) (by decide)
    hr with ⟨rfl, rfl, hnil, hnp⟩ | ⟨rfl, own', hm, hrs, hv'⟩
  · rw [e4, pde_congr hmem] at hnp
    exact ⟨_, h12, hfree, .inl ⟨rfl, hnil, hnil, hnp, hent, hmem⟩⟩
  · rw [e4] at hm
    refine ⟨own', h12.trans hrs, fun u hu => ?_, .inr ⟨rfl, fun m hm' hne => ?_, ?_, ?_, ?_, ?_⟩⟩
    · apply hfree
      by_contra hne
      by_cases e : u = v
      · rw [e, hv'] at hu
        cases hu
      · rw [hm.keep u (by rwa [hpage.frame_or (by decide)]) hne] at hu
        exact hne hu
    · rw [hm.entry_eq m hm', if_neg hne, hent]
    · rw [hm.entry_eq n (by omega), if_pos rfl]
      exact hpage.present_or (by decide) (by decide)
    · rw [← hmem]
      exact tables_mem (by omega) hm.tables_iff
    · have hfree := hm.free
      rw [pde_eq_mem (by omega), hmem] at hfree
      have hl1 : k1.freelist.length = l.length := rfl
      rw [hl, List.length_cons]
      omega
    · rw [hm.entry_eq n (by omega), if_pos rfl]

/-! ### `allocuvm` -/

/-- What the loop of `allocuvm` leaves, from page number `lo` up to `hi`: with result `0` it has
changed page numbers from `lo0` on, otherwise it has filled its range, or lost the last page for
want of one page. -/
structure Grown (d lo0 lo hi r newsz : ℕ) (k : Kernel) (own : ℕ → Role) (k' : Kernel)
    (own' : ℕ → Role) : Prop extends Resized d k own k' own' where
  outside : ∀ m < allPages, m < lo0 ∨ hi ≤ m → k'.entry d m = k.entry d m
  result : r = 0 ∨ r = newsz
  below : r ≠ 0 → ∀ m < lo, k'.entry d m = k.entry d m
  filled : r ≠ 0 → ∀ m, lo ≤ m → m < hi → Present (k'.entry d m) ∨
    m + 1 = hi ∧ ¬ Present (k.pde d m) ∧ k'.freelist = [] ∧
      k.freelist.length + 1 = hi - lo + (missingTables k d lo hi).card
  starved : k.freelist = [] → r ≠ 0 → k' = k ∧ hi = lo

theorem allocLoop_grown (h : Wf k own) (hd : own d = .dir) {oldsz newsz lo hi r : ℕ}
    (hhi : hi = lo + n) (hu : hi ≤ userPages) (hnew : newsz ≤ 4096 * hi)
    (hold : pgRoundUp oldsz / 4096 ≤ lo) (hpriv : ∀ m, pgRoundUp oldsz / 4096 ≤ m → m < hi → Priv k own d m)
    (hr : allocLoop d oldsz newsz n (4096 * lo) k = .ok (r, k')) :
    ∃ own', Grown d (pgRoundUp oldsz / 4096) lo hi r newsz k own k' own' := by
  have hua := userPages_le
  induction n generalizing lo k own with
  | zero =>
    obtain ⟨rfl, rfl⟩ := pair_ok hr
    exact ⟨own, .refl h hd, fun _ _ _ => rfl, .inr rfl, fun _ _ _ => rfl, fun _ m _ _ => by omega,
      fun _ _ => ⟨rfl, hhi⟩⟩
  | succ n ih =>
    unfold allocLoop at hr
    cases hl : k.freelist with
    | nil =>
      rw [kalloc_nil hl] at hr
      obtain ⟨⟨r1, k1⟩, e1, hr⟩ := bind_ok hr
      obtain ⟨rfl, rfl⟩ := pair_ok hr
      obtain ⟨⟨own', h1⟩, _⟩ := deallocuvm_shrunk h hd hnew hu hpriv e1
      refine ⟨own', h1.toResized, fun m hm hout => ?_, .inl rfl, fun e => absurd rfl e,
        fun e => absurd rfl e, fun _ e => absurd rfl e⟩
      rcases h1.entry_or m hm with e | ⟨e1, e2, _⟩
      · exact e
      · omega
    | cons v l =>
      rw [kalloc_cons hl] at hr
      obtain ⟨⟨b, k2⟩, e2, hr⟩ := bind_ok hr
      dsimp only at hr
      obtain ⟨own2, h2, _, hcase⟩ := map_new h hd hl (by omega) e2
      have hrest : allocLoop d oldsz newsz n (4096 * (lo + 1)) k2 = .ok (r, k') := by
        rw [show 4096 * (lo + 1) = 4096 * lo + PGSIZE by unfold PGSIZE; omega]
        exact hr
      obtain ⟨own3, h3⟩ := ih h2.wf h2.dir (by omega) (by omega)
        (fun m hm hm' => h2.priv m (by omega) (hpriv m hm hm')) hrest
      rcases hcase with ⟨rfl, hnil, hlnil, hnp, hent, _⟩ | ⟨rfl, hent, hpr, htab, hfree, _⟩
      · refine ⟨own3, h2.trans h3.toResized, fun m hm hout => (h3.outside m hm hout).trans (hent m),
          h3.result, fun hr0 m hm => (h3.below hr0 m (by omega)).trans (hent m),
          fun hr0 m hm hm' => .inr ?_, fun e => by rw [hl] at e; cases e⟩
        obtain ⟨rfl, rfl⟩ : n = 0 ∧ k' = k2 := by
          cases n with
          | zero => exact ⟨rfl, (pair_ok hr).2.symm⟩
          | succ n =>
            unfold allocLoop at hr
            rw [kalloc_nil hnil] at hr
            obtain ⟨⟨r1, k1⟩, _, hr⟩ := bind_ok hr
            exact absurd (pair_ok hr).1.symm hr0
        obtain rfl : m = lo := by omega
        obtain rfl : hi = m + 1 := by omega
        refine ⟨rfl, hnp, hnil, ?_⟩
        rw [missingTables_single (by omega) hnp, hl, hlnil, List.length_singleton]
        omega
      · refine ⟨own3, h2.trans h3.toResized, fun m hm' hout => ?_, h3.result,
          fun hr0 m hm' => ?_, fun hr0 m hm1 hm2 => ?_, fun e => by rw [hl] at e; cases e⟩
        · rw [h3.outside m hm' hout, hent m hm' (by omega)]
        · rw [h3.below hr0 m (by omega), hent m (by omega) (by omega)]
        · by_cases e : m = lo
          · subst e
            exact .inl (by rw [h3.below hr0 m (by omega)]; exact hpr)
          · rcases h3.filled hr0 m (by omega) hm2 with e' | ⟨e1, e2, e3, e4⟩
            · exact .inl e'
            · have hc := missingTables_succ (by omega) htab (by omega : hi ≤ allPages)
              exact .inr ⟨e1, fun hp => e2 (h2.tables m hp), e3, by omega⟩

/-- `allocuvm`: it fails, or leaves everything as it is, or maps the pages up to `newsz`. -/
theorem allocuvm_grown (h : Wf k own) (hd : own d = .dir) {oldsz newsz r : ℕ}
    (hpriv : newsz < KERNBASE → ∀ m, pgRoundUp oldsz / 4096 ≤ m → m < (newsz + 4095) / 4096 → Priv k own d m)
    (hr : allocuvm k d oldsz newsz = .ok (r, k')) :
    (r = 0 ∧ k' = k) ∨ (newsz < oldsz ∧ r = oldsz ∧ k' = k) ∨
    (oldsz ≤ newsz ∧ newsz < KERNBASE ∧ ∃ own', Grown d (pgRoundUp oldsz / 4096)
      (pgRoundUp oldsz / 4096) (max (pgRoundUp oldsz / 4096) ((newsz + 4095) / 4096)) r newsz
        k own k' own') := by
  unfold allocuvm at hr
  dsimp only at hr
  split_ifs at hr with h1 h2
  · obtain ⟨rfl, rfl⟩ := pair_ok hr
    exact .inl ⟨rfl, rfl⟩
  · obtain ⟨rfl, rfl⟩ := pair_ok hr
    exact .inr (.inl ⟨h2, rfl, rfl⟩)
  · refine .inr (.inr ⟨by omega, by omega, ?_⟩)
    have ha : 4096 * (pgRoundUp oldsz / 4096) = pgRoundUp oldsz := by
      unfold pgRoundUp PGSIZE
      omega
    have hk : newsz < 2 ^ 31 := by
      unfold KERNBASE at h1
      omega
    have hle : pgRoundUp oldsz ≤ 2 ^ 31 := by
      unfold pgRoundUp u32 PGSIZE
      omega
    refine allocLoop_grown h hd (n := (newsz - pgRoundUp oldsz + PGSIZE - 1) / PGSIZE) ?_ ?_ ?_
      (le_refl _) (fun m hm hm' => hpriv (by omega) m hm (by omega)) (by rw [ha]; exact hr)
    · unfold PGSIZE
      omega
    · unfold userPages
      omega
    · omega

/-! ### `freevm` -/

/-- The loop over the directory entries, after the directory has been given up. -/
theorem freeTables_local (h : Wf k own) (hd : own d = .none) {i : ℕ} (hn : i + n = 1024)
    (ht : ∀ x, i ≤ x → x < 1024 → Present (k.mem d x) → own (frame (k.mem d x)) = .tab d x)
    (hr : freeTables d n i k = .ok k') :
    ∃ own', Wf k' own' ∧ Local d k own k' own' ∧ own' d = .none := by
  induction n generalizing i k own with
  | zero =>
    obtain rfl := Except.ok.inj hr
    exact ⟨own, h, .refl d k own, hd⟩
  | succ n ih =>
    unfold freeTables at hr
    rw [frame_eq] at hr
    by_cases hp : Present (k.mem d i)
    · rw [if_pos ((present_and _).mpr hp)] at hr
      obtain ⟨k1, e1, hr⟩ := bind_ok hr
      have hv := ht i (le_refl _) (by omega) hp
      obtain ⟨v, hvf⟩ : ∃ v, v = frame (k.mem d i) := ⟨_, rfl⟩
      rw [← hvf] at e1 hv
      have hpage := h.page v (by simp [hv])
      rw [kfree_page hpage] at e1
      obtain rfl := Except.ok.inj e1
      have hidle : Idle k own v := by
        refine ⟨fun d' x e => ?_, by simp [hv], by simp [hv]⟩
        rw [hv] at e
        obtain ⟨rfl, _⟩ := Role.tab.inj e
        simp [hd]
      have h1 := h.relabel hidle (by simp [hv]) (r := .none) (by simp) (by simp) (by simp) (by simp)
      have hl1 : Local d k own k (update own v .none) := .relabel (by simp [hv, Foreign]) (by simp)
      obtain ⟨h2, _⟩ := h1.freed (v := v) (by simp) hpage
      have hl2 : Local d k _ (k.freed v) _ := .freed h1 (v := v) (by simp) hpage
      rw [update_idem] at h2 hl2
      have hvd : d ≠ v := by
        intro e
        rw [← e, hd] at hv
        cases hv
      obtain ⟨own', h3, hl3, hd3⟩ := ih (i := i + 1) h2 (by rw [update_of_ne hvd, hd])
        (by omega) (fun x hx hx' hpx => by
          rw [k.freed_mem_of_ne hvd] at hpx ⊢
          have htx := ht x (by omega) hx' hpx
          rw [update_of_ne, htx]
          intro e
          rw [e, hv] at htx
          exact absurd (Role.tab.inj htx).2 (by omega)) hr
      exact ⟨own', h3, (hl1.trans hl2).trans hl3, hd3⟩
    · rw [if_neg (mt (present_and _).mp hp)] at hr
      exact ih h hd (by omega) (fun x hx hx' => ht x (by omega) hx') hr

/-- `freevm` of a directory without pages of segments. -/
theorem freevm_local (h : Wf k own) (hd : own d = .dir) (hpriv : ∀ m < userPages, Priv k own d m)
    (hr : freevm k d = .ok k') :
    ∃ own', Wf k' own' ∧ Local d k own k' own' ∧ own' d = .free := by
  unfold freevm at hr
  split_ifs at hr
  obtain ⟨⟨r, k1⟩, e1, hr⟩ := bind_ok hr
  obtain ⟨k2, e2, hr⟩ := bind_ok hr
  obtain ⟨⟨own1, h1⟩, _⟩ := deallocuvm_shrunk h hd (by decide) (le_refl _)
    (fun m _ hm => hpriv m hm) e1
  have hpage := h1.wf.page d (by simp [h1.dir])
  have h2 := h1.wf.forget h1.dir
  obtain ⟨own3, h3, hl3, hd3⟩ := freeTables_local h2 (update_self _ _ _) (by decide)
    (fun x _ hx hp => by
      have ht := h1.wf.tab d x h1.dir hx hp
      rw [update_of_ne, ht]
      intro e
      rw [e, h1.dir] at ht
      cases ht) e2
  rw [kfree_page hpage] at hr
  obtain rfl := Except.ok.inj hr
  obtain ⟨h4, _⟩ := h3.freed hd3 hpage
  exact ⟨_, h4, ((h1.toLocal.trans .forget).trans hl3).trans (.freed h3 hd3 hpage),
    update_self _ _ _⟩

end

end Xv6.Vm
