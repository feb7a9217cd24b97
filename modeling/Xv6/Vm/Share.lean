import Xv6.Vm.Bounds
import Xv6.Vm.Copy
import Xv6.Vm.Segments

/-! # Mapping and unmapping segments

The loops of `shmat`, `shmdt` and `deallocshm`. Like `allocuvm`, `shmat` does not look at the
result of `mappages`: a page whose table cannot be had is left out. -/

namespace Xv6.Vm

open Fallible Table Function List Except

section
variable {d key n i : ℕ} {k k' : Kernel} {own : ℕ → Role}

theorem below_kernbase : 4096 * n < KERNBASE ↔ n < userPages := by
  unfold KERNBASE userPages
  omega

theorem min_max_succ {lo u : ℕ} (h : lo < u) :
    4096 * min (lo + 1 + n) (max (lo + 1) u) = 4096 * min (lo + (n + 1)) (max lo u) := by
  omega

theorem lt_min_succ {lo u : ℕ} (h : lo < u) : lo < min (lo + (n + 1)) u := by
  omega

/-- The entry that maps page `i` of the segment of `key`. -/
def segEntry (k : Kernel) (key perm i : ℕ) : ℕ := v2p (k.shm.seg key i) ||| (perm ||| PTE_P)

/-- What the loop of `shmat` leaves after it has tried to map `n` pages of the segment of `key`,
from the `i`-th on, at page numbers from `lo` on. -/
structure Attached (d lo n key perm i : ℕ) (k : Kernel) (own : ℕ → Role) (k' : Kernel)
    (own' : ℕ → Role) : Prop extends Edits d k own k' own' where
  outside : ∀ m < allPages, m < lo ∨ lo + n ≤ m → k'.entry d m = k.entry d m
  inside : ∀ j < n, lo + j < userPages → ¬ Present (k.entry d (lo + j)) ∧
    (k'.entry d (lo + j) = segEntry k key perm (i + j) ∨ k'.entry d (lo + j) = 0)
  beyond : ∀ m < allPages, userPages ≤ m → k'.entry d m = k.entry d m
  all : (missingTables k d lo (min (lo + n) userPages)).card ≤ k.freelist.length →
    ∀ j < n, lo + j < userPages → k'.entry d (lo + j) = segEntry k key perm (i + j)
  tables : ∀ m, Present (k.pde d m) → Present (k'.pde d m)

theorem attachLoop_attached (h : Wf k own) (hd : own d = .dir) {perm lo r : ℕ}
    (hf : perm ||| PTE_P < 4096) (ho : (perm ||| PTE_P) % 2 = 1)
    (hseg : ∀ j < n, own (k.shm.seg key (i + j)) = .seg key (i + j))
    (hr : attachLoop d key (some perm) n i (4096 * lo) k = .ok (r, k')) :
    (∃ own', Attached d lo n key perm i k own k' own') ∧
      r = 4096 * min (lo + n) (max lo userPages) := by
  have hua := userPages_le
  induction n generalizing i lo k own with
  | zero =>
    obtain ⟨rfl, rfl⟩ := pair_ok hr
    exact ⟨⟨own, .refl h hd, fun _ _ _ => rfl, fun j hj => by omega, fun _ _ _ => rfl,
      fun _ j hj => by omega, fun _ hp => hp⟩, by rw [add_zero, min_eq_left (le_max_left _ _)]⟩
  | succ n ih =>
    unfold attachLoop at hr
    split_ifs at hr with h1 h2
    · have hlo : lo < userPages := below_kernbase.mp h1
      have e4 : 4096 * lo / 4096 = lo := by omega
      obtain ⟨⟨b, k1⟩, e1, hr⟩ := bind_ok hr
      have hs0 := hseg 0 (by omega)
      rw [add_zero] at hs0
      have hshm := (mappages_memOnly.ok e1).shm
      rw [mappages_one (by omega) (by unfold userPages at hlo; omega)] at e1
      have hnext : attachLoop d key (some perm) n (i + 1) (4096 * (lo + 1)) k1 = .ok (r, k') := by
        rw [show 4096 * (lo + 1) = 4096 * lo + PGSIZE by unfold PGSIZE; omega]
        exact hr
      have hentseg : ∀ j, segEntry k1 key perm (i + 1 + j) = segEntry k key perm (i + (j + 1)) := by
        intro j
        rw [segEntry, segEntry, hshm, show i + 1 + j = i + (j + 1) by omega]
      have hmin : min (lo + 1 + n) userPages = min (lo + (n + 1)) userPages := by
        rw [show lo + 1 + n = lo + (n + 1) by omega]
      rcases map_seg h hd (by rw [e4]; exact hlo) hs0 hf ho e1 with
        ⟨rfl, rfl, hnil, hnp⟩ | ⟨rfl, own1, hm⟩
      · rw [e4] at hnp
        obtain ⟨⟨own2, h2⟩, hrr⟩ := ih (i := i + 1) h hd
          (fun j hj => by
            rw [show i + 1 + j = i + (j + 1) by omega]
            exact hseg (j + 1) (by omega)) hnext
        have hlo0 : k1.entry d lo = 0 := by
          rw [Kernel.entry, if_neg hnp]
        refine ⟨⟨own2, h2.toEdits, fun m hm hout => h2.outside m hm (by omega), fun j hj hu => ?_,
          h2.beyond, fun hc => ?_, h2.tables⟩, hrr.trans (min_max_succ hlo)⟩
        · cases j with
          | zero =>
            rw [add_zero, h2.outside lo (by omega) (by omega), hlo0]
            exact ⟨not_present_zero, .inr rfl⟩
          | succ j =>
            have := h2.inside j (by omega) (by omega)
            rw [hentseg] at this
            rwa [show lo + (j + 1) = lo + 1 + j by omega]
        · exfalso
          have hne : lo / 1024 ∈ missingTables k1 d lo (min (lo + (n + 1)) userPages) := by
            rw [pde_eq_mem (by omega)] at hnp
            simp only [missingTables, Finset.mem_filter, Finset.mem_image, Finset.mem_Ico]
            exact ⟨⟨lo, ⟨le_refl _, lt_min_succ hlo⟩, rfl⟩, hnp⟩
          have hpos := Finset.card_pos.mpr ⟨_, hne⟩
          rw [hnil, length_nil] at hc
          omega
      · rw [e4] at hm
        have hkeep : ∀ j < n, own1 (k1.shm.seg key (i + 1 + j)) = .seg key (i + 1 + j) := by
          intro j hj
          have hsj := hseg (j + 1) (by omega)
          rw [show i + (j + 1) = i + 1 + j by omega] at hsj
          rw [hshm, hm.role _ _ (by rw [hsj]; trivial), hsj]
          intro e
          rw [e, hd] at hsj
          cases hsj
        obtain ⟨⟨own2, h2⟩, hrr⟩ := ih (i := i + 1) hm.wf hm.dir hkeep hnext
        have hlo1 : k1.entry d lo = segEntry k key perm i := by
          rw [hm.entry_eq lo (by omega), if_pos rfl]
          rfl
        have hent1 : ∀ m < allPages, m ≠ lo → k1.entry d m = k.entry d m := fun m hm' hne => by
          rw [hm.entry_eq m hm', if_neg hne]
        refine ⟨⟨own2, hm.toEdits.trans h2.toEdits, fun m hm' hout => ?_, fun j hj hu => ?_,
          fun m hm' hu => ?_, fun hc j hj hu => ?_, fun m hp => ?_⟩, hrr.trans (min_max_succ hlo)⟩
        · rw [h2.outside m hm' (by omega), hent1 m hm' (by omega)]
        · cases j with
          | zero =>
            rw [add_zero, add_zero, h2.outside lo (by omega) (by omega)]
            exact ⟨hm.fresh, .inl hlo1⟩
          | succ j =>
            have := h2.inside j (by omega) (by omega)
            rw [hentseg, hent1 _ (by omega) (by omega)] at this
            rwa [show lo + (j + 1) = lo + 1 + j by omega]
        · rw [h2.beyond m hm' hu, hent1 m hm' (by omega)]
        · have hfree := hm.free
          rw [pde_eq_mem (by omega)] at hfree
          have hcard := missingTables_succ
            (lt_min_succ hlo : lo < min (lo + (n + 1)) userPages) (tables_mem (by omega) hm.tables_iff) ((min_le_right _ _).trans hua)
          cases j with
          | zero => rw [add_zero, add_zero, h2.outside lo (by omega) (by omega), hlo1]
          | succ j =>
            have := h2.all (by rw [hmin]; omega) j (by omega) (by omega)
            rw [hentseg] at this
            rwa [show lo + (j + 1) = lo + 1 + j by omega]
        · exact h2.tables m ((hm.tables_iff m).mpr (.inl hp))
    · rw [below_kernbase] at h1
      obtain ⟨rfl, rfl⟩ := pair_ok hr
      exact ⟨⟨own, .refl h hd, fun _ _ _ => rfl, fun j _ hu => by omega, fun _ _ _ => rfl,
        fun _ j _ hu => by omega, fun _ hp => hp⟩, by omega⟩

/-- With a flag that is not one of the two, nothing is mapped. -/
theorem attachLoop_none {a r : ℕ} (hr : attachLoop d key none n i a k = .ok (r, k')) : k' = k := by
  induction n generalizing i a with
  | zero => exact (pair_ok hr).2.symm
  | succ n ih =>
    unfold attachLoop at hr
    split_ifs at hr
    · exact ih hr
    · exact (pair_ok hr).2.symm

theorem clearLoop_resized (h : Wf k own) (hd : own d = .dir) {a : ℕ}
    (hn : a / 4096 + n ≤ allPages) (hr : clearLoop d n a k = .ok k') :
    ∃ own', Resized d k own k' own' ∧
      (∀ m < allPages, k'.entry d m =
        if a / 4096 ≤ m ∧ m < a / 4096 + n then 0 else k.entry d m) ∧ k'.mem d = k.mem d := by
  induction n generalizing a k own with
  | zero =>
    obtain rfl := ok.inj hr
    exact ⟨own, .refl h hd, fun m _ => by rw [if_neg (by omega)], rfl⟩
  | succ n ih =>
    unfold clearLoop at hr
    rw [walkpgdir_false] at hr
    split at hr
    · cases hr
    · rename_i t i hw
      dsimp only at hw
      split_ifs at hw with hp
      obtain ⟨rfl, rfl⟩ := Prod.mk.inj (Option.some.inj hw)
      obtain ⟨own1, h1, _⟩ := clear_entry h hd (by omega) hp
      have ha : (a + PGSIZE) / 4096 = a / 4096 + 1 := by
        unfold PGSIZE
        omega
      obtain ⟨own2, h2, he2, hm2⟩ := ih h1.wf h1.dir (by omega) hr
      refine ⟨own2, h1.trans h2, fun m hm => ?_, hm2.trans (h.store_mem_dir hd hp hd)⟩
      rw [he2 m hm, ha, h.entry_store hd (by omega) hp hd hm]
      by_cases e : m = a / 4096
      · subst e
        simp
      · by_cases hc : a / 4096 + 1 ≤ m ∧ m < a / 4096 + 1 + n
        · rw [if_pos hc, if_pos (by omega)]
        · rw [if_neg hc, if_neg fun e' => e e'.2, if_neg (by omega)]

/-! ### Creating and deleting segments -/

/-- Pages go over from the free list to a segment or back, all at once. -/
theorem Wf.transfer (h : Wf k own) {own' : ℕ → Role}
    (hmem : ∀ v, (own v = .dir ∨ ∃ d x, own v = .tab d x) → k'.mem v = k.mem v)
    (hkeep : ∀ v, own' v = own v ∨
      (own v = .free ∨ (∃ key i, own v = .seg key i) ∧ ∀ d n, own d = .dir → n < userPages →
        Present (k.entry d n) → frame (k.entry d n) ≠ v) ∧
      (own' v = .free ∨ ∃ key i, own' v = .seg key i))
    (hfree : ∀ v, v ∈ k'.freelist ↔ own' v = .free) (hnd : k'.freelist.Nodup)
    (hseg : ∀ v key i, own' v = .seg key i ↔
      key < numOfSegs ∧ (i : ℤ) < k'.shm.pages key ∧ k'.shm.seg key i = v) : Wf k' own' := by
  have hdir : ∀ {v}, own' v = .dir → own v = .dir := by
    intro v hv
    rcases hkeep v with e | ⟨_, e | ⟨_, _, e⟩⟩
    · rw [← e, hv]
    · rw [hv] at e
      cases e
    · rw [hv] at e
      cases e
  have he := fun {d} => h.entry_eq hmem (d := d)
  refine ⟨fun v hv => ?_, hfree, hnd, fun d x hd hx hp => ?_, fun d n hd hn hp => ?_,
    fun d n hd hn hp => ?_, fun d n hd h1 h2 => ?_, hseg⟩
  · rcases hkeep v with e | ⟨e | ⟨⟨_, _, e⟩, _⟩, _⟩
    · exact h.page v (by rwa [← e])
    · exact h.page v (by simp [e])
    · exact h.page v (by simp [e])
  · rw [hmem d (.inl (hdir hd))] at hp ⊢
    have ht := h.tab d x (hdir hd) hx hp
    rcases hkeep (frame (k.mem d x)) with e | ⟨e | ⟨⟨_, _, e⟩, _⟩, _⟩
    · rw [e, ht]
    · rw [ht] at e
      cases e
    · rw [ht] at e
      cases e
  · rw [he (hdir hd)] at hp ⊢
    have hu := h.user d n (hdir hd) hn hp
    rcases hkeep (frame (k.entry d n)) with e | ⟨e | ⟨_, e⟩, _⟩
    · rw [e]
      exact hu
    · rw [e] at hu
      rcases hu with hu | ⟨_, _, hu⟩ <;> cases hu
    · exact absurd rfl (e d n (hdir hd) hn hp)
  · rw [he (hdir hd)] at hp ⊢
    exact h.absent d n (hdir hd) hn hp
  · rw [he (hdir hd)]
    exact h.kern d n (hdir hd) h1 h2

/-- Free pages get another role; otherwise everything remains as it is. -/
structure Taken (k : Kernel) (own : ℕ → Role) (k' : Kernel) (own' : ℕ → Role) : Prop where
  role : ∀ v, own v ≠ .free → own' v = own v
  seg : ∀ v, own v = .free → own' v = .free ∨ ∃ key i, own' v = .seg key i
  mem : ∀ v, own v ≠ .free → k'.mem v = k.mem v
  proc : k'.proc = k.proc
  nextpid : k'.nextpid = k.nextpid
  count : k'.shm.count = k.shm.count
  pages : ∀ key, k'.shm.pages key = k.shm.pages key ∨ k.shm.pages key = 0

theorem Taken.refl (k : Kernel) (own : ℕ → Role) : Taken k own k own :=
  ⟨fun _ _ => rfl, fun _ h => .inl h, fun _ _ => rfl, rfl, rfl, rfl, fun _ => .inl rfl⟩

/-- The first `n` free pages become the segment of `key`. -/
theorem Wf.createSeg (h : Wf k own) (hk : key < numOfSegs) (hp : k.shm.pages key = 0) (hn : n ≤ k.freelist.length)
    (hmem : k'.mem = k.mem) (hfree : k'.freelist = k.freelist.drop n)
    (hpages : k'.shm.pages = update k.shm.pages key n)
    (hseg : k'.shm.seg = (k.shm.withRow key (fill (k.shm.seg key) 0 (k.freelist.take n))).seg) :
    Wf k' fun v => if v ∈ k.freelist.take n then .seg key ((k.freelist.take n).idxOf v) else own v := by
  set l := k.freelist.take n with hl
  have hln : l.length = n := by
    rw [hl, length_take]
    omega
  have hfl : ∀ v, v ∈ k.freelist ↔ v ∈ l ∨ v ∈ k.freelist.drop n := fun v => by
    rw [← mem_append, hl, take_append_drop]
  have hdisj : ∀ v, v ∈ l → v ∉ k.freelist.drop n := fun v hv hv' => by
    have hnd := h.nodup
    rw [← take_append_drop n k.freelist] at hnd
    exact (nodup_append.mp hnd).2.2 v hv v hv' rfl
  have hlf : ∀ v ∈ l, own v = .free := fun v hv => (h.free v).mp ((hfl v).mpr (.inl hv))
  refine h.transfer (fun v _ => by rw [hmem]) (fun v => ?_) (fun v => ?_) ?_ (fun v key' i => ?_)
  · by_cases hv : v ∈ l
    · exact .inr ⟨.inl (hlf v hv), .inr ⟨_, _, if_pos hv⟩⟩
    · exact .inl (if_neg hv)
  · rw [hfree]
    by_cases hv : v ∈ l
    · simp [hv, hdisj v hv]
    · rw [if_neg hv, ← h.free, hfl]
      simp [hv]
  · rw [hfree]
    exact h.nodup.sublist (drop_sublist _ _)
  · rw [hpages, hseg]
    obtain rfl | hkk := eq_or_ne key' key
    · rw [update_self, Shm.withRow_self]
      have hdead : own v ≠ .seg key' i := by
        rw [ne_eq, h.seg, hp]
        rintro ⟨_, e, _⟩
        omega
      constructor
      · intro e
        split_ifs at e with hv
        · obtain rfl := (Role.seg.inj e).2
          have hlt := idxOf_lt_length_of_mem hv
          refine ⟨by omega, by omega, ?_⟩
          rw [fill_getElem _ _ hlt, getElem_idxOf]
        · exact absurd e hdead
      · rintro ⟨_, hi, rfl⟩
        have hi' : i < l.length := by omega
        rw [fill_getElem _ _ hi', if_pos (getElem_mem hi'),
          (h.nodup.sublist (take_sublist _ _)).idxOf_getElem]
    · rw [update_of_ne hkk, Shm.withRow_of_ne _ _ hkk, ← h.seg]
      by_cases hv : v ∈ l
      · rw [if_pos hv, hlf v hv]
        simp [Ne.symm hkk]
      · rw [if_neg hv]

/-- With too few free pages for the segment they go back, in reverse order. -/
theorem undoLoop_taken (h : Wf k own) (hp : k.shm.pages key = 0)
    (hr : undoLoop key k.freelist.length 0 { k with
      freelist := []
      shm := k.shm.withRow key (update (fill (k.shm.seg key) 0 k.freelist) k.freelist.length 0) } =
        .ok k') : Wf k' own ∧ Taken k own k' own := by
  have hmo := undoLoop_memOnly.ok hr
  set row := update (fill (k.shm.seg key) 0 k.freelist) k.freelist.length 0 with hrow
  have hrowj : ∀ j < k.freelist.length, row j = fill (k.shm.seg key) 0 k.freelist j := fun j hj =>
    update_of_ne (by omega) _ _
  have hmemj : ∀ j < k.freelist.length, (k.shm.withRow key row).seg key j ∈ k.freelist := by
    intro j hj
    rw [Shm.withRow_self, hrowj j hj, fill_getElem _ _ hj]
    exact getElem_mem hj
  have hpage := fun v (hv : v ∈ k.freelist) => h.page v (by simp [(h.free v).mp hv])
  obtain ⟨k1, e, -, hf, hm⟩ := undoLoop_pages
    (k := { k with freelist := [], shm := k.shm.withRow key row }) (n := k.freelist.length) (j := 0)
    fun i _ hi => hpage _ (hmemj i (by omega))
  obtain rfl := ok.inj (e.symm.trans hr)
  have hfree : k1.freelist = k.freelist.reverse := by
    rw [hf]
    show (map ((k.shm.withRow key row).seg key) _).reverse ++ [] = _
    rw [append_nil]
    congr 1
    conv_rhs => rw [← map_fill (k.shm.seg key) 0 k.freelist]
    refine map_congr_left fun j hj => ?_
    rw [Shm.withRow_self, hrowj j (by simpa using hj)]
  have hmem : ∀ v, own v ≠ .free → k1.mem v = k.mem v := fun v hv => by
    refine hm v fun i _ hi e => hv ((h.free v).mp ?_)
    rw [e]
    exact hmemj i (by omega)
  refine ⟨h.transfer (fun v hv => hmem v (by rcases hv with e | ⟨_, _, e⟩ <;> simp [e])) (fun v => .inl rfl)
    (fun v => by rw [hfree, mem_reverse, h.free]) (by rw [hfree]; exact nodup_reverse.mpr h.nodup)
    (fun v key' i => ?_), fun _ _ => rfl, fun _ hv => .inl hv, hmem, hmo.proc, hmo.nextpid,
    by rw [hmo.shm]; rfl, fun key' => .inl (by rw [hmo.shm]; rfl)⟩
  rw [h.seg, hmo.shm]
  show _ ↔ key' < numOfSegs ∧ (i : ℤ) < k.shm.pages key' ∧ (k.shm.withRow key row).seg key' i = v
  obtain rfl | hkk := eq_or_ne key' key
  · rw [hp]
    constructor <;> rintro ⟨_, e, _⟩ <;> omega
  · rw [Shm.withRow_of_ne _ _ hkk]

/-- `shmget(…, CREAT)` moves pages from the free list to the segment. -/
theorem shmcreat_taken (h : Wf k own) {size : ℕ} {r : ℤ} (hr : shmcreat k key size = .ok (r, k')) :
    ∃ own', Wf k' own' ∧ Taken k own k' own' := by
  unfold shmcreat at hr
  split_ifs at hr with hk hp
  swap
  · obtain ⟨_, rfl⟩ := pair_ok hr
    exact ⟨own, h, .refl k own⟩
  dsimp only at hr
  generalize pgRoundUp size / PGSIZE = n at hr
  obtain ⟨⟨⟨b, i⟩, k1⟩, e1, hr⟩ := bind_ok hr
  have hnb : ¬ (numOfSegs < 0 + n ∧ numOfSegs ≤ 0 + k.freelist.length) := fun hb => by
    rw [(creatLoop_bounds (Nat.zero_le _)).mpr hb] at e1
    cases e1
  by_cases hn : n ≤ k.freelist.length
  · rw [creatLoop_enough (by omega) hn] at e1
    obtain ⟨e, rfl⟩ := pair_ok e1
    obtain ⟨rfl, rfl⟩ := Prod.mk.inj e
    obtain ⟨_, rfl⟩ := pair_ok hr
    have hlf : ∀ v ∈ k.freelist.take n, own v = .free := fun v hv => (h.free v).mp (mem_of_mem_take hv)
    refine ⟨_, h.createSeg (by omega) hp hn rfl rfl (setRefs_pages _ _) rfl, fun v hv =>
      if_neg fun hm => hv (hlf v hm), fun v hv => ?_, fun _ _ => rfl, rfl, rfl, ?_, fun key' => ?_⟩
    · by_cases hm : v ∈ k.freelist.take n
      · exact .inr ⟨_, _, if_pos hm⟩
      · exact .inl ((if_neg hm).trans hv)
    · rw [setRefs_count]
      rfl
    · rw [setRefs_pages]
      by_cases hkk : key' = key
      · exact .inr (by rw [hkk]; exact hp)
      · rw [update_of_ne hkk]
        exact .inl rfl
  · rw [creatLoop_short (by omega) (by omega), zero_add] at e1
    obtain ⟨e, rfl⟩ := pair_ok e1
    obtain ⟨rfl, rfl⟩ := Prod.mk.inj e
    obtain ⟨k2, e2, hr⟩ := bind_ok hr
    obtain ⟨_, rfl⟩ := pair_ok hr
    exact ⟨own, undoLoop_taken h hp e2⟩

theorem shmget_taken (h : Wf k own) {key : ℤ} {size : ℕ} {flg junk r : ℤ}
    (hr : shmget k key size flg junk = .ok (r, k')) : ∃ own', Wf k' own' ∧ Taken k own k' own' := by
  unfold shmget at hr
  split_ifs at hr
  · obtain ⟨_, rfl⟩ := pair_ok hr
    exact ⟨own, h, .refl k own⟩
  · exact shmcreat_taken h hr
  · obtain ⟨_, rfl⟩ := pair_ok hr
    exact ⟨own, h, .refl k own⟩
  · obtain ⟨_, rfl⟩ := pair_ok hr
    exact ⟨own, h, .refl k own⟩
  · obtain ⟨_, rfl⟩ := pair_ok hr
    exact ⟨own, h, .refl k own⟩

/-- The segment that `shmdel` removes. -/
def Deletes (k : Kernel) (shmid : ℤ) (key : ℕ) : Prop :=
  (k.shm.find fun v => decide (shmid = toInt v)) = some key ∧ k.shm.count key ≤ 0 ∧
    0 < k.shm.pages key
deriving Decidable

theorem delLoop_proc (h : delLoop key n i k = .ok k') : k'.proc = k.proc := by
  induction n generalizing i k with
  | zero =>
    obtain rfl := ok.inj h
    rfl
  | succ n ih =>
    unfold delLoop at h
    split_ifs at h
    obtain ⟨k1, e1, h⟩ := bind_ok h
    rw [ih h, Kernel.setRefs_proc, (kfree_memOnly.ok e1).proc]

/-- `shmdel` does nothing, or it gives the pages of a segment back. -/
theorem shmdel_ok (h : Wf k own) (hrow : Rows k) {shmid r : ℤ} (hr : shmdel k shmid = .ok (r, k')) :
    (k' = k ∧ ∀ key, ¬ Deletes k shmid key) ∨
    ∃ key, Deletes k shmid key ∧ r = k.shm.pages key ∧ k'.shm.seg = k.shm.seg ∧
      k'.shm.pages = update k.shm.pages key 0 ∧ k'.shm.count = k.shm.count ∧
      k'.proc = k.proc ∧ k'.freelist.Nodup ∧
      (∀ v, v ∈ k'.freelist ↔ own v = .free ∨ ∃ i, own v = .seg key i) ∧
      ∀ v, (∀ i, own v ≠ .seg key i) → k'.mem v = k.mem v := by
  unfold shmdel at hr
  split at hr
  · rename_i hf
    obtain ⟨_, rfl⟩ := pair_ok hr
    refine .inl ⟨rfl, fun key hd => ?_⟩
    rw [Deletes, hf] at hd
    cases hd.1
  · rename_i key hf
    have hkey : ∀ key', Deletes k shmid key' → key' = key := fun key' hd => by
      rw [Deletes, hf] at hd
      exact (Option.some.inj hd.1).symm
    split_ifs at hr with hc
    · obtain ⟨_, rfl⟩ := pair_ok hr
      refine .inl ⟨rfl, fun key' hd => ?_⟩
      obtain rfl := hkey key' hd
      have := hd.2.1
      omega
    · obtain ⟨k1, e1, hr⟩ := bind_ok hr
      obtain ⟨hr', rfl⟩ := pair_ok hr
      have hk := hrow key
      have hk100 := (find_some hf).1
      by_cases hp : 0 < k.shm.pages key
      swap
      · have h0 : k.shm.pages key = 0 := by omega
        rw [h0] at e1
        obtain rfl := ok.inj e1
        refine .inl ⟨rfl, fun key' hd => ?_⟩
        obtain rfl := hkey key' hd
        exact hp hd.2.2
      obtain ⟨n, hn⟩ : ∃ n : ℕ, k.shm.pages key = n := ⟨(k.shm.pages key).toNat, by omega⟩
      have hown : ∀ i < n, own (k.shm.seg key i) = .seg key i := fun i hi =>
        (h.seg _ _ _).mpr ⟨hk100, by omega, rfl⟩
      rw [hn, Int.toNat_natCast] at e1
      have hpages : ∀ i, 0 ≤ i → i < 0 + n → Page (k.shm.seg key i) := fun i _ hi =>
        h.page _ (by simp [hown i (by omega)])
      obtain ⟨k2, e2, h1, h2, h3, h4, h5⟩ := delLoop_pages (by omega) hpages
      rw [e2] at e1
      obtain rfl := ok.inj e1
      have hmem : ∀ v, v ∈ (range' 0 n).map (k.shm.seg key) ↔ ∃ i, own v = .seg key i := by
        intro v
        rw [mem_map]
        constructor
        · rintro ⟨i, hi, rfl⟩
          exact ⟨i, hown i (by simpa using hi)⟩
        · rintro ⟨i, hi⟩
          have hi' := (h.seg _ _ _).mp hi
          exact ⟨i, by simp; omega, hi'.2.2⟩
      refine .inr ⟨key, ⟨hf, by omega, hp⟩, hr'.symm, h1, ?_, h2, delLoop_proc e2, ?_, fun v => ?_,
        fun v hv => h5 v fun i _ hi e => ?_⟩
      · rw [h3, hn, sub_self]
      · rw [h4, nodup_append]
        refine ⟨nodup_reverse.mpr (List.Nodup.map_on (fun i hi j hj e => ?_)
          nodup_range'), h.nodup, fun v hv w hw e => ?_⟩
        · have ei := hown i (by simpa using hi)
          rw [e, hown j (by simpa using hj)] at ei
          exact (Role.seg.inj ei).2.symm
        · obtain ⟨i, hi⟩ := (hmem v).mp (mem_reverse.mp hv)
          rw [e, (h.free w).mp hw] at hi
          cases hi
      · rw [h4, mem_append, mem_reverse, hmem, h.free]
        tauto
      · rw [e] at hv
        exact hv i (hown i (by omega))

theorem shmdel_wf (h : Wf k own) (hseg : k'.shm.seg = k.shm.seg)
    (hpages : k'.shm.pages = update k.shm.pages key 0) (hnd : k'.freelist.Nodup)
    (hfree : ∀ v, v ∈ k'.freelist ↔ own v = .free ∨ ∃ i, own v = .seg key i)
    (hmem : ∀ v, (∀ i, own v ≠ .seg key i) → k'.mem v = k.mem v)
    (hun : ∀ d n, own d = .dir → n < userPages → Present (k.entry d n) →
      ∀ i, own (frame (k.entry d n)) ≠ .seg key i) :
    ∃ own', Wf k' own' ∧ (∀ v, (∀ i, own v ≠ .seg key i) → own' v = own v) ∧
      ∀ v i, own v = .seg key i → own' v = .free := by
  classical
  set own' : ℕ → Role := fun v => if ∃ i, own v = .seg key i then .free else own v with hown
  have hfreed : ∀ v i, own v = .seg key i → own' v = .free := fun v i e => if_pos ⟨i, e⟩
  have hkeep : ∀ v, (∀ i, own v ≠ .seg key i) → own' v = own v := fun v hv =>
    if_neg fun ⟨i, e⟩ => hv i e
  refine ⟨own', h.transfer (fun v hv => hmem v fun i e => ?_) (fun v => ?_) (fun v => ?_) hnd
    (fun v key' i => ?_), hkeep, hfreed⟩
  · rw [e] at hv
    rcases hv with e | ⟨_, _, e⟩ <;> cases e
  · by_cases hv : ∃ i, own v = .seg key i
    · obtain ⟨i, hi⟩ := hv
      refine .inr ⟨.inr ⟨⟨key, i, hi⟩, fun d n hd hn hp e => ?_⟩, .inl (hfreed v i hi)⟩
      exact hun d n hd hn hp i (by rw [e, hi])
    · exact .inl (if_neg hv)
  · rw [hfree]
    by_cases hv : ∃ i, own v = .seg key i
    · obtain ⟨i, hi⟩ := hv
      simp [hfreed v i hi, hi]
    · rw [show own' v = own v from if_neg hv]
      simp [hv]
  · rw [hseg, hpages]
    by_cases hkk : key' = key
    · subst hkk
      rw [update_self]
      constructor
      · intro e
        by_cases hv : ∃ i, own v = .seg key' i
        · obtain ⟨i', hi⟩ := hv
          rw [hfreed v i' hi] at e
          cases e
        · rw [show own' v = own v from if_neg hv] at e
          exact absurd ⟨i, e⟩ hv
      · rintro ⟨_, e, _⟩
        omega
    · rw [update_of_ne hkk, ← h.seg]
      by_cases hv : ∃ i, own v = .seg key i
      · obtain ⟨i', hi⟩ := hv
        rw [hfreed v i' hi, hi]
        simp [Ne.symm hkk]
      · rw [show own' v = own v from if_neg hv]

end

end Xv6.Vm
