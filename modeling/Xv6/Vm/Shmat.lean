import Xv6.Vm.Attach

/-! # `shmat` attaches the whole segment or nothing

`shmat` counts an attachment before it looks at the flag, checks the room below `KERNBASE` for one page
only, and does not look at the results of `mappages`. `shmat_whole_iff` says when this does no harm: in a
state in which every page has one use (`Inv`), the call attaches the whole segment or does nothing exactly
under `ShmatOk`. -/

namespace Xv6.Vm

open Runs Fallible Option Function

section
variable {k k' : Kernel} {own : ℕ → Role} {d key perm n i lo r : ℕ}

/-! ### One round of the loop -/

/-- One page: it is mapped, or there is no memory for its table. -/
theorem attachLoop_succ (h : Wf k own) (hd : own d = .dir) (hf : perm ||| PTE_P < 4096)
    (ho : (perm ||| PTE_P) % 2 = 1) (hseg : own (k.shm.seg key i) = .seg key i) (hlo : lo < userPages)
    (hr : attachLoop d key (some perm) (n + 1) i (4096 * lo) k = .ok (r, k')) :
    ∃ k1, MemOnly k k1 ∧ attachLoop d key (some perm) n (i + 1) (4096 * (lo + 1)) k1 = .ok (r, k') ∧
      (k1 = k ∧ k.freelist = [] ∧ ¬ Present (k.pde d lo) ∨
        ∃ own1, Mapped d lo (segEntry k key perm i) k own k1 own1) := by
  have e4 : 4096 * lo / 4096 = lo := by omega
  rw [attachLoop, if_pos (below_kernbase.mpr hlo)] at hr
  split_ifs at hr
  obtain ⟨⟨b, k1⟩, hmap, hr⟩ := bind_ok hr
  have hmem := mappages_memOnly.ok hmap
  rw [mappages_one (by omega) (by unfold userPages at hlo; omega)] at hmap
  refine ⟨k1, hmem, ?_, ?_⟩
  · rw [show 4096 * (lo + 1) = 4096 * lo + PGSIZE by unfold PGSIZE; omega]
    exact hr
  · obtain ⟨-, hk1, hnil, hnp⟩ | ⟨-, own1, hm⟩ := map_seg h hd (by rw [e4]; exact hlo) hseg hf ho hmap
    · rw [e4] at hnp
      exact .inl ⟨hk1, hnil, hnp⟩
    · rw [e4] at hm
      exact .inr ⟨own1, hm⟩

theorem Mapped.seg_own {w : ℕ} {k1 : Kernel} {own1 : ℕ → Role} (hm : Mapped d lo w k own k1 own1)
    (hd : own d = .dir) {v : ℕ} (hv : own v = .seg key i) : own1 v = .seg key i := by
  have hne : v ≠ d := by
    rintro rfl
    rw [hd] at hv
    cases hv
  rw [hm.role v hne (by rw [hv]; trivial), hv]

/-- With too little memory for the page tables, some page is left out. -/
theorem attachLoop_short (h : Wf k own) (hd : own d = .dir) (hf : perm ||| PTE_P < 4096)
    (ho : (perm ||| PTE_P) % 2 = 1)
    (hseg : ∀ j < n, own (k.shm.seg key (i + j)) = .seg key (i + j)) (hroom : lo + n ≤ userPages)
    (hshort : k.freelist.length < (missingTables k d lo (lo + n)).card)
    (hr : attachLoop d key (some perm) n i (4096 * lo) k = .ok (r, k')) :
    ∃ j < n, k'.entry d (lo + j) = 0 := by
  have hua := userPages_le
  induction n generalizing i lo k own with
  | zero =>
    rw [Nat.add_zero, missingTables, Finset.Ico_self] at hshort
    exact absurd hshort (by simp)
  | succ n ih =>
    obtain ⟨k1, hmem, hnext, hstep⟩ := attachLoop_succ h hd hf ho (hseg 0 (by omega)) (by omega) hr
    have hseg' : ∀ j < n, own (k1.shm.seg key (i + 1 + j)) = .seg key (i + 1 + j) := by
      intro j hj
      rw [hmem.shm, show i + 1 + j = i + (j + 1) by omega]
      exact hseg (j + 1) (by omega)
    obtain ⟨rfl, hnil, hnp⟩ | ⟨own1, hm⟩ := hstep
    · obtain ⟨⟨own2, hatt⟩, -⟩ := attachLoop_attached h hd hf ho hseg' hnext
      refine ⟨0, by omega, ?_⟩
      rw [Nat.add_zero, hatt.outside lo (by omega) (.inl (by omega)), Kernel.entry, if_neg hnp]
    · have hfree := hm.free
      rw [pde_eq_mem (by omega)] at hfree
      have hcard := missingTables_succ (show lo < lo + (n + 1) by omega)
        (tables_mem (by omega) hm.tables_iff) (by omega)
      obtain ⟨j, hj, hzero⟩ := ih (i := i + 1) hm.wf hm.dir
        (fun j hj => hm.seg_own hd (hseg' j hj)) (by omega : lo + 1 + n ≤ userPages)
        (by rw [show lo + 1 + n = lo + (n + 1) by omega]; omega) hnext
      exact ⟨j + 1, by omega, by rw [show lo + (j + 1) = lo + 1 + j by omega]; exact hzero⟩

theorem mapLoop_returns (h : Wf k own) (hd : own d = .dir) {a : ℕ} (perm pa : ℕ)
    (hfresh : ¬ Present (k.entry d (a / 4096))) : ∃ b k', mapLoop d perm 1 a pa k = .ok (b, k') := by
  rw [mapLoop]
  obtain ⟨-, -, hw⟩ | ⟨k1, own1, hw, ht⟩ := h.walk hd a
  · exact ⟨false, k, by rw [hw]⟩
  · have hnp : ¬ k1.mem (frame (k1.pde d (a / 4096))) (a / 4096 % 1024) &&& PTE_P ≠ 0 := by
      rw [present_and, ← entry_of_present ht.present, ht.entry_eq]
      exact hfresh
    rw [hw]
    dsimp only
    rw [if_neg hnp, mapLoop]
    exact ⟨true, _, rfl⟩

/-- Where nothing is mapped yet, the loop comes to its end. -/
theorem attachLoop_returns (h : Wf k own) (hd : own d = .dir) (hf : perm ||| PTE_P < 4096)
    (ho : (perm ||| PTE_P) % 2 = 1)
    (hseg : ∀ j < n, own (k.shm.seg key (i + j)) = .seg key (i + j)) (hroom : lo + n ≤ userPages)
    (hrow : i + n ≤ numOfSegs) (hfresh : ∀ j < n, ¬ Present (k.entry d (lo + j))) :
    ∃ r k', attachLoop d key (some perm) n i (4096 * lo) k = .ok (r, k') := by
  have hua := userPages_le
  induction n generalizing i lo k own with
  | zero => exact ⟨_, _, by rw [attachLoop]⟩
  | succ n ih =>
    have hlo : lo < userPages := by omega
    have e4 : 4096 * lo / 4096 = lo := by omega
    have hs0 : own (k.shm.seg key i) = .seg key i := hseg 0 (by omega)
    have hone : mappages k d (4096 * lo) PGSIZE (v2p (k.shm.seg key i)) perm =
        mapLoop d perm 1 (4096 * lo) (v2p (k.shm.seg key i)) k :=
      mappages_one (by omega) (by unfold userPages at hlo; omega)
    have hnext : 4096 * lo + PGSIZE = 4096 * (lo + 1) := by unfold PGSIZE; omega
    rw [attachLoop, if_pos (below_kernbase.mpr hlo), if_pos (show i < numOfSegs by omega)]
    obtain ⟨b, k1, hmap⟩ := mapLoop_returns h hd perm (v2p (k.shm.seg key i))
      (show ¬ Present (k.entry d (4096 * lo / 4096)) by rw [e4]; exact hfresh 0 (by omega))
    have hmem := mappages_memOnly.ok (hone.trans hmap)
    have hseg' : ∀ j < n, own (k1.shm.seg key (i + 1 + j)) = .seg key (i + 1 + j) := by
      intro j hj
      rw [hmem.shm, show i + 1 + j = i + (j + 1) by omega]
      exact hseg (j + 1) (by omega)
    dsimp only
    rw [hone, hmap, hnext]
    dsimp only [bind, Except.bind]
    obtain ⟨-, rfl, -, -⟩ | ⟨-, own1, hm⟩ := map_seg h hd (by rw [e4]; exact hlo) hs0 hf ho hmap
    · refine ih h hd hseg' (by omega) (by omega) fun j hj => ?_
      rw [show lo + 1 + j = lo + (j + 1) by omega]
      exact hfresh (j + 1) (by omega)
    · rw [e4] at hm
      refine ih hm.wf hm.dir (fun j hj => hm.seg_own hd (hseg' j hj)) (by omega) (by omega) fun j hj => ?_
      rw [hm.entry_eq _ (by omega), if_neg (by omega), show lo + 1 + j = lo + (j + 1) by omega]
      exact hfresh (j + 1) (by omega)

end

/-! ### The whole call -/

/-- The pages of all processes are mapped as before, except those of `p` for which `new` holds. -/
def SameMaps (k k' : Kernel) (p : Slot) (new : ℕ → Prop) : Prop :=
  ∀ q, k.live q → k'.dirOf q = k.dirOf q ∧
    ∀ m < allPages, (q = p → ¬ new m) → k'.entry (k.dirOf q) m = k.entry (k.dirOf q) m

/-- The segment of `key` is attached behind the old end of `p`: its pages in order, with the permissions
the flag asks for, and nothing else has changed. -/
structure AttachedWhole (k k' : Kernel) (p : Slot) (key : ℕ) (flg : ℤ) : Prop where
  pages : ∀ i < (k.shm.pages key).toNat,
    Present (k'.entry (k.dirOf p) (k.topPage p + i)) ∧
    frame (k'.entry (k.dirOf p) (k.topPage p + i)) = k.shm.seg key i ∧
    k'.entry (k.dirOf p) (k.topPage p + i) &&& PTE_U ≠ 0 ∧
    (k'.entry (k.dirOf p) (k.topPage p + i) &&& PTE_W ≠ 0 ↔ flg = SHM_RDWR)
  size : (k'.proc p).sz = pgRoundUp (k.proc p).sz + (k.shm.pages key).toNat * PGSIZE
  below : (k'.proc p).sz < KERNBASE
  count : ∀ key', k'.shm.count key' = if key' = key then k.shm.count key + 1 else k.shm.count key'
  hasShm : (k'.proc p).hasShm = (k.proc p).hasShm + 1
  others : SameMaps k k' p fun m => k.topPage p ≤ m ∧ m < k.topPage p + (k.shm.pages key).toNat

/-- Mappings, sizes and counters are as they were. -/
structure Unchanged (k k' : Kernel) (p : Slot) : Prop where
  maps : SameMaps k k' p fun _ => False
  size : (k'.proc p).sz = (k.proc p).sz
  hasShm : (k'.proc p).hasShm = (k.proc p).hasShm
  refs : k'.shm.refs = k.shm.refs

/-- `shmat` returns the page-aligned end of the process and has attached the segment there, or it returns
`-1` and has done nothing. -/
def AttachesWhole (k : Kernel) (p : Slot) (shmid flg : ℤ) : Prop :=
  ∃ r k', shmat k p shmid flg = .ok (r, k') ∧
    (r = -1 ∧ Unchanged k k' p ∨
      ∃ key < numOfSegs, 0 < k.shm.pages key ∧ shmid = toInt (k.shm.seg key 0) ∧
        r = pgRoundUp (k.proc p).sz ∧ AttachedWhole k k' p key flg)

/-- The process's pid has a place of its own in the row of the counter, the flag is one of the two, the whole
segment fits below `KERNBASE`, nothing is mapped there yet, and there is memory for the page tables. -/
structure FitsWhole (k : Kernel) (p : Slot) (key : ℕ) (flg : ℤ) : Prop where
  pid : (k.proc p).pid < 64 ∨ (k.proc p).pid = 64 ∧ k.shm.count key = 0
  flag : flg = SHM_RDONLY ∨ flg = SHM_RDWR
  room : k.topPage p + (k.shm.pages key).toNat < userPages
  fresh : ∀ i < (k.shm.pages key).toNat, ¬ Present (k.entry (k.dirOf p) (k.topPage p + i))
  tables : (missingTables k (k.dirOf p) (k.topPage p) (k.topPage p + (k.shm.pages key).toNat)).card ≤
    k.freelist.length

/-- The lock is free; and if the call gets as far as counting, the segment fits. -/
def ShmatOk (k : Kernel) (p : Slot) (shmid flg : ℤ) : Prop :=
  k.shm.locked = false ∧ ∀ key < numOfSegs, Attaches k p shmid key → FitsWhole k p key flg

section
variable {k k' : Kernel} {own : ℕ → Role} {p : Slot} {key perm : ℕ} {shmid flg r : ℤ}

theorem write_iff (w : ℕ) : w &&& PTE_W ≠ 0 ↔ w / 2 % 2 = 1 := by
  simpa [PTE_W] using Words.and_two_pow_ne_zero w 1

theorem Page.perm_bits {v : ℕ} (h : Page v) (hperm : shmPerm flg = some perm) :
    (v2p v ||| (perm ||| PTE_P)) &&& PTE_U ≠ 0 ∧
      ((v2p v ||| (perm ||| PTE_P)) &&& PTE_W ≠ 0 ↔ flg = SHM_RDWR) := by
  have ha := h.v2p_aligned
  rw [h.or_flags (shmPerm_some hperm).1, user_iff, write_iff]
  unfold shmPerm at hperm
  split_ifs at hperm with h1 h2
  · obtain rfl := some.inj hperm
    have hne : flg ≠ SHM_RDWR := by rw [h1]; decide
    simp only [hne, iff_false]
    have h5 : PTE_U ||| PTE_P = 5 := by decide
    omega
  · obtain rfl := some.inj hperm
    have h7 : PTE_W ||| PTE_U ||| PTE_P = 7 := by decide
    simp only [h2, iff_true]
    omega

theorem shmPerm_iff : (shmPerm flg).isSome = true ↔ flg = SHM_RDONLY ∨ flg = SHM_RDWR := by
  unfold shmPerm
  split_ifs with h1 h2
  · simp [h1]
  · simp [h2]
  · simp [h1, h2]

theorem Inv.pgRoundUp_sz (h : Inv k own) (hp : k.live p) : pgRoundUp (k.proc p).sz = 4096 * k.topPage p := by
  have hsz := h.size p hp
  unfold Kernel.topPage pgRoundUp u32 PGSIZE KERNBASE at *
  omega

theorem shmat_result (h : Inv k own) (hp : k.live p) (ha : Attaches k p shmid key)
    (hr : shmat k p shmid flg = .ok (r, k')) :
    r = if (shmPerm flg).isSome = true then (pgRoundUp (k.proc p).sz : ℤ) else -1 := by
  obtain hpid | hpid : (k.proc p).pid ≤ 64 ∨ ¬ (k.proc p).pid ≤ 64 := em _
  swap
  · rw [shmat_some (shmat_unlocked hr) ha, if_neg hpid] at hr
    cases hr
  rw [shmat_some (shmat_unlocked hr) ha, if_pos hpid] at hr
  obtain ⟨⟨a, k1⟩, -, hres⟩ := map_ok hr
  have hint : toInt (pgRoundUp (k.proc p).sz) = pgRoundUp (k.proc p).sz := by
    have hlt := ha.2.2
    have hsz := h.size p hp
    unfold toInt
    rw [if_pos]
    unfold pgRoundUp u32 PGSIZE KERNBASE at *
    omega
  by_cases hperm : (shmPerm flg).isSome = true
  · rw [if_pos hperm] at hres ⊢
    rw [← hint]
    exact (Prod.mk.inj hres).1.symm
  · rw [if_neg hperm] at hres ⊢
    exact (Prod.mk.inj hres).1.symm

/-- The counters after `shmat` has counted, if the pid has a place of its own or the counter was `0`. -/
theorem noted_count_of (hpid : (k.proc p).pid < 64 ∨ (k.proc p).pid = 64 ∧ k.shm.count key = 0) (key' : ℕ) :
    (k.noted p key 1 1).shm.count key' = if key' = key then k.shm.count key + 1 else k.shm.count key' := by
  obtain hlt | ⟨heq, h0⟩ := hpid
  · rw [noted_count hlt]
    split_ifs with e
    · rw [e]
    · rfl
  · unfold Kernel.noted Shm.count
    split_ifs with e
    · subst e
      have h0 : k.shm.refs key' 0 64 = 0 := h0
      simp [heq, h0]
    · simp [e]

theorem Attaches.unique {key' : ℕ} (ha : Attaches k p shmid key) (ha' : Attaches k p shmid key') :
    key' = key :=
  some.inj (ha'.1.symm.trans ha.1)

/-- What `shmat` has done, seen from the state it leaves. -/
theorem shmat_attached (h : Inv k own) (hp : k.live p) (ha : Attaches k p shmid key)
    (hperm : shmPerm flg = some perm) (hr : shmat k p shmid flg = .ok (r, k')) :
    ∃ k1 own1, Attached (k.dirOf p) (k.topPage p) (k.shm.pages key).toNat key perm 0 (k.noted p key 1 1) own
        k1 own1 ∧ k'.entry = k1.entry ∧ k'.dirOf p = k.dirOf p ∧ k'.shm = (k.noted p key 1 1).shm ∧
      (k'.proc p).sz = 4096 * min (k.topPage p + (k.shm.pages key).toNat) userPages ∧
      (k'.proc p).hasShm = (k.proc p).hasShm + 1 := by
  obtain ⟨-, hno⟩ | ⟨key', ha', -, ⟨hnone, -⟩ | ⟨perm', k1, own1, hperm', hm, hatt, rfl⟩⟩ := shmat_cases h hp hr
  · exact absurd ha (hno key)
  · rw [hperm] at hnone
    cases hnone
  · obtain rfl := ha.unique ha'
    obtain rfl := some.inj (hperm.symm.trans hperm')
    have hself : (k.noted p key' 1 1).proc p = { k.proc p with hasShm := (k.proc p).hasShm + 1 } :=
      update_self _ _ _
    refine ⟨k1, own1, hatt, entry_congr (by rw [Kernel.setProc_mem]), ?_, ?_, ?_, ?_⟩
    · rw [Kernel.dirOf, setProc_self, hm.proc, hself]
    · rw [Kernel.setProc_shm, hm.shm]
    · rw [setProc_self]
    · rw [setProc_self, hm.proc, hself]

theorem segEntry_bits (h : Inv k own) (ha : Attaches k p shmid key) (hperm : shmPerm flg = some perm) {i : ℕ}
    (hi : i < (k.shm.pages key).toNat) :
    Present (segEntry (k.noted p key 1 1) key perm (0 + i)) ∧
      frame (segEntry (k.noted p key 1 1) key perm (0 + i)) = k.shm.seg key i ∧
      segEntry (k.noted p key 1 1) key perm (0 + i) &&& PTE_U ≠ 0 ∧
      (segEntry (k.noted p key 1 1) key perm (0 + i) &&& PTE_W ≠ 0 ↔ flg = SHM_RDWR) := by
  obtain ⟨hf, hodd⟩ := shmPerm_some hperm
  have hpage : Page (k.shm.seg key i) := h.wf.page _ (by
    rw [h.wf.seg_own ha.1 (by omega)]
    simp)
  rw [segEntry, zero_add, (SameSegs.noted k p key 1 1).seg]
  exact ⟨hpage.present_or hf hodd, hpage.frame_or hf, hpage.perm_bits hperm⟩

theorem AttachedWhole.of_ok (h : Inv k own) (hp : k.live p) (ha : Attaches k p shmid key)
    (hok : FitsWhole k p key flg) (hr : shmat k p shmid flg = .ok (r, k')) :
    AttachedWhole k k' p key flg := by
  obtain ⟨hpid, hflg, hroom, -, hfree⟩ := hok
  obtain ⟨perm, hperm⟩ := isSome_iff_exists.mp (shmPerm_iff.mpr hflg)
  obtain ⟨own', ht, -⟩ := shmat_turn h hp hr
  obtain ⟨k1, own1, hatt, hent, hdir, hshm, hsz, hhas⟩ := shmat_attached h hp ha hperm hr
  rw [min_eq_left hroom.le] at hsz
  refine ⟨fun i hi => ?_, ?_, ?_, fun key' => ?_, hhas, fun q hq => ?_⟩
  · rw [hent, hatt.all (by rw [min_eq_left hroom.le]; exact hfree) i hi (by omega)]
    exact segEntry_bits h ha hperm hi
  · rw [hsz, h.pgRoundUp_sz hp]
    unfold PGSIZE
    omega
  · rw [hsz]
    exact below_kernbase.mpr hroom
  · rw [hshm]
    exact noted_count_of hpid key'
  · by_cases hqp : q = p
    · subst hqp
      refine ⟨hdir, fun m hm hout => ?_⟩
      rw [hent, hatt.outside m hm (by have := hout rfl; omega), noted_entry]
    · exact ⟨(ht.apart q hqp).pgdir, fun m hm _ => (ht.apart q hqp).entry hq m hm⟩

theorem FitsWhole.of_attached (h : Inv k own) (hp : k.live p) (ha : Attaches k p shmid key)
    (hperm : shmPerm flg = some perm) (hr : shmat k p shmid flg = .ok (r, k'))
    (hw : AttachedWhole k k' p key flg) : FitsWhole k p key flg := by
  obtain ⟨k1, own1, hatt, hent, -, hshm, hsz, -⟩ := shmat_attached h hp ha hperm hr
  have hpid : (k.proc p).pid ≤ 64 := by
    by_contra hpid
    rw [shmat_some (shmat_unlocked hr) ha, if_neg hpid] at hr
    cases hr
  have hroom : k.topPage p + (k.shm.pages key).toNat < userPages := by
    have hsize := hw.size
    have hbelow := hw.below
    rw [hsz, h.pgRoundUp_sz hp] at hsize
    rw [hsz] at hbelow
    unfold PGSIZE at hsize
    unfold KERNBASE userPages at *
    omega
  refine ⟨?_, shmPerm_iff.mp (by rw [hperm]; rfl), hroom, fun i hi => ?_, ?_⟩
  · have hcount := hw.count key
    rw [if_pos rfl, hshm] at hcount
    obtain hlt | heq := Nat.lt_or_eq_of_le hpid
    · exact .inl hlt
    · refine .inr ⟨heq, ?_⟩
      unfold Kernel.noted Shm.count at hcount
      unfold Shm.count
      simp [heq] at hcount
      omega
  · have hin := (hatt.inside i hi (by omega)).1
    rwa [noted_entry] at hin
  · by_contra hlt
    obtain ⟨hno, -⟩ | ⟨key', a, k2, ha', -, hloop, hk'⟩ := shmat_ok hr
    · exact hno key ha
    obtain rfl := ha.unique ha'
    have hent2 : k'.entry = k2.entry := by
      obtain ⟨-, rfl⟩ | ⟨-, rfl⟩ := hk'
      · rfl
      · exact entry_congr rfl
    rw [hperm, h.pgRoundUp_sz hp] at hloop
    obtain ⟨hf, hodd⟩ := shmPerm_some hperm
    have hseg : ∀ j < (k.shm.pages key').toNat,
        own ((k.noted p key' 1 1).shm.seg key' (0 + j)) = .seg key' (0 + j) := by
      intro j hj
      rw [zero_add, (SameSegs.noted k p key' 1 1).seg]
      exact h.wf.seg_own ha.1 (by omega)
    obtain ⟨j, hj, hzero⟩ := attachLoop_short (h.wf.noted p key' 1 1) (h.dir p hp) hf hodd hseg hroom.le
      (Nat.lt_of_not_le hlt) hloop
    have hpr := (hw.pages j hj).1
    rw [hent2, hzero] at hpr
    exact not_present_zero hpr

theorem shmat_returns (h : Inv k own) (hrow : Rows k) (hp : k.live p) (hl : k.shm.locked = false)
    (ha : Attaches k p shmid key) (hfit : FitsWhole k p key flg) :
    ∃ r k', shmat k p shmid flg = .ok (r, k') := by
  obtain ⟨perm, hperm⟩ := isSome_iff_exists.mp (shmPerm_iff.mpr hfit.flag)
  obtain ⟨hf, hodd⟩ := shmPerm_some hperm
  have hpages := hrow key
  have hseg : ∀ j < (k.shm.pages key).toNat,
      own ((k.noted p key 1 1).shm.seg key (0 + j)) = .seg key (0 + j) := by
    intro j hj
    rw [zero_add, (SameSegs.noted k p key 1 1).seg]
    exact h.wf.seg_own ha.1 (by omega)
  obtain ⟨a, k1, hloop⟩ := attachLoop_returns (h.wf.noted p key 1 1) (h.dir p hp) hf hodd hseg hfit.room.le
    (by omega) (fun j hj => by rw [noted_entry]; exact hfit.fresh j hj)
  have hpid : (k.proc p).pid ≤ 64 := by
    obtain hlt | ⟨heq, -⟩ := hfit.pid <;> omega
  rw [shmat_some hl ha, if_pos hpid, hperm, h.pgRoundUp_sz hp, hloop]
  exact ⟨_, _, rfl⟩

theorem Inv.segId_inj (h : Inv k own) {key key' : ℕ} (hk : key < numOfSegs) (hk' : key' < numOfSegs)
    (hpos : 0 < k.shm.pages key) (hpos' : 0 < k.shm.pages key')
    (heq : toInt (k.shm.seg key 0) = toInt (k.shm.seg key' 0)) : key = key' := by
  have hown : own (k.shm.seg key 0) = .seg key 0 := (h.wf.seg _ _ _).mpr ⟨hk, by omega, rfl⟩
  have hown' : own (k.shm.seg key' 0) = .seg key' 0 := (h.wf.seg _ _ _).mpr ⟨hk', by omega, rfl⟩
  have hpage := h.wf.page _ (by rw [hown]; simp)
  have hpage' := h.wf.page _ (by rw [hown']; simp)
  rw [hpage.toInt_inj hpage' heq, hown'] at hown
  exact (Role.seg.inj hown).1.symm

/-- **All or nothing.**  In a state in which every page has one use, `shmat` attaches the whole segment or
does nothing exactly if the lock is free and the segment that it is about to count fits. -/
theorem shmat_whole_iff (h : Inv k own) (hrow : Rows k) (hp : k.live p) (shmid flg : ℤ) :
    AttachesWhole k p shmid flg ↔ ShmatOk k p shmid flg := by
  constructor
  · rintro ⟨r, k', hr, hres⟩
    refine ⟨shmat_unlocked hr, fun key hk ha => ?_⟩
    have hresult := shmat_result h hp ha hr
    obtain ⟨rfl, hsame⟩ | ⟨key', hk', hpos, hid, hret, hw⟩ := hres
    · exfalso
      obtain ⟨-, hno⟩ | ⟨key', ha', -, ⟨-, rfl⟩ | ⟨perm, k1, own1, hperm, -⟩⟩ := shmat_cases h hp hr
      · exact hno key ha
      · have hhas := hsame.hasShm
        rw [show (k.noted p key' 1 1).proc p = { k.proc p with hasShm := (k.proc p).hasShm + 1 } from
          update_self _ _ _] at hhas
        dsimp only at hhas
        omega
      · rw [hperm, isSome_some, if_pos rfl] at hresult
        omega
    · have hfound := (find_some ha.1).2.1
      obtain rfl : key = key' := by
        refine h.segId_inj hk hk' ha.2.1 hpos ?_
        rw [← hid]
        exact (of_decide_eq_true hfound).symm
      cases hperm : shmPerm flg with
      | none =>
        rw [hperm, isSome_none, if_neg (by simp)] at hresult
        omega
      | some perm => exact .of_attached h hp ha hperm hr hw
  · rintro ⟨hl, hfit⟩
    by_cases ha : ∃ key, Attaches k p shmid key
    · obtain ⟨key, ha⟩ := ha
      have hk := (find_some ha.1).1
      have hfit := hfit key hk ha
      obtain ⟨r, k', hr⟩ := shmat_returns h hrow hp hl ha hfit
      have hresult := shmat_result h hp ha hr
      rw [if_pos (shmPerm_iff.mpr hfit.flag)] at hresult
      exact ⟨r, k', hr, .inr ⟨key, hk, ha.2.1, of_decide_eq_true (find_some ha.1).2.1, hresult, .of_ok h hp ha hfit hr⟩⟩
    · have hnone : shmat k p shmid flg = .ok (-1, k) := shmat_none hl fun key hk => ha ⟨key, hk⟩
      exact ⟨-1, k, hnone, .inl ⟨rfl, fun q _ => ⟨rfl, fun _ _ _ => rfl⟩, rfl, rfl, rfl⟩⟩

/-- A segment of one page, attached by init. -/
theorem shmat_whole_one : ∃ k, Reachable OwnOk k ∧ Attaches k initproc (toInt (top 134)) 7 ∧
    AttachesWhole k initproc (toInt (top 134)) SHM_RDONLY := by
  have htest : (step boot (.shmget initproc 7 4096 CREAT 0)).map (fun k => decide
      ((k.proc initproc).state = .running ∧ k.shm.locked = false ∧ (k.proc initproc).pid < 64 ∧
        (k.proc initproc).sz = 4096 ∧ Present (k.mem (k.dirOf initproc) 0) ∧
        ¬ Present (k.entry (k.dirOf initproc) 1) ∧ Attaches k initproc (toInt (top 134)) 7 ∧
        ∀ key < numOfSegs, Attaches k initproc (toInt (top 134)) key →
          (k.shm.pages key).toNat = 1)) = some true := by
    decide +kernel
  obtain ⟨k, hs, ht⟩ := map_eq_some_iff.mp htest
  obtain ⟨hrun, hlock, hpid, hsz, hpde, hent, hat, hone⟩ := of_decide_eq_true ht
  have hk : Reachable OwnOk k := (Reaches.refl boot).snoc (by trivial) hs
  have hk' : Reachable Always k := (Reaches.refl boot).snoc trivial hs
  obtain ⟨own, hi⟩ := hk.inv
  have hp : k.live initproc := by simp [Kernel.live, hrun]
  have htop : k.topPage initproc = 1 := by rw [Kernel.topPage, hsz]
  have hempty : missingTables k (k.dirOf initproc) 1 2 = ∅ := by
    refine Finset.filter_eq_empty_iff.mpr fun x hx => ?_
    obtain ⟨m, hm, rfl⟩ := Finset.mem_image.mp hx
    have hm' := Finset.mem_Ico.mp hm
    rw [show m / 1024 = 0 by omega]
    exact not_not.mpr hpde
  refine ⟨k, hk, hat, (shmat_whole_iff hi hk'.rows hp _ _).mpr ⟨hlock, fun key hkey ha => ?_⟩⟩
  have hpages := hone key hkey ha
  refine ⟨.inl hpid, .inl rfl, ?_, fun i hi => ?_, ?_⟩
  · rw [htop, hpages]
    decide
  · obtain rfl : i = 0 := by omega
    rw [htop]
    exact hent
  · rw [htop, hpages, hempty]
    exact Nat.zero_le _

/-- With a flag that is not one of the two, `shmat` returns `-1` and has counted an attachment. -/
theorem shmat_flag_partial : ∃ k, Reachable OwnOk k ∧ ¬ AttachesWhole k initproc (toInt (top 134)) 0 := by
  have htest : (step boot (.shmget initproc 7 4096 CREAT 0)).map (fun k =>
      (shmat k initproc (toInt (top 134)) 0).toOption.map fun r =>
        decide (r.1 = -1 ∧ (r.2.proc initproc).hasShm ≠ (k.proc initproc).hasShm)) = some (some true) := by
    decide +kernel
  obtain ⟨k, hs, ht⟩ := map_eq_some_iff.mp htest
  obtain ⟨⟨r, k'⟩, hr, ht⟩ := map_eq_some_iff.mp ht
  obtain ⟨hminus, hhas⟩ := of_decide_eq_true ht
  refine ⟨k, (Reaches.refl boot).snoc (by trivial) hs, ?_⟩
  rintro ⟨r', k'', hr', hres⟩
  rw [toOption_some hr] at hr'
  obtain ⟨rfl, rfl⟩ := pair_ok hr'
  obtain ⟨-, hsame⟩ | ⟨key, -, -, -, hret, -⟩ := hres
  · exact hhas hsame.hasShm
  · have hminus : r = -1 := hminus
    omega

end

end Xv6.Vm
