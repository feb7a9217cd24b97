import Xv6.Vm.Shmdt
import Xv6.Vm.Tables

/-! # `exit` detaches all segments

`deallocshm` goes through the keys whose flag is set for the process, and for each through the addresses
below `sz`, from where the search for the key before ended, up to the first page of the segment. It thus
detaches each segment at most once, and none that is attached below the one found before.
`deallocshm_all_iff` says for which processes nothing is left. -/

namespace Xv6.Vm

open Runs Fallible Function Option

/-- The entry for page number `m` leads to the first page of the segment. -/
def Hit (k : Kernel) (d key m : ℕ) : Prop :=
  Present (k.entry d m) ∧ frame (k.entry d m) = k.shm.seg key 0

section
variable {k k' : Kernel} {own : ℕ → Role} {p : Slot} {d sz key c m n a j : ℕ}

/-! ### The scan for one key

A missing page table makes the scan skip 1024 pages. It meets one at the first of the pages it is for
only, since it goes from page to page before. -/

/-- A page at which the scan may be: one with a page table, or the first one of a table. -/
def ScanPoint (k : Kernel) (d c : ℕ) : Prop := Present (k.pde d c) ∨ c % 1024 = 0

theorem ScanPoint.succ (h : Present (k.pde d c)) : ScanPoint k d (c + 1) := by
  by_cases hc : (c + 1) % 1024 = 0
  · exact .inr hc
  · refine .inl ?_
    have heq : (c + 1) / 1024 = c / 1024 := by omega
    rw [Kernel.pde, heq]
    exact h

/-- There is nothing in the pages that a missing table skips. -/
theorem not_hit_of_tableless (hp : ¬ Present (k.pde d c)) (hc : c % 1024 = 0) (hm : c ≤ m ∧ m < c + 1024) :
    ¬ Hit k d key m := by
  intro hit
  have hpde := pde_of_entry hit.1
  have heq : m / 1024 = c / 1024 := by omega
  rw [Kernel.pde, heq] at hpde
  exact hp hpde

theorem detachScan_page (hlt : 4096 * c < sz) (hp : Present (k.pde d c)) :
    detachScan d sz key (n + 1) (4096 * c) k =
      if k.entry d c &&& PTE_P ≠ 0 ∧ k.shm.seg key 0 = frame (k.entry d c) then
        (clearLoop d (k.shm.pages key).toNat (4096 * c) k).map fun k =>
          (4096 * c, if k.shm.count key > 0 then k.setRefs key 0 64 (k.shm.count key - 1) else k)
      else detachScan d sz key n (4096 * (c + 1)) k := by
  have e4 : 4096 * c / 4096 = c := by omega
  have hnext : 4096 * c + PGSIZE = 4096 * (c + 1) := by unfold PGSIZE; omega
  rw [detachScan, if_pos hlt, walkpgdir_false, e4]
  dsimp only
  rw [if_pos hp]
  dsimp only
  rw [← entry_of_present hp, frame_eq, hnext]
  split_ifs
  · cases clearLoop d (k.shm.pages key).toNat (4096 * c) k <;> rfl
  · rfl

theorem detachScan_skip (hlt : 4096 * c < sz) (hp : ¬ Present (k.pde d c)) :
    detachScan d sz key (n + 1) (4096 * c) k = detachScan d sz key n (4096 * (c + 1024)) k := by
  have e4 : 4096 * c / 4096 = c := by omega
  have hnext : 4096 * c + (NPTENTRIES - 1) * PGSIZE + PGSIZE = 4096 * (c + 1024) := by
    unfold NPTENTRIES PGSIZE
    omega
  rw [detachScan, if_pos hlt, walkpgdir_false, e4]
  dsimp only
  rw [if_neg hp]
  dsimp only
  rw [hnext]

theorem detachScan_end (hle : sz ≤ m) : detachScan d sz key n m k = .ok (m, k) := by
  cases n with
  | zero => rfl
  | succ n => rw [detachScan, if_neg (by omega)]

theorem detachScan_miss (hc : ScanPoint k d c) (hfuel : sz ≤ 4096 * (c + n))
    (hno : ∀ m, c ≤ m → 4096 * m < sz → ¬ Hit k d key m) :
    ∃ a, sz ≤ a ∧ detachScan d sz key n (4096 * c) k = .ok (a, k) := by
  induction n generalizing c with
  | zero => exact ⟨4096 * c, hfuel, rfl⟩
  | succ n ih =>
    by_cases hlt : 4096 * c < sz
    · by_cases hp : Present (k.pde d c)
      · have hnot : ¬ (k.entry d c &&& PTE_P ≠ 0 ∧ k.shm.seg key 0 = frame (k.entry d c)) :=
          fun hit => hno c (le_refl c) hlt ⟨(present_and _).mp hit.1, hit.2.symm⟩
        rw [detachScan_page hlt hp, if_neg hnot]
        exact ih (.succ hp) (by omega) fun m hm => hno m (by omega)
      · have hc0 := hc.resolve_left hp
        rw [detachScan_skip hlt hp]
        exact ih (.inr (by omega)) (by omega) fun m hm => hno m (by omega)
    · exact ⟨4096 * c, by omega, detachScan_end (by omega)⟩

theorem detachScan_hit (hc : ScanPoint k d c) (hfuel : sz ≤ 4096 * (c + n)) (hcm : c ≤ m) (hm : 4096 * m < sz)
    (hit : Hit k d key m) (hfirst : ∀ m', c ≤ m' → m' < m → ¬ Hit k d key m') :
    detachScan d sz key n (4096 * c) k = (clearLoop d (k.shm.pages key).toNat (4096 * m) k).map fun k =>
      (4096 * m, if k.shm.count key > 0 then k.setRefs key 0 64 (k.shm.count key - 1) else k) := by
  induction n generalizing c with
  | zero => omega
  | succ n ih =>
    have hlt : 4096 * c < sz := by omega
    by_cases hp : Present (k.pde d c)
    · rw [detachScan_page hlt hp]
      obtain rfl | hne := Nat.eq_or_lt_of_le hcm
      · rw [if_pos ⟨(present_and _).mpr hit.1, hit.2.symm⟩]
      · have hnot : ¬ (k.entry d c &&& PTE_P ≠ 0 ∧ k.shm.seg key 0 = frame (k.entry d c)) :=
          fun hit' => hfirst c (le_refl c) hne ⟨(present_and _).mp hit'.1, hit'.2.symm⟩
        rw [if_neg hnot]
        exact ih (.succ hp) (by omega) hne fun m' hm' => hfirst m' (by omega)
    · have hc0 := hc.resolve_left hp
      have hskip : c + 1024 ≤ m := by
        by_contra hlt'
        exact not_hit_of_tableless hp hc0 ⟨hcm, by omega⟩ hit
      rw [detachScan_skip hlt hp]
      exact ih (.inr (by omega)) (by omega) hskip fun m' hm' => hfirst m' (by omega)

/-! ### One key of a process -/

/-- The loop writes to page tables, and to nothing else. -/
theorem clearLoop_writes {v : ℕ} (hd : NoTable k d d) (hv : NoTable k d v) (hr : clearLoop d n a k = .ok k') :
    k'.freelist = k.freelist ∧ k'.mem v = k.mem v := by
  induction n generalizing a k with
  | zero =>
    obtain rfl := Except.ok.inj hr
    exact ⟨rfl, rfl⟩
  | succ n ih =>
    unfold clearLoop at hr
    rw [walkpgdir_false] at hr
    dsimp only at hr
    split_ifs at hr with hp
    have hstore : ∀ u, NoTable k d u → (k.store (frame (k.pde d (a / 4096))) (a / 4096 % 1024) 0).mem u = k.mem u :=
      fun u hu => by rw [Kernel.store_mem, update_of_ne (hu _ hp).symm]
    have hpde := pde_congr (hstore d hd)
    have hkeep : ∀ u, NoTable k d u → NoTable (k.store (frame (k.pde d (a / 4096))) (a / 4096 % 1024) 0) d u :=
      fun u hu m hm => by
        rw [hpde] at hm ⊢
        exact hu m hm
    obtain ⟨hfree, hmem⟩ := ih (hkeep d hd) (hkeep v hv) hr
    exact ⟨hfree, hmem.trans (hstore v hv)⟩

/-- The flag of the process in the row of `key`. -/
def Flagged (k : Kernel) (p : Slot) (key : ℕ) : Prop := k.shm.refs key 0 (k.proc p).pid ≠ 0
deriving Decidable

/-- The attachment of the segment of `key` at page number `m` is gone. -/
structure Gone (k k' : Kernel) (p : Slot) (key m : ℕ) : Prop where
  proc : k'.proc = k.proc
  dir : k'.mem (k.dirOf p) = k.mem (k.dirOf p)
  entry : ∀ x < allPages, k'.entry (k.dirOf p) x =
    if m ≤ x ∧ x < m + (k.shm.pages key).toNat then 0 else k.entry (k.dirOf p) x
  refs : ∀ key' ≠ key, k'.shm.refs key' = k.shm.refs key'
  count : k'.shm.count key = k.shm.count key - 1
  segs : SameSegs k k'
  apart : ∀ q ≠ p, SameSpace q k k'
  freelist : k'.freelist = k.freelist
  mem : ∀ v, NoTable k (k.dirOf p) v → k'.mem v = k.mem v

theorem Counted.hit_iff (h : Counted k own) (hp : k.live p) (hk : key < numOfSegs) (hpos : 0 < k.shm.pages key)
    (hm : m < userPages) : Hit k (k.dirOf p) key m ↔ Attachment k key p m :=
  ⟨fun hit => h.first hp hm hk hpos hit.2, fun ha => ha.maps 0 (by omega)⟩

theorem scan_fuel (sz c : ℕ) : sz ≤ 4096 * (c + (sz / PGSIZE + 1)) := by
  unfold PGSIZE
  omega

theorem Counted.scan_miss (h : Counted k own) (hp : k.live p) (hk : key < numOfSegs)
    (hpos : 0 < k.shm.pages key) (hc : ScanPoint k (k.dirOf p) c)
    (hno : ∀ m, c ≤ m → 4096 * m < (k.proc p).sz → ¬ Attachment k key p m) :
    ∃ a, (k.proc p).sz ≤ a ∧ detachScan (k.dirOf p) (k.proc p).sz key ((k.proc p).sz / PGSIZE + 1) (4096 * c) k =
      .ok (a, k) := by
  refine detachScan_miss hc (scan_fuel _ _) fun m hcm hm hit => hno m hcm hm ?_
  exact (h.hit_iff hp hk hpos (page_lt (h.inv.size p hp) hm)).mp hit

theorem Counted.scan_hit (h : Counted k own) (hp : k.live p) (hk : key < numOfSegs)
    (hc : ScanPoint k (k.dirOf p) c) (hcm : c ≤ m) (hm : 4096 * m < (k.proc p).sz) (hat : Attachment k key p m)
    (hfirst : ∀ m', c ≤ m' → m' < m → ¬ Attachment k key p m') :
    ∃ k' own', detachScan (k.dirOf p) (k.proc p).sz key ((k.proc p).sz / PGSIZE + 1) (4096 * c) k =
        .ok (4096 * m, k') ∧ Counted k' own' ∧ Gone k k' p key m := by
  have hua := userPages_le
  have e4 : 4096 * m / 4096 = m := by omega
  have hroom := hat.room
  have hmu := hat.lt
  have hne : attachments k key ≠ 0 := fun h0 => attachments_eq_zero.mp h0 p m hat
  have hcount := h.count key hk
  obtain ⟨k1, hclear⟩ := clearLoop_returns (n := (k.shm.pages key).toNat) (a := 4096 * m) h.inv.wf
    (h.inv.dir p hp) (by rw [e4]; omega) fun i hi => by
      rw [e4]
      exact pde_of_entry (hat.maps i hi).1
  obtain ⟨own1, hrs, hent, hmem⟩ := clearLoop_resized h.inv.wf (h.inv.dir p hp) (by rw [e4]; omega) hclear
  have hmo := clearLoop_memOnly.ok hclear
  have hscan := detachScan_hit (n := (k.proc p).sz / PGSIZE + 1) hc (scan_fuel _ _) hcm hm
    ((h.hit_iff hp hk hat.pos hmu).mpr hat) fun m' hcm' hm' hit =>
      hfirst m' hcm' hm' ((h.hit_iff hp hk hat.pos (by omega)).mp hit)
  rw [hclear] at hscan
  have hpos : k1.shm.count key > 0 := by
    rw [hmo.shm]
    omega
  simp only [Except.map, if_pos hpos] at hscan
  obtain ⟨own', hcounted, hproc⟩ := h.scan hp hk (h.inv.size p hp) hscan
  have hself : NoTable k (k.dirOf p) (k.dirOf p) :=
    .of_role h.inv.wf (h.inv.dir p hp) (by rw [h.inv.dir p hp]; simp)
  refine ⟨_, own', hscan, hcounted, hproc, hmem, fun x hx => ?_, fun key' hne => ?_, ?_, ?_, fun q hq => ?_,
    (clearLoop_writes hself hself hclear).1, fun v hv => (clearLoop_writes hself hv hclear).2⟩
  · rw [e4] at hent
    exact hent x hx
  · rw [Kernel.setRefs_refs, update_of_ne hne, hmo.shm]
  · unfold Shm.count
    rw [Kernel.setRefs_refs, hmo.shm]
    simp
  · exact hmo.sameSegs.trans (.setRefs _ _ _ _)
  · have hsame : ∀ q, SameProc q k k1 := fun q => .of_eq (by rw [hmo.proc])
    have ht := h.inv.edits hp hrs.toEdits (fun q _ => hsame q) ((hsame p).live.mpr hp) (hsame p).pgdir
      (hsame p).kstack (by rw [(hsame p).sz]; exact h.inv.size p hp)
    have hs := ht.apart q hq
    exact ⟨⟨hs.state, hs.pgdir, hs.kstack, hs.sz⟩, hs.entry, hs.pde⟩

namespace Gone
variable {key' m' : ℕ}

section
variable (hg : Gone k k' p key m)
include hg

theorem live (hp : k.live p) : k'.live p := by
  rw [Kernel.live, hg.proc]
  exact hp

theorem dirOf : k'.dirOf p = k.dirOf p := by
  rw [Kernel.dirOf, hg.proc]

/-- The attachments of the process are those left and the one that is gone. -/
theorem attachment_iff (h : Counted k own) (hp : k.live p) (hk : key < numOfSegs)
    (hat : Attachment k key p m) (hk' : key' < numOfSegs) :
    Attachment k key' p m' ↔ Attachment k' key' p m' ∨ m' = m ∧ key' = key := by
  have hiff := h.detach_iff hg.apart hp (hg.live hp) hg.dirOf hg.segs hk hg.entry hat hk' p m'
  rwa [eq_self_iff_true, true_and] at hiff

theorem gone (hat : Attachment k key p m) : ¬ Attachment k' key p m :=
  hat.gone hg.dirOf hg.entry

theorem ne (hat : Attachment k key p m) (ha : Attachment k' key' p m') : m' ≠ m := by
  have hua := userPages_le
  rintro rfl
  have hpr := (ha.maps 0 (by have := ha.pos; omega)).1
  rw [hg.dirOf, Nat.add_zero, hg.entry m' (by have := ha.lt; omega), if_pos (by have := hat.pos; omega)] at hpr
  exact not_present_zero hpr

theorem flagged (hne : key' ≠ key) : Flagged k' p key' ↔ Flagged k p key' := by
  rw [Flagged, Flagged, hg.proc, hg.refs key' hne]

theorem count_of_ne (hne : key' ≠ key) : k'.shm.count key' = k.shm.count key' := by
  rw [Shm.count, Shm.count, hg.refs key' hne]

/-- The search for the next key starts at a page with a table. -/
theorem scanPoint (hat : Attachment k key p m) : ScanPoint k' (k'.dirOf p) m := by
  refine .inl ?_
  rw [hg.dirOf, pde_congr hg.dir]
  exact pde_of_entry (hat.maps 0 (by have := hat.pos; omega)).1

end

end Gone

/-- Where the search for a key starts: behind the end, or at a page. -/
def Cursor (k : Kernel) (p : Slot) (a : ℕ) : Prop :=
  (k.proc p).sz ≤ a ∨ ∃ c, a = 4096 * c ∧ ScanPoint k (k.dirOf p) c

/-- Only live segments have flags of the process. -/
def FlagsLive (k : Kernel) (p : Slot) : Prop := ∀ key < numOfSegs, Flagged k p key → 0 < k.shm.pages key

theorem Gone.flagsLive (hg : Gone k k' p key m) (hf : FlagsLive k p) (hat : Attachment k key p m) :
    FlagsLive k' p := by
  intro key' hk' hflag
  rw [hg.segs.pages]
  by_cases hne : key' = key
  · rw [hne]
    exact hat.pos
  · exact hf key' hk' ((hg.flagged hne).mp hflag)

/-- **The search for one key** finds the first attachment at or above the cursor, or none. -/
theorem Counted.scan_cases (h : Counted k own) (hp : k.live p) (hk : key < numOfSegs)
    (hpos : 0 < k.shm.pages key) (hc : Cursor k p a) :
    (∃ a', (k.proc p).sz ≤ a' ∧
        detachScan (k.dirOf p) (k.proc p).sz key ((k.proc p).sz / PGSIZE + 1) a k = .ok (a', k) ∧
        ∀ m, Attachment k key p m → 4096 * m < a ∨ (k.proc p).sz ≤ 4096 * m) ∨
    ∃ m k' own', a ≤ 4096 * m ∧ 4096 * m < (k.proc p).sz ∧ Attachment k key p m ∧
      detachScan (k.dirOf p) (k.proc p).sz key ((k.proc p).sz / PGSIZE + 1) a k = .ok (4096 * m, k') ∧
      Counted k' own' ∧ Gone k k' p key m := by
  obtain hend | ⟨c, rfl, hpoint⟩ := hc
  · exact .inl ⟨a, hend, detachScan_end hend, fun m _ => by omega⟩
  by_cases hex : ∃ m, c ≤ m ∧ 4096 * m < (k.proc p).sz ∧ Attachment k key p m
  · classical
    obtain ⟨hcm, hm, hat⟩ := Nat.find_spec hex
    have hfirst : ∀ m', c ≤ m' → m' < Nat.find hex → ¬ Attachment k key p m' :=
      fun m' hcm' hlt ha => Nat.find_min hex hlt ⟨hcm', by omega, ha⟩
    obtain ⟨k', own', hscan, hcounted, hgone⟩ := h.scan_hit hp hk hpoint hcm hm hat hfirst
    exact .inr ⟨_, k', own', by omega, hm, hat, hscan, hcounted, hgone⟩
  · have hno : ∀ m, c ≤ m → 4096 * m < (k.proc p).sz → ¬ Attachment k key p m :=
      fun m hcm hm ha => hex ⟨m, hcm, hm, ha⟩
    obtain ⟨a, ha, hscan⟩ := h.scan_miss hp hk hpos hpoint hno
    refine .inl ⟨a, ha, hscan, fun m hat => ?_⟩
    by_contra hbad
    exact hno m (by omega) (by omega) hat

/-! ### The loop over the keys -/

theorem detachLoop_unflagged (hpid : (k.proc p).pid ≤ 64) (hno : ¬ Flagged k p j) :
    detachLoop d sz (k.proc p).pid (n + 1) j a k = detachLoop d sz (k.proc p).pid n (j + 1) a k := by
  unfold Flagged at hno
  rw [detachLoop, if_pos hpid, if_neg hno]

theorem detachLoop_flagged {a' : ℕ} (hpid : (k.proc p).pid ≤ 64) (hflag : Flagged k p j)
    (hscan : detachScan d sz j (sz / PGSIZE + 1) a k = .ok (a', k')) :
    detachLoop d sz (k.proc p).pid (n + 1) j a k = detachLoop d sz (k.proc p).pid n (j + 1) a' k' := by
  unfold Flagged at hflag
  rw [detachLoop, if_pos hpid, if_pos hflag, hscan]
  rfl

theorem Gone.detachLoop (hg : Gone k k' p key m) :
    Vm.detachLoop (k'.dirOf p) (k'.proc p).sz (k'.proc p).pid n j a k' =
      Vm.detachLoop (k.dirOf p) (k.proc p).sz (k.proc p).pid n j a k' := by
  rw [hg.dirOf, hg.proc]

/-- The segment of `key` has an attachment at or above `a`, above one of each segment that the loop meets
between `j` and `key`. -/
def InTurn (k : Kernel) (p : Slot) (j a key : ℕ) : Prop :=
  ∃ m, Attachment k key p m ∧ a ≤ 4096 * m ∧ 4096 * m < (k.proc p).sz ∧
    ∀ key', j ≤ key' → key' < key → Flagged k p key' → ∃ m' < m, Attachment k key' p m'

/-- **Each counter drops by one at most**, and only if the attachment comes in turn. -/
theorem Counted.loop_drops (h : Counted k own) (hp : k.live p) (hf : FlagsLive k p)
    (hn : j + n = numOfSegs) (hc : Cursor k p a)
    (hr : detachLoop (k.dirOf p) (k.proc p).sz (k.proc p).pid n j a k = .ok k') (hk : key < numOfSegs) :
    k'.shm.count key = k.shm.count key ∨
      j ≤ key ∧ Flagged k p key ∧ k'.shm.count key = k.shm.count key - 1 ∧ InTurn k p j a key := by
  induction n generalizing a j k own with
  | zero =>
    obtain rfl := Except.ok.inj hr
    exact .inl rfl
  | succ n ih =>
    have hpid : (k.proc p).pid ≤ 64 := by
      by_contra hpid
      rw [detachLoop, if_neg hpid] at hr
      cases hr
    by_cases hflag : Flagged k p j
    · obtain ⟨a', hend, hscan, -⟩ | ⟨m, k1, own1, ham, hm, hat, hscan, hcounted, hg⟩ :=
        h.scan_cases hp (by omega) (hf j (by omega) hflag) hc
      · rw [detachLoop_flagged hpid hflag hscan] at hr
        obtain hsame | ⟨-, -, -, m, -, hle, hlt, -⟩ := ih h hp hf (by omega) (.inl hend) hr
        · exact .inl hsame
        · omega
      · rw [detachLoop_flagged hpid hflag hscan, ← hg.detachLoop] at hr
        have hrest := ih hcounted (hg.live hp) (hg.flagsLive hf hat) (by omega)
          (.inr ⟨m, rfl, hg.scanPoint hat⟩) hr
        obtain rfl | hne := eq_or_ne key j
        · obtain hsame | ⟨hle, -⟩ := hrest
          · exact .inr ⟨le_refl key, hflag, by rw [hsame, hg.count], m, hat, ham, hm, fun _ _ _ => by omega⟩
          · omega
        · rw [hg.count_of_ne hne] at hrest
          refine hrest.imp_right ?_
          rintro ⟨hle, hflag', hcount, m', hat', hmm', hm', horder⟩
          have hlt : m < m' := lt_of_le_of_ne (by omega) (hg.ne hat hat').symm
          have hback : ∀ {key' x}, key' < numOfSegs → Attachment k1 key' p x → Attachment k key' p x :=
            fun hk' hx => (hg.attachment_iff h hp (by omega) hat hk').mpr (.inl hx)
          refine ⟨by omega, (hg.flagged hne).mp hflag', hcount, m', hback hk hat', by omega,
            by rwa [hg.proc] at hm', fun key' hj hlt' hfl => ?_⟩
          obtain rfl | hne' := eq_or_ne key' j
          · exact ⟨m, hlt, hat⟩
          · obtain ⟨x, hx, hatx⟩ := horder key' (by omega) hlt' ((hg.flagged hne').mpr hfl)
            exact ⟨x, hx, hback (by omega) hatx⟩
    · rw [detachLoop_unflagged hpid hflag] at hr
      refine (ih h hp hf (by omega) hc hr).imp_right ?_
      rintro ⟨hle, hflag', hcount, m, hat, ham, hm, horder⟩
      refine ⟨by omega, hflag', hcount, m, hat, ham, hm, fun key' hj hlt hfl => horder key' ?_ hlt hfl⟩
      obtain rfl | hlt' := Nat.eq_or_lt_of_le hj
      · exact absurd hfl hflag
      · exact hlt'

/-- Some entries for pages of segments are gone, and nothing else has happened to memory. -/
structure Detached (k k' : Kernel) (p : Slot) : Prop where
  proc : k'.proc = k.proc
  segs : SameSegs k k'
  dir : k'.mem (k.dirOf p) = k.mem (k.dirOf p)
  entry : ∀ x < allPages, k'.entry (k.dirOf p) x = k.entry (k.dirOf p) x ∨
    k'.entry (k.dirOf p) x = 0 ∧ k.mapsSeg p x
  apart : ∀ q ≠ p, SameSpace q k k'
  freelist : k'.freelist = k.freelist
  mem : ∀ v, NoTable k (k.dirOf p) v → k'.mem v = k.mem v

namespace Detached
variable {k1 k2 : Kernel}

theorem refl (k : Kernel) (p : Slot) : Detached k k p :=
  ⟨rfl, .refl k, rfl, fun _ _ => .inl rfl, fun _ _ => .refl _ _, rfl, fun _ _ => rfl⟩

theorem dirOf (h : Detached k k1 p) : k1.dirOf p = k.dirOf p := by
  rw [Kernel.dirOf, h.proc]

theorem mapsSeg (h : Detached k k1 p) {x : ℕ} (hx : x < allPages) (hm : k1.mapsSeg p x) : k.mapsSeg p x := by
  obtain heq | ⟨-, hseg⟩ := h.entry x hx
  · unfold Kernel.mapsSeg Kernel.segPage at hm ⊢
    rwa [h.dirOf, heq, h.segs.seg, h.segs.pages] at hm
  · exact hseg

theorem trans (h : Detached k k1 p) (h' : Detached k1 k2 p) : Detached k k2 p := by
  refine ⟨h'.proc.trans h.proc, h.segs.trans h'.segs, ?_, fun x hx => ?_,
    fun q hq => (h.apart q hq).trans (h'.apart q hq), h'.freelist.trans h.freelist, fun v hv => ?_⟩
  · have hdir := h'.dir
    rw [h.dirOf] at hdir
    exact hdir.trans h.dir
  · have hent := h'.entry x hx
    rw [h.dirOf] at hent
    obtain heq | ⟨hzero, hm⟩ := hent
    · rw [heq]
      exact h.entry x hx
    · exact .inr ⟨hzero, h.mapsSeg hx hm⟩
  · refine (h'.mem v fun m hm => ?_).trans (h.mem v hv)
    rw [h.dirOf, pde_congr h.dir] at hm ⊢
    exact hv m hm

theorem attachment (h : Detached k k1 p) (ha : Attachment k1 key p m) : Attachment k key p m := by
  have hua := userPages_le
  have hroom := ha.room
  refine ⟨by have := ha.live; rwa [Kernel.live, h.proc] at this, by rw [← h.segs.pages]; exact ha.pos,
    by rw [← h.segs.pages]; exact ha.room, fun i hi => ?_⟩
  rw [← h.segs.pages] at hi
  obtain ⟨hpr, hfr⟩ := ha.maps i hi
  rw [h.dirOf] at hpr hfr
  obtain heq | ⟨hzero, -⟩ := h.entry (m + i) (by omega)
  · rw [heq] at hpr hfr
    rw [← h.segs.seg]
    exact ⟨hpr, hfr⟩
  · rw [hzero] at hpr
    exact absurd hpr not_present_zero

end Detached

theorem Gone.detached (hg : Gone k k' p key m) (hk : key < numOfSegs) (hat : Attachment k key p m) :
    Detached k k' p := by
  refine ⟨hg.proc, hg.segs, hg.dir, fun x hx => ?_, hg.apart, hg.freelist, hg.mem⟩
  rw [hg.entry x hx]
  split_ifs with hin
  · refine .inr ⟨rfl, ?_⟩
    obtain ⟨hpr, hfr⟩ := hat.maps (x - m) (by omega)
    rw [show m + (x - m) = x by omega] at hpr hfr
    exact ⟨hpr, key, hk, x - m, by omega, hfr.symm⟩
  · exact .inl rfl

/-- The attachments of the keys from `j` on come in turn, one of each. -/
def Orderly (k : Kernel) (p : Slot) (j a : ℕ) : Prop :=
  ∀ key < numOfSegs, j ≤ key → ∀ n, Attachment k key p n →
    Flagged k p key ∧ (∀ n', Attachment k key p n' → n' = n) ∧ InTurn k p j a key

/-- A key without the flag is not attached, and the loop goes on. -/
theorem Orderly.skip (ho : Orderly k p j a) : Orderly k p (j + 1) a := by
  intro key hk hj n hat
  obtain ⟨hflag, huniq, m, hm, ham, hsz, horder⟩ := ho key hk (by omega) n hat
  exact ⟨hflag, huniq, m, hm, ham, hsz, fun key' hle => horder key' (by omega)⟩

/-- After an attachment the others come in turn from there on. -/
theorem Orderly.hit (ho : Orderly k p j a) (h : Counted k own) (hp : k.live p) (hj : j < numOfSegs)
    (hflag : Flagged k p j) (hat : Attachment k j p m) (hg : Gone k k' p j m) :
    Orderly k' p (j + 1) (4096 * m) := by
  have hd := hg.detached hj hat
  intro key hk hlt n hn
  have hne : key ≠ j := by omega
  obtain ⟨hfl, huniq, m', hm', -, hsz, horder⟩ := ho key hk (by omega) n (hd.attachment hn)
  have hstay : ∀ {key' x}, key' < numOfSegs → key' ≠ j → Attachment k key' p x → Attachment k' key' p x :=
    fun hk' hne' hx => ((hg.attachment_iff h hp hj hat hk').mp hx).resolve_right fun e => hne' e.2
  obtain ⟨x, hx, hatx⟩ := horder j (le_refl j) (by omega) hflag
  obtain rfl := (ho j hj (le_refl j) m hat).2.1 x hatx
  refine ⟨(hg.flagged hne).mpr hfl, fun n' hn' => huniq n' (hd.attachment hn'), m', hstay hk hne hm', by omega,
    by rwa [hg.proc], fun key' hle hlt' hfl' => ?_⟩
  have hne' : key' ≠ j := by omega
  obtain ⟨y, hy, haty⟩ := horder key' (by omega) hlt' ((hg.flagged hne').mp hfl')
  exact ⟨y, hy, hstay (by omega) hne' haty⟩

/-- **Attachments in turn are all detached.** -/
theorem Counted.loop_detaches (h : Counted k own) (hp : k.live p) (hf : FlagsLive k p)
    (hpid : (k.proc p).pid ≤ 64) (hn : j + n = numOfSegs) (hc : Cursor k p a) (ho : Orderly k p j a) :
    ∃ k' own', detachLoop (k.dirOf p) (k.proc p).sz (k.proc p).pid n j a k = .ok k' ∧ Counted k' own' ∧
      Detached k k' p ∧ ∀ key < numOfSegs, j ≤ key → ∀ x, ¬ Attachment k' key p x := by
  induction n generalizing a j k own with
  | zero => exact ⟨k, own, rfl, h, .refl k p, fun key hk hj => by omega⟩
  | succ n ih =>
    have hj : j < numOfSegs := by omega
    by_cases hflag : Flagged k p j
    · obtain ⟨a', hend, hscan, hmiss⟩ | ⟨m, k1, own1, ham, hm, hat, hscan, hcounted, hg⟩ :=
        h.scan_cases hp hj (hf j hj hflag) hc
      · have hnone : ∀ key < numOfSegs, j ≤ key → ∀ x, ¬ Attachment k key p x := by
          have hj0 : ∀ x, ¬ Attachment k j p x := fun x hx => by
            obtain ⟨-, -, m, hm, ham, hsz, -⟩ := ho j hj (le_refl j) x hx
            obtain hlt | hge := hmiss m hm <;> omega
          intro key hk hle x hx
          obtain rfl | hlt := Nat.eq_or_lt_of_le hle
          · exact hj0 x hx
          · obtain ⟨-, -, m, -, -, -, horder⟩ := ho key hk hle x hx
            obtain ⟨y, -, hy⟩ := horder j (le_refl j) hlt hflag
            exact hj0 y hy
        obtain ⟨k', own', hr, hcounted, hd, -⟩ := ih (j := j + 1) h hp hf hpid (by omega) (.inl hend)
          fun key hk hle x hx => absurd hx (hnone key hk (by omega) x)
        rw [detachLoop_flagged hpid hflag hscan]
        exact ⟨k', own', hr, hcounted, hd, fun key hk hle x hx => hnone key hk hle x (hd.attachment hx)⟩
      · obtain ⟨k', own', hr, hcounted', hd, hfree⟩ := ih hcounted (hg.live hp) (hg.flagsLive hf hat)
          (by rwa [hg.proc]) (by omega) (.inr ⟨m, rfl, hg.scanPoint hat⟩) (ho.hit h hp hj hflag hat hg)
        have hd1 := hg.detached hj hat
        rw [hg.detachLoop] at hr
        rw [detachLoop_flagged hpid hflag hscan]
        refine ⟨k', own', hr, hcounted', hd1.trans hd, fun key hk hle x hx => ?_⟩
        obtain rfl | hlt := Nat.eq_or_lt_of_le hle
        · have hx1 := hd.attachment hx
          obtain rfl := (ho j hj (le_refl j) m hat).2.1 x (hd1.attachment hx1)
          exact hg.gone hat hx1
        · exact hfree key hk hlt x hx
    · obtain ⟨k', own', hr, hcounted, hd, hfree⟩ := ih h hp hf hpid (by omega) hc ho.skip
      rw [detachLoop_unflagged hpid hflag]
      refine ⟨k', own', hr, hcounted, hd, fun key hk hle x hx => ?_⟩
      obtain rfl | hlt := Nat.eq_or_lt_of_le hle
      · exact hflag (ho j hj (le_refl j) x (hd.attachment hx)).1
      · exact hfree key hk hlt x hx

/-! ### Exit -/

/-- The number of attachments of the segment of `key` by one process. -/
def attachmentsOf (k : Kernel) (p : Slot) (key : ℕ) : ℕ := ((attached k key).filter fun a => a.1 = p).card

theorem Detached.attachments (hd : Detached k k' p) (hno : ∀ x, ¬ Attachment k' key p x) :
    Vm.attachments k key = Vm.attachments k' key + attachmentsOf k p key := by
  have hset : attached k' key = (attached k key).filter fun a => ¬ a.1 = p := by
    ext ⟨q, x⟩
    rw [Finset.mem_filter, mem_attached, mem_attached]
    constructor
    · intro hx
      have hq : q ≠ p := by
        rintro rfl
        exact hno x hx
      exact ⟨(attachment_iff (hd.apart q hq) hd.segs).mp hx, hq⟩
    · rintro ⟨hx, hq⟩
      exact (attachment_iff (hd.apart q hq) hd.segs).mpr hx
  have hcard := Finset.card_filter_add_card_filter_not (s := attached k key) fun a => a.1 = p
  unfold Vm.attachments attachmentsOf
  rw [hset]
  omega

/-- The entry for page number `m` of the process in slot `q`, and the page behind it, are as before. -/
def PageKept (k k' : Kernel) (q : Slot) (m : ℕ) : Prop :=
  k'.entry (k'.dirOf q) m = k.entry (k.dirOf q) m ∧
    (Present (k.entry (k.dirOf q) m) → k'.mem (frame (k.entry (k.dirOf q) m)) = k.mem (frame (k.entry (k.dirOf q) m)))

/-- What `exit` is to do: the process maps no page of a segment any more, each counter has dropped by the
number of its attachments, its private pages and all pages of other processes are as before, and `freevm`
frees no page of a segment. -/
def DetachesAll (k : Kernel) (p : Slot) : Prop :=
  ∃ k', deallocshm k p = .ok k' ∧
    (∀ m, 4096 * m < (k.proc p).sz → ¬ k'.mapsSeg p m) ∧
    (∀ key < numOfSegs, k'.shm.count key = k.shm.count key - attachmentsOf k p key) ∧
    (∀ q, k.live q → ∀ m < userPages, (q = p → ¬ k.mapsSeg p m) → PageKept k k' q m) ∧
    k'.freelist = k.freelist ∧
    ∀ k'', freevm k' (k.dirOf p) = .ok k'' → ∀ v, k.segPage v → v ∉ k''.freelist

/-- The lock is free, the pid is a column of the table, and the process has attached each segment at most
once, below `sz`, has its flag for each of them, and has them at addresses in the order of their keys; nor
has it the flag for a segment with a lower key that it has not attached. -/
def DetachOk (k : Kernel) (p : Slot) : Prop :=
  k.shm.locked = false ∧ (k.proc p).pid ≤ 64 ∧ Orderly k p 0 0

theorem attachmentsOf_pos (hat : Attachment k key p m) : 0 < attachmentsOf k p key := by
  refine Finset.card_pos.mpr ⟨(p, m), Finset.mem_filter.mpr ⟨?_, rfl⟩⟩
  exact mem_attached.mpr hat

theorem attachmentsOf_le : attachmentsOf k p key ≤ attachments k key := Finset.card_filter_le _ _

theorem attachmentsOf_unique (hone : attachmentsOf k p key = 1) {m' : ℕ} (hat : Attachment k key p m)
    (hat' : Attachment k key p m') : m' = m := by
  obtain ⟨a, ha⟩ := Finset.card_eq_one.mp hone
  have hmem : ∀ x, Attachment k key p x → (p, x) = a := fun x hx => by
    rw [← Finset.mem_singleton, ← ha]
    exact Finset.mem_filter.mpr ⟨mem_attached.mpr hx, rfl⟩
  exact (Prod.mk.inj ((hmem m' hat').trans (hmem m hat).symm)).2

theorem Inv.noTable (h : Inv k own) (hp : k.live p) {q : Slot} (hq : k.live q) (hm : m < userPages)
    (hpr : Present (k.entry (k.dirOf q) m)) : NoTable k (k.dirOf p) (frame (k.entry (k.dirOf q) m)) := by
  refine .of_role h.wf (h.dir p hp) fun d x htab => ?_
  obtain huser | ⟨key, i, hseg⟩ := h.wf.user _ m (h.dir q hq) hm hpr
  · rw [huser] at htab
    cases htab
  · rw [hseg] at htab
    cases htab

theorem Detached.kept (hd : Detached k k' p) (h : Inv k own) (hp : k.live p) {q : Slot} (hq : k.live q)
    (hm : m < userPages) (hpriv : q = p → ¬ k.mapsSeg p m) : PageKept k k' q m := by
  have hua := userPages_le
  refine ⟨?_, fun hpr => hd.mem _ (h.noTable hp hq hm hpr)⟩
  obtain rfl | hne := eq_or_ne q p
  · rw [hd.dirOf]
    exact (hd.entry m (by omega)).resolve_right fun hseg => hpriv rfl hseg.2
  · rw [(hd.apart q hne).pgdir]
    exact (hd.apart q hne).entry hq m (by omega)

/-- A process without attachments maps no page of a segment. -/
theorem Counted.mapsSeg_none (h : Counted k own) (hp : k.live p)
    (hno : ∀ key < numOfSegs, ∀ x, ¬ Attachment k key p x) (hm : m < userPages) : ¬ k.mapsSeg p m := by
  rintro ⟨hpr, hseg⟩
  obtain ⟨key, i, hown⟩ := h.inv.wf.segPage_iff.mp hseg
  exact hno key ((h.inv.wf.seg _ _ _).mp hown).1 _ (h.complete p m key i hp hm hpr hown).2

/-- **When `exit` detaches everything.**  In a state in which every page has one use and every counter is
right, and for a process that has flags for live segments only, `deallocshm` detaches everything exactly if
the attachments come in turn. -/
theorem deallocshm_all_iff (h : Counted k own) (hp : k.live p) (hf : FlagsLive k p) :
    DetachesAll k p ↔ DetachOk k p := by
  have hstart : Cursor k p 0 := .inr ⟨0, rfl, .inr rfl⟩
  constructor
  · rintro ⟨k', hr, -, hcount, -⟩
    unfold deallocshm at hr
    split_ifs at hr with hl
    refine ⟨by simpa using hl, ?_, fun key hk _ n hat => ?_⟩
    · by_contra hpid
      rw [show numOfSegs = (numOfSegs - 1) + 1 from rfl, detachLoop, if_neg hpid] at hr
      cases hr
    · have hpos := attachmentsOf_pos hat
      have hdrop := hcount key hk
      obtain hsame | ⟨-, hflag, hone, hturn⟩ := h.loop_drops hp hf (Nat.zero_add _) hstart hr hk
      · omega
      · exact ⟨hflag, fun n' hat' => attachmentsOf_unique (by omega) hat hat', hturn⟩
  · rintro ⟨hl, hpid, ho⟩
    obtain ⟨k', own', hr, h', hd, hfree⟩ := h.loop_detaches hp hf hpid (Nat.zero_add _) hstart ho
    have hp' : k'.live p := by
      rw [Kernel.live, hd.proc]
      exact hp
    have hnone : ∀ m < userPages, ¬ k'.mapsSeg p m := fun m hm =>
      h'.mapsSeg_none hp' (fun key hk => hfree key hk (Nat.zero_le key)) hm
    refine ⟨k', ?_, fun m hm => hnone m (page_lt (h.inv.size p hp) hm), fun key hk => ?_,
      fun q hq m hm hpriv => hd.kept h.inv hp hq hm hpriv, hd.freelist, fun k'' hfr v hv => ?_⟩
    · unfold deallocshm
      rw [if_neg (by rw [hl]; decide)]
      exact hr
    · have hsplit := hd.attachments (hfree key hk (Nat.zero_le key))
      rw [h'.count key hk, h.count key hk, hsplit]
      push_cast
      ring
    · have hdir := h'.inv.dir p hp'
      rw [hd.dirOf] at hdir
      obtain ⟨own'', hwf, hloc, -⟩ := freevm_local h'.inv.wf hdir (fun m hm => by
        have := (h'.inv.priv_iff hp' hm).mpr (hnone m hm)
        rwa [hd.dirOf] at this) hfr
      unfold Kernel.segPage at hv
      rw [← hd.segs.seg, ← hd.segs.pages] at hv
      obtain ⟨key, i, hown⟩ := h'.inv.wf.segPage_iff.mp hv
      have hne : v ≠ k.dirOf p := by
        rintro rfl
        rw [hdir] at hown
        cases hown
      rw [hwf.free, hloc.role v hne (by rw [hown]; trivial), hown]
      simp

/-- A child of init that has attached one segment detaches it when it exits. -/
theorem deallocshm_all_one : ∃ k, Reachable CountOk k ∧ Attachment k 7 childproc 1 ∧ DetachesAll k childproc := by
  have htest : (step boot (.shmget initproc 7 4096 CREAT 0)).bind (fun k => (stepRun k (.fork initproc)).map fun k =>
      decide ((k.proc childproc).pid < 64 ∧ (k.proc childproc).sz = 4096 ∧ Present (k.mem (k.dirOf childproc) 0) ∧
        ∀ key < numOfSegs, Attaches k childproc (toInt (top 134)) key → (k.shm.pages key).toNat = 1) &&
      decide ((step k (.shmat childproc (toInt (top 134)) SHM_RDWR)).map (fun k =>
        decide ((k.proc childproc).pid ≤ 64 ∧ k.shm.locked = false ∧ Attachment k 7 childproc 1 ∧
          4096 < (k.proc childproc).sz ∧ Flagged k childproc 7 ∧ k.shm.count 7 = 1 ∧
          ∀ key < numOfSegs, key ≠ 7 → ¬ Flagged k childproc key ∧ k.shm.count key = 0)) = some true)) =
        some true := by
    decide +kernel
  obtain ⟨k1, hs1, htest⟩ := bind_eq_some_iff.mp htest
  obtain ⟨k2, hs2, htest⟩ := map_eq_some_iff.mp htest
  obtain ⟨hfit, htest⟩ := Bool.and_eq_true_iff.mp htest
  obtain ⟨hpid, hsz, hpde, hone⟩ := of_decide_eq_true hfit
  obtain ⟨k, hs, htest⟩ := map_eq_some_iff.mp (of_decide_eq_true htest)
  obtain ⟨hpid', hl, hat, hlt, hflag, hcount, hrest⟩ := of_decide_eq_true htest
  have hk : Reachable CountOk k := (((Reaches.refl boot).snoc trivial hs1).snoc trivial
    (step_of_stepRun hs2)).snoc (.shmat_one hpid (by decide) hsz hpde hone) hs
  obtain ⟨own, hc⟩ := hk.counted
  have hkey : ∀ key < numOfSegs, ∀ n, Attachment k key childproc n → key = 7 := fun key hkey n hn => by
    by_contra hne
    have hpos := (attachmentsOf_pos hn).trans_le attachmentsOf_le
    have hzero := hc.count key hkey
    rw [(hrest key hkey hne).2] at hzero
    omega
  have huniq : attachmentsOf k childproc 7 = 1 := by
    have hpos := attachmentsOf_pos hat
    have hle : attachmentsOf k childproc 7 ≤ attachments k 7 := attachmentsOf_le
    have hcard := hc.count 7 (by decide)
    omega
  refine ⟨k, hk, hat, (deallocshm_all_iff hc hat.live fun key hkey hfl => ?_).mpr
    ⟨hl, hpid', fun key hkey' _ n hn => ?_⟩⟩
  · by_contra hpos
    have hne : key ≠ 7 := fun e => hpos (e ▸ hat.pos)
    exact (hrest key hkey hne).1 hfl
  · obtain rfl := hkey key hkey' n hn
    refine ⟨hflag, fun n' hn' => attachmentsOf_unique huniq hn hn', 1, hat, Nat.zero_le _, hlt,
      fun key' _ hlt hfl => ?_⟩
    exact absurd hfl (hrest key' (by omega) (by omega)).1

/-- A child of init that has attached a segment twice keeps one of the two when it exits, and the later
`freevm` would free the page. -/
theorem deallocshm_keeps_second : ∃ k, Reachable Always k ∧ Attachment k 7 childproc 1 ∧
    Attachment k 7 childproc 2 ∧ ¬ DetachesAll k childproc := by
  obtain ⟨k, hk, htest⟩ := reaches_of_run Always
    [.shmget initproc 7 4096 CREAT 0, .fork initproc, .shmat childproc (toInt (top 134)) SHM_RDWR,
      .shmat childproc (toInt (top 134)) SHM_RDWR]
    (fun k => decide (Attachment k 7 childproc 1 ∧ Attachment k 7 childproc 2 ∧ 4096 * 2 < (k.proc childproc).sz ∧
      (deallocshm k childproc).toOption.map (fun k' => decide (k'.mapsSeg childproc 2)) = some true))
    (by decide +kernel)
  obtain ⟨h1, h2, hlt, hmaps⟩ := of_decide_eq_true htest
  obtain ⟨k', hr, hmaps⟩ := map_eq_some_iff.mp hmaps
  refine ⟨k, hk, h1, h2, ?_⟩
  rintro ⟨k'', hr', hno, -⟩
  rw [toOption_some hr] at hr'
  obtain rfl := Except.ok.inj hr'
  exact hno 2 hlt (of_decide_eq_true hmaps)

end

end Xv6.Vm
