import Mathlib.Data.Nat.Count
import Xv6.Vm.Ownership
import Xv6.Vm.Swap

/-! # `getAllocatedPages`

`getAllocatedPages` looks for the first slot with a pid and counts the entries with `PTE_U` in the tables
of its directory. It does not check that there is such a slot, nor that the slot is in use: `wait` leaves
the pointer to the directory it has freed in the slot, with pid 0. Whether the pointer is still there depends on
what has happened to the slot since (`reaped`).

For the pid of a process the result is right: a pid is given once (`Pids`), entries that are not present
are empty, and those of the kernel half are not for users. -/

namespace Xv6.Vm

open Runs Fallible List Option

/-- Where the loop over the process table stops; `NPROC` is past the end. -/
def foundAt (k : Kernel) (pid : ℤ) : ℕ :=
  (finRange NPROC).findIdx fun q => decide (((k.proc q).pid : ℤ) = pid)

/-- The loop over a page table. -/
def countTable (k : Kernel) (pte count : ℕ) : ℕ :=
  (range NPTENTRIES).foldl (fun count i => if k.mem pte i &&& PTE_U ≠ 0 then count + 1 else count)
    count

/-- The loop over a directory. -/
def countDir (k : Kernel) (pgdir : ℕ) : ℕ :=
  (range NPDENTRIES).foldl (fun count j =>
    if pgdir ≠ 0 ∧ k.mem pgdir j &&& PTE_P ≠ 0 then countTable k (p2v (pteAddr (k.mem pgdir j))) count
    else count) 0

def getAllocatedPages (k : Kernel) (pid : ℤ) : Except Fault ℕ :=
  if h : foundAt k pid < NPROC then .ok (countDir k (k.dirOf ⟨foundAt k pid, h⟩))
  else .error .bounds

/-- The pages below `KERNBASE` that are present and accessible to the user. -/
def userPresent (k : Kernel) (d : ℕ) : ℕ :=
  Nat.count (fun n => Present (k.entry d n) ∧ k.entry d n &&& PTE_U ≠ 0) userPages

/-- The directory is null, or that of a process. -/
def NullOrLive (k : Kernel) (d : ℕ) : Prop := d = 0 ∨ ∃ p, k.live p ∧ k.dirOf p = d

/-- The slot that is read is in the table, and no directory is read that has been freed. -/
def ReadsLive (k : Kernel) (pid : ℤ) : Prop :=
  ∃ q : Slot, foundAt k pid = q ∧ NullOrLive k (k.dirOf q)

/-- The slots that `wait` has emptied, and that no `fork` which found memory for a kernel stack has taken since. -/
def reaped (k : Kernel) (r : Slot → Bool) : Op → Slot → Bool
  | .wait p => fun q => r q || zombieChild k p = some q
  | .fork _ => fun q => r q && !(unusedSlot k = some q ∧ k.freelist ≠ [] : Bool)
  | _ => r

/-- A step, with the history of the slots. -/
def trace (s : Kernel × (Slot → Bool)) (o : Op) : Option (Kernel × (Slot → Bool)) :=
  (step s.1 o).map fun k => (k, reaped s.1 s.2 o)

section
variable {k k' : Kernel} {d : ℕ} {p q : Slot} {pid : ℤ} {r r' : Slot → Bool}

/-! ### The loops -/

theorem count_congr {P Q : ℕ → Prop} [DecidablePred P] [DecidablePred Q] {n : ℕ}
    (h : ∀ m < n, P m ↔ Q m) : Nat.count P n = Nat.count Q n :=
  le_antisymm (Nat.count_mono_left fun m hm => (h m hm).mp) (Nat.count_mono_left fun m hm => (h m hm).mpr)

theorem countTable_eq (k : Kernel) (pte count : ℕ) :
    countTable k pte count = count + Nat.count (fun i => k.mem pte i / 4 % 2 = 1) 1024 := by
  unfold countTable NPTENTRIES
  generalize 1024 = m
  induction m with
  | zero => simp
  | succ m ih =>
    rw [range_succ, foldl_append, ih, Nat.count_succ]
    simp only [foldl_cons, foldl_nil, user_iff]
    split_ifs <;> omega

theorem entry_at {j i : ℕ} (hj : j < 1024) (hi : i < 1024) : k.entry d (1024 * j + i) =
    if Present (k.mem d j) then k.mem (frame (k.mem d j)) i else 0 := by
  unfold Kernel.entry Kernel.pde
  rw [show (1024 * j + i) / 1024 % 1024 = j by omega, show (1024 * j + i) % 1024 = i by omega]

theorem countDir_eq (hd : d ≠ 0) :
    countDir k d = Nat.count (fun n => k.entry d n / 4 % 2 = 1) allPages := by
  have hloop : ∀ j ≤ 1024, (range j).foldl (fun count j =>
      if d ≠ 0 ∧ k.mem d j &&& PTE_P ≠ 0 then countTable k (p2v (pteAddr (k.mem d j))) count
      else count) 0 = Nat.count (fun n => k.entry d n / 4 % 2 = 1) (1024 * j) := by
    intro j hj
    induction j with
    | zero => simp
    | succ j ih =>
      rw [range_succ, foldl_append, ih (by omega), Nat.mul_succ, Nat.count_add]
      simp only [foldl_cons, foldl_nil, present_and, frame_eq]
      split_ifs with hc
      · rw [countTable_eq]
        refine congrArg _ (count_congr fun i hi => ?_)
        rw [entry_at (by omega) hi, if_pos hc.2]
      · refine (Nat.add_eq_left.mpr (Nat.count_iff_forall_not.mpr fun i hi => ?_)).symm
        rw [entry_at (by omega) hi, if_neg fun hp => hc ⟨hd, hp⟩]
        decide
  exact hloop 1024 (Nat.le_refl _)

theorem countDir_user (hd : d ≠ 0) (habs : ∀ n < userPages, ¬ Present (k.entry d n) → k.entry d n = 0)
    (hkern : ∀ n, userPages ≤ n → n < allPages → k.entry d n / 4 % 2 = 0) :
    countDir k d = userPresent k d := by
  have hkern' : Nat.count (fun i => k.entry d (userPages + i) / 4 % 2 = 1) userPages = 0 := by
    refine Nat.count_iff_forall_not.mpr fun i hi => ?_
    rw [hkern _ (Nat.le_add_right _ _) (by unfold userPages allPages at *; omega)]
    decide
  rw [countDir_eq hd, show allPages = userPages + userPages from rfl, Nat.count_add, hkern', Nat.add_zero]
  refine count_congr fun n hn => ?_
  rw [user_iff]
  refine ⟨fun hu => ⟨?_, hu⟩, And.right⟩
  by_contra hp
  rw [habs n hn hp] at hu
  cases hu

/-! ### Pids -/

/-- Pids are given once, and the pointer to a directory in an empty slot is null unless the slot was reaped. -/
structure Pids (k : Kernel) (r : Slot → Bool) : Prop where
  lt : ∀ q, (k.proc q).pid < k.nextpid
  pos : ∀ q, k.live q → (k.proc q).pid ≠ 0
  inj : ∀ p q, (k.proc p).pid = (k.proc q).pid → (k.proc p).pid ≠ 0 → p = q
  left : ∀ q, ¬ k.live q → (r q = false ↔ k.dirOf q = 0)

theorem Pids.same (h : Pids k r) (hs : SamePids k k') : Pids k' r := by
  refine ⟨fun q => ?_, fun q hq => ?_, fun p q e hne => ?_, fun q hq => ?_⟩
  · rw [hs.nextpid, hs.pid]
    exact h.lt q
  · rw [hs.pid]
    exact h.pos q (mt (hs.used q).mpr hq)
  · rw [hs.pid] at e hne
    exact h.inj p q (e.trans (hs.pid q)) hne
  · have hst := (hs.used q).mp (not_not.mp hq)
    rw [h.left q (not_not.mpr hst), Kernel.dirOf, Kernel.dirOf, hs.left q hst]

/-- One slot has lost its pid, or has been given the next one. -/
theorem Pids.change (h : Pids k r) (hn : k.nextpid ≤ k'.nextpid) (hq : ∀ r ≠ q, k'.proc r = k.proc r)
    (hpid : (k'.proc q).pid = 0 ∧ (k'.proc q).state = .unused ∨
      (k'.proc q).pid = k.nextpid ∧ k.nextpid < k'.nextpid) (hsame : ∀ p ≠ q, r' p = r p)
    (hleft : ¬ k'.live q → (r' q = false ↔ k'.dirOf q = 0)) : Pids k' r' := by
  have hlt := h.lt q
  refine ⟨fun r => ?_, fun r hr => ?_, fun p r e hne => ?_, fun p hp => ?_⟩
  · rcases eq_or_ne r q with rfl | hr
    · omega
    · have := h.lt r
      rw [hq r hr]
      omega
  · rcases eq_or_ne r q with rfl | hne
    · rcases hpid with ⟨-, hst⟩ | ⟨hp, -⟩
      · exact absurd hst hr
      · omega
    · rw [Kernel.live, hq r hne] at hr
      rw [hq r hne]
      exact h.pos r hr
  · have hp := h.lt p
    have hr := h.lt r
    by_cases hpq : p = q <;> by_cases hrq : r = q
    · exact hpq.trans hrq.symm
    · rw [hpq] at e hne
      rw [hq r hrq] at e
      omega
    · rw [hq p hpq] at e hne
      rw [hrq] at e
      omega
    · rw [hq p hpq] at e hne
      rw [hq r hrq] at e
      exact h.inj p r e hne
  · rcases eq_or_ne p q with rfl | hne
    · exact hleft hp
    · rw [Kernel.live, hq p hne] at hp
      rw [hsame p hne, h.left p hp, Kernel.dirOf, Kernel.dirOf, hq p hne]

theorem noted_samePids (p : Slot) (key : ℕ) (b x : ℤ) : SamePids k (k.noted p key b x) := by
  have h := SamePids.setProc (k := k) (p := p) (f := fun q => { q with hasShm := q.hasShm + b }) rfl .rfl
    fun _ => rfl
  exact h.trans (.of_eq rfl rfl)

theorem delLoop_samePids {key n i : ℕ} (h : delLoop key n i k = .ok k') : SamePids k k' := by
  induction n generalizing i k with
  | zero =>
    obtain rfl := Except.ok.inj h
    exact .of_eq rfl rfl
  | succ n ih =>
    unfold delLoop at h
    split_ifs at h
    obtain ⟨k1, h1, h⟩ := bind_ok h
    have hs := ih h
    exact (kfree_memOnly.ok h1).samePids.trans ⟨hs.nextpid, hs.pid, hs.used, hs.left⟩

theorem Inv.dir_ne {own : ℕ → Role} (h : Inv k own) (hq : k.live q) : k.dirOf q ≠ 0 := fun e => by
  have := (h.wf.page _ (by rw [h.dir q hq]; simp)).ge
  omega

theorem Pids.step {o : Op} {own : ℕ → Role} (h : Pids k r) (hi : Inv k own) (hs : step k o = some k') :
    Pids k' (reaped k r o) := by
  unfold Vm.step at hs
  split_ifs at hs with hc
  obtain ⟨hmay, hadm⟩ := hc
  have hcall := toOption_some hs
  cases o with
  | growproc p n =>
    obtain ⟨⟨r, k1⟩, e, rfl⟩ := map_ok hcall
    exact h.same (growproc_shm.ok e).2
  | fork p =>
    obtain ⟨⟨r, k1⟩, e, rfl⟩ := map_ok hcall
    obtain ⟨-, ⟨hu, rfl⟩ | ⟨np, hu, hn, hpid, hq, hleft⟩⟩ := fork_shm e
    · simpa [reaped, hu] using h
    · have hst : (k.proc np).state = .unused := by simpa using (find?_eq_some_iff_append.mp hu).1
      refine h.change (q := np) (by rw [hn]; omega) hq (.inr ⟨hpid, by rw [hn]; omega⟩) (fun p hp => ?_) fun hd => ?_
      · simp [reaped, hu, hp.symm]
      · rw [Kernel.dirOf, hleft (not_not.mp hd)]
        by_cases hf : k.freelist = []
        · simpa [reaped, hf] using h.left np (not_not.mpr hst)
        · simp [reaped, hu, hf]
  | exec p img =>
    obtain ⟨⟨r, k1⟩, e, rfl⟩ := map_ok hcall
    exact h.same ((exec_shm.ok e).2 (live_of_mayCall hmay rfl))
  | exit p =>
    have hp := live_of_mayCall hmay rfl
    obtain ⟨-, k1, rfl, hk1⟩ := exit_ok hcall
    have h1 : SamePids k k1 := by
      rcases hk1 with ⟨-, rfl⟩ | ⟨-, e⟩
      · exact .of_eq rfl rfl
      · exact (deallocshm_segs.ok e).2
    refine h.same (h1.trans ⟨rfl, fun q => ?_, fun q => ?_, fun q hq => (exited_other ?_).pgdir⟩)
    · unfold exited reparent
      rcases eq_or_ne q p with rfl | hq <;> simp_all <;> split_ifs <;> rfl
    · rcases eq_or_ne q p with rfl | hq
      · exact iff_of_false (by simp [exited]) fun e => hp ((h1.used q).mp e)
      · rw [(exited_other hq).state]
    · rintro rfl
      exact hp ((h1.used q).mp hq)
  | wait p =>
    obtain ⟨-, hn, ⟨hz, rfl⟩ | ⟨q, hz, hpid, hst, hdir, hq⟩⟩ := wait_shm hcall
    · simpa [reaped, hz] using h
    · refine h.change hn.ge hq (.inl ⟨hpid, hst⟩) (fun p hp => by simp [reaped, hz, hp.symm]) fun _ => ?_
      rw [Kernel.dirOf, hdir]
      simpa [reaped, hz] using hi.dir_ne (zombieChild_live hz)
  | swapOut p opened writes =>
    obtain ⟨k1, e, rfl⟩ := map_ok hcall
    have hm := swapOut_memOnly.ok e
    refine h.same (hm.samePids.trans (.setProc rfl (iff_of_false (by simp) ?_) fun _ => rfl))
    rw [hm.proc]
    exact live_of_mayCall hmay rfl
  | swapIn t opened data =>
    exact h.same ((swapIn_shm.ok hcall).2 (by rw [show (k.proc t).state = .sleepingSuspended from hadm]; simp))
  | shmget p key size flg junk =>
    obtain ⟨⟨r, k1⟩, e, rfl⟩ := map_ok hcall
    obtain ⟨_, _, ht⟩ := shmget_taken hi.wf e
    exact h.same (.of_eq ht.proc ht.nextpid)
  | shmat p shmid flg =>
    obtain ⟨⟨r, k1⟩, e, rfl⟩ := map_ok hcall
    rcases shmat_ok e with ⟨-, rfl⟩ | ⟨key, a, k2, -, -, hl, ⟨-, rfl⟩ | ⟨-, rfl⟩⟩
    · exact h
    · exact h.same ((noted_samePids p key 1 1).trans (attachLoop_memOnly.ok hl).samePids)
    · have hs := SamePids.setProc (k := k2) (p := p) (f := fun q => { q with sz := a }) rfl .rfl fun _ => rfl
      exact h.same (((noted_samePids p key 1 1).trans (attachLoop_memOnly.ok hl).samePids).trans hs)
  | shmdt p a =>
    obtain ⟨⟨r, k1⟩, e, rfl⟩ := map_ok hcall
    rcases shmdt_ok e with ⟨-, rfl | rfl⟩ | ⟨key, -, -, hl⟩
    · exact h
    · exact h.same (.of_eq rfl rfl)
    · exact h.same ((noted_samePids p key (-1) 0).trans (clearLoop_memOnly.ok hl).samePids)
  | shmdel p shmid =>
    obtain ⟨⟨r, k1⟩, e, rfl⟩ := map_ok hcall
    unfold shmdel at e
    split at e
    · obtain ⟨-, rfl⟩ := pair_ok e
      exact h
    · split_ifs at e
      · obtain ⟨-, rfl⟩ := pair_ok e
        exact h
      · obtain ⟨k2, e2, e⟩ := bind_ok e
        obtain ⟨-, rfl⟩ := pair_ok e
        exact h.same (delLoop_samePids e2)
  | store p va w => exact h.same (store_call hi (live_of_mayCall hmay rfl) hcall).2.2.samePids

theorem pids_of_reaches (h : Reaches trace (fun s o => OwnOk s.1 o) (boot, fun _ => false) (k, r)) :
    ∃ own, Inv k own ∧ Pids k r := by
  have hI := h.invariant (I := fun s => ((∃ own, Inv s.1 own) ∧ Rows s.1) ∧ Pids s.1 s.2)
    (fun s o s' ⟨⟨⟨own, hi⟩, hrow⟩, hp⟩ ho hs => by
      obtain ⟨k', hk, rfl⟩ := map_eq_some_iff.mp hs
      obtain ⟨own', hi', -⟩ := hi.step hrow ho hk
      exact ⟨⟨⟨own', hi'⟩, hrow.step hk⟩, hp.step hi hk⟩)
    ⟨⟨⟨bootOwn, inv_boot⟩, Reachable.rows (.refl boot : Reachable Always boot)⟩,
      ⟨by decide +kernel, by decide +kernel, by decide +kernel, by decide +kernel⟩⟩
  obtain ⟨⟨⟨own, hi⟩, -⟩, hp⟩ := hI
  exact ⟨own, hi, hp⟩

/-! ### The result -/

/-- The loop stops at the first slot with the pid. -/
theorem foundAt_iff : foundAt k pid = q ↔ ((k.proc q).pid : ℤ) = pid ∧ ∀ p < q, ((k.proc p).pid : ℤ) ≠ pid := by
  refine (findIdx_eq (by simp)).trans (and_congr (by simp) ⟨fun h p hp => ?_, fun h j hj => ?_⟩)
  · simpa using h p hp
  · simpa using h ⟨j, hj.trans q.isLt⟩ hj

theorem Pids.foundAt_eq (h : Pids k r) (hq : k.live q) : foundAt k (k.proc q).pid = q :=
  foundAt_iff.mpr ⟨rfl, fun p hp e => hp.ne (h.inj p q (by omega) (by have := h.pos q hq; omega))⟩

theorem getAllocatedPages_slot (h : foundAt k pid = q) :
    getAllocatedPages k pid = .ok (countDir k (k.dirOf q)) := by
  have hlt : foundAt k pid < NPROC := by
    rw [h]
    exact q.isLt
  rw [getAllocatedPages, dif_pos hlt, show (⟨foundAt k pid, hlt⟩ : Slot) = q from Fin.ext h]

/-- **The pages of a process.**  In every run of calls that free no page of a live segment,
`getAllocatedPages` reads only slots of the table and directories of processes exactly if the pid is that
of a process, or the first slot that has it is empty and has not been reaped, or the directory that was freed then is
in use again. For the pid of a process it returns the number of its pages that are present and accessible to the user; after it has been
swapped out this is 0, if it had no pages above its size. -/
theorem getAllocatedPages_reads_iff
    (h : Reaches trace (fun s o => OwnOk s.1 o) (boot, fun _ => false) (k, r)) (pid : ℤ) :
    (ReadsLive k pid ↔ (∃ q, k.live q ∧ ((k.proc q).pid : ℤ) = pid) ∨
      ∃ q, ((k.proc q).pid : ℤ) = pid ∧ (∀ p < q, ((k.proc p).pid : ℤ) ≠ pid) ∧ ¬ k.live q ∧
        (r q = false ∨ ∃ p, k.live p ∧ k.dirOf p = k.dirOf q)) ∧
    ∀ q, k.live q → ((k.proc q).pid : ℤ) = pid →
      getAllocatedPages k pid = .ok (userPresent k (k.dirOf q)) ∧
      ∀ writes k', WritesAll k q writes → swapOut k q true writes = .ok k' →
        (∀ n < userPages, (k.proc q).sz ≤ 4096 * n → ¬ Present (k.entry (k.dirOf q) n)) →
        getAllocatedPages k' pid = .ok 0 := by
  obtain ⟨own, hi, hp⟩ := pids_of_reaches h
  refine ⟨⟨fun ⟨q, hq, hd⟩ => ?_, ?_⟩, fun q hq e => ?_⟩
  · obtain ⟨hpid, hfirst⟩ := foundAt_iff.mp hq
    by_cases hl : k.live q
    · exact .inl ⟨q, hl, hpid⟩
    · exact .inr ⟨q, hpid, hfirst, hl, hd.imp_left (hp.left q hl).mpr⟩
  · rintro (⟨q, hl, rfl⟩ | ⟨q, hpid, hfirst, hl, hd⟩)
    · exact ⟨q, hp.foundAt_eq hl, .inr ⟨q, hl, rfl⟩⟩
    · exact ⟨q, foundAt_iff.mpr ⟨hpid, hfirst⟩, hd.imp_left (hp.left q hl).mp⟩
  · subst e
    have hdir := hi.dir q hq
    have hd := hi.dir_ne hq
    have habs := fun n => hi.wf.absent _ n hdir
    have hkern := fun n => hi.wf.kern _ n hdir
    refine ⟨?_, fun writes k' hw hr hout => ?_⟩
    · rw [getAllocatedPages_slot (hp.foundAt_eq hq), countDir_user hd habs hkern]
    · have hm := swapOut_memOnly.ok hr
      obtain ⟨-, he⟩ := swapOut_emptied (hi.wf.tabled hdir) (hi.size q hq) hw hr
      have hua := userPages_le
      have hzero : ∀ n < userPages, k'.entry (k.dirOf q) n = 0 := fun n hn => by
        rw [he.entry n (by omega)]
        split_ifs with hc
        · rfl
        · refine habs n hn fun hpr => hc ⟨Nat.zero_le n, ?_, hpr⟩
          exact not_le.mp fun hle => hout n hn hle hpr
      have hfound : foundAt k' (k.proc q).pid = q := by
        unfold foundAt
        rw [hm.proc]
        exact hp.foundAt_eq hq
      rw [getAllocatedPages_slot hfound, show k'.dirOf q = k.dirOf q by rw [Kernel.dirOf, hm.proc],
        countDir_user hd (fun n hn _ => hzero n hn) (fun n hn hn' => ?_)]
      · refine congrArg _ (Nat.count_iff_forall_not.mpr fun n hn hpr => ?_)
        rw [hzero n hn] at hpr
        exact not_present_zero hpr.1
      · rw [he.entry n hn']
        split_ifs
        · rfl
        · exact hkern n hn hn'

end

/-- Init, which has one page. -/
theorem getAllocatedPages_init : ∃ k', getAllocatedPages boot 1 = .ok (userPresent boot (boot.dirOf initproc)) ∧
    swapOut boot initproc true (fun _ => true) = .ok k' ∧ getAllocatedPages k' 1 = .ok 0 := by
  have h := (getAllocatedPages_reads_iff (k := boot) (.refl _) 1).2 initproc (by decide) (by decide)
  have hok : (swapOut boot initproc true fun _ => true).toOption.isSome = true := by decide +kernel
  obtain ⟨k', hr⟩ := isSome_iff_exists.mp hok
  have hr := toOption_some hr
  have hua := userPages_le
  refine ⟨k', h.1, hr, h.2 _ k' (fun _ _ => rfl) hr fun n hn hle => ?_⟩
  have hpos : 4096 ≤ 4096 * n := hle
  rcases boot_entry (d := 1) (.inl rfl) (show n < allPages by omega) with e | ⟨-, rfl, -⟩ | ⟨e, -⟩
  · rw [show boot.dirOf initproc = top 1 from rfl, e]
    exact not_present_zero
  · omega
  · omega

/-- A pid that no slot has: the slot past the end of the table is read. -/
theorem getAllocatedPages_negative : Reachable OwnOk boot ∧ ¬ ReadsLive boot (-1) ∧
    getAllocatedPages boot (-1) = .error .bounds := by
  refine ⟨.refl boot, ?_, by decide +kernel⟩
  rintro ⟨q, hq, -⟩
  have := (foundAt_iff.mp hq).1
  omega

end Xv6.Vm
