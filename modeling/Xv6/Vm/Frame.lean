import Xv6.Vm.Alloc
import Xv6.Vm.System

/-! # What the memory code leaves alone

The functions of `vm.c`, and the loops of the segment code that only map, unmap or free pages,
change nothing but memory and the free list: `MemOnly`. Of the calls only `shmget` and `shmdel`
change which pages belong to which segment: `SameSegs` holds for the others. -/

namespace Xv6.Vm

open Fallible Function

/-- Only memory and the free list differ. -/
structure MemOnly (k k' : Kernel) : Prop where
  shm : k'.shm = k.shm
  proc : k'.proc = k.proc
  nextpid : k'.nextpid = k.nextpid

variable {k1 k2 k3 : Kernel}

namespace MemOnly

theorem refl (k : Kernel) : MemOnly k k := ⟨rfl, rfl, rfl⟩

theorem trans (h : MemOnly k1 k2) (h' : MemOnly k2 k3) : MemOnly k1 k3 :=
  ⟨h'.shm.trans h.shm, h'.proc.trans h.proc, h'.nextpid.trans h.nextpid⟩

theorem store (k : Kernel) (page i w : ℕ) : MemOnly k (k.store page i w) := ⟨rfl, rfl, rfl⟩

theorem setPage (k : Kernel) (page : ℕ) (f : ℕ → ℕ) : MemOnly k (k.setPage page f) :=
  ⟨rfl, rfl, rfl⟩

end MemOnly

section
variable {k k' : Kernel} {pgdir a key n sz oldsz newsz va i j : ℕ} {p : Slot} {r shmid flg : ℤ} {data : FileData}

theorem kfree_memOnly {v : ℕ} : Ends (· = .panic "kfree") (MemOnly k) (kfree k v) := by
  unfold kfree
  split_ifs
  · exact .fail rfl
  · exact .ret ⟨rfl, rfl, rfl⟩

theorem kalloc_memOnly {r : Option ℕ} (h : kalloc k = (r, k')) : MemOnly k k' := by
  unfold kalloc at h
  split at h <;> obtain ⟨_, rfl⟩ := Prod.mk.inj h <;> exact ⟨rfl, rfl, rfl⟩

theorem walkpgdir_memOnly {alloc : Bool} {r : Option (ℕ × ℕ)}
    (h : walkpgdir k pgdir va alloc = (r, k')) : MemOnly k k' := by
  unfold walkpgdir at h
  dsimp only at h
  split_ifs at h
  · obtain ⟨_, rfl⟩ := Prod.mk.inj h
    exact .refl k
  · obtain ⟨_, rfl⟩ := Prod.mk.inj h
    exact .refl k
  · cases hk : kalloc k with
    | mk m k1 =>
      rw [hk] at h
      have h1 := kalloc_memOnly hk
      cases m <;> obtain ⟨_, rfl⟩ := Prod.mk.inj h
      · exact h1
      · exact (h1.trans (.setPage _ _ _)).trans (.store _ _ _ _)

theorem mapLoop_memOnly {perm pa : ℕ} :
    Ends (· = .panic "remap") (MemOnly k ·.2) (mapLoop pgdir perm n a pa k) := by
  induction n generalizing a pa k with
  | zero => exact .ret (.refl k)
  | succ n ih =>
    unfold mapLoop
    split
    · rename_i hw
      exact .ret (walkpgdir_memOnly hw)
    · rename_i hw
      split_ifs
      · exact .fail rfl
      · exact ih.next fun _ => ((walkpgdir_memOnly hw).trans (.store _ _ _ _)).trans

theorem mappages_memOnly {size pa perm : ℕ} :
    Ends (· = .panic "remap") (MemOnly k ·.2) (mappages k pgdir va size pa perm) :=
  mapLoop_memOnly

theorem kmapLoop_memOnly {l : List (ℕ × ℕ × ℕ × ℕ)} :
    Ends (· = .panic "remap") (MemOnly k ·.2) (kmapLoop pgdir l k) := by
  induction l generalizing k with
  | nil => exact .ret (.refl k)
  | cons m l ih =>
    refine mappages_memOnly.bind fun ⟨b, k1⟩ h1 => ?_
    cases b
    · exact .ret h1
    · exact ih.next fun _ => h1.trans

theorem setupkvm_memOnly : Ends (· = .panic "remap") (MemOnly k ·.2) (setupkvm k) := by
  unfold setupkvm
  split
  · rename_i hk
    exact .ret (kalloc_memOnly hk)
  · rename_i hk
    exact kmapLoop_memOnly.bind fun _ h1 => .ret (((kalloc_memOnly hk).trans (.setPage _ _ _)).trans h1)

theorem deallocLoop_memOnly : Ends (· = .panic "kfree") (MemOnly k) (deallocLoop pgdir oldsz n a k) := by
  induction n generalizing a k with
  | zero => exact .ret (.refl k)
  | succ n ih =>
    unfold deallocLoop
    split_ifs
    · split
      · exact ih
      · dsimp only
        split_ifs
        · exact .fail rfl
        · refine kfree_memOnly.bind fun k1 h1 => ?_
          exact ih.next fun _ => (h1.trans (.store _ _ _ _)).trans
        · exact ih
    · exact .ret (.refl k)

theorem deallocuvm_memOnly : Ends (· = .panic "kfree") (MemOnly k ·.2) (deallocuvm k pgdir oldsz newsz) := by
  unfold deallocuvm
  split_ifs
  · exact .ret (.refl k)
  · exact deallocLoop_memOnly.bind fun _ h1 => .ret h1

theorem allocLoop_memOnly : Yields (MemOnly k ·.2) (allocLoop pgdir oldsz newsz n a k) := by
  induction n generalizing a k with
  | zero => exact .ret (.refl k)
  | succ n ih =>
    unfold allocLoop
    split
    · rename_i hk
      exact deallocuvm_memOnly.yields.bind fun _ h1 => .ret ((kalloc_memOnly hk).trans h1)
    · rename_i hk
      exact mappages_memOnly.yields.bind fun _ h1 =>
        ih.next fun _ => (((kalloc_memOnly hk).trans (.setPage _ _ _)).trans h1).trans

theorem allocuvm_memOnly : Yields (MemOnly k ·.2) (allocuvm k pgdir oldsz newsz) := by
  unfold allocuvm
  dsimp only
  split_ifs
  · exact .ret (.refl k)
  · exact .ret (.refl k)
  · exact allocLoop_memOnly

theorem freeTables_memOnly : Ends (· = .panic "kfree") (MemOnly k) (freeTables pgdir n i k) := by
  induction n generalizing i k with
  | zero => exact .ret (.refl k)
  | succ n ih =>
    unfold freeTables
    split_ifs
    · refine kfree_memOnly.bind fun k1 h1 => ?_
      exact ih.next fun _ => h1.trans
    · exact ih

theorem freevm_memOnly :
    Ends (fun e => e = .panic "freevm: no pgdir" ∨ e = .panic "kfree") (MemOnly k) (freevm k pgdir) := by
  unfold freevm
  split_ifs
  · exact .fail (.inl rfl)
  · refine Ends.mono (deallocuvm_memOnly.bind fun _ h1 => ?_) (fun _ => .inr) fun _ => id
    exact freeTables_memOnly.bind fun _ h2 => kfree_memOnly.next fun _ => (h1.trans h2).trans

theorem copyLoop_memOnly {d : ℕ} : Yields (MemOnly k ·.2) (copyLoop pgdir d n i k) := by
  induction n generalizing i k with
  | zero => exact .ret (.refl k)
  | succ n ih =>
    unfold copyLoop
    split
    · exact .fail trivial
    · split_ifs
      · exact .fail trivial
      dsimp only
      split
      · rename_i hk
        exact .ret (kalloc_memOnly hk)
      · rename_i hk
        refine mappages_memOnly.yields.bind fun ⟨b, k2⟩ h2 => ?_
        have h2 := ((kalloc_memOnly hk).trans (.setPage _ _ _)).trans h2
        cases b
        · exact .ret h2
        · exact ih.next fun _ => h2.trans

theorem copyuvm_memOnly : Yields (MemOnly k ·.2) (copyuvm k pgdir sz) := by
  refine setupkvm_memOnly.yields.bind fun ⟨m, k1⟩ h1 => ?_
  cases m with
  | none => exact .ret h1
  | some d =>
    refine copyLoop_memOnly.bind fun ⟨b, k2⟩ h2 => ?_
    cases b
    · exact freevm_memOnly.yields.bind fun _ h3 => .ret ((h1.trans h2).trans h3)
    · exact .ret (h1.trans h2)

theorem clearpteu_memOnly {uva : ℕ} : Yields (MemOnly k) (clearpteu k pgdir uva) := by
  unfold clearpteu
  split
  · exact .fail trivial
  · exact .ret (.store _ _ _ _)

theorem loadLoop_memOnly {addr : ℕ} : Yields (MemOnly k ·.2) (loadLoop pgdir addr data n j k) := by
  induction n generalizing j k with
  | zero => exact .ret (.refl k)
  | succ n ih =>
    unfold loadLoop
    split
    · exact .fail trivial
    · dsimp only
      split_ifs
      · exact ih.next fun _ => (MemOnly.setPage _ _ _).trans
      · exact .ret (.setPage _ _ _)

theorem loaduvm_memOnly {addr : ℕ} : Yields (MemOnly k ·.2) (loaduvm k pgdir addr data sz) := by
  unfold loaduvm
  split_ifs
  · exact .fail trivial
  · exact loadLoop_memOnly

theorem copyoutLoop_memOnly {data : ℕ → (ℕ → ℕ) → (ℕ → ℕ)} {len : ℕ} :
    Yields (MemOnly k ·.2) (copyoutLoop pgdir data n j va len k) := by
  induction n generalizing j va len k with
  | zero => exact .ret (.refl k)
  | succ n ih =>
    unfold copyoutLoop
    split_ifs
    · exact .ret (.refl k)
    · dsimp only
      cases uva2ka k pgdir (pgRoundDown va) with
      | error e => exact .fail trivial
      | ok r =>
        cases r with
        | none => exact .ret (.refl k)
        | some page => exact ih.next fun _ => (MemOnly.setPage _ _ _).trans

theorem copyout_memOnly {data : ℕ → (ℕ → ℕ) → (ℕ → ℕ)} {len : ℕ} :
    Yields (MemOnly k ·.2) (copyout k pgdir va len data) :=
  copyoutLoop_memOnly

theorem execLoad_memOnly {l : List (Option Phdr)} : Yields (MemOnly k ·.2) (execLoad pgdir l sz k) := by
  induction l generalizing sz k with
  | nil => exact .ret (.refl k)
  | cons ph l ih =>
    cases ph with
    | none => exact .ret (.refl k)
    | some ph =>
      unfold execLoad
      split_ifs
      · exact ih
      · exact .ret (.refl k)
      · refine allocuvm_memOnly.bind fun ⟨sz1, k1⟩ h1 => ?_
        dsimp only
        split_ifs
        · exact .ret h1
        · refine loaduvm_memOnly.bind fun ⟨b, k2⟩ h2 => ?_
          cases b
          · exact .ret (h1.trans h2)
          · exact ih.next fun _ => (h1.trans h2).trans

theorem execArgs_memOnly {data : ℕ → ℕ → (ℕ → ℕ) → (ℕ → ℕ)} {l : List ℕ} {sp : ℕ} :
    Yields (MemOnly k ·.2) (execArgs pgdir data l j sp k) := by
  induction l generalizing j sp k with
  | nil => exact .ret (.refl k)
  | cons len l ih =>
    unfold execArgs
    split_ifs
    · exact .ret (.refl k)
    · refine copyout_memOnly.bind fun ⟨b, k1⟩ h1 => ?_
      cases b
      · exact .ret h1
      · exact ih.next fun _ => h1.trans

theorem execBuild_memOnly {img : Image} : Yields (MemOnly k ·.2) (execBuild k pgdir img) := by
  refine execLoad_memOnly.bind fun ⟨sz, k1⟩ h1 => ?_
  cases sz with
  | none => exact .ret h1
  | some sz =>
    refine allocuvm_memOnly.bind fun ⟨sz2, k2⟩ h2 => ?_
    dsimp only
    split_ifs
    · exact .ret (h1.trans h2)
    · refine clearpteu_memOnly.bind fun k3 h3 => execArgs_memOnly.bind fun ⟨sp, k4⟩ h4 => ?_
      have h4 := ((h1.trans h2).trans h3).trans h4
      cases sp with
      | none => exact .ret h4
      | some sp => exact copyout_memOnly.bind fun _ h5 => .ret (h4.trans h5)

theorem undoLoop_memOnly : Yields (MemOnly k) (undoLoop key n j k) := by
  induction n generalizing j k with
  | zero => exact .ret (.refl k)
  | succ n ih => exact kfree_memOnly.yields.bind fun _ h1 => ih.next fun _ => h1.trans

theorem attachLoop_memOnly {perm : Option ℕ} : Yields (MemOnly k ·.2) (attachLoop pgdir key perm n i a k) := by
  induction n generalizing i a k with
  | zero => exact .ret (.refl k)
  | succ n ih =>
    unfold attachLoop
    split_ifs
    · cases perm with
      | none => exact ih
      | some perm => exact mappages_memOnly.yields.bind fun _ h1 => ih.next fun _ => h1.trans
    · exact .fail trivial
    · exact .ret (.refl k)

theorem clearLoop_memOnly : Yields (MemOnly k) (clearLoop pgdir n a k) := by
  induction n generalizing a k with
  | zero => exact .ret (.refl k)
  | succ n ih =>
    unfold clearLoop
    split
    · exact .fail trivial
    · exact ih.next fun _ => (MemOnly.store _ _ _ _).trans

/-! ### The calls -/

/-- The same pages belong to the same keys. -/
structure SameSegs (k k' : Kernel) : Prop where
  seg : k'.shm.seg = k.shm.seg
  pages : k'.shm.pages = k.shm.pages

theorem MemOnly.sameSegs (h : MemOnly k k') : SameSegs k k' := by
  have hs := h.shm
  exact ⟨by rw [hs], by rw [hs]⟩

theorem SameSegs.refl (k : Kernel) : SameSegs k k := ⟨rfl, rfl⟩

theorem SameSegs.trans (h : SameSegs k1 k2) (h' : SameSegs k2 k3) :
    SameSegs k1 k3 :=
  ⟨h'.seg.trans h.seg, h'.pages.trans h.pages⟩

/-- Counters and flags are kept apart from the page counts. -/
theorem SameSegs.setRefs (k : Kernel) (key j : ℕ) (x : ℤ) :
    SameSegs k (k.setRefs key 0 j x) := by
  refine ⟨rfl, funext fun i => ?_⟩
  by_cases h : i = key
  · subst h
    simp [Shm.pages]
  · simp [Shm.pages, h]

theorem SameSegs.setProc (k : Kernel) (p : Slot) (f : Proc → Proc) : SameSegs k (k.setProc p f) :=
  ⟨rfl, rfl⟩

/-- Slots keep their pids, and are in use as before; those that are not keep the pointer to a directory. -/
structure SamePids (k k' : Kernel) : Prop where
  nextpid : k'.nextpid = k.nextpid
  pid : ∀ q, (k'.proc q).pid = (k.proc q).pid
  used : ∀ q, (k'.proc q).state = .unused ↔ (k.proc q).state = .unused
  left : ∀ q, (k.proc q).state = .unused → (k'.proc q).pgdir = (k.proc q).pgdir

theorem SamePids.of_eq (hp : k'.proc = k.proc) (hn : k'.nextpid = k.nextpid) : SamePids k k' :=
  ⟨hn, fun _ => by rw [hp], fun _ => by rw [hp], fun _ _ => by rw [hp]⟩

theorem MemOnly.samePids (h : MemOnly k k') : SamePids k k' := .of_eq h.proc h.nextpid

theorem SamePids.trans (h : SamePids k1 k2) (h' : SamePids k2 k3) : SamePids k1 k3 :=
  ⟨h'.nextpid.trans h.nextpid, fun q => (h'.pid q).trans (h.pid q), fun q => (h'.used q).trans (h.used q),
    fun q hq => (h'.left q ((h.used q).mpr hq)).trans (h.left q hq)⟩

theorem SamePids.setProc {f : Proc → Proc} (hpid : (f (k.proc p)).pid = (k.proc p).pid)
    (hused : (f (k.proc p)).state = .unused ↔ (k.proc p).state = .unused)
    (hleft : (k.proc p).state = .unused → (f (k.proc p)).pgdir = (k.proc p).pgdir) : SamePids k (k.setProc p f) := by
  refine ⟨rfl, fun q => ?_, fun q => ?_, fun q hq => ?_⟩ <;> rw [Kernel.setProc_proc] <;>
    rcases eq_or_ne q p with rfl | hq <;> simp_all

theorem growproc_shm {n : ℤ} : Yields (fun r => r.2.shm = k.shm ∧ SamePids k r.2) (growproc k p n) := by
  refine Ends.bind (P := (MemOnly k ·.2)) ?_ fun ⟨sz, k1⟩ h1 => ?_
  · split_ifs
    · exact allocuvm_memOnly
    · exact deallocuvm_memOnly.yields
    · exact .ret (.refl k)
  · dsimp only
    split_ifs
    · exact .ret ⟨h1.shm, h1.samePids⟩
    · have hs : SamePids k1 (k1.setProc p fun q => { q with sz := sz }) := .setProc rfl .rfl fun _ => rfl
      exact .ret ⟨h1.shm, h1.samePids.trans hs⟩

/-- A slot, if one is free, is given the next pid, also when there is no memory for the child. Without memory for
the kernel stack it keeps the pointer to a directory. -/
theorem fork_shm (h : fork k p = .ok (r, k')) : k'.shm = k.shm ∧ (unusedSlot k = none ∧ k' = k ∨
    ∃ np, unusedSlot k = some np ∧ k'.nextpid = k.nextpid + 1 ∧ (k'.proc np).pid = k.nextpid ∧
      (∀ q ≠ np, k'.proc q = k.proc q) ∧ ((k'.proc np).state = .unused →
        (k'.proc np).pgdir = if k.freelist = [] then (k.proc np).pgdir else 0)) := by
  unfold fork at h
  split at h
  · obtain ⟨_, rfl⟩ := pair_ok h
    exact ⟨rfl, .inl ⟨by assumption, rfl⟩⟩
  · rename_i np hnp
    dsimp only at h
    split at h
    · rename_i k1 hk
      obtain ⟨_, rfl⟩ := pair_ok h
      have h1 := kalloc_memOnly hk
      have hnil : k.freelist = [] := (kalloc_none hk).mp rfl
      exact ⟨h1.shm, .inr ⟨np, hnp, h1.nextpid, by simp [h1.proc], fun q hq => by simp [h1.proc, hq],
        fun _ => by simp [h1.proc, hnil]⟩⟩
    · rename_i k1 hk
      have hcons : k.freelist ≠ [] := fun hnil => by cases (kalloc_none hk).mpr hnil
      obtain ⟨⟨d, k2⟩, e2, h⟩ := bind_ok h
      have h1 := kalloc_memOnly hk
      have h2 : MemOnly _ k2 := copyuvm_memOnly.ok e2
      have h12 : k2.shm = k.shm := h2.shm.trans h1.shm
      cases d with
      | none =>
        obtain ⟨k3, h3, h⟩ := bind_ok h
        obtain ⟨_, rfl⟩ := pair_ok h
        have h3 := kfree_memOnly.ok h3
        exact ⟨h3.shm.trans h12, .inr ⟨np, hnp, h3.nextpid.trans (h2.nextpid.trans h1.nextpid),
          by simp [h3.proc, h2.proc, h1.proc], fun q hq => by simp [h3.proc, h2.proc, h1.proc, hq],
          fun _ => by simp [hcons]⟩⟩
      | some d =>
        obtain ⟨_, rfl⟩ := pair_ok h
        exact ⟨h12, .inr ⟨np, hnp, h2.nextpid.trans h1.nextpid, by simp [h2.proc, h1.proc],
          fun q hq => by simp [h2.proc, h1.proc, hq], by simp⟩⟩

theorem exec_shm {img : Option Image} :
    Yields (fun r => r.2.shm = k.shm ∧ ((k.proc p).state ≠ .unused → SamePids k r.2)) (exec k p img) := by
  cases img with
  | none => exact .ret ⟨rfl, fun _ => .of_eq rfl rfl⟩
  | some img =>
    refine setupkvm_memOnly.yields.bind fun ⟨d, k1⟩ h1 => ?_
    cases d with
    | none => exact .ret ⟨h1.shm, fun _ => h1.samePids⟩
    | some d =>
      refine execBuild_memOnly.bind fun ⟨sz, k2⟩ h2 => ?_
      have h2 := h1.trans h2
      cases sz with
      | none =>
        refine freevm_memOnly.yields.bind fun k3 h3 => ?_
        have h3 := h2.trans h3
        exact .ret ⟨h3.shm, fun _ => h3.samePids⟩
      | some sz =>
        refine freevm_memOnly.yields.bind fun k3 h3 => ?_
        exact .ret ⟨h3.shm.trans h2.shm, fun hp => (h2.samePids.trans (.setProc rfl .rfl fun e =>
          absurd (h2.proc ▸ e) hp)).trans h3.samePids⟩

theorem detachScan_segs :
    Yields (fun r => SameSegs k r.2 ∧ SamePids k r.2) (detachScan pgdir sz key n a k) := by
  induction n generalizing a with
  | zero => exact .ret ⟨.refl k, .of_eq rfl rfl⟩
  | succ n ih =>
    unfold detachScan
    split_ifs
    · split
      · exact ih
      · split_ifs
        · refine clearLoop_memOnly.bind fun k1 h1 => .ret ?_
          dsimp only
          split_ifs
          · exact ⟨h1.sameSegs.trans (.setRefs _ _ _ _), .of_eq h1.proc h1.nextpid⟩
          · exact ⟨h1.sameSegs, h1.samePids⟩
        · exact ih
    · exact .ret ⟨.refl k, .of_eq rfl rfl⟩

theorem detachLoop_segs {pid : ℕ} :
    Yields (fun k' => SameSegs k k' ∧ SamePids k k') (detachLoop pgdir sz pid n key a k) := by
  induction n generalizing key a k with
  | zero => exact .ret ⟨.refl k, .of_eq rfl rfl⟩
  | succ n ih =>
    unfold detachLoop
    split_ifs
    · refine detachScan_segs.bind fun _ h1 => ?_
      exact ih.next fun _ h2 => ⟨h1.1.trans h2.1, h1.2.trans h2.2⟩
    · exact ih
    · exact .fail trivial

theorem deallocshm_segs : Yields (fun k' => SameSegs k k' ∧ SamePids k k') (deallocshm k p) := by
  unfold deallocshm
  split_ifs
  · exact .fail trivial
  · exact detachLoop_segs

theorem exit_segs : Yields (SameSegs k) (exit k p) := by
  unfold exit
  split
  · exact .fail trivial
  · refine Ends.bind (P := SameSegs k) ?_ fun k1 h1 => .ret (h1.trans ⟨rfl, rfl⟩)
    split_ifs
    · exact deallocshm_segs.next fun _ h1 => h1.1
    · exact .ret (.refl k)

theorem wait_shm (h : wait k p = .ok k') : k'.shm = k.shm ∧ k'.nextpid = k.nextpid ∧
    (zombieChild k p = none ∧ k' = k ∨ ∃ q, zombieChild k p = some q ∧ (k'.proc q).pid = 0 ∧
      (k'.proc q).state = .unused ∧ (k'.proc q).pgdir = (k.proc q).pgdir ∧ ∀ r ≠ q, k'.proc r = k.proc r) := by
  unfold wait at h
  split at h
  · obtain rfl := Except.ok.inj h
    exact ⟨rfl, rfl, .inl ⟨by assumption, rfl⟩⟩
  · rename_i q hq
    obtain ⟨k1, h1, h⟩ := bind_ok h
    obtain ⟨k2, h2, h⟩ := bind_ok h
    obtain rfl := Except.ok.inj h
    have hm := (kfree_memOnly.ok h1).trans (freevm_memOnly.ok h2)
    exact ⟨hm.shm, hm.nextpid, .inr ⟨q, hq, by simp, by simp, by simp [hm.proc], fun r hr => by simp [hr, hm.proc]⟩⟩

theorem swapOut_memOnly {opened : Bool} {writes : ℕ → Bool} :
    Yields (MemOnly k) (swapOut k p opened writes) := by
  unfold swapOut
  split_ifs
  · exact .ret (.refl k)
  · cases outLoop (k.proc p).pgdir writes (((k.proc p).sz + PGSIZE - 1) / PGSIZE) 0 k with
    | error e => exact .fail trivial
    | ok b =>
      cases b
      · exact .ret (.refl k)
      · exact deallocuvm_memOnly.yields.bind fun _ => .ret

theorem swapIn_shm {t : Slot} {opened : Bool} :
    Yields (fun k' => k'.shm = k.shm ∧ ((k.proc t).state ≠ .unused → SamePids k k'))
      (swapIn k t opened data) := by
  unfold swapIn
  split_ifs
  · exact .ret ⟨rfl, fun _ => .of_eq rfl rfl⟩
  · refine allocuvm_memOnly.bind fun ⟨sz, k1⟩ h1 => ?_
    dsimp only
    split_ifs
    · exact .ret ⟨h1.shm, fun _ => h1.samePids⟩
    · refine loaduvm_memOnly.bind fun ⟨b, k2⟩ h2 => ?_
      have h2 : MemOnly k k2 := h1.trans h2
      exact .ret ⟨h2.shm, fun ht => h2.samePids.trans (.setProc rfl (by simp [h2.proc, ht]) fun _ => rfl)⟩

/-- The books `shmat` and `shmdt` keep: the counter and the flag of the key, and the process's own
counter. -/
def Kernel.noted (k : Kernel) (p : Slot) (key : ℕ) (d x : ℤ) : Kernel :=
  ((k.setRefs key 0 64 (k.shm.count key + d)).setRefs key 0 (k.proc p).pid x).setProc p fun q =>
    { q with hasShm := q.hasShm + d }

theorem SameSegs.noted (k : Kernel) (p : Slot) (key : ℕ) (d x : ℤ) :
    SameSegs k (k.noted p key d x) :=
  ((SameSegs.setRefs k _ _ _).trans (.setRefs _ _ _ _)).trans (.setProc _ _ _)

/-- `shmat(shmid, …)` of `p` finds the segment of `key` and has room for its first page. -/
def Attaches (k : Kernel) (p : Slot) (shmid : ℤ) (key : ℕ) : Prop :=
  k.shm.find (fun v => decide (shmid = toInt v)) = some key ∧ 0 < k.shm.pages key ∧
    u32 (pgRoundUp (k.proc p).sz + PGSIZE) < KERNBASE
deriving Decidable

theorem shmat_none (hl : k.shm.locked = false)
    (h : ∀ key, ¬ Attaches k p shmid key) : shmat k p shmid flg = .ok (-1, k) := by
  unfold shmat
  rw [if_neg (by simp [hl])]
  split
  · rfl
  · rename_i key hf
    by_cases h1 : k.shm.pages key > 0
    · rw [if_pos h1, if_pos]
      by_contra h2
      exact h key ⟨hf, h1, by omega⟩
    · rw [if_neg h1]

theorem shmat_some (hl : k.shm.locked = false) (h : Attaches k p shmid key) :
    shmat k p shmid flg =
      if (k.proc p).pid ≤ 64 then (attachLoop (k.proc p).pgdir key (shmPerm flg) (k.shm.pages key).toNat 0
          (pgRoundUp (k.proc p).sz) (k.noted p key 1 1)).map fun r =>
            if (shmPerm flg).isSome = true then
              (toInt (pgRoundUp (k.proc p).sz), r.2.setProc p fun q => { q with sz := r.1 })
            else (-1, r.2)
      else .error .bounds := by
  obtain ⟨hf, h1, h2⟩ := h
  have hpg := congrFun (SameSegs.noted k p key 1 1).pages key
  unfold shmat
  rw [if_neg (by simp [hl]), hf]
  dsimp only
  rw [if_pos h1, if_neg (by omega)]
  by_cases hp : (k.proc p).pid ≤ 64
  · rw [if_pos hp, ← hpg]
    simp only [setFlag, Kernel.setRefs_proc, hp, if_true, bind, Except.bind, Kernel.setProc_proc,
      update_self]
    unfold Kernel.noted
    cases attachLoop _ _ _ _ _ _ _ with
    | error e => rfl
    | ok r => simp only [Except.map]; split_ifs <;> rfl
  · rw [if_neg hp]
    simp only [setFlag, Kernel.setRefs_proc, hp, if_false]
    rfl

/-- `shmdt(a)` of `p` finds the segment of `key` at the page of `a`. -/
def Detaches (k : Kernel) (p : Slot) (a key : ℕ) : Prop :=
  ∃ t i, (walkpgdir k (k.proc p).pgdir a false).1 = some (t, i) ∧
    k.shm.find (fun v => decide (v = p2v (pteAddr (k.mem t i)))) = some key ∧
    0 < k.shm.pages key ∧ 0 < k.shm.count key

theorem shmdt_none (h : shmdt k p a = .ok (r, k')) (hd : ∀ key, ¬ Detaches k p a key) :
    r = -1 ∧ (k' = k ∨ k' = { k with shm := { k.shm with locked := true } }) := by
  unfold shmdt at h
  split at h
  · cases h
  · rename_i t i hw
    dsimp only at h
    split_ifs at h
    split at h
    · obtain ⟨rfl, rfl⟩ := pair_ok h
      exact ⟨rfl, .inl rfl⟩
    · rename_i key hf
      split_ifs at h with h1 h2
      · obtain ⟨rfl, rfl⟩ := pair_ok h
        exact ⟨rfl, .inr rfl⟩
      · exact absurd ⟨t, i, hw, hf, h1, by omega⟩ (hd key)
      · obtain ⟨rfl, rfl⟩ := pair_ok h
        exact ⟨rfl, .inr rfl⟩

theorem shmdt_none_ne (hd : ∀ key, ¬ Detaches k p a key) : shmdt k p a ≠ .error .bounds := by
  intro h
  unfold shmdt at h
  split at h
  · cases h
  · rename_i t i hw
    dsimp only at h
    split_ifs at h
    · cases h
    · split at h
      · cases h
      · rename_i key hf
        split_ifs at h with h1 h2
        exact hd key ⟨t, i, hw, hf, h1, by omega⟩

theorem shmdt_some (hl : k.shm.locked = false) (h : Detaches k p a key) :
    shmdt k p a =
      if (k.proc p).pid ≤ 64 then
        (clearLoop (k.proc p).pgdir (k.shm.pages key).toNat a (k.noted p key (-1) 0)).map
          fun k => (0, k)
      else .error .bounds := by
  obtain ⟨t, i, hw, hf, h1, h2⟩ := h
  unfold shmdt
  rw [hw]
  dsimp only
  rw [if_neg (by simp [hl]), hf]
  dsimp only
  rw [if_pos h1, if_neg (by omega)]
  by_cases hp : (k.proc p).pid ≤ 64
  · rw [if_pos hp]
    simp only [setFlag, Kernel.setRefs_proc, hp, if_true, bind, Except.bind, Kernel.setProc_proc,
      update_self, sub_eq_add_neg]
    unfold Kernel.noted
    cases clearLoop _ _ _ _ <;> rfl
  · rw [if_neg hp]
    simp only [setFlag, Kernel.setRefs_proc, hp, if_false]
    rfl

theorem shmat_unlocked (h : shmat k p shmid flg = .ok (r, k')) : k.shm.locked = false := by
  by_contra hl
  rw [shmat, if_pos (by simpa using hl)] at h
  cases h

theorem shmdt_unlocked (h : shmdt k p a = .ok (r, k')) : k.shm.locked = false := by
  unfold shmdt at h
  split at h
  · cases h
  · dsimp only at h
    split_ifs at h with hl
    simpa using hl

theorem shmat_ok (h : shmat k p shmid flg = .ok (r, k')) :
    (∀ key, ¬ Attaches k p shmid key) ∧ k' = k ∨
    ∃ key a k1, Attaches k p shmid key ∧ (k.proc p).pid ≤ 64 ∧
      attachLoop (k.proc p).pgdir key (shmPerm flg) (k.shm.pages key).toNat 0
        (pgRoundUp (k.proc p).sz) (k.noted p key 1 1) = .ok (a, k1) ∧
      (shmPerm flg = none ∧ k' = k1 ∨
        (shmPerm flg).isSome = true ∧ k' = k1.setProc p fun q => { q with sz := a }) := by
  have hl := shmat_unlocked h
  by_cases ha : ∃ key, Attaches k p shmid key
  · obtain ⟨key, ha⟩ := ha
    rw [shmat_some hl ha] at h
    by_cases hp : (k.proc p).pid ≤ 64
    swap
    · rw [if_neg hp] at h
      cases h
    rw [if_pos hp] at h
    obtain ⟨⟨a, k1⟩, h1, h2⟩ := map_ok h
    refine .inr ⟨key, a, k1, ha, hp, h1, ?_⟩
    split_ifs at h2 with hf <;> obtain ⟨_, rfl⟩ := Prod.mk.inj h2
    · exact .inr ⟨hf, rfl⟩
    · exact .inl ⟨by simpa using hf, rfl⟩
  · push Not at ha
    rw [shmat_none hl ha] at h
    obtain ⟨_, rfl⟩ := pair_ok h
    exact .inl ⟨ha, rfl⟩

theorem shmdt_ok (h : shmdt k p a = .ok (r, k')) :
    (∀ key, ¬ Detaches k p a key) ∧
      (k' = k ∨ k' = { k with shm := { k.shm with locked := true } }) ∨
    ∃ key, Detaches k p a key ∧ (k.proc p).pid ≤ 64 ∧
      clearLoop (k.proc p).pgdir (k.shm.pages key).toNat a (k.noted p key (-1) 0) = .ok k' := by
  by_cases hd : ∃ key, Detaches k p a key
  · obtain ⟨key, hd⟩ := hd
    rw [shmdt_some (shmdt_unlocked h) hd] at h
    split_ifs at h with hp
    obtain ⟨k1, h1, h2⟩ := map_ok h
    obtain ⟨_, rfl⟩ := Prod.mk.inj h2
    exact .inr ⟨key, hd, hp, h1⟩
  · push Not at hd
    exact .inl ⟨hd, (shmdt_none h hd).2⟩

theorem shmat_segs (h : shmat k p shmid flg = .ok (r, k')) : SameSegs k k' := by
  rcases shmat_ok h with ⟨_, rfl⟩ | ⟨key, a, k1, _, _, h1, ⟨_, rfl⟩ | ⟨_, rfl⟩⟩
  · exact .refl _
  · exact (SameSegs.noted k p key 1 1).trans (attachLoop_memOnly.ok h1).sameSegs
  · exact ((SameSegs.noted k p key 1 1).trans (attachLoop_memOnly.ok h1).sameSegs).trans (.setProc _ _ _)

theorem shmdt_segs (h : shmdt k p a = .ok (r, k')) : SameSegs k k' := by
  rcases shmdt_ok h with ⟨_, rfl | rfl⟩ | ⟨key, _, _, h1⟩
  · exact .refl _
  · exact ⟨rfl, rfl⟩
  · exact (SameSegs.noted k p key (-1) 0).trans (clearLoop_memOnly.ok h1).sameSegs

theorem store_memOnly {w : ℕ} (h : store k p va w = some k') : MemOnly k k' := by
  unfold store at h
  split at h
  · cases h
  · dsimp only at h
    split_ifs at h
    obtain rfl := Option.some.inj h
    exact .store _ _ _ _

/-- The calls that create and delete segments. -/
def Op.editsSegs : Op → Bool
  | .shmget _ _ _ _ _ => true
  | .shmdel _ _ => true
  | _ => false

theorem sameSegs_of_shm (h : k'.shm = k.shm) : SameSegs k k' := ⟨by rw [h], by rw [h]⟩

theorem call_sameSegs {o : Op} (h : call k o = .ok k') (ho : o.editsSegs = false) :
    SameSegs k k' := by
  cases o with
  | growproc p n =>
    obtain ⟨⟨r, k1⟩, h1, rfl⟩ := map_ok h
    exact sameSegs_of_shm (growproc_shm.ok h1).1
  | fork p =>
    obtain ⟨⟨r, k1⟩, h1, rfl⟩ := map_ok h
    exact sameSegs_of_shm (fork_shm h1).1
  | exec p img =>
    obtain ⟨⟨r, k1⟩, h1, rfl⟩ := map_ok h
    exact sameSegs_of_shm (exec_shm.ok h1).1
  | exit p => exact exit_segs.ok h
  | wait p => exact sameSegs_of_shm (wait_shm h).1
  | swapOut p opened writes =>
    obtain ⟨k1, h1, rfl⟩ := map_ok h
    exact (swapOut_memOnly.ok h1).sameSegs.trans (.setProc _ _ _)
  | swapIn t opened data => exact sameSegs_of_shm (swapIn_shm.ok h).1
  | shmget p key size flg junk => cases ho
  | shmat p shmid flg =>
    obtain ⟨⟨r, k1⟩, h1, rfl⟩ := map_ok h
    exact shmat_segs h1
  | shmdt p a =>
    obtain ⟨⟨r, k1⟩, h1, rfl⟩ := map_ok h
    exact shmdt_segs h1
  | shmdel p shmid => cases ho
  | store p va w =>
    simp only [call] at h
    cases hs : store k p va w with
    | none =>
      rw [hs] at h
      obtain rfl := Except.ok.inj h
      exact .refl k
    | some k1 =>
      rw [hs] at h
      obtain rfl := Except.ok.inj h
      exact (store_memOnly hs).sameSegs

end

end Xv6.Vm
