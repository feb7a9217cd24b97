import Xv6.Vm.Shmat

/-! # `shmdt` detaches a segment or does nothing

`shmdt` recognises a segment by the page behind the address alone. It does not ask whether the address is
the start of that page, whether the rest of the segment is mapped behind it, or whether the address has a
page table at all; and a table entry of a deleted segment, whose page has come into other use, makes it
return with the lock held. `shmdt_whole_iff` says when none of this matters. -/

namespace Xv6.Vm

open Runs Fallible Option

/-- An attachment of the segment of `key` starts at `a`. -/
def StartsAt (k : Kernel) (p : Slot) (a key : ℕ) : Prop :=
  key < numOfSegs ∧ a % PGSIZE = 0 ∧ Attachment k key p (a / PGSIZE)
deriving Decidable

/-- The attachment of `key` at `a` is gone, and nothing else has changed. -/
structure DetachedWhole (k k' : Kernel) (p : Slot) (a key : ℕ) : Prop where
  cleared : ∀ i < (k.shm.pages key).toNat, k'.entry (k.dirOf p) (a / PGSIZE + i) = 0
  others : SameMaps k k' p fun m => a / PGSIZE ≤ m ∧ m < a / PGSIZE + (k.shm.pages key).toNat
  size : (k'.proc p).sz = (k.proc p).sz
  count : ∀ key', k'.shm.count key' = if key' = key then k.shm.count key - 1 else k.shm.count key'
  hasShm : (k'.proc p).hasShm = (k.proc p).hasShm - 1

/-- `shmdt` returns with the lock free: with `0` if the address is the start of an attachment, which is then
gone, and otherwise with `-1`, and nothing has changed. -/
def DetachesWhole (k : Kernel) (p : Slot) (a : ℕ) : Prop :=
  ∃ r k', shmdt k p a = .ok (r, k') ∧ k'.shm.locked = false ∧
    (∀ key, StartsAt k p a key → r = 0 ∧ DetachedWhole k k' p a key) ∧
    ((∀ key, ¬ StartsAt k p a key) → r = -1 ∧ k' = k)

/-- The first key whose entry names the page behind the address. -/
def Names (k : Kernel) (p : Slot) (a key : ℕ) : Prop :=
  k.shm.find (fun v => decide (v = frame (k.entry (k.dirOf p) (a / PGSIZE)))) = some key
deriving Decidable

/-- The lock is free, the address has a page table, and if the table of segments names the page behind it,
then for a live segment with a positive counter, which is mapped as a whole from the address on, by a process
whose pid has a place of its own. -/
def ShmdtOk (k : Kernel) (p : Slot) (a : ℕ) : Prop :=
  k.shm.locked = false ∧ Present (k.pde (k.dirOf p) (a / PGSIZE)) ∧
    ∀ key < numOfSegs, Names k p a key → 0 < k.shm.count key ∧ StartsAt k p a key ∧
      ((k.proc p).pid < 64 ∨ (k.proc p).pid = 64 ∧ k.shm.count key = 1)

instance (k : Kernel) (p : Slot) (a : ℕ) : Decidable (ShmdtOk k p a) :=
  inferInstanceAs (Decidable (_ ∧ _ ∧ _))

section
variable {k k' : Kernel} {own : ℕ → Role} {p : Slot} {a key : ℕ} {r : ℤ}

theorem walk_present (hpd : Present (k.pde (k.dirOf p) (a / PGSIZE))) :
    (walkpgdir k (k.dirOf p) a false).1 =
      some (frame (k.pde (k.dirOf p) (a / PGSIZE)), a / PGSIZE % 1024) := by
  rw [walkpgdir_false]
  exact if_pos hpd

theorem detaches_iff (hpd : Present (k.pde (k.dirOf p) (a / PGSIZE))) :
    Detaches k p a key ↔ Names k p a key ∧ 0 < k.shm.pages key ∧ 0 < k.shm.count key := by
  unfold Detaches Names
  rw [entry_of_present hpd, walk_present hpd]
  constructor
  · rintro ⟨t, i, hw, hf, hrest⟩
    obtain ⟨rfl, rfl⟩ := Prod.mk.inj (some.inj hw)
    rw [frame_eq] at hf
    exact ⟨hf, hrest⟩
  · rintro ⟨hf, hrest⟩
    refine ⟨_, _, rfl, ?_, hrest⟩
    rw [frame_eq]
    exact hf

/-- The segment of an attachment is the one whose first page is behind the address. -/
theorem StartsAt.frame (h : StartsAt k p a key) : frame (k.entry (k.dirOf p) (a / PGSIZE)) = k.shm.seg key 0 := by
  have h0 := h.2.2.maps 0 (by have := h.2.2.pos; omega)
  exact h0.2

theorem StartsAt.unique (hi : Inv k own) {key' : ℕ} (h : StartsAt k p a key) (h' : StartsAt k p a key') :
    key = key' := by
  refine hi.segId_inj h.1 h'.1 h.2.2.pos h'.2.2.pos ?_
  rw [← h.frame, ← h'.frame]

/-- The loop of `shmdt` comes to its end if all tables are there. -/
theorem clearLoop_returns (h : Wf k own) {d n : ℕ} (hd : own d = .dir) (hn : a / 4096 + n ≤ allPages)
    (htab : ∀ i < n, Present (k.pde d (a / 4096 + i))) : ∃ k', clearLoop d n a k = .ok k' := by
  induction n generalizing a k own with
  | zero => exact ⟨k, rfl⟩
  | succ n ih =>
    have hpd : Present (k.pde d (a / 4096)) := htab 0 (by omega)
    have ha : (a + PGSIZE) / 4096 = a / 4096 + 1 := by
      unfold PGSIZE
      omega
    obtain ⟨own1, h₁, -⟩ := clear_entry h hd (by omega) hpd
    rw [clearLoop, walkpgdir_false]
    dsimp only
    rw [if_pos hpd]
    refine ih h₁.wf h₁.dir (by omega) fun i hi => ?_
    rw [ha, pde_congr (h.store_mem_dir hd hpd hd), show a / 4096 + 1 + i = a / 4096 + (i + 1) by omega]
    exact htab (i + 1) (by omega)

theorem noted_count_down (hpid : (k.proc p).pid < 64 ∨ (k.proc p).pid = 64 ∧ k.shm.count key = 1) (key' : ℕ) :
    (k.noted p key (-1) 0).shm.count key' = if key' = key then k.shm.count key - 1 else k.shm.count key' := by
  obtain hlt | ⟨heq, h1⟩ := hpid
  · rw [noted_count hlt]
    split_ifs with e
    · rw [e]
      rfl
    · rfl
  · have h1 : k.shm.refs key 0 64 = 1 := h1
    unfold Kernel.noted Shm.count
    split_ifs with e
    · subst e
      simp [heq, h1]
    · simp [e]

/-! ### The four ways through `shmdt` -/

theorem shmdt_tableless (hpd : ¬ Present (k.pde (k.dirOf p) (a / PGSIZE))) : shmdt k p a = .error .null := by
  have hw : (walkpgdir k (k.dirOf p) a false).1 = none := by
    rw [walkpgdir_false]
    exact if_neg hpd
  rw [shmdt, hw]

section
variable (hpd : Present (k.pde (k.dirOf p) (a / PGSIZE))) (hl : k.shm.locked = false)
include hpd hl

theorem shmdt_unnamed (hno : ∀ key, ¬ Names k p a key) : shmdt k p a = .ok (-1, k) := by
  have hfind : k.shm.find (fun v => decide (v = frame (k.entry (k.dirOf p) (a / PGSIZE)))) = none := by
    rw [eq_none_iff_forall_ne_some]
    exact hno
  rw [entry_of_present hpd] at hfind
  rw [shmdt, walk_present hpd]
  dsimp only
  rw [if_neg (by simp [hl]), frame_eq, hfind]

/-- At a page that a segment names which is deleted or not counted. -/
theorem shmdt_stale (hn : Names k p a key) (hstale : ¬ (0 < k.shm.pages key ∧ 0 < k.shm.count key)) :
    shmdt k p a = .ok (-1, { k with shm := { k.shm with locked := true } }) := by
  unfold Names at hn
  rw [entry_of_present hpd] at hn
  rw [shmdt, walk_present hpd]
  dsimp only
  rw [if_neg (by simp [hl]), frame_eq, hn]
  dsimp only
  split_ifs with hpos hcount
  · rfl
  · exact absurd ⟨hpos, by omega⟩ hstale
  · rfl

end

theorem DetachedWhole.of_ok (h : Inv k own) (hrow : Rows k) (hp : k.live p) (ha : a + 4 ≤ (k.proc p).sz)
    (hpd : Present (k.pde (k.dirOf p) (a / PGSIZE))) (hdet : Detaches k p a key)
    (hpid : (k.proc p).pid < 64 ∨ (k.proc p).pid = 64 ∧ k.shm.count key = 1)
    (hr : shmdt k p a = .ok (r, k')) : DetachedWhole k k' p a key := by
  obtain ⟨own', ht, -⟩ := shmdt_turn h hp hrow ha hr
  obtain ⟨hno, -⟩ | ⟨key', own1, hdet', -, hm, -, hent, -⟩ := shmdt_cases h hp hrow ha hr
  · exact absurd hdet (hno key)
  obtain rfl : key = key' :=
    some.inj (((detaches_iff hpd).mp hdet).1.symm.trans ((detaches_iff hpd).mp hdet').1)
  have hself : (k.noted p key (-1) 0).proc p = { k.proc p with hasShm := (k.proc p).hasShm + -1 } :=
    Function.update_self _ _ _
  have hroom : a / 4096 + (k.shm.pages key).toNat ≤ allPages := by
    have hsz := h.size p hp
    have hpages := hrow key
    unfold allPages KERNBASE numOfSegs at *
    omega
  refine ⟨fun i hi => ?_, fun q hq => ?_, ?_, fun key' => ?_, ?_⟩
  · refine (hent _ (show a / 4096 + i < allPages by omega)).trans (if_pos ?_)
    exact ⟨Nat.le_add_right _ _, Nat.add_lt_add_left hi _⟩
  · by_cases hqp : q = p
    · subst hqp
      refine ⟨by rw [Kernel.dirOf, hm.proc, hself], fun m hm hout => ?_⟩
      rw [hent m hm]
      exact if_neg (hout rfl)
    · exact ⟨(ht.apart q hqp).pgdir, fun m hm _ => (ht.apart q hqp).entry hq m hm⟩
  · rw [hm.proc, hself]
  · rw [hm.shm]
    exact noted_count_down hpid key'
  · rw [hm.proc, hself]
    rfl

/-- The segment that `shmdt` detaches is the one that is attached. -/
theorem StartsAt.of_names (h : Inv k own) {key' : ℕ} (hs : StartsAt k p a key') (hk : key < numOfSegs)
    (hn : Names k p a key) (hpos : 0 < k.shm.pages key) : key' = key := by
  have hfound := (find_some hn).2.1
  refine h.segId_inj hs.1 hk hs.2.2.pos hpos ?_
  rw [of_decide_eq_true hfound, hs.frame]

/-- **Detach or nothing.**  In a state in which every page has one use, and for every address that
`sys_shmdt` accepts, `shmdt` detaches the segment that is attached there or does nothing exactly if the lock
is free, the address has a page table, and what the table of segments says of the page behind it is so. -/
theorem shmdt_whole_iff (h : Inv k own) (hrow : Rows k) (hp : k.live p) (ha : a + 4 ≤ (k.proc p).sz) :
    DetachesWhole k p a ↔ ShmdtOk k p a := by
  constructor
  · rintro ⟨r, k', hr, hlock, hstart, hnot⟩
    have hl := shmdt_unlocked hr
    have hpd : Present (k.pde (k.dirOf p) (a / PGSIZE)) := by
      by_contra hpd
      rw [shmdt_tableless hpd] at hr
      cases hr
    refine ⟨hl, hpd, fun key hk hn => ?_⟩
    by_cases huse : 0 < k.shm.pages key ∧ 0 < k.shm.count key
    · have hdet : Detaches k p a key := (detaches_iff hpd).mpr ⟨hn, huse⟩
      have hsome := shmdt_some hl hdet
      rw [hr] at hsome
      split_ifs at hsome with hpid
      obtain ⟨k1, hclear, heq⟩ := map_ok hsome.symm
      obtain ⟨rfl, rfl⟩ := Prod.mk.inj heq
      obtain ⟨key', hs⟩ : ∃ key', StartsAt k p a key' := by
        by_contra hno
        have hminus := (hnot fun key' hs => hno ⟨key', hs⟩).1
        omega
      obtain rfl := hs.of_names h hk hn huse.1
      refine ⟨huse.2, hs, ?_⟩
      have hcount := (hstart key' hs).2.count key'
      rw [if_pos rfl, (clearLoop_memOnly.ok hclear).shm] at hcount
      obtain hlt | heq := Nat.lt_or_eq_of_le hpid
      · exact .inl hlt
      · refine .inr ⟨heq, ?_⟩
        unfold Kernel.noted Shm.count at hcount
        unfold Shm.count
        simp [heq] at hcount
        omega
    · rw [shmdt_stale hpd hl hn huse] at hr
      obtain ⟨-, rfl⟩ := pair_ok hr
      cases hlock
  · rintro ⟨hl, hpd, hok⟩
    by_cases hn : ∃ key, Names k p a key
    · obtain ⟨key, hn⟩ := hn
      have hk := (find_some hn).1
      obtain ⟨hcount, hs, hpid⟩ := hok key hk hn
      have hdet : Detaches k p a key := (detaches_iff hpd).mpr ⟨hn, hs.2.2.pos, hcount⟩
      have hroom := hs.2.2.room
      obtain ⟨k', hclear⟩ := clearLoop_returns (n := (k.shm.pages key).toNat) (a := a)
        (h.wf.noted p key (-1) 0) (h.dir p hp)
        (by unfold userPages allPages PGSIZE at *; omega) fun i hi => by
          exact pde_of_entry (hs.2.2.maps i hi).1
      have hle : (k.proc p).pid ≤ 64 := by
        obtain hlt | ⟨heq, -⟩ := hpid <;> omega
      have hr : shmdt k p a = .ok (0, k') := by
        rw [shmdt_some hl hdet, if_pos hle, hclear]
        rfl
      refine ⟨0, k', hr, ?_, fun key' hs' => ?_, fun hno => absurd hs (hno key)⟩
      · rw [(clearLoop_memOnly.ok hclear).shm]
        exact hl
      · obtain rfl := hs'.unique h hs
        exact ⟨rfl, .of_ok h hrow hp ha hpd hdet hpid hr⟩
    · have hno : ∀ key, ¬ Names k p a key := fun key hn' => hn ⟨key, hn'⟩
      refine ⟨-1, k, shmdt_unnamed hpd hl hno, hl, fun key hs => ?_, fun _ => ⟨rfl, rfl⟩⟩
      exfalso
      have hsome : (k.shm.find fun v => decide (v = frame (k.entry (k.dirOf p) (a / PGSIZE)))).isSome = true := by
        refine List.find?_isSome.mpr ⟨key, List.mem_range.mpr hs.1, ?_⟩
        rw [hs.frame]
        exact decide_eq_true rfl
      obtain ⟨key', hfind⟩ := isSome_iff_exists.mp hsome
      exact hno key' hfind

/-- Init detaches a segment that it has attached. -/
theorem shmdt_whole_one : ∃ k, Reachable OwnOk k ∧ StartsAt k initproc 4096 7 ∧
    DetachesWhole k initproc 4096 := by
  obtain ⟨k, hk, htest⟩ := reaches_of_exec step OwnOk boot
    [.shmget initproc 7 4096 CREAT 0, .shmat initproc (toInt (top 134)) SHM_RDWR]
    (fun k => decide ((k.proc initproc).state = .running ∧ 4096 + 4 ≤ (k.proc initproc).sz ∧
      StartsAt k initproc 4096 7 ∧ ShmdtOk k initproc 4096)) (by decide +kernel)
  obtain ⟨hrun, hsz, hs, hok⟩ := of_decide_eq_true htest
  obtain ⟨own, hi⟩ := Reachable.inv hk
  have hp : k.live initproc := by simp [Kernel.live, hrun]
  have hk' : Reachable Always k := hk.mono fun _ _ _ => trivial
  exact ⟨k, hk, hs, (shmdt_whole_iff hi (Reachable.rows hk') hp hsz).mpr hok⟩

/-- The page of a deleted segment has become ordinary memory of init: `shmdt` there returns with the lock
held. -/
theorem shmdt_keeps_lock : ∃ k, Reachable Always k ∧ 4096 + 4 ≤ (k.proc initproc).sz ∧
    ¬ DetachesWhole k initproc 4096 := by
  obtain ⟨k, hk, htest⟩ := reaches_of_exec step Always boot
    [.shmget initproc 7 4096 CREAT 0, .shmdel initproc (toInt (top 134)), .growproc initproc 4096]
    (fun k => decide (4096 + 4 ≤ (k.proc initproc).sz ∧
      (shmdt k initproc 4096).toOption.map (fun r => r.2.shm.locked) = some true)) (by decide +kernel)
  obtain ⟨hsz, hlock⟩ := of_decide_eq_true htest
  obtain ⟨⟨r, k'⟩, hr, hlock⟩ := map_eq_some_iff.mp hlock
  refine ⟨k, hk, hsz, ?_⟩
  rintro ⟨r', k'', hr', hfree, -⟩
  rw [toOption_some hr] at hr'
  obtain ⟨rfl, rfl⟩ := pair_ok hr'
  rw [show k'.shm.locked = true from hlock] at hfree
  cases hfree

end

end Xv6.Vm
