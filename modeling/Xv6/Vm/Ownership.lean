import Xv6.Vm.Start

/-! # Ownership of physical pages

Pages of shared segments lie below `sz` like private pages, and what frees user pages does not tell
them apart. `OwnOk` is the condition on a call under which it frees no page of a live segment:
there is none among the pages it is about to free. In every run of calls that meet it a page has
one owner (`PagesOwned`), and only `shmdel` gives pages of a live segment back.

`exec` has a second condition: a program header that wraps around the end of the address space makes
it write through empty page-table entries. -/

namespace Xv6.Vm

open Runs Fallible Option

/-- No process maps a page of the segment. -/
def Unmapped (k : Kernel) (key : ℕ) : Prop :=
  ∀ q, k.live q → ∀ m < userPages, Present (k.entry (k.dirOf q) m) →
    ∀ i < (k.shm.pages key).toNat, frame (k.entry (k.dirOf q) m) ≠ k.shm.seg key i

instance (k : Kernel) (key : ℕ) : Decidable (Unmapped k key) := inferInstanceAs (Decidable (∀ _, _))

/-- The call frees no page of a live segment: `growproc` between the old and the new size, `exec`
and `wait` in the address space they give up, `swapOut` and `swapIn` below `sz`; and `shmdel`
removes no segment that a process maps. -/
def OwnOk (k : Kernel) : Op → Prop
  | .growproc p n => ∀ m < userPages, Between k p n m → ¬ k.mapsSeg p m
  | .exec p (some img) => img.fits ∧ ∀ m < userPages, ¬ k.mapsSeg p m
  | .wait p => ∀ q, zombieChild k p = some q → ∀ m < userPages, ¬ k.mapsSeg q m
  | .swapOut p _ _ => ∀ m < userPages, 4096 * m < (k.proc p).sz → ¬ k.mapsSeg p m
  | .swapIn t _ _ => ∀ m < userPages, 4096 * m < (k.proc t).sz → ¬ k.mapsSeg t m
  | .shmdel _ shmid => ∀ key < numOfSegs, Deletes k shmid key → Unmapped k key
  | _ => True

instance (img : Image) : Decidable img.fits :=
  inferInstanceAs (Decidable (∀ ph ∈ img.phdrs, ∀ h ∈ ph, h.load = true → h.vaddr + h.memsz < 2 ^ 32))

instance (k : Kernel) (o : Op) : Decidable (OwnOk k o) :=
  match o with
  | .growproc p n => inferInstanceAs (Decidable (∀ m < userPages, Between k p n m → ¬ k.mapsSeg p m))
  | .exec p (some img) => inferInstanceAs (Decidable (img.fits ∧ ∀ m < userPages, ¬ k.mapsSeg p m))
  | .wait p => inferInstanceAs
      (Decidable (∀ q, zombieChild k p = some q → ∀ m < userPages, ¬ k.mapsSeg q m))
  | .swapOut p _ _ => inferInstanceAs
      (Decidable (∀ m < userPages, 4096 * m < (k.proc p).sz → ¬ k.mapsSeg p m))
  | .swapIn t _ _ => inferInstanceAs
      (Decidable (∀ m < userPages, 4096 * m < (k.proc t).sz → ¬ k.mapsSeg t m))
  | .shmdel _ shmid => inferInstanceAs
      (Decidable (∀ key < numOfSegs, Deletes k shmid key → Unmapped k key))
  | .exec _ none | .fork _ | .exit _ | .shmget _ _ _ _ _ | .shmat _ _ _ | .shmdt _ _
  | .store _ _ _ => inferInstanceAs (Decidable True)

/-- A physical page has one owner. -/
structure PagesOwned (k : Kernel) : Prop where
  seg : ∀ v, k.segPage v → v ∉ k.freelist
  nodup : k.freelist.Nodup
  mapped : ∀ p n, k.live p → n < userPages → Present (k.entry (k.dirOf p) n) →
    frame (k.entry (k.dirOf p) n) ∉ k.freelist
  priv : ∀ p q n m, k.live p → k.live q → n < userPages → m < userPages →
    Present (k.entry (k.dirOf p) n) → Present (k.entry (k.dirOf q) m) →
    frame (k.entry (k.dirOf p) n) = frame (k.entry (k.dirOf q) m) →
    ¬ k.segPage (frame (k.entry (k.dirOf p) n)) → p = q ∧ n = m

/-- The call is `shmdel` of the segment the page belongs to, and no process maps that segment. -/
def DeletesUnmapped (k : Kernel) (o : Op) (v : ℕ) : Prop :=
  ∃ p shmid key i, o = .shmdel p shmid ∧ Deletes k shmid key ∧ i < (k.shm.pages key).toNat ∧
    k.shm.seg key i = v ∧ Unmapped k key

section
variable {k k' : Kernel} {own own' : ℕ → Role} {p : Slot} {o : Op}

theorem Inv.owned (h : Inv k own) : PagesOwned k := by
  refine ⟨fun v hv hf => ?_, h.wf.nodup, fun p n hp hn hpr hf => ?_,
    fun p q n m hp hq hn hm h1 h2 e hs => ?_⟩
  · obtain ⟨key, i, e⟩ := h.wf.segPage_iff.mp hv
    rw [(h.wf.free v).mp hf] at e
    cases e
  · have e := (h.wf.free _).mp hf
    rcases h.wf.user _ n (h.dir p hp) hn hpr with e' | ⟨_, _, e'⟩ <;> rw [e] at e' <;> cases e'
  · have e1 := (h.wf.user _ n (h.dir p hp) hn h1).resolve_right fun h' => hs (h.wf.segPage_iff.mpr h')
    rw [e] at hs e1
    have e2 := (h.wf.user _ m (h.dir q hq) hm h2).resolve_right fun h' => hs (h.wf.segPage_iff.mpr h')
    rw [e1] at e2
    obtain ⟨h3, h4⟩ := Role.user.inj e2
    exact ⟨h.inj p q hp hq h3, h4⟩

theorem live_of_mayCall (h : k.mayCall o) (ho : o.slot = some p) : k.live p := by
  rw [Kernel.live, (h p ho).1]
  simp

theorem live_of_suspended (h : (k.proc p).state = .sleepingSuspended) : k.live p := by
  rw [Kernel.live, h]
  simp

/-- The pages of a segment, by roles and by the table. -/
theorem Wf.seg_iff (h : Wf k own) {key v : ℕ} (hk : key < numOfSegs) :
    (∃ i, own v = .seg key i) ↔ ∃ i < (k.shm.pages key).toNat, k.shm.seg key i = v := by
  constructor
  · rintro ⟨i, e⟩
    obtain ⟨_, h1, h2⟩ := (h.seg v key i).mp e
    exact ⟨i, by omega, h2⟩
  · rintro ⟨i, hi, e⟩
    exact ⟨i, (h.seg v key i).mpr ⟨hk, by omega, e⟩⟩

/-! ### The calls under the condition -/

section
variable (h : Inv k own) (hp : k.live p)
include h hp

theorem growproc_turn {n r : ℤ} (ho : OwnOk k (.growproc p n)) (hn : -2 ^ 31 ≤ n ∧ n < 2 ^ 31)
    (hr : growproc k p n = .ok (r, k')) :
    ∃ own', Turn p k own k' own' ∧ (k'.proc p).state = (k.proc p).state ∧ (GrowFits k p n →
      NoHoles k (k.dirOf p) (k.proc p).sz → NoHoles k' (k'.dirOf p) (k'.proc p).sz) := by
  obtain ⟨k1, own1, sz, hm, hrs, hsz, rfl, hno⟩ := growproc_ok h hp hn
    (fun m hm hb => (h.priv_iff hp hm).mpr (ho m hm hb)) hr
  have e : (k1.setProc p fun q => { q with sz := sz }).proc p = { k.proc p with sz := sz } := by
    rw [setProc_self, hm.proc]
  refine ⟨own1, h.setProc hp hm hrs.toEdits hp rfl rfl hsz, by rw [e], fun hg hf => ?_⟩
  rw [Kernel.dirOf, e]
  exact hno hg hf

theorem exec_turn {img : Option Image} {r : ℤ} (ho : OwnOk k (.exec p img)) (ha : Op.admitted k (.exec p img))
    (hr : exec k p img = .ok (r, k')) :
    ∃ own', Turn p k own k' own' ∧ (k'.proc p).state = (k.proc p).state ∧
      (NoHoles k (k.dirOf p) (k.proc p).sz → NoHoles k' (k'.dirOf p) (k'.proc p).sz) := by
  cases img with
  | none =>
    obtain ⟨_, rfl⟩ := pair_ok hr
    exact ⟨own, .refl h p, rfl, id⟩
  | some img =>
    refine exec_ok h hp (fun i hi => ?_) (fun m hm => (h.priv_iff hp hm).mpr (ho.2 m hm)) hr
    obtain rfl := some.inj hi
    exact ⟨ho.1, ha⟩

theorem swapOut_turn {opened : Bool} {writes : ℕ → Bool} {k1 : Kernel} (ho : OwnOk k (.swapOut p opened writes))
    (hr : swapOut k p opened writes = .ok k1) :
    (∃ own', Turn p k own (k1.setProc p fun q => { q with state := .sleepingSuspended }) own') ∧
      k1.mem (k.dirOf p) = k.mem (k.dirOf p) := by
  obtain ⟨own1, hsh⟩ := swapOut_ok h hp (fun m hm => by
    have hmu := page_lt (h.size p hp) hm
    exact (h.priv_iff hp hmu).mpr (ho m hmu hm)) hr
  exact ⟨⟨own1, h.setProc hp (swapOut_memOnly.ok hr) hsh.toEdits (by simp) rfl rfl (h.size p hp)⟩, hsh.mem_eq⟩

theorem swapIn_turn {opened : Bool} {data : FileData} (ho : OwnOk k (.swapIn p opened data))
    (hr : swapIn k p opened data = .ok k') :
    ∃ own' st, Turn p k own k' own' ∧ k'.proc p = { k.proc p with state := st } ∧
      (∀ m, Present (k.pde (k.dirOf p) m) → Present (k'.pde (k.dirOf p) m)) ∧
      (st = (k.proc p).state ∨ st = .running ∧
        ((∀ m, 4096 * m < (k.proc p).sz → Present (k.pde (k.dirOf p) m)) →
          NoHoles k' (k.dirOf p) (k.proc p).sz)) := by
  obtain ⟨k1, own1, st, hm, hrs, rfl, hst⟩ := swapIn_ok h hp (fun m hm => by
    have hmu := page_lt (h.size p hp) hm
    exact (h.priv_iff hp hmu).mpr (ho m hmu hm)) hr
  refine ⟨own1, st, h.setProc hp hm hrs.toEdits ?_ rfl rfl (h.size p hp), ?_, hrs.tables, hst⟩
  · obtain rfl | ⟨rfl, -⟩ := hst
    · exact hp
    · simp
  · rw [setProc_self, hm.proc]

end

theorem wait_turn (h : Inv k own) (ho : OwnOk k (.wait p)) (hr : wait k p = .ok k') :
    k' = k ∨ ∃ q own', Turn q k own k' own' ∧ ¬ k'.live q := by
  obtain e | ⟨q, own', -, ht⟩ :=
    wait_ok h (fun q hq m hm => (h.priv_iff (zombieChild_live hq) hm).mpr (ho q hq m hm)) hr
  · exact .inl e
  · exact .inr ⟨q, own', ht⟩

theorem shmdel_turn {shmid r : ℤ} (h : Inv k own) (hrow : Rows k) (ho : OwnOk k (.shmdel p shmid))
    (hr : shmdel k shmid = .ok (r, k')) :
    ∃ own', Inv k' own' ∧ (∀ q, SameSpace q k k') ∧
      ∀ v, own' v = own v ∨ ∃ key i, Deletes k shmid key ∧ own v = .seg key i ∧ own' v = .free := by
  refine shmdel_inv h hrow (fun key hdel q hq n hn hpr i e => ?_) hr
  have hk := (find_some hdel.1).1
  obtain ⟨j, hj, e'⟩ := (h.wf.seg_iff hk).mp ⟨i, e⟩
  exact ho key hk hdel q hq n hn hpr j hj e'.symm

/-- **One step**: the invariant, and which pages of segments lose their role. -/
theorem Inv.step (h : Inv k own) (hrow : Rows k) (ho : OwnOk k o) (hs : Vm.step k o = some k') :
    ∃ own', Inv k' own' ∧ ∀ v key i, own v = .seg key i → own' v = .seg key i ∨
      ∃ p shmid, o = .shmdel p shmid ∧ Deletes k shmid key := by
  have hturn : ∀ {q own'}, Turn q k own k' own' → ∃ own', Inv k' own' ∧
      ∀ v key i, own v = .seg key i → own' v = .seg key i ∨
        ∃ p shmid, o = .shmdel p shmid ∧ Deletes k shmid key := fun ht =>
    ⟨_, ht.inv, fun v key i e => .inl (ht.seg v key i e)⟩
  unfold Vm.step at hs
  split_ifs at hs with hc
  obtain ⟨hmay, hadm⟩ := hc
  have hcall := toOption_some hs
  cases o with
  | growproc p n =>
    obtain ⟨⟨r, k1⟩, e, rfl⟩ := map_ok hcall
    obtain ⟨own1, ht, -⟩ := growproc_turn h (live_of_mayCall hmay rfl) ho hadm e
    exact hturn ht
  | fork p =>
    obtain ⟨⟨r, k1⟩, e, rfl⟩ := map_ok hcall
    obtain e | ⟨np, own1, ht, -⟩ := fork_ok h (live_of_mayCall hmay rfl) e
    · rw [e]
      exact ⟨own, h, fun _ _ _ e => .inl e⟩
    · exact hturn ht
  | exec p img =>
    obtain ⟨⟨r, k1⟩, e, rfl⟩ := map_ok hcall
    obtain ⟨own1, ht, -⟩ := exec_turn h (live_of_mayCall hmay rfl) ho hadm e
    exact hturn ht
  | exit p =>
    obtain ⟨own1, ht, -⟩ := exit_turn h (live_of_mayCall hmay rfl) hrow hcall
    exact hturn ht
  | wait p =>
    obtain rfl | ⟨q, own1, ht, -⟩ := wait_turn h ho hcall
    · exact ⟨own, h, fun _ _ _ e => .inl e⟩
    · exact hturn ht
  | swapOut p opened writes =>
    obtain ⟨k1, e, rfl⟩ := map_ok hcall
    obtain ⟨⟨own1, ht⟩, -⟩ := swapOut_turn h (live_of_mayCall hmay rfl) ho e
    exact hturn ht
  | swapIn t opened data =>
    obtain ⟨own1, st, ht, -⟩ := swapIn_turn h (live_of_suspended hadm) ho hcall
    exact hturn ht
  | shmget p key size flg junk =>
    obtain ⟨⟨r, k1⟩, e, rfl⟩ := map_ok hcall
    obtain ⟨own1, ht, -⟩ := shmget_turn h p e
    exact hturn ht
  | shmat p shmid flg =>
    obtain ⟨⟨r, k1⟩, e, rfl⟩ := map_ok hcall
    obtain ⟨own1, ht, -⟩ := shmat_turn h (live_of_mayCall hmay rfl) e
    exact hturn ht
  | shmdt p a =>
    obtain ⟨⟨r, k1⟩, e, rfl⟩ := map_ok hcall
    obtain ⟨own1, ht, -⟩ := shmdt_turn h (live_of_mayCall hmay rfl) hrow hadm e
    exact hturn ht
  | shmdel p shmid =>
    obtain ⟨⟨r, k1⟩, e, rfl⟩ := map_ok hcall
    obtain ⟨own1, hi, -, hrole⟩ := shmdel_turn h hrow ho e
    refine ⟨own1, hi, fun v key i e' => ?_⟩
    obtain e'' | ⟨key', i', hdel, e'', -⟩ := hrole v
    · exact .inl (by rw [e'', e'])
    · rw [e'] at e''
      obtain ⟨rfl, _⟩ := Role.seg.inj e''
      exact .inr ⟨p, shmid, rfl, hdel⟩
  | store p va w =>
    obtain ⟨hw, hs, hm⟩ := store_call h (live_of_mayCall hmay rfl) hcall
    exact hturn (h.spared hw hs (fun q => .of_eq (by rw [hm.proc])) p)

theorem Reachable.inv (h : Reachable OwnOk k) : ∃ own, Inv k own := by
  have hI := h.invariant (I := fun k => (∃ own, Inv k own) ∧ Rows k)
    (fun k o k' ⟨⟨own, hi⟩, hrow⟩ ho hs => by
      obtain ⟨own', hi', _⟩ := hi.step hrow ho hs
      exact ⟨⟨own', hi'⟩, hrow.step hs⟩)
    ⟨⟨bootOwn, inv_boot⟩, Reachable.rows (.refl boot : Reachable Always boot)⟩
  exact hI.1

/-- **Ownership of pages.**  In every run of calls that free no page of a live segment, a physical
page has one owner, and a step that puts a page of a live segment on the free list is `shmdel` of
that segment, which no process maps. -/
theorem pages_owned (h : Reachable OwnOk k) : PagesOwned k ∧
    ∀ o k' v, OwnOk k o → step k o = some k' → k.segPage v → v ∈ k'.freelist →
      DeletesUnmapped k o v := by
  obtain ⟨own, hi⟩ := h.inv
  refine ⟨hi.owned, fun o k' v ho hs hv hf => ?_⟩
  obtain ⟨own', hi', hrole⟩ := hi.step h.rows ho hs
  obtain ⟨key, i, e⟩ := hi.wf.segPage_iff.mp hv
  rcases hrole v key i e with e' | ⟨p, shmid, rfl, hdel⟩
  · rw [(hi'.wf.free v).mp hf] at e'
    cases e'
  · have hk := (find_some hdel.1).1
    obtain ⟨j, hj, e''⟩ := (hi.wf.seg_iff hk).mp ⟨i, e⟩
    exact ⟨p, shmid, key, j, rfl, hdel, hj, e'', ho key hk hdel⟩

/-- A run with an attached segment. -/
theorem pages_owned_attached : ∃ k, Reachable OwnOk k ∧ k.mapsSeg initproc 1 ∧ PagesOwned k := by
  obtain ⟨k, hk, hp⟩ := reaches_of_exec step OwnOk boot
    [.shmget initproc 7 4096 CREAT 0, .shmat initproc (toInt (top 134)) SHM_RDWR]
    (fun k => decide (k.mapsSeg initproc 1)) (by decide +kernel)
  exact ⟨k, hk, of_decide_eq_true hp, (pages_owned hk).1⟩

/-- `growproc` takes no notice of segments: after a segment has been attached, `sbrk(-4096)` puts
its page on the free list, while the segment still exists. -/
theorem growproc_frees_segment : ∃ k, Reachable Always k ∧ k.segPage (top 134) ∧
    top 134 ∈ k.freelist := by
  obtain ⟨k, hk, hp⟩ := reaches_of_exec step Always boot
    [.shmget initproc 7 4096 CREAT 0, .shmat initproc (toInt (top 134)) SHM_RDWR,
      .growproc initproc (-4096)]
    (fun k => decide (k.segPage (top 134) ∧ k.freelist.head? = some (top 134))) (by decide +kernel)
  obtain ⟨h1, h2⟩ := of_decide_eq_true hp
  exact ⟨k, hk, h1, List.mem_of_head? h2⟩

/-- **Isolation**: the page that a store of user code changes is a user page of the process's own
directory, is not free, no kernel stack, directory or table, and mapped by others only if shared. As for
`store`, no translation is stale. -/
theorem store_isolated (h : Reachable OwnOk k) {va w v : ℕ} (hs : Vm.step k (.store p va w) = some k')
    (hv : k'.mem v ≠ k.mem v) :
    (∃ n < userPages, Reach k (k.dirOf p) n ∧ frame (k.entry (k.dirOf p) n) = v) ∧ v ∉ k.freelist ∧
      (∀ q, k.live q → v ≠ (k.proc q).kstack ∧ v ≠ k.dirOf q ∧
        ∀ x < 1024, Present (k.mem (k.dirOf q) x) → v ≠ frame (k.mem (k.dirOf q) x)) ∧
      (k.segPage v ∨ ∀ q n, k.live q → n < userPages → Present (k.entry (k.dirOf q) n) →
        frame (k.entry (k.dirOf q) n) = v → q = p) := by
  obtain ⟨own, hi⟩ := h.inv
  obtain ⟨⟨hmay, -⟩, hcall⟩ := ite_none_right_eq_some.mp hs
  have hp := live_of_mayCall hmay rfl
  have hcall := toOption_some hcall
  obtain ⟨hr, rfl⟩ : Reach k (k.dirOf p) (va / 4096) ∧ frame (k.entry (k.dirOf p) (va / 4096)) = v := by
    rw [call, store, walkpgdir_false] at hcall
    split_ifs at hcall with hpd
    · dsimp only at hcall
      rw [← entry_of_present hpd, frame_eq] at hcall
      split_ifs at hcall with hc
      · obtain rfl := Except.ok.inj hcall
        refine ⟨⟨(present_and _).mp hc.1, (user_iff _).mp hc.2.2⟩, ?_⟩
        by_contra hne
        exact hv (by rw [Kernel.store_mem, Function.update_of_ne (Ne.symm hne)])
      · cases hcall
        exact absurd rfl hv
    · cases hcall
      exact absurd rfl hv
  rw [← entry_mod (Nat.mod_mod _ allPages)]
  rw [Reach, ← entry_mod (Nat.mod_mod _ allPages)] at hr
  have hu : va / 4096 % allPages < userPages := by
    by_contra hge
    have := hi.wf.kern _ _ (hi.dir p hp) (not_lt.mp hge) (Nat.mod_lt _ (by decide))
    omega
  have hrole := hi.wf.user _ _ (hi.dir p hp) hu hr.1
  refine ⟨⟨_, hu, hr, rfl⟩, fun hf => ?_, fun q hq => ⟨fun e => ?_, fun e => ?_, fun x hx hpr e => ?_⟩, ?_⟩
  · simp [(hi.wf.free _).mp hf] at hrole
  · simp [e, hi.stack q hq] at hrole
  · simp [e, hi.dir q hq] at hrole
  · simp [e, hi.wf.tab _ x (hi.dir q hq) hx hpr] at hrole
  · refine hrole.symm.imp hi.wf.segPage_iff.mpr fun e q n hq hn hpr hk => ?_
    have hrole' := hi.wf.user _ n (hi.dir q hq) hn hpr
    rw [hk, e] at hrole'
    exact hi.inj q p hq hp (by simp_all)

theorem store_isolated_init : ∃ k', Vm.step boot (.store initproc 0 7) = some k' ∧
    k'.mem (top 66) ≠ boot.mem (top 66) ∧ top 66 ∉ boot.freelist := by
  have htest : (Vm.step boot (.store initproc 0 7)).map (·.mem (top 66) 0) = some 7 := by decide +kernel
  obtain ⟨k', hs, h7⟩ := map_eq_some_iff.mp htest
  have hv : k'.mem (top 66) ≠ boot.mem (top 66) := fun e => absurd (congrFun e 0) (by rw [h7]; decide +kernel)
  exact ⟨k', hs, hv, (store_isolated (.refl boot) hs hv).2.1⟩

end

end Xv6.Vm
