import Xv6.Vm.Ownership

/-! # No holes below `sz`

`copyuvm` and `swapOut` panic at a page below `sz` that is not present. A hole appears in four
ways: `shmdt` unmaps the pages of a segment and leaves `sz` as it is; `growproc` shrinks a process
to nothing and reports an error, without setting `sz`; `allocuvm` loses the last page when there is
no memory for its table; and `shmat` loses pages for the same reason. In runs without these
(`HolesOk`) every process that runs has all its pages, and the panics do not happen. -/

namespace Xv6.Vm

open Runs Fallible Function

/-- The call leaves no hole. -/
def FillOk (k : Kernel) : Op → Prop
  | .growproc p n => GrowFits k p n
  | .shmat p shmid flg => (shmPerm flg).isSome = true → ∀ key < numOfSegs, Attaches k p shmid key →
      (missingTables k (k.dirOf p) (k.topPage p)
        (min (k.topPage p + (k.shm.pages key).toNat) userPages)).card ≤ k.freelist.length
  | .shmdt p a => ∀ key < numOfSegs, ¬ Detaches k p a key
  | _ => True

/-- The call frees no page of a live segment, and leaves no hole. -/
def HolesOk (k : Kernel) (o : Op) : Prop := OwnOk k o ∧ FillOk k o

/-- The panics at a hole. -/
def HolePanic (e : Fault) : Prop :=
  e = .panic "copyuvm: pte should exist" ∨ e = .panic "copyuvm: page not present" ∨
    e = .panic "walkpgdir: pte should exist" ∨ e = .panic "walkpgdir: page not present"

section
variable {k k' : Kernel} {own own' : ℕ → Role} {p q : Slot} {o : Op} {d : ℕ} {e : Fault}

/-! ### Why calls fail -/

/-- Without holes in the source, `copyuvm` stops at none. -/
theorem copyLoop_error (h : Wf k own) (hd : own d = .dir) {src n lo : ℕ} (hs : own src = .dir)
    (hne : src ≠ d) (hu : lo + n ≤ userPages) (hfull : ∀ m, lo ≤ m → m < lo + n → Present (k.entry src m))
    (hr : copyLoop src d n (4096 * lo) k = .error e) : e = .panic "remap" := by
  have hua := userPages_le
  induction n generalizing lo k own with
  | zero => cases hr
  | succ n ih =>
    have hpr := hfull lo (le_refl _) (by omega)
    have e4 : 4096 * lo / 4096 = lo := by omega
    unfold copyLoop at hr
    rw [walkpgdir_false, e4, if_pos (pde_of_entry hpr)] at hr
    dsimp only at hr
    rw [← entry_of_present (pde_of_entry hpr),
      if_neg (fun h0 => (present_and _).mpr hpr h0)] at hr
    cases hl : k.freelist with
    | nil =>
      rw [kalloc_nil hl] at hr
      cases hr
    | cons v l =>
      rw [kalloc_cons hl] at hr
      rcases bind_error hr with hr | ⟨⟨b, k1⟩, e1, hr⟩
      · exact mappages_memOnly.error hr
      · obtain ⟨own1, h1, _⟩ := map_new h hd hl (by omega) e1
        dsimp only at hr
        split_ifs at hr
        have hs1 := h1.dir_of_dir hne hs
        have hr' : copyLoop src d n (4096 * (lo + 1)) k1 = .error e := by
          rw [show 4096 * (lo + 1) = 4096 * lo + PGSIZE by unfold PGSIZE; omega]
          exact hr
        refine ih h1.wf h1.dir hs1 (by omega) (fun m hm hm' => ?_) hr'
        rw [h1.entry src hne hs m (by omega)]
        exact hfull m (by omega) (by omega)

theorem copyuvm_error (h : Wf k own) {src sz : ℕ} (hs : own src = .dir) (hsz : sz ≤ KERNBASE)
    (hfull : NoHoles k src sz) (hr : copyuvm k src sz = .error e) :
    e = .panic "remap" ∨ e = .panic "freevm: no pgdir" ∨ e = .panic "kfree" := by
  have hua := userPages_le
  rcases bind_error hr with hr | ⟨⟨r, k1⟩, e1, hr⟩
  · exact .inl (setupkvm_memOnly.error hr)
  cases r with
  | none => cases hr
  | some d =>
    obtain ⟨hd, own1, h1, _⟩ := setupkvm_new h e1
    have hne : src ≠ d := by
      rintro rfl
      rw [hd] at hs
      cases hs
    rcases bind_error hr with hr | ⟨⟨b, k2⟩, _, hr⟩
    · have hr' : copyLoop src d ((sz + PGSIZE - 1) / PGSIZE) (4096 * 0) k1 = .error e := hr
      refine .inl (copyLoop_error h1.wf h1.dir (h1.dir_of_dir hne hs) hne ?_ (fun m _ hm => ?_)
        hr')
      · unfold PGSIZE userPages KERNBASE at *
        omega
      · have hm' : 4096 * m < sz := by
          unfold PGSIZE at hm
          omega
        rw [h1.entry src hne hs m (by have := page_lt hsz hm'; omega)]
        exact hfull m hm'
    · dsimp only at hr
      split_ifs at hr
      rcases bind_error hr with hr | ⟨_, _, hr⟩
      · exact .inr (freevm_memOnly.error hr)
      · cases hr

theorem fork_error (h : Inv k own) (hp : k.live p) (hfull : NoHoles k (k.dirOf p) (k.proc p).sz)
    (hr : fork k p = .error e) : ¬ HolePanic e := by
  have hmsg : e = .panic "remap" ∨ e = .panic "freevm: no pgdir" ∨ e = .panic "kfree" := by
    unfold fork at hr
    split at hr
    · cases hr
    · rename_i np hnp
      have hun : (k.proc np).state = .unused := by
        simpa using (List.find?_eq_some_iff_append.mp hnp).1
      have hpn : p ≠ np := by
        rintro rfl
        exact hp hun
      dsimp only at hr
      set k0 : Kernel := { k.setProc np fun q => { q with state := .embryo, pid := k.nextpid } with
        nextpid := k.nextpid + 1 } with hk0
      have hproc : k0.proc p = k.proc p := update_of_ne hpn _ _
      cases hl : k0.freelist with
      | nil =>
        rw [kalloc_nil hl] at hr
        cases hr
      | cons ks l =>
        rw [kalloc_cons hl] at hr
        obtain ⟨_, hw1, hs1⟩ := h.wf.takeStack (v := ks) (l := l) hl np
        set k2 := ({ k0 with freelist := l } : Kernel).setProc np fun q => { q with kstack := ks }
          with hk2
        have hw2 : Wf k2 (update own ks (.kstack np)) :=
          hw1.congr rfl ⟨rfl, rfl⟩ fun _ _ => rfl
        have hp2 : k2.proc p = k.proc p := by
          rw [hk2, Kernel.setProc_proc, update_of_ne hpn]
          exact hproc
        rcases bind_error hr with hr | ⟨⟨r, k3⟩, _, hr⟩
        · rw [hp2] at hr
          refine copyuvm_error hw2 ?_ (h.size p hp) (fun m hm => ?_) hr
          · rw [hs1.role _ (by rw [h.dir p hp]; trivial), h.dir p hp]
          · exact hfull m hm
        · cases r with
          | none =>
            rcases bind_error hr with hr | ⟨_, _, hr⟩
            · exact .inr (.inr (kfree_memOnly.error hr))
            · cases hr
          | some d => cases hr
  rcases hmsg with rfl | rfl | rfl <;> simp [HolePanic]

variable {writes : ℕ → Bool}

theorem outLoop_error {n j : ℕ}
    (hfull : ∀ m, j ≤ m → m < j + n → Present (k.entry d m)) : outLoop d writes n j k ≠ .error e := by
  induction n generalizing j with
  | zero => simp [outLoop]
  | succ n ih =>
    have hpr := hfull j (le_refl _) (by omega)
    have e4 : j * PGSIZE / 4096 = j := by
      unfold PGSIZE
      omega
    unfold outLoop
    rw [walkpgdir_false, e4, if_pos (pde_of_entry hpr)]
    dsimp only
    rw [← entry_of_present (pde_of_entry hpr), if_neg (fun h0 => (present_and _).mpr hpr h0)]
    split_ifs
    · exact ih fun m hm hm' => hfull m (by omega) (by omega)
    · simp

variable {opened : Bool}

theorem swapOut_error (hfull : NoHoles k (k.dirOf p) (k.proc p).sz)
    (hr : swapOut k p opened writes = .error e) : ¬ HolePanic e := by
  have hmsg : e = .panic "kfree" := by
    unfold swapOut at hr
    split_ifs at hr
    rcases bind_error hr with hr | ⟨b, _, hr⟩
    · refine absurd hr (outLoop_error fun m _ hm => hfull m ?_)
      unfold PGSIZE at hm
      omega
    · split_ifs at hr
      rcases bind_error hr with hr | ⟨_, _, hr⟩
      · exact deallocuvm_memOnly.error hr
      · cases hr
  rw [hmsg]
  simp [HolePanic]

/-! ### The invariant -/

/-- A process that runs has all its pages, and one that is swapped out has the tables for them. -/
structure Solid (k : Kernel) (p : Slot) : Prop where
  running : (k.proc p).state = .running → NoHoles k (k.dirOf p) (k.proc p).sz
  suspended : (k.proc p).state = .sleepingSuspended →
    ∀ m, 4096 * m < (k.proc p).sz → Present (k.pde (k.dirOf p) m)

theorem Solid.same (h : Solid k q) (hi : Inv k own) (hs : SameSpace q k k') : Solid k' q := by
  have hua := userPages_le
  refine ⟨fun hr m hm => ?_, fun hr m hm => ?_⟩
  · rw [hs.state] at hr
    rw [hs.sz] at hm
    have hl : k.live q := by simp [Kernel.live, hr]
    have := page_lt (hi.size q hl) hm
    rw [hs.pgdir, hs.entry hl m (by omega)]
    exact h.running hr m hm
  · rw [hs.state] at hr
    rw [hs.sz] at hm
    have hl : k.live q := by simp [Kernel.live, hr]
    rw [hs.pgdir, pde_congr (hs.pde hl)]
    exact h.suspended hr m hm

theorem Solid.other (h1 : (k.proc p).state ≠ .running) (h2 : (k.proc p).state ≠ .sleepingSuspended) :
    Solid k p := ⟨fun h => absurd h h1, fun h => absurd h h2⟩

theorem solid_boot (hp : p ≠ inswapper) : Solid boot p := by
  by_cases e : p = initproc
  · subst e
    refine ⟨fun _ m hm => ?_, fun h => absurd h (by decide)⟩
    have hsz : (boot.proc initproc).sz = 4096 := by decide
    have h0 : m = 0 := by omega
    subst h0
    decide +kernel
  · have hst : (boot.proc p).state = .unused := by
      show (if p = initproc then _ else if p = inswapper then _ else _ : Proc).state = _
      rw [if_neg e, if_neg hp]
    exact .other (by simp [hst]) (by simp [hst])

theorem shmat_solid (h : Inv k own) (hp : k.live p) {shmid flg r : ℤ}
    (hfill : (shmPerm flg).isSome = true → ∀ key < numOfSegs, Attaches k p shmid key →
      (missingTables k (k.dirOf p) (k.topPage p)
        (min (k.topPage p + (k.shm.pages key).toNat) userPages)).card ≤ k.freelist.length)
    (hrun : NoHoles k (k.dirOf p) (k.proc p).sz) (hr : shmat k p shmid flg = .ok (r, k')) :
    NoHoles k' (k'.dirOf p) (k'.proc p).sz := by
  have hua := userPages_le
  rcases shmat_cases h hp hr with ⟨rfl, _⟩ | ⟨key, hat, _, ⟨_, rfl⟩ | ⟨perm, k1, own1, hperm, hm, ha, rfl⟩⟩
  · exact hrun
  · have e := noted_sameProc (k := k) p p key 1 1
    rw [e.pgdir, e.sz]
    exact hrun
  · have e := noted_sameProc (k := k) p p key 1 1
    have hk := (find_some hat.1).1
    obtain ⟨hf, ho⟩ := shmPerm_some hperm
    intro m hm'
    rw [Kernel.dirOf, setProc_self, hm.proc]
    rw [setProc_self] at hm'
    show Present (k1.entry ((k.noted p key 1 1).proc p).pgdir m)
    rw [show ((k.noted p key 1 1).proc p).pgdir = k.dirOf p from e.pgdir]
    change 4096 * m < 4096 * min (k.topPage p + (k.shm.pages key).toNat) userPages at hm'
    by_cases hlo : m < k.topPage p
    · rw [ha.outside m (by omega) (.inl hlo), noted_entry]
      exact hrun m (by unfold Kernel.topPage at hlo; omega)
    · obtain ⟨j, rfl⟩ : ∃ j, m = k.topPage p + j := ⟨m - k.topPage p, by omega⟩
      rw [ha.all (hfill (by rw [hperm]; rfl) key hk hat) j (by omega) (by omega)]
      refine Page.present_or (h.wf.page _ ?_) hf ho
      rw [zero_add, (SameSegs.noted k p key 1 1).seg, h.wf.seg_own hat.1 (by omega)]
      simp

/-- A call that concerns one slot only. -/
theorem Solid.turn (hsq : Solid k q) (h : Inv k own) (ht : Turn p k own k' own') (hp : q = p → Solid k' p) :
    Solid k' q := by
  obtain rfl | hne := eq_or_ne q p
  · exact hp rfl
  · exact hsq.same h (ht.apart q hne)

theorem Solid.run (hrun : (k.proc p).state = .running) (hno : NoHoles k (k.dirOf p) (k.proc p).sz) : Solid k p :=
  ⟨fun _ => hno, fun h => absurd (hrun.symm.trans h) (by simp)⟩

theorem Solid.unused (h : ¬ k.live p) : Solid k p := by
  have hst : (k.proc p).state = .unused := not_not.mp h
  exact .other (by simp [hst]) (by simp [hst])

/-- A process that has been swapped out keeps its tables. -/
theorem swapOut_solid {k1 : Kernel}
    (hno : NoHoles k (k.dirOf p) (k.proc p).sz) (hr : swapOut k p opened writes = .ok k1)
    (hd : k1.mem (k.dirOf p) = k.mem (k.dirOf p)) :
    Solid (k1.setProc p fun q => { q with state := .sleepingSuspended }) p := by
  have hm := swapOut_memOnly.ok hr
  refine ⟨fun h' => ?_, fun _ m hm' => ?_⟩
  · rw [setProc_self] at h'
    cases h'
  · rw [setProc_self, hm.proc] at hm'
    rw [Kernel.dirOf, setProc_self, hm.proc]
    exact (pde_congr hd m) ▸ pde_of_entry (hno m hm')

theorem swapIn_solid {data : FileData} (h : Inv k own) (ho : OwnOk k (.swapIn p opened data))
    (hst : (k.proc p).state = .sleepingSuspended) (hsp : Solid k p) (hr : swapIn k p opened data = .ok k') :
    Solid k' p := by
  obtain ⟨-, st, -, e, htab, hcase⟩ := swapIn_turn h (live_of_suspended hst) ho hr
  refine ⟨fun h' => ?_, fun h' m hm => ?_⟩
  · rw [e] at h'
    change st = .running at h'
    rw [Kernel.dirOf, e]
    obtain h'' | ⟨-, hno⟩ := hcase
    · rw [h', hst] at h''
      cases h''
    · exact hno (hsp.suspended hst)
  · rw [e] at hm
    rw [Kernel.dirOf, e]
    exact htab m (hsp.suspended hst m hm)

theorem Solid.step (h : Inv k own) (hrow : Rows k) (hso : ∀ p ≠ inswapper, Solid k p)
    (ho : HolesOk k o) (hs : Vm.step k o = some k') (hq : q ≠ inswapper) : Solid k' q := by
  have hsq := hso q hq
  obtain ⟨ho, hfill⟩ := ho
  unfold Vm.step at hs
  split_ifs at hs with hc
  obtain ⟨hmay, hadm⟩ := hc
  have hcall := toOption_some hs
  cases o with
  | growproc p n =>
    obtain ⟨hrun, hpi⟩ := hmay p rfl
    obtain ⟨⟨r, k1⟩, e, rfl⟩ := map_ok hcall
    obtain ⟨own1, ht, hst, hno⟩ := growproc_turn h (live_of_mayCall hmay rfl) ho hadm e
    exact hsq.turn h ht fun _ => .run (hst.trans hrun) (hno hfill ((hso p hpi).running hrun))
  | fork p =>
    obtain ⟨⟨r, k1⟩, e, rfl⟩ := map_ok hcall
    obtain e | ⟨np, own1, ht, -, hnew⟩ := fork_ok h (live_of_mayCall hmay rfl) e
    · rw [e]
      exact hsq
    · refine hsq.turn h ht fun _ => ?_
      by_cases hl : k1.live np
      · obtain ⟨h1, -, -, h2⟩ := hnew hl
        exact .run h1 h2
      · exact .unused hl
  | exec p img =>
    obtain ⟨hrun, hpi⟩ := hmay p rfl
    obtain ⟨⟨r, k1⟩, e, rfl⟩ := map_ok hcall
    obtain ⟨own1, ht, hst, hno⟩ := exec_turn h (live_of_mayCall hmay rfl) ho hadm e
    exact hsq.turn h ht fun _ => .run (hst.trans hrun) (hno ((hso p hpi).running hrun))
  | exit p =>
    obtain ⟨own1, ht, hst⟩ := exit_turn h (live_of_mayCall hmay rfl) hrow hcall
    exact hsq.turn h ht fun _ => .other (by simp [hst]) (by simp [hst])
  | wait p =>
    obtain rfl | ⟨r, own1, ht, hnl⟩ := wait_turn h ho hcall
    · exact hsq
    · exact hsq.turn h ht fun _ => .unused hnl
  | swapOut p opened writes =>
    obtain ⟨hrun, hpi⟩ := hmay p rfl
    obtain ⟨k1, e, rfl⟩ := map_ok hcall
    obtain ⟨⟨own1, ht⟩, hd⟩ := swapOut_turn h (live_of_mayCall hmay rfl) ho e
    exact hsq.turn h ht fun _ => swapOut_solid ((hso p hpi).running hrun) e hd
  | swapIn t opened data =>
    obtain ⟨own1, st, ht, -⟩ := swapIn_turn h (live_of_suspended hadm) ho hcall
    exact hsq.turn h ht fun e => swapIn_solid h ho hadm (e ▸ hsq) hcall
  | shmget p key size flg junk =>
    obtain ⟨⟨r, k1⟩, e, rfl⟩ := map_ok hcall
    obtain ⟨own1, _, ht⟩ := shmget_taken h.wf e
    exact hsq.same h (h.sameSpace (ht.spared h.wf) (.of_eq (by rw [ht.proc])))
  | shmat p shmid flg =>
    have hp := live_of_mayCall hmay rfl
    obtain ⟨hrun, hpi⟩ := hmay p rfl
    obtain ⟨⟨r, k1⟩, e, rfl⟩ := map_ok hcall
    obtain ⟨own1, ht, hst⟩ := shmat_turn h hp e
    exact hsq.turn h ht fun _ => .run (hst.trans hrun) (shmat_solid h hp hfill ((hso p hpi).running hrun) e)
  | shmdt p a =>
    have hp := live_of_mayCall hmay rfl
    obtain ⟨⟨r, k1⟩, e, rfl⟩ := map_ok hcall
    obtain ⟨_, rfl | rfl⟩ | ⟨key, own1, hdet, _⟩ := shmdt_cases h hp hrow hadm e
    · exact hsq
    · exact ⟨hsq.running, hsq.suspended⟩
    · obtain ⟨t, i, _, hf, _⟩ := id hdet
      exact absurd hdet (hfill key (find_some hf).1)
  | shmdel p shmid =>
    obtain ⟨⟨r, k1⟩, e, rfl⟩ := map_ok hcall
    obtain ⟨own1, -, hsame, -⟩ := shmdel_turn h hrow ho e
    exact hsq.same h (hsame q)
  | store p va w =>
    obtain ⟨_, hs, hm⟩ := store_call h (live_of_mayCall hmay rfl) hcall
    exact hsq.same h (h.sameSpace hs (.of_eq (by rw [hm.proc])))

theorem Reachable.solid (h : Reachable HolesOk k) :
    (∃ own, Inv k own) ∧ ∀ p ≠ inswapper, Solid k p := by
  have hI := h.invariant (I := fun k => (∃ own, Inv k own) ∧ Rows k ∧ ∀ p ≠ inswapper, Solid k p)
    (fun k o k' ⟨⟨own, hi⟩, hrow, hso⟩ ho hs => by
      obtain ⟨own', hi', _⟩ := hi.step hrow ho.1 hs
      exact ⟨⟨own', hi'⟩, hrow.step hs, fun q hq => Solid.step hi hrow hso ho hs hq⟩)
    ⟨⟨bootOwn, inv_boot⟩, Reachable.rows (.refl boot : Reachable Always boot),
      fun p hp => solid_boot hp⟩
  exact ⟨hI.1, hI.2.2⟩

/-- **No holes.**  In every run of calls that free no page of a live segment and leave no hole, a
process that is not swapped out has all its pages, and `copyuvm` and `swapOut` do not panic at a
missing one.  (The inswapper has a size and no pages, and calls neither.) -/
theorem no_holes (h : Reachable HolesOk k) (hp : p ≠ inswapper) (hrun : (k.proc p).state = .running) :
    NoHoles k (k.dirOf p) (k.proc p).sz ∧ (∀ e, fork k p = .error e → ¬ HolePanic e) ∧
      ∀ opened writes e, swapOut k p opened writes = .error e → ¬ HolePanic e := by
  obtain ⟨⟨own, hi⟩, hso⟩ := h.solid
  have hno := (hso p hp).running hrun
  have hl : k.live p := by simp [Kernel.live, hrun]
  exact ⟨hno, fun e he => fork_error hi hl hno he, fun _ _ e he => swapOut_error hno he⟩

/-- Init after `sbrk(4096)`. -/
theorem no_holes_grown : ∃ k, Reachable HolesOk k ∧ (k.proc initproc).sz = 8192 ∧
    NoHoles k (k.dirOf initproc) (k.proc initproc).sz := by
  have hok : HolesOk boot (.growproc initproc 4096) := by
    refine ⟨fun m _ _ hm => ?_, fun hneg => by omega, fun _ _ => .inl (by decide +kernel)⟩
    obtain ⟨key, _, i, hi, _⟩ := hm.2
    exact absurd hi (Nat.not_lt_zero i)
  have htest : (step boot (.growproc initproc 4096)).map (fun k => decide
      ((k.proc initproc).state = .running ∧ (k.proc initproc).sz = 8192)) = some true := by
    decide +kernel
  obtain ⟨k, hs, ht⟩ := Option.map_eq_some_iff.mp htest
  obtain ⟨h1, h2⟩ := of_decide_eq_true ht
  have hk : Reachable HolesOk k := (Reaches.refl boot).snoc hok hs
  exact ⟨k, hk, h2, (no_holes hk (by decide) h1).1⟩

/-- `shmdt` leaves a hole: after a segment has been attached and detached, the process still has the
size it had, and to swap it out would panic. -/
theorem shmdt_hole : ∃ k, Reachable Always k ∧ (k.proc initproc).state = .running ∧
    ¬ NoHoles k (k.dirOf initproc) (k.proc initproc).sz ∧
    ∃ e, swapOut k initproc true (fun _ => true) = .error e ∧ HolePanic e := by
  obtain ⟨k, hk, hp⟩ := reaches_of_exec step Always boot
    [.shmget initproc 7 4096 CREAT 0, .shmat initproc (toInt (top 134)) SHM_RDWR,
      .shmdt initproc 4096]
    (fun k => decide ((k.proc initproc).state = .running ∧ (k.proc initproc).sz = 8192 ∧
      ¬ Present (k.entry (k.dirOf initproc) 1)) && match swapOut k initproc true (fun _ => true) with
        | .error e => decide (e = .panic "walkpgdir: page not present")
        | .ok _ => false) (by decide +kernel)
  obtain ⟨h1, h2⟩ := Bool.and_eq_true_iff.mp hp
  obtain ⟨hst, hsz, hnp⟩ := of_decide_eq_true h1
  refine ⟨k, hk, hst, fun hno => hnp (hno 1 (by rw [hsz]; decide)), ?_⟩
  cases hs : swapOut k initproc true (fun _ => true) with
  | error e =>
    rw [hs] at h2
    exact ⟨e, rfl, .inr (.inr (.inr (of_decide_eq_true h2)))⟩
  | ok _ =>
    rw [hs] at h2
    cases h2

end

end Xv6.Vm
