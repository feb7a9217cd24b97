import Xv6.Vm.Calls

/-! # The shared-memory calls, `exit` and stores

What `shmget`, `shmat`, `shmdt` and `shmdel`, the `deallocshm` in `exit` and the stores of user code
do to the invariant and to the address spaces. -/

namespace Xv6.Vm

open Fallible Function Except Option

section
variable {k k' k1 : Kernel} {own own' : ℕ → Role} {p q : Slot} {d key a sz : ℕ} {r flg shmid : ℤ}

/-! ### `shmat` and `shmdt` -/

/-- The books concern neither memory nor the processes. -/
theorem noted_sameProc (p q : Slot) (key : ℕ) (x y : ℤ) : SameProc q k (k.noted p key x y) := by
  by_cases e : q = p
  · subst e
    have h : (k.noted q key x y).proc q = { k.proc q with hasShm := (k.proc q).hasShm + x } :=
      update_self _ _ _
    exact ⟨by rw [h], by rw [Kernel.dirOf, h], by rw [h], by rw [h]⟩
  · exact .of_eq (update_of_ne e _ _)

theorem noted_entry (p : Slot) (key : ℕ) (x y : ℤ) : (k.noted p key x y).entry = k.entry :=
  entry_congr rfl

theorem Wf.noted (h : Wf k own) (p : Slot) (key : ℕ) (x y : ℤ) : Wf (k.noted p key x y) own :=
  h.congr rfl (.noted _ _ _ _ _) fun _ _ => rfl

theorem Wf.seg_own (h : Wf k own) {i : ℕ} {f : ℕ → Bool} (hf : k.shm.find f = some key)
    (hi : (i : ℤ) < k.shm.pages key) : own (k.shm.seg key i) = .seg key i :=
  (h.seg _ _ _).mpr ⟨(find_some hf).1, hi, rfl⟩

theorem shmPerm_some {perm : ℕ} (h : shmPerm flg = some perm) :
    perm ||| PTE_P < 4096 ∧ (perm ||| PTE_P) % 2 = 1 := by
  unfold shmPerm at h
  split_ifs at h <;> obtain rfl := some.inj h <;> decide

theorem shmat_cases (h : Inv k own) (hp : k.live p) (hr : shmat k p shmid flg = .ok (r, k')) :
    (k' = k ∧ ∀ key, ¬ Attaches k p shmid key) ∨
    ∃ key, Attaches k p shmid key ∧ (k.proc p).pid ≤ 64 ∧
      (shmPerm flg = none ∧ k' = k.noted p key 1 1 ∨
      ∃ perm k1 own1, shmPerm flg = some perm ∧ MemOnly (k.noted p key 1 1) k1 ∧
        Attached (k.dirOf p) (k.topPage p) (k.shm.pages key).toNat key perm 0 (k.noted p key 1 1) own
          k1 own1 ∧
        k' = k1.setProc p fun q =>
          { q with sz := 4096 * min (k.topPage p + (k.shm.pages key).toNat) userPages }) := by
  have hsz := h.size p hp
  rcases shmat_ok hr with ⟨h1, h2⟩ | ⟨key, a, k1, ha, hpid, hl, hk'⟩
  · exact .inl ⟨h2, h1⟩
  refine .inr ⟨key, ha, hpid, ?_⟩
  cases hperm : shmPerm flg with
  | none =>
    rw [hperm] at hl hk'
    rw [attachLoop_none hl] at hk'
    exact .inl ⟨rfl, (hk'.resolve_right (by simp)).2⟩
  | some perm =>
    rw [hperm] at hl hk'
    obtain ⟨hf, hodd⟩ := shmPerm_some hperm
    have hlo : pgRoundUp (k.proc p).sz = 4096 * k.topPage p := by
      unfold Kernel.topPage pgRoundUp u32 PGSIZE KERNBASE at *
      omega
    have hltu : k.topPage p ≤ userPages := by
      unfold Kernel.topPage userPages KERNBASE at *
      omega
    rw [hlo] at hl
    obtain ⟨⟨own1, hatt⟩, rfl⟩ := attachLoop_attached (h.wf.noted p key 1 1) (h.dir p hp) hf hodd
      (fun j hj => by
        rw [zero_add, (SameSegs.noted k p key 1 1).seg]
        exact h.wf.seg_own ha.1 (by omega)) hl
    rw [max_eq_right hltu] at hk'
    exact .inr ⟨perm, k1, own1, rfl, attachLoop_memOnly.ok hl, hatt, (hk'.resolve_left (by simp)).2⟩

variable {x y : ℤ}

theorem Local.noted (h : Local d (k.noted p key x y) own k' own') : Local d k own k' own' :=
  ⟨h.role, fun d' hne hd n hn => by rw [h.entry d' hne hd n hn, noted_entry],
    fun d' hne hd => h.pde d' hne hd, h.back⟩

theorem Edits.noted (h : Edits d (k.noted p key x y) own k' own') :
    Edits d k own k' own' := ⟨h.toLocal.noted, h.wf, h.dir⟩

/-- The invariant after a change of the process's directory that follows a change of the books. -/
theorem Inv.noted (h : Inv k own) (hp : k.live p)
    (he : Edits (k.dirOf p) (k.noted p key x y) own k1 own') (hm : MemOnly (k.noted p key x y) k1)
    (hsz : sz ≤ KERNBASE) : Turn p k own (k1.setProc p fun q => { q with sz := sz }) own' := by
  have e : (k1.setProc p fun q => { q with sz := sz }).proc p =
      { k.proc p with hasShm := (k.proc p).hasShm + x, sz := sz } := by
    rw [setProc_self, hm.proc]
    show { (k.noted p key x y).proc p with sz := sz } = _
    rw [show (k.noted p key x y).proc p = { k.proc p with hasShm := (k.proc p).hasShm + x } from
      update_self _ _ _]
  refine h.edits hp (he.noted.congr rfl rfl (.setProc _ _ _)) (fun q hq => .setProc ?_ hq) ?_ ?_ ?_ ?_
  · refine .of_eq ?_
    rw [hm.proc]
    exact update_of_ne hq _ _
  · rw [Kernel.live, e]
    exact hp
  · rw [Kernel.dirOf, e]
  · rw [e]
  · rw [e]
    exact hsz

/-- `shmat` keeps the invariant, whatever it manages to map. -/
theorem shmat_turn (h : Inv k own) (hp : k.live p) (hr : shmat k p shmid flg = .ok (r, k')) :
    ∃ own', Turn p k own k' own' ∧ (k'.proc p).state = (k.proc p).state := by
  rcases shmat_cases h hp hr with ⟨rfl, _⟩ | ⟨key, _, _, ⟨_, rfl⟩ | ⟨perm, k1, own1, _, hm, ha, rfl⟩⟩
  · exact ⟨own, .refl h p, rfl⟩
  · have e : (k.noted p key 1 1).setProc p (fun q => { q with sz := (k.proc p).sz }) =
        k.noted p key 1 1 := by
      refine setProc_eq ?_
      rw [← (noted_sameProc p p key 1 1).sz]
    rw [← e]
    exact ⟨own, h.noted hp (.refl (h.wf.noted p key 1 1) (h.dir p hp)) (.refl _) (h.size p hp), by
      rw [e, (noted_sameProc p p key 1 1).state]⟩
  · refine ⟨own1, h.noted hp ha.toEdits hm ?_, ?_⟩
    · have := min_le_right (k.topPage p + (k.shm.pages key).toNat) userPages
      unfold userPages KERNBASE at *
      omega
    · rw [setProc_self, hm.proc, (noted_sameProc p p key 1 1).state]

theorem shmdt_cases (h : Inv k own) (hp : k.live p) (hrow : Rows k)
    (ha : a + 4 ≤ (k.proc p).sz) (hr : shmdt k p a = .ok (r, k')) :
    (∀ key, ¬ Detaches k p a key) ∧ (k' = k ∨ k' = { k with shm := { k.shm with locked := true } }) ∨
    ∃ key own1, Detaches k p a key ∧ (k.proc p).pid ≤ 64 ∧ MemOnly (k.noted p key (-1) 0) k' ∧
      Resized (k.dirOf p) (k.noted p key (-1) 0) own k' own1 ∧
      (∀ m < allPages, k'.entry (k.dirOf p) m =
        if a / 4096 ≤ m ∧ m < a / 4096 + (k.shm.pages key).toNat then 0
        else k.entry (k.dirOf p) m) ∧ k'.mem (k.dirOf p) = k.mem (k.dirOf p) := by
  have hsz := h.size p hp
  rcases shmdt_ok hr with h1 | ⟨key, hd, hpid, hl⟩
  · exact .inl h1
  have hk := hrow key
  have hn : a / 4096 + (k.shm.pages key).toNat ≤ allPages := by
    unfold allPages KERNBASE numOfSegs at *
    omega
  obtain ⟨own1, hrs, hent, hmem⟩ := clearLoop_resized (h.wf.noted p key (-1) 0) (h.dir p hp) hn hl
  exact .inr ⟨key, own1, hd, hpid, clearLoop_memOnly.ok hl, hrs, hent, hmem⟩

theorem shmdt_turn (h : Inv k own) (hp : k.live p) (hrow : Rows k)
    (ha : a + 4 ≤ (k.proc p).sz) (hr : shmdt k p a = .ok (r, k')) :
    ∃ own', Turn p k own k' own' ∧ (k'.proc p).state = (k.proc p).state := by
  rcases shmdt_cases h hp hrow ha hr with ⟨_, rfl | rfl⟩ | ⟨key, own1, _, _, hm, hrs, _⟩
  · exact ⟨own, .refl h p, rfl⟩
  · have hw : Wf { k with shm := { k.shm with locked := true } } own :=
      h.wf.congr rfl ⟨rfl, rfl⟩ fun _ _ => rfl
    exact ⟨own, h.spared hw (.congr rfl) (fun q => .of_eq rfl) p, rfl⟩
  · have e : k'.setProc p (fun q => { q with sz := (k.proc p).sz }) = k' := by
      refine setProc_eq ?_
      rw [hm.proc, ← (noted_sameProc p p key (-1) 0).sz]
    have ht := h.noted hp hrs.toEdits hm (h.size p hp)
    rw [e] at ht
    exact ⟨own1, ht, by rw [hm.proc, (noted_sameProc p p key (-1) 0).state]⟩

/-! ### `exit` -/

/-- The scan of `deallocshm` finds nothing, or it clears as many entries as the segment has pages,
from the first one on that refers to its first page. -/
theorem detachScan_ok (h : Wf k own) (hd : own d = .dir) (hrow : Rows k) {n a' : ℕ}
    (hsz : sz ≤ KERNBASE) (hr : detachScan d sz key n a k = .ok (a', k')) :
    k' = k ∨ ∃ m k1 own1, 4096 * m < sz ∧ Present (k.entry d m) ∧
      frame (k.entry d m) = k.shm.seg key 0 ∧ MemOnly k k1 ∧ Resized d k own k1 own1 ∧
      (∀ x < allPages, k1.entry d x =
        if m ≤ x ∧ x < m + (k.shm.pages key).toNat then 0 else k.entry d x) ∧
      k1.mem d = k.mem d ∧
      k' = if k.shm.count key > 0 then k1.setRefs key 0 64 (k.shm.count key - 1) else k1 := by
  induction n generalizing a with
  | zero => exact .inl (pair_ok hr).2.symm
  | succ n ih =>
    unfold detachScan at hr
    rw [walkpgdir_false] at hr
    by_cases hlt : a < sz
    swap
    · rw [if_neg hlt] at hr
      exact .inl (pair_ok hr).2.symm
    rw [if_pos hlt] at hr
    by_cases hp : Present (k.pde d (a / 4096))
    · rw [if_pos hp] at hr
      dsimp only at hr
      rw [← entry_of_present hp, frame_eq] at hr
      by_cases hc : k.entry d (a / 4096) &&& PTE_P ≠ 0 ∧
          k.shm.seg key 0 = frame (k.entry d (a / 4096))
      · rw [if_pos hc] at hr
        obtain ⟨k1, e1, hr1⟩ := bind_ok hr
        obtain ⟨_, rfl⟩ := pair_ok hr1
        have hk := hrow key
        have hn : a / 4096 + (k.shm.pages key).toNat ≤ allPages := by
          unfold allPages KERNBASE numOfSegs at *
          omega
        obtain ⟨own1, hrs, hent, hmem⟩ := clearLoop_resized h hd hn e1
        have hm := clearLoop_memOnly.ok e1
        refine .inr ⟨a / 4096, k1, own1, by omega, (present_and _).mp hc.1, hc.2.symm, hm, hrs, hent, hmem, ?_⟩
        rw [hm.shm]
      · rw [if_neg hc] at hr
        exact ih hr
    · rw [if_neg hp] at hr
      exact ih hr

theorem detachLoop_keeps {I : Kernel → Prop} {pid : ℕ}
    (hI : ∀ k k' key n a a', I k → key < numOfSegs → detachScan d sz key n a k = .ok (a', k') → I k')
    {n : ℕ} (hn : key + n ≤ numOfSegs) (hk : I k) (hr : detachLoop d sz pid n key a k = .ok k') : I k' := by
  induction n generalizing key a k with
  | zero =>
    obtain rfl := ok.inj hr
    exact hk
  | succ n ih =>
    unfold detachLoop at hr
    split_ifs at hr
    · obtain ⟨⟨a', k1⟩, e1, hr1⟩ := bind_ok hr
      exact ih (by omega) (hI _ _ _ _ _ _ hk (by omega) e1) hr1
    · exact ih (by omega) hk hr

theorem SameSegs.rows (h : SameSegs k k') (hr : Rows k) : Rows k' := fun key => by
  rw [h.pages]
  exact hr key

theorem detached_edits (h : Inv k own) (hp : k.live p) (hrow : Rows k)
    (hr : deallocshm k p = .ok k') : ∃ own', Edits (k.dirOf p) k own k' own' ∧ k'.proc = k.proc := by
  unfold deallocshm at hr
  split_ifs at hr
  have hI := detachLoop_keeps (I := fun k1 => ∃ own', Edits (k.dirOf p) k own k1 own' ∧
      k1.proc = k.proc ∧ Rows k1) (fun k1 k2 key n a a' ⟨own1, he, hpr, hrow1⟩ _ hs => ?_) (by decide)
    ⟨own, .refl h.wf (h.dir p hp), rfl, hrow⟩ hr
  · obtain ⟨own', he, hpr, _⟩ := hI
    exact ⟨own', he, hpr⟩
  · rcases detachScan_ok he.wf he.dir hrow1 (h.size p hp) hs with
      rfl | ⟨m, k3, own3, _, _, _, hm, hrs, _, _, rfl⟩
    · exact ⟨own1, he, hpr, hrow1⟩
    · have hed := he.trans hrs.toEdits
      split_ifs
      · exact ⟨own3, hed.congr rfl rfl (.setRefs _ _ _ _), by rw [Kernel.setRefs_proc, hm.proc, hpr],
          ((hm.sameSegs).trans (.setRefs _ _ _ _)).rows hrow1⟩
      · exact ⟨own3, hed, by rw [hm.proc, hpr], hm.sameSegs.rows hrow1⟩

/-- A process whose parent exits is given to init. -/
def reparent (p : Slot) (q : Proc) : Proc :=
  if q.parent = some p then { q with parent := some initproc } else q

/-- The state after `exit`, once the segments are detached. -/
def exited (k : Kernel) (p : Slot) : Kernel :=
  { k with
    proc := update (fun q => reparent p (k.proc q)) p
      { reparent p (k.proc p) with state := .zombie } }

theorem reparent_eq (p : Slot) (q : Proc) : (reparent p q).state = q.state ∧
    (reparent p q).pgdir = q.pgdir ∧ (reparent p q).kstack = q.kstack ∧ (reparent p q).sz = q.sz := by
  unfold reparent
  split_ifs <;> exact ⟨rfl, rfl, rfl, rfl⟩

theorem exit_ok (hr : exit k p = .ok k') : p ≠ initproc ∧ ∃ k1, k' = exited k1 p ∧
    ((k.proc p).hasShm = 0 ∧ k1 = k ∨ (k.proc p).hasShm ≠ 0 ∧ deallocshm k p = .ok k1) := by
  unfold exit at hr
  split_ifs at hr with h0 h1
  · obtain ⟨k1, e1, hr1⟩ := bind_ok hr
    exact ⟨h0, k1, (ok.inj hr1).symm, .inr ⟨h1, e1⟩⟩
  · obtain ⟨k1, e1, hr1⟩ := bind_ok hr
    obtain rfl := ok.inj e1
    exact ⟨h0, k, (ok.inj hr1).symm, .inl ⟨by simpa using h1, rfl⟩⟩

theorem exited_other (hq : q ≠ p) : SameProc q k (exited k p) := by
  have e : (exited k p).proc q = reparent p (k.proc q) := by simp only [exited, update_of_ne hq]
  obtain ⟨h1, h2, h3, h4⟩ := reparent_eq p (k.proc q)
  exact ⟨by rw [e, h1], by rw [Kernel.dirOf, e, h2], by rw [e, h3], by rw [e, h4]⟩

theorem exited_self : ((exited k p).proc p).state = .zombie ∧
    (exited k p).dirOf p = k.dirOf p ∧ ((exited k p).proc p).kstack = (k.proc p).kstack ∧
    ((exited k p).proc p).sz = (k.proc p).sz := by
  have e : (exited k p).proc p = { reparent p (k.proc p) with state := .zombie } := by
    simp only [exited, update_self]
  obtain ⟨_, h2, h3, h4⟩ := reparent_eq p (k.proc p)
  rw [Kernel.dirOf, e]
  exact ⟨rfl, h2, h3, h4⟩

theorem exit_turn (h : Inv k own) (hp : k.live p) (hrow : Rows k) (hr : exit k p = .ok k') :
    ∃ own', Turn p k own k' own' ∧ (k'.proc p).state = .zombie := by
  obtain ⟨_, k1, rfl, hk1⟩ := exit_ok hr
  have hed : ∃ own', Edits (k.dirOf p) k own k1 own' ∧ k1.proc = k.proc := by
    rcases hk1 with ⟨_, rfl⟩ | ⟨_, e1⟩
    · exact ⟨own, .refl h.wf (h.dir p hp), rfl⟩
    · exact detached_edits h hp hrow e1
  obtain ⟨own', he, hproc⟩ := hed
  obtain ⟨h1, h2, h3, h4⟩ := exited_self (k := k1) (p := p)
  rw [Kernel.dirOf, Kernel.dirOf, hproc] at h2
  rw [hproc] at h3 h4
  refine ⟨own', h.edits hp (he.congr rfl rfl ⟨rfl, rfl⟩) (fun q hq => ?_) ?_ h2 h3 ?_, h1⟩
  · have e := exited_other (k := k1) hq
    exact ⟨by rw [e.state, hproc], by rw [e.pgdir, Kernel.dirOf, hproc], by rw [e.kstack, hproc],
      by rw [e.sz, hproc]⟩
  · rw [Kernel.live, h1]
    simp
  · rw [h4]
    exact h.size p hp

/-! ### `shmget`, `shmdel` and stores -/

theorem Taken.spared (h : Wf k own) (ht : Taken k own k' own') : Spared k own k' own' := by
  have hne : ∀ {v}, Fixed (own v) → own v ≠ .free := fun {v} hv e => by
    rw [e] at hv
    exact hv
  refine ⟨fun v hv => ht.role v (hne hv), fun d hd n _ => h.entry_eq (fun v hv => ht.mem v ?_) hd n,
    fun d hd => ht.mem d (by simp [hd]), fun v hv => ?_⟩
  · rcases hv with e | ⟨_, _, e⟩ <;> simp [e]
  · by_cases e : own v = .free
    · rcases ht.seg v e with e' | ⟨_, _, e'⟩ <;> rw [hv] at e' <;> cases e'
    · rw [← ht.role v e, hv]

theorem shmget_turn (h : Inv k own) (p : Slot) {key : ℤ} {size : ℕ} {junk : ℤ}
    (hr : shmget k key size flg junk = .ok (r, k')) :
    ∃ own', Turn p k own k' own' ∧ Taken k own k' own' := by
  obtain ⟨own', hw, ht⟩ := shmget_taken h.wf hr
  exact ⟨own', h.spared hw (ht.spared h.wf) (fun q => .of_eq (by rw [ht.proc])) p, ht⟩

/-- `shmdel` keeps the invariant if no process maps the segment it removes. -/
theorem shmdel_inv (h : Inv k own) (hrow : Rows k)
    (hun : ∀ key, Deletes k shmid key → ∀ q, k.live q → ∀ n < userPages,
      Present (k.entry (k.dirOf q) n) → ∀ i, own (frame (k.entry (k.dirOf q) n)) ≠ .seg key i)
    (hr : shmdel k shmid = .ok (r, k')) :
    ∃ own', Inv k' own' ∧ (∀ q, SameSpace q k k') ∧
      (∀ v, own' v = own v ∨ ∃ key i, Deletes k shmid key ∧ own v = .seg key i ∧ own' v = .free) := by
  rcases shmdel_ok h.wf hrow hr with ⟨rfl, _⟩ | ⟨key, hdel, _, h1, h2, _, h4, h5, h6, h7⟩
  · exact ⟨own, h, fun q => ⟨.of_eq rfl, fun _ _ _ => rfl, fun _ => rfl⟩, fun _ => .inl rfl⟩
  obtain ⟨own', hw, hkeep, hfreed⟩ := shmdel_wf h.wf h1 h2 h5 h6 h7 (fun d n hd hn hp i e => by
    obtain ⟨q, hq, rfl⟩ := h.owner d hd
    exact hun key hdel q hq n hn hp i e)
  have hmem : ∀ v, (own v = .dir ∨ ∃ d x, own v = .tab d x) → k'.mem v = k.mem v := fun v hv =>
    h7 v fun i e => by
      rw [e] at hv
      rcases hv with e | ⟨_, _, e⟩ <;> cases e
  have hsame : ∀ q, SameSpace q k k' := fun q => ⟨.of_eq (by rw [h4]),
    fun hl n _ => h.wf.entry_eq hmem (h.dir q hl) n, fun hl => hmem _ (.inl (h.dir q hl))⟩
  have hrole : ∀ v, (∀ i, own v ≠ .seg key i) → own' v = own v := hkeep
  have hlive : ∀ q, k'.live q ↔ k.live q := fun q => (hsame q).live
  refine ⟨own', ⟨hw, fun q hq => ?_, fun q hq => ?_, fun q s hq hs e => ?_, fun q hq => ?_,
    fun d hd => ?_⟩, hsame, fun v => ?_⟩
  · have := h.dir q ((hlive q).mp hq)
    rw [(hsame q).pgdir, hrole _ (by simp [this]), this]
  · have := h.stack q ((hlive q).mp hq)
    rw [(hsame q).kstack, hrole _ (by simp [this]), this]
  · rw [(hsame q).pgdir, (hsame s).pgdir] at e
    exact h.inj q s ((hlive q).mp hq) ((hlive s).mp hs) e
  · rw [(hsame q).sz]
    exact h.size q ((hlive q).mp hq)
  · have hd' : own d = .dir := by
      by_cases e : ∃ i, own d = .seg key i
      · obtain ⟨i, e⟩ := e
        rw [hfreed d i e] at hd
        cases hd
      · push Not at e
        rw [← hrole d e, hd]
    obtain ⟨q, hq, e⟩ := h.owner d hd'
    exact ⟨q, (hlive q).mpr hq, by rw [(hsame q).pgdir, e]⟩
  · by_cases e : ∃ i, own v = .seg key i
    · obtain ⟨i, e⟩ := e
      exact .inr ⟨key, i, hdel, e, hfreed v i e⟩
    · push Not at e
      exact .inl (hrole v e)

/-- A store of user code changes neither directories nor tables. -/
theorem store_spared (h : Inv k own) (hp : k.live p) {va w : ℕ} (hr : store k p va w = some k') :
    Wf k' own ∧ Spared k own k' own := by
  have hd := h.dir p hp
  unfold store at hr
  rw [walkpgdir_false] at hr
  by_cases hpd : Present (k.pde (k.dirOf p) (va / 4096))
  swap
  · rw [if_neg hpd] at hr
    cases hr
  rw [if_pos hpd] at hr
  dsimp only at hr
  rw [← entry_of_present hpd, frame_eq] at hr
  split_ifs at hr with hc
  obtain rfl := some.inj hr
  have hf := h.wf.reach_frame hd ((user_iff _).mp hc.2.2)
  obtain ⟨hw, he⟩ := h.wf.write hf
    (update (k.mem (frame (k.entry (k.dirOf p) (va / 4096)))) (va / 4 % 1024) w)
  refine ⟨hw, fun _ _ => rfl, fun d hd n _ => he d n hd, fun d hd => ?_, fun _ h => h⟩
  rw [Kernel.store_mem, update_of_ne]
  rintro rfl
  exact hf.1 hd

theorem store_call (h : Inv k own) (hp : k.live p) {va w : ℕ} (hr : call k (.store p va w) = .ok k') :
    Wf k' own ∧ Spared k own k' own ∧ MemOnly k k' := by
  rw [call] at hr
  cases hst : store k p va w with
  | none =>
    rw [hst] at hr
    obtain rfl := ok.inj hr
    exact ⟨h.wf, .refl _ _, .refl _⟩
  | some k1 =>
    rw [hst] at hr
    obtain rfl := ok.inj hr
    obtain ⟨h1, h2⟩ := store_spared h hp hst
    exact ⟨h1, h2, store_memOnly hst⟩

end

end Xv6.Vm
