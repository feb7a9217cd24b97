import Mathlib.Logic.Relation
import Xv6.Fs.Commit

/-! # Crashes

A crash loses everything but the disk. `disks k` lists the disks there were, after no, one, two, …
writes of a sector, so a crash may leave any of them. After it the kernel starts with empty buffers
(`powerOn`) and runs `recover_from_log`, which may itself be cut short (`Interrupted`), any number of
times, before it completes (`Recovery`).

All disks of a transaction recover to the contents before it until the header has been written,
and to the contents after it from then on (`transaction_spec`); recovery keeps this
(`recoverFromLog_spec`). -/

namespace Xv6.Fs

open Function List

/-- The disks after no, one, two, … writes. -/
def State.disks (k : State) : List (ℕ → Block) := (k.disk :: k.past).reverse

/-- The kernel when it starts. -/
def powerOn (start size : ℕ) (d : ℕ → Block) : State where
  disk := d
  past := []
  buf := d
  log := ⟨start, size, false, []⟩
  inode _ := ⟨0, false, Dinode.zero⟩
  tab := ⟨fun _ => ⟨.none, 0, false, false, 0, 0⟩, fun _ => ⟨none, fun _ => none⟩⟩

/-- A recovery of `d` that is cut short leaves `e`. -/
def Interrupted (start size : ℕ) (d e : ℕ → Block) : Prop :=
  e ∈ (recoverFromLog.run (exec initproc) (powerOn start size d)).2.disks

/-- A recovery that completes at last. -/
def Recovery (start size : ℕ) (d d' : ℕ → Block) : Prop :=
  ∃ e k, Relation.ReflTransGen (Interrupted start size) d e ∧
    recoverFromLog.run (exec initproc) (powerOn start size e) = (.ok (), k) ∧ d' = k.disk

/-- Calls of `log_write` with the given sectors and data. -/
def logWrites : List (ℕ × Block) → Kern Unit
  | [] => pure ()
  | (s, b) :: ws => do
    let _ ← bread s
    logWrite s b
    brelse s
    logWrites ws

/-- A transaction. -/
def transaction (ws : List (ℕ × Block)) : Kern Unit := do
  beginTrans
  logWrites ws
  commitTrans

/-- The sectors with the data of their last write. -/
def applyWrites (ws : List (ℕ × Block)) (d : ℕ → Block) : ℕ → Block :=
  ws.foldl (fun d w => update d w.1 w.2) d

/-- No transaction is open, the header on the disk is empty, and the buffers agree with the disk. -/
structure Idle (start size : ℕ) (k : State) : Prop where
  begins : k.log.start = start
  room : k.log.size = size
  free : k.log.busy = false
  nil : k.log.lh = []
  pos : 0 < size
  head : getHeader (k.disk start) = []
  clean : ∀ s, Home start size s → k.buf s = k.disk s

section
variable {start size : ℕ} {c d e : ℕ → Block} {k k' : State} {p : Slot}
  {ws : List (ℕ × Block)} {E : String → State → Prop}

/-! ### Recovery -/

/-- `recover_from_log` on a disk that recovers to `c`. -/
theorem recoverFromLog_spec (h : Recovers start size c d) :
    recoverFromLog.wp (exec p) (fun _ k' => (∀ e ∈ k'.disks, Recovers start size c e) ∧
      ∀ s, Home start size s → k'.disk s = c s) E (powerOn start size d) := by
  have hlist := h.list
  have hlt := hlist.fits
  have hi : Installing start size (recovered start d) (getHeader (d start))
      ((powerOn start size d).setLog ⟨start, size, false, getHeader (d start)⟩) := by
    refine ⟨hlist, rfl, rfl, fun s hs => ?_, fun s hs => ?_, fun s hs hm => ?_⟩
    · simp [recovered, hs, powerOn]
    · simp [recovered, hs, powerOn]
    · simp [recovered, hm, powerOn]
  unfold recoverFromLog readHead
  simp only [Prog.wp_bind, wp_getLog, wp_bread, wp_setLh, wp_brelse]
  refine Prog.wp_mono (installTrans_spec hi) (fun _ k2 hk => ?_) fun _ _ he => he
  obtain ⟨h1, h2, h3, h4, h5, ds, h6, h7⟩ := hk
  have hdisk : ∀ s, Home start size s → k2.disk s = recovered start d s := fun s hs => by
    rw [h4 s]
    split_ifs with hm
    · rfl
    · exact hi.rest s hs hm
  have hbuf : ∀ s, Home start size s → k2.buf s = recovered start d s := fun s hs => by
    rw [h5 s]
    split_ifs with hm
    · rfl
    · exact hi.rest s hs hm
  have h1' : Installing start size (recovered start d) (getHeader (d start))
      (k2.setLog { k2.log with lh := [] }) :=
    ⟨h1.list, h1.area, h1.head, h1.copy, h1.copyBuf, h1.rest⟩
  have hl := h1'.erase (by rw [State.setLog_log, h3]; rfl) rfl hdisk hbuf
  refine ⟨fun e he => ?_, fun s hs => (hl.disk s hs).trans (h.home s hs)⟩
  have hall : ∀ e ∈ (k2.setLog { k2.log with lh := [] }).headed.disks,
      Recovers start size (recovered start d) e := by
    intro e he
    rcases mem_cons.mp (mem_reverse.mp he) with rfl | he
    · exact hl.recovers
    · rcases mem_cons.mp he with rfl | he
      · exact h1.recovers
      · have he' : e ∈ ds ++ [] := h6 ▸ he
        exact h7 e (by simpa using he')
  exact (hall e he).congr h.home

theorem installLoop_total {tail : ℕ} {l : List ℕ} :
    (installLoop start tail l).wp (exec p) (fun _ _ => True) (fun _ _ => False) k := by
  induction l generalizing tail k with
  | nil => trivial
  | cons s l ih => exact ih

theorem recovery_total (start size : ℕ) (d : ℕ → Block) : ∃ d', Recovery start size d d' := by
  have hw : recoverFromLog.wp (exec initproc) (fun _ _ => True) (fun _ _ => False)
      (powerOn start size d) := by
    unfold recoverFromLog readHead installTrans
    simp only [Prog.wp_bind, wp_getLog, wp_bread, wp_setLh, wp_brelse]
    exact Prog.wp_mono installLoop_total (fun _ _ _ => trivial) fun _ _ he => he
  unfold Prog.wp at hw
  cases hr : recoverFromLog.run (exec initproc) (powerOn start size d) with
  | mk r k =>
    rw [hr] at hw
    cases r with
    | error msg => exact hw.elim
    | ok _ => exact ⟨k.disk, d, k, .refl, hr, rfl⟩

theorem Recovers.interrupted (h : Recovers start size c d) (hi : Interrupted start size d e) :
    Recovers start size c e := by
  have hw := recoverFromLog_spec (p := initproc) (E := fun _ _ => False) h
  unfold Prog.wp at hw
  unfold Interrupted at hi
  generalize recoverFromLog.run (exec initproc) (powerOn start size d) = o at hw hi
  obtain ⟨_ | _, k'⟩ := o
  · exact hw.elim
  · exact hw.1 e hi

theorem Recovers.recovery (h : Recovers start size c d) {d' : ℕ → Block}
    (hr : Recovery start size d d') {s : ℕ} (hs : Home start size s) : d' s = c s := by
  obtain ⟨e, k, hcut, hrun, rfl⟩ := hr
  have he : Recovers start size c e := by
    clear hrun
    induction hcut with
    | refl => exact h
    | tail _ hi ih => exact ih.interrupted hi
  exact ((Prog.wp_run (recoverFromLog_spec (E := fun _ _ => False) he) hrun).1 () rfl).2 s hs

/-! ### A transaction -/

theorem applyWrites_congr {s : ℕ} (h : d s = e s) : applyWrites ws d s = applyWrites ws e s := by
  unfold applyWrites
  induction ws generalizing d e with
  | nil => exact h
  | cons w ws ih =>
    refine ih ?_
    dsimp only
    by_cases hw : s = w.1
    · rw [hw, update_self, update_self]
    · rw [update_of_ne hw, update_of_ne hw, h]

/-- The calls of `log_write`: each writes one sector, and all disks recover to `c`. -/
theorem logWrites_spec (h : Logged start size c k) (hws : ∀ w ∈ ws, Home start size w.1 ∧ w.1 < 2 ^ 32) :
    (logWrites ws).wp (exec p) (fun _ k' => Logged start size c k' ∧
      (∀ s, Home start size s → k'.buf s = applyWrites ws k.buf s) ∧
      ∃ ds, k'.past = ds ++ k.past ∧ ds.length = ws.length ∧
        ∀ e ∈ ds, Recovers start size c e) (fun _ _ => True) k := by
  induction ws generalizing k with
  | nil => exact ⟨h, fun _ _ => rfl, [], rfl, rfl, by simp⟩
  | cons w ws ih =>
    obtain ⟨s, b⟩ := w
    obtain ⟨hs, hb⟩ := hws (s, b) (by simp)
    unfold logWrites
    rw [Prog.wp_bind, wp_bread]
    refine Prog.wp_seq (logWrite_spec h hs hb fun _ _ _ _ _ => trivial)
      fun _ k1 ⟨h1, _, _, _, _, h6, h7⟩ => ?_
    rw [Prog.wp_bind, wp_brelse]
    refine Prog.wp_mono (ih h1 fun w hw => hws w (by simp [hw]))
      (fun _ k2 ⟨g1, g2, ds, g5, g6, g7⟩ => ?_) fun _ _ he => he
    refine ⟨g1, fun t ht => ?_, ds ++ [k.disk], ?_, ?_, fun e he => ?_⟩
    · rw [g2 t ht]
      exact applyWrites_congr (h7 t ht)
    · rw [g5, h6]
      simp
    · simp [g6]
    · rcases mem_append.mp he with he | he
      · exact g7 e he
      · rw [mem_singleton.mp he]
        exact h.recovers

theorem Idle.logged (h : Idle start size k) : Logged start size k.disk k := by
  obtain ⟨h1, h2, _, h4, h5, h6, h7⟩ := h
  exact ⟨h1, h2, by rw [h4]; exact .nil h5, h6, fun _ _ => rfl, by simp [h4], by simp [h4],
    fun s hs _ => h7 s hs⟩

/-- The disks of a transaction: those up to the write of the header recover to the old contents, and
the others to the new ones. -/
theorem transaction_spec (h : Idle start size k) (hpast : k.past = [])
    (hws : ∀ w ∈ ws, Home start size w.1 ∧ w.1 < 2 ^ 32) :
    (transaction ws).wp (exec p) (fun _ k' => ∃ old new, k'.disks = old ++ new ∧
      old.length = ws.length + 1 ∧ (∀ e ∈ old, Recovers start size k.disk e) ∧
      ∀ e ∈ new, Recovers start size (applyWrites ws k.disk) e) (fun _ _ => True) k := by
  have hl := h.logged
  have hbegin : Logged start size k.disk (k.setLog { k.log with busy := true }) :=
    ⟨hl.begins, hl.room, hl.list, hl.head, hl.disk, hl.copy, hl.copyBuf, hl.rest⟩
  unfold transaction
  rw [Prog.wp_bind]
  refine Prog.wp_seq (logWrites_spec hbegin hws) fun _ k1 ⟨g1, g2, ds, g5, g6, g7⟩ => ?_
  have hpast1 : k1.past = ds := by
    rw [g5, State.setLog_past, hpast, append_nil]
  have hnew : ∀ s, Home start size s → k1.buf s = applyWrites ws k.disk s := fun s hs =>
    (g2 s hs).trans (applyWrites_congr (h.clean s hs))
  have hold : ∀ e ∈ k1.disks, Recovers start size k.disk e := fun e he => by
    rcases mem_cons.mp (mem_reverse.mp he) with rfl | he
    · exact g1.recovers
    · exact g7 e (hpast1 ▸ he)
  have hlen : k1.disks.length = ws.length + 1 := by
    simp [State.disks, hpast1, g6]
  refine Prog.wp_mono (commitTrans_spec g1) (fun _ k2 ⟨f1, _, _, _, _, f6⟩ => ?_) fun _ _ he => he
  rcases f6 with ⟨_, f7, f8⟩ | ⟨_, es, f7, f8⟩
  · refine ⟨k1.disks, [], ?_, hlen, hold, by simp⟩
    simp [State.disks, f7, f8]
  · refine ⟨k1.disks, (k2.disk :: es).reverse, ?_, hlen, hold, fun e he => ?_⟩
    · simp [State.disks, f7]
    · rcases mem_cons.mp (mem_reverse.mp he) with rfl | he
      · exact f1.recovers.congr hnew
      · exact (f8 e he).congr hnew

/-- **Crash atomicity.**  A crash after `m` writes of a transaction, and a recovery, however often it
is cut short: all home sectors have their old contents if the crash came before the header was
written, and else the data of their last `log_write`. -/
theorem crash_atomic (h : Idle start size k) (hpast : k.past = [])
    (hws : ∀ w ∈ ws, Home start size w.1 ∧ w.1 < 2 ^ 32)
    (hrun : (transaction ws).run (exec p) k = (.ok (), k')) {m : ℕ} (hm : k'.disks[m]? = some d)
    {d' : ℕ → Block} (hrec : Recovery start size d d') {s : ℕ} (hs : Home start size s) :
    d' s = if m ≤ ws.length then k.disk s else applyWrites ws k.disk s := by
  obtain ⟨old, new, hdisks, hlen, hold, hnew⟩ :=
    (Prog.wp_run (transaction_spec h hpast hws) hrun).1 () rfl
  rw [hdisks] at hm
  split_ifs with hle
  · rw [getElem?_append_left (by omega)] at hm
    exact (hold d (mem_of_getElem? hm)).recovery hrec hs
  · rw [getElem?_append_right (by omega)] at hm
    exact (hnew d (mem_of_getElem? hm)).recovery hrec hs

/-- One block is written, and the crash comes right after the header. -/
theorem crash_atomic_committed : ∃ k' d d', (transaction [(3, fun _ => 7)]).run (exec initproc)
      (powerOn 10 4 fun _ => zeroBlock) = (.ok (), k') ∧ k'.disks[2]? = some d ∧
    d 3 = zeroBlock ∧ Recovery 10 4 d d' ∧ d' 3 = fun _ => 7 := by
  have hi : Idle 10 4 (powerOn 10 4 fun _ => zeroBlock) :=
    ⟨rfl, rfl, rfl, rfl, by decide, rfl, fun _ _ => rfl⟩
  have hws : ∀ w ∈ [((3 : ℕ), (fun _ => 7 : Block))], Home 10 4 w.1 ∧ w.1 < 2 ^ 32 := by
    intro w hw
    rw [mem_singleton.mp hw]
    exact ⟨.inl (by decide), by decide⟩
  obtain ⟨k', d, hrun, hd, h3⟩ : ∃ k' d, (transaction [(3, fun _ => 7)]).run (exec initproc)
      (powerOn 10 4 fun _ => zeroBlock) = (.ok (), k') ∧ k'.disks[2]? = some d ∧
      d 3 = zeroBlock := ⟨_, _, rfl, rfl, rfl⟩
  obtain ⟨d', hrec⟩ := recovery_total 10 4 d
  exact ⟨k', d, d', hrun, hd, h3, hrec, crash_atomic hi rfl hws hrun hd hrec (.inl (by decide))⟩

end

end Xv6.Fs
