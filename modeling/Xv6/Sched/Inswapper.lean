import Xv6.Sched.Counter

/-! # The inswapper going to sleep

`swapIn` holds `ptable.lock` while it scans, drops it around the file operations, and after
one of its two `break`s goes on without it. It decides to sleep from `swappedout`, not from
the table. `Swapping` is the invariant of its loop, for runs in which the counter is right:
without the lock there is always a process left to swap in, at or after the position of the
scan, so that the inswapper can not reach `sched()` unless it holds the lock; and once it has
read `swappedout ≤ 0` with the lock held, no process is in `RUNNABLE_SUSPENDED`. -/

namespace Xv6.Sched

open Runs Table Function Option

/-- The inswapper is in `swapIn`, or will go on there, without `ptable.lock`. -/
def Unheld (s : Sys) : Prop :=
  (s.thr inswapper).ctl = .yield ∨ (∃ call, (s.thr inswapper).ctl = .sleep call) ∨
    (s.thr inswapper).ctl = .exec ∧ ∀ c, s.cpu c = .run inswapper → s.lock ≠ some c

/-- What is left to do for an inswapper without the lock. -/
def Pending (s : Sys) : Prop :=
  match s.phase with
  | .scan i => ∃ t : Slot, i ≤ t ∧ (s.proc t).state = .runnableSuspended
  | .check => ∃ t, (s.proc t).state = .runnableSuspended
  | .rest => False
  | .sched => False
  | _ => True

structure Swapping (s : Sys) : Prop where
  scanning : ∀ c i, s.cpu c = .scan i → s.lock = some c
  resting : (s.thr inswapper).ctl = .fresh ∨ (s.thr inswapper).ctl = .swapIn →
    s.phase = .scan 0
  asleep : ∀ call, (s.thr inswapper).ctl = .sleep call → s.phase.blocking = true
  unheld : Unheld s → Pending s
  held : ∀ c, s.cpu c = .run inswapper → s.lock = some c →
    (s.phase = .rest ∨ s.phase = .sched) → ∀ t, (s.proc t).state ≠ .runnableSuspended

theorem Pending.mono {s s' : Sys} (h : Pending s) (hphase : s'.phase = s.phase)
    (hst : ∀ t, (s.proc t).state = .runnableSuspended → (s'.proc t).state = .runnableSuspended) :
    Pending s' := by
  unfold Pending at h ⊢
  rw [hphase]
  cases hp : s.phase with
  | scan i =>
    rw [hp] at h
    obtain ⟨t, h1, h2⟩ := h
    exact ⟨t, h1, hst t h2⟩
  | check =>
    rw [hp] at h
    obtain ⟨t, ht⟩ := h
    exact ⟨t, hst t ht⟩
  | rest => rw [hp] at h; exact h
  | sched => rw [hp] at h; exact h
  | _ => trivial

/-- A step that leaves the inswapper where it is. -/
structure Apart (s s' : Sys) : Prop where
  phase : s'.phase = s.phase
  thr : (s'.thr inswapper).ctl = (s.thr inswapper).ctl
  cpu : ∀ c, s'.cpu c = .run inswapper ↔ s.cpu c = .run inswapper
  lock : ∀ c, s.cpu c = .run inswapper → (s'.lock = some c ↔ s.lock = some c)
  scanning : ∀ c i, s'.cpu c = .scan i → s'.lock = some c
  stays : ∀ t, (s.proc t).state = .runnableSuspended → (s'.proc t).state = .runnableSuspended
  held : ∀ c, s.cpu c = .run inswapper → s.lock = some c →
    ∀ t, (s'.proc t).state = .runnableSuspended → (s.proc t).state = .runnableSuspended

theorem Swapping.apart {s s' : Sys} (h : Swapping s) (ha : Apart s s') : Swapping s' := by
  have hun : Unheld s' → Unheld s := by
    unfold Unheld
    rw [ha.thr]
    rintro (h | h | ⟨h1, h2⟩)
    · exact .inl h
    · exact .inr (.inl h)
    · exact .inr (.inr ⟨h1, fun c hc hl => h2 c ((ha.cpu c).mpr hc) ((ha.lock c hc).mpr hl)⟩)
  refine ⟨ha.scanning, ?_, ?_, fun hu => (h.unheld (hun hu)).mono ha.phase ha.stays, ?_⟩
  · rw [ha.thr, ha.phase]; exact h.resting
  · rw [ha.thr, ha.phase]; exact h.asleep
  · intro c hc hl hp t ht
    rw [ha.phase] at hp
    have hc' := (ha.cpu c).mp hc
    have hl' := (ha.lock c hc').mp hl
    exact h.held c hc' hl' hp t (ha.held c hc' hl' t ht)

section steps
variable {s s' : Sys} {p : Slot} {c : ℕ}

theorem Touch.stays (h : Inv s) (ht : Touch s s') (t : Slot)
    (he : (s.proc t).state = .runnableSuspended) : (s'.proc t).state = .runnableSuspended := by
  rw [ht.state_eq _ (by simp [he]) (by simp [he])]
  · exact he
  · rintro rfl
    rcases h.swapperFits.state with e | e | e <;> simp [e] at he

/-- A critical section of a process other than the inswapper that ends in `sched()`. -/
theorem apart_sched (hw : Swapping s) {s1 : Sys} {k : Ctl}
    (hc : s.cpu c = .run p) (hp : p ≠ inswapper) (hl : s.lock = none ∨ s.lock = some c)
    (hphase : s1.phase = s.phase) (hthr : ∀ i, i ≠ p → (s1.thr i).ctl = (s.thr i).ctl)
    (hcpu : s1.cpu = s.cpu) (hst : ∀ t, (s.proc t).state = .runnableSuspended →
      (s1.proc t).state = .runnableSuspended) : Apart s (s1.sched c p k) := by
  have hne : ∀ c', s.cpu c' = .run inswapper → s.lock ≠ some c' ∧ c' ≠ c := by
    intro c' hc'
    have hcc : c' ≠ c := by
      rintro rfl
      rw [hc] at hc'
      exact hp (Cpu.run.inj hc')
    refine ⟨?_, hcc⟩
    rcases hl with e | e <;> rw [e]
    · simp
    · simpa using hcc.symm
  refine ⟨hphase, ?_, fun c' => ?_, fun c' hc' => ?_, fun c' i hi => ?_, hst,
    fun c' hc' hl' => absurd hl' (hne c' hc').1⟩
  · simpa [Sys.sched, hp.symm] using hthr inswapper hp.symm
  · by_cases hcc : c' = c
    · subst hcc
      simp [Sys.sched, hc, hp]
    · simp [Sys.sched, hcc, hcpu]
  · obtain ⟨h1, h2⟩ := hne c' hc'
    simp only [Sys.sched, some.injEq]
    exact ⟨fun e => absurd e.symm h2, fun e => absurd e h1⟩
  · by_cases hcc : c' = c
    · subst hcc; rfl
    · have hi' : s.cpu c' = .scan i := by simpa [Sys.sched, hcc, hcpu] using hi
      have := hw.scanning c' i hi'
      rcases hl with e | e <;> rw [e] at this
      · cases this
      · exact absurd (some.inj this).symm hcc

/-- A critical section that ends with the lock released and nothing else moved. -/
theorem apart_release (hw : Swapping s) (hc : s.cpu c = .run p)
    (hp : p ≠ inswapper) (hl : s.lock = none ∨ s.lock = some c) (hphase : s'.phase = s.phase)
    (hthr : (s'.thr inswapper).ctl = (s.thr inswapper).ctl) (hcpu : s'.cpu = s.cpu)
    (hl' : s'.lock = none) (hst : ∀ t, (s.proc t).state = .runnableSuspended →
      (s'.proc t).state = .runnableSuspended) : Apart s s' := by
  have hne : ∀ c', s.cpu c' = .run inswapper → s.lock ≠ some c' := by
    intro c' hc' e
    rcases hl with e' | e' <;> rw [e'] at e
    · cases e
    · obtain rfl := some.inj e
      rw [hc] at hc'
      exact hp (Cpu.run.inj hc')
  refine ⟨hphase, hthr, fun c' => by rw [hcpu], fun c' hc' => ?_, fun c' i hi => ?_, hst,
    fun c' hc' e => absurd e (hne c' hc')⟩
  · rw [hl']
    exact ⟨nofun, fun e => absurd e (hne c' hc')⟩
  · rw [hcpu] at hi
    have := hw.scanning c' i hi
    rcases hl with e | e <;> rw [e] at this
    · cases this
    · obtain rfl := some.inj this
      rw [hc] at hi
      cases hi

theorem apart_sleep (h : Inv s) (hw : Swapping s) (hc : s.cpu c = .run p)
    (hp : p ≠ inswapper) (hl : s.lock = none ∨ s.lock = some c) (chan : Chan) (w : Bool) :
    Apart s (sleep s c p chan w) := by
  have hst : ∀ (q : Proc) t, (s.proc t).state = .runnableSuspended →
      (update s.proc p q t).state = .runnableSuspended := by
    intro q t ht
    rw [update_of_ne (h.ne_of_running hc (.inr ht))]
    exact ht
  unfold sleep
  dsimp only
  split_ifs
  · refine apart_release hw hc hp hl rfl ?_ rfl rfl fun t ht => ?_
    · simp [hp.symm]
    · simpa using hst _ t ht
  · exact apart_sched hw hc hp hl rfl (fun _ _ => rfl) rfl (hst _)

theorem apart_waitLoop (h : Inv s) (hw : Swapping s) (hc : s.cpu c = .run p)
    (hp : p ≠ inswapper) (hl : s.lock = none ∨ s.lock = some c) : Apart s (waitLoop s c p) := by
  unfold waitLoop
  split
  · rename_i q hq
    have hz := (Inv.zombieChild_some hq).2
    refine apart_release hw hc hp hl rfl (by simp [hp.symm]) rfl rfl fun t ht => ?_
    have hne : t ≠ q := by
      rintro rfl
      simp [hz] at ht
    simpa [hne] using ht
  · split_ifs
    · exact apart_release hw hc hp hl rfl (by simp [hp.symm]) rfl rfl fun t ht => ht
    · exact apart_sleep h hw hc hp hl _ _

theorem apart_swapped (h : Inv s) (hw : Swapping s) {call : Call}
    {outs : List Call} (hc : s.cpu c = .run p) (hl : s.lock = none)
    (ho : (s.thr p).outs = call :: outs) : Apart s (swapped s c p call outs) := by
  have hp : p ≠ inswapper := by
    rintro rfl
    rw [h.swapperFits.outs] at ho
    cases ho
  have hsw : ∀ t, (s.proc t).state = .runnableSuspended → t ≠ inswapper := by
    rintro t ht rfl
    rcases h.swapperFits.state with e | e | e <;> simp [e] at ht
  by_cases hwk : (s.proc p).wokenUp = true
  · rw [swapped_of_woken hp hwk]
    refine apart_sched hw hc hp (.inl hl) rfl (fun i hi => by simp [hi]) rfl fun t ht => ?_
    simpa [hsw t ht, h.ne_of_running hc (.inr ht)] using ht
  · rw [swapped_of_not_woken hwk]
    refine apart_sched hw hc hp (.inl hl) rfl (fun i hi => by simp [hi]) rfl fun t ht => ?_
    simpa [h.ne_of_running hc (.inr ht)] using ht

theorem apart_touch (h : Inv s) (hw : Swapping s) (ht : Touch s s') (hl : s.lock = none) :
    Apart s s' := by
  refine ⟨ht.phase, by rw [ht.thr], fun c => by rw [ht.cpu], fun c _ => by rw [ht.lock],
    fun c i hi => ?_, Touch.stays h ht, fun c _ e => by rw [hl] at e; cases e⟩
  rw [ht.cpu] at hi
  rw [ht.lock]
  exact hw.scanning c i hi

theorem dispatch_lock (c : ℕ) (p : Slot) (hl : s.lock = some c) :
    (dispatch s c p).lock = none ∨ (dispatch s c p).lock = some c := by
  unfold dispatch
  cases (s.thr p).ctl <;> dsimp only <;> (try split_ifs) <;> simp [hl]

theorem apart_dispatch (hw : Swapping s) {i : ℕ} (hc : s.cpu c = .scan i)
    (hp : p ≠ inswapper) (hst : (s.proc p).state = .runnable) : Apart s (dispatch s c p) := by
  have hl := hw.scanning c i hc
  obtain ⟨ch, k, hproc, hthr, _⟩ := dispatch_slot s c p
  have hne : ∀ c', s.cpu c' = .run inswapper → c' ≠ c := by
    rintro c' hc' rfl
    rw [hc] at hc'
    cases hc'
  refine ⟨dispatch_phase s c p, by rw [hthr]; simp [hp.symm], fun c' => ?_, fun c' hc' => ?_,
    fun c' j hj => ?_, fun t ht => ?_, fun c' hc' hl' => ?_⟩
  · rw [dispatch_cpu]
    by_cases hcc : c' = c
    · subst hcc
      simp [hc, hp]
    · simp [hcc]
  · have hcc := hne c' hc'
    rw [hl]
    rcases dispatch_lock c p hl with e | e <;> rw [e]
    simp [hcc.symm]
  · rw [dispatch_cpu] at hj
    have hcc : c' ≠ c := by
      rintro rfl
      simp at hj
    rw [update_of_ne hcc] at hj
    have := hw.scanning c' j hj
    rw [hl] at this
    exact absurd (some.inj this).symm hcc
  · have hne : t ≠ p := by
      rintro rfl
      simp [hst] at ht
    rw [hproc, update_of_ne hne]
    exact ht
  · rw [hl] at hl'
    exact absurd (some.inj hl').symm (hne c' hc')

end steps

namespace Swapping
variable {s s' : Sys}

section
variable (h : Inv s) (hw : Swapping s) {c : ℕ}
include h hw

theorem dispatch {i : ℕ} (hc : s.cpu c = .scan i)
    (hm : (dispatch s c inswapper).mode = .run) : Swapping (dispatch s c inswapper) := by
  have hl := hw.scanning c i hc
  have hscan : ∀ c' j, update s.cpu c (.run inswapper) c' = .scan j → False := by
    intro c' j hj
    have hcc : c' ≠ c := by
      rintro rfl
      simp at hj
    rw [update_of_ne hcc] at hj
    have := hw.scanning c' j hj
    rw [hl] at this
    exact absurd (some.inj this).symm hcc
  have hst : ∀ (q : Proc) t, (s.proc t).state = .runnableSuspended →
      (update s.proc inswapper q t).state = .runnableSuspended := by
    intro q t ht
    rw [update_of_ne]
    · exact ht
    · rintro rfl
      rcases h.swapperFits.state with e | e | e <;> simp [e] at ht
  have hout : ∀ s1 : Sys, s1.phase = s.phase → (s1.thr inswapper).ctl = .exec →
      s1.cpu = update s.cpu c (.run inswapper) → s1.lock = none →
      (∃ q, s1.proc = update s.proc inswapper q) → Unheld s → Swapping s1 := by
    rintro s1 hph hk hcpu hl1 ⟨q, hproc⟩ hun
    refine ⟨fun c' j hj => ?_, ?_, ?_, fun _ => (hw.unheld hun).mono hph ?_, ?_⟩
    · rw [hcpu] at hj
      exact (hscan c' j hj).elim
    · rw [hk]; rintro (e | e) <;> cases e
    · rw [hk]; intro call e; cases e
    · rw [hproc]; exact hst q
    · intro c' _ e
      rw [hl1] at e
      cases e
  have hin : ∀ s1 : Sys, s1.phase = .scan 0 → (s1.thr inswapper).ctl = .exec →
      s1.cpu = update s.cpu c (.run inswapper) → s1.lock = some c → Swapping s1 := by
    intro s1 hph hk hcpu hl1
    refine ⟨fun c' j hj => ?_, ?_, ?_, ?_, ?_⟩
    · rw [hcpu] at hj
      exact (hscan c' j hj).elim
    · rw [hk]; rintro (e | e) <;> cases e
    · rw [hk]; intro call e; cases e
    · rintro (e | ⟨_, e⟩ | ⟨_, e⟩)
      · rw [hk] at e; cases e
      · rw [hk] at e; cases e
      · exact absurd hl1 (e c (by rw [hcpu]; simp))
    · intro c' _ _ hp
      rw [hph] at hp
      rcases hp with e | e <;> cases e
  unfold Sched.dispatch at hm ⊢
  cases hk : (s.thr inswapper).ctl with
  | fresh =>
    have hph := hw.resting (.inl hk)
    exact hin _ hph (by simp) rfl hl
  | swapIn =>
    have hph := hw.resting (.inr hk)
    exact hin _ hph (by simp) rfl hl
  | yield => exact hout _ rfl (by simp) rfl rfl ⟨_, rfl⟩ (.inl hk)
  | sleep call =>
    dsimp only
    rw [if_neg (by simp [h.swapperFits.call call hk])]
    exact hout _ rfl (by simp) rfl rfl ⟨_, by simp; rfl⟩ (.inr (.inl ⟨call, hk⟩))
  | exit => simp [hk] at hm
  | exec => simp [hk] at hm
  | wait => simp [hk] at hm

/-- The inswapper gives up its CPU inside a file operation or at a timer interrupt. -/
theorem leave {f : Proc → Proc} {k : Ctl} {n : ℕ}
    (hc : s.cpu c = .run inswapper) (hl : s.lock = none) (hk : (s.thr inswapper).ctl = .exec)
    (hk' : k = .yield ∨ (∃ call, k = .sleep call) ∧ s.phase.blocking = true) :
    Swapping (({ s.setProc inswapper f with calls := n } : Sys).sched c inswapper k) := by
  have hoff : ∀ c', (({ s.setProc inswapper f with calls := n } : Sys).sched c inswapper k).cpu
      c' ≠ .run inswapper := by
    intro c' hc'
    by_cases hcc : c' = c
    · subst hcc
      simp [Sys.sched] at hc'
    · have hc1 : s.cpu c' = .run inswapper := by simpa [Sys.sched, hcc] using hc'
      exact hcc (h.uniq c' c _ hc1 hc)
  have hun : Unheld s := by
    refine .inr (.inr ⟨hk, fun c' _ => ?_⟩)
    simp [hl]
  refine ⟨fun c' j hj => ?_, ?_, ?_, fun _ => (hw.unheld hun).mono rfl fun t ht => ?_,
    fun c' hc' => absurd hc' (hoff c')⟩
  · by_cases hcc : c' = c
    · subst hcc; rfl
    · have hj' : s.cpu c' = .scan j := by simpa [Sys.sched, hcc] using hj
      have := hw.scanning c' j hj'
      rw [hl] at this
      cases this
  · rcases hk' with rfl | ⟨⟨call, rfl⟩, _⟩ <;> simp [Sys.sched]
  · rcases hk' with rfl | ⟨_, hb⟩
    · simp [Sys.sched]
    · exact fun _ _ => hb
  · have hne : t ≠ inswapper := h.ne_of_running hc (.inr ht)
    simpa [Sys.sched, hne] using ht

theorem sleep (hc : s.cpu c = .run inswapper)
    (hl : s.lock = none) (hm : s.maySleep inswapper) (chan : Chan) :
    Swapping (sleep s c inswapper chan false) := by
  unfold Sched.sleep
  dsimp only
  rw [if_neg]
  · exact hw.leave h hc hl hm.1 (.inr ⟨⟨_, rfl⟩, hm.2.2 rfl⟩)
  · have := h.swapperFits.pid
    rintro ⟨_, hpid⟩
    simp at hpid
    omega

section loop
variable (hc : s.cpu c = .run inswapper) (hk : (s.thr inswapper).ctl = .exec)
include hc hk

theorem pending (hl : s.lock ≠ some c) : Pending s := by
  refine hw.unheld (.inr (.inr ⟨hk, fun c' hc' => ?_⟩))
  rw [h.uniq c' c _ hc' hc]
  exact hl

omit hw in
/-- A step that leaves the inswapper on its CPU. -/
theorem loop (hthr : s'.thr = s.thr) (hcpu : s'.cpu = s.cpu)
    (hscan : ∀ c' i, s.cpu c' = .scan i → s'.lock = some c') (hpend : s'.lock ≠ some c → Pending s')
    (hheld : s'.lock = some c → s'.phase = .rest ∨ s'.phase = .sched →
      ∀ t, (s'.proc t).state ≠ .runnableSuspended) : Swapping s' := by
  refine ⟨fun c' i hi => hscan c' i (hcpu ▸ hi), ?_, ?_, ?_, fun c' hc' => ?_⟩
  · rw [hthr, hk]
    rintro (e | e) <;> cases e
  · rw [hthr, hk]
    intro call e
    cases e
  · rintro (e | ⟨call, e⟩ | ⟨-, e⟩)
    · rw [hthr, hk] at e
      cases e
    · rw [hthr, hk] at e
      cases e
    · exact hpend (e c (by rw [hcpu]; exact hc))
  · rw [hcpu] at hc'
    obtain rfl := h.uniq c' c _ hc' hc
    exact hheld

omit hw in
/-- A step to a phase that is neither `rest` nor `sched`. -/
theorem busy (hthr : s'.thr = s.thr) (hcpu : s'.cpu = s.cpu)
    (hscan : ∀ c' i, s.cpu c' = .scan i → s'.lock = some c')
    (hphase : ¬ (s'.phase = .rest ∨ s'.phase = .sched)) (hpend : s'.lock ≠ some c → Pending s') : Swapping s' :=
  loop h hc hk hthr hcpu hscan hpend fun _ hp => absurd hp hphase

/-- A target that could not be swapped in is found again by a later scan. -/
theorem missed {t : Slot} {ph : Phase} {ok : Bool} (ht : (s.proc t).state = .runnableSuspended)
    (hph : ¬ (ph = .rest ∨ ph = .sched)) (hp : Pending { s with phase := ph }) :
    Swapping { s with phase := if ok = true then ph else .check } := by
  refine busy h hc hk rfl rfl hw.scanning ?_ fun _ => ?_
  · cases ok
    · simp
    · exact hph
  · cases ok
    · exact ⟨t, ht⟩
    · exact hp

/-- `swapIn` looks at the counter. -/
theorem check (hd : drift s = 0) (hph : s.phase = .check) :
    Swapping { s with phase := if s.swappedout > 0 then .scan 0 else .rest } := by
  by_cases hpos : s.swappedout > 0
  · rw [if_pos hpos]
    refine busy h hc hk rfl rfl hw.scanning (by simp) fun hl => ?_
    have hp := hw.pending h hc hk hl
    unfold Pending at hp ⊢
    rw [hph] at hp
    obtain ⟨t, ht⟩ := hp
    exact ⟨t, Nat.zero_le _, ht⟩
  · rw [if_neg hpos]
    have hnone : ∀ t, (s.proc t).state ≠ .runnableSuspended := by
      have h0 : s.suspended = 0 := by
        unfold drift at hd
        omega
      exact (count_eq_zero_iff _ s.proc).mp h0
    refine loop h hc hk rfl rfl hw.scanning (fun hl => ?_) fun _ _ => hnone
    have hp := hw.pending h hc hk hl
    unfold Pending at hp
    rw [hph] at hp
    obtain ⟨t, ht⟩ := hp
    exact absurd ht (hnone t)

/-- One step of the loop of `swapIn`, when the counter is right. -/
theorem swapIn (hd : drift s = 0) {ok : Bool} (hs : swapIn s c ok = some s') (hm : s'.mode = .run) :
    Swapping s' := by
  unfold Sched.swapIn at hs
  split at hs
  · rename_i i hph
    split at hs
    · split at hs
      · rename_i hst
        cases hs
        refine busy h hc hk rfl rfl hw.scanning (by simp) fun hl => ?_
        have hp := hw.pending h hc hk hl
        unfold Pending at hp ⊢
        rw [hph] at hp
        obtain ⟨t, h1, h2⟩ := hp
        refine ⟨t, ?_, h2⟩
        rcases Nat.lt_or_eq_of_le h1 with h3 | h3
        · exact h3
        · exact absurd (by rw [← h2]; congr 2; exact Fin.ext h3) hst
      · cases hs
        refine busy h hc hk rfl rfl (fun c' j hj => ?_) (by simp) fun _ => trivial
        have hl := hw.scanning c' j hj
        have hne : c' ≠ c := by
          rintro rfl
          rw [hc] at hj
          cases hj
        dsimp only
        rw [if_neg (by rw [hl]; simpa using hne)]
        exact hl
    · rename_i hlt
      cases hs
      refine busy h hc hk rfl rfl hw.scanning (by simp) fun hl => ?_
      have hp := hw.pending h hc hk hl
      unfold Pending at hp
      rw [hph] at hp
      obtain ⟨t, h1, _⟩ := hp
      exact absurd (lt_of_le_of_lt h1 t.isLt) hlt
  · rename_i t hph
    cases hs
    exact hw.missed h hc hk (h.target t (by simp [hph, Phase.target])) (by simp) trivial
  · rename_i t hph
    cases hs
    exact hw.missed h hc hk (h.target t (by simp [hph, Phase.target])) (by simp) trivial
  · split_ifs at hs with hl
    cases hs
    refine busy h hc hk rfl rfl (fun c' j hj => ?_) (by simp) fun hne => absurd rfl hne
    have := hw.scanning c' j hj
    rw [hl] at this
    cases this
  · rename_i hph
    cases hs
    exact hw.check h hc hk hd hph
  · rename_i hph
    cases hs
    have hl : s.lock = some c := by
      by_contra hl
      have hp := hw.pending h hc hk hl
      unfold Pending at hp
      rw [hph] at hp
      exact hp
    refine loop h hc hk rfl rfl hw.scanning (fun hne => absurd hl hne) fun _ _ t => ?_
    by_cases ht : t = inswapper
    · subst ht
      simp
    · simpa [ht] using hw.held c hc hl (.inl hph) t
  · split_ifs at hs with hl
    · cases hs
      refine ⟨fun c' j hj => ?_, fun _ => rfl, ?_, ?_, fun _ _ _ hp => by
        rcases hp with e | e <;> cases e⟩
      · by_cases hcc : c' = c
        · subst hcc; rfl
        · have hj' : s.cpu c' = .scan j := by simpa [Sys.sched, hcc] using hj
          have := hw.scanning c' j hj'
          rw [hl] at this
          exact absurd (some.inj this).symm hcc
      · intro call e
        simp [Sys.sched] at e
      · rintro (e | ⟨_, e⟩ | ⟨e, _⟩) <;> simp [Sys.sched] at e
    · cases hs
      cases hm

end loop

/-- Every step keeps the invariant of the inswapper, if the counter is right before it. -/
theorem step (hd : drift s = 0) {a : Act} (hs : step s a = some s') (hm : s'.mode = .run) : Swapping s' := by
  obtain ⟨_, ht⟩ := step_trans hs
  cases ht with
  | acquire c hl hc =>
    have hoff : ∀ c', s.cpu c' = .run inswapper → c' ≠ c := by
      rintro c' hc' rfl
      rw [hc] at hc'
      cases hc'
    refine hw.apart ⟨rfl, rfl, fun c' => ?_, fun c' hc' => ?_, fun c' i hi => ?_, fun _ => id,
      fun c' _ e => by rw [hl] at e; cases e⟩
    · by_cases hcc : c' = c
      · subst hcc; simp [hc]
      · simp [hcc]
    · simp only [hl, some.injEq, reduceCtorEq, iff_false]
      exact (hoff c' hc').symm
    · by_cases hcc : c' = c
      · subst hcc; rfl
      · have hi' : s.cpu c' = .scan i := by simpa [hcc] using hi
        have := hw.scanning c' i hi'
        rw [hl] at this
        cases this
  | skip c i hlt hc hst =>
    refine hw.apart ⟨rfl, rfl, fun c' => ?_, fun _ _ => Iff.rfl, fun c' j hj => ?_, fun _ => id,
      fun _ _ _ _ => id⟩
    · by_cases hcc : c' = c
      · subst hcc; simp [hc]
      · simp [hcc]
    · by_cases hcc : c' = c
      · subst hcc; exact hw.scanning c' i hc
      · exact hw.scanning c' j (by simpa [hcc] using hj)
  | release c i hc hlt =>
    have hl := hw.scanning c i hc
    have hne : ∀ c', s.cpu c' = .run inswapper → s.lock ≠ some c' := by
      intro c' hc' e
      rw [hl] at e
      obtain rfl := some.inj e
      rw [hc] at hc'
      cases hc'
    refine hw.apart ⟨rfl, rfl, fun c' => ?_, fun c' hc' => ?_, fun c' j hj => ?_, fun _ => id,
      fun _ _ _ _ => id⟩
    · by_cases hcc : c' = c
      · subst hcc; simp [hc]
      · simp [hcc]
    · exact ⟨nofun, fun e => absurd e (hne c' hc')⟩
    · have hcc : c' ≠ c := by
        rintro rfl
        simp at hj
      have := hw.scanning c' j (by simpa [hcc] using hj)
      rw [hl] at this
      exact absurd (some.inj this).symm hcc
  | pick c i hlt hc hst =>
    by_cases hp : (⟨i, hlt⟩ : Slot) = inswapper
    · rw [hp] at hm ⊢
      exact hw.dispatch h hc hm
    · exact hw.apart (apart_dispatch hw hc hp hst)
  | yield c p hc hl hk hst =>
    by_cases hp : p = inswapper
    · subst hp
      exact hw.leave (f := fun q => { q with state := .runnable }) (n := s.calls) h hc hl hk
        (.inl rfl)
    · refine hw.apart (apart_sched hw hc hp (.inl hl) rfl (fun _ _ => rfl) rfl fun t ht => ?_)
      simpa [h.ne_of_running hc (.inr ht)] using ht
  | sleep c a p hc hl hp =>
    by_cases he : p = inswapper
    · subst he
      exact hw.sleep h hc hl hp _
    · exact hw.apart (apart_sleep h hw hc he (.inl hl) _ _)
  | swapped c p call outs hc hl hk ho => exact hw.apart (apart_swapped h hw hc hl ho)
  | wait c p hc hl hp => exact hw.apart (apart_waitLoop h hw hc hp.2.2.2 (.inl hl))
  | waitMore c p hc hl hk =>
    have hp : p ≠ inswapper := by
      rintro rfl
      exact h.swapperFits.wait hk
    exact hw.apart (apart_waitLoop h hw hc hp (.inr hl))
  | initExit c hc hl hp => cases hm
  | exit c p hc hl hp hne =>
    have ht := touch_orphan h.swapperIn p
    have hw' := hw.apart (apart_touch h hw ht hl)
    rw [exit_eq]
    generalize orphan s p = s1 at ht hw'
    have hc' : s1.cpu c = .run p := by rw [ht.cpu]; exact hc
    refine hw'.apart (apart_sched hw' hc' hp.2.2.2 (.inl (by rw [ht.lock]; exact hl)) rfl
      (fun _ _ => rfl) rfl fun t he => ?_)
    simpa [(h.touch ht).ne_of_running hc' (.inr he)] using he
  | forkFull c p hc hl hp hu => exact hw
  | fork c p np hc hl hp hu =>
    have hst : (s.proc np).state = .unused := by simpa using List.find?_some hu
    have hsw : inswapper ≠ np := by
      rintro rfl
      rcases h.swapperFits.state with e | e | e <;> simp [e] at hst
    refine hw.apart ⟨rfl, ?_, fun _ => Iff.rfl, fun _ _ => Iff.rfl, hw.scanning, fun t he => ?_,
      fun _ _ _ t he => ?_⟩
    · simp [alloc, hsw, Ne.symm hp.2.2.2]
    · have hne : t ≠ np := by
        rintro rfl
        simp [hst] at he
      simpa [alloc, hne] using he
    · by_cases hne : t = np
      · subst hne
        simp [alloc] at he
      · simpa [alloc, hne] using he
  | forked c ok p np hc hk hn =>
    have hst := h.child p np hn
    have hproc : ∀ t, ((forked s p np ok).proc t).state = .runnableSuspended ↔
        (s.proc t).state = .runnableSuspended := by
      intro t
      by_cases hne : t = np
      · subst hne
        cases ok <;> simp [forked, hst]
      · cases ok <;> simp [forked, hne]
    have hthr : ((forked s p np ok).thr inswapper).ctl = (s.thr inswapper).ctl := by
      by_cases hp : inswapper = p
      · subst hp
        cases ok <;> simp [forked]
      · cases ok <;> simp [forked, hp]
    have hrest : (forked s p np ok).phase = s.phase ∧ (forked s p np ok).cpu = s.cpu ∧
        (forked s p np ok).lock = s.lock := by
      cases ok <;> exact ⟨rfl, rfl, rfl⟩
    obtain ⟨e1, e2, e3⟩ := hrest
    exact hw.apart ⟨e1, hthr, fun _ => by rw [e2], fun _ _ => by rw [e3],
      by rw [e2, e3]; exact hw.scanning, fun t => (hproc t).mpr, fun _ _ _ t => (hproc t).mp⟩
  | wakeup a hl => exact hw.apart (apart_touch h hw (touch_wakeup1 _ h.swapperIn) hl)
  | kill c pid p hc hl hp => exact hw.apart (apart_touch h hw (touch_kill h.swapperIn pid) hl)
  | setSwap b =>
    exact hw.apart ⟨rfl, rfl, fun _ => Iff.rfl, fun _ _ => Iff.rfl, hw.scanning, fun _ => id,
      fun _ _ _ _ => id⟩
  | swapIn c ok s' hc hk hs => exact hw.swapIn h hc hk hd hs hm

end

theorem boot : Swapping boot := by
  refine ⟨nofun, fun _ => rfl, nofun, ?_, nofun⟩
  rintro (e | ⟨_, e⟩ | ⟨e, _⟩) <;> cases e

end Swapping

theorem Reachable.swapping {s : Sys} (h : Reachable CountOk s) (hm : s.mode = .run) :
    Swapping s := by
  have hI : Reachable CountOk s ∧ (s.mode = .run → Swapping s) := by
    refine Reaches.invariant (I := fun s => Reachable CountOk s ∧ (s.mode = .run → Swapping s))
      ?_ h ⟨.refl _, fun _ => Swapping.boot⟩
    rintro s a s' ⟨hr, hw⟩ hok hs
    have hm := (step_trans hs).1
    exact ⟨hr.snoc hok hs, (hw hm).step (hr.inv hm) hr.drift_eq_zero hs⟩
  exact hI.2 hm

/-- CPU `c` runs the inswapper, which is about to call `sched()`. -/
def Sys.AtSched (s : Sys) (c : ℕ) : Prop :=
  s.mode = .run ∧ s.cpu c = .run inswapper ∧ s.phase = .sched
deriving Decidable

/-- **The inswapper going to sleep**: in every run in which no process is woken while it is
being swapped out, whenever `swapIn` calls `sched()` it holds `ptable.lock` and no process is in
state `RUNNABLE_SUSPENDED`. -/
theorem swapIn_sched {s : Sys} (h : Reachable CountOk s) {c : ℕ} (hc : s.AtSched c) :
    s.lock = some c ∧ ∀ t, (s.proc t).state ≠ .runnableSuspended := by
  obtain ⟨hm, hc, hp⟩ := hc
  have hw := h.swapping hm
  have hl : s.lock = some c := by
    by_contra hl
    have hpend : Pending s := by
      refine hw.unheld (.inr (.inr ⟨((h.inv hm).atSched hp).1, fun c' hc' => ?_⟩))
      rw [(h.inv hm).uniq c' c _ hc' hc]
      exact hl
    rw [Pending, hp] at hpend
    exact hpend
  exact ⟨hl, hw.held c hc hl (.inr hp)⟩

/-- Process 4 is swapped out, woken and swapped in again; then the inswapper goes to sleep. -/
theorem swapIn_sched_swapped : ∃ s, Reachable CountOk s ∧ s.AtSched 2 ∧ 0 < s.calls ∧
    s.lock = some 2 ∧ ∀ t, (s.proc t).state ≠ .runnableSuspended := by
  obtain ⟨s, hs, hp⟩ := reaches_of_exec step CountOk boot
    (warmUp ++ [.sleep 2 7, .swapped 2] ++ List.replicate 61 (.scan 2) ++
      [.wakeup 7, .acquire 2, .scan 2, .scan 2] ++ List.replicate 70 (.swapIn 2 true))
    (fun s => decide (s.AtSched 2 ∧ 0 < s.calls)) (by decide +kernel)
  obtain ⟨h1, h2⟩ := of_decide_eq_true hp
  exact ⟨s, hs, h1, h2, swapIn_sched hs h1⟩

/-- Process 4 is woken while it is being swapped out, so that the counter stays `0`; the
inswapper then fails to open the swap file, reads the counter and calls `sched()` without the
lock while process 4 is still suspended. -/
theorem swapIn_sched_unlocked : ¬ ∀ s c, Reachable Always s → s.AtSched c →
    s.lock = some c ∧ ∀ t, (s.proc t).state ≠ .runnableSuspended := by
  obtain ⟨s, hs, hp⟩ := reaches_of_exec step Always boot
    (warmUp ++ [.sleep 2 7, .wakeup 7, .swapped 2] ++ List.replicate 61 (.scan 2) ++
      [.acquire 2, .scan 2, .scan 2] ++ List.replicate 4 (.swapIn 2 true) ++
      List.replicate 3 (.swapIn 2 false))
    (fun s => decide (s.AtSched 2 ∧ s.lock ≠ some 2)) (by decide +kernel)
  obtain ⟨h1, h2⟩ := of_decide_eq_true hp
  intro h
  exact h2 (h s 2 hs h1).1

end Xv6.Sched
