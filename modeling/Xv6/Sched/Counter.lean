import Xv6.Sched.Invariant

/-! # The counter `swappedout`

`swappedout` is declared as the number of processes in `RUNNABLE_SUSPENDED`. Four places
move a process into or out of that state. `wakeup1`, `kill` and `swapIn` adjust the counter;
the branch of `sleep` that finds `wokenUp` set after `swapOut` does not. `drift_step` measures
each step: that branch makes the counter one too small, and no other step changes the
difference. So the counter is right exactly as long as the branch is not taken
(`swappedout_eq_suspended`). -/

namespace Xv6.Sched

open Runs

/-- How far the counter is behind. -/
def drift (s : Sys) : ℤ := s.suspended - s.swappedout

/-- `sleep` returns from `swapOut` to find that the process was woken meanwhile. -/
def TakesWokenUp (s : Sys) : Act → Prop
  | .swapped c => ∃ p, s.cpu c = .run p ∧ (s.proc p).wokenUp = true
  | _ => False

instance (s : Sys) : (a : Act) → Decidable (TakesWokenUp s a)
  | .swapped c => inferInstanceAs (Decidable (∃ p, s.cpu c = .run p ∧ (s.proc p).wokenUp = true))
  | .acquire _ | .scan _ | .yield _ | .sleep _ _ | .wait _ | .waitMore _ | .exit _ | .fork _ | .forked _ _
  | .wakeup _ | .kill _ _ | .setSwap _ | .swapIn _ _ => inferInstanceAs (Decidable False)

/-- No process is woken up while it is being swapped out. -/
def CountOk (s : Sys) (a : Act) : Prop := ¬ TakesWokenUp s a
deriving Decidable

section drift
variable {s s' : Sys} {p : Slot} {c : ℕ}

theorem drift_touch (h : Touch s s') : drift s' = drift s := by
  have := h.count
  unfold drift
  omega

/-- Writing an entry that is not `RUNNABLE_SUSPENDED` before or after. -/
theorem drift_update {q : Proc} (hproc : s'.proc = Function.update s.proc p q)
    (hsw : s'.swappedout = s.swappedout) (hp : (s.proc p).state ≠ .runnableSuspended)
    (hq : q.state ≠ .runnableSuspended) : drift s' = drift s := by
  have h := s.suspended_setProc_of_ne p (fun _ => q) hp hq
  rw [drift, drift, Sys.suspended_congr (hproc.trans (s.setProc_proc p fun _ => q).symm), h,
    hsw]

/-- An executing process is not `RUNNABLE_SUSPENDED`. -/
theorem Inv.ne_suspended (h : Inv s) (hc : s.cpu c = .run p) : (s.proc p).state ≠ .runnableSuspended := by
  rcases h.running_state hc with e | e | e <;> simp [e]

theorem drift_sleep (h : Inv s) (hc : s.cpu c = .run p) (chan : Chan)
    (w : Bool) : drift (sleep s c p chan w) = drift s := by
  unfold sleep
  dsimp only
  split_ifs
  · exact drift_update (p := p) (q := { s.proc p with
      chan := chan, state := .sleeping, wokenUp := false, swappingOut := true })
      (by simp) rfl (h.ne_suspended hc) (by simp)
  · exact drift_update (p := p) (q := { s.proc p with chan := chan, state := .sleeping })
      rfl rfl (h.ne_suspended hc) (by simp)

theorem drift_waitLoop (h : Inv s) (hc : s.cpu c = .run p) : drift (waitLoop s c p) = drift s := by
  unfold waitLoop
  split
  · rename_i q hq
    have hz := (Inv.zombieChild_some hq).2
    exact drift_update (p := q) (q := { s.proc q with
      state := .unused, pid := 0, parent := none, killed := false }) rfl rfl (by simp [hz]) (by simp)
  · split_ifs
    · rfl
    · exact drift_sleep h hc _ _

theorem drift_dispatch (hp : (s.proc p).state = .runnable) : drift (dispatch s c p) = drift s := by
  obtain ⟨ch, k, hproc, _⟩ := dispatch_slot s c p
  exact drift_update hproc (dispatch_swappedout s c p) (by simp [hp]) (by simp)

/-- The end of `sleep` after `swapOut`: only the woken branch falls behind. -/
theorem drift_swapped (h : Inv s) {call : Call} {outs : List Call}
    (hc : s.cpu c = .run p) (ho : (s.thr p).outs = call :: outs) :
    drift (swapped s c p call outs) =
      drift s + if (s.proc p).wokenUp = true then 1 else 0 := by
  have hne : p ≠ inswapper := by
    rintro rfl
    rw [h.swapperFits.outs] at ho
    cases ho
  split_ifs with hw
  · have hd : drift (s.setState inswapper .runnable) = drift s :=
      drift_touch (.setRunnable h.swapperIn (.inr rfl))
    have hsus := (s.setState inswapper .runnable).suspended_setProc p fun q =>
      { q with swappingOut := false, wokenUp := false, state := .runnableSuspended }
    rw [if_pos rfl, if_neg (by simpa [hne] using h.ne_suspended hc)] at hsus
    rw [swapped_of_woken hne hw, ← hd]
    show (((s.setState inswapper .runnable).setProc p fun q => { q with
      swappingOut := false, wokenUp := false, state := .runnableSuspended }).suspended : ℤ) -
      s.swappedout = _
    rw [hsus, drift]
    simp only [Sys.setState, Sys.setProc_swappedout]
    omega
  · rw [add_zero, swapped_of_not_woken hw]
    exact drift_update (p := p) (q := { s.proc p with
      swappingOut := false, state := .sleepingSuspended }) rfl rfl (h.ne_suspended hc) (by simp)

theorem drift_swapIn (h : Inv s) {ok : Bool} (hc : s.cpu c = .run inswapper)
    (hs : swapIn s c ok = some s') : drift s' = drift s := by
  unfold swapIn at hs
  split at hs
  · split at hs
    · split at hs <;> (cases hs; rfl)
    · cases hs; rfl
  · cases hs; rfl
  · cases hs; rfl
  · rename_i t hph
    split_ifs at hs
    cases hs
    have he := h.target t (by simp [hph, Phase.target])
    have hsus := s.suspended_setProc t fun p => { p with state := .runnable }
    rw [if_neg (by simp), if_pos he] at hsus
    show ((s.setState t .runnable).suspended : ℤ) - (s.swappedout - 1) = _
    rw [Sys.setState, hsus, drift]
    omega
  · cases hs; rfl
  · cases hs
    exact drift_update (p := inswapper) rfl rfl (h.ne_suspended hc) (by simp)
  · split_ifs at hs <;> (cases hs; rfl)

end drift

/-- **One step**: the counter falls behind by one in the woken branch of `sleep`, and by
nothing else. -/
theorem drift_step {s s' : Sys} (h : Inv s) {a : Act} (hs : step s a = some s') :
    drift s' = drift s + if TakesWokenUp s a then 1 else 0 := by
  obtain ⟨_, ht⟩ := step_trans hs
  have hzero : ¬ TakesWokenUp s a → drift s' = drift s →
      drift s' = drift s + if TakesWokenUp s a then 1 else 0 := by
    intro hn hd
    rw [if_neg hn, hd, add_zero]
  cases ht with
  | swapped c p call outs hc hl hk ho =>
    rw [drift_swapped h hc ho]
    have : TakesWokenUp s (.swapped c) ↔ (s.proc p).wokenUp = true := by
      refine ⟨?_, fun hw => ⟨p, hc, hw⟩⟩
      rintro ⟨q, hq, hw⟩
      rw [hc] at hq
      cases hq
      exact hw
    simp [this]
  | acquire c _ _ => exact hzero id rfl
  | skip c i hlt hc hst => exact hzero id rfl
  | release c i hc hlt => exact hzero id rfl
  | setSwap b => exact hzero id rfl
  | forkFull c p hc hl hp hu => exact hzero id rfl
  | initExit c hc hl hp => exact hzero id rfl
  | pick c i hlt hc hst => exact hzero id (drift_dispatch hst)
  | yield c p hc hl hk hst =>
    exact hzero id (drift_update (p := p) (q := { s.proc p with state := .runnable }) rfl rfl
      (h.ne_suspended hc) (by simp))
  | sleep c a p hc hl hp => exact hzero id (drift_sleep h hc _ _)
  | wait c p hc hl hp => exact hzero id (drift_waitLoop h hc)
  | waitMore c p hc hl hk => exact hzero id (drift_waitLoop h hc)
  | exit c p hc hl hp hne =>
    have ht := touch_orphan h.swapperIn p
    have hst := (h.touch ht).ne_suspended (c := c) (p := p) (by rw [ht.cpu]; exact hc)
    refine hzero id (Eq.trans ?_ (drift_touch ht))
    rw [exit_eq]
    generalize orphan s p = s1 at hst
    exact drift_update (p := p) (q := { s1.proc p with state := .zombie }) rfl rfl hst (by simp)
  | fork c p np hc hl hp hu =>
    have hst : (s.proc np).state = .unused := by simpa using List.find?_some hu
    exact hzero id (drift_update (p := np)
      (q := { s.proc np with state := .embryo, pid := s.nextpid }) rfl rfl (by simp [hst])
      (by simp))
  | forked c ok p np hc hk hn =>
    have hst := h.child p np hn
    cases ok
    · exact hzero id (drift_update (p := np) (q := { s.proc np with state := .unused }) rfl rfl
        (by simp [hst]) (by simp))
    · exact hzero id (drift_update (p := np)
        (q := { s.proc np with parent := some p, state := .runnable }) rfl rfl
        (by simp [hst]) (by simp))
  | wakeup a hl => exact hzero id (drift_touch (touch_wakeup1 _ h.swapperIn))
  | kill c pid p hc hl hp => exact hzero id (drift_touch (touch_kill h.swapperIn pid))
  | swapIn c ok s' hc hk hs => exact hzero id (drift_swapIn h hc hs)

theorem drift_boot : drift boot = 0 := by decide

/-- In a run in which `sleep` never takes the woken branch the counter is never behind. -/
theorem Reachable.drift_eq_zero {s : Sys} (h : Reachable CountOk s) : drift s = 0 := by
  have hI : (s.mode = .run → Inv s) ∧ drift s = 0 := by
    refine Reaches.invariant (I := fun s => (s.mode = .run → Inv s) ∧ drift s = 0) ?_ h
      ⟨fun _ => Inv.boot, drift_boot⟩
    rintro s a s' ⟨hinv, hd⟩ hok hs
    have hs0 := hinv (step_trans hs).1
    refine ⟨hs0.step hs, ?_⟩
    rw [drift_step hs0 hs, hd, if_neg hok]
    rfl
  exact hI.2

/-- **The counter**: in every state of a run in which no process is woken while it is being
swapped out, `swappedout` is the number of processes in `RUNNABLE_SUSPENDED`; and from there
a step keeps it so exactly if it does not take the woken branch of `sleep`. -/
theorem swappedout_eq_suspended {s : Sys} (h : Reachable CountOk s) :
    s.swappedout = s.suspended ∧
      ∀ a s', step s a = some s' → (s'.swappedout = s'.suspended ↔ CountOk s a) := by
  have hd := h.drift_eq_zero
  have heq : s.swappedout = s.suspended := by
    unfold drift at hd
    omega
  refine ⟨heq, fun a s' hs => ?_⟩
  have hstep := drift_step (h.inv (step_trans hs).1) hs
  rw [hd] at hstep
  unfold drift CountOk at *
  split_ifs at hstep with hw
  · simp only [hw, not_true_eq_false, iff_false]
    omega
  · simp only [hw, not_false_eq_true, iff_true]
    omega

/-! ### A run -/

/-- Init starts on CPU 0 and forks twice; the inswapper starts on CPU 1, finds nothing to swap
in and goes to sleep; the children, with pids 3 and 4, run on CPUs 1 and 2; then one of them
turns swapping on. -/
def warmUp : List Act :=
  [.acquire 0, .scan 0, .fork 0, .forked 0 true, .fork 0, .forked 0 true,
    .acquire 1, .scan 1, .scan 1] ++ List.replicate 68 (.swapIn 1 true) ++
  [.scan 1, .acquire 2, .scan 2, .scan 2, .scan 2, .scan 2, .setSwap true]

/-- Process 4 is swapped out, then woken: one process is suspended and the counter says so. -/
theorem swappedout_eq_suspended_woken : ∃ s, Reachable CountOk s ∧ s.lock = none ∧
    s.suspended = 1 ∧ s.swappedout = s.suspended := by
  obtain ⟨s, hs, hp⟩ := reaches_of_exec step CountOk boot
    (warmUp ++ [.sleep 2 7, .swapped 2] ++ List.replicate 61 (.scan 2) ++ [.wakeup 7])
    (fun s => decide (s.lock = none ∧ s.suspended = 1)) (by decide +kernel)
  obtain ⟨h1, h2⟩ := of_decide_eq_true hp
  exact ⟨s, hs, h1, h2, (swappedout_eq_suspended hs).1⟩

/-- Process 4 is woken while it is being swapped out: it ends up in `RUNNABLE_SUSPENDED` and
the counter stays `0`. -/
theorem swappedout_behind : ¬ ∀ s, Reachable Always s → s.lock = none →
    s.swappedout = s.suspended := by
  obtain ⟨s, hs, hp⟩ := reaches_of_exec step Always boot
    (warmUp ++ [.sleep 2 7, .wakeup 7, .swapped 2] ++ List.replicate 61 (.scan 2))
    (fun s => decide (s.lock = none ∧ s.swappedout ≠ s.suspended)) (by decide +kernel)
  obtain ⟨h1, h2⟩ := of_decide_eq_true hp
  intro h
  exact h2 (h s hs h1)

end Xv6.Sched
