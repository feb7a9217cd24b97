import Xv6.Sched.Trans

/-! # What holds in every run

`Inv` is the invariant that needs no condition on the run. `Fits` relates the state of a
process to where it is: a process in `RUNNABLE_SUSPENDED` or `SLEEPING_SUSPENDED` is in
`sched()`, called from `sleep`; an executing process is `RUNNING`, `SLEEPING` (in `swapOut`,
or the inswapper on its way into `sched`) or `RUNNABLE` (after one of the unguarded writes to
its state). The slot the inswapper works on stays in `RUNNABLE_SUSPENDED` until `swapIn`
itself changes it. -/

namespace Xv6.Sched

open Runs Function Option

/-- The process is on a CPU. -/
def Ctl.executing : Ctl → Bool
  | .exec => true
  | .wait => true
  | _ => false

/-- The slot the inswapper is swapping in. -/
def Phase.target : Phase → Option Slot
  | .opening t => some t
  | .allocating t => some t
  | .loading t => some t
  | _ => none

/-- The states a process may have where it is. -/
def StateFits (p : Proc) : Ctl → Prop
  | .fresh => p.state = .unused ∨ p.state = .embryo ∨ p.state = .runnable
  | .exec => p.state = .running ∨ p.state = .sleeping ∨ p.state = .runnable
  | .wait => p.state = .running
  | .sleep _ => p.state = .sleeping ∨ p.state = .runnable ∨ p.state = .sleepingSuspended ∨
      p.state = .runnableSuspended
  | .yield => p.state = .runnable
  | .exit => p.state = .zombie ∨ p.state = .unused
  | .swapIn => p.state = .sleeping ∨ p.state = .runnable

/-- The inswapper has pid 2, so that `sleep` never swaps it out, and never exits. -/
structure SwapperFits (p : Proc) (t : Thread) : Prop where
  pid : p.pid = 2
  outs : t.outs = []
  exit : t.ctl ≠ .exit
  wait : t.ctl ≠ .wait
  call : ∀ call, t.ctl = .sleep call → call.wait = false
  state : p.state = .running ∨ p.state = .sleeping ∨ p.state = .runnable

structure Fits (i : Slot) (p : Proc) (t : Thread) : Prop where
  state : StateFits p t.ctl
  swapIn : t.ctl = .swapIn → i = inswapper
  swapper : i = inswapper → SwapperFits p t

structure Inv (s : Sys) : Prop where
  fits : ∀ i, Fits i (s.proc i) (s.thr i)
  onCpu : ∀ c i, s.cpu c = .run i → (s.thr i).ctl.executing = true
  uniq : ∀ c c' i, s.cpu c = .run i → s.cpu c' = .run i → c = c'
  child : ∀ p np, (s.thr p).child = some np → (s.proc np).state = .embryo
  childInj : ∀ p q np, (s.thr p).child = some np → (s.thr q).child = some np → p = q
  target : ∀ t, s.phase.target = some t → (s.proc t).state = .runnableSuspended
  atSched : s.phase = .sched → (s.thr inswapper).ctl = .exec ∧
    ((s.proc inswapper).state = .sleeping ∨ (s.proc inswapper).state = .runnable)

namespace Inv
variable {s s' : Sys} {p q : Slot} {c : ℕ}

section
variable (h : Inv s)
include h

theorem swapperFits : SwapperFits (s.proc inswapper) (s.thr inswapper) :=
  (h.fits inswapper).swapper rfl

theorem swapperIn : s.SwapperIn := by
  rcases h.swapperFits.state with e | e | e <;> simp [Sys.SwapperIn, e]

theorem executing_state (hp : (s.thr p).ctl.executing = true) :
    (s.proc p).state = .running ∨ (s.proc p).state = .sleeping ∨
      (s.proc p).state = .runnable := by
  have hf := (h.fits p).state
  cases hk : (s.thr p).ctl with
  | exec => rw [hk] at hf; exact hf
  | wait => rw [hk] at hf; exact .inl hf
  | _ => rw [hk] at hp; cases hp

theorem running_state (hc : s.cpu c = .run p) :
    (s.proc p).state = .running ∨ (s.proc p).state = .sleeping ∨
      (s.proc p).state = .runnable :=
  h.executing_state (h.onCpu c p hc)

/-- Entries outside the control of `p` when `p` executes. -/
theorem ne_of_running (hc : s.cpu c = .run p)
    (hq : (s.proc q).state = .embryo ∨ (s.proc q).state = .runnableSuspended) : q ≠ p := by
  rintro rfl
  rcases h.running_state hc with e | e | e <;> simp [e] at hq

/-- The loops of `wakeup1`, `kill` and `exit` keep the invariant. -/
theorem touch (ht : Touch s s') : Inv s' := by
  have hne : ∀ {i}, ((s.proc i).state = .embryo ∨ (s.proc i).state = .runnableSuspended) →
      (s'.proc i).state = (s.proc i).state := by
    intro i hi
    refine ht.state_eq ?_ ?_ ?_
    · rintro rfl
      rcases h.swapperFits.state with e | e | e <;> simp [e] at hi
    · rcases hi with e | e <;> simp [e]
    · rcases hi with e | e <;> simp [e]
  refine ⟨fun i => ?_, ?_, ?_, ?_, ?_, ?_, ?_⟩
  · rw [ht.thr]
    obtain ⟨h1, h2, h3⟩ := h.fits i
    have hw := ht.proc i
    have hsw : i = inswapper → SwapperFits (s'.proc i) (s.thr i) := by
      intro hi
      obtain ⟨g1, g2, g3, g4, g6, g5⟩ := h3 hi
      refine ⟨hw.pid.trans g1, g2, g3, g4, g6, ?_⟩
      rcases hw.state with e | ⟨_, e⟩ | ⟨e, _⟩ | ⟨_, e⟩
      · rw [e]; exact g5
      · exact .inr (.inr e)
      · rcases g5 with g | g | g <;> simp [e] at g
      · exact .inr (.inr e)
    refine ⟨?_, h2, hsw⟩
    by_cases hi : i = inswapper
    · obtain ⟨_, _, g3, g4, _, g5⟩ := h3 hi
      rcases hw.state with e | ⟨_, e⟩ | ⟨e, _⟩ | ⟨_, e⟩
      · cases hk : (s.thr i).ctl <;> simp_all [StateFits]
      · cases hk : (s.thr i).ctl <;> simp_all [StateFits]
      · rcases g5 with g | g | g <;> simp [e] at g
      · cases hk : (s.thr i).ctl <;> simp_all [StateFits]
    · rcases hw.state with e | ⟨e, e'⟩ | ⟨e, e'⟩ | ⟨e, _⟩
      · cases hk : (s.thr i).ctl <;> simp_all [StateFits]
      · cases hk : (s.thr i).ctl <;> simp_all [StateFits]
      · cases hk : (s.thr i).ctl <;> simp_all [StateFits]
      · exact absurd e hi
  · rw [ht.cpu, ht.thr]; exact h.onCpu
  · rw [ht.cpu]; exact h.uniq
  · intro p np hp
    rw [ht.thr] at hp
    have := h.child p np hp
    rw [hne (.inl this)]; exact this
  · rw [ht.thr]; exact h.childInj
  · intro t hp
    rw [ht.phase] at hp
    have := h.target t hp
    rw [hne (.inr this)]; exact this
  · intro hp
    rw [ht.phase] at hp
    obtain ⟨h1, h2⟩ := h.atSched hp
    refine ⟨by rw [ht.thr]; exact h1, ?_⟩
    rcases (ht.proc inswapper).state with e | ⟨_, e⟩ | ⟨e, _⟩ | ⟨_, e⟩
    · rw [e]; exact h2
    · exact .inr e
    · rcases h2 with g | g <;> simp [e] at g
    · exact .inr e

/-- A step that only writes the executing process's own entry and control state, and either
leaves it on its CPU or takes it off. -/
theorem own {q : Proc} {t : Thread} (hc : s.cpu c = .run p)
    (hproc : s'.proc = update s.proc p q) (hthr : s'.thr = update s.thr p t)
    (hcpu : ∀ c' i, s'.cpu c' = .run i → s.cpu c' = .run i ∧ (i = p → t.ctl.executing = true))
    (hfits : Fits p q t) (hchild : t.child = (s.thr p).child)
    (hphase : s'.phase.target = s.phase.target ∨ s'.phase.target = none)
    (hsched : s'.phase = .sched → s.phase = .sched ∧ p ≠ inswapper ∨
      p = inswapper ∧ t.ctl = .exec ∧ q.state = .sleeping) : Inv s' := by
  have hchild' : ∀ i, (s'.thr i).child = (s.thr i).child := by
    intro i
    rw [hthr]
    by_cases hi : i = p
    · subst hi; simpa using hchild
    · simp [hi]
  refine ⟨fun i => ?_, fun c' i hi => ?_, fun c1 c2 i h1 h2 => ?_, fun i np hi => ?_,
    fun i j np hi hj => ?_, fun x hx => ?_, fun hx => ?_⟩
  · rw [hproc, hthr]
    by_cases hi : i = p
    · subst hi; simpa using hfits
    · simpa [hi] using h.fits i
  · obtain ⟨h1, h2⟩ := hcpu c' i hi
    rw [hthr]
    by_cases hip : i = p
    · subst hip; simpa using h2 rfl
    · simpa [hip] using h.onCpu c' i h1
  · exact h.uniq c1 c2 i (hcpu _ _ h1).1 (hcpu _ _ h2).1
  · rw [hchild'] at hi
    have he := h.child i np hi
    rw [hproc, update_of_ne (h.ne_of_running hc (.inl he))]
    exact he
  · rw [hchild'] at hi hj
    exact h.childInj i j np hi hj
  · have hx' : s.phase.target = some x := by
      rcases hphase with e | e <;> rw [e] at hx
      · exact hx
      · cases hx
    have he := h.target x hx'
    rw [hproc, update_of_ne (h.ne_of_running hc (.inr he))]
    exact he
  · rw [hproc, hthr]
    rcases hsched hx with ⟨h1, h2⟩ | ⟨rfl, h1, h2⟩
    · simpa [h2.symm] using h.atSched h1
    · simp [h1, h2]

/-- Entering `sched()`; the inswapper does so from `swapIn` elsewhere. -/
theorem sched {f : Proc → Proc} {k : Ctl}
    (hc : s.cpu c = .run p) (hf : Fits p (f (s.proc p)) { s.thr p with ctl := k })
    (hp : p = inswapper → s.phase ≠ .sched) : Inv ((s.setProc p f).sched c p k) := by
  refine h.own hc (q := f (s.proc p)) (t := { s.thr p with ctl := k }) ?_ ?_ ?_ hf rfl (.inl rfl)
    fun e => .inl ⟨e, fun hi => hp hi e⟩
  · rfl
  · rfl
  · intro c' i hi
    have hcc : c' ≠ c := by
      rintro rfl
      simp [Sys.sched] at hi
    have hi' : s.cpu c' = .run i := by simpa [Sys.sched, hcc] using hi
    refine ⟨hi', ?_⟩
    rintro rfl
    exact absurd (h.uniq c' c i hi' hc) hcc

/-- A step of the scheduler that runs no process on `c`. -/
theorem setCpu {k : Cpu} (hk : ∀ i, k ≠ .run i) (l : Option ℕ) : Inv { s.setCpu c k with lock := l } := by
  have hcpu : ∀ c' i, update s.cpu c k c' = .run i → s.cpu c' = .run i := by
    intro c' i hi
    by_cases hcc : c' = c
    · subst hcc
      exact absurd (by simpa using hi) (hk i)
    · simpa [hcc] using hi
  exact ⟨h.fits, fun c' i hi => h.onCpu c' i (hcpu c' i hi),
    fun c1 c2 i h1 h2 => h.uniq c1 c2 i (hcpu _ _ h1) (hcpu _ _ h2), h.child, h.childInj, h.target,
    h.atSched⟩

theorem congr (hproc : s'.proc = s.proc) (hthr : s'.thr = s.thr)
    (hcpu : s'.cpu = s.cpu) (hphase : s'.phase.target = s.phase.target ∨ s'.phase.target = none)
    (hsched : s'.phase = .sched → s.phase = .sched) : Inv s' := by
  refine ⟨by rw [hproc, hthr]; exact h.fits, by rw [hcpu, hthr]; exact h.onCpu,
    by rw [hcpu]; exact h.uniq, by rw [hproc, hthr]; exact h.child,
    by rw [hthr]; exact h.childInj, fun x hx => ?_, fun hx => ?_⟩
  · rw [hproc]
    rcases hphase with e | e <;> rw [e] at hx
    · exact h.target x hx
    · cases hx
  · rw [hproc, hthr]
    exact h.atSched (hsched hx)

/-- A scheduler starts a process that was off the CPUs. -/
theorem start {i : ℕ} {q : Proc} {t : Thread} (hc : s.cpu c = .scan i)
    (hp : (s.proc p).state = .runnable) (hk : (s.thr p).ctl.executing = false)
    (hproc : s'.proc = update s.proc p q) (hthr : s'.thr = update s.thr p t)
    (hcpu : s'.cpu = update s.cpu c (.run p)) (hfits : Fits p q t)
    (ht : t.ctl.executing = true) (hchild : t.child = (s.thr p).child)
    (hphase : s'.phase = s.phase) : Inv s' := by
  have hoff : ∀ c', s.cpu c' ≠ .run p := by
    intro c' h'
    rw [h.onCpu c' p h'] at hk
    cases hk
  have hrun : ∀ c' j, s'.cpu c' = .run j → c' = c ∧ j = p ∨ s.cpu c' = .run j ∧ j ≠ p := by
    intro c' j hj
    rw [hcpu] at hj
    by_cases hcc : c' = c
    · subst hcc
      simp only [update_self, Cpu.run.injEq] at hj
      exact .inl ⟨rfl, hj.symm⟩
    · rw [update_of_ne hcc] at hj
      exact .inr ⟨hj, by rintro rfl; exact hoff c' hj⟩
  have hchild' : ∀ j, (s'.thr j).child = (s.thr j).child := by
    intro j
    rw [hthr]
    by_cases hj : j = p
    · subst hj; simpa using hchild
    · simp [hj]
  refine ⟨fun j => ?_, fun c' j hj => ?_, fun c1 c2 j h1 h2 => ?_, fun j np hj => ?_,
    fun j k np hj hk' => ?_, fun x hx => ?_, fun hx => ?_⟩
  · rw [hproc, hthr]
    by_cases hj : j = p
    · subst hj; simpa using hfits
    · simpa [hj] using h.fits j
  · rw [hthr]
    rcases hrun c' j hj with ⟨_, rfl⟩ | ⟨h1, h2⟩
    · simpa using ht
    · simpa [h2] using h.onCpu c' j h1
  · rcases hrun c1 j h1 with ⟨rfl, rfl⟩ | ⟨g1, g2⟩
    · rcases hrun c2 j h2 with ⟨rfl, _⟩ | ⟨_, g⟩
      · rfl
      · exact absurd rfl g
    · rcases hrun c2 j h2 with ⟨_, rfl⟩ | ⟨g, _⟩
      · exact absurd rfl g2
      · exact h.uniq c1 c2 j g1 g
  · rw [hchild'] at hj
    have he := h.child j np hj
    rw [hproc, update_of_ne (by rintro rfl; simp [hp] at he)]
    exact he
  · rw [hchild'] at hj hk'
    exact h.childInj j k np hj hk'
  · rw [hphase] at hx
    have he := h.target x hx
    rw [hproc, update_of_ne (by rintro rfl; simp [hp] at he)]
    exact he
  · rw [hphase] at hx
    obtain ⟨h1, h2⟩ := h.atSched hx
    have hne : inswapper ≠ p := by
      rintro rfl
      simp [h1, Ctl.executing] at hk
    rw [hproc, hthr, update_of_ne hne, update_of_ne hne]
    exact ⟨h1, h2⟩

/-- A step that writes the entry of a process that is neither being created nor swapped in. -/
theorem other {f : Proc → Proc} (hne : inswapper ≠ q)
    (hq : (s.proc q).state ≠ .embryo ∧ (s.proc q).state ≠ .runnableSuspended)
    (hfits : Fits q (f (s.proc q)) (s.thr q)) : Inv (s.setProc q f) := by
  refine ⟨fun i => ?_, h.onCpu, h.uniq, fun i np hi => ?_, h.childInj, fun x hx => ?_, fun hx => ?_⟩
  · by_cases hi : i = q
    · subst hi; simpa using hfits
    · simpa [hi] using h.fits i
  · have he := h.child i np hi
    rw [Sys.setProc_proc, update_of_ne (by rintro rfl; exact hq.1 he)]
    exact he
  · have he := h.target x hx
    rw [Sys.setProc_proc, update_of_ne (by rintro rfl; exact hq.2 he)]
    exact he
  · rw [Sys.setProc_proc, update_of_ne hne]
    exact h.atSched hx

end

/-! ### The steps -/

theorem sleep (h : Inv s) (hc : s.cpu c = .run p) (chan : Chan) {w : Bool}
    (hw : p = inswapper → w = false ∧ s.phase ≠ .sched) : Inv (sleep s c p chan w) := by
  unfold Sched.sleep
  dsimp only
  split_ifs with hsw
  · have hne : p ≠ inswapper := by
      rintro rfl
      have := h.swapperFits.pid
      simp at hsw
      omega
    refine h.own hc (q := { s.proc p with
        chan := chan, state := .sleeping, wokenUp := false, swappingOut := true })
      (t := { s.thr p with ctl := .exec, outs := ⟨s.calls, chan, w⟩ :: (s.thr p).outs })
      (by simp) rfl (fun c' i hi => ⟨hi, fun _ => rfl⟩) ?_ rfl (.inl rfl) fun e => .inl ⟨e, hne⟩
    exact ⟨.inr (.inl rfl), nofun, fun h => absurd h hne⟩
  · refine (h.sched hc (f := fun q => { q with chan := chan, state := .sleeping })
      (k := .sleep ⟨s.calls, chan, w⟩) ?_ fun e => (hw e).2).congr rfl rfl rfl (.inl rfl) id
    refine ⟨.inl rfl, nofun, ?_⟩
    rintro rfl
    obtain ⟨g1, g2, _, _, _, _⟩ := h.swapperFits
    exact ⟨g1, g2, by simp, by simp, by simpa using (hw rfl).1, .inr (.inl rfl)⟩

theorem swapped (h : Inv s) {call : Call} {outs : List Call}
    (hc : s.cpu c = .run p) (ho : (s.thr p).outs = call :: outs) :
    Inv (swapped s c p call outs) := by
  have hne : p ≠ inswapper := by
    rintro rfl
    rw [h.swapperFits.outs] at ho
    cases ho
  have hleave : ∀ (s' : Sys) (f : Proc → Proc), Inv s' → s'.cpu = s.cpu → s'.thr = s.thr →
      ((f (s'.proc p)).state = .sleepingSuspended ∨ (f (s'.proc p)).state = .runnableSuspended) →
      Inv (((s'.setProc p f).setThr p fun t => { t with outs := outs }).sched c p
        (.sleep call)) := by
    intro s' f hs' hcpu hthr hq
    refine hs'.own (c := c) (p := p) (q := f (s'.proc p))
      (t := { s.thr p with ctl := .sleep call, outs := outs })
      (by rw [hcpu]; exact hc) rfl (by simp [Sys.sched, hthr]) ?_ ?_ (by rw [hthr]) (.inl rfl)
      fun e => .inl ⟨e, hne⟩
    · intro c' i hi
      have hcc : c' ≠ c := by
        rintro rfl
        simp [Sys.sched] at hi
      have hi' : s'.cpu c' = .run i := by simpa [Sys.sched, hcc] using hi
      refine ⟨hi', ?_⟩
      rintro rfl
      rw [hcpu] at hi'
      exact absurd (h.uniq c' c i hi' hc) hcc
    · exact ⟨by rcases hq with e | e <;> simp [StateFits, e], nofun,
        fun h => absurd h hne⟩
  by_cases hw : (s.proc p).wokenUp = true
  · rw [swapped_of_woken hne hw]
    exact hleave _ _ (h.touch (.setRunnable h.swapperIn (.inr rfl))) rfl rfl (.inr rfl)
  · rw [swapped_of_not_woken hw]
    exact hleave s _ h rfl rfl (.inl rfl)

theorem zombieChild_some (hq : zombieChild s p = some q) :
    (s.proc q).parent = some p ∧ (s.proc q).state = .zombie := by
  simpa using List.find?_some hq

theorem waitLoop (h : Inv s) (hc : s.cpu c = .run p) (hp : p ≠ inswapper) : Inv (waitLoop s c p) := by
  have hexec : ∀ s' : Sys, Inv s' → s'.cpu = s.cpu → s'.thr = s.thr →
      (s'.proc p).state = (s.proc p).state →
      Inv { s'.setCtl p .exec with lock := none } := by
    intro s' hs' hcpu hthr hst
    refine hs'.own (c := c) (p := p) (q := s'.proc p) (t := { s'.thr p with ctl := .exec })
      (by rw [hcpu]; exact hc) (by simp) rfl (fun c' i hi => ⟨hi, fun _ => rfl⟩) ?_ rfl (.inl rfl)
      fun e => .inl ⟨e, hp⟩
    refine ⟨?_, nofun, fun h => absurd h hp⟩
    have := h.running_state hc
    rw [← hst] at this
    exact this
  unfold Sched.waitLoop
  split
  · rename_i q hq
    obtain ⟨_, hz⟩ := zombieChild_some hq
    have hne : p ≠ q := by
      rintro rfl
      rcases h.running_state hc with e | e | e <;> simp [e] at hz
    have hsw : q ≠ inswapper := by
      rintro rfl
      rcases h.swapperFits.state with e | e | e <;> simp [e] at hz
    refine hexec _ (h.other (Ne.symm hsw) (by simp [hz]) ?_) rfl rfl (by simp [hne])
    obtain ⟨g1, g2, _⟩ := h.fits q
    refine ⟨?_, g2, fun h => absurd h hsw⟩
    cases hk : (s.thr q).ctl <;> simp_all [StateFits]
  · split_ifs
    · exact hexec s h rfl rfl rfl
    · exact h.sleep hc _ fun e => absurd e hp

theorem exit (h : Inv s) (hc : s.cpu c = .run p) (hp : p ≠ inswapper) : Inv (exit s c p) := by
  have ht := touch_orphan h.swapperIn p
  rw [exit_eq]
  refine (h.touch ht).sched (by rw [ht.cpu]; exact hc) ?_ fun e => absurd e hp
  exact ⟨.inl rfl, nofun, fun h => absurd h hp⟩

theorem dispatch (h : Inv s) {i : ℕ} (hc : s.cpu c = .scan i)
    (hp : (s.proc p).state = .runnable) (hm : (dispatch s c p).mode = .run) :
    Inv (dispatch s c p) := by
  obtain ⟨ch, k, hproc, hthr, hk⟩ := dispatch_slot s c p
  obtain ⟨hx, hw, hk⟩ := hk hm
  obtain ⟨_, g2, g3⟩ := h.fits p
  have hfits : Fits p { s.proc p with state := .running, chan := ch } { s.thr p with ctl := k } := by
    rcases hk with rfl | ⟨rfl, call, hcall, hwait⟩
    · refine ⟨.inl rfl, nofun, fun e => ?_⟩
      obtain ⟨k1, k2, _, _, _, _⟩ := g3 e
      exact ⟨k1, k2, by simp, by simp, by simp, .inl rfl⟩
    · refine ⟨rfl, nofun, fun e => ?_⟩
      rw [(g3 e).call call hcall] at hwait
      cases hwait
  refine h.start hc hp ?_ hproc hthr (dispatch_cpu s c p) hfits ?_ rfl (dispatch_phase s c p)
  · cases hk' : (s.thr p).ctl <;> simp_all [Ctl.executing]
  · rcases hk with rfl | ⟨rfl, _⟩ <;> rfl

theorem alloc (h : Inv s) {np : Slot} (hc : s.cpu c = .run p)
    (hp : (s.thr p).child = none) (hu : unusedSlot s = some np) : Inv (alloc s p np) := by
  have hst : (s.proc np).state = .unused := by simpa using List.find?_some hu
  have hsw : np ≠ inswapper := by
    rintro rfl
    rcases h.swapperFits.state with e | e | e <;> simp [e] at hst
  have hne : np ≠ p := by
    rintro rfl
    rcases h.running_state hc with e | e | e <;> simp [e] at hst
  have hthr : ∀ i, i ≠ np → ((Sched.alloc s p np).thr i).ctl = (s.thr i).ctl ∧
      ((Sched.alloc s p np).thr i).outs = (s.thr i).outs := by
    intro i hi
    by_cases hip : i = p
    · subst hip; simp [Sched.alloc, hi]
    · simp [Sched.alloc, hi, hip]
  have hchild : ∀ i x, ((Sched.alloc s p np).thr i).child = some x →
      i = p ∧ x = np ∨ (s.thr i).child = some x ∧ x ≠ np ∧ i ≠ p := by
    intro i x hi
    by_cases hip : i = p
    · subst hip
      simp only [Sched.alloc, Sys.setThr_thr, update_self, some.injEq] at hi
      exact .inl ⟨rfl, hi.symm⟩
    · by_cases hin : i = np
      · subst hin
        simp [Sched.alloc, hip] at hi
      · have hi' : (s.thr i).child = some x := by simpa [Sched.alloc, hin, hip] using hi
        refine .inr ⟨hi', ?_, hip⟩
        rintro rfl
        have := h.child i x hi'
        simp [hst] at this
  refine ⟨fun i => ?_, fun c' i hi => ?_, h.uniq, fun i x hi => ?_, fun i j x hi hj => ?_,
    fun x hx => ?_, fun hx => ?_⟩
  · by_cases hi : i = np
    · subst hi
      refine ⟨?_, ?_, fun h => absurd h hsw⟩ <;> simp [Sched.alloc, hne, StateFits]
    · obtain ⟨g1, g2, g3⟩ := h.fits i
      obtain ⟨e1, e2⟩ := hthr i hi
      have e3 : (Sched.alloc s p np).proc i = s.proc i := by simp [Sched.alloc, hi]
      refine ⟨by rw [e1, e3]; exact g1, by rw [e1]; exact g2, fun hsi => ?_⟩
      obtain ⟨k1, k2, k3, k4, k5, k6⟩ := g3 hsi
      rw [e3]
      exact ⟨k1, by rw [e2]; exact k2, by rw [e1]; exact k3, by rw [e1]; exact k4,
        by rw [e1]; exact k5, k6⟩
  · have hi' : s.cpu c' = .run i := hi
    have hin : i ≠ np := by
      rintro rfl
      rcases h.running_state hi' with e | e | e <;> simp [e] at hst
    rw [(hthr i hin).1]
    exact h.onCpu c' i hi'
  · rcases hchild i x hi with ⟨_, rfl⟩ | ⟨h1, h2, _⟩
    · simp [Sched.alloc]
    · have := h.child i x h1
      simpa [Sched.alloc, h2] using this
  · rcases hchild i x hi with ⟨rfl, rfl⟩ | ⟨h1, h2, h3⟩
    · rcases hchild j x hj with ⟨rfl, _⟩ | ⟨_, g, _⟩
      · rfl
      · exact absurd rfl g
    · rcases hchild j x hj with ⟨_, rfl⟩ | ⟨g1, _, _⟩
      · exact absurd rfl h2
      · exact h.childInj i j x h1 g1
  · have he := h.target x hx
    have hxn : x ≠ np := by
      rintro rfl
      simp [hst] at he
    simpa [Sched.alloc, hxn] using he
  · rw [(hthr inswapper hsw.symm).1]
    simpa [Sched.alloc, hsw.symm] using h.atSched hx

theorem forked (h : Inv s) {np : Slot} (hn : (s.thr p).child = some np) (ok : Bool) :
    Inv (forked s p np ok) := by
  have hst := h.child p np hn
  have hsw : np ≠ inswapper := by
    rintro rfl
    rcases h.swapperFits.state with e | e | e <;> simp [e] at hst
  have hfresh : (s.thr np).ctl = .fresh := by
    have := (h.fits np).state
    cases hk : (s.thr np).ctl <;> simp_all [StateFits]
  have hproc : ∀ i, i ≠ np → (Sched.forked s p np ok).proc i = s.proc i := by
    intro i hi
    cases ok <;> simp [Sched.forked, hi]
  have hnew : ((Sched.forked s p np ok).proc np).state = .runnable ∨
      ((Sched.forked s p np ok).proc np).state = .unused := by
    cases ok <;> simp [Sched.forked]
  have hthr : (Sched.forked s p np ok).thr = update s.thr p { s.thr p with child := none } := by
    cases ok <;> rfl
  have hctl : ∀ i, ((Sched.forked s p np ok).thr i).ctl = (s.thr i).ctl ∧
      ((Sched.forked s p np ok).thr i).outs = (s.thr i).outs := by
    intro i
    rw [hthr]
    by_cases hi : i = p
    · subst hi; simp
    · simp [hi]
  have hchild : ∀ i x, ((Sched.forked s p np ok).thr i).child = some x →
      (s.thr i).child = some x ∧ x ≠ np := by
    intro i x hi
    rw [hthr] at hi
    have hip : i ≠ p := by
      rintro rfl
      simp at hi
    rw [update_of_ne hip] at hi
    refine ⟨hi, ?_⟩
    rintro rfl
    exact hip (h.childInj i p x hi hn)
  have hcpu : (Sched.forked s p np ok).cpu = s.cpu := by cases ok <;> rfl
  have hphase : (Sched.forked s p np ok).phase = s.phase := by cases ok <;> rfl
  refine ⟨fun i => ?_, fun c' i hi => ?_, by rw [hcpu]; exact h.uniq, fun i x hi => ?_,
    fun i j x hi hj => ?_, fun x hx => ?_, fun hx => ?_⟩
  · obtain ⟨g1, g2, g3⟩ := h.fits i
    obtain ⟨e1, e2⟩ := hctl i
    by_cases hi : i = np
    · subst hi
      refine ⟨?_, by rw [e1]; exact g2, fun h => absurd h hsw⟩
      rw [e1, hfresh]
      rcases hnew with e | e <;> simp [StateFits, e]
    · rw [hproc i hi]
      refine ⟨by rw [e1]; exact g1, by rw [e1]; exact g2, fun hsi => ?_⟩
      obtain ⟨k1, k2, k3, k4, k5, k6⟩ := g3 hsi
      exact ⟨k1, by rw [e2]; exact k2, by rw [e1]; exact k3, by rw [e1]; exact k4,
        by rw [e1]; exact k5, k6⟩
  · rw [hcpu] at hi
    rw [(hctl i).1]
    exact h.onCpu c' i hi
  · obtain ⟨h1, h2⟩ := hchild i x hi
    rw [hproc x h2]
    exact h.child i x h1
  · exact h.childInj i j x (hchild i x hi).1 (hchild j x hj).1
  · rw [hphase] at hx
    have he := h.target x hx
    have hxn : x ≠ np := by
      rintro rfl
      simp [hst] at he
    rw [hproc x hxn]
    exact he
  · rw [hphase] at hx
    rw [hproc inswapper hsw.symm, (hctl inswapper).1]
    exact h.atSched hx

/-- The position after `fileopen` or `allocuvm` works on the same slot, or on none. -/
theorem swapIn (h : Inv s) {ok : Bool} (hc : s.cpu c = .run inswapper)
    (hs : swapIn s c ok = some s') (hm : s'.mode = .run) : Inv s' := by
  have hexec : (s.thr inswapper).ctl = .exec := by
    have hx := h.onCpu c _ hc
    have hw := h.swapperFits.wait
    cases hk : (s.thr inswapper).ctl <;> simp_all [Ctl.executing]
  unfold Sched.swapIn at hs
  split at hs
  · rename_i i _
    split at hs
    · rename_i hlt
      split at hs
      · cases hs
        exact h.congr rfl rfl rfl (.inr rfl) nofun
      · rename_i hst
        cases hs
        refine ⟨h.fits, h.onCpu, h.uniq, h.child, h.childInj, fun x hx => ?_, nofun⟩
        obtain rfl : (⟨i, hlt⟩ : Slot) = x := some.inj hx
        simpa using hst
    · cases hs
      exact h.congr rfl rfl rfl (.inr rfl) nofun
  · rename_i t hph
    cases hs
    cases ok
    · exact h.congr rfl rfl rfl (.inr rfl) nofun
    · exact h.congr rfl rfl rfl (.inl (by simp [hph, Phase.target])) nofun
  · rename_i t hph
    cases hs
    cases ok
    · exact h.congr rfl rfl rfl (.inr rfl) nofun
    · exact h.congr rfl rfl rfl (.inl (by simp [hph, Phase.target])) nofun
  · rename_i t hph
    split_ifs at hs
    cases hs
    have he := h.target t (by simp [hph, Phase.target])
    have hsw : t ≠ inswapper := by
      rintro rfl
      rcases h.swapperFits.state with e | e | e <;> simp [e] at he
    obtain ⟨call, hsl⟩ : ∃ call, (s.thr t).ctl = .sleep call := by
      have := (h.fits t).state
      cases hk : (s.thr t).ctl <;> simp_all [StateFits]
    refine ⟨fun i => ?_, h.onCpu, h.uniq, fun i np hi => ?_, h.childInj, nofun, nofun⟩
    · by_cases hi : i = t
      · subst hi
        refine ⟨?_, (h.fits i).swapIn, fun h => absurd h hsw⟩
        simp [hsl, StateFits]
      · simpa [hi] using h.fits i
    · have hn := h.child i np hi
      have hnt : np ≠ t := by
        rintro rfl
        simp [he] at hn
      simpa [hnt] using hn
  · cases hs
    refine h.congr rfl rfl rfl (.inr ?_) ?_
    · dsimp only
      split_ifs <;> rfl
    · dsimp only
      split_ifs <;> nofun
  · cases hs
    refine h.own hc (q := { s.proc inswapper with chan := .proc inswapper, state := .sleeping })
      (t := s.thr inswapper) rfl (by simp) (fun c' i hi => ⟨hi, ?_⟩) ?_ rfl (.inr rfl)
      fun _ => .inr ⟨rfl, hexec, rfl⟩
    · rintro rfl
      exact h.onCpu c' _ hi
    · obtain ⟨k1, k2, k3, k4, k5, _⟩ := h.swapperFits
      refine ⟨?_, fun _ => rfl, fun _ => ⟨k1, k2, k3, k4, k5, .inr (.inl rfl)⟩⟩
      rw [hexec]
      exact .inr (.inl rfl)
  · rename_i hph
    split_ifs at hs
    · cases hs
      refine h.own hc (q := s.proc inswapper) (t := { s.thr inswapper with ctl := .swapIn })
        (by simp [Sys.sched]) rfl ?_ ?_ rfl (.inr rfl) nofun
      · intro c' i hi
        have hcc : c' ≠ c := by
          rintro rfl
          simp [Sys.sched] at hi
        have hi' : s.cpu c' = .run i := by simpa [Sys.sched, hcc] using hi
        exact ⟨hi', fun e => absurd (h.uniq c' c i hi' (by rw [e]; exact hc)) hcc⟩
      · obtain ⟨k1, k2, _, _, _, k6⟩ := h.swapperFits
        exact ⟨(h.atSched hph).2, fun _ => rfl, fun _ => ⟨k1, k2, by simp, by simp, by simp, k6⟩⟩
    · cases hs
      cases hm

/-- Every step keeps the invariant while the machine runs. -/
theorem step (h : Inv s) {a : Act} (hs : step s a = some s') (hm : s'.mode = .run) : Inv s' := by
  obtain ⟨_, ht⟩ := step_trans hs
  cases ht with
  | acquire c _ _ => exact h.setCpu (by simp) _
  | skip c i hlt hc hst => exact (h.setCpu (c := c) (k := .scan (i + 1)) (by simp) s.lock)
  | pick c i hlt hc hst => exact h.dispatch hc hst hm
  | release c i hc hlt => exact h.setCpu (by simp) _
  | yield c p hc hl hk hst =>
    refine h.sched hc (f := fun q => { q with state := .runnable }) ?_ ?_
    · refine ⟨rfl, nofun, ?_⟩
      rintro rfl
      obtain ⟨k1, k2, _, _, _, _⟩ := h.swapperFits
      exact ⟨k1, k2, by simp, by simp, by simp, .inr (.inr rfl)⟩
    · rintro rfl e
      obtain ⟨_, g | g⟩ := h.atSched e <;> simp [g] at hst
  | sleep c a p hc hl hp =>
    refine h.sleep hc _ fun e => ⟨rfl, fun e' => ?_⟩
    have := hp.2.2 e
    simp [e', Phase.blocking] at this
  | swapped c p call outs hc hl hk ho => exact h.swapped hc ho
  | wait c p hc hl hp => exact h.waitLoop hc hp.2.2.2
  | waitMore c p hc hl hk =>
    refine h.waitLoop hc ?_
    rintro rfl
    exact h.swapperFits.wait hk
  | initExit c hc hl hp => cases hm
  | exit c p hc hl hp hne => exact h.exit hc hp.2.2.2
  | forkFull c p hc hl hp hu => exact h
  | fork c p np hc hl hp hu => exact h.alloc hc hp.2.2.1 hu
  | forked c ok p np hc hk hn => exact h.forked hn ok
  | wakeup a hl => exact h.touch (touch_wakeup1 _ h.swapperIn)
  | kill c pid p hc hl hp => exact h.touch (touch_kill h.swapperIn pid)
  | setSwap b => exact h.congr rfl rfl rfl (.inl rfl) id
  | swapIn c ok s' hc hk hs => exact h.swapIn hc hs hm

theorem boot : Inv boot := by
  refine ⟨fun i => ?_, nofun, nofun, nofun, nofun, nofun, nofun⟩
  by_cases h0 : i = initproc
  · subst h0
    exact ⟨.inr (.inr rfl), nofun, fun h => absurd h (by decide)⟩
  · by_cases h1 : i = inswapper
    · subst h1
      exact ⟨.inr (.inr rfl), fun _ => rfl, fun _ => ⟨rfl, rfl, nofun, nofun, nofun, .inr (.inr rfl)⟩⟩
    · refine ⟨.inl ?_, nofun, fun h => absurd h h1⟩
      simp [Sched.boot, h0, h1]

end Inv

/-- The invariant holds in every run, as long as the machine runs. -/
theorem Reachable.inv {ok : Sys → Act → Prop} {s : Sys} (h : Reachable ok s)
    (hm : s.mode = .run) : Inv s := by
  refine Reaches.invariant (I := fun s => s.mode = .run → Inv s) ?_ h (fun _ => Inv.boot) hm
  intro s a s' hI _ hs hm
  exact (hI (step_trans hs).1).step hs hm

end Xv6.Sched
