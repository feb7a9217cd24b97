import Xv6.Sched.Counter

/-! # One CPU for one process

`scheduler` takes any process in state `RUNNABLE`, so that no process may be `RUNNABLE` while
some CPU still executes it. Three writes can break this: `kill` on a process inside `swapOut`,
whose state is `SLEEPING`; and the two places that make the inswapper `RUNNABLE` without a look
at its state, when a suspended process is woken and when `sleep` finds `wokenUp` set. In a run
without them (`SingleOk`) every process is dispatched once at a time. -/

namespace Xv6.Sched

open Runs Table Function

/-- What a process on a CPU looks like when no other CPU may start it. -/
structure OneCpu (i : Slot) (p : Proc) (t : Thread) : Prop where
  runnable : t.ctl.executing = true → p.state ≠ .runnable
  sleeping : t.ctl.executing = true → p.state = .sleeping →
    if i = inswapper then p.chan = .proc inswapper else p.swappingOut = true
  parent : p.parent ≠ some inswapper
  child : i = inswapper → t.child = none

def Single (s : Sys) : Prop := ∀ i, OneCpu i (s.proc i) (s.thr i)

/-- When the inswapper executes, no suspended process waits on `chan`. -/
def NoResume (s : Sys) (chan : Chan) : Prop :=
  (s.thr inswapper).ctl.executing = true →
    ∀ i, (s.proc i).state = .sleepingSuspended → (s.proc i).chan ≠ chan

/-- No step makes a process `RUNNABLE` that is on a CPU. -/
def SingleOk (s : Sys) (a : Act) : Prop :=
  ((s.thr inswapper).ctl.executing = true → ∀ i, (s.proc i).state = .sleepingSuspended →
    ¬ Wakes s a (s.proc i).chan (s.proc i).pid) ∧
  match a with
  | .kill _ n => ∀ i, (s.proc i).pid = n → (s.thr i).ctl.executing = true →
      (s.proc i).state ≠ .sleeping
  | .swapped c => ∀ p, s.cpu c = .run p → (s.proc p).wokenUp = true →
      (s.thr inswapper).ctl.executing = false
  | _ => True

instance (s : Sys) (a : Act) : Decidable (SingleOk s a) :=
  @instDecidableAnd _ _ inferInstance <| match a with
  | .kill _ n => inferInstanceAs (Decidable (∀ i, (s.proc i).pid = n → (s.thr i).ctl.executing = true →
      (s.proc i).state ≠ .sleeping))
  | .swapped c => inferInstanceAs (Decidable (∀ p, s.cpu c = .run p → (s.proc p).wokenUp = true →
      (s.thr inswapper).ctl.executing = false))
  | .acquire _ | .scan _ | .yield _ | .sleep _ _ | .wait _ | .waitMore _ | .exit _ | .fork _ | .forked _ _
  | .wakeup _ | .setSwap _ | .swapIn _ _ => inferInstanceAs (Decidable True)

section
variable {s s' : Sys} {p i : Slot} {c : ℕ} {chan : Chan} {t : Thread}

theorem OneCpu.off {p : Proc} (ht : t.ctl.executing = false)
    (hp : p.parent ≠ some inswapper) (hc : i = inswapper → t.child = none) : OneCpu i p t :=
  ⟨by simp [ht], by simp [ht], hp, hc⟩

theorem OneCpu.running {p : Proc} (hst : p.state = .running)
    (hp : p.parent ≠ some inswapper) (hc : i = inswapper → t.child = none) : OneCpu i p t :=
  ⟨by simp [hst], by simp [hst], hp, hc⟩

theorem Single.slot (h : Single s) {q : Proc}
    (hproc : s'.proc = update s.proc p q) (hthr : s'.thr = update s.thr p t)
    (hp : OneCpu p q t) : Single s' := by
  intro i
  rw [hproc, hthr]
  by_cases hi : i = p
  · subst hi; simpa using hp
  · simpa [hi] using h i

theorem Single.congr (h : Single s) (hproc : s'.proc = s.proc) (hthr : s'.thr = s.thr) :
    Single s' := by
  intro i
  rw [hproc, hthr]
  exact h i

/-- The inswapper becomes `RUNNABLE` when it is off the CPUs. -/
theorem Single.swapper (h : Single s) (hx : (s.thr inswapper).ctl.executing = false) :
    Single (s.setState inswapper .runnable) :=
  h.slot (q := { s.proc inswapper with state := .runnable }) (t := s.thr inswapper) rfl (by simp)
    (.off hx (h inswapper).parent (h inswapper).child)

theorem Single.resume (h : Single s) (i : Slot)
    (hx : (s.thr inswapper).ctl.executing = false) : Single (resume s i) := by
  have h1 : Single (s.setState i .runnableSuspended) :=
    h.slot (q := { s.proc i with state := .runnableSuspended }) (t := s.thr i) rfl (by simp)
      ⟨by simp, by simp, (h i).parent, (h i).child⟩
  exact (h1.swapper hx).congr rfl rfl

/-! ### `wakeup1` -/

theorem Touch.noResume (ht : Touch s s') (h : NoResume s chan) : NoResume s' chan := by
  intro hx i hi
  rw [ht.thr] at hx
  rw [(ht.proc i).chan]
  refine h hx i ?_
  rcases (ht.proc i).state with e | ⟨_, e⟩ | ⟨_, e⟩ | ⟨_, e⟩
  · rw [← e]; exact hi
  · simp [hi] at e
  · simp [hi] at e
  · simp [hi] at e

theorem Single.wakeup1At (h : Single s) (hch : chan ≠ .proc inswapper)
    (hr : NoResume s chan) (i : Slot) : Single (wakeup1At chan s i) := by
  unfold Sched.wakeup1At
  split_ifs with h1 h2 h3
  · exact h.slot (q := { s.proc i with wokenUp := true }) (t := s.thr i) rfl (by simp)
      ⟨(h i).runnable, (h i).sleeping, (h i).parent, (h i).child⟩
  · refine h.slot (q := { s.proc i with state := .runnable }) (t := s.thr i) rfl (by simp)
      (.off ?_ (h i).parent (h i).child)
    by_contra hx
    have hs := (h i).sleeping (by simpa using hx) h1.1
    split_ifs at hs
    · exact hch (h1.2.symm.trans hs)
    · exact h2 hs
  · refine h.resume i ?_
    by_contra hx
    exact hr (by simpa using hx) i h3.1 h3.2
  · exact h

theorem Single.wakeup1 (h : Single s) (hs : s.SwapperIn)
    (hch : chan ≠ .proc inswapper) (hr : NoResume s chan) : Single (wakeup1 chan s) := by
  refine (foldl_keeps (I := fun s => Single s ∧ s.SwapperIn ∧ NoResume s chan) ?_
    (List.finRange NPROC) ⟨h, hs, hr⟩).1
  rintro s i ⟨h, hs, hr⟩
  have ht := touch_wakeup1At chan hs i
  exact ⟨h.wakeup1At hch hr i, ht.swapperIn hs, ht.noResume hr⟩

theorem parentChan_ne (h : Single s) (p : Slot) : parentChan s p ≠ .proc inswapper := by
  unfold parentChan
  cases hp : (s.proc p).parent with
  | none => simp
  | some q =>
    intro e
    refine (h p).parent ?_
    rw [hp, Chan.proc.inj e]

/-- While `exit` of `p` goes through the table: init may be woken only if `p` has a zombie
child. -/
structure Adopting (p : Slot) (s : Sys) : Prop where
  single : Single s
  swapperIn : s.SwapperIn
  resume : (∃ q, (s.proc q).parent = some p ∧ (s.proc q).state = .zombie) →
    NoResume s (.proc initproc)

theorem Adopting.touch (hp : p ≠ initproc) (h : Adopting p s) (ht : Touch s s')
    (hs : Single s') : Adopting p s' := by
  refine ⟨hs, ht.swapperIn h.swapperIn, ?_⟩
  rintro ⟨q, hq, hz⟩
  refine ht.noResume (h.resume ⟨q, ?_, ?_⟩)
  · rcases (ht.proc q).parent with e | e
    · rw [← e]; exact hq
    · rw [hq] at e
      exact absurd (Option.some.inj e) hp
  · rcases (ht.proc q).state with e | ⟨_, e⟩ | ⟨_, e⟩ | ⟨_, e⟩
    · rw [← e]; exact hz
    · simp [hz] at e
    · simp [hz] at e
    · simp [hz] at e

theorem Adopting.adopt (hp : p ≠ initproc) (h : Adopting p s) (q : Slot) : Adopting p (adopt p s q) := by
  refine h.touch hp (touch_adopt p h.swapperIn q) ?_
  have h1 : Single (s.setProc q fun r => { r with parent := some initproc }) :=
    h.single.slot (q := { s.proc q with parent := some initproc }) (t := s.thr q) rfl (by simp)
      ⟨(h.single q).runnable, (h.single q).sleeping, by simp [initproc, inswapper],
        (h.single q).child⟩
  have ht : Touch s (s.setProc q fun r => { r with parent := some initproc }) :=
    .setProc ⟨rfl, rfl, rfl, id, .inr rfl, .inl rfl⟩ rfl
  unfold Sched.adopt
  dsimp only
  split_ifs with hq hz
  · refine h1.wakeup1 (ht.swapperIn h.swapperIn) (by simp [initproc, inswapper])
      (ht.noResume (h.resume ⟨q, hq, ?_⟩))
    simpa using hz
  · exact h1
  · exact h.single

theorem Single.orphan (h : Single s) (hs : s.SwapperIn)
    (hc : s.cpu c = .run p) (hp : p ≠ initproc) (hok : SingleOk s (.exit c)) :
    Single (orphan s p) := by
  have hr : ∀ chan, (chan = parentChan s p ∨ chan = .proc initproc ∧
      ∃ q, (s.proc q).parent = some p ∧ (s.proc q).state = .zombie) → NoResume s chan := by
    intro chan hch hx i hi hci
    refine hok.1 hx i hi ⟨p, hc, ?_⟩
    rw [hci]
    exact hch
  have ht := touch_wakeup1 (parentChan s p) hs
  have h0 : Adopting p s := ⟨h, hs, fun hz => hr _ (.inr ⟨rfl, hz⟩)⟩
  have h1 : Adopting p (Sched.wakeup1 (parentChan s p) s) :=
    h0.touch hp ht (h.wakeup1 hs (parentChan_ne h p) (hr _ (.inl rfl)))
  exact (foldl_keeps (fun _ q h => h.adopt hp q) _ h1).single

/-! ### The other steps -/

theorem killTarget_some {pid : ℤ} (hi : killTarget s pid = some i) : ((s.proc i).pid : ℤ) = pid := by
  simpa using List.find?_some hi

theorem Single.kill (h : Single s) {pid : ℤ} (hok : SingleOk s (.kill c pid)) : Single (kill s pid).1 := by
  obtain ⟨h1, h2⟩ := hok
  unfold Sched.kill
  cases hi : killTarget s pid with
  | none => exact h
  | some i =>
    have hpid := killTarget_some hi
    have hk : Single (s.setProc i fun p => { p with killed := true }) :=
      h.slot (q := { s.proc i with killed := true }) (t := s.thr i) rfl (by simp)
        ⟨(h i).runnable, (h i).sleeping, (h i).parent, (h i).child⟩
    dsimp only
    split_ifs with hs hss
    · refine hk.slot (q := { s.proc i with killed := true, state := .runnable }) (t := s.thr i)
        (by simp) (by simp) (.off ?_ (h i).parent (h i).child)
      by_contra hx
      exact h2 i hpid (by simpa using hx) (by simpa using hs)
    · refine hk.resume i ?_
      by_contra hx
      exact h1 (by simpa using hx) i (by simpa using hss) hpid.symm
    · exact hk

theorem Single.sleep (h : Single s) (hI : Inv s) (chan : Chan) (w : Bool) : Single (sleep s c p chan w) := by
  unfold Sched.sleep
  dsimp only
  split_ifs with hsw
  · refine h.slot (q := { s.proc p with
      chan := chan, state := .sleeping, wokenUp := false, swappingOut := true })
      (t := { s.thr p with ctl := .exec, outs := ⟨s.calls, chan, w⟩ :: (s.thr p).outs })
      (by simp) rfl ⟨by simp, fun _ _ => ?_, (h p).parent, (h p).child⟩
    rw [if_neg]
    rintro rfl
    have := hI.swapperFits.pid
    simp at hsw
    omega
  · exact h.slot (q := { s.proc p with chan := chan, state := .sleeping })
      (t := { s.thr p with ctl := .sleep ⟨s.calls, chan, w⟩ }) rfl rfl
      (.off rfl (h p).parent (h p).child)

theorem Single.swapped (h : Single s) {call : Call} {outs : List Call}
    (hc : s.cpu c = .run p) (hp : p ≠ inswapper) (hok : SingleOk s (.swapped c)) :
    Single (swapped s c p call outs) := by
  by_cases hw : (s.proc p).wokenUp = true
  · rw [swapped_of_woken hp hw]
    exact (h.swapper (hok.2 p hc hw)).slot (p := p) (t := { s.thr p with
      ctl := .sleep call, outs := outs }) rfl (by simp [Sys.sched])
      (.off rfl (by simpa [hp] using (h p).parent) (h p).child)
  · rw [swapped_of_not_woken hw]
    exact h.slot (p := p) (t := { s.thr p with ctl := .sleep call, outs := outs }) rfl
      (by simp [Sys.sched]) (.off rfl (h p).parent (h p).child)

theorem Single.waitLoop (h : Single s) (hI : Inv s) (hc : s.cpu c = .run p) : Single (waitLoop s c p) := by
  have hexec : ∀ s' : Sys, Single s' → s'.thr = s.thr →
      Single { s'.setCtl p .exec with lock := none } := by
    intro s' h' hthr
    have hx : (s'.thr p).ctl.executing = true := by
      rw [hthr]
      exact hI.onCpu c p hc
    exact h'.slot (p := p) (q := s'.proc p) (t := { s'.thr p with ctl := .exec }) (by simp) rfl
      ⟨fun _ => (h' p).runnable hx, fun _ => (h' p).sleeping hx, (h' p).parent, (h' p).child⟩
  unfold Sched.waitLoop
  split
  · rename_i q hq
    exact hexec _ (h.slot (p := q) (q := { s.proc q with
      state := .unused, pid := 0, parent := none, killed := false }) (t := s.thr q) rfl (by simp)
      ⟨by simp, by simp, by simp, (h q).child⟩) rfl
  · split_ifs
    · exact hexec s h rfl
    · exact h.sleep hI _ _

theorem Single.dispatch (h : Single s) (c : ℕ) (p : Slot) : Single (dispatch s c p) := by
  obtain ⟨ch, k, hproc, hthr, _⟩ := dispatch_slot s c p
  exact h.slot hproc hthr (.running rfl (h p).parent (h p).child)

theorem Single.swapIn (h : Single s) (hI : Inv s) {ok : Bool} (hs : swapIn s c ok = some s') : Single s' := by
  unfold Sched.swapIn at hs
  split at hs
  · split at hs
    · split at hs <;> (cases hs; exact h.congr rfl rfl)
    · cases hs; exact h.congr rfl rfl
  · cases hs; exact h.congr rfl rfl
  · cases hs; exact h.congr rfl rfl
  · rename_i t hph
    split_ifs at hs
    cases hs
    have he := hI.target t (by simp [hph, Phase.target])
    have hoff : (s.thr t).ctl.executing = false := by
      by_contra hx
      rcases hI.executing_state (by simpa using hx) with e | e | e <;> simp [e] at he
    exact h.slot (p := t) (q := { s.proc t with state := .runnable }) (t := s.thr t) rfl (by simp)
      (.off hoff (h t).parent (h t).child)
  · cases hs; exact h.congr rfl rfl
  · cases hs
    exact h.slot (p := inswapper)
      (q := { s.proc inswapper with chan := .proc inswapper, state := .sleeping })
      (t := s.thr inswapper) rfl (by simp)
      ⟨by simp, by simp, (h inswapper).parent, (h inswapper).child⟩
  · split_ifs at hs <;> cases hs
    · exact h.slot (p := inswapper) (q := s.proc inswapper)
        (t := { s.thr inswapper with ctl := .swapIn }) (by simp [Sys.sched]) rfl
        (.off rfl (h inswapper).parent (h inswapper).child)
    · exact h.congr rfl rfl

/-- A step that makes no process on a CPU `RUNNABLE` keeps `Single`. -/
theorem Single.step (h : Single s) (hI : Inv s) {a : Act} (hok : SingleOk s a)
    (hs : step s a = some s') : Single s' := by
  obtain ⟨_, ht⟩ := step_trans hs
  cases ht with
  | acquire c _ _ => exact h.congr rfl rfl
  | skip c i hlt hc hst => exact h.congr rfl rfl
  | release c i hc hlt => exact h.congr rfl rfl
  | setSwap b => exact h.congr rfl rfl
  | forkFull c p hc hl hp hu => exact h
  | initExit c hc hl hp => exact h.congr rfl rfl
  | pick c i hlt hc hst => exact h.dispatch _ _
  | yield c p hc hl hk hst =>
    exact h.slot (p := p) (q := { s.proc p with state := .runnable })
      (t := { s.thr p with ctl := .yield }) rfl rfl (.off rfl (h p).parent (h p).child)
  | sleep c a p hc hl hp => exact h.sleep hI _ _
  | swapped c p call outs hc hl hk ho =>
    refine h.swapped hc ?_ hok
    rintro rfl
    rw [hI.swapperFits.outs] at ho
    cases ho
  | wait c p hc hl hp => exact h.waitLoop hI hc
  | waitMore c p hc hl hk => exact h.waitLoop hI hc
  | exit c p hc hl hp hne =>
    have h1 := h.orphan hI.swapperIn hc hne hok
    rw [exit_eq]
    generalize Sched.orphan s p = s1 at h1
    exact h1.slot (p := p) (q := { s1.proc p with state := .zombie })
      (t := { s1.thr p with ctl := .exit }) rfl rfl (.off rfl (h1 p).parent (h1 p).child)
  | fork c p np hc hl hp hu =>
    have hst : (s.proc np).state = .unused := by simpa using List.find?_some hu
    have hsw : np ≠ inswapper := by
      rintro rfl
      rcases hI.swapperFits.state with e | e | e <;> simp [e] at hst
    have h1 : Single ((s.setProc np fun q => { q with state := .embryo, pid := s.nextpid }).setThr
        np fun _ => ⟨.fresh, [], none⟩) :=
      h.slot (p := np) (q := { s.proc np with state := .embryo, pid := s.nextpid })
        (t := ⟨.fresh, [], none⟩) rfl rfl (.off rfl (h np).parent fun _ => rfl)
    exact h1.slot (p := p) (by simp; rfl) rfl
      ⟨(h1 p).runnable, (h1 p).sleeping, (h1 p).parent, fun e => absurd e hp.2.2.2⟩
  | forked c ok p np hc hk hn =>
    have hne : p ≠ inswapper := by
      rintro rfl
      rw [(h inswapper).child rfl] at hn
      cases hn
    have hoff : (s.thr np).ctl.executing = false := by
      by_contra hx
      have hst := hI.child p np hn
      rcases hI.executing_state (by simpa using hx) with e | e | e <;> simp [e] at hst
    have h1 : Single (s.setThr p fun t => { t with child := none }) :=
      h.slot (p := p) (q := s.proc p) (t := { s.thr p with child := none }) (by simp) rfl
        ⟨(h p).runnable, (h p).sleeping, (h p).parent, fun _ => rfl⟩
    have hoff' : ((s.setThr p fun t => { t with child := none }).thr np).ctl.executing =
        false := by
      by_cases hnp : np = p
      · subst hnp; simpa using hoff
      · simpa [hnp] using hoff
    cases ok
    · exact h1.slot (p := np) (q := { s.proc np with state := .unused }) rfl (by simp [forked])
        (.off hoff' (h np).parent (h1 np).child)
    · exact h1.slot (p := np) (q := { s.proc np with parent := some p, state := .runnable }) rfl
        (by simp [forked]) (.off hoff' (by simpa using hne) (h1 np).child)
  | wakeup a hl =>
    refine h.wakeup1 hI.swapperIn (by simp) fun hx i hi hch => hok.1 hx i hi hch
  | kill c pid p hc hl hp => exact h.kill hok
  | swapIn c ok s' hc hk hs => exact h.swapIn hI hs

theorem Single.boot : Single boot := by
  intro i
  refine .off rfl ?_ fun _ => rfl
  simp only [Sched.boot]
  split_ifs <;> simp [initproc, inswapper]

end

theorem Reachable.single {s : Sys} (h : Reachable SingleOk s) : Single s := by
  have hI : Reachable SingleOk s ∧ Single s := by
    refine Reaches.invariant (I := fun s => Reachable SingleOk s ∧ Single s) ?_ h
      ⟨.refl _, Single.boot⟩
    rintro s a s' ⟨hr, hw⟩ hok hs
    exact ⟨hr.snoc hok hs, hw.step (hr.inv (step_trans hs).1) hok hs⟩
  exact hI.2

theorem waitLoop_mode (s : Sys) (c : ℕ) (p : Slot) : (waitLoop s c p).mode = s.mode := by
  unfold waitLoop
  split
  · rfl
  · split_ifs
    · rfl
    · unfold sleep
      dsimp only
      split_ifs <;> rfl

theorem swapIn_mode {s s' : Sys} {c : ℕ} {ok : Bool} (hs : swapIn s c ok = some s') :
    s'.mode = s.mode ∨ s'.mode = .panic "sched ptable.lock" := by
  unfold swapIn at hs
  split at hs
  · split at hs
    · split at hs <;> (cases hs; exact .inl rfl)
    · cases hs; exact .inl rfl
  · cases hs; exact .inl rfl
  · cases hs; exact .inl rfl
  · split_ifs at hs
    cases hs
    exact .inl rfl
  · cases hs; exact .inl rfl
  · cases hs; exact .inl rfl
  · split_ifs at hs
    · cases hs; exact .inl rfl
    · cases hs; exact .inr rfl

/-- A process is started twice only if it is `RUNNABLE` on a CPU. -/
theorem clash_runnable {s s' : Sys} (hI : Inv s) {a : Act} (hs : step s a = some s')
    (hc : s'.mode = .clash) :
    ∃ p, (s.thr p).ctl.executing = true ∧ (s.proc p).state = .runnable := by
  obtain ⟨hm, ht⟩ := step_trans hs
  have hrun : s'.mode = s.mode → ∃ p, (s.thr p).ctl.executing = true ∧
      (s.proc p).state = .runnable := by
    intro e
    rw [e, hm] at hc
    cases hc
  cases ht with
  | pick c i hlt hc' hst =>
    refine ⟨_, ?_, hst⟩
    unfold dispatch at hc
    cases hk : (s.thr ⟨i, hlt⟩).ctl with
    | exec => rfl
    | wait => rfl
    | fresh =>
      simp only [hk] at hc
      split_ifs at hc <;> simp [hm] at hc
    | sleep call =>
      simp only [hk] at hc
      split_ifs at hc <;> simp [hm] at hc
    | yield => simp [hk, hm] at hc
    | exit => simp [hk] at hc
    | swapIn => simp [hk, hm] at hc
  | initExit c hc' hl hp => cases hc
  | acquire c _ _ => exact hrun rfl
  | skip c i hlt _ hst => exact hrun rfl
  | release c i _ hlt => exact hrun rfl
  | setSwap b => exact hrun rfl
  | forkFull c p _ hl hp hu => exact hrun rfl
  | fork c p np _ hl hp hu => exact hrun rfl
  | yield c p _ hl hk hst => exact hrun rfl
  | forked c ok p np _ hk hn => cases ok <;> exact hrun rfl
  | sleep c a p _ hl hp =>
    refine hrun ?_
    unfold sleep
    dsimp only
    split_ifs <;> rfl
  | swapped c p call outs _ hl hk ho =>
    refine hrun ?_
    unfold swapped
    dsimp only
    split_ifs <;> rfl
  | wait c p _ hl hp => exact hrun (waitLoop_mode s c p)
  | waitMore c p _ hl hk => exact hrun (waitLoop_mode s c p)
  | exit c p _ hl hp hne =>
    have ht := touch_orphan hI.swapperIn p
    rw [exit_eq] at hrun
    generalize Sched.orphan s p = s1 at ht hrun
    exact hrun ht.mode
  | wakeup a hl => exact hrun (touch_wakeup1 _ hI.swapperIn).mode
  | kill c pid p _ hl hp => exact hrun (touch_kill hI.swapperIn pid).mode
  | swapIn c ok s' _ hk hs =>
    rcases swapIn_mode hs with e | e
    · exact hrun e
    · rw [e] at hc
      cases hc

/-- **Single dispatch**: in every run in which no step makes a process on a CPU `RUNNABLE`, no
process on a CPU is `RUNNABLE`, no process is on two CPUs, and `scheduler` never starts a process
that another CPU executes. -/
theorem single_dispatch {s : Sys} (h : Reachable SingleOk s) (hm : s.mode = .run) :
    (∀ c p, s.cpu c = .run p → (s.proc p).state ≠ .runnable) ∧
      (∀ c c' p, s.cpu c = .run p → s.cpu c' = .run p → c = c') ∧
      ∀ a s', step s a = some s' → s'.mode ≠ .clash := by
  have hI := h.inv hm
  have hs := h.single
  refine ⟨fun c p hc => (hs p).runnable (hI.onCpu c p hc), hI.uniq, fun a s' hst hc => ?_⟩
  obtain ⟨p, hx, hr⟩ := clash_runnable hI hst hc
  exact (hs p).runnable hx hr

/-- Process 4 is swapped out while init and process 3 run, and then woken. -/
theorem single_dispatch_woken : ∃ s p, Reachable SingleOk s ∧ s.mode = .run ∧ s.lock = none ∧
    s.suspended = 1 ∧ s.cpu 1 = .run p ∧ (s.proc p).state ≠ .runnable := by
  obtain ⟨s, hs, hp⟩ := reaches_of_exec step SingleOk boot
    (warmUp ++ [.sleep 2 7, .swapped 2] ++ List.replicate 61 (.scan 2) ++ [.wakeup 7])
    (fun s => decide (s.mode = .run ∧ s.lock = none ∧ s.suspended = 1 ∧
      s.cpu 1 = .run ⟨2, by decide⟩)) (by decide +kernel)
  obtain ⟨h1, h2, h3, h4⟩ := of_decide_eq_true hp
  exact ⟨s, _, hs, h1, h2, h3, h4, (single_dispatch hs h1).1 1 _ h4⟩

/-- Process 3 kills process 4 while that process is in `swapOut` on CPU 2: it is `RUNNABLE` there
and the lock is free. -/
theorem executing_runnable : ¬ ∀ s, Reachable Always s → s.lock = none →
    ∀ c p, s.cpu c = .run p → (s.proc p).state ≠ .runnable := by
  obtain ⟨s, hs, hp⟩ := reaches_of_exec step Always boot
    (warmUp ++ [.sleep 2 7, .kill 1 4])
    (fun s => decide (s.lock = none ∧ s.cpu 2 = .run ⟨3, by decide⟩ ∧
      (s.proc ⟨3, by decide⟩).state = .runnable)) (by decide +kernel)
  obtain ⟨h1, h2, h3⟩ := of_decide_eq_true hp
  intro h
  exact h s hs h1 2 _ h2 h3

/-- Then CPU 3 starts it as well. -/
example : ∃ s, Reachable Always s ∧ s.mode = .clash := by
  obtain ⟨s, hs, hp⟩ := reaches_of_exec step Always boot
    (warmUp ++ [.sleep 2 7, .kill 1 4, .acquire 3] ++ List.replicate 4 (.scan 3))
    (fun s => decide (s.mode = .clash)) (by decide +kernel)
  exact ⟨s, hs, of_decide_eq_true hp⟩

end Xv6.Sched
