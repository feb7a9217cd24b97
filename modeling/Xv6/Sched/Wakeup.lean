import Xv6.Sched.Counter
import Xv6.Sched.Pids

/-! # No wakeup is lost

A call of `sleep` that swaps the process out is woken in one of two ways: in `swapOut`, through
`wokenUp`, and in `sched()`, by its state. `CallsFit` says which call a process is in and what
its entry then looks like, and `SlotStep` lists what a step can do to one slot as far as calls are
concerned; both the invariant and the fate of a woken call are read off that list.

Two things break the handshake. `kill` writes the state of a process inside `swapOut` and leaves
`wokenUp` alone, and a `sleep` inside `swapOut` overwrites `chan` and `wokenUp` of the call it is
part of. In a run without them (`WakeOk`) a call that has been woken never rests in `SLEEPING` or
`SLEEPING_SUSPENDED` again. -/

namespace Xv6.Sched

open Runs Table List Function Option

/-- The thread is in this call of `sleep`: in `sched()`, or still in `swapOut`. -/
def Thread.InCall (t : Thread) (call : Call) : Prop := t.ctl = .sleep call ∨ call ∈ t.outs
deriving Decidable

/-- No `sleep` inside `swapOut`, and no `kill` of a process in `swapOut` that was not woken. -/
def WakeOk (s : Sys) : Act → Prop
  | .sleep c _ => ∀ p, s.cpu c = .run p → (s.thr p).outs = []
  | .kill _ n => ∀ i, ((s.proc i).pid : ℤ) = n → (s.proc i).swappingOut = true →
      (s.proc i).wokenUp = true
  | _ => True

instance (s : Sys) : (a : Act) → Decidable (WakeOk s a)
  | .sleep c _ => inferInstanceAs (Decidable (∀ p, s.cpu c = .run p → (s.thr p).outs = []))
  | .kill _ n => inferInstanceAs (Decidable (∀ i, ((s.proc i).pid : ℤ) = n →
      (s.proc i).swappingOut = true → (s.proc i).wokenUp = true))
  | .acquire _ | .scan _ | .yield _ | .swapped _ | .wait _ | .waitMore _ | .exit _ | .fork _ | .forked _ _
  | .wakeup _ | .setSwap _ | .swapIn _ _ => inferInstanceAs (Decidable True)

/-! ### One slot -/

/-- State of a process in `swapOut`. -/
def Proc.Outward (p : Proc) : Prop :=
  p.state = .sleeping ∨ p.state = .runnable ∧ p.wokenUp = true

/-- State of a process that no longer waits. -/
def Proc.Rested (p : Proc) : Prop := p.state = .runnable ∨ p.state = .runnableSuspended

/-- Entry and thread agree about the call the process is in; calls are numbered below `n`. -/
def CallsFit (n : ℕ) (p : Proc) (t : Thread) : Prop :=
  match t.outs with
  | [] => p.swappingOut = false ∧ ∀ call, t.ctl = .sleep call → p.chan = call.chan ∧ call.id < n
  | [call] => t.ctl = .exec ∧ p.swappingOut = true ∧ p.chan = call.chan ∧ call.id < n ∧ p.Outward
  | _ => False

/-- What it means for the process that this call has been woken. -/
structure Awake (p : Proc) (t : Thread) (call : Call) : Prop where
  swapping : call ∈ t.outs → p.wokenUp = true
  resting : t.ctl = .sleep call → p.Rested

/-- The slot stays in the call it is in, if any, and is not put to sleep. -/
structure Kept (p p' : Proc) (t t' : Thread) : Prop where
  ctl : t'.ctl = t.ctl
  outs : t'.outs = t.outs
  chan : p'.chan = p.chan
  swappingOut : p'.swappingOut = p.swappingOut
  wokenUp : p.wokenUp = true → p'.wokenUp = true
  rested : p.Rested → p'.Rested
  outward : p.swappingOut = true → p.Outward → p'.Outward

/-- What a step does to a slot: it stays in its call, is in no call afterwards, starts a call
without or with `swapOut`, or comes back from `swapOut`. -/
inductive SlotStep (n n' : ℕ) (p p' : Proc) (t t' : Thread) : Prop
  | kept : Kept p p' t t' → SlotStep n n' p p' t t'
  | free : t'.outs = [] → (∀ call, t'.ctl ≠ .sleep call) → p'.swappingOut = false →
      SlotStep n n' p p' t t'
  | enter (call : Call) : call.id = n → n < n' → t'.outs = [] → t'.ctl = .sleep call →
      p'.chan = call.chan → p'.swappingOut = false → SlotStep n n' p p' t t'
  | swapOut (call : Call) : call.id = n → n < n' → t'.outs = [call] → t'.ctl = .exec →
      p'.chan = call.chan → p'.swappingOut = true → p'.state = .sleeping →
      SlotStep n n' p p' t t'
  | swapped (call : Call) : t.outs = [call] → t'.outs = [] → t'.ctl = .sleep call →
      p'.chan = p.chan → p'.swappingOut = false →
      (p.wokenUp = true → p'.state = .runnableSuspended) → SlotStep n n' p p' t t'

section slot
variable {n n' : ℕ} {p p' : Proc} {t t' : Thread} {call : Call}

/-- A process that is not executing is not in `swapOut`. -/
theorem CallsFit.outs_nil (h : CallsFit n p t) (hk : t.ctl ≠ .exec) :
    t.outs = [] ∧ p.swappingOut = false := by
  unfold CallsFit at h
  split at h
  · exact ⟨‹_›, h.1⟩
  · exact absurd h.1 hk
  · exact h.elim

theorem CallsFit.swappingOut_of_nil (h : CallsFit n p t) (ho : t.outs = []) :
    p.swappingOut = false := by
  rw [CallsFit, ho] at h
  exact h.1

theorem CallsFit.swapping (h : CallsFit n p t) {outs : List Call} (ho : t.outs = call :: outs) :
    outs = [] ∧ t.ctl = .exec ∧ p.swappingOut = true ∧ p.chan = call.chan ∧ call.id < n ∧
      p.Outward := by
  rw [CallsFit, ho] at h
  cases outs with
  | nil => exact ⟨rfl, h⟩
  | cons _ _ => exact h.elim

/-- A call in progress: the channel is the one it was called with. -/
theorem CallsFit.inCall (h : CallsFit n p t) (hc : t.InCall call) :
    p.chan = call.chan ∧ call.id < n := by
  rcases hc with hk | hm
  · have ho := (h.outs_nil (by simp [hk])).1
    rw [CallsFit, ho] at h
    exact h.2 call hk
  · obtain ⟨c, outs, ho⟩ := exists_cons_of_ne_nil (ne_nil_of_mem hm)
    obtain ⟨rfl, _, _, h1, h2, _⟩ := h.swapping ho
    rw [ho, mem_singleton] at hm
    subst hm
    exact ⟨h1, h2⟩

theorem CallsFit.step (h : CallsFit n p t) (hn : n ≤ n') (hs : SlotStep n n' p p' t t') :
    CallsFit n' p' t' := by
  cases hs with
  | kept hk =>
    unfold CallsFit at h ⊢
    rw [hk.outs, hk.ctl, hk.chan, hk.swappingOut]
    split at h
    · rename_i ho
      exact ⟨h.1, fun call hc => ⟨(h.2 call hc).1, lt_of_lt_of_le (h.2 call hc).2 hn⟩⟩
    · rename_i call ho
      obtain ⟨h1, h2, h3, h4, h5⟩ := h
      exact ⟨h1, h2, h3, lt_of_lt_of_le h4 hn, hk.outward h2 h5⟩
    · exact h.elim
  | free ho hk hsw =>
    rw [CallsFit, ho]
    exact ⟨hsw, fun call hc => absurd hc (hk call)⟩
  | enter call hid hlt ho hk hch hsw =>
    rw [CallsFit, ho]
    refine ⟨hsw, fun call' hc => ?_⟩
    rw [hk] at hc
    cases hc
    exact ⟨hch, by omega⟩
  | swapOut call hid hlt ho hk hch hsw hst =>
    rw [CallsFit, ho]
    exact ⟨hk, hsw, hch, by omega, .inl hst⟩
  | swapped call ho ho' hk hch hsw hst =>
    rw [CallsFit, ho] at h
    rw [CallsFit, ho']
    refine ⟨hsw, fun call' hc => ?_⟩
    rw [hk] at hc
    cases hc
    exact ⟨hch.trans h.2.2.1, lt_of_lt_of_le h.2.2.2.1 hn⟩

theorem Awake.step (h : Awake p t call) (hid : call.id < n) (hs : SlotStep n n' p p' t t') :
    Awake p' t' call := by
  cases hs with
  | kept hk =>
    refine ⟨?_, ?_⟩
    · rw [hk.outs]; exact fun hm => hk.wokenUp (h.swapping hm)
    · rw [hk.ctl]; exact fun hc => hk.rested (h.resting hc)
  | free ho hk hsw => exact ⟨by simp [ho], fun hc => absurd hc (hk call)⟩
  | enter call' hid' hlt ho hk hch hsw =>
    refine ⟨by simp [ho], fun hc => ?_⟩
    rw [hk] at hc
    cases hc
    omega
  | swapOut call' hid' hlt ho hk hch hsw hst =>
    refine ⟨fun hm => ?_, by simp [hk]⟩
    rw [ho, mem_singleton] at hm
    subst hm
    omega
  | swapped call' ho ho' hk hch hsw hst =>
    refine ⟨by simp [ho'], fun hc => ?_⟩
    rw [hk] at hc
    cases hc
    exact .inr (hst (h.swapping (by simp [ho])))

end slot

/-! ### What the loops of `wakeup1` do to a process in `swapOut` -/

/-- As `Touch`, and a process in `swapOut` stays `SLEEPING`. -/
structure Stir (s s' : Sys) : Prop extends Touch s s' where
  held : ∀ i, i ≠ inswapper → (s.proc i).swappingOut = true → (s.proc i).state = .sleeping →
    (s'.proc i).state = .sleeping

/-- A process that sleeps on `chan`, in `swapOut` or not, or has been woken. -/
structure Dozing (chan : Chan) (i : Slot) (p : Proc) : Prop where
  chan : p.chan = chan
  outward : p.swappingOut = true → p.state = .sleeping ∨ p.wokenUp = true
  inward : p.swappingOut = false → p.state = .sleeping ∨ p.state = .sleepingSuspended ∨ p.Rested
  swapper : i = inswapper → p.swappingOut = false

/-- It has been woken. -/
structure Roused (p : Proc) : Prop where
  outward : p.swappingOut = true → p.wokenUp = true
  inward : p.swappingOut = false → p.Rested

section stir
variable {s s' s'' : Sys} {i p : Slot} {chan : Chan}

theorem Stir.refl (s : Sys) : Stir s s := ⟨.refl s, fun _ _ _ => id⟩

theorem Stir.trans (h : Stir s s') (h' : Stir s' s'') : Stir s s'' :=
  ⟨h.toTouch.trans h'.toTouch, fun i hi hsw hst =>
    h'.held i hi (by rw [(h.proc i).swappingOut]; exact hsw) (h.held i hi hsw hst)⟩

theorem stir_wakeup1At (chan : Chan) (hs : s.SwapperIn) (i : Slot) :
    Stir s (wakeup1At chan s i) := by
  refine ⟨touch_wakeup1At chan hs i, fun j hj hsw hst => ?_⟩
  unfold wakeup1At
  split_ifs with h1 h2 h3
  · by_cases hji : j = i
    · subst hji; simpa using hst
    · simpa [hji] using hst
  · have hji : j ≠ i := by
      rintro rfl
      exact h2 hsw
    simpa [hji] using hst
  · have hji : j ≠ i := by
      rintro rfl
      simp [hst] at h3
    simpa [resume, hj, hji] using hst
  · exact hst

theorem stir_wakeup1 (chan : Chan) (hs : s.SwapperIn) : Stir s (wakeup1 chan s) :=
  (foldl_rel Stir.refl (fun _ _ _ => Stir.trans)
    (fun _ i hI => ⟨stir_wakeup1At chan hI i, (stir_wakeup1At chan hI i).swapperIn hI⟩) _ hs).1

theorem stir_adopt (p : Slot) (hs : s.SwapperIn) (q : Slot) : Stir s (adopt p s q) := by
  have h : Stir s (s.setProc q fun r => { r with parent := some initproc }) := by
    refine ⟨.setProc ⟨rfl, rfl, rfl, id, .inr rfl, .inl rfl⟩ rfl, fun j _ _ hst => ?_⟩
    by_cases hjq : j = q
    · subst hjq; simpa using hst
    · simpa [hjq] using hst
  unfold adopt
  dsimp only
  split_ifs
  · exact h.trans (stir_wakeup1 _ (h.swapperIn hs))
  · exact h
  · exact .refl s

theorem stir_orphan (hs : s.SwapperIn) (p : Slot) : Stir s (orphan s p) := by
  have h := stir_wakeup1 (parentChan s p) hs
  exact h.trans (foldl_rel Stir.refl (fun _ _ _ => Stir.trans)
    (fun _ q hI => ⟨stir_adopt p hI q, (stir_adopt p hI q).swapperIn hI⟩) _ (h.swapperIn hs)).1

theorem Woken.rested {p p' : Proc} (hw : Woken i p p') (h : p.Rested) : p'.Rested := by
  rcases hw.state with e | ⟨_, e⟩ | ⟨_, e⟩ | ⟨_, e⟩
  · unfold Proc.Rested
    rw [e]
    exact h
  · exact .inl e
  · exact .inr e
  · exact .inl e

theorem Dozing.stir (h : Dozing chan i (s.proc i)) (ht : Stir s s') : Dozing chan i (s'.proc i) := by
  have hw := ht.proc i
  refine ⟨hw.chan.trans h.chan, fun hsw => ?_, fun hsw => ?_, fun hi => ?_⟩
  · rw [hw.swappingOut] at hsw
    rcases h.outward hsw with e | e
    · refine .inl (ht.held i ?_ hsw e)
      intro hi
      rw [h.swapper hi] at hsw
      cases hsw
    · exact .inr (hw.wokenUp e)
  · rw [hw.swappingOut] at hsw
    rcases hw.state with e | ⟨_, e⟩ | ⟨_, e⟩ | ⟨_, e⟩
    · unfold Proc.Rested
      rw [e]
      exact h.inward hsw
    · exact .inr (.inr (.inl e))
    · exact .inr (.inr (.inr e))
    · exact .inr (.inr (.inl e))
  · rw [hw.swappingOut]
    exact h.swapper hi

theorem Roused.touch (h : Roused (s.proc i)) (ht : Touch s s') : Roused (s'.proc i) := by
  have hw := ht.proc i
  refine ⟨fun hsw => ?_, fun hsw => ?_⟩ <;> rw [hw.swappingOut] at hsw
  · exact hw.wokenUp (h.outward hsw)
  · exact hw.rested (h.inward hsw)

/-- The iteration of `wakeup1` that visits the process. -/
theorem Dozing.wakeup1At (h : Dozing chan i (s.proc i)) : Roused ((wakeup1At chan s i).proc i) := by
  unfold Sched.wakeup1At
  split_ifs with h1 h2 h3
  · exact ⟨by simp, by simp [h2]⟩
  · exact ⟨by simp [h2], by simp [Proc.Rested]⟩
  · by_cases hi : i = inswapper
    · subst hi
      exact ⟨by simp [Sched.resume, h.swapper rfl], by simp [Sched.resume, Proc.Rested]⟩
    · refine ⟨fun hsw => ?_, by simp [Sched.resume, hi, Proc.Rested]⟩
      have hsw' : (s.proc i).swappingOut = true := by simpa [Sched.resume, hi] using hsw
      rcases h.outward hsw' with e | e
      · simp [h3.1] at e
      · simpa [Sched.resume, hi] using e
  · have hs : (s.proc i).state ≠ .sleeping := fun e => h1 ⟨e, h.chan⟩
    have hss : (s.proc i).state ≠ .sleepingSuspended := fun e => h3 ⟨e, h.chan⟩
    refine ⟨fun hsw => (h.outward hsw).resolve_left hs, fun hsw => ?_⟩
    exact ((h.inward hsw).resolve_left hs).resolve_left hss

/-- **`wakeup1` wakes every process on the channel.** -/
theorem Dozing.wakeup1 (hs : s.SwapperIn)
    (h : Dozing chan i (s.proc i)) : Roused ((wakeup1 chan s).proc i) := by
  unfold Sched.wakeup1
  refine foldl_visit (I := fun s : Sys => s.SwapperIn ∧ Dozing chan i (s.proc i))
    (Q := fun s : Sys => Roused (s.proc i)) (i := i) ?_ (fun s h => h.2.wakeup1At) ?_
    (mem_finRange i) ⟨hs, h⟩
  · rintro s j ⟨hs, h⟩
    have ht := stir_wakeup1At chan hs j
    exact ⟨ht.swapperIn hs, h.stir ht⟩
  · rintro s j ⟨hs, _⟩ hr
    exact hr.touch (touch_wakeup1At chan hs j)

theorem wakeup1_parent (chan : Chan) (s : Sys) (i : Slot) :
    ((wakeup1 chan s).proc i).parent = (s.proc i).parent := by
  unfold wakeup1
  refine foldl_keeps (I := fun s' : Sys => (s'.proc i).parent = (s.proc i).parent) ?_ _ rfl
  intro s' j h
  rw [← h]
  unfold wakeup1At
  by_cases h1 : i = inswapper <;> by_cases h2 : i = j <;> split_ifs <;> simp_all [resume]

theorem Dozing.exitParent (hs : s.SwapperIn)
    (h : Dozing (parentChan s p) i (s.proc i)) : Roused ((orphan s p).proc i) := by
  have h1 := h.wakeup1 hs
  have hs1 := (touch_wakeup1 (parentChan s p) hs).swapperIn hs
  unfold orphan
  refine (foldl_keeps (I := fun s : Sys => s.SwapperIn ∧ Roused (s.proc i)) ?_ _ ⟨hs1, h1⟩).2
  rintro s q ⟨hs, h⟩
  have ht := touch_adopt p hs q
  exact ⟨ht.swapperIn hs, h.touch ht⟩

theorem Dozing.adopt {q : Slot} (hs : s.SwapperIn) (hq : (s.proc q).parent = some p)
    (hz : (s.proc q).state = .zombie) (h : Dozing (.proc initproc) i (s.proc i)) :
    Roused ((adopt p s q).proc i) := by
  unfold Sched.adopt
  rw [if_pos hq]
  dsimp only
  rw [if_pos (by simpa using hz)]
  have ht : Stir s (s.setProc q fun r => { r with parent := some initproc }) := by
    refine ⟨.setProc ⟨rfl, rfl, rfl, id, .inr rfl, .inl rfl⟩ rfl, fun j _ _ hst => ?_⟩
    by_cases hjq : j = q
    · subst hjq; simpa using hst
    · simpa [hjq] using hst
  exact (h.stir ht).wakeup1 (ht.swapperIn hs)

/-- `exit` of `p` wakes init if `p` has a zombie child. -/
theorem Dozing.exitInit {q : Slot} (hs : s.SwapperIn) (hsw : q ≠ inswapper)
    (hq : (s.proc q).parent = some p) (hz : (s.proc q).state = .zombie)
    (h : Dozing (.proc initproc) i (s.proc i)) : Roused ((orphan s p).proc i) := by
  have ht := stir_wakeup1 (parentChan s p) hs
  have hz1 : ((Sched.wakeup1 (parentChan s p) s).proc q).state = .zombie := by
    rw [ht.state_eq hsw (by simp [hz]) (by simp [hz]), hz]
  unfold orphan
  refine foldl_visit (I := fun s : Sys => s.SwapperIn ∧ (Roused (s.proc i) ∨
      Dozing (.proc initproc) i (s.proc i) ∧ (s.proc q).parent = some p ∧
        (s.proc q).state = .zombie)) (Q := fun s : Sys => Roused (s.proc i)) (i := q)
    ?_ ?_ (fun s j h hr => hr.touch (touch_adopt p h.1 j)) (mem_finRange q)
    ⟨ht.swapperIn hs, .inr ⟨h.stir ht, by rw [wakeup1_parent, hq], hz1⟩⟩
  · rintro s j ⟨hs, hd⟩
    have ht := stir_adopt p hs j
    refine ⟨ht.swapperIn hs, ?_⟩
    rcases hd with hr | ⟨hd, hq, hz⟩
    · exact .inl (hr.touch ht.toTouch)
    · by_cases hj : (s.proc j).parent = some p ∧ (s.proc j).state = .zombie
      · exact .inl (hd.adopt hs hj.1 hj.2)
      · have hjq : q ≠ j := by
          rintro rfl
          exact hj ⟨hq, hz⟩
        have hkeep : (Sched.adopt p s j).proc q = s.proc q := by
          unfold Sched.adopt
          dsimp only
          split_ifs with h1 h2
          · exact absurd ⟨h1, by simpa using h2⟩ hj
          · simp [hjq]
          · rfl
        exact .inr ⟨hd.stir ht, by rw [hkeep]; exact hq, by rw [hkeep]; exact hz⟩
  · rintro s ⟨hs, hr | ⟨hd, hq, hz⟩⟩
    · exact hr.touch (touch_adopt p hs q)
    · exact hd.adopt hs hq hz

/-- `kill` writes its target, and perhaps the inswapper. -/
theorem kill_proc (s : Sys) (pid : ℤ) (i : Slot) : (kill s pid).1.proc i = s.proc i ∨
    i = inswapper ∨ killTarget s pid = some i := by
  by_cases hi : i = inswapper
  · exact .inr (.inl hi)
  · unfold kill
    cases hk : killTarget s pid with
    | none => exact .inl rfl
    | some j =>
      by_cases hj : i = j
      · exact .inr (.inr (by rw [hj]))
      · refine .inl ?_
        dsimp only
        split_ifs <;> simp [resume, hi, hj]

end stir

/-! ### All slots -/

def Calls (s : Sys) : Prop := ∀ i, CallsFit s.calls (s.proc i) (s.thr i)

section steps
variable {s s' : Sys} {p : Slot} {c : ℕ} {call : Call} {a : Act} {t : Thread}

/-- What the step does to slot `i`. -/
abbrev StepAt (s s' : Sys) (i : Slot) : Prop :=
  SlotStep s.calls s'.calls (s.proc i) (s'.proc i) (s.thr i) (s'.thr i)

theorem Kept.refl (p : Proc) (t : Thread) : Kept p p t t :=
  ⟨rfl, rfl, rfl, rfl, id, id, fun _ => id⟩

theorem stepAt_same (hproc : s'.proc = s.proc) (hthr : s'.thr = s.thr) (i : Slot) :
    StepAt s s' i := by
  unfold StepAt
  rw [hproc, hthr]
  exact .kept (.refl _ _)

theorem stepAt_slot {q : Proc} (hproc : s'.proc = update s.proc p q) (hthr : s'.thr = update s.thr p t)
    (hp : SlotStep s.calls s'.calls (s.proc p) q (s.thr p) t) (i : Slot) : StepAt s s' i := by
  unfold StepAt
  rw [hproc, hthr]
  by_cases hi : i = p
  · subst hi; simpa using hp
  · simpa [hi] using .kept (.refl _ _)

/-- Only the state of the entry changes, and the process is in no call's `swapOut`. -/
theorem Kept.state {p p' : Proc} (hsw : p.swappingOut = false)
    (hp : p' = { p with state := p'.state }) (hr : p.Rested → p'.Rested) : Kept p p' t t := by
  refine ⟨rfl, rfl, ?_, ?_, ?_, hr, ?_⟩
  · rw [hp]
  · rw [hp]
  · rw [hp]; exact id
  · rw [hsw]; nofun

theorem Kept.stir (hC : Calls s) (hI : Inv s) (ht : Stir s s') (i : Slot) :
    Kept (s.proc i) (s'.proc i) (s.thr i) (s'.thr i) := by
  have hw := ht.proc i
  rw [ht.thr]
  refine ⟨rfl, rfl, hw.chan, hw.swappingOut, hw.wokenUp, hw.rested, fun hsw ho => ?_⟩
  have hi : i ≠ inswapper := by
    rintro rfl
    rw [(hC inswapper).swappingOut_of_nil hI.swapperFits.outs] at hsw
    cases hsw
  rcases ho with e | ⟨e, e'⟩
  · exact .inl (ht.held i hi hsw e)
  · rw [Proc.Outward, ht.state_eq hi (by simp [e]) (by simp [e])]
    exact .inr ⟨e, hw.wokenUp e'⟩

theorem Kept.kill (hC : Calls s) (hI : Inv s) {pid : ℤ} (hok : WakeOk s (.kill c pid))
    (i : Slot) : Kept (s.proc i) ((kill s pid).1.proc i) (s.thr i) ((kill s pid).1.thr i) := by
  have ht := touch_kill hI.swapperIn pid
  have hw := ht.proc i
  rw [ht.thr]
  refine ⟨rfl, rfl, hw.chan, hw.swappingOut, hw.wokenUp, hw.rested, fun hsw ho => ?_⟩
  rcases kill_proc s pid i with e | rfl | htgt
  · rw [e]; exact ho
  · rw [(hC inswapper).swappingOut_of_nil hI.swapperFits.outs] at hsw
    cases hsw
  · have hwk := hok i (by simpa using find?_some htgt) hsw
    rcases hw.state with e | ⟨_, e⟩ | ⟨e, _⟩ | ⟨_, e⟩
    · rw [Proc.Outward, e]
      rcases ho with h | ⟨h, _⟩
      · exact .inl h
      · exact .inr ⟨h, hw.wokenUp hwk⟩
    · exact .inr ⟨e, hw.wokenUp hwk⟩
    · rcases ho with h | ⟨h, _⟩ <;> simp [h] at e
    · exact .inr ⟨e, hw.wokenUp hwk⟩

theorem stepAt_sleep (ho : (s.thr p).outs = [])
    (hsw : (s.proc p).swappingOut = false) (chan : Chan) (w : Bool) (i : Slot) :
    StepAt s (sleep s c p chan w) i := by
  unfold sleep
  dsimp only
  split_ifs
  · exact stepAt_slot (p := p) (q := { s.proc p with
      chan := chan, state := .sleeping, wokenUp := false, swappingOut := true })
      (t := { s.thr p with ctl := .exec, outs := ⟨s.calls, chan, w⟩ :: (s.thr p).outs })
      (by simp) rfl (.swapOut ⟨s.calls, chan, w⟩ rfl (Nat.lt_succ_self _) (by simp [ho]) rfl rfl
        rfl rfl) i
  · exact stepAt_slot (p := p) (q := { s.proc p with chan := chan, state := .sleeping })
      (t := { s.thr p with ctl := .sleep ⟨s.calls, chan, w⟩ }) rfl rfl
      (.enter ⟨s.calls, chan, w⟩ rfl (Nat.lt_succ_self _) ho rfl rfl hsw) i

theorem stepAt_waitLoop (hC : Calls s) (hI : Inv s)
    (ho : (s.thr p).outs = []) (i : Slot) : StepAt s (waitLoop s c p) i := by
  have hsw := (hC p).swappingOut_of_nil ho
  unfold waitLoop
  split
  · rename_i q hq
    have hz := (Inv.zombieChild_some hq).2
    by_cases hip : i = p
    · subst hip
      refine .free (by simpa using ho) (by simp) ?_
      by_cases hiq : i = q
      · subst hiq; simpa using hsw
      · simpa [hiq] using hsw
    · by_cases hiq : i = q
      · subst hiq
        have hk : (s.thr i).ctl ≠ .exec := by
          intro hk
          have := (hI.fits i).state
          simp [hk, StateFits, hz] at this
        refine .kept ⟨by simp [hip], by simp [hip], by simp, by simp, by simp, ?_, ?_⟩
        · simp [Proc.Rested, hz]
        · simp [((hC i).outs_nil hk).2]
      · exact .kept ⟨by simp [hip], by simp [hip], by simp [hiq], by simp [hiq], by simp [hiq],
          by simp [hiq], by simp [hiq]⟩
  · split_ifs
    · exact stepAt_slot (p := p) (q := s.proc p) (t := { s.thr p with ctl := .exec }) (by simp) rfl
        (.free ho (by simp) hsw) i
    · exact stepAt_sleep ho hsw _ _ i

theorem stepAt_swapped (hC : Calls s) (hI : Inv s)
    {outs : List Call} (ho : (s.thr p).outs = call :: outs) (i : Slot) :
    StepAt s (swapped s c p call outs) i := by
  obtain ⟨rfl, _⟩ := (hC p).swapping ho
  have hne : p ≠ inswapper := by
    rintro rfl
    rw [hI.swapperFits.outs] at ho
    cases ho
  by_cases hw : (s.proc p).wokenUp = true
  · rw [swapped_of_woken hne hw]
    by_cases hi : i = p
    · subst hi
      exact .swapped call ho (by simp [Sys.sched]) (by simp [Sys.sched])
        (by simp [Sys.sched, hne]) (by simp [Sys.sched]) (by simp [Sys.sched])
    · have hk : Kept (s.proc i) ((s.setState inswapper .runnable).proc i) (s.thr i) (s.thr i) := by
        by_cases hsw : i = inswapper
        · subst hsw
          exact .state ((hC inswapper).swappingOut_of_nil hI.swapperFits.outs) (by simp)
            (by simp [Proc.Rested])
        · simpa [hsw] using .refl _ _
      exact .kept (by simpa [Sys.sched, hi] using hk)
  · rw [swapped_of_not_woken hw]
    exact stepAt_slot (p := p) (q := { s.proc p with
      swappingOut := false, state := .sleepingSuspended })
      (t := { s.thr p with ctl := .sleep call, outs := [] }) rfl (by simp [Sys.sched])
      (.swapped call ho rfl rfl rfl rfl fun h => absurd h hw) i

theorem stepAt_dispatch (hC : Calls s)
    (hm : (dispatch s c p).mode = .run) (i : Slot) : StepAt s (dispatch s c p) i := by
  obtain ⟨ch, k, hproc, hthr, hk⟩ := dispatch_slot s c p
  obtain ⟨hx, _, hk⟩ := hk hm
  obtain ⟨ho, hsw⟩ := (hC p).outs_nil hx
  refine stepAt_slot hproc hthr (.free ho ?_ hsw) i
  rcases hk with rfl | ⟨rfl, _⟩ <;> simp

theorem stepAt_swapIn (hC : Calls s) (hI : Inv s) {ok : Bool}
    (hk : (s.thr inswapper).ctl = .exec) (hs : swapIn s c ok = some s') (i : Slot) :
    StepAt s s' i := by
  have ho := hI.swapperFits.outs
  have hsw := (hC inswapper).swappingOut_of_nil ho
  unfold swapIn at hs
  split at hs
  · split at hs
    · split at hs <;> (cases hs; exact stepAt_same rfl rfl i)
    · cases hs; exact stepAt_same rfl rfl i
  · cases hs; exact stepAt_same rfl rfl i
  · cases hs; exact stepAt_same rfl rfl i
  · rename_i t hph
    split_ifs at hs
    cases hs
    have he := hI.target t (by simp [hph, Phase.target])
    have hkt : (s.thr t).ctl ≠ .exec := by
      intro hkt
      have := (hI.fits t).state
      simp [hkt, StateFits, he] at this
    exact stepAt_slot (p := t) (q := { s.proc t with state := .runnable }) (t := s.thr t) rfl
      (by simp) (.kept (.state ((hC t).outs_nil hkt).2 rfl fun _ => .inl rfl)) i
  · cases hs; exact stepAt_same rfl rfl i
  · cases hs
    exact stepAt_slot (p := inswapper) (q := { s.proc inswapper with
      chan := .proc inswapper, state := .sleeping }) (t := s.thr inswapper) rfl (by simp)
      (.free ho (by simp [hk]) hsw) i
  · split_ifs at hs <;> cases hs
    · exact stepAt_slot (p := inswapper) (q := s.proc inswapper)
        (t := { s.thr inswapper with ctl := .swapIn }) (by simp [Sys.sched]) rfl
        (.free ho (by simp) hsw) i
    · exact stepAt_same rfl rfl i

/-- **One step, one slot.** -/
theorem stepAt_step (hC : Calls s) (hI : Inv s) (hok : WakeOk s a)
    (hs : step s a = some s') (hm : s'.mode = .run) (i : Slot) : StepAt s s' i := by
  obtain ⟨_, ht⟩ := step_trans hs
  cases ht with
  | acquire c _ _ => exact stepAt_same rfl rfl i
  | skip c j hlt hc hst => exact stepAt_same rfl rfl i
  | release c j hc hlt => exact stepAt_same rfl rfl i
  | setSwap b => exact stepAt_same rfl rfl i
  | forkFull c p hc hl hp hu => exact stepAt_same rfl rfl i
  | initExit c hc hl hp => cases hm
  | pick c j hlt hc hst => exact stepAt_dispatch hC hm i
  | yield c p hc hl hk hst =>
    have ho : (s.thr p).outs = [] := by
      cases ho : (s.thr p).outs with
      | nil => rfl
      | cons call outs =>
        obtain ⟨_, _, _, _, _, e | ⟨e, _⟩⟩ := (hC p).swapping ho <;> simp [hst] at e
    exact stepAt_slot (p := p) (q := { s.proc p with state := .runnable })
      (t := { s.thr p with ctl := .yield }) rfl rfl
      (.free ho (by simp) ((hC p).swappingOut_of_nil ho)) i
  | sleep c a p hc hl hp =>
    have ho := hok p hc
    exact stepAt_sleep ho ((hC p).swappingOut_of_nil ho) _ _ i
  | swapped c p call outs hc hl hk ho => exact stepAt_swapped hC hI ho i
  | wait c p hc hl hp => exact stepAt_waitLoop hC hI hp.2.1 i
  | waitMore c p hc hl hk => exact stepAt_waitLoop hC hI ((hC p).outs_nil (by simp [hk])).1 i
  | exit c p hc hl hp hne =>
    have ht := stir_orphan hI.swapperIn p
    have hk := Kept.stir hC hI ht i
    have hcalls := ht.calls
    have hthr := ht.thr
    have hsw := (ht.proc p).swappingOut
    rw [(hC p).swappingOut_of_nil hp.2.1] at hsw
    rw [exit_eq]
    generalize orphan s p = s1 at hk hcalls hthr hsw
    by_cases hi : i = p
    · subst hi
      exact .free (by simpa [Sys.sched, hthr] using hp.2.1) (by simp [Sys.sched])
        (by simpa [Sys.sched] using hsw)
    · exact .kept (by simpa [Sys.sched, hi] using hk)
  | fork c p np hc hl hp hu =>
    have hst : (s.proc np).state = .unused := by simpa using find?_some hu
    have hkn : (s.thr np).ctl ≠ .exec := by
      intro hk
      have := (hI.fits np).state
      simp [hk, StateFits, hst] at this
    have hne : p ≠ np := by
      rintro rfl
      exact hkn hp.1
    by_cases hip : i = p
    · subst hip
      exact .kept ⟨by simp [alloc, hne], by simp [alloc, hne], by simp [alloc, hne],
        by simp [alloc, hne], by simp [alloc, hne], by simp [alloc, hne], by simp [alloc, hne]⟩
    · by_cases hin : i = np
      · subst hin
        exact .free (by simp [alloc, hip]) (by simp [alloc, hip])
          (by simpa [alloc] using ((hC i).outs_nil hkn).2)
      · exact .kept (by simpa [alloc, hip, hin] using .refl _ _)
  | forked c ok p np hc hk hn =>
    have hst := hI.child p np hn
    have hkn : (s.thr np).ctl ≠ .exec := by
      intro hk
      have := (hI.fits np).state
      simp [hk, StateFits, hst] at this
    have hsw := ((hC np).outs_nil hkn).2
    have hctl : ((forked s p np ok).thr i).ctl = (s.thr i).ctl ∧
        ((forked s p np ok).thr i).outs = (s.thr i).outs := by
      by_cases hip : i = p
      · subst hip
        cases ok <;> simp [forked]
      · cases ok <;> simp [forked, hip]
    refine .kept ⟨hctl.1, hctl.2, ?_, ?_, ?_, ?_, ?_⟩ <;> by_cases hin : i = np
    all_goals first
      | (subst hin; cases ok <;> simp [forked, hst, hsw, Proc.Rested])
      | (cases ok <;> simp [forked, hin])
  | wakeup a hl => exact .kept (Kept.stir hC hI (stir_wakeup1 _ hI.swapperIn) i)
  | kill c pid p hc hl hp => exact .kept (Kept.kill hC hI hok i)
  | swapIn c ok s' hc hk hs => exact stepAt_swapIn hC hI hk hs i

theorem sleep_calls (s : Sys) (c : ℕ) (p : Slot) (chan : Chan) (w : Bool) :
    s.calls ≤ (sleep s c p chan w).calls := by
  unfold sleep
  dsimp only
  split_ifs <;> exact Nat.le_succ _

theorem waitLoop_calls (s : Sys) (c : ℕ) (p : Slot) : s.calls ≤ (waitLoop s c p).calls := by
  unfold waitLoop
  split
  · exact le_refl _
  · split_ifs
    · exact le_refl _
    · exact sleep_calls s c p _ _

theorem swapIn_calls {ok : Bool} (hs : swapIn s c ok = some s') : s'.calls = s.calls := by
  unfold swapIn at hs
  split at hs
  · split at hs
    · split at hs <;> (cases hs; rfl)
    · cases hs; rfl
  · cases hs; rfl
  · cases hs; rfl
  · split_ifs at hs
    cases hs
    rfl
  · cases hs; rfl
  · cases hs; rfl
  · split_ifs at hs <;> (cases hs; rfl)

theorem step_calls (hI : Inv s) (hs : step s a = some s') : s.calls ≤ s'.calls := by
  obtain ⟨_, ht⟩ := step_trans hs
  cases ht with
  | sleep c a p hc hl hp => exact sleep_calls s c p _ _
  | wait c p hc hl hp => exact waitLoop_calls s c p
  | waitMore c p hc hl hk => exact waitLoop_calls s c p
  | pick c i hlt hc hst => exact (dispatch_calls s c _).ge
  | swapped c p call outs hc hl hk ho =>
    unfold swapped
    dsimp only
    split_ifs <;> exact le_refl _
  | exit c p hc hl hp hne =>
    have ht := (touch_orphan hI.swapperIn p).calls
    rw [exit_eq]
    generalize orphan s p = s1 at ht
    exact ht.ge
  | wakeup a hl => exact (touch_wakeup1 _ hI.swapperIn).calls.ge
  | kill c pid p hc hl hp => exact (touch_kill hI.swapperIn pid).calls.ge
  | forked c ok p np hc hk hn => cases ok <;> exact le_refl _
  | swapIn c ok s' hc hk hs => exact (swapIn_calls hs).ge
  | _ => exact le_refl _

theorem Calls.step (h : Calls s) (hI : Inv s) (hok : WakeOk s a)
    (hs : Sched.step s a = some s') (hm : s'.mode = .run) : Calls s' :=
  fun i => (h i).step (step_calls hI hs) (stepAt_step h hI hok hs hm i)

theorem Calls.boot : Calls boot := by
  intro i
  refine ⟨?_, nofun⟩
  simp only [Sched.boot]
  split_ifs <;> rfl

theorem Calls.dozing (h : Calls s) (hI : Inv s)
    (hc : (s.thr p).InCall call) : Dozing call.chan p (s.proc p) := by
  refine ⟨((h p).inCall hc).1, fun hsw => ?_, fun hsw => ?_, ?_⟩
  · cases ho : (s.thr p).outs with
    | nil =>
      rw [(h p).swappingOut_of_nil ho] at hsw
      cases hsw
    | cons _ _ =>
      obtain ⟨_, _, _, _, _, e | ⟨_, e⟩⟩ := (h p).swapping ho
      · exact .inl e
      · exact .inr e
  · rcases hc with hk | hm
    · have hst := (hI.fits p).state
      rw [hk] at hst
      rcases hst with e | e | e | e
      · exact .inl e
      · exact .inr (.inr (.inl e))
      · exact .inr (.inl e)
      · exact .inr (.inr (.inr e))
    · obtain ⟨_, _, ho⟩ := exists_cons_of_ne_nil (ne_nil_of_mem hm)
      rw [((h p).swapping ho).2.2.1] at hsw
      cases hsw
  · rintro rfl
    exact (h inswapper).swappingOut_of_nil hI.swapperFits.outs

/-- For a process in a call, woken is what its entry says. -/
theorem Awake.of_roused {n : ℕ} {p p' : Proc} (hf : CallsFit n p t)
    (hsw : p'.swappingOut = p.swappingOut) (hr : Roused p') : Awake p' t call := by
  refine ⟨fun hm => hr.outward ?_, fun hk => hr.inward ?_⟩
  · obtain ⟨_, _, ho⟩ := exists_cons_of_ne_nil (ne_nil_of_mem hm)
    rw [hsw]
    exact (hf.swapping ho).2.2.1
  · rw [hsw]
    exact (hf.outs_nil (by simp [hk])).2

/-- `kill` wakes its target, if that is not in `swapOut` or has been woken there. -/
theorem Dozing.kill {chan : Chan} {pid : ℤ} (h : Dozing chan p (s.proc p))
    (hp : killTarget s pid = some p) (hok : WakeOk s (.kill c pid)) :
    Roused ((kill s pid).1.proc p) := by
  have hwk : (s.proc p).swappingOut = true → (s.proc p).wokenUp = true :=
    hok p (by simpa using find?_some hp)
  unfold Sched.kill
  simp only [hp]
  split_ifs with h1 h2
  · exact ⟨by simpa using hwk, by simp [Proc.Rested]⟩
  · by_cases hsw : p = inswapper
    · subst hsw
      exact ⟨by simp [resume, h.swapper rfl], by simp [resume, Proc.Rested]⟩
    · exact ⟨by simpa [resume, hsw] using hwk, by simp [resume, hsw, Proc.Rested]⟩
  · refine ⟨by simpa using hwk, fun hsw => ?_⟩
    simp only [Sys.setProc_proc, update_self] at h1 h2 hsw ⊢
    exact ((h.inward hsw).resolve_left h1).resolve_left h2

/-- **A waking step wakes**: whatever wakes the channel or the process of a call in progress
leaves the call woken. -/
theorem Calls.wakes (h : Calls s) (hI : Inv s) (hpid : Pids s) (hok : WakeOk s a) (hc : (s.thr p).InCall call)
    (hw : Wakes s a call.chan (s.proc p).pid) (hs : Sched.step s a = some s')
    (hm : s'.mode = .run) : Awake (s'.proc p) (s'.thr p) call := by
  have hd := h.dozing hI hc
  obtain ⟨_, ht⟩ := step_trans hs
  cases ht with
  | wakeup a hl =>
    have ht := touch_wakeup1 (.obj a) hI.swapperIn
    have hch : call.chan = .obj a := hw
    rw [hch] at hd
    rw [ht.thr]
    exact .of_roused (h p) (ht.proc p).swappingOut (hd.wakeup1 hI.swapperIn)
  | kill c pid q hq hl hp =>
    have ht := touch_kill hI.swapperIn pid
    have hst : (s.proc p).state ≠ .unused := by
      have hf := (hI.fits p).state
      rcases hc with hk | hm
      · rw [hk] at hf
        rcases hf with e | e | e | e <;> simp [e]
      · obtain ⟨_, _, ho⟩ := exists_cons_of_ne_nil (ne_nil_of_mem hm)
        obtain ⟨_, _, _, _, _, e | ⟨e, _⟩⟩ := (h p).swapping ho <;> simp [e]
    have htgt : killTarget s pid = some p := by
      have hpid' : pid = (s.proc p).pid := hw
      rw [hpid']
      exact hpid.killTarget_eq hst
    rw [ht.thr]
    exact .of_roused (h p) (ht.proc p).swappingOut (hd.kill htgt hok)
  | exit c q hq hl hp hne =>
    obtain ⟨q', hq', hw⟩ := hw
    rw [hq] at hq'
    cases hq'
    have ht := touch_orphan hI.swapperIn q
    have hr : Roused ((orphan s q).proc p) := by
      rcases hw with e | ⟨e, z, hz1, hz2⟩
      · rw [e] at hd
        exact hd.exitParent hI.swapperIn
      · rw [e] at hd
        refine hd.exitInit hI.swapperIn ?_ hz1 hz2
        rintro rfl
        rcases hI.swapperFits.state with e | e | e <;> simp [e] at hz2
    have hpq : p ≠ q := by
      rintro rfl
      obtain ⟨h1, h2, _⟩ := hp
      rcases hc with e | e
      · rw [h1] at e; cases e
      · rw [h2] at e; cases e
    rw [exit_eq]
    generalize orphan s q = s1 at ht hr
    have ha : Awake (s1.proc p) (s.thr p) call :=
      .of_roused (h p) (ht.proc p).swappingOut hr
    simpa [Sys.sched, hpq, ht.thr] using ha
  | initExit c hq hl hp => cases hm
  | acquire c _ _ => exact hw.elim
  | skip c j hlt hc hst => exact hw.elim
  | release c j hc hlt => exact hw.elim
  | setSwap b => exact hw.elim
  | forkFull c p hc hl hp hu => exact hw.elim
  | pick c j hlt hc hst => exact hw.elim
  | yield c p hc hl hk hst => exact hw.elim
  | sleep c a p hc hl hp => exact hw.elim
  | swapped c p call outs hc hl hk ho => exact hw.elim
  | wait c p hc hl hp => exact hw.elim
  | waitMore c p hc hl hk => exact hw.elim
  | fork c p np hc hl hp hu => exact hw.elim
  | forked c ok p np hc hk hn => exact hw.elim
  | swapIn c ok s' hc hk hs => exact hw.elim

end steps

theorem Reachable.calls {s : Sys} (h : Reachable WakeOk s) (hm : s.mode = .run) : Calls s := by
  have hI : Reachable WakeOk s ∧ (s.mode = .run → Calls s) := by
    refine Reaches.invariant (I := fun s => Reachable WakeOk s ∧ (s.mode = .run → Calls s)) ?_ h
      ⟨.refl _, fun _ => Calls.boot⟩
    rintro s a s' ⟨hr, hC⟩ hok hs
    have hm := (step_trans hs).1
    exact ⟨hr.snoc hok hs, (hC hm).step (hr.inv hm) hok hs⟩
  exact hI.2 hm

/-- A woken call stays woken for the rest of the run. -/
theorem Awake.reaches {s s' : Sys} {p : Slot} {call : Call} (hr : Reachable WakeOk s)
    (hid : call.id < s.calls) (ha : s.mode = .run → Awake (s.proc p) (s.thr p) call)
    (h : Reaches Sched.step WakeOk s s') (hm : s'.mode = .run) :
    Awake (s'.proc p) (s'.thr p) call := by
  have hI : Reachable WakeOk s' ∧ call.id < s'.calls ∧
      (s'.mode = .run → Awake (s'.proc p) (s'.thr p) call) := by
    refine Reaches.invariant (I := fun s => Reachable WakeOk s ∧ call.id < s.calls ∧
      (s.mode = .run → Awake (s.proc p) (s.thr p) call)) ?_ h ⟨hr, hid, ha⟩
    rintro s a s' ⟨hr, hid, ha⟩ hok hs
    have hm := (step_trans hs).1
    have hI := hr.inv hm
    exact ⟨hr.snoc hok hs, lt_of_lt_of_le hid (step_calls hI hs), fun hm' =>
      (ha hm).step hid (stepAt_step (hr.calls hm) hI hok hs hm' p)⟩
  exact hI.2.2 hm

/-- **No lost wakeup**: in a run without a `sleep` inside `swapOut` and without a `kill` of a
process in `swapOut` that was not woken, a process in a call of `sleep` keeps the channel it was
called with, and once the channel or the process has been woken it never rests in `SLEEPING` or
`SLEEPING_SUSPENDED` for that call again. -/
theorem no_lost_wakeup {s : Sys} (h : Reachable WakeOk s) (hm : s.mode = .run) {p : Slot}
    {call : Call} (hc : (s.thr p).InCall call) :
    (s.proc p).chan = call.chan ∧
      ∀ a s1 s2, WakeOk s a → step s a = some s1 → Wakes s a call.chan (s.proc p).pid →
        Reaches step WakeOk s1 s2 → s2.mode = .run → (s2.thr p).ctl = .sleep call →
        (s2.proc p).state ≠ .sleeping ∧ (s2.proc p).state ≠ .sleepingSuspended := by
  have hC := h.calls hm
  have hI := h.inv hm
  obtain ⟨hch, hid⟩ := (hC p).inCall hc
  refine ⟨hch, fun a s1 s2 hok hs hw hr hm2 hk => ?_⟩
  have ha : Awake (s2.proc p) (s2.thr p) call :=
    .reaches (h.snoc hok hs) (lt_of_lt_of_le hid (step_calls hI hs))
      (hC.wakes hI h.pids hok hc hw hs) hr hm2
  rcases ha.resting hk with e | e <;> simp [e]

/-- Process 4 is woken while it is being swapped out, and rests in `RUNNABLE_SUSPENDED`. -/
theorem no_lost_wakeup_swapOut : ∃ s s1 s2 p call, Reachable WakeOk s ∧ (s.thr p).InCall call ∧
    call.chan = .obj 7 ∧ step s (.wakeup 7) = some s1 ∧ Reaches step WakeOk s1 s2 ∧
    (s2.thr p).ctl = .sleep call ∧ (s.proc p).chan = call.chan ∧
    (s2.proc p).state ≠ .sleeping ∧ (s2.proc p).state ≠ .sleepingSuspended := by
  let p : Slot := ⟨3, by decide⟩
  let call : Call := ⟨0, .obj 7, false⟩
  obtain ⟨s, hs, hp⟩ := reaches_of_exec step WakeOk boot
    (warmUp ++ [.sleep 2 7])
    (fun s => decide (s.mode = .run ∧ (s.thr p).InCall call ∧ WakeOk s (.wakeup 7) ∧
      ((step s (.wakeup 7)).bind fun s1 => (exec step WakeOk s1 [.swapped 2]).map fun s2 =>
        decide (s2.mode = .run ∧ (s2.thr p).ctl = .sleep call)) = some true)) (by decide +kernel)
  obtain ⟨hm, hc, hok, he⟩ := of_decide_eq_true hp
  obtain ⟨s1, hs₁, he⟩ := bind_eq_some_iff.mp he
  obtain ⟨s2, hr, he⟩ := reaches_of_exec _ _ _ _ _ he
  obtain ⟨hm2, hk⟩ := of_decide_eq_true he
  obtain ⟨hch, hw⟩ := no_lost_wakeup hs hm hc
  exact ⟨s, s1, s2, p, call, hs, hc, rfl, hs₁, hr, hk, hch,
    hw (.wakeup 7) s1 s2 hok hs₁ rfl hr hm2 hk⟩

/-- Process 3 kills process 4 while that process is being swapped out: it ends up in
`SLEEPING_SUSPENDED`, where it waits for a wakeup as before. -/
theorem kill_lost : ¬ ∀ s a s1 s2 p call, Reachable Always s → (s.thr p).InCall call →
    step s a = some s1 → Wakes s a call.chan (s.proc p).pid → Reaches step Always s1 s2 →
    (s2.thr p).ctl = .sleep call →
    (s2.proc p).state ≠ .sleeping ∧ (s2.proc p).state ≠ .sleepingSuspended := by
  let p : Slot := ⟨3, by decide⟩
  let call : Call := ⟨0, .obj 7, false⟩
  obtain ⟨s, hs, hp⟩ := reaches_of_exec step Always boot (warmUp ++ [.sleep 2 7])
    (fun s => decide ((s.thr p).InCall call ∧ Wakes s (.kill 1 4) call.chan (s.proc p).pid ∧
      ((step s (.kill 1 4)).bind fun s1 => (exec step Always s1 [.swapped 2]).map fun s2 =>
        decide ((s2.thr p).ctl = .sleep call ∧ (s2.proc p).state = .sleepingSuspended)) =
        some true)) (by decide +kernel)
  obtain ⟨hc, hw, he⟩ := of_decide_eq_true hp
  obtain ⟨s1, hs₁, he⟩ := bind_eq_some_iff.mp he
  obtain ⟨s2, hr, he⟩ := reaches_of_exec _ _ _ _ _ he
  obtain ⟨hk, hst⟩ := of_decide_eq_true he
  intro h
  exact (h s (.kill 1 4) s1 s2 p call hs hc hs₁ hw hr hk).2 hst

end Xv6.Sched
