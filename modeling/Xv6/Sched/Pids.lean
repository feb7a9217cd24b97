import Xv6.Sched.Invariant

/-! # Process ids

`allocproc` numbers the processes from `nextpid`, and `wait` clears the pid of the slot it frees.
A slot whose `fork` failed keeps its number; it is never handed out again. So no two slots have
the same pid, and the scan of `kill` finds the process it was asked for. -/

namespace Xv6.Sched

open Runs Table

structure Pids (s : Sys) : Prop where
  lt : ∀ i, (s.proc i).pid < s.nextpid
  inj : ∀ i j, (s.proc i).pid = (s.proc j).pid → (s.proc i).pid ≠ 0 → i = j
  pos : ∀ i, (s.proc i).state ≠ .unused → (s.proc i).pid ≠ 0

/-- The entry keeps its pid, or the slot is freed. -/
def PidKept (p p' : Proc) : Prop :=
  p'.pid = p.pid ∧ (p.state = .unused → p'.state = .unused) ∨ p'.pid = 0 ∧ p'.state = .unused

theorem PidKept.of_ne {p p' : Proc} (hpid : p'.pid = p.pid) (hst : p.state ≠ .unused) :
    PidKept p p' := .inl ⟨hpid, fun h => absurd h hst⟩

namespace Pids
variable {s s' : Sys}

section
variable (h : Pids s) {p : Slot} {c : ℕ}
include h

theorem kept (hp : ∀ i, PidKept (s.proc i) (s'.proc i)) (hn : s'.nextpid = s.nextpid) : Pids s' := by
  have hpid : ∀ i, (s'.proc i).pid ≠ 0 → (s'.proc i).pid = (s.proc i).pid := by
    intro i hi
    rcases hp i with ⟨e, _⟩ | ⟨e, _⟩
    · exact e
    · exact absurd e hi
  refine ⟨fun i => ?_, fun i j hij hi => ?_, fun i hi => ?_⟩
  · rw [hn]
    rcases hp i with ⟨e, _⟩ | ⟨e, _⟩ <;> rw [e]
    · exact h.lt i
    · exact Nat.zero_lt_of_lt (h.lt i)
  · have hj : (s'.proc j).pid ≠ 0 := by rw [← hij]; exact hi
    rw [hpid i hi, hpid j hj] at hij
    rw [hpid i hi] at hi
    exact h.inj i j hij hi
  · rcases hp i with ⟨e, e'⟩ | ⟨_, e⟩
    · rw [e]
      exact h.pos i fun hu => hi (e' hu)
    · exact absurd e hi

theorem slot {q : Proc} (hproc : s'.proc = Function.update s.proc p q)
    (hp : PidKept (s.proc p) q) (hn : s'.nextpid = s.nextpid) : Pids s' := by
  refine h.kept (fun i => ?_) hn
  rw [hproc]
  by_cases hi : i = p
  · subst hi; simpa using hp
  · simpa [hi] using .inl ⟨rfl, id⟩

theorem touch (hI : Inv s) (ht : Touch s s') : Pids s' := by
  refine h.kept (fun i => .inl ⟨(ht.proc i).pid, fun hu => ?_⟩) (by rw [ht.rest])
  have hi : i ≠ inswapper := by
    rintro rfl
    rcases hI.swapperFits.state with e | e | e <;> simp [e] at hu
  rw [ht.state_eq hi (by simp [hu]) (by simp [hu])]
  exact hu

theorem sleep (hp : (s.proc p).state ≠ .unused) (chan : Chan) (w : Bool) : Pids (sleep s c p chan w) := by
  unfold Sched.sleep
  dsimp only
  split_ifs
  · exact h.slot (p := p) (q := { s.proc p with
      chan := chan, state := .sleeping, wokenUp := false, swappingOut := true }) (by simp)
      (.of_ne rfl hp) rfl
  · exact h.slot (p := p) (q := { s.proc p with chan := chan, state := .sleeping }) rfl
      (.of_ne rfl hp) rfl

theorem swapped (hI : Inv s) {call : Call} {outs : List Call}
    (hp : (s.proc p).state ≠ .unused) (hne : p ≠ inswapper) : Pids (swapped s c p call outs) := by
  by_cases hw : (s.proc p).wokenUp = true
  · rw [swapped_of_woken hne hw]
    have h1 := h.touch hI (.setRunnable hI.swapperIn (.inr rfl))
    exact h1.slot (p := p) rfl (.of_ne rfl (by simpa [hne] using hp)) rfl
  · rw [swapped_of_not_woken hw]
    exact h.slot (p := p) rfl (.of_ne rfl hp) rfl

theorem waitLoop (hp : (s.proc p).state ≠ .unused) : Pids (waitLoop s c p) := by
  unfold Sched.waitLoop
  split
  · rename_i q hq
    exact h.slot (p := q) (q := { s.proc q with
      state := .unused, pid := 0, parent := none, killed := false }) rfl (.inr ⟨rfl, rfl⟩) rfl
  · split_ifs
    · exact h.kept (fun i => .inl ⟨rfl, id⟩) rfl
    · exact h.sleep hp _ _

theorem dispatch (hp : (s.proc p).state = .runnable) : Pids (dispatch s c p) := by
  obtain ⟨ch, k, hproc, _⟩ := dispatch_slot s c p
  exact h.slot hproc (.of_ne rfl (by simp [hp])) (dispatch_nextpid s c p)

theorem alloc (hpos : s.nextpid ≠ 0) (p np : Slot) : Pids (alloc s p np) := by
  have hproc : ∀ i, i ≠ np → (Sched.alloc s p np).proc i = s.proc i := by
    intro i hi
    simp [Sched.alloc, hi]
  have hnew : ((Sched.alloc s p np).proc np).pid = s.nextpid := by simp [Sched.alloc]
  refine ⟨fun i => ?_, fun i j hij hi => ?_, fun i hi => ?_⟩
  · show _ < s.nextpid + 1
    by_cases hin : i = np
    · rw [hin, hnew]; omega
    · rw [hproc i hin]
      have := h.lt i
      omega
  · by_cases hin : i = np <;> by_cases hjn : j = np
    · rw [hin, hjn]
    · rw [hin, hnew, hproc j hjn] at hij
      exact absurd hij (h.lt j).ne'
    · rw [hjn, hnew, hproc i hin] at hij
      exact absurd hij (h.lt i).ne
    · rw [hproc i hin, hproc j hjn] at hij
      rw [hproc i hin] at hi
      exact h.inj i j hij hi
  · by_cases hin : i = np
    · rw [hin, hnew]; exact hpos
    · rw [hproc i hin] at hi ⊢
      exact h.pos i hi

theorem swapIn (hI : Inv s) {ok : Bool} (hc : s.cpu c = .run inswapper)
    (hs : swapIn s c ok = some s') : Pids s' := by
  have hsame : ∀ i, PidKept (s.proc i) (s.proc i) := fun i => .inl ⟨rfl, id⟩
  unfold Sched.swapIn at hs
  split at hs
  · split at hs
    · split at hs <;> (cases hs; exact h.kept hsame rfl)
    · cases hs; exact h.kept hsame rfl
  · cases hs; exact h.kept hsame rfl
  · cases hs; exact h.kept hsame rfl
  · rename_i t hph
    split_ifs at hs
    cases hs
    have he := hI.target t (by simp [hph, Phase.target])
    exact h.slot (p := t) (q := { s.proc t with state := .runnable }) rfl
      (.of_ne rfl (by simp [he])) rfl
  · cases hs; exact h.kept hsame rfl
  · cases hs
    refine h.slot (p := inswapper)
      (q := { s.proc inswapper with chan := .proc inswapper, state := .sleeping }) rfl
      (.of_ne rfl ?_) rfl
    rcases hI.running_state hc with e | e | e <;> simp [e]
  · split_ifs at hs <;> (cases hs; exact h.kept hsame rfl)

theorem step (hI : Inv s) {a : Act} (hs : step s a = some s') : Pids s' := by
  obtain ⟨_, ht⟩ := step_trans hs
  have hsame : ∀ i, PidKept (s.proc i) (s.proc i) := fun i => .inl ⟨rfl, id⟩
  have hrun : ∀ {c p}, s.cpu c = .run p → (s.proc p).state ≠ .unused := by
    intro c p hc
    rcases hI.running_state hc with e | e | e <;> simp [e]
  cases ht with
  | acquire c _ _ => exact h.kept hsame rfl
  | skip c i hlt hc hst => exact h.kept hsame rfl
  | release c i hc hlt => exact h.kept hsame rfl
  | setSwap b => exact h.kept hsame rfl
  | forkFull c p hc hl hp hu => exact h
  | initExit c hc hl hp => exact h.kept hsame rfl
  | pick c i hlt hc hst => exact h.dispatch hst
  | yield c p hc hl hk hst =>
    exact h.slot (p := p) (q := { s.proc p with state := .runnable }) rfl
      (.of_ne rfl (hrun hc)) rfl
  | sleep c a p hc hl hp => exact h.sleep (hrun hc) _ _
  | swapped c p call outs hc hl hk ho =>
    refine h.swapped hI (hrun hc) ?_
    rintro rfl
    rw [hI.swapperFits.outs] at ho
    cases ho
  | wait c p hc hl hp => exact h.waitLoop (hrun hc)
  | waitMore c p hc hl hk => exact h.waitLoop (hrun hc)
  | exit c p hc hl hp hne =>
    have ht := touch_orphan hI.swapperIn p
    have h1 := h.touch hI ht
    have hst := (hI.touch ht).running_state (c := c) (p := p) (by rw [ht.cpu]; exact hc)
    rw [exit_eq]
    generalize orphan s p = s1 at h1 hst
    refine h1.slot (p := p) (q := { s1.proc p with state := .zombie }) rfl (.of_ne rfl ?_) rfl
    rcases hst with e | e | e <;> simp [e]
  | fork c p np hc hl hp hu => exact h.alloc (Nat.ne_of_gt (Nat.zero_lt_of_lt (h.lt p))) p np
  | forked c ok p np hc hk hn =>
    have hst := hI.child p np hn
    cases ok
    · exact h.slot (p := np) (q := { s.proc np with state := .unused }) rfl
        (.of_ne rfl (by simp [hst])) rfl
    · exact h.slot (p := np) (q := { s.proc np with parent := some p, state := .runnable }) rfl
        (.of_ne rfl (by simp [hst])) rfl
  | wakeup a hl => exact h.touch hI (touch_wakeup1 _ hI.swapperIn)
  | kill c pid p hc hl hp => exact h.touch hI (touch_kill hI.swapperIn pid)
  | swapIn c ok s' hc hk hs => exact h.swapIn hI hc hs

end

theorem boot : Pids boot := by
  refine ⟨fun i => ?_, fun i j => ?_, fun i => ?_⟩
  · simp only [Sched.boot]
    split_ifs <;> simp
  · simp only [Sched.boot]
    split_ifs <;> simp_all
  · simp only [Sched.boot]
    split_ifs <;> simp

end Pids

theorem Reachable.pids {ok : Sys → Act → Prop} {s : Sys} (h : Reachable ok s) : Pids s := by
  have hI : Reachable ok s ∧ Pids s := by
    refine Reaches.invariant (I := fun s => Reachable ok s ∧ Pids s) ?_ h ⟨.refl _, Pids.boot⟩
    rintro s a s' ⟨hr, hp⟩ hok hs
    exact ⟨hr.snoc hok hs, hp.step (hr.inv (step_trans hs).1) hs⟩
  exact hI.2

/-- `kill` finds the process with the pid it was given. -/
theorem Pids.killTarget_eq {s : Sys} (h : Pids s) {p : Slot} (hp : (s.proc p).state ≠ .unused) :
    killTarget s (s.proc p).pid = some p := by
  have hmem : ∃ i, killTarget s (s.proc p).pid = some i := by
    rw [← Option.isSome_iff_exists, killTarget, List.find?_isSome]
    exact ⟨p, List.mem_finRange p, by simp⟩
  obtain ⟨i, hi⟩ := hmem
  have hpid : (s.proc i).pid = (s.proc p).pid := by simpa using List.find?_some hi
  rw [hi, h.inj i p hpid (by rw [hpid]; exact h.pos p hp)]

end Xv6.Sched
