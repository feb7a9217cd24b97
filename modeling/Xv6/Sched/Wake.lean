import Xv6.Lib.Table
import Xv6.Sched.Model

/-! # What `wakeup1`, `kill` and `exit` do to the table

The loops of `wakeup1` and `exit` and the body of `kill` write the entries of other
processes. `Touch s s'` bounds what they can do, in one statement all later invariants are
derived from: control states, CPUs and the lock stay, an entry keeps its pid, channel and
`swappingOut`, its state stays or moves from `SLEEPING` to `RUNNABLE` or from
`SLEEPING_SUSPENDED` to `RUNNABLE_SUSPENDED`, the inswapper may become `RUNNABLE` from any
state, and `swappedout` moves with the number of processes in `RUNNABLE_SUSPENDED`. -/

namespace Xv6.Sched

open Table Function

namespace Sys

attribute [simp] setState setCtl

variable (s : Sys) (i : Slot) (f : Proc → Proc)

/-- Number of processes in state `RUNNABLE_SUSPENDED`. -/
def suspended : ℕ := count (fun p : Proc => p.state = .runnableSuspended) s.proc

theorem suspended_congr {s s' : Sys} (h : s.proc = s'.proc) : s.suspended = s'.suspended := by
  rw [suspended, suspended, h]

/-- The inswapper is not itself swapped out. -/
def SwapperIn : Prop :=
  (s.proc inswapper).state ≠ .sleepingSuspended ∧ (s.proc inswapper).state ≠ .runnableSuspended

/-- What writing one entry does to the number of suspended processes. -/
theorem suspended_setProc : ((s.setProc i f).suspended : ℤ) = s.suspended +
    (if (f (s.proc i)).state = .runnableSuspended then 1 else 0) -
    (if (s.proc i).state = .runnableSuspended then 1 else 0) :=
  count_update _ _ _ _

theorem suspended_setProc_of_ne (h : (s.proc i).state ≠ .runnableSuspended)
    (h' : (f (s.proc i)).state ≠ .runnableSuspended) : (s.setProc i f).suspended = s.suspended := by
  have := s.suspended_setProc i f
  rw [if_neg h, if_neg h'] at this
  omega

end Sys

/-- What the loops may do to the entry of slot `i`. -/
structure Woken (i : Slot) (p p' : Proc) : Prop where
  pid : p'.pid = p.pid
  chan : p'.chan = p.chan
  swappingOut : p'.swappingOut = p.swappingOut
  wokenUp : p.wokenUp = true → p'.wokenUp = true
  parent : p'.parent = p.parent ∨ p'.parent = some initproc
  state : p'.state = p.state ∨ p.state = .sleeping ∧ p'.state = .runnable ∨
    p.state = .sleepingSuspended ∧ p'.state = .runnableSuspended ∨
    i = inswapper ∧ p'.state = .runnable

theorem Woken.refl (i : Slot) (p : Proc) : Woken i p p :=
  ⟨rfl, rfl, rfl, id, .inl rfl, .inl rfl⟩

theorem Woken.trans {i : Slot} {p q r : Proc} (h : Woken i p q) (h' : Woken i q r) :
    Woken i p r := by
  refine ⟨h'.pid.trans h.pid, h'.chan.trans h.chan, h'.swappingOut.trans h.swappingOut,
    fun hw => h'.wokenUp (h.wokenUp hw), ?_, ?_⟩
  · rcases h'.parent with e | e
    · rw [e]; exact h.parent
    · exact .inr e
  · rcases h'.state with e | ⟨e, e'⟩ | ⟨e, e'⟩ | e
    · rw [e]; exact h.state
    · rcases h.state with g | ⟨g, g'⟩ | ⟨g, g'⟩ | ⟨g, g'⟩ <;> simp_all
    · rcases h.state with g | ⟨g, g'⟩ | ⟨g, g'⟩ | ⟨g, g'⟩ <;> simp_all
    · exact .inr (.inr (.inr e))

/-- A step of one of the loops, or several. -/
structure Touch (s s' : Sys) : Prop where
  rest : s' = { s with proc := s'.proc, swappedout := s'.swappedout }
  proc : ∀ i, Woken i (s.proc i) (s'.proc i)
  count : s'.swappedout - s'.suspended = s.swappedout - s.suspended

namespace Touch
variable {s s' s'' : Sys} {i : Slot}

theorem refl (s : Sys) : Touch s s := ⟨rfl, fun i => .refl i _, rfl⟩

section
variable (h : Touch s s')
include h

theorem trans (h' : Touch s' s'') : Touch s s'' := by
  refine ⟨?_, fun i => (h.proc i).trans (h'.proc i), h'.count.trans h.count⟩
  have e := h'.rest
  rw [h.rest] at e
  exact e

theorem thr : s'.thr = s.thr := by rw [h.rest]
theorem cpu : s'.cpu = s.cpu := by rw [h.rest]
theorem lock : s'.lock = s.lock := by rw [h.rest]
theorem phase : s'.phase = s.phase := by rw [h.rest]
theorem mode : s'.mode = s.mode := by rw [h.rest]
theorem calls : s'.calls = s.calls := by rw [h.rest]

/-- States other than `SLEEPING`, `SLEEPING_SUSPENDED` and that of the inswapper stay. -/
theorem state_eq (hi : i ≠ inswapper)
    (h1 : (s.proc i).state ≠ .sleeping) (h2 : (s.proc i).state ≠ .sleepingSuspended) :
    (s'.proc i).state = (s.proc i).state := by
  rcases (h.proc i).state with e | ⟨e, _⟩ | ⟨e, _⟩ | ⟨e, _⟩
  · exact e
  · exact absurd e h1
  · exact absurd e h2
  · exact absurd e hi

theorem swapperIn (hs : s.SwapperIn) : s'.SwapperIn := by
  obtain ⟨h1, h2⟩ := hs
  rcases (h.proc inswapper).state with e | ⟨_, e⟩ | ⟨e, _⟩ | ⟨_, e⟩
  · exact ⟨by rw [e]; exact h1, by rw [e]; exact h2⟩
  · simp [Sys.SwapperIn, e]
  · exact absurd e h1
  · simp [Sys.SwapperIn, e]

end

theorem setProc {f : Proc → Proc} (hw : Woken i (s.proc i) (f (s.proc i)))
    (hf : (f (s.proc i)).state = (s.proc i).state) : Touch s (s.setProc i f) := by
  refine ⟨rfl, fun j => ?_, ?_⟩
  · by_cases h : j = i
    · subst h; simpa using hw
    · simpa [h] using Woken.refl j _
  · have := s.suspended_setProc i f
    rw [hf] at this
    simp only [Sys.setProc_swappedout]
    omega

/-- `p->state = RUNNABLE` for a sleeping process, and for the inswapper. -/
theorem setRunnable (hs : s.SwapperIn)
    (hi : (s.proc i).state = .sleeping ∨ i = inswapper) : Touch s (s.setState i .runnable) := by
  have hne : (s.proc i).state ≠ .runnableSuspended := by
    rcases hi with e | rfl
    · simp [e]
    · exact hs.2
  refine ⟨rfl, fun j => ?_, ?_⟩
  · by_cases h : j = i
    · subst h
      refine ⟨?_, ?_, ?_, ?_, ?_, ?_⟩ <;> simp
      rcases hi with e | rfl <;> simp_all
    · simpa [h] using Woken.refl j _
  · rw [Sys.setState, s.suspended_setProc_of_ne i _ hne (by simp)]
    rfl

end Touch

theorem touch_resume {s : Sys} {i : Slot} (hs : s.SwapperIn)
    (hi : (s.proc i).state = .sleepingSuspended) : Touch s (resume s i) := by
  have hne : i ≠ inswapper := by
    rintro rfl
    exact hs.1 hi
  have hcount := s.suspended_setProc i fun p => { p with state := .runnableSuspended }
  have hsw := (s.setState i .runnableSuspended).suspended_setProc_of_ne inswapper
    (fun p => { p with state := .runnable })
    (by simpa [update_of_ne hne.symm] using hs.2) (by simp)
  refine ⟨rfl, fun j => ?_, ?_⟩
  · by_cases h : j = inswapper
    · subst h
      refine ⟨?_, ?_, ?_, ?_, ?_, ?_⟩ <;> simp [resume, update_of_ne hne.symm]
    · by_cases h' : j = i
      · subst h'
        refine ⟨?_, ?_, ?_, ?_, ?_, ?_⟩ <;> simp [resume, update_of_ne h, hi]
      · simpa [resume, update_of_ne h, update_of_ne h']
          using Woken.refl j _
  · rw [if_pos rfl, if_neg (by simp [hi])] at hcount
    show s.swappedout + 1 -
      (((s.setState i .runnableSuspended).setState inswapper .runnable).suspended : ℤ) = _
    rw [Sys.setState, hsw, Sys.setState, hcount]
    omega

theorem touch_wakeup1At (chan : Chan) {s : Sys} (hs : s.SwapperIn) (i : Slot) :
    Touch s (wakeup1At chan s i) := by
  unfold wakeup1At
  split_ifs with h1 h2 h3
  · exact .setProc ⟨rfl, rfl, rfl, fun _ => rfl, .inl rfl, .inl rfl⟩ rfl
  · exact .setRunnable hs (.inl h1.1)
  · exact touch_resume hs h3.1
  · exact .refl s

theorem touch_wakeup1 (chan : Chan) {s : Sys} (hs : s.SwapperIn) : Touch s (wakeup1 chan s) :=
  (foldl_rel Touch.refl (fun _ _ _ => Touch.trans)
    (fun _ i hI => ⟨touch_wakeup1At chan hI i, (touch_wakeup1At chan hI i).swapperIn hI⟩) _ hs).1

theorem touch_kill {s : Sys} (hs : s.SwapperIn) (pid : ℤ) : Touch s (kill s pid).1 := by
  unfold kill
  cases killTarget s pid with
  | none => exact .refl s
  | some i =>
    have h : Touch s (s.setProc i fun p => { p with killed := true }) :=
      .setProc ⟨rfl, rfl, rfl, id, .inl rfl, .inl rfl⟩ rfl
    dsimp only
    split_ifs with h1 h2
    · exact h.trans (.setRunnable (h.swapperIn hs) (.inl h1))
    · exact h.trans (touch_resume (h.swapperIn hs) h2)
    · exact h

theorem touch_adopt (p : Slot) {s : Sys} (hs : s.SwapperIn) (q : Slot) :
    Touch s (adopt p s q) := by
  unfold adopt
  have h : Touch s (s.setProc q fun r => { r with parent := some initproc }) :=
    .setProc ⟨rfl, rfl, rfl, id, .inr rfl, .inl rfl⟩ rfl
  dsimp only
  split_ifs with h1 h2
  · exact h.trans (touch_wakeup1 _ (h.swapperIn hs))
  · exact h
  · exact .refl s

/-- The table as `exit` leaves it for the other processes. -/
def orphan (s : Sys) (p : Slot) : Sys :=
  (List.finRange NPROC).foldl (adopt p) (wakeup1 (parentChan s p) s)

theorem touch_orphan {s : Sys} (hs : s.SwapperIn) (p : Slot) : Touch s (orphan s p) := by
  have h := touch_wakeup1 (parentChan s p) hs
  exact h.trans (foldl_rel Touch.refl (fun _ _ _ => Touch.trans)
    (fun _ q hI => ⟨touch_adopt p hI q, (touch_adopt p hI q).swapperIn hI⟩) _ (h.swapperIn hs)).1

theorem exit_eq (s : Sys) (c : ℕ) (p : Slot) :
    exit s c p = ((orphan s p).setState p .zombie).sched c p .exit := rfl

/-- `sleep` after `swapOut`, when the process was woken meanwhile. -/
theorem swapped_of_woken {s : Sys} {c : ℕ} {p : Slot} {call : Call} {outs : List Call}
    (hp : p ≠ inswapper) (hw : (s.proc p).wokenUp = true) :
    swapped s c p call outs =
      (((s.setState inswapper .runnable).setProc p fun q =>
        { q with swappingOut := false, wokenUp := false, state := .runnableSuspended }).setThr p
        fun t => { t with outs := outs }).sched c p (.sleep call) := by
  unfold swapped
  simp only [Sys.setProc_proc, Sys.setThr_proc, update_self, hw, if_true]
  simp only [Sys.setState, Sys.setProc, Sys.setThr, update_self, update_idem,
    update_of_ne hp.symm, update_of_ne hp]
  rw [update_comm hp]

theorem swapped_of_not_woken {s : Sys} {c : ℕ} {p : Slot} {call : Call} {outs : List Call}
    (hw : (s.proc p).wokenUp ≠ true) :
    swapped s c p call outs =
      ((s.setProc p fun q => { q with swappingOut := false, state := .sleepingSuspended }).setThr p
        fun t => { t with outs := outs }).sched c p (.sleep call) := by
  unfold swapped
  simp only [Sys.setProc_proc, Sys.setThr_proc, update_self, hw]
  simp only [Sys.setState, Sys.setProc, Sys.setThr, update_self, update_idem,
    Bool.false_eq_true, if_false]

section dispatch
variable (s : Sys) (c : ℕ) (p : Slot)

@[simp] theorem dispatch_cpu : (dispatch s c p).cpu = update s.cpu c (.run p) := by
  unfold dispatch
  cases (s.thr p).ctl <;> dsimp only <;> (try split_ifs) <;> rfl

@[simp] theorem dispatch_phase : (dispatch s c p).phase = s.phase := by
  unfold dispatch
  cases (s.thr p).ctl <;> dsimp only <;> (try split_ifs) <;> rfl

@[simp] theorem dispatch_swappedout : (dispatch s c p).swappedout = s.swappedout := by
  unfold dispatch
  cases (s.thr p).ctl <;> dsimp only <;> (try split_ifs) <;> rfl

@[simp] theorem dispatch_nextpid : (dispatch s c p).nextpid = s.nextpid := by
  unfold dispatch
  cases (s.thr p).ctl <;> dsimp only <;> (try split_ifs) <;> rfl

@[simp] theorem dispatch_calls : (dispatch s c p).calls = s.calls := by
  unfold dispatch
  cases (s.thr p).ctl <;> dsimp only <;> (try split_ifs) <;> rfl

/-- What starting a process does to its slot; the machine goes on only if the process was off
the CPUs. -/
theorem dispatch_slot : ∃ ch k,
    (dispatch s c p).proc =
      update s.proc p { s.proc p with state := .running, chan := ch } ∧
    (dispatch s c p).thr = update s.thr p { s.thr p with ctl := k } ∧
    ((dispatch s c p).mode = .run → (s.thr p).ctl ≠ .exec ∧ (s.thr p).ctl ≠ .wait ∧
      (k = .exec ∨ k = .wait ∧ ∃ call, (s.thr p).ctl = .sleep call ∧ call.wait = true)) := by
  unfold dispatch
  cases hk : (s.thr p).ctl with
  | fresh =>
    refine ⟨(s.proc p).chan, .exec, ?_⟩
    dsimp only
    split_ifs <;> exact ⟨rfl, rfl, by simp⟩
  | yield => exact ⟨(s.proc p).chan, .exec, rfl, rfl, by simp⟩
  | sleep call =>
    dsimp only
    split_ifs with hw
    · exact ⟨.null, .wait, by simp, rfl, by simp [hw]⟩
    · exact ⟨.null, .exec, by simp, rfl, by simp⟩
  | swapIn => exact ⟨.null, .exec, by simp, rfl, by simp⟩
  | exit => exact ⟨(s.proc p).chan, .exit, rfl, by simp [← hk], by simp⟩
  | exec => exact ⟨(s.proc p).chan, .exec, rfl, by simp [← hk], by simp⟩
  | wait => exact ⟨(s.proc p).chan, .wait, rfl, by simp [← hk], by simp⟩

end dispatch

/-- The step wakes a process with this pid that sleeps on `chan`: `wakeup(chan)`, `kill(pid)`, or
one of the two calls of `wakeup1` in `exit`. -/
def Wakes (s : Sys) (a : Act) (chan : Chan) (pid : ℕ) : Prop :=
  match a with
  | .wakeup a => chan = .obj a
  | .kill _ n => n = pid
  | .exit c => ∃ p, s.cpu c = .run p ∧ (chan = parentChan s p ∨
      chan = .proc initproc ∧ ∃ q, (s.proc q).parent = some p ∧ (s.proc q).state = .zombie)
  | _ => False

instance (s : Sys) (a : Act) (chan : Chan) (pid : ℕ) : Decidable (Wakes s a chan pid) := by
  cases a <;> dsimp only [Wakes] <;> infer_instance

end Xv6.Sched
