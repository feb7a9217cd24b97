import Xv6.Sched.Pids

/-! # The process tree and the memory of dead processes

`fork`, `exit` and `wait` in the runs of the scheduler, with the kernel stack and the page directory of
each process. `Kernel` adds these two pointers to the table, each as the number of the allocation it
comes from, and records what was freed and which pids `wait` returned.

What a step of the scheduler means for the tree is said once, in `Move`: it is quiet (no process starts
or ends), or it is the critical section of `allocproc`, the end of a `fork`, an `exit` or a `wait` that
finds a zombie. -/

namespace Xv6.Reap

open Runs Sched List Function Option

structure Kernel where
  sys : Sys
  /-- `p->kstack`. -/
  kstack : Slot → Option ℕ
  /-- `p->pgdir`; `wait` leaves it behind. -/
  pgdir : Slot → Option ℕ
  /-- How many stacks and page directories were allocated. -/
  allocs : ℕ
  /-- The allocations that were freed, in order. -/
  freed : List ℕ
  /-- The pids that `wait` returned, in order. -/
  returned : List ℕ

/-- A step of the scheduler; `stack` says whether a `fork` that fails got its kernel stack. -/
structure Event where
  act : Act
  stack : Bool

namespace Kernel

/-- After `userinit`. -/
def boot : Kernel where
  sys := Sched.boot
  kstack i := if i = initproc then some 0 else if i = inswapper then some 2 else none
  pgdir i := if i = initproc then some 1 else if i = inswapper then some 3 else none
  allocs := 4
  freed := []
  returned := []

/-- `wait` has found the zombie `q`. -/
def reap (t : Kernel) (q : Slot) : Kernel :=
  { t with
    kstack := update t.kstack q none
    freed := t.freed ++ ((t.kstack q).toList ++ (t.pgdir q).toList)
    returned := t.returned ++ [(t.sys.proc q).pid] }

/-- `fork` gives the slot `np` its memory, or fails and takes back the stack if it got one. -/
def forked (t : Kernel) (np : Slot) (ok stack : Bool) : Kernel :=
  if ok then
    { t with
      kstack := update t.kstack np (some t.allocs)
      pgdir := update t.pgdir np (some (t.allocs + 1))
      allocs := t.allocs + 2 }
  else if stack then
    { t with
      kstack := update t.kstack np none
      pgdir := update t.pgdir np none
      allocs := t.allocs + 1
      freed := t.freed ++ [t.allocs] }
  else { t with kstack := update t.kstack np none }

/-- What process `p` does in `wait`. -/
def wait (t : Kernel) (p : Slot) : Kernel :=
  match zombieChild t.sys p with
  | some q => t.reap q
  | none => t

/-- What the process on CPU `c` does to the memory. -/
def memory (t : Kernel) (e : Event) : Kernel :=
  match e.act.cpu.map t.sys.cpu with
  | some (.run p) =>
    match e.act with
    | .wait _ => t.wait p
    | .waitMore _ => t.wait p
    | .forked _ ok =>
      match (t.sys.thr p).child with
      | some np => t.forked np ok e.stack
      | none => t
    | _ => t
  | _ => t

def step (t : Kernel) (e : Event) : Option Kernel :=
  (Sched.step t.sys e.act).map fun s => { t.memory e with sys := s }

end Kernel

/-- The process has a state between `fork` and `exit`. -/
def live (st : ProcState) : Prop := st ≠ .unused ∧ st ≠ .embryo ∧ st ≠ .zombie
deriving Decidable

/-- The process was started and not reaped. -/
def started (st : ProcState) : Prop := st ≠ .unused ∧ st ≠ .embryo
deriving Decidable

theorem live.started {st : ProcState} (h : live st) : started st := ⟨h.1, h.2.1⟩

/-- The entry stays where it is in the tree, or is passed to init. -/
structure Kept (p p' : Proc) : Prop where
  pid : p'.pid = p.pid
  parent : p'.parent = p.parent ∨ p'.parent = some initproc
  state : p'.state = p.state ∨ live p.state ∧ live p'.state

theorem Kept.refl (p : Proc) : Kept p p := ⟨rfl, .inl rfl, .inl rfl⟩

namespace Kept
variable {p p' : Proc}

theorem live_iff (h : Kept p p') : live p'.state ↔ live p.state := by
  rcases h.state with e | ⟨e, e'⟩
  · rw [e]
  · exact iff_of_true e' e

theorem started_iff (h : Kept p p') : started p'.state ↔ started p.state := by
  rcases h.state with e | ⟨e, e'⟩
  · rw [e]
  · exact iff_of_true e'.started e.started

theorem zombie_iff (h : Kept p p') : p'.state = .zombie ↔ p.state = .zombie := by
  rcases h.state with e | ⟨e, e'⟩
  · rw [e]
  · exact iff_of_false e'.2.2 e.2.2

end Kept

/-- No process starts or ends. -/
structure Quiet (s s' : Sys) : Prop where
  proc : ∀ i, Kept (s.proc i) (s'.proc i)
  nextpid : s'.nextpid = s.nextpid

namespace Quiet
variable {s s' s'' : Sys} {p : Slot} {c : ℕ}

theorem of_proc (hproc : s'.proc = s.proc) (hpid : s'.nextpid = s.nextpid) : Quiet s s' :=
  ⟨fun i => by rw [hproc]; exact .refl _, hpid⟩

theorem slot {q : Proc} (hproc : s'.proc = update s.proc p q)
    (hp : Kept (s.proc p) q) (hpid : s'.nextpid = s.nextpid) : Quiet s s' := by
  refine ⟨fun i => ?_, hpid⟩
  rw [hproc]
  by_cases hi : i = p
  · subst hi
    simpa using hp
  · simpa [hi] using Kept.refl (s.proc i)

theorem touch (hI : Inv s) (ht : Touch s s') : Quiet s s' := by
  refine ⟨fun i => ⟨(ht.proc i).pid, (ht.proc i).parent, ?_⟩, by rw [ht.rest]⟩
  rcases (ht.proc i).state with e | ⟨e, e'⟩ | ⟨e, e'⟩ | ⟨rfl, e'⟩
  · exact .inl e
  · exact .inr (by simp [e, e', live])
  · exact .inr (by simp [e, e', live])
  · refine .inr ⟨?_, by simp [e', live]⟩
    rcases hI.swapperFits.state with e | e | e <;> simp [e, live]

theorem trans (h : Quiet s s') (h' : Quiet s' s'') : Quiet s s'' := by
  refine ⟨fun i => ?_, h'.nextpid.trans h.nextpid⟩
  obtain ⟨hpid, hparent, hstate⟩ := h.proc i
  obtain ⟨hpid', hparent', hstate'⟩ := h'.proc i
  refine ⟨hpid'.trans hpid, ?_, ?_⟩
  · rcases hparent' with e | e
    · rw [e]
      exact hparent
    · exact .inr e
  · rcases hstate' with e | ⟨e, e'⟩
    · rw [e]
      exact hstate
    · exact .inr ⟨(h.proc i).live_iff.mp e, e'⟩

theorem sleep (hp : live (s.proc p).state) (chan : Chan) (w : Bool) : Quiet s (sleep s c p chan w) := by
  have hslot : ∀ q : Proc, q.pid = (s.proc p).pid → q.parent = (s.proc p).parent →
      q.state = .sleeping → Kept (s.proc p) q := fun q h1 h2 h3 =>
    ⟨h1, .inl h2, .inr ⟨hp, by simp [h3, live]⟩⟩
  unfold Sched.sleep
  dsimp only
  split_ifs
  · exact slot (p := p) (q := { s.proc p with
      chan := chan, state := .sleeping, wokenUp := false, swappingOut := true }) (by simp)
      (hslot _ rfl rfl rfl) rfl
  · exact slot (p := p) (q := { s.proc p with chan := chan, state := .sleeping }) rfl
      (hslot _ rfl rfl rfl) rfl

theorem swapped (hI : Inv s) {call : Call} {outs : List Call}
    (hp : live (s.proc p).state) (hne : p ≠ inswapper) : Quiet s (swapped s c p call outs) := by
  by_cases hw : (s.proc p).wokenUp = true
  · rw [swapped_of_woken hne hw]
    refine (touch hI (.setRunnable hI.swapperIn (.inr rfl))).trans ?_
    refine slot (p := p) rfl ⟨rfl, .inl rfl, .inr ⟨?_, by simp [live]⟩⟩ rfl
    simpa [hne] using hp
  · rw [swapped_of_not_woken hw]
    exact slot (p := p) rfl ⟨rfl, .inl rfl, .inr ⟨hp, by simp [live]⟩⟩ rfl

theorem dispatch (hp : (s.proc p).state = .runnable) : Quiet s (dispatch s c p) := by
  obtain ⟨ch, k, hproc, _⟩ := dispatch_slot s c p
  exact slot hproc ⟨rfl, .inl rfl, .inr (by simp [hp, live])⟩ (dispatch_nextpid s c p)

theorem swapIn (hI : Inv s) {ok : Bool} (hc : s.cpu c = .run inswapper)
    (hs : swapIn s c ok = some s') : Quiet s s' := by
  unfold Sched.swapIn at hs
  split at hs
  · split at hs
    · split at hs <;> (cases hs; exact of_proc rfl rfl)
    · cases hs
      exact of_proc rfl rfl
  · cases hs
    exact of_proc rfl rfl
  · cases hs
    exact of_proc rfl rfl
  · rename_i t hph
    split_ifs at hs
    cases hs
    have he := hI.target t (by simp [hph, Phase.target])
    exact slot (p := t) (q := { s.proc t with state := .runnable }) rfl
      ⟨rfl, .inl rfl, .inr (by simp [he, live])⟩ rfl
  · cases hs
    exact of_proc rfl rfl
  · cases hs
    refine slot (p := inswapper)
      (q := { s.proc inswapper with chan := .proc inswapper, state := .sleeping }) rfl
      ⟨rfl, .inl rfl, .inr ⟨?_, by simp [live]⟩⟩ rfl
    rcases hI.running_state hc with e | e | e <;> simp [e, live]
  · split_ifs at hs <;> (cases hs; exact of_proc rfl rfl)

end Quiet

/-! ### The children of a process that exits -/

section orphan
variable {s : Sys} {p q : Slot}

theorem parent_ne_of_touch {s' : Sys} (ht : Touch s s') (hp : p ≠ initproc) {i : Slot}
    (hi : (s.proc i).parent ≠ some p) : (s'.proc i).parent ≠ some p := by
  rcases (ht.proc i).parent with e | e
  · rwa [e]
  · rw [e]
    exact fun h => hp (some.inj h).symm

theorem adopt_parent (hs : s.SwapperIn) (hp : p ≠ initproc) (q : Slot) :
    ((adopt p s q).proc q).parent ≠ some p := by
  by_cases hq : (s.proc q).parent = some p
  · have h : Touch s (s.setProc q fun r => { r with parent := some initproc }) :=
      .setProc ⟨rfl, rfl, rfl, id, .inr rfl, .inl rfl⟩ rfl
    have hne : ((s.setProc q fun r => { r with parent := some initproc }).proc q).parent ≠ some p := by
      simpa using fun h => hp h.symm
    rw [adopt, if_pos hq]
    dsimp only
    split_ifs
    · exact parent_ne_of_touch (touch_wakeup1 _ (h.swapperIn hs)) hp hne
    · exact hne
  · exact parent_ne_of_touch (touch_adopt p hs q) hp hq

theorem orphan_parent (hs : s.SwapperIn) (hp : p ≠ initproc) (i : Slot) :
    ((orphan s p).proc i).parent ≠ some p := by
  have hstart := (touch_wakeup1 (parentChan s p) hs).swapperIn hs
  have hmem := mem_finRange i
  rw [orphan]
  generalize wakeup1 (parentChan s p) s = s1 at hstart
  generalize finRange NPROC = l at hmem
  refine Table.foldl_visit (I := Sys.SwapperIn) (Q := fun s => (s.proc i).parent ≠ some p) ?_ ?_ ?_
    hmem hstart
  · exact fun _ q hI => (touch_adopt p hI q).swapperIn hI
  · exact fun _ hI => adopt_parent hI hp i
  · exact fun _ q hI hQ => parent_ne_of_touch (touch_adopt p hI q) hp hQ

end orphan

/-! ### What a step does -/

/-- The cases of a step. -/
inductive Move (t : Kernel) (a : Act) : Kernel → Prop
  | quiet (s' : Sys) : Quiet t.sys s' → Move t a { t with sys := s' }
  | exit (s' : Sys) (p : Slot) : live (t.sys.proc p).state → p ≠ initproc →
      (∀ i, i ≠ p → Kept (t.sys.proc i) (s'.proc i)) → (s'.proc p).state = .zombie →
      (s'.proc p).pid = (t.sys.proc p).pid →
      ((s'.proc p).parent = (t.sys.proc p).parent ∨ (s'.proc p).parent = some initproc) →
      (∀ i, (s'.proc i).parent ≠ some p) → s'.nextpid = t.sys.nextpid →
      Move t a { t with sys := s' }
  | alloc (s' : Sys) (np : Slot) : (t.sys.proc np).state = .unused →
      (∀ i, i ≠ np → s'.proc i = t.sys.proc i) → (s'.proc np).state = .embryo →
      (s'.proc np).pid = t.sys.nextpid → s'.nextpid = t.sys.nextpid + 1 →
      Move t a { t with sys := s' }
  | reap (s' : Sys) (c : ℕ) (p q : Slot) : a = .wait c ∨ a = .waitMore c →
      t.sys.cpu c = .run p → (t.sys.proc q).parent = some p → (t.sys.proc q).state = .zombie →
      (∀ i, i ≠ q → s'.proc i = t.sys.proc i) → (s'.proc q).state = .unused →
      (s'.proc q).pid = 0 → s'.nextpid = t.sys.nextpid → Move t a { t.reap q with sys := s' }
  | born (s' : Sys) (p np : Slot) (stack : Bool) : live (t.sys.proc p).state →
      (t.sys.proc np).state = .embryo → (∀ i, i ≠ np → s'.proc i = t.sys.proc i) →
      (s'.proc np).state = .runnable → (s'.proc np).parent = some p →
      (s'.proc np).pid = (t.sys.proc np).pid → s'.nextpid = t.sys.nextpid →
      Move t a { t.forked np true stack with sys := s' }
  | dies (s' : Sys) (np : Slot) (stack : Bool) : (t.sys.proc np).state = .embryo →
      (∀ i, i ≠ np → s'.proc i = t.sys.proc i) → (s'.proc np).state = .unused →
      (s'.proc np).pid = (t.sys.proc np).pid → s'.nextpid = t.sys.nextpid →
      Move t a { t.forked np false stack with sys := s' }

variable {e : Event}

theorem memory_run {t : Kernel} {c : ℕ} {p : Slot} (ha : e.act.cpu = some c)
    (hc : t.sys.cpu c = .run p) : t.memory e =
      match e.act with
      | .wait _ => t.wait p
      | .waitMore _ => t.wait p
      | .forked _ ok =>
        match (t.sys.thr p).child with
        | some np => t.forked np ok e.stack
        | none => t
      | _ => t := by
  rw [Kernel.memory, ha, map_some, hc]

theorem wait_move {t : Kernel} {a : Act} {c : ℕ} {p : Slot} (ha : a = .wait c ∨ a = .waitMore c)
    (hc : t.sys.cpu c = .run p) (hp : live (t.sys.proc p).state) :
    Move t a { t.wait p with sys := waitLoop t.sys c p } := by
  unfold waitLoop Kernel.wait
  cases hq : zombieChild t.sys p with
  | some q =>
    have hz : (t.sys.proc q).parent = some p ∧ (t.sys.proc q).state = .zombie := by
      simpa using find?_some hq
    refine .reap _ c p q ha hc hz.1 hz.2 (fun i hi => ?_) ?_ ?_ rfl
    · simp [hi]
    · simp
    · simp
  | none =>
    dsimp only
    split_ifs
    · exact .quiet _ (.of_proc rfl rfl)
    · exact .quiet _ (.sleep hp _ _)

theorem step_move {t t' : Kernel} (hI : Inv t.sys) (hs : t.step e = some t') :
    Move t e.act t' := by
  obtain ⟨s', hstep, rfl⟩ := map_eq_some_iff.mp hs
  obtain ⟨_, ht⟩ := step_trans hstep
  have hrun : ∀ {c p}, t.sys.cpu c = .run p → live (t.sys.proc p).state := by
    intro c p hc
    rcases hI.running_state hc with e | e | e <;> simp [e, live]
  obtain ⟨a, stack⟩ := e
  dsimp only at ht ⊢
  cases ht with
  | acquire c _ _ => exact .quiet _ (.of_proc rfl rfl)
  | skip c i hlt hc hst => exact .quiet _ (.of_proc rfl rfl)
  | release c i hc hlt => exact .quiet _ (.of_proc rfl rfl)
  | setSwap b => exact .quiet _ (.of_proc rfl rfl)
  | pick c i hlt hc hst => exact .quiet _ (.dispatch hst)
  | wakeup a hl => exact .quiet _ (.touch hI (touch_wakeup1 _ hI.swapperIn))
  | forkFull c p hc hl hp hu =>
    rw [memory_run (c := c) rfl hc]
    exact .quiet _ (.of_proc rfl rfl)
  | initExit c hc hl hp =>
    rw [memory_run (c := c) rfl hc]
    exact .quiet _ (.of_proc rfl rfl)
  | yield c p hc hl hk hst =>
    rw [memory_run (c := c) rfl hc]
    exact .quiet _ (.slot (p := p) rfl ⟨rfl, .inl rfl, .inr ⟨hrun hc, by simp [live]⟩⟩ rfl)
  | sleep c a p hc hl hp =>
    rw [memory_run (c := c) rfl hc]
    exact .quiet _ (.sleep (hrun hc) _ _)
  | swapped c p call outs hc hl hk ho =>
    rw [memory_run (c := c) rfl hc]
    refine .quiet _ (.swapped hI (hrun hc) ?_)
    rintro rfl
    rw [hI.swapperFits.outs] at ho
    cases ho
  | wait c p hc hl hp =>
    rw [memory_run (c := c) rfl hc]
    exact wait_move (.inl rfl) hc (hrun hc)
  | waitMore c p hc hl hk =>
    rw [memory_run (c := c) rfl hc]
    exact wait_move (.inr rfl) hc (hrun hc)
  | exit c p hc hl hp hne =>
    rw [memory_run (c := c) rfl hc, exit_eq]
    have hq := Quiet.touch hI (touch_orphan hI.swapperIn p)
    have hpar := orphan_parent hI.swapperIn hne
    generalize orphan t.sys p = s1 at hq hpar
    refine .exit _ p (hrun hc) hne (fun i hi => ?_) ?_ ?_ ?_ (fun i => ?_) hq.nextpid
    · simpa [Sys.sched, hi] using hq.proc i
    · simp [Sys.sched]
    · simpa [Sys.sched] using (hq.proc p).pid
    · simpa [Sys.sched] using (hq.proc p).parent
    · by_cases hi : i = p
      · subst hi
        simpa [Sys.sched] using hpar i
      · simpa [Sys.sched, hi] using hpar i
  | fork c p np hc hl hp hu =>
    rw [memory_run (c := c) rfl hc]
    have hst : (t.sys.proc np).state = .unused := by simpa using find?_some hu
    refine .alloc _ np hst (fun i hi => ?_) ?_ ?_ rfl
    · simp [alloc, hi]
    · simp [alloc]
    · simp [alloc]
  | forked c ok p np hc hk hn =>
    rw [memory_run (c := c) rfl hc]
    dsimp only
    rw [hn]
    have hst := hI.child p np hn
    cases ok with
    | true =>
      refine .born _ p np stack (hrun hc) hst (fun i hi => ?_) ?_ ?_ ?_ rfl
      · simp [forked, hi]
      · simp [forked]
      · simp [forked]
      · simp [forked]
    | false =>
      refine .dies _ np stack hst (fun i hi => ?_) ?_ ?_ rfl
      · simp [forked, hi]
      · simp [forked]
      · simp [forked]
  | kill c pid p hc hl hp =>
    rw [memory_run (c := c) rfl hc]
    exact .quiet _ (.touch hI (touch_kill hI.swapperIn pid))
  | swapIn c ok s' hc hk hs =>
    rw [memory_run (c := c) rfl hc]
    exact .quiet _ (.swapIn hI hc hs)

/-! ### The tree -/

/-- Init is alive, and every other process that was started and not reaped has a parent that is. -/
structure Tree (s : Sys) : Prop where
  init : live (s.proc initproc).state
  parent : ∀ i, started (s.proc i).state → i ≠ initproc →
    ∃ q, (s.proc i).parent = some q ∧ live (s.proc q).state

namespace Tree
variable {s s' : Sys}

theorem quiet (h : Tree s) (hq : Quiet s s') : Tree s' := by
  have hinit := (hq.proc initproc).live_iff.mpr h.init
  refine ⟨hinit, fun i hi hne => ?_⟩
  obtain ⟨q, hpar, hlive⟩ := h.parent i ((hq.proc i).started_iff.mp hi) hne
  rcases (hq.proc i).parent with e | e
  · exact ⟨q, e.trans hpar, (hq.proc q).live_iff.mpr hlive⟩
  · exact ⟨initproc, e, hinit⟩

/-- One entry changes that is not alive, before or after; if it is started after, it has a parent. -/
theorem slot (h : Tree s) {q : Slot} (hq : ¬ live (s.proc q).state)
    (hother : ∀ i, i ≠ q → s'.proc i = s.proc i)
    (hnew : started (s'.proc q).state → ∃ p, (s'.proc q).parent = some p ∧ live (s.proc p).state) :
    Tree s' := by
  have hlive : ∀ p, live (s.proc p).state → live (s'.proc p).state := by
    intro p hp
    have hne : p ≠ q := by
      rintro rfl
      exact hq hp
    rwa [hother p hne]
  refine ⟨hlive _ h.init, fun i hi hne => ?_⟩
  by_cases hiq : i = q
  · subst hiq
    obtain ⟨p, hpar, hp⟩ := hnew hi
    exact ⟨p, hpar, hlive p hp⟩
  · rw [hother i hiq] at hi ⊢
    obtain ⟨p, hpar, hp⟩ := h.parent i hi hne
    exact ⟨p, hpar, hlive p hp⟩

/-- The children of a process that exits are passed to init. -/
theorem exit (h : Tree s) {p : Slot} (hp : live (s.proc p).state) (hne : p ≠ initproc)
    (hother : ∀ i, i ≠ p → Kept (s.proc i) (s'.proc i))
    (hpar : (s'.proc p).parent = (s.proc p).parent ∨ (s'.proc p).parent = some initproc)
    (hchild : ∀ i, (s'.proc i).parent ≠ some p) : Tree s' := by
  have hlive : ∀ q, q ≠ p → live (s.proc q).state → live (s'.proc q).state := fun q hq =>
    (hother q hq).live_iff.mpr
  have hinit := hlive initproc hne.symm h.init
  refine ⟨hinit, fun i hi hni => ?_⟩
  have hparent : (s'.proc i).parent = (s.proc i).parent ∨ (s'.proc i).parent = some initproc := by
    by_cases hip : i = p
    · exact hip ▸ hpar
    · exact (hother i hip).parent
  have hstarted : started (s.proc i).state := by
    by_cases hip : i = p
    · exact hip ▸ hp.started
    · exact (hother i hip).started_iff.mp hi
  rcases hparent with e | e
  · obtain ⟨q, hq, hl⟩ := h.parent i hstarted hni
    have hqp : q ≠ p := by
      rintro rfl
      exact hchild i (e.trans hq)
    exact ⟨q, e.trans hq, hlive q hqp hl⟩
  · exact ⟨initproc, e, hinit⟩

end Tree

theorem Tree.move {t t' : Kernel} {a : Act} (h : Tree t.sys) (hm : Move t a t') : Tree t'.sys := by
  cases hm with
  | quiet s' hq => exact h.quiet hq
  | exit s' p hp hne hother _ _ hpar hchild _ => exact h.exit hp hne hother hpar hchild
  | alloc s' np hst hother hnew _ _ =>
    exact h.slot (by simp [hst, live]) hother (by simp [hnew, started])
  | reap s' c p q _ _ _ hst hother hnew _ _ =>
    exact h.slot (by simp [hst, live]) hother (by simp [hnew, started])
  | born s' p np stack hp hst hother _ hpar _ _ =>
    exact h.slot (by simp [hst, live]) hother fun _ => ⟨p, hpar, hp⟩
  | dies s' np stack hst hother hnew _ _ =>
    exact h.slot (by simp [hst, live]) hother (by simp [hnew, started])

/-! ### The memory -/

/-- Allocation `k` is the stack or the page directory of the process in slot `i`. -/
def Kernel.Owns (t : Kernel) (i : Slot) (k : ℕ) : Prop :=
  started (t.sys.proc i).state ∧ (t.kstack i = some k ∨ t.pgdir i = some k)

/-- Every process has a stack and a page directory of its own, and what was freed is nobody's and was
freed once. -/
structure Memory (t : Kernel) : Prop where
  has : ∀ i, started (t.sys.proc i).state →
    ∃ k g, t.kstack i = some k ∧ t.pgdir i = some g ∧ k ≠ g
  one : ∀ i j k, t.Owns i k → t.Owns j k → i = j
  lt : ∀ i k, t.Owns i k → k < t.allocs
  notFreed : ∀ i k, t.Owns i k → k ∉ t.freed
  freed_lt : ∀ k ∈ t.freed, k < t.allocs
  nodup : t.freed.Nodup

namespace Memory
variable {t t' : Kernel} {s' : Sys}

theorem same (h : Memory t) (hst : ∀ i, started (s'.proc i).state ↔ started (t.sys.proc i).state) :
    Memory { t with sys := s' } := by
  have howns : ∀ i k, Kernel.Owns { t with sys := s' } i k → t.Owns i k := fun i k hk =>
    ⟨(hst i).mp hk.1, hk.2⟩
  exact ⟨fun i hi => h.has i ((hst i).mp hi), fun i j k hi hj => h.one i j k (howns i k hi) (howns j k hj),
    fun i k hk => h.lt i k (howns i k hk), fun i k hk => h.notFreed i k (howns i k hk), h.freed_lt, h.nodup⟩

theorem reap (h : Memory t) {q : Slot} (hq : started (t.sys.proc q).state)
    (hother : ∀ i, i ≠ q → s'.proc i = t.sys.proc i) (hnew : (s'.proc q).state = .unused) :
    Memory { t.reap q with sys := s' } := by
  obtain ⟨k, g, hk, hg, hkg⟩ := h.has q hq
  have hkq : t.Owns q k := ⟨hq, .inl hk⟩
  have hgq : t.Owns q g := ⟨hq, .inr hg⟩
  have hne : ∀ i, started (s'.proc i).state → i ≠ q := by
    rintro i hi rfl
    simp [hnew, started] at hi
  have howns : ∀ i m, Kernel.Owns { t.reap q with sys := s' } i m → i ≠ q ∧ t.Owns i m := by
    rintro i m ⟨hi, hm⟩
    have hiq := hne i hi
    refine ⟨hiq, ?_, ?_⟩
    · rwa [← hother i hiq]
    · simpa [Kernel.reap, hiq] using hm
  have hfreed : (t.reap q).freed = t.freed ++ [k, g] := by simp [Kernel.reap, hk, hg]
  refine ⟨fun i hi => ?_, fun i j m hi hj => ?_, fun i m hi => ?_, fun i m hi => ?_, ?_, ?_⟩
  · have hiq := hne i hi
    simpa [Kernel.reap, hiq] using h.has i (by rwa [← hother i hiq])
  · exact h.one i j m (howns i m hi).2 (howns j m hj).2
  · exact h.lt i m (howns i m hi).2
  · obtain ⟨hiq, hm⟩ := howns i m hi
    have hmk : m ≠ k := by
      rintro rfl
      exact hiq (h.one i q m hm hkq)
    have hmg : m ≠ g := by
      rintro rfl
      exact hiq (h.one i q m hm hgq)
    simp only [hfreed, mem_append, mem_cons, not_mem_nil, or_false, not_or]
    exact ⟨h.notFreed i m hm, hmk, hmg⟩
  · intro m hm
    simp only [hfreed, mem_append, mem_cons, not_mem_nil, or_false] at hm
    rcases hm with hm | rfl | rfl
    · exact h.freed_lt m hm
    · exact h.lt q m hkq
    · exact h.lt q m hgq
  · simp only [hfreed, nodup_append, nodup_cons, mem_cons, not_mem_nil, or_false,
      not_false_eq_true, nodup_nil, and_true]
    refine ⟨h.nodup, hkg, ?_⟩
    rintro m hm n (rfl | rfl) rfl
    · exact h.notFreed q m hkq hm
    · exact h.notFreed q m hgq hm

theorem born (h : Memory t) {np : Slot} (hother : ∀ i, i ≠ np → s'.proc i = t.sys.proc i) (stack : Bool) :
    Memory { t.forked np true stack with sys := s' } := by
  have howns : ∀ i m, Kernel.Owns { t.forked np true stack with sys := s' } i m →
      (i = np ∧ t.allocs ≤ m ∧ m < t.allocs + 2) ∨ (i ≠ np ∧ t.Owns i m) := by
    rintro i m ⟨hi, hm⟩
    by_cases hin : i = np
    · subst hin
      have hm : t.allocs = m ∨ t.allocs + 1 = m := by simpa [Kernel.forked] using hm
      exact .inl ⟨rfl, by omega, by omega⟩
    · refine .inr ⟨hin, ?_, ?_⟩
      · rwa [← hother i hin]
      · simpa [Kernel.forked, hin] using hm
  have hallocs : (t.forked np true stack).allocs = t.allocs + 2 := rfl
  refine ⟨fun i hi => ?_, fun i j m hi hj => ?_, fun i m hi => ?_, fun i m hi => ?_, ?_, h.nodup⟩
  · by_cases hin : i = np
    · subst hin
      exact ⟨t.allocs, t.allocs + 1, by simp [Kernel.forked], by simp [Kernel.forked], by omega⟩
    · simpa [Kernel.forked, hin] using h.has i (by rwa [← hother i hin])
  · obtain ⟨hin, hge, _⟩ | ⟨_, hold⟩ := howns i m hi
    · obtain ⟨hjn, _, _⟩ | ⟨_, hold'⟩ := howns j m hj
      · rw [hin, hjn]
      · exact absurd (h.lt j m hold') (by omega)
    · obtain ⟨_, hge', _⟩ | ⟨_, hold'⟩ := howns j m hj
      · exact absurd (h.lt i m hold) (by omega)
      · exact h.one i j m hold hold'
  · rw [hallocs]
    rcases howns i m hi with ⟨_, _, hlt⟩ | ⟨_, hi⟩
    · exact hlt
    · exact Nat.lt_add_right 2 (h.lt i m hi)
  · rcases howns i m hi with ⟨_, hge, _⟩ | ⟨_, hi⟩
    · exact fun hm => absurd (h.freed_lt m hm) (by omega)
    · exact h.notFreed i m hi
  · exact fun m hm => Nat.lt_add_right 2 (h.freed_lt m hm)

/-- A `fork` that fails gives back the stack it may have got. -/
theorem dies (h : Memory t) {np : Slot} (hother : ∀ i, i ≠ np → s'.proc i = t.sys.proc i)
    (hnew : (s'.proc np).state = .unused) (stack : Bool) :
    Memory { t.forked np false stack with sys := s' } := by
  have hne : ∀ i, started (s'.proc i).state → i ≠ np := by
    rintro i hi rfl
    simp [hnew, started] at hi
  have howns : ∀ i m, Kernel.Owns { t.forked np false stack with sys := s' } i m → t.Owns i m := by
    rintro i m ⟨hi, hm⟩
    have hin := hne i hi
    refine ⟨by rwa [← hother i hin], ?_⟩
    cases stack <;> simpa [Kernel.forked, hin] using hm
  have hhas : ∀ i, started (s'.proc i).state → ∃ k g, (t.forked np false stack).kstack i = some k ∧
      (t.forked np false stack).pgdir i = some g ∧ k ≠ g := by
    intro i hi
    have hin := hne i hi
    have hold := h.has i (by rwa [← hother i hin])
    cases stack <;> simpa [Kernel.forked, hin] using hold
  cases stack with
  | false =>
    exact ⟨hhas, fun i j m hi hj => h.one i j m (howns i m hi) (howns j m hj),
      fun i m hi => h.lt i m (howns i m hi), fun i m hi => h.notFreed i m (howns i m hi), h.freed_lt,
      h.nodup⟩
  | true =>
    have hfreed : (t.forked np false true).freed = t.freed ++ [t.allocs] := rfl
    refine ⟨hhas, fun i j m hi hj => h.one i j m (howns i m hi) (howns j m hj),
      fun i m hi => Nat.lt_succ_of_lt (h.lt i m (howns i m hi)), fun i m hi => ?_, fun m hm => ?_, ?_⟩
    · have hlt := h.lt i m (howns i m hi)
      simp only [hfreed, mem_append, mem_singleton, not_or]
      exact ⟨h.notFreed i m (howns i m hi), by omega⟩
    · simp only [hfreed, mem_append, mem_singleton] at hm
      rcases hm with hm | rfl
      · exact Nat.lt_succ_of_lt (h.freed_lt m hm)
      · exact Nat.lt_succ_self _
    · simp only [hfreed, nodup_append, nodup_singleton, mem_singleton, true_and]
      refine ⟨h.nodup, ?_⟩
      intro m hm k hk hmk
      have hlt := h.freed_lt m hm
      omega

theorem move (h : Memory t) {a : Act} (hm : Move t a t') : Memory t' := by
  cases hm with
  | quiet s' hq => exact h.same fun i => (hq.proc i).started_iff
  | exit s' p hp _ hother hz _ _ _ _ =>
    refine h.same fun i => ?_
    by_cases hi : i = p
    · subst hi
      exact iff_of_true (by simp [hz, started]) hp.started
    · exact (hother i hi).started_iff
  | alloc s' np hst hother hnew _ _ =>
    refine h.same fun i => ?_
    by_cases hi : i = np
    · subst hi
      simp [hst, hnew, started]
    · rw [hother i hi]
  | reap s' c p q _ _ _ hst hother hnew _ _ => exact h.reap (by simp [hst, started]) hother hnew
  | born s' p np stack _ _ hother _ _ _ _ => exact h.born hother stack
  | dies s' np stack _ hother hnew _ _ => exact h.dies hother hnew stack

end Memory

/-! ### The pids `wait` returns -/

/-- A pid that was returned is nobody's, and was returned once. -/
structure Returned (t : Kernel) : Prop where
  gone : ∀ n ∈ t.returned, n ≠ 0 ∧ n < t.sys.nextpid ∧ ∀ i, (t.sys.proc i).pid ≠ n
  nodup : t.returned.Nodup

theorem Returned.same {t t' : Kernel} (h : Returned t) (hret : t'.returned = t.returned)
    (hnext : t.sys.nextpid ≤ t'.sys.nextpid)
    (hpid : ∀ i, (t'.sys.proc i).pid = (t.sys.proc i).pid ∨ (t'.sys.proc i).pid = t.sys.nextpid) :
    Returned t' := by
  refine ⟨fun n hn => ?_, hret ▸ h.nodup⟩
  rw [hret] at hn
  obtain ⟨h0, hlt, hne⟩ := h.gone n hn
  refine ⟨h0, lt_of_lt_of_le hlt hnext, fun i => ?_⟩
  rcases hpid i with e | e
  · rw [e]
    exact hne i
  · rw [e]
    exact hlt.ne'

theorem Returned.move {t t' : Kernel} {a : Act} (h : Returned t) (hp : Pids t.sys) (hm : Move t a t') :
    Returned t' := by
  cases hm with
  | quiet s' hq => exact h.same rfl hq.nextpid.ge fun i => .inl (hq.proc i).pid
  | exit s' p _ _ hother _ hpid _ _ hnext =>
    refine h.same rfl hnext.ge fun i => .inl ?_
    by_cases hi : i = p
    · exact hi ▸ hpid
    · exact (hother i hi).pid
  | alloc s' np _ hother _ hpid hnext =>
    refine h.same rfl (by dsimp only; omega) fun i => ?_
    by_cases hi : i = np
    · exact .inr (hi ▸ hpid)
    · exact .inl (by rw [hother i hi])
  | reap s' c p q _ _ _ hst hother _ hpid hnext =>
    have hpos := hp.pos q (by simp [hst])
    have hret : (t.reap q).returned = t.returned ++ [(t.sys.proc q).pid] := rfl
    have hgone : ∀ n, n ≠ 0 → (∀ i, i ≠ q → (t.sys.proc i).pid ≠ n) → ∀ i, (s'.proc i).pid ≠ n := by
      intro n h0 hn i
      by_cases hi : i = q
      · rw [hi, hpid]
        exact h0.symm
      · rw [hother i hi]
        exact hn i hi
    refine ⟨fun n hn => ?_, ?_⟩
    · simp only [hret, mem_append, mem_singleton] at hn
      rw [hnext]
      rcases hn with hn | rfl
      · obtain ⟨h0, hlt, hne⟩ := h.gone n hn
        exact ⟨h0, hlt, hgone n h0 fun i _ => hne i⟩
      · exact ⟨hpos, hp.lt q, hgone _ hpos fun i hi hpid => hi (hp.inj q i hpid.symm hpos).symm⟩
    · simp only [hret, nodup_append, nodup_singleton, mem_singleton, true_and]
      refine ⟨h.nodup, fun n hn m hm hnm => ?_⟩
      exact (h.gone n hn).2.2 q (hm ▸ hnm).symm
  | born s' p np stack _ _ hother _ _ hpid hnext =>
    refine h.same rfl hnext.ge fun i => .inl ?_
    by_cases hi : i = np
    · exact hi ▸ hpid
    · rw [hother i hi]
  | dies s' np stack _ hother _ hpid hnext =>
    refine h.same (by cases stack <;> rfl) hnext.ge fun i => .inl ?_
    by_cases hi : i = np
    · exact hi ▸ hpid
    · rw [hother i hi]

/-! ### Every run -/

structure Kernel.Inv (t : Kernel) : Prop where
  reachable : Reachable Always t.sys
  tree : Tree t.sys
  memory : Memory t
  returned : Returned t

theorem boot_started {i : Slot} (h : started (boot.proc i).state) : i = initproc ∨ i = inswapper := by
  by_contra hi
  rw [not_or] at hi
  simp [boot, hi.1, hi.2, started] at h

theorem boot_owns {i : Slot} {k : ℕ} (h : Kernel.boot.Owns i k) :
    i = initproc ∧ k < 2 ∨ i = inswapper ∧ 2 ≤ k ∧ k < 4 := by
  obtain ⟨hst, hk⟩ := h
  rcases boot_started hst with rfl | rfl
  · have hk : 0 = k ∨ 1 = k := by simpa [Kernel.boot] using hk
    exact .inl ⟨rfl, by omega⟩
  · have hk : 2 = k ∨ 3 = k := by simpa [Kernel.boot, initproc, inswapper] using hk
    exact .inr ⟨rfl, by omega⟩

theorem Tree.boot : Tree boot := by
  refine ⟨by decide, fun i hi hne => ⟨initproc, ?_, by decide⟩⟩
  rcases boot_started hi with rfl | rfl
  · exact absurd rfl hne
  · rfl

theorem Memory.boot : Memory .boot := by
  refine ⟨fun i hi => ?_, fun i j k hi hj => ?_, fun i k hi => ?_, fun _ _ _ => not_mem_nil,
    fun _ hk => absurd hk not_mem_nil, nodup_nil⟩
  · rcases boot_started hi with rfl | rfl
    · exact ⟨0, 1, rfl, rfl, by decide⟩
    · exact ⟨2, 3, rfl, rfl, by decide⟩
  · obtain ⟨hin, _⟩ | ⟨hin, _, _⟩ := boot_owns hi
    · obtain ⟨hjn, _⟩ | ⟨_, _, _⟩ := boot_owns hj
      · rw [hin, hjn]
      · omega
    · obtain ⟨_, _⟩ | ⟨hjn, _, _⟩ := boot_owns hj
      · omega
      · rw [hin, hjn]
  · have hlt : k < 4 := by
      obtain ⟨_, _⟩ | ⟨_, _, _⟩ := boot_owns hi <;> omega
    exact hlt

theorem Kernel.inv_boot : Kernel.boot.Inv where
  reachable := .refl _
  tree := .boot
  memory := .boot
  returned := ⟨fun _ hn => absurd hn not_mem_nil, nodup_nil⟩

theorem Kernel.Inv.step {t t' : Kernel} (h : t.Inv) (hs : t.step e = some t') : t'.Inv := by
  obtain ⟨s', hstep, rfl⟩ := map_eq_some_iff.mp hs
  have hm := step_move (h.reachable.inv (step_trans hstep).1) hs
  exact ⟨h.reachable.snoc trivial hstep, h.tree.move hm, h.memory.move hm,
    h.returned.move h.reachable.pids hm⟩

theorem Kernel.inv_of_reaches {t : Kernel} (h : Reaches Kernel.step Always .boot t) : t.Inv :=
  h.invariant (fun _ _ _ hI _ hs => hI.step hs) Kernel.inv_boot

/-- A `wait` that neither finds a zombie nor sleeps returns `-1`. -/
theorem waitLoop_fails {s : Sys} {c : ℕ} {p : Slot} (hnone : zombieChild s p = none)
    (hcalls : (waitLoop s c p).calls = s.calls) :
    (∀ q, (s.proc q).parent ≠ some p) ∨ (s.proc p).killed = true := by
  rw [waitLoop, hnone] at hcalls
  dsimp only at hcalls
  by_contra hno
  rw [if_neg hno] at hcalls
  unfold sleep at hcalls
  dsimp only at hcalls
  split_ifs at hcalls
  · simp at hcalls
  · simp [Sys.sched] at hcalls

/-- The step is a pass of `wait` by the parent of the zombie `q` that returns its pid and frees its stack
and its page directory, and nothing else. -/
def Kernel.Reaps (t : Kernel) (a : Act) (t' : Kernel) (q : Slot) : Prop :=
  ∃ c p k g, (a = .wait c ∨ a = .waitMore c) ∧ t.sys.cpu c = .run p ∧
    (t.sys.proc q).parent = some p ∧ (t.sys.proc q).state = .zombie ∧
    t'.returned = t.returned ++ [(t.sys.proc q).pid] ∧
    t.kstack q = some k ∧ t.pgdir q = some g ∧ t'.freed = t.freed ++ [k, g]

/-- The slot holds the same zombie as before. -/
def Kernel.Remains (t t' : Kernel) (q : Slot) : Prop :=
  (t'.sys.proc q).state = .zombie ∧ (t'.sys.proc q).pid = (t.sys.proc q).pid ∧
    t'.kstack q = t.kstack q ∧ t'.pgdir q = t.pgdir q

section moves
variable {t t' : Kernel} {a : Act}

theorem Memory.reaps (h : Memory t) {s' : Sys} {c : ℕ} {p q : Slot} (ha : a = .wait c ∨ a = .waitMore c)
    (hc : t.sys.cpu c = .run p) (hpar : (t.sys.proc q).parent = some p)
    (hst : (t.sys.proc q).state = .zombie) : t.Reaps a { t.reap q with sys := s' } q := by
  obtain ⟨k, g, hk, hg, _⟩ := h.has q (by simp [hst, started])
  exact ⟨c, p, k, g, ha, hc, hpar, hst, rfl, hk, hg, by simp [Kernel.reap, hk, hg]⟩

theorem Move.zombie (hm : Move t a t') (h : Memory t) {q : Slot} (hq : (t.sys.proc q).state = .zombie) :
    t.Reaps a t' q ∨ t.Remains t' q := by
  cases hm with
  | quiet s' hquiet =>
    exact .inr ⟨(hquiet.proc q).zombie_iff.mpr hq, (hquiet.proc q).pid, rfl, rfl⟩
  | exit s' p hp _ hother _ _ _ _ _ =>
    have hne : q ≠ p := by
      rintro rfl
      exact hp.2.2 hq
    exact .inr ⟨(hother q hne).zombie_iff.mpr hq, (hother q hne).pid, rfl, rfl⟩
  | alloc s' np hst hother _ _ _ =>
    have hne : q ≠ np := by
      rintro rfl
      simp [hq] at hst
    exact .inr ⟨by rw [hother q hne, hq], by rw [hother q hne], rfl, rfl⟩
  | reap s' c p q' ha hc hpar hst hother _ _ _ =>
    by_cases hqq : q = q'
    · subst hqq
      exact .inl (h.reaps ha hc hpar hst)
    · exact .inr ⟨by rw [hother q hqq, hq], by rw [hother q hqq], by simp [Kernel.reap, hqq], rfl⟩
  | born s' p np stack _ hst hother _ _ _ _ =>
    have hne : q ≠ np := by
      rintro rfl
      simp [hq] at hst
    exact .inr ⟨by rw [hother q hne, hq], by rw [hother q hne], by simp [Kernel.forked, hne],
      by simp [Kernel.forked, hne]⟩
  | dies s' np stack hst hother _ _ _ =>
    have hne : q ≠ np := by
      rintro rfl
      simp [hq] at hst
    refine .inr ⟨by rw [hother q hne, hq], by rw [hother q hne], ?_, ?_⟩ <;>
      cases stack <;> simp [Kernel.forked, hne]

/-- A pid is returned when its zombie is reaped only. -/
theorem Move.returned (hm : Move t a t') (h : Memory t) :
    t'.returned = t.returned ∨ ∃ q, t.Reaps a t' q := by
  cases hm with
  | quiet s' _ => exact .inl rfl
  | exit s' p _ _ _ _ _ _ _ _ => exact .inl rfl
  | alloc s' np _ _ _ _ _ => exact .inl rfl
  | reap s' c p q ha hc hpar hst _ _ _ _ => exact .inr ⟨q, h.reaps ha hc hpar hst⟩
  | born s' p np stack _ _ _ _ _ _ _ => exact .inl rfl
  | dies s' np stack _ _ _ _ _ => exact .inl (by cases stack <;> rfl)

end moves

/-- A pass of `wait` that returns no pid and does not sleep. -/
theorem Kernel.step_wait_fails {t t' : Kernel} {c : ℕ} {p : Slot} (hs : t.step e = some t')
    (ha : e.act = .wait c ∨ e.act = .waitMore c) (hc : t.sys.cpu c = .run p)
    (hret : t'.returned = t.returned) (hcalls : t'.sys.calls = t.sys.calls) :
    (∀ q, (t.sys.proc q).parent ≠ some p) ∨ (t.sys.proc p).killed = true := by
  obtain ⟨s', hstep, rfl⟩ := map_eq_some_iff.mp hs
  obtain ⟨a, stack⟩ := e
  have hloop : s' = waitLoop t.sys c p ∧ t.memory ⟨a, stack⟩ = t.wait p := by
    obtain ⟨_, ht⟩ := step_trans hstep
    obtain rfl | rfl := ha
    · cases ht with
      | wait _ p' hc' _ _ =>
        obtain rfl : p' = p := by simpa [hc] using hc'.symm
        exact ⟨rfl, memory_run (c := c) rfl hc⟩
    · cases ht with
      | waitMore _ p' hc' _ _ =>
        obtain rfl : p' = p := by simpa [hc] using hc'.symm
        exact ⟨rfl, memory_run (c := c) rfl hc⟩
  obtain ⟨rfl, hmem⟩ := hloop
  refine waitLoop_fails ?_ hcalls
  rw [hmem, Kernel.wait] at hret
  cases hq : zombieChild t.sys p with
  | none => rfl
  | some q => simp [hq, Kernel.reap] at hret

/-- The process tree and the reaping of zombies, in every state: a process that was started and not
reaped has a parent that is neither free nor a zombie; pids are returned once, by the parent of the
zombie, and at that moment its memory is freed, for the only time; and `wait` fails at once only for a
process that was killed or has no children. -/
theorem process_tree {t : Kernel} (h : Reaches Kernel.step Always .boot t) :
    (∀ i, (t.sys.proc i).state ≠ .unused → (t.sys.proc i).state ≠ .embryo → i ≠ initproc →
      ∃ q, (t.sys.proc i).parent = some q ∧ (t.sys.proc q).state ≠ .unused ∧
        (t.sys.proc q).state ≠ .zombie) ∧
    (t.returned.Nodup ∧ t.freed.Nodup ∧ ∀ q, (t.sys.proc q).state = .zombie →
      (t.sys.proc q).pid ∉ t.returned ∧
        ∃ k g, t.kstack q = some k ∧ t.pgdir q = some g ∧ k ∉ t.freed ∧ g ∉ t.freed) ∧
    (∀ e t', t.step e = some t' →
      (t'.returned = t.returned ∨ ∃ q, t.Reaps e.act t' q) ∧
      ∀ q, (t.sys.proc q).state = .zombie → t.Reaps e.act t' q ∨ t.Remains t' q) ∧
    ∀ e t' c p, t.step e = some t' → e.act = .wait c ∨ e.act = .waitMore c → t.sys.cpu c = .run p →
      t'.returned = t.returned → t'.sys.calls = t.sys.calls →
      (∀ q, (t.sys.proc q).parent ≠ some p) ∨ (t.sys.proc p).killed = true := by
  obtain ⟨hreach, htree, hmem, hret⟩ := Kernel.inv_of_reaches h
  refine ⟨fun i hu he hi => ?_, ⟨hret.nodup, hmem.nodup, fun q hq => ?_⟩, fun e t' hs => ?_,
    fun e t' c p hs ha hc => Kernel.step_wait_fails hs ha hc⟩
  · obtain ⟨q, hpar, hlive⟩ := htree.parent i ⟨hu, he⟩ hi
    exact ⟨q, hpar, hlive.1, hlive.2.2⟩
  · have hst : started (t.sys.proc q).state := by simp [hq, started]
    obtain ⟨k, g, hk, hg, _⟩ := hmem.has q hst
    exact ⟨fun hn => (hret.gone _ hn).2.2 q rfl, k, g, hk, hg, hmem.notFreed q k ⟨hst, .inl hk⟩,
      hmem.notFreed q g ⟨hst, .inr hg⟩⟩
  · obtain ⟨s', hstep, _⟩ := map_eq_some_iff.mp hs
    have hm := step_move (hreach.inv (step_trans hstep).1) hs
    exact ⟨hm.returned hmem, fun q hq => hm.zombie hmem hq⟩

/-- Init forks, the child exits and init reaps it. -/
def forkExitWait : List Act :=
  [.acquire 0, .scan 0, .fork 0, .forked 0 true, .acquire 1, .scan 1, .scan 1] ++
    replicate 68 (.swapIn 1 true) ++ [.scan 1, .exit 1] ++ replicate 62 (.scan 1) ++ [.wait 0]

theorem process_tree_reaped : ∃ t, Reaches Kernel.step Always .boot t ∧
    (t.returned = [3] ∧ t.freed = [4, 5] ∧ (t.sys.proc inswapper).state = .sleeping) ∧
    ∃ q, (t.sys.proc inswapper).parent = some q ∧ (t.sys.proc q).state ≠ .zombie := by
  obtain ⟨t, ht, htest⟩ := reaches_of_exec Kernel.step Always .boot
    (forkExitWait.map fun a => ⟨a, true⟩)
    (fun t => t.returned = [3] ∧ t.freed = [4, 5] ∧ (t.sys.proc inswapper).state = .sleeping)
    (by decide +kernel)
  have hrun := of_decide_eq_true htest
  obtain ⟨q, hpar, _, hq⟩ := (process_tree ht).1 inswapper (by simp [hrun.2.2]) (by simp [hrun.2.2])
    (by decide)
  exact ⟨t, ht, hrun, q, hpar, hq⟩

end Xv6.Reap
