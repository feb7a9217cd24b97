import Mathlib.Data.List.FinRange
import Mathlib.Logic.Function.Basic
import Xv6.Param
import Xv6.Lib.Runs

/-! # The scheduler, `sleep`/`wakeup` and the inswapper as a transition system

The part of `proc.c` that moves processes between states, at the granularity of its critical
sections. A step (`Act`) is the code of one CPU from one operation on `ptable.lock` to the
next; code that runs without the lock (`swapOut`, the file operations of `swapIn`, `fork`
after `allocproc`) is interleaved with the critical sections of all other CPUs.

* **Control.**  `Thread` records where each process is: executing, or in `sched()` and who
  called it. `outs` holds the `sleep` calls of the process whose `swapOut` is still in
  progress, the innermost first: `swapOut` runs file operations that may call `sleep` again.
* **Lock.**  `lock` is the CPU that holds `ptable.lock`. `swaplock` is only ever held for a
  few instructions inside one of the steps below.
* **The inswapper** runs `swapIn`; its position there is `Phase`. It holds `ptable.lock`
  while it scans, except after one of the two `break`s.
* **Outside the model.**  What the processes do with their memory and files does not touch the
  table: an executing process may start any of the steps below at any time, and the results of
  `fileopen` and `allocuvm` are arbitrary (the `ok` of `Act.swapIn`, `Act.forked`).
* **Where a run ends.**  A kernel panic stops the machine. When a scheduler picks a process
  that another CPU is executing, `swtch` loads a context from a kernel stack in use; the source
  gives that no meaning and the model stops there as well (`Mode.clash`). -/

namespace Xv6.Sched

open Runs

/-- Sleep channels: a slot of the table (`wait`, `swapIn`), any other kernel object, or `0`. -/
inductive Chan where
  | null
  | proc (i : Slot)
  | obj (a : ℕ)
deriving DecidableEq, Repr

/-- The fields of `struct proc` that the scheduler reads or writes. -/
structure Proc where
  state : ProcState
  pid : ℕ
  parent : Option Slot
  chan : Chan
  killed : Bool
  swappingOut : Bool
  wokenUp : Bool
deriving DecidableEq, Repr

/-- A call `sleep(chan, lk)`; `wait` says that `lk` is `&ptable.lock`. The `id` numbers the
calls of a run, so that one can speak of the same call later. -/
structure Call where
  id : ℕ
  chan : Chan
  wait : Bool
deriving DecidableEq, Repr

/-- Where a process is: not started yet, executing, executing `wait` with `ptable.lock` held,
or in `sched()`, called from `sleep`, `yield`, `exit` or `swapIn`. -/
inductive Ctl where
  | fresh
  | exec
  | wait
  | sleep (call : Call)
  | yield
  | exit
  | swapIn
deriving DecidableEq, Repr

/-- Control state of a process. `child` is the slot `fork` has taken and not yet made
runnable. -/
structure Thread where
  ctl : Ctl
  outs : List Call
  child : Option Slot
deriving DecidableEq, Repr

/-- A CPU is at the top of the loop of `scheduler`, in its `for` loop at `ptable.proc[i]`, or
runs the process it picked there. -/
inductive Cpu where
  | top
  | scan (i : ℕ)
  | run (i : Slot)
deriving DecidableEq, Repr

/-- Position of the inswapper in `swapIn`, or where it will go on there. -/
inductive Phase where
  | scan (i : ℕ)
  | opening (t : Slot)
  | allocating (t : Slot)
  | loading (t : Slot)
  | check
  | rest
  | sched
deriving DecidableEq, Repr

inductive Mode where
  | run
  | panic (msg : String)
  | clash
deriving DecidableEq, Repr

structure Sys where
  proc : Slot → Proc
  thr : Slot → Thread
  cpu : ℕ → Cpu
  lock : Option ℕ
  swapFlag : Bool
  swappedout : ℤ
  nextpid : ℕ
  phase : Phase
  calls : ℕ
  mode : Mode

/-- The steps. `c` is the CPU that takes it. -/
inductive Act where
  | acquire (c : ℕ)
  | scan (c : ℕ)
  | yield (c : ℕ)
  | sleep (c a : ℕ)
  | swapped (c : ℕ)
  | wait (c : ℕ)
  | waitMore (c : ℕ)
  | exit (c : ℕ)
  | fork (c : ℕ)
  | forked (c : ℕ) (ok : Bool)
  | wakeup (a : ℕ)
  | kill (c : ℕ) (pid : ℤ)
  | setSwap (b : Bool)
  | swapIn (c : ℕ) (ok : Bool)
deriving DecidableEq, Repr

namespace Sys

/-- Change the table entry of slot `i`. -/
@[simps -fullyApplied]
def setProc (s : Sys) (i : Slot) (f : Proc → Proc) : Sys :=
  { s with proc := Function.update s.proc i (f (s.proc i)) }

def setState (s : Sys) (i : Slot) (st : ProcState) : Sys :=
  s.setProc i fun p => { p with state := st }

/-- Change the control state of slot `i`. -/
@[simps -fullyApplied]
def setThr (s : Sys) (i : Slot) (f : Thread → Thread) : Sys :=
  { s with thr := Function.update s.thr i (f (s.thr i)) }

def setCtl (s : Sys) (i : Slot) (k : Ctl) : Sys := s.setThr i fun t => { t with ctl := k }

@[simps -fullyApplied]
def setCpu (s : Sys) (c : ℕ) (k : Cpu) : Sys := { s with cpu := Function.update s.cpu c k }

/-- `p` enters `sched()` on CPU `c` with `ptable.lock` held: the scheduler of `c` goes on with
the entry after the one it had picked. -/
def sched (s : Sys) (c : ℕ) (p : Slot) (k : Ctl) : Sys :=
  { (s.setCtl p k).setCpu c (.scan (p + 1)) with lock := some c }

end Sys

/-! ### `wakeup1` and `kill` -/

/-- The two writes that hand a suspended process to the inswapper, with the counter. -/
def resume (s : Sys) (i : Slot) : Sys :=
  { (s.setState i .runnableSuspended).setState inswapper .runnable with
    swappedout := s.swappedout + 1 }

/-- The body of the loop of `wakeup1`; `found_suspended` is `0` throughout. -/
def wakeup1At (chan : Chan) (s : Sys) (i : Slot) : Sys :=
  if (s.proc i).state = .sleeping ∧ (s.proc i).chan = chan then
    if (s.proc i).swappingOut = true then s.setProc i fun p => { p with wokenUp := true }
    else s.setState i .runnable
  else if (s.proc i).state = .sleepingSuspended ∧ (s.proc i).chan = chan then resume s i
  else s

def wakeup1 (chan : Chan) (s : Sys) : Sys := (List.finRange NPROC).foldl (wakeup1At chan) s

/-- The slot `kill(pid)` stops at. -/
def killTarget (s : Sys) (pid : ℤ) : Option Slot :=
  (List.finRange NPROC).find? fun i => decide (((s.proc i).pid : ℤ) = pid)

/-- `kill(pid)`, with its result. -/
def kill (s : Sys) (pid : ℤ) : Sys × ℤ :=
  match killTarget s pid with
  | none => (s, -1)
  | some i =>
    let s := s.setProc i fun p => { p with killed := true }
    if (s.proc i).state = .sleeping then (s.setState i .runnable, 0)
    else if (s.proc i).state = .sleepingSuspended then (resume s i, 0)
    else (s, 0)

/-! ### `sleep`, `wait`, `exit` -/

/-- `sleep(chan, lk)` of process `p` on CPU `c`, from the point where `ptable.lock` is held:
either to the `release` before `swapOut`, or into `sched`. -/
def sleep (s : Sys) (c : ℕ) (p : Slot) (chan : Chan) (wait : Bool) : Sys :=
  let call : Call := ⟨s.calls, chan, wait⟩
  let s : Sys := { s.setProc p (fun q => { q with chan := chan, state := .sleeping }) with
    calls := s.calls + 1 }
  if s.swapFlag = true ∧ 3 < (s.proc p).pid then
    let s := s.setProc p fun q => { q with wokenUp := false, swappingOut := true }
    { s.setThr p (fun t => { t with ctl := .exec, outs := call :: t.outs }) with lock := none }
  else s.sched c p (.sleep call)

/-- The rest of `sleep` after `swapOut` has returned, with `ptable.lock` held. -/
def swapped (s : Sys) (c : ℕ) (p : Slot) (call : Call) (outs : List Call) : Sys :=
  let s := (s.setProc p fun q => { q with swappingOut := false }).setThr p
    fun t => { t with outs := outs }
  if (s.proc p).wokenUp = true then
    let s := s.setProc p fun q => { q with wokenUp := false, state := .runnableSuspended }
    (s.setState inswapper .runnable).sched c p (.sleep call)
  else (s.setState p .sleepingSuspended).sched c p (.sleep call)

/-- The first zombie child of `p`. -/
def zombieChild (s : Sys) (p : Slot) : Option Slot :=
  (List.finRange NPROC).find? fun q =>
    decide ((s.proc q).parent = some p ∧ (s.proc q).state = .zombie)

/-- The body of the loop of `wait`, with `ptable.lock` held: reap a zombie child, return `-1`,
or sleep on the caller's own slot. -/
def waitLoop (s : Sys) (c : ℕ) (p : Slot) : Sys :=
  match zombieChild s p with
  | some q =>
    let s := s.setProc q fun r =>
      { r with state := .unused, pid := 0, parent := none, killed := false }
    { s.setCtl p .exec with lock := none }
  | none =>
    if (∀ q, (s.proc q).parent ≠ some p) ∨ (s.proc p).killed = true then
      { s.setCtl p .exec with lock := none }
    else sleep s c p (.proc p) true

/-- `p->parent` as a channel. -/
def parentChan (s : Sys) (p : Slot) : Chan :=
  match (s.proc p).parent with
  | none => .null
  | some q => .proc q

/-- One iteration of the loop of `exit` that passes children to init. -/
def adopt (p : Slot) (s : Sys) (q : Slot) : Sys :=
  if (s.proc q).parent = some p then
    let s := s.setProc q fun r => { r with parent := some initproc }
    if (s.proc q).state = .zombie then wakeup1 (.proc initproc) s else s
  else s

/-- `exit()` of process `p` on CPU `c`, from `acquire(&ptable.lock)` on. -/
def exit (s : Sys) (c : ℕ) (p : Slot) : Sys :=
  let s := wakeup1 (parentChan s p) s
  let s := (List.finRange NPROC).foldl (adopt p) s
  (s.setState p .zombie).sched c p .exit

/-! ### `fork` -/

/-- The first free slot, as `allocproc` finds it. -/
def unusedSlot (s : Sys) : Option Slot :=
  (List.finRange NPROC).find? fun q => decide ((s.proc q).state = .unused)

/-- The critical section of `allocproc`, called from `fork` of process `p`. -/
def alloc (s : Sys) (p np : Slot) : Sys :=
  let s' := s.setProc np fun q => { q with state := .embryo, pid := s.nextpid }
  let s' := s'.setThr np fun _ => ⟨.fresh, [], none⟩
  { s'.setThr p (fun t => { t with child := some np }) with nextpid := s.nextpid + 1 }

/-- The end of `fork` of process `p`, whose child has slot `np`; `ok` says whether the kernel
stack and the copy of the memory could be allocated. -/
def forked (s : Sys) (p np : Slot) (ok : Bool) : Sys :=
  let s := s.setThr p fun t => { t with child := none }
  if ok = true then s.setProc np fun q => { q with parent := some p, state := .runnable }
  else s.setState np .unused

/-! ### `scheduler` -/

/-- `scheduler` on CPU `c` picks `p`, and `p` runs to the point where it no longer needs
`ptable.lock`: `forkret`, the end of `sleep` or of `yield`. A process that sleeps in `wait`,
and the inswapper, go on with the lock held. -/
def dispatch (s : Sys) (c : ℕ) (p : Slot) : Sys :=
  let k := (s.thr p).ctl
  let s := (s.setState p .running).setCpu c (.run p)
  match k with
  | .fresh => if p = inswapper then s.setCtl p .exec else { s.setCtl p .exec with lock := none }
  | .yield => { s.setCtl p .exec with lock := none }
  | .sleep call =>
    let s := s.setProc p fun q => { q with chan := .null }
    if call.wait = true then s.setCtl p .wait
    else { s.setCtl p .exec with lock := none }
  | .swapIn => (s.setProc p fun q => { q with chan := .null }).setCtl p .exec
  | .exit => { s with mode := .panic "zombie exit" }
  | .exec => { s with mode := .clash }
  | .wait => { s with mode := .clash }

/-! ### `swapIn` -/

/-- The phases in which the inswapper is in file operations and may call `sleep`. -/
def Phase.blocking : Phase → Bool
  | .opening _ => true
  | .loading _ => true
  | _ => false

/-- One step of `swapIn` on CPU `c`; `ok` is the outcome of `fileopen` or `allocuvm`. -/
def swapIn (s : Sys) (c : ℕ) (ok : Bool) : Option Sys :=
  match s.phase with
  | .scan i =>
    if h : i < NPROC then
      if (s.proc ⟨i, h⟩).state ≠ .runnableSuspended then
        some { s with phase := .scan (i + 1) }
      else
        some { s with
          lock := if s.lock = some c then none else s.lock
          phase := .opening ⟨i, h⟩ }
    else some { s with phase := .check }
  | .opening t => some { s with phase := if ok = true then .allocating t else .check }
  | .allocating t => some { s with phase := if ok = true then .loading t else .check }
  | .loading t =>
    if s.lock = none then
      some { s.setState t .runnable with
        lock := some c
        swappedout := s.swappedout - 1
        phase := .scan (t + 1) }
    else none
  | .check => some { s with phase := if s.swappedout > 0 then .scan 0 else .rest }
  | .rest =>
    some { s.setProc inswapper (fun p => { p with
      chan := .proc inswapper, state := .sleeping }) with phase := .sched }
  | .sched =>
    -- back from `sched` the loop starts over
    if s.lock = some c then some { s.sched c inswapper .swapIn with phase := .scan 0 }
    else some { s with mode := .panic "sched ptable.lock" }

/-! ### The step function -/

/-- `p` executes kernel code on behalf of a system call, outside `sleep`. -/
def Sys.inSyscall (s : Sys) (p : Slot) : Prop :=
  (s.thr p).ctl = .exec ∧ (s.thr p).outs = [] ∧ (s.thr p).child = none ∧ p ≠ inswapper
deriving Decidable

/-- `p` is at a point where it may call `sleep`: also inside `swapOut`, and the inswapper in its
file operations. -/
def Sys.maySleep (s : Sys) (p : Slot) : Prop :=
  (s.thr p).ctl = .exec ∧ (s.thr p).child = none ∧ (p = inswapper → s.phase.blocking = true)
deriving Decidable

/-- The step taken by CPU `c` when it runs process `p`. -/
def procStep (s : Sys) (c : ℕ) (p : Slot) : Act → Option Sys
  | .yield _ =>
    -- `trap` only calls `yield` in state `RUNNING`
    if s.lock = none ∧ (s.thr p).ctl = .exec ∧ (s.proc p).state = .running then
      some ((s.setState p .runnable).sched c p .yield)
    else none
  | .sleep _ a =>
    if s.lock = none ∧ s.maySleep p then some (sleep s c p (.obj a) false) else none
  | .swapped _ =>
    match (s.thr p).outs with
    | call :: outs =>
      if s.lock = none ∧ (s.thr p).ctl = .exec then some (swapped s c p call outs) else none
    | [] => none
  | .wait _ => if s.lock = none ∧ s.inSyscall p then some (waitLoop s c p) else none
  | .waitMore _ =>
    if s.lock = some c ∧ (s.thr p).ctl = .wait then some (waitLoop s c p) else none
  | .exit _ =>
    if s.lock = none ∧ s.inSyscall p then
      if p = initproc then some { s with mode := .panic "init exiting" }
      else some (exit s c p)
    else none
  | .fork _ =>
    if s.lock = none ∧ s.inSyscall p then
      match unusedSlot s with
      | none => some s
      | some np => some (alloc s p np)
    else none
  | .forked _ ok =>
    match (s.thr p).child with
    | some np => if (s.thr p).ctl = .exec then some (forked s p np ok) else none
    | none => none
  | .kill _ pid => if s.lock = none ∧ s.inSyscall p then some (kill s pid).1 else none
  | .swapIn _ ok =>
    if p = inswapper ∧ (s.thr p).ctl = .exec then swapIn s c ok else none
  | _ => none

/-- The CPU that takes a step, for the steps of an executing process. -/
def Act.cpu : Act → Option ℕ
  | .yield c => some c
  | .sleep c _ => some c
  | .swapped c => some c
  | .wait c => some c
  | .waitMore c => some c
  | .exit c => some c
  | .fork c => some c
  | .forked c _ => some c
  | .kill c _ => some c
  | .swapIn c _ => some c
  | _ => none

/-- One step of the system. -/
def step (s : Sys) (a : Act) : Option Sys :=
  if s.mode = .run then
    match a with
    | .acquire c =>
      if s.lock = none ∧ s.cpu c = .top then some { s.setCpu c (.scan 0) with lock := some c }
      else none
    | .scan c =>
      match s.cpu c with
      | .scan i =>
        if h : i < NPROC then
          if (s.proc ⟨i, h⟩).state = .runnable then some (dispatch s c ⟨i, h⟩)
          else some (s.setCpu c (.scan (i + 1)))
        else some { s.setCpu c .top with lock := none }
      | _ => none
    | .wakeup a => if s.lock = none then some (wakeup1 (.obj a) s) else none
    | .setSwap b => some { s with swapFlag := b }
    | a =>
      match a.cpu with
      | some c => match s.cpu c with
          | .run p => procStep s c p a
          | _ => none
      | none => none
  else none

/-- The state `userinit` leaves: init and the inswapper runnable, all other slots unused. -/
def boot : Sys where
  proc i :=
    if i = initproc then ⟨.runnable, 1, none, .null, false, false, false⟩
    else if i = inswapper then ⟨.runnable, 2, some initproc, .null, false, false, false⟩
    else ⟨.unused, 0, none, .null, false, false, false⟩
  thr _ := ⟨.fresh, [], none⟩
  cpu _ := .top
  lock := none
  swapFlag := false
  swappedout := 0
  nextpid := 3
  phase := .scan 0
  calls := 0
  mode := .run

/-- A state of some run from boot in which every step met `ok`. -/
abbrev Reachable (ok : Sys → Act → Prop) (s : Sys) : Prop := Reaches step ok boot s

end Xv6.Sched
