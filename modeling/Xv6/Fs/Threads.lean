import Mathlib.Algebra.BigOperators.Fin
import Mathlib.Data.Fintype.Basic
import Xv6.Fs.Order
import Xv6.Lib.Runs

/-! # Processes in the file system

Several processes are in system calls at a time, and take turns command by command. A process is a
stack of frames: what is left of the call it is in, and, above it, what is left of the `swapOut` that
a `sleep` in that call has become. Every frame has the locks that its own code took.

* A command that asks for a lock somebody holds cannot run; in `begin_trans` the process spins, in
  `ilock` and `bget` it sleeps.
* With swapping enabled, a process with a pid above 3 that sleeps runs `swapOut` first. It writes to
  the file whose name `allocproc` gave to the process what the process has in memory; here the name
  and the pages are arbitrary.
* A panic stops the machine.

`step_move` says once what a step can do. -/

namespace Xv6.Fs

open Option

/-- What a process has still to do, and the locks that its code so far has taken. -/
structure Frame where
  left : Kern Unit
  held : Held

/-- The file system and the processes that use it. -/
structure Machine where
  kern : State
  stack : Slot → List Frame
  pid : Slot → ℕ
  swapFlag : Bool

/-- System calls, and `sleep` on something outside of the file system. -/
inductive Call where
  | sysOpen (path : List UInt8) (omode : ℕ)
  | sysClose (fd : ℕ)
  | sysDup (fd : ℕ)
  | sysRead (fd n : ℕ)
  | sysWrite (fd : ℕ) (l : List UInt8)
  | sysLink (old new : List UInt8)
  | unlink (path : List UInt8)
  | sysMkdir (path : List UInt8)
  | sysMknod (path : List UInt8) (major minor : ℕ)
  | sysChdir (path : List UInt8)
  | exec (path : List UInt8) (reads : List (ℕ × ℕ))
  | fork (q : Slot)
  | exit
  | sleep

/-- The program of a call; what it returns does not matter here. -/
def Call.prog : Call → Kern Unit
  | .sysOpen path omode => (Names.sysOpen path omode).kern >>= fun _ => pure ()
  | .sysClose fd => (Names.sysClose fd).kern >>= fun _ => pure ()
  | .sysDup fd => (Names.sysDup fd).kern >>= fun _ => pure ()
  | .sysRead fd n => (Names.sysRead fd n).kern >>= fun _ => pure ()
  | .sysWrite fd l => (Names.sysWrite fd l).kern >>= fun _ => pure ()
  | .sysLink old new => (Names.sysLink old new).kern >>= fun _ => pure ()
  | .unlink path => (Names.unlink path).kern >>= fun _ => pure ()
  | .sysMkdir path => (Names.sysMkdir path).kern >>= fun _ => pure ()
  | .sysMknod path major minor => (Names.sysMknod path major minor).kern >>= fun _ => pure ()
  | .sysChdir path => (Names.sysChdir path).kern >>= fun _ => pure ()
  | .exec path reads => (Names.exec path reads).kern >>= fun _ => pure ()
  | .fork q => (Names.fork q).kern
  | .exit => Names.exit.kern
  | .sleep => .op .doze .ret

namespace Machine

def setStack (m : Machine) (p : Slot) (l : List Frame) : Machine :=
  { m with stack := Function.update m.stack p l }

def setKern (m : Machine) (k : State) : Machine := { m with kern := k }

attribute [simps -fullyApplied] setStack setKern

/-- The process owns the open transaction. -/
def owns (m : Machine) (p : Slot) : Prop := ∃ f ∈ m.stack p, f.held.trans = true

/-- The process holds an inode. -/
def hasInode (m : Machine) (p : Slot) (i : ℕ) : Prop := ∃ f ∈ m.stack p, i ∈ f.held.inodes

/-- The process holds a buffer. -/
def hasBuf (m : Machine) (p : Slot) (s : ℕ) : Prop := ∃ f ∈ m.stack p, s ∈ f.held.bufs

instance (m : Machine) (p : Slot) : Decidable (m.owns p) :=
  inferInstanceAs (Decidable (∃ f ∈ m.stack p, f.held.trans = true))
instance (m : Machine) (p : Slot) (i : ℕ) : Decidable (m.hasInode p i) :=
  inferInstanceAs (Decidable (∃ f ∈ m.stack p, i ∈ f.held.inodes))
instance (m : Machine) (p : Slot) (s : ℕ) : Decidable (m.hasBuf p s) :=
  inferInstanceAs (Decidable (∃ f ∈ m.stack p, s ∈ f.held.bufs))

/-- `sleep` swaps the process out. -/
def swaps (m : Machine) (p : Slot) : Bool := m.swapFlag && decide (3 < m.pid p)

/-- The command asks for a lock that somebody holds, and the process sleeps. -/
def sleeps (m : Machine) : Cmd → Bool
  | .bread s => decide (∃ q, m.hasBuf q s)
  | .itake i => decide (∃ q, m.hasInode q i)
  | _ => false

/-- The next command of process `p` cannot run now. For `iputStart` this is the panic `iput busy`. -/
def stops (m : Machine) (p : Slot) : Cmd → Bool
  | .logTake => m.kern.log.busy
  | .iputStart i => decide (m.kern.lastRef i ∧ ∃ q, m.hasInode q i)
  | .doze => m.swaps p
  | c => m.sleeps c

/-- The frame of `swapOut`. -/
def outFrame (name : List UInt8) (pages : List (List UInt8)) : Frame :=
  ⟨(Names.swapOut name pages).kern, Held.nothing⟩

/-- The child of a `fork` is a slot without a process. -/
def mayStart (m : Machine) (p : Slot) : Call → Bool
  | .fork q => (m.stack p).isEmpty && (m.stack q).isEmpty && (m.kern.tab.proc q).cwd.isNone
  | _ => (m.stack p).isEmpty

/-- The next command of process `p`. -/
def runTop (m : Machine) (p : Slot) : Option Machine :=
  match m.stack p with
  | [] => none
  | ⟨.ret _, _⟩ :: fs => some (m.setStack p fs)
  | ⟨.op c k, g⟩ :: fs =>
    if m.stops p c then none
    else match exec p c m.kern with
      | (.ok r, s) => some ((m.setStack p (⟨k r, g.next c r⟩ :: fs)).setKern s)
      | (.error _, _) => none

/-- Process `p` sleeps, and `swapOut` is called. -/
def sleep (m : Machine) (p : Slot) (name : List UInt8) (pages : List (List UInt8)) :
    Option Machine :=
  if m.swaps p then
    match m.stack p with
    | ⟨.op .doze k, g⟩ :: fs => some (m.setStack p (outFrame name pages :: ⟨k (), g⟩ :: fs))
    | ⟨.op c k, g⟩ :: fs =>
      if m.sleeps c then some (m.setStack p (outFrame name pages :: ⟨.op c k, g⟩ :: fs)) else none
    | _ => none
  else none

end Machine

/-- What can happen: a process starts a call, runs its next command, or goes to sleep and swaps out;
swapping is enabled or disabled; a slot is given to a new process. -/
inductive Event where
  | call (p : Slot) (c : Call)
  | run (p : Slot)
  | sleep (p : Slot) (name : List UInt8) (pages : List (List UInt8))
  | setSwap (on : Bool)
  | setPid (p : Slot) (n : ℕ)

/-- One step of the machine. -/
def Machine.step (m : Machine) : Event → Option Machine
  | .call p c => if m.mayStart p c then some (m.setStack p [⟨c.prog, Held.nothing⟩]) else none
  | .run p => m.runTop p
  | .sleep p name pages => m.sleep p name pages
  | .setSwap on => some { m with swapFlag := on }
  | .setPid p n =>
    if (m.stack p).isEmpty then some { m with pid := Function.update m.pid p n } else none

/-- What a step does. -/
inductive Move (m : Machine) : Event → Machine → Prop
  | call {p : Slot} {c : Call} (hp : m.stack p = []) :
      Move m (.call p c) (m.setStack p [⟨c.prog, Held.nothing⟩])
  | ret {p : Slot} {g : Held} {fs : List Frame} (hp : m.stack p = ⟨.ret (), g⟩ :: fs) :
      Move m (.run p) (m.setStack p fs)
  | cmd {p : Slot} {c : Cmd} {k : c.Resp → Kern Unit} {g : Held} {fs : List Frame} {r : c.Resp}
      {s : State} (hp : m.stack p = ⟨.op c k, g⟩ :: fs) (hc : m.stops p c = false)
      (hx : exec p c m.kern = (.ok r, s)) :
      Move m (.run p) ((m.setStack p (⟨k r, g.next c r⟩ :: fs)).setKern s)
  | doze {p : Slot} {name : List UInt8} {pages : List (List UInt8)} {k : Unit → Kern Unit} {g : Held}
      {fs : List Frame} (hp : m.stack p = ⟨.op .doze k, g⟩ :: fs) :
      Move m (.sleep p name pages) (m.setStack p (Machine.outFrame name pages :: ⟨k (), g⟩ :: fs))
  | wait {p : Slot} {name : List UInt8} {pages : List (List UInt8)} {f : Frame} {fs : List Frame}
      (hp : m.stack p = f :: fs) :
      Move m (.sleep p name pages) (m.setStack p (Machine.outFrame name pages :: f :: fs))
  | setSwap {on : Bool} : Move m (.setSwap on) { m with swapFlag := on }
  | setPid {p : Slot} {n : ℕ} : Move m (.setPid p n) { m with pid := Function.update m.pid p n }

namespace Machine

variable {m m' : Machine} {e : Event}

theorem runTop_move {p : Slot} (h : m.runTop p = some m') : Move m (.run p) m' := by
  unfold runTop at h
  split at h
  · cases h
  · rename_i hp
    obtain rfl := some.inj h
    exact .ret hp
  · rename_i c k g fs hp
    split at h
    · cases h
    · rename_i hc
      split at h
      · rename_i hx
        obtain rfl := some.inj h
        exact .cmd hp (by simpa using hc) hx
      · cases h

theorem sleep_move {p : Slot} {name : List UInt8} {pages : List (List UInt8)}
    (h : m.sleep p name pages = some m') : Move m (.sleep p name pages) m' := by
  unfold sleep at h
  split at h
  · split at h
    · rename_i hp
      obtain rfl := some.inj h
      exact .doze hp
    · rename_i hp
      split at h
      · obtain rfl := some.inj h
        exact .wait hp
      · cases h
    · cases h
  · cases h

theorem step_move (h : m.step e = some m') : Move m e m' := by
  cases e with
  | call p c =>
    simp only [step, ite_none_right_eq_some] at h
    obtain ⟨hc, h⟩ := h
    obtain rfl := some.inj h
    refine .call (List.isEmpty_iff.mp ?_)
    cases c <;> simp_all [mayStart]
  | run p => exact runTop_move h
  | sleep p name pages => exact sleep_move h
  | setSwap on =>
    obtain rfl := some.inj h
    exact .setSwap
  | setPid p n =>
    simp only [step, ite_none_right_eq_some] at h
    obtain rfl := some.inj h.2
    exact .setPid

end Machine

/-! ### One process alone -/

/-- The command asks for a lock that the process itself holds; `sleep` is left out here. -/
def Held.stops (g : Held) (k : State) : Cmd → Bool
  | .bread s => decide (s ∈ g.bufs)
  | .itake i => decide (i ∈ g.inodes)
  | .logTake => k.log.busy
  | .iputStart i => decide (k.lastRef i ∧ i ∈ g.inodes)
  | .doze => true
  | _ => false

/-- Process `p` runs `n` commands while the others are idle. -/
def solo (p : Slot) : ℕ → Frame → State → Option (Frame × State)
  | 0, f, k => some (f, k)
  | _ + 1, ⟨.ret _, _⟩, _ => none
  | n + 1, ⟨.op c l, g⟩, k =>
    if g.stops k c then none
    else match exec p c k with
      | (.ok r, k') => solo p n ⟨l r, g.next c r⟩ k'
      | (.error _, _) => none

namespace Machine

variable {m : Machine} {p : Slot} {k : State}

/-- Nobody is in a call. -/
def idle (m : Machine) (k : State) : Machine := { m with kern := k, stack := fun _ => [] }

/-- Only process `p` is in a call, with one frame. -/
def alone (m : Machine) (p : Slot) (f : Frame) (k : State) : Machine :=
  { m with kern := k, stack := Function.update (fun _ => []) p [f] }

theorem alone_stops {f : Frame} {c : Cmd} (h : f.held.stops k c = false) :
    (m.alone p f k).stops p c = false := by
  have hmem : ∀ q, ∀ f' ∈ (m.alone p f k).stack q, f' = f := by
    intro q f' hf
    rcases eq_or_ne q p with rfl | hq
    · simpa [alone] using hf
    · simp [alone, Function.update_of_ne hq] at hf
  cases c <;> simp only [Held.stops, decide_eq_false_iff_not, Bool.true_eq_false] at h <;>
    simp only [stops, sleeps, decide_eq_false_iff_not]
  case bread s =>
    rintro ⟨q, f', hf, hs⟩
    exact h (hmem q f' hf ▸ hs)
  case itake i =>
    rintro ⟨q, f', hf, hi⟩
    exact h (hmem q f' hf ▸ hi)
  case logTake => exact h
  case iputStart i =>
    rintro ⟨hlast, q, f', hf, hi⟩
    exact h ⟨hlast, hmem q f' hf ▸ hi⟩

/-- A run of one process alone is a run of the machine. -/
theorem solo_reaches {n : ℕ} {f f' : Frame} {k' : State} (h : solo p n f k = some (f', k')) :
    Runs.Reaches step Runs.Always (m.alone p f k) (m.alone p f' k') := by
  induction n generalizing f k with
  | zero =>
    obtain ⟨rfl, rfl⟩ := Prod.mk.inj (some.inj h)
    exact .refl _
  | succ n ih =>
    obtain ⟨l, g⟩ := f
    cases l with
    | ret u => cases h
    | op c l =>
      simp only [solo] at h
      split at h
      · cases h
      · rename_i hstop
        split at h
        · rename_i r k1 hx
          have hstop' := alone_stops (m := m) (p := p) (f := ⟨.op c l, g⟩) (k := k)
            (by simpa using hstop)
          have hstep : (m.alone p ⟨.op c l, g⟩ k).step (.run p) =
              some (m.alone p ⟨l r, g.next c r⟩ k1) := by
            have hstack : (m.alone p ⟨.op c l, g⟩ k).stack p = [⟨.op c l, g⟩] := by
              simp [alone]
            simp only [step, runTop, hstack, hstop', Bool.false_eq_true, if_false]
            rw [show (m.alone p ⟨.op c l, g⟩ k).kern = k from rfl, hx]
            simp [alone, setStack, setKern]
          exact Runs.Reaches.trans ⟨_, Runs.Run.single trivial hstep⟩ (ih h)
        · cases h

theorem idle_call {c : Call} (hc : (m.idle k).mayStart p c = true) :
    (m.idle k).step (.call p c) = some (m.alone p ⟨c.prog, Held.nothing⟩ k) := by
  simp only [step, hc, if_true]
  rfl

theorem alone_ret {g : Held} : (m.alone p ⟨.ret (), g⟩ k).step (.run p) = some (m.idle k) := by
  have hstack : (m.alone p ⟨.ret (), g⟩ k).stack p = [⟨.ret (), g⟩] := by simp [alone]
  simp only [step, runTop, hstack]
  simp [alone, idle, setStack]

end Machine

/-- Process `p` makes calls one after the other; the last one is left after `n` commands. -/
def soloCalls (p : Slot) (last : Call) (n : ℕ) : List (Call × ℕ) → State → Option (Frame × State)
  | [], k => solo p n ⟨last.prog, Held.nothing⟩ k
  | (c, n') :: l, k =>
    match solo p n' ⟨c.prog, Held.nothing⟩ k with
    | some (⟨.ret _, _⟩, k') => soloCalls p last n l k'
    | _ => none

theorem Machine.soloCalls_reaches {m : Machine} {p : Slot} {last : Call} {n : ℕ}
    {l : List (Call × ℕ)} {k k' : State} {f : Frame}
    (hcalls : ∀ c, ∀ k, c = last ∨ (∃ n, (c, n) ∈ l) → (m.idle k).mayStart p c = true)
    (h : soloCalls p last n l k = some (f, k')) :
    Runs.Reaches step Runs.Always (m.idle k) (m.alone p f k') := by
  induction l generalizing k with
  | nil =>
    have hfirst := idle_call (hcalls last k (.inl rfl))
    exact Runs.Reaches.trans ⟨_, Runs.Run.single trivial hfirst⟩ (solo_reaches h)
  | cons x l ih =>
    obtain ⟨c, n'⟩ := x
    simp only [soloCalls] at h
    split at h
    · rename_i g k1 hsolo
      have hfirst := idle_call (hcalls c k (.inr ⟨n', List.mem_cons_self⟩))
      have hrun := (solo_reaches (m := m) hsolo).snoc trivial alone_ret
      have hrest := ih (fun c k hc => hcalls c k (hc.imp_right fun ⟨n, hn⟩ =>
        ⟨n, List.mem_cons_of_mem _ hn⟩)) h
      exact (Runs.Reaches.trans ⟨_, Runs.Run.single trivial hfirst⟩ hrun).trans hrest
    · cases h

end Xv6.Fs
