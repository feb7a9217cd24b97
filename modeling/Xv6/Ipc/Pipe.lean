import Xv6.Lib.Ring
import Xv6.Lib.Runs

/-! # Pipes

`pipewrite`, `piperead` and `pipeclose` on one pipe, for any number of processes. A step is what a
process does between taking `p->lock` and giving it up, in `sleep` or on its way out. A process that
sleeps in a call may go on at any time and then tests its condition again, so every waking is covered,
also one nobody asked for; `proc->killed` may be set in any step.

The counters `nread` and `nwrite` are unsigned words that are never reset. The system also records the
bytes that were put into the pipe and those that were returned from it. The pipe is a ring
(`Ring.Holds`) of the bytes that are in the first list and not in the second (`Inv`), from which the
statement about every run follows (`pipe_fifo`). -/

namespace Xv6.Ipc

open Runs Function Option

def PIPESIZE : ℕ := 512

/-- The number of values of a `uint`. -/
def UINT : ℕ := 2 ^ 32

/-- `struct pipe`; the lock is held throughout a step. -/
structure Pipe where
  data : ℕ → UInt8
  nread : ℕ
  nwrite : ℕ
  readopen : Bool
  writeopen : Bool

namespace Pipe

/-- The pipe `pipealloc` makes on a page with the bytes `page`. -/
def alloc (page : ℕ → UInt8) : Pipe := ⟨page, 0, 0, true, true⟩

/-- `p->nwrite == p->nread + PIPESIZE`. -/
def full (p : Pipe) : Bool := p.nwrite = (p.nread + PIPESIZE) % UINT

/-- `p->nread == p->nwrite`. -/
def empty (p : Pipe) : Bool := p.nread = p.nwrite

/-- `p->data[p->nwrite++ % PIPESIZE] = b`. -/
def put (p : Pipe) (b : UInt8) : Pipe :=
  { p with data := update p.data (p.nwrite % PIPESIZE) b, nwrite := (p.nwrite + 1) % UINT }

/-- `p->data[p->nread++ % PIPESIZE]`. -/
def take (p : Pipe) : UInt8 × Pipe :=
  (p.data (p.nread % PIPESIZE), { p with nread := (p.nread + 1) % UINT })

/-- The loop of `pipewrite` from the byte it is at: the bytes it stores before it ends or finds the
pipe full, and those that are left. -/
def fill : Pipe → List UInt8 → Pipe × List UInt8 × List UInt8
  | p, [] => (p, [], [])
  | p, b :: addr =>
    if p.full then (p, [], b :: addr)
    else
      let (p', done, rest) := fill (p.put b) addr
      (p', b :: done, rest)

/-- The loop `piperead-copy` for `n` more bytes. -/
def drain : ℕ → Pipe → Pipe × List UInt8
  | 0, p => (p, [])
  | n + 1, p =>
    if p.empty then (p, [])
    else
      let (b, p') := p.take
      let (p'', bytes) := drain n p'
      (p'', b :: bytes)

/-- The two assignments of `pipeclose`. -/
def close (p : Pipe) (writable : Bool) : Pipe :=
  if writable then { p with writeopen := false } else { p with readopen := false }

/-- What is in the pipe: the cells from `nread` up to `nwrite`. -/
def buffered (p : Pipe) : List UInt8 :=
  (List.range ((p.nwrite + UINT - p.nread) % UINT)).map fun i => p.data ((p.nread + i) % PIPESIZE)

end Pipe

/-- Where a process is. -/
inductive Call where
  | none
  | write (rest : List UInt8)
  | read (n : ℕ)

structure System where
  pipe : Pipe
  call : ℕ → Call
  /-- The bytes `pipewrite` has stored, by all processes. -/
  stored : List UInt8
  /-- The bytes `piperead` has returned, to all processes. -/
  returned : List UInt8

/-- After `pipealloc`. -/
def System.start (page : ℕ → UInt8) : System := ⟨.alloc page, fun _ => .none, [], []⟩

inductive Event where
  | pipewrite (q : ℕ) (addr : List UInt8)
  | piperead (q : ℕ) (n : ℕ)
  /-- Process `q` runs in its call, with `killed` for `proc->killed`. -/
  | run (q : ℕ) (killed : Bool)
  | pipeclose (writable : Bool)

namespace System

/-- `pipewrite`, from where it takes the lock. -/
def runWrite (s : System) (q : ℕ) (killed : Bool) (addr : List UInt8) : System :=
  let (p, done, rest) := s.pipe.fill addr
  let call : Call := if rest = [] ∨ !p.readopen ∨ killed then .none else .write rest
  { s with pipe := p, call := update s.call q call, stored := s.stored ++ done }

/-- The bytes `piperead` returns when it runs; `none` if it goes to sleep or fails. -/
def reads (s : System) (n : ℕ) : Option (Pipe × List UInt8) :=
  if s.pipe.empty ∧ s.pipe.writeopen then none else some (s.pipe.drain n)

/-- `piperead`, from where it takes the lock. -/
def runRead (s : System) (q : ℕ) (killed : Bool) (n : ℕ) : System :=
  match s.reads n with
  | none => { s with call := update s.call q (if killed then .none else .read n) }
  | some (p, bytes) =>
    { s with pipe := p, call := update s.call q .none, returned := s.returned ++ bytes }

/-- The memory of a pipe with both ends closed is free: nothing runs on it. -/
def freed (s : System) : Bool := !s.pipe.readopen && !s.pipe.writeopen

end System

def step (s : System) : Event → Option System
  | .pipewrite q addr =>
    match s.call q with
    | .none => if s.freed then none else some { s with call := update s.call q (.write addr) }
    | _ => none
  | .piperead q n =>
    match s.call q with
    | .none => if s.freed then none else some { s with call := update s.call q (.read n) }
    | _ => none
  | .run q killed =>
    if s.freed then none
    else
      match s.call q with
      | .none => none
      | .write addr => some (s.runWrite q killed addr)
      | .read n => some (s.runRead q killed n)
  | .pipeclose writable => if s.freed then none else some { s with pipe := s.pipe.close writable }

/-! ### The ring -/

theorem size_lt : PIPESIZE < UINT := by decide

theorem size_dvd : PIPESIZE ∣ UINT := by decide

/-- The pipe holds the bytes `xs`. -/
def Pipe.Holds (p : Pipe) (xs : List UInt8) : Prop :=
  Ring.Holds PIPESIZE UINT p.data p.nread p.nwrite xs

namespace Pipe

variable {p : Pipe} {xs : List UInt8}

theorem alloc_holds (page : ℕ → UInt8) : (alloc page).Holds [] := 
  Ring.Holds.nil page (by decide : 0 < UINT)

theorem Holds.full_iff (h : p.Holds xs) : p.full = true ↔ xs.length = PIPESIZE := by
  rw [full, decide_eq_true_iff]
  exact Ring.Holds.full_iff h size_lt

theorem Holds.empty_iff (h : p.Holds xs) : p.empty = true ↔ xs = [] := by
  rw [empty, decide_eq_true_iff]
  exact Ring.Holds.eq_iff h size_lt

theorem Holds.buffered (h : p.Holds xs) : p.buffered = xs :=
  (Ring.Holds.eq_map h size_lt).symm

theorem Holds.close (h : p.Holds xs) (writable : Bool) : (p.close writable).Holds xs := by
  cases writable <;> exact h

theorem Holds.fill (h : p.Holds xs) (addr : List UInt8) :
    ∃ p' done rest, p.fill addr = (p', done, rest) ∧ p'.Holds (xs ++ done) := by
  induction addr generalizing p xs with
  | nil => exact ⟨p, [], [], rfl, by rwa [List.append_nil]⟩
  | cons b addr ih =>
    by_cases hfull : p.full
    · exact ⟨p, [], b :: addr, by rw [Pipe.fill, if_pos hfull], by rwa [List.append_nil]⟩
    · have hlen : xs.length < PIPESIZE := lt_of_le_of_ne h.fits (mt h.full_iff.mpr hfull)
      have hput : (p.put b).Holds (xs ++ [b]) := Ring.Holds.push h size_dvd hlen b
      obtain ⟨p', done, rest, heq, hold⟩ := ih hput
      refine ⟨p', b :: done, rest, by rw [Pipe.fill, if_neg hfull, heq], ?_⟩
      rwa [List.append_assoc, List.singleton_append] at hold

/-- What `piperead` returns is taken from the front; it is empty only if the pipe is or `n` is zero. -/
theorem Holds.drain (h : p.Holds xs) (n : ℕ) :
    ∃ p' bytes rest, p.drain n = (p', bytes) ∧ xs = bytes ++ rest ∧ p'.Holds rest ∧
      (0 < n → bytes = [] → xs = []) := by
  induction n generalizing p xs with
  | zero => exact ⟨p, [], xs, rfl, rfl, h, fun hn => absurd hn (Nat.lt_irrefl 0)⟩
  | succ n ih =>
    cases xs with
    | nil => exact ⟨p, [], [], by rw [Pipe.drain, if_pos (h.empty_iff.mpr rfl)], rfl, h, fun _ _ => rfl⟩
    | cons b xs =>
      have hne : ¬ p.empty = true := mt h.empty_iff.mp (List.cons_ne_nil b xs)
      obtain ⟨hb, hpop⟩ := Ring.Holds.pop h size_dvd
      obtain ⟨p', bytes, rest, heq, hxs, hold, _⟩ := ih (p := p.take.2) hpop
      refine ⟨p', b :: bytes, rest, ?_, by rw [hxs, List.cons_append], hold,
        fun _ hnil => absurd hnil (List.cons_ne_nil b bytes)⟩
      have htake : p.take = (b, p.take.2) := Prod.ext hb rfl
      rw [Pipe.drain, if_neg hne, htake]
      simp only [heq]

end Pipe

/-! ### Every run -/

/-- What has been stored is what has been returned and what is in the pipe. -/
def Inv (s : System) : Prop := ∃ xs, s.pipe.Holds xs ∧ s.stored = s.returned ++ xs

variable {s : System}

theorem Inv.runWrite (h : Inv s) (q : ℕ) (killed : Bool) (addr : List UInt8) :
    Inv (s.runWrite q killed addr) := by
  obtain ⟨xs, hold, heq⟩ := h
  obtain ⟨p', done, rest, hfill, hold'⟩ := hold.fill addr
  have hstored : s.stored ++ done = s.returned ++ (xs ++ done) := by rw [heq, List.append_assoc]
  rw [System.runWrite, hfill]
  exact ⟨xs ++ done, hold', hstored⟩

theorem Inv.runRead (h : Inv s) (q : ℕ) (killed : Bool) (n : ℕ) :
    Inv (s.runRead q killed n) := by
  obtain ⟨xs, hold, heq⟩ := h
  obtain ⟨p', bytes, rest, hdrain, hxs, hold', _⟩ := hold.drain n
  have hstored : s.stored = s.returned ++ bytes ++ rest := by rw [heq, hxs, List.append_assoc]
  rw [System.runRead, System.reads]
  by_cases hsleep : s.pipe.empty ∧ s.pipe.writeopen
  · rw [if_pos hsleep]
    exact ⟨xs, hold, heq⟩
  · rw [if_neg hsleep, hdrain]
    exact ⟨rest, hold', hstored⟩

theorem Inv.step {s' : System} {e : Event} (h : Inv s) (hs : step s e = some s') : Inv s' := by
  obtain ⟨xs, hold, heq⟩ := id h
  cases e with
  | pipewrite q addr =>
    simp only [Ipc.step] at hs
    split at hs
    · obtain ⟨_, ⟨⟩⟩ := ite_none_left_eq_some.mp hs
      exact ⟨xs, hold, heq⟩
    · cases hs
  | piperead q n =>
    simp only [Ipc.step] at hs
    split at hs
    · obtain ⟨_, ⟨⟩⟩ := ite_none_left_eq_some.mp hs
      exact ⟨xs, hold, heq⟩
    · cases hs
  | run q killed =>
    obtain ⟨_, hs⟩ := ite_none_left_eq_some.mp hs
    cases hcall : s.call q with
    | none => simp [hcall] at hs
    | write addr =>
      simp only [hcall, some.injEq] at hs
      rw [← hs]
      exact h.runWrite q killed addr
    | read n =>
      simp only [hcall, some.injEq] at hs
      rw [← hs]
      exact h.runRead q killed n
  | pipeclose writable =>
    obtain ⟨_, ⟨⟩⟩ := ite_none_left_eq_some.mp hs
    exact ⟨xs, hold.close writable, heq⟩

theorem inv_of_reaches {page : ℕ → UInt8} (h : Reaches step Always (System.start page) s) : Inv s :=
  h.invariant (fun _ _ _ hI _ hs => hI.step hs) ⟨[], Pipe.alloc_holds page, rfl⟩

/-- A pipe is a bounded FIFO channel: never more than `PIPESIZE` bytes are in it, the bytes returned are
the first of the bytes stored and those in the pipe are the others, and a read of at least one byte
returns none only at the end of the file. -/
theorem pipe_fifo {page : ℕ → UInt8} (h : Reaches step Always (System.start page) s) :
    (s.pipe.nwrite + UINT - s.pipe.nread) % UINT ≤ PIPESIZE ∧
      s.returned <+: s.stored ∧ s.stored = s.returned ++ s.pipe.buffered ∧
      ∀ q n p', s.call q = .read n → 0 < n → s.reads n = some (p', []) →
        s.pipe.writeopen = false ∧ s.returned = s.stored := by
  obtain ⟨xs, hold, heq⟩ := inv_of_reaches h
  refine ⟨?_, ⟨xs, heq.symm⟩, by rw [hold.buffered, heq], fun q n p' _ hn hr => ?_⟩
  · rw [Ring.Holds.count_eq hold size_lt]
    exact hold.fits
  · obtain ⟨hsleep, hr⟩ := ite_none_left_eq_some.mp hr
    obtain ⟨p'', bytes, rest, hdrain, hxs, _, hnil⟩ := hold.drain n
    rw [hdrain, some.injEq, Prod.mk.injEq] at hr
    obtain rfl : xs = [] := hnil hn hr.2
    have hclosed : s.pipe.writeopen = false := by
      simpa [hold.empty_iff.mpr rfl] using hsleep
    exact ⟨hclosed, by rw [heq, List.append_nil]⟩

/-- Two writers and a reader that takes two of their three bytes. -/
theorem pipe_fifo_two_writers : ∃ s, Reaches step Always (System.start fun _ => 0) s ∧
    (s.returned = [1, 2] ∧ s.stored = [1, 2, 3]) ∧ s.stored = s.returned ++ s.pipe.buffered := by
  obtain ⟨s, hs, htest⟩ := reaches_of_exec step Always (System.start fun _ => 0)
    [.pipewrite 0 [1], .pipewrite 1 [2, 3], .piperead 2 2, .run 2 false, .run 0 false, .run 1 false,
      .run 2 false]
    (fun s => s.returned = [1, 2] ∧ s.stored = [1, 2, 3]) (by decide +kernel)
  exact ⟨s, hs, of_decide_eq_true htest, (pipe_fifo hs).2.2.1⟩

end Xv6.Ipc
