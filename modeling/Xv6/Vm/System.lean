import Xv6.Lib.Runs
import Mathlib.Data.List.FinRange
import Xv6.Vm.Shm

/-! # The calls that move memory between processes

`growproc`, `fork`, `exec`, `exit`, `wait`, `swapOut` and `swapIn`, each as one atomic call, and
the transition system they form with the shared-memory calls (`step`). A call that does not return
(`Fault`) has no successor state.

The model starts where `userinit` ends (`boot`): init with one page of user memory, the inswapper
without any, and every other page above `end` that the kernel does not use on the free list. -/

namespace Xv6.Vm

open Runs

/-! ### `growproc`, `fork`, `exit`, `wait` -/

/-- `growproc(n)` of process `p`; the result is `0` or `-1`. -/
def growproc (k : Kernel) (p : Slot) (n : ℤ) : Except Fault (ℤ × Kernel) := do
  let q := k.proc p
  let newsz := u32 ((q.sz : ℤ) + n + 2 ^ 32).toNat
  let resized : Except Fault (ℕ × Kernel) :=
    if n > 0 then allocuvm k q.pgdir q.sz newsz
    else if n < 0 then deallocuvm k q.pgdir q.sz newsz
    else .ok (q.sz, k)
  let (sz, k) ← resized
  if n ≠ 0 ∧ sz = 0 then .ok (-1, k)
  else .ok (0, k.setProc p fun q => { q with sz := sz })

/-- The first free slot, as `allocproc` finds it. -/
def unusedSlot (k : Kernel) : Option Slot :=
  (List.finRange NPROC).find? fun q => decide ((k.proc q).state = .unused)

/-- `fork()` of process `p`, with `allocproc`; the result is the pid of the child, or `-1`. -/
def fork (k : Kernel) (p : Slot) : Except Fault (ℤ × Kernel) :=
  match unusedSlot k with
  | none => .ok (-1, k)
  | some np =>
    let pid := k.nextpid
    let k := { k.setProc np fun q => { q with state := .embryo, pid := pid } with
      nextpid := pid + 1 }
    match kalloc k with
    | (none, k) => .ok (-1, k.setProc np fun q => { q with state := .unused, kstack := 0 })
    | (some kstack, k) => do
      let k := k.setProc np fun q => { q with kstack := kstack }
      match ← copyuvm k (k.proc p).pgdir (k.proc p).sz with
      | (none, k) => do
        let k ← kfree k kstack
        .ok (-1, k.setProc np fun q => { q with pgdir := 0, kstack := 0, state := .unused })
      | (some d, k) =>
        .ok (pid, k.setProc np fun q =>
          { q with pgdir := d, sz := (k.proc p).sz, parent := some p, state := .running })

/-- `exit()` of process `p`, as far as memory and the process tree are concerned. -/
def exit (k : Kernel) (p : Slot) : Except Fault Kernel :=
  if p = initproc then .error (.panic "init exiting")
  else do
    let detached : Except Fault Kernel := if (k.proc p).hasShm ≠ 0 then deallocshm k p else .ok k
    let k ← detached
    let proc q := if (k.proc q).parent = some p then { k.proc q with parent := some initproc }
      else k.proc q
    .ok { k with proc := Function.update proc p { proc p with state := .zombie } }

/-- The first zombie child of `p`. -/
def zombieChild (k : Kernel) (p : Slot) : Option Slot :=
  (List.finRange NPROC).find? fun q =>
    decide ((k.proc q).parent = some p ∧ (k.proc q).state = .zombie)

/-- `wait()` of process `p`, when it finds a zombie child. -/
def wait (k : Kernel) (p : Slot) : Except Fault Kernel :=
  match zombieChild k p with
  | none => .ok k
  | some q => do
    let k ← kfree k (k.proc q).kstack
    let k ← freevm k (k.proc q).pgdir
    .ok (k.setProc q fun r => { r with kstack := 0, state := .unused, pid := 0, parent := none })

/-! ### `exec` -/

/-- A program header. -/
structure Phdr where
  load : Bool
  vaddr : ℕ
  memsz : ℕ
  filesz : ℕ
  data : FileData

/-- An executable file and its arguments, as far as they can be read: the program headers, `none`
where reading one fails, and the lengths of the argument strings with their `NUL`. -/
structure Image where
  phdrs : List (Option Phdr)
  args : List ℕ
  data : ℕ → ℕ → (ℕ → ℕ) → (ℕ → ℕ)

def MAXARG : ℕ := 32

/-- The loop of `exec` over the program headers; `none` stands for `goto bad`. -/
def execLoad (pgdir : ℕ) : List (Option Phdr) → ℕ → Kernel → Except Fault (Option ℕ × Kernel)
  | [], sz, k => .ok (some sz, k)
  | none :: _, _, k => .ok (none, k)
  | some ph :: l, sz, k =>
    if ph.load = false then execLoad pgdir l sz k
    else if ph.memsz < ph.filesz then .ok (none, k)
    else do
      let (sz, k) ← allocuvm k pgdir sz (u32 (ph.vaddr + ph.memsz))
      if sz = 0 then .ok (none, k)
      else do
        let (ok, k) ← loaduvm k pgdir ph.vaddr ph.data ph.filesz
        if ok = true then execLoad pgdir l sz k else .ok (none, k)

/-- The loop of `exec` over the arguments, from the `j`-th on; the result is the stack pointer. -/
def execArgs (pgdir : ℕ) (data : ℕ → ℕ → (ℕ → ℕ) → (ℕ → ℕ)) :
    List ℕ → ℕ → ℕ → Kernel → Except Fault (Option ℕ × Kernel)
  | [], _, sp, k => .ok (some sp, k)
  | len :: l, j, sp, k =>
    if j ≥ MAXARG then .ok (none, k)
    else do
      let sp := u32 (sp + 2 ^ 32 - len % 2 ^ 32) / 4 * 4
      let (ok, k) ← copyout k pgdir sp len (data j)
      if ok = true then execArgs pgdir data l (j + 1) sp k else .ok (none, k)

/-- `exec` from the arguments on. -/
def execPush (pgdir : ℕ) (data : ℕ → ℕ → (ℕ → ℕ) → (ℕ → ℕ)) (args : List ℕ) (sz : ℕ) (k : Kernel) :
    Except Fault (Option ℕ × Kernel) := do
  match ← execArgs pgdir data args 0 sz k with
  | (none, k) => .ok (none, k)
  | (some sp, k) =>
    let argc := args.length
    let (ok, k) ← copyout k pgdir (u32 (sp + 2 ^ 32 - (3 + argc + 1) * 4)) ((3 + argc + 1) * 4)
      (data argc)
    .ok (if ok = true then some sz else none, k)

/-- `exec` from the stack on. -/
def execStack (pgdir : ℕ) (data : ℕ → ℕ → (ℕ → ℕ) → (ℕ → ℕ)) (args : List ℕ) (sz : ℕ) (k : Kernel) :
    Except Fault (Option ℕ × Kernel) := do
  let sz := pgRoundUp sz
  let (sz, k) ← allocuvm k pgdir sz (u32 (sz + 2 * PGSIZE))
  if sz = 0 then .ok (none, k)
  else do
    let k ← clearpteu k pgdir (u32 (sz + 2 ^ 32 - 2 * PGSIZE))
    execPush pgdir data args sz k

/-- The new address space `exec` builds in `pgdir`: its size, or `none` for `goto bad`. -/
def execBuild (k : Kernel) (pgdir : ℕ) (img : Image) : Except Fault (Option ℕ × Kernel) := do
  match ← execLoad pgdir img.phdrs 0 k with
  | (none, k) => .ok (none, k)
  | (some sz, k) => execStack pgdir img.data img.args sz k

/-- `exec` of process `p`; `none` for a file that is no executable. -/
def exec (k : Kernel) (p : Slot) (img : Option Image) : Except Fault (ℤ × Kernel) :=
  match img with
  | none => .ok (-1, k)
  | some img => do
    match ← setupkvm k with
    | (none, k) => .ok (-1, k)
    | (some pgdir, k) =>
      match ← execBuild k pgdir img with
      | (none, k) => do
        let k ← freevm k pgdir
        .ok (-1, k)
      | (some sz, k) => do
        let oldpgdir := (k.proc p).pgdir
        let k := k.setProc p fun q => { q with pgdir := pgdir, sz := sz }
        let k ← freevm k oldpgdir
        .ok (0, k)

/-! ### `swapOut`, `swapIn` -/

/-- The loop of `swapOut`, over `n` pages from the `j`-th on; `writes j` is the outcome of
`filewrite`, and the result `false` stands for the return after a failed one. -/
def outLoop (pgdir : ℕ) (writes : ℕ → Bool) : ℕ → ℕ → Kernel → Except Fault Bool
  | 0, _, _ => .ok true
  | n + 1, j, k =>
    match (walkpgdir k pgdir (j * PGSIZE) false).1 with
    | none => .error (.panic "walkpgdir: pte should exist")
    | some (t, i) =>
      if k.mem t i &&& PTE_P = 0 then .error (.panic "walkpgdir: page not present")
      else if writes j = true then outLoop pgdir writes n (j + 1) k
      else .ok false

/-- `swapOut()` of process `p`; `opened` is the outcome of `fileopen`. -/
def swapOut (k : Kernel) (p : Slot) (opened : Bool) (writes : ℕ → Bool) : Except Fault Kernel :=
  if opened = false then .ok k
  else do
    let ok ← outLoop (k.proc p).pgdir writes (((k.proc p).sz + PGSIZE - 1) / PGSIZE) 0 k
    if ok = true then do
      let (_, k) ← deallocuvm k (k.proc p).pgdir (k.proc p).sz 0
      .ok k
    else .ok k

/-- The body of the loop of `swapIn` for the process `t`. -/
def swapIn (k : Kernel) (t : Slot) (opened : Bool) (data : FileData) : Except Fault Kernel :=
  if opened = false then .ok k
  else do
    let (sz, k) ← allocuvm k (k.proc t).pgdir 0 (k.proc t).sz
    if sz = 0 then .ok k
    else do
      let (_, k) ← loaduvm k (k.proc t).pgdir 0 data (k.proc t).sz
      .ok (k.setProc t fun q => { q with state := .running })

/-! ### The system -/

/-- A store by the user code of process `p`, translated by the page tables as they are: the CPU has no
stale translation. (`shmdt` clears entries without reloading `cr3`; the other calls reload it.) -/
def store (k : Kernel) (p : Slot) (va w : ℕ) : Option Kernel :=
  match (walkpgdir k (k.proc p).pgdir va false).1 with
  | none => none
  | some (t, i) =>
    let pte := k.mem t i
    if pte &&& PTE_P ≠ 0 ∧ pte &&& PTE_W ≠ 0 ∧ pte &&& PTE_U ≠ 0 then
      some (k.store (p2v (pteAddr pte)) (va / 4 % 1024) w)
    else none

/-- The calls, and the stores of user code. `p` is the process that makes the call; `swapIn` is
the inswapper's work for `t`. -/
inductive Op where
  | growproc (p : Slot) (n : ℤ)
  | fork (p : Slot)
  | exec (p : Slot) (img : Option Image)
  | exit (p : Slot)
  | wait (p : Slot)
  | swapOut (p : Slot) (opened : Bool) (writes : ℕ → Bool)
  | swapIn (t : Slot) (opened : Bool) (data : FileData)
  | shmget (p : Slot) (key : ℤ) (size : ℕ) (shmflg junk : ℤ)
  | shmat (p : Slot) (shmid shmflg : ℤ)
  | shmdt (p : Slot) (shmaddr : ℕ)
  | shmdel (p : Slot) (shmid : ℤ)
  | store (p : Slot) (va w : ℕ)

/-- The process whose call it is. -/
def Op.slot : Op → Option Slot
  | .growproc p _ => some p
  | .fork p => some p
  | .exec p _ => some p
  | .exit p => some p
  | .wait p => some p
  | .swapOut p _ _ => some p
  | .swapIn _ _ _ => none
  | .shmget p _ _ _ _ => some p
  | .shmat p _ _ => some p
  | .shmdt p _ => some p
  | .shmdel p _ => some p
  | .store p _ _ => some p

/-- The argument ranges that the system-call layer admits: `int`s are 32 bits wide, the arguments
of `exec` are strings in user memory, `sys_shmget` rejects a negative size, `sys_shmdt` takes an
address of a word below `sz`; `sleep` calls `swapOut` only for pids above 3, and `swapIn` takes a
process that is swapped out. -/
def Op.admitted (k : Kernel) : Op → Prop
  | .growproc _ n => -2 ^ 31 ≤ n ∧ n < 2 ^ 31
  | .exec _ (some img) => ∀ len ∈ img.args, 0 < len ∧ len ≤ KERNBASE
  | .shmget _ _ size _ _ => size < 2 ^ 31
  | .shmdt p shmaddr => shmaddr + 4 ≤ (k.proc p).sz
  | .swapOut p _ _ => 3 < (k.proc p).pid
  | .swapIn t _ _ => (k.proc t).state = .sleepingSuspended
  | _ => True

instance (k : Kernel) (o : Op) : Decidable (o.admitted k) :=
  match o with
  | .growproc _ n => inferInstanceAs (Decidable (-2 ^ 31 ≤ n ∧ n < 2 ^ 31))
  | .exec _ (some img) => inferInstanceAs (Decidable (∀ len ∈ img.args, 0 < len ∧ len ≤ KERNBASE))
  | .shmget _ _ size _ _ => inferInstanceAs (Decidable (size < 2 ^ 31))
  | .shmdt p shmaddr => inferInstanceAs (Decidable (shmaddr + 4 ≤ (k.proc p).sz))
  | .swapOut p _ _ => inferInstanceAs (Decidable (3 < (k.proc p).pid))
  | .swapIn t _ _ => inferInstanceAs (Decidable ((k.proc t).state = .sleepingSuspended))
  | .exec _ none | .fork _ | .exit _ | .wait _ | .shmat _ _ _ | .shmdel _ _ | .store _ _ _ =>
    inferInstanceAs (Decidable True)

/-- The process runs and may make calls. -/
def Kernel.mayCall (k : Kernel) (o : Op) : Prop :=
  ∀ p, o.slot = some p → (k.proc p).state = .running ∧ p ≠ inswapper
deriving Decidable

/-- The effect of a call. -/
def call (k : Kernel) : Op → Except Fault Kernel
  | .growproc p n => (growproc k p n).map Prod.snd
  | .fork p => (fork k p).map Prod.snd
  | .exec p img => (exec k p img).map Prod.snd
  | .exit p => exit k p
  | .wait p => wait k p
  | .swapOut p opened writes =>
    -- `sleep` suspends the process whatever `swapOut` did
    (swapOut k p opened writes).map fun k =>
      k.setProc p fun q => { q with state := .sleepingSuspended }
  | .swapIn t opened data => swapIn k t opened data
  | .shmget _ key size shmflg junk => (shmget k key size shmflg junk).map Prod.snd
  | .shmat p shmid shmflg => (shmat k p shmid shmflg).map Prod.snd
  | .shmdt p shmaddr => (shmdt k p shmaddr).map Prod.snd
  | .shmdel _ shmid => (shmdel k shmid).map Prod.snd
  | .store p va w => match store k p va w with
      | some k => .ok k
      | none => .ok k

/-- One step: a call that returns. -/
def step (k : Kernel) (o : Op) : Option Kernel :=
  if k.mayCall o ∧ o.admitted k then (call k o).toOption else none

/-! ### The initial state -/

/-- The `n`-th page from the top of memory: `kinit2` frees upwards, so that the pages are handed
out from the top. -/
def top (n : ℕ) : ℕ := KERNBASE + PHYSTOP - PGSIZE * (n + 1)

/-- `n` pages from `v` downwards. -/
def pagesDown : ℕ → ℕ → List ℕ
  | 0, _ => []
  | n + 1, v => v :: pagesDown n (v - PGSIZE)

/-- The directory entries of the kernel half: the table for `PDX` `x` is the `j`-th one. -/
def kernTable (x : ℕ) : Option ℕ :=
  if 512 ≤ x ∧ x < 568 then some (x - 512)
  else if 1016 ≤ x ∧ x < 1024 then some (x - 1016 + 56)
  else none

/-- The entry of the kernel half for the page with number `n`. -/
def kernPte (n : ℕ) : ℕ :=
  if n < 0x80100 then (n - 0x80000) * PGSIZE + 3
  else if n < 0x8010a then (n - 0x80000) * PGSIZE + 1
  else if n < 0x8e000 then (n - 0x80000) * PGSIZE + 3
  else n * PGSIZE + 3

/-- The directory built by `setupkvm` in page `top d`, with its tables in the pages below. -/
def kernDir (d x : ℕ) : ℕ :=
  match kernTable x with
  | some j => v2p (top (d + 1 + j)) + 7
  | none => 0

/-- The next page on the free list. -/
def bootLink (v : ℕ) : ℕ :=
  if v = KERNBASE + 0x400000 then KERNBASE + 0x3be000
  else if v = KERNBASE + 0x12b000 then 0
  else v - PGSIZE

/-- The contents of memory after `userinit`, for the `n`-th page `v` from the top: the directories and
tables of the two processes, and the links and the junk in the free pages. -/
def bootPage (n v i : ℕ) : ℕ :=
  if n = 1 then if i = 0 then v2p (top 67) + 7 else kernDir 1 i
  else if n = 69 then kernDir 69 i
  else if 2 ≤ n ∧ n < 58 then kernPte ((n - 2 + 512) * 1024 + i)
  else if 58 ≤ n ∧ n < 66 then kernPte ((n - 58 + 1016) * 1024 + i)
  else if 70 ≤ n ∧ n < 126 then kernPte ((n - 70 + 512) * 1024 + i)
  else if 126 ≤ n ∧ n < 134 then kernPte ((n - 126 + 1016) * 1024 + i)
  else if n = 67 then if i = 0 then v2p (top 66) + 7 else 0
  else if 134 ≤ n then if i = 0 then bootLink v else 0x01010101
  else 0

def bootMem (v i : ℕ) : ℕ := bootPage ((KERNBASE + PHYSTOP - v) / PGSIZE - 1) v i

/-- The state after `userinit` on a machine with one CPU.  Init has its kernel stack, its directory with 64 tables for the kernel half, its page, and the
table for it, in this order from the top; the inswapper a stack and a directory with 64 tables. -/
def boot : Kernel where
  mem := bootMem
  freelist := pagesDown 0xdb7a (top 134) ++ pagesDown 0x294 (KERNBASE + 0x3be000)
  shm := ⟨fun _ _ => 0, fun _ _ _ => 0, false⟩
  proc p :=
    if p = initproc then ⟨.running, 1, none, PGSIZE, top 1, top 0, 0⟩
    else if p = inswapper then ⟨.running, 2, some initproc, PGSIZE, top 69, top 68, 0⟩
    else ⟨.unused, 0, none, 0, 0, 0, 0⟩
  nextpid := 3

/-- A state of some run from boot in which every call met `ok`. -/
abbrev Reachable (ok : Kernel → Op → Prop) (k : Kernel) : Prop := Reaches step ok boot k

end Xv6.Vm
