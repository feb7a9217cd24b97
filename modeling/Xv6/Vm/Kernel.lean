import Mathlib.Algebra.Group.Nat.Defs
import Mathlib.Algebra.Group.Int.Defs
import Mathlib.Data.List.Basic
import Mathlib.Logic.Function.Basic
import Xv6.Param

/-! # Physical memory, `kalloc` and the page tables of `vm.c`

The kernel reaches all of physical memory through its own mapping, at `p2v(pa)`; pages are named
by that kernel address. Memory is raw: page tables, page directories and user pages are all
words of `mem`, and a write through a stale pointer hits whatever the page holds now.

* **Addresses** are 32-bit numbers, and `uint` arithmetic wraps.
* **The free list** is the list of the pages on `kmem.freelist`, the head first. In the source the
  links are stored in the pages; this makes no difference as long as nobody writes to a free page.
* **Faults.**  A kernel panic, a null pointer used, an index outside one of the two arrays of `shm`,
  and a lock that is never released end a call (`Fault`); what the machine does after the
  second and third the source does not say.
* **Data** read from files is arbitrary: where the source copies file contents into a page, the
  model takes a function from the old contents of the page to the new ones. -/

namespace Xv6.Vm

open Function

/-- `uint` arithmetic. -/
def u32 (n : ℕ) : ℕ := n % 2 ^ 32

/-- A pointer read as an `int`. -/
def toInt (v : ℕ) : ℤ := if v < 2 ^ 31 then v else (v : ℤ) - 2 ^ 32

/-- End of the kernel's own memory (`end`, `kernel.sym`). -/
def endAddr : ℕ := 0x8012a55c

/-- Start of the kernel's data (`data`, `kernel.sym`). -/
def dataAddr : ℕ := 0x8010a000

def EXTMEM : ℕ := 0x100000
def DEVSPACE : ℕ := 0xFE000000
def KERNLINK : ℕ := KERNBASE + EXTMEM

def NPDENTRIES : ℕ := 1024
def NPTENTRIES : ℕ := 1024

def PTE_P : ℕ := 1
def PTE_W : ℕ := 2
def PTE_U : ℕ := 4

def pgRoundUp (a : ℕ) : ℕ := u32 (a + PGSIZE - 1) / PGSIZE * PGSIZE
def pgRoundDown (a : ℕ) : ℕ := a / PGSIZE * PGSIZE

def pdx (va : ℕ) : ℕ := va / 2 ^ 22 % 1024
def ptx (va : ℕ) : ℕ := va / 2 ^ 12 % 1024

def pteAddr (pte : ℕ) : ℕ := pte / PGSIZE * PGSIZE

def v2p (v : ℕ) : ℕ := u32 (v + 2 ^ 32 - KERNBASE)
def p2v (pa : ℕ) : ℕ := u32 (pa + KERNBASE)

/-- Why a call does not return. -/
inductive Fault where
  | panic (msg : String)
  | null
  | bounds
  | spin
deriving DecidableEq, Repr

/-- The fields of `struct proc` that the memory code reads or writes. The states of a process
that is neither unused, nor being created, nor swapped out, nor a zombie are one here
(`running`), and so are the two states of a process that is swapped out (`sleepingSuspended`). -/
structure Proc where
  state : ProcState
  pid : ℕ
  parent : Option Slot
  sz : ℕ
  pgdir : ℕ
  kstack : ℕ
  hasShm : ℤ
deriving DecidableEq, Repr

/-- The shared segments: `seg[key][i]`, `refs[key][b][j]`, and the lock. -/
structure Shm where
  seg : ℕ → ℕ → ℕ
  refs : ℕ → ℕ → ℕ → ℤ
  locked : Bool

/-- `mem v i` is word `i` of the page at kernel address `v`. -/
structure Kernel where
  mem : ℕ → ℕ → ℕ
  freelist : List ℕ
  shm : Shm
  proc : Slot → Proc
  nextpid : ℕ

namespace Kernel

/-- Write one word. -/
@[simps -fullyApplied]
def store (k : Kernel) (page i w : ℕ) : Kernel :=
  { k with mem := update k.mem page (update (k.mem page) i w) }

/-- Write a whole page (`memset`, `memmove`). -/
@[simps -fullyApplied]
def setPage (k : Kernel) (page : ℕ) (f : ℕ → ℕ) : Kernel :=
  { k with mem := update k.mem page f }

/-- Change the table entry of slot `p`. -/
@[simps -fullyApplied]
def setProc (k : Kernel) (p : Slot) (f : Proc → Proc) : Kernel :=
  { k with proc := update k.proc p (f (k.proc p)) }

end Kernel

/-! ### `kalloc.c` -/

/-- `kfree(v)`: the page is filled with junk, and its first word links it to the old head. -/
def kfree (k : Kernel) (v : ℕ) : Except Fault Kernel :=
  if v % PGSIZE ≠ 0 ∨ v < endAddr ∨ v2p v ≥ PHYSTOP then .error (.panic "kfree")
  else
    let next := k.freelist.headD 0
    .ok { k.setPage v (fun i => if i = 0 then next else 0x01010101) with freelist := v :: k.freelist }

/-- `kalloc()`; `none` is the null pointer. -/
def kalloc (k : Kernel) : Option ℕ × Kernel :=
  match k.freelist with
  | [] => (none, k)
  | r :: rest => (some r, { k with freelist := rest })

/-! ### Walking and filling page tables -/

/-- `walkpgdir(pgdir, va, alloc)`: page and index of the entry for `va`. -/
def walkpgdir (k : Kernel) (pgdir va : ℕ) (alloc : Bool) : Option (ℕ × ℕ) × Kernel :=
  let pde := k.mem pgdir (pdx va)
  if pde &&& PTE_P ≠ 0 then (some (p2v (pteAddr pde), ptx va), k)
  else if alloc = false then (none, k)
  else
    match kalloc k with
    | (none, k) => (none, k)
    | (some pgtab, k) =>
      let k := k.setPage pgtab fun _ => 0
      let k := k.store pgdir (pdx va) (v2p pgtab ||| (PTE_P ||| PTE_W ||| PTE_U))
      (some (pgtab, ptx va), k)

/-- The loop of `mappages`, over `n` pages. -/
def mapLoop (pgdir perm : ℕ) : ℕ → ℕ → ℕ → Kernel → Except Fault (Bool × Kernel)
  | 0, _, _, k => .ok (true, k)
  | n + 1, a, pa, k =>
    match walkpgdir k pgdir a true with
    | (none, k) => .ok (false, k)
    | (some (t, i), k) =>
      if k.mem t i &&& PTE_P ≠ 0 then .error (.panic "remap")
      else mapLoop pgdir perm n (u32 (a + PGSIZE)) (u32 (pa + PGSIZE))
        (k.store t i (pa ||| (perm ||| PTE_P)))

/-- `mappages(pgdir, va, size, pa, perm)`; `false` is the result `-1`. The loop ends when `a`
reaches `last`, after as many pages as lie between them. -/
def mappages (k : Kernel) (pgdir va size pa perm : ℕ) : Except Fault (Bool × Kernel) :=
  let a := pgRoundDown va
  let last := pgRoundDown (u32 (va + size + 2 ^ 32 - 1))
  mapLoop pgdir perm (u32 (last + 2 ^ 32 - a) / PGSIZE + 1) a pa k

/-- The kernel's mappings: `virt`, `phys_start`, `phys_end`, `perm`. -/
def kmap : List (ℕ × ℕ × ℕ × ℕ) :=
  [(KERNBASE, 0, EXTMEM, PTE_W),
   (KERNLINK, v2p KERNLINK, v2p dataAddr, 0),
   (dataAddr, v2p dataAddr, PHYSTOP, PTE_W),
   (DEVSPACE, DEVSPACE, 0, PTE_W)]

def kmapLoop (pgdir : ℕ) : List (ℕ × ℕ × ℕ × ℕ) → Kernel → Except Fault (Bool × Kernel)
  | [], k => .ok (true, k)
  | (virt, lo, hi, perm) :: l, k => do
    let (ok, k) ← mappages k pgdir virt (u32 (hi + 2 ^ 32 - lo)) lo perm
    if ok = true then kmapLoop pgdir l k else .ok (false, k)

/-- `setupkvm()`; when it runs out of memory it gives back nothing. -/
def setupkvm (k : Kernel) : Except Fault (Option ℕ × Kernel) :=
  match kalloc k with
  | (none, k) => .ok (none, k)
  | (some pgdir, k) => do
    let (ok, k) ← kmapLoop pgdir kmap (k.setPage pgdir fun _ => 0)
    .ok (if ok = true then some pgdir else none, k)

/-! ### Growing and shrinking -/

/-- The loop of `deallocuvm`; a missing page table skips a whole table's worth of addresses from
where the loop is. -/
def deallocLoop (pgdir oldsz : ℕ) : ℕ → ℕ → Kernel → Except Fault Kernel
  | 0, _, k => .ok k
  | n + 1, a, k =>
    if a < oldsz then
      match (walkpgdir k pgdir a false).1 with
      | none => deallocLoop pgdir oldsz n (a + (NPTENTRIES - 1) * PGSIZE + PGSIZE) k
      | some (t, i) =>
        if k.mem t i &&& PTE_P ≠ 0 then
          let pa := pteAddr (k.mem t i)
          if pa = 0 then .error (.panic "kfree")
          else do
            let k ← kfree k (p2v pa)
            deallocLoop pgdir oldsz n (a + PGSIZE) (k.store t i 0)
        else deallocLoop pgdir oldsz n (a + PGSIZE) k
    else .ok k

def deallocuvm (k : Kernel) (pgdir oldsz newsz : ℕ) : Except Fault (ℕ × Kernel) :=
  if newsz ≥ oldsz then .ok (oldsz, k)
  else do
    let k ← deallocLoop pgdir oldsz (oldsz / PGSIZE + 1) (pgRoundUp newsz) k
    .ok (newsz, k)

/-- The loop of `allocuvm`, over `n` pages; the result of `mappages` is not looked at. -/
def allocLoop (pgdir oldsz newsz : ℕ) : ℕ → ℕ → Kernel → Except Fault (ℕ × Kernel)
  | 0, _, k => .ok (newsz, k)
  | n + 1, a, k =>
    match kalloc k with
    | (none, k) => do
      let (_, k) ← deallocuvm k pgdir newsz oldsz
      .ok (0, k)
    | (some mem, k) => do
      let (_, k) ← mappages (k.setPage mem fun _ => 0) pgdir a PGSIZE (v2p mem) (PTE_W ||| PTE_U)
      allocLoop pgdir oldsz newsz n (a + PGSIZE) k

def allocuvm (k : Kernel) (pgdir oldsz newsz : ℕ) : Except Fault (ℕ × Kernel) :=
  if newsz ≥ KERNBASE then .ok (0, k)
  else if newsz < oldsz then .ok (oldsz, k)
  else
    let a := pgRoundUp oldsz
    allocLoop pgdir oldsz newsz ((newsz - a + PGSIZE - 1) / PGSIZE) a k

/-- The second loop of `freevm`, over the entries from `i` on. -/
def freeTables (pgdir : ℕ) : ℕ → ℕ → Kernel → Except Fault Kernel
  | 0, _, k => .ok k
  | n + 1, i, k =>
    if k.mem pgdir i &&& PTE_P ≠ 0 then do
      let k ← kfree k (p2v (pteAddr (k.mem pgdir i)))
      freeTables pgdir n (i + 1) k
    else freeTables pgdir n (i + 1) k

def freevm (k : Kernel) (pgdir : ℕ) : Except Fault Kernel :=
  if pgdir = 0 then .error (.panic "freevm: no pgdir")
  else do
    let (_, k) ← deallocuvm k pgdir KERNBASE 0
    let k ← freeTables pgdir NPDENTRIES 0 k
    kfree k pgdir

/-! ### Copying and loading -/

/-- The loop of `copyuvm`, over `n` pages from address `i` on; `false` stands for `goto bad`. -/
def copyLoop (pgdir d : ℕ) : ℕ → ℕ → Kernel → Except Fault (Bool × Kernel)
  | 0, _, k => .ok (true, k)
  | n + 1, i, k =>
    match (walkpgdir k pgdir i false).1 with
    | none => .error (.panic "copyuvm: pte should exist")
    | some (t, j) =>
      if k.mem t j &&& PTE_P = 0 then .error (.panic "copyuvm: page not present")
      else
        let pa := pteAddr (k.mem t j)
        match kalloc k with
        | (none, k) => .ok (false, k)
        | (some mem, k) => do
          let k := k.setPage mem (k.mem (p2v pa))
          let (ok, k) ← mappages k d i PGSIZE (v2p mem) (PTE_W ||| PTE_U)
          if ok = true then copyLoop pgdir d n (i + PGSIZE) k else .ok (false, k)

def copyuvm (k : Kernel) (pgdir sz : ℕ) : Except Fault (Option ℕ × Kernel) := do
  match ← setupkvm k with
  | (none, k) => .ok (none, k)
  | (some d, k) =>
    let (ok, k) ← copyLoop pgdir d ((sz + PGSIZE - 1) / PGSIZE) 0 k
    if ok = true then .ok (some d, k)
    else do
      let k ← freevm k d
      .ok (none, k)

def clearpteu (k : Kernel) (pgdir uva : ℕ) : Except Fault Kernel :=
  match (walkpgdir k pgdir uva false).1 with
  | none => .error (.panic "clearpteu")
  | some (t, i) => .ok (k.store t i (k.mem t i - (k.mem t i &&& PTE_U)))

/-- What reading a file into a page leaves there, for each page in turn, and whether `readi` read
as much as it should; what it reads when it falls short is copied too. -/
abbrev FileData := ℕ → (ℕ → ℕ) → Bool × (ℕ → ℕ)

/-- The loop of `loaduvm`, over `n` pages from the `j`-th on. -/
def loadLoop (pgdir addr : ℕ) (data : FileData) : ℕ → ℕ → Kernel → Except Fault (Bool × Kernel)
  | 0, _, k => .ok (true, k)
  | n + 1, j, k =>
    match (walkpgdir k pgdir (u32 (addr + j * PGSIZE)) false).1 with
    | none => .error (.panic "loaduvm: address should exist")
    | some (t, i) =>
      let page := p2v (pteAddr (k.mem t i))
      let (full, f) := data j (k.mem page)
      if full = true then loadLoop pgdir addr data n (j + 1) (k.setPage page f)
      else .ok (false, k.setPage page f)

def loaduvm (k : Kernel) (pgdir addr : ℕ) (data : FileData) (sz : ℕ) :
    Except Fault (Bool × Kernel) :=
  if addr % PGSIZE ≠ 0 then .error (.panic "loaduvm: addr must be page aligned")
  else loadLoop pgdir addr data ((sz + PGSIZE - 1) / PGSIZE) 0 k

/-- `uva2ka(pgdir, uva)`; `none` is the result `0`. -/
def uva2ka (k : Kernel) (pgdir uva : ℕ) : Except Fault (Option ℕ) :=
  match (walkpgdir k pgdir uva false).1 with
  | none => .error .null
  | some (t, i) =>
    if k.mem t i &&& PTE_P = 0 then .ok none
    else if k.mem t i &&& PTE_U = 0 then .ok none
    else .ok (some (p2v (pteAddr (k.mem t i))))

/-- The loop of `copyout`; `data j` is what the `j`-th piece of the buffer makes of its page. -/
def copyoutLoop (pgdir : ℕ) (data : ℕ → (ℕ → ℕ) → (ℕ → ℕ)) :
    ℕ → ℕ → ℕ → ℕ → Kernel → Except Fault (Bool × Kernel)
  | 0, _, _, _, k => .ok (true, k)
  | n + 1, j, va, len, k =>
    if len = 0 then .ok (true, k)
    else do
      let va0 := pgRoundDown va
      match ← uva2ka k pgdir va0 with
      | none => .ok (false, k)
      | some page =>
        copyoutLoop pgdir data n (j + 1) (u32 (va0 + PGSIZE))
          (len - min len (PGSIZE - (va - va0))) (k.setPage page (data j (k.mem page)))

def copyout (k : Kernel) (pgdir va len : ℕ) (data : ℕ → (ℕ → ℕ) → (ℕ → ℕ)) :
    Except Fault (Bool × Kernel) :=
  copyoutLoop pgdir data (len / PGSIZE + 2) 0 va len k

end Xv6.Vm
