import Xv6.Vm.Kernel

/-! # Shared memory segments: the rest of `kalloc.c`

`seg[key]` lists the pages of the segment with this key. `refs[key][1][64]` is the number of its
pages, and `0` when there is none; `refs[key][0][64]` counts its attachments, and
`refs[key][0][pid]` says that process `pid` has attached it. An index outside the two arrays is a
`Fault.bounds`. The id of a segment is the address of its first page, read as an `int`.

`shmget` with another flag than `CREAT` and `GET` returns a variable it never set; its value is
the argument `junk`. -/

namespace Xv6.Vm

open Function

def CREAT : ℤ := 20
def GET : ℤ := 21
def SHM_RDONLY : ℤ := 22
def SHM_RDWR : ℤ := 23

namespace Shm

/-- `refs[key][1][64]`. -/
def pages (s : Shm) (key : ℕ) : ℤ := s.refs key 1 64

/-- `refs[key][0][64]`. -/
def count (s : Shm) (key : ℕ) : ℤ := s.refs key 0 64

def setSeg (s : Shm) (key i v : ℕ) : Shm :=
  { s with seg := update s.seg key (update (s.seg key) i v) }

def setRefs (s : Shm) (key b j : ℕ) (x : ℤ) : Shm :=
  { s with
    refs := update s.refs key
      (update (s.refs key) b (update (s.refs key b) j x)) }

/-- The first key whose segment starts at the page `v`. -/
def find (s : Shm) (p : ℕ → Bool) : Option ℕ :=
  (List.range numOfSegs).find? fun key => p (s.seg key 0)

end Shm

namespace Kernel

@[simps -fullyApplied mem freelist proc]
def setSeg (k : Kernel) (key i v : ℕ) : Kernel := { k with shm := k.shm.setSeg key i v }

@[simps -fullyApplied mem freelist proc]
def setRefs (k : Kernel) (key b j : ℕ) (x : ℤ) : Kernel := { k with shm := k.shm.setRefs key b j x }

end Kernel

/-! ### `shmget` -/

/-- The loop that takes the pages `i`, `i + 1`, … of a new segment; the result says whether all
`n` could be had, and how many were. -/
def creatLoop (key : ℕ) : ℕ → ℕ → Kernel → Except Fault ((Bool × ℕ) × Kernel)
  | 0, i, k => .ok ((true, i), k)
  | n + 1, i, k =>
    let (mem, k) := kalloc k
    if i < numOfSegs then
      let k := k.setSeg key i (mem.getD 0)
      match mem with
      | none => .ok ((false, i), k)
      | some _ => creatLoop key n (i + 1) k
    else .error .bounds

/-- The loop that gives the pages `j`, `j + 1`, … of a segment back. -/
def undoLoop (key : ℕ) : ℕ → ℕ → Kernel → Except Fault Kernel
  | 0, _, k => .ok k
  | n + 1, j, k => do
    let k ← kfree k (k.shm.seg key j)
    undoLoop key n (j + 1) k

/-- The branch `CREAT` of `shmget`. -/
def shmcreat (k : Kernel) (key size : ℕ) : Except Fault (ℤ × Kernel) :=
  if numOfSegs ≤ key then .error .bounds
  else if k.shm.pages key = 0 then do
    let numOfPages := pgRoundUp size / PGSIZE
    let ((ok, i), k) ← creatLoop key numOfPages 0 k
    if ok = true then .ok (toInt (k.shm.seg key 0), k.setRefs key 1 64 numOfPages)
    else do
      let k ← undoLoop key i 0 k
      .ok (-1, k)
  else .ok (-1, k)

def shmget (k : Kernel) (key : ℤ) (size : ℕ) (shmflg junk : ℤ) : Except Fault (ℤ × Kernel) :=
  if key < 0 ∨ key > 1023 then .ok (-1, k)
  else if shmflg = CREAT then shmcreat k key.toNat size
  else if shmflg = GET then
    if numOfSegs ≤ key.toNat then .error .bounds
    else .ok (if k.shm.pages key.toNat = 0 then -1 else toInt (k.shm.seg key.toNat 0), k)
  else .ok (junk, k)

/-! ### `shmdel` -/

/-- The loop of `shmdel`. -/
def delLoop (key : ℕ) : ℕ → ℕ → Kernel → Except Fault Kernel
  | 0, _, k => .ok k
  | n + 1, i, k =>
    if i < numOfSegs then do
      let k ← kfree k (k.shm.seg key i)
      delLoop key n (i + 1) (k.setRefs key 1 64 (k.shm.pages key - 1))
    else .error .bounds

def shmdel (k : Kernel) (shmid : ℤ) : Except Fault (ℤ × Kernel) :=
  match k.shm.find fun v => decide (shmid = toInt v) with
  | none => .ok (-1, k)
  | some key =>
    if k.shm.count key > 0 then .ok (-1, k)
    else do
      let numOfPages := k.shm.pages key
      let k ← delLoop key numOfPages.toNat 0 k
      .ok (numOfPages, k)

/-! ### `shmat` -/

/-- The permissions for a flag; `none` is the default case of the `switch`. -/
def shmPerm (shmflg : ℤ) : Option ℕ :=
  if shmflg = SHM_RDONLY then some PTE_U
  else if shmflg = SHM_RDWR then some (PTE_W ||| PTE_U)
  else none

/-- The loop of `shmat`, from page `i` and address `a` on; it returns the address it stops at. -/
def attachLoop (pgdir key : ℕ) (perm : Option ℕ) :
    ℕ → ℕ → ℕ → Kernel → Except Fault (ℕ × Kernel)
  | 0, _, a, k => .ok (a, k)
  | n + 1, i, a, k =>
    if a < KERNBASE then
      if i < numOfSegs then
        match perm with
        | some perm => do
          let (_, k) ← mappages k pgdir a PGSIZE (v2p (k.shm.seg key i)) perm
          attachLoop pgdir key (some perm) n (i + 1) (a + PGSIZE) k
        | none => attachLoop pgdir key none n (i + 1) (a + PGSIZE) k
      else .error .bounds
    else .ok (a, k)

/-- Set or clear the flag of process `pid`. -/
def setFlag (k : Kernel) (key pid : ℕ) (x : ℤ) : Except Fault Kernel :=
  if pid ≤ 64 then .ok (k.setRefs key 0 pid x) else .error .bounds

/-- `shmat(shmid, shmflg)` by process `p`. -/
def shmat (k : Kernel) (p : Slot) (shmid shmflg : ℤ) : Except Fault (ℤ × Kernel) :=
  if k.shm.locked = true then .error .spin
  else
    match k.shm.find fun v => decide (shmid = toInt v) with
    | none => .ok (-1, k)
    | some key =>
      if k.shm.pages key > 0 then
        let a := pgRoundUp (k.proc p).sz
        if u32 (a + PGSIZE) ≥ KERNBASE then .ok (-1, k)
        else do
          let k := k.setRefs key 0 64 (k.shm.count key + 1)
          let k ← setFlag k key (k.proc p).pid 1
          let k := k.setProc p fun q => { q with hasShm := q.hasShm + 1 }
          let (a', k) ← attachLoop (k.proc p).pgdir key (shmPerm shmflg)
            (k.shm.pages key).toNat 0 a k
          if (shmPerm shmflg).isSome = true then
            .ok (toInt a, k.setProc p fun q => { q with sz := a' })
          else .ok (-1, k)
      else .ok (-1, k)

/-! ### `shmdt` and `deallocshm` -/

/-- The loop that clears `n` entries from address `a` on. -/
def clearLoop (pgdir : ℕ) : ℕ → ℕ → Kernel → Except Fault Kernel
  | 0, _, k => .ok k
  | n + 1, a, k =>
    match (walkpgdir k pgdir a false).1 with
    | none => .error .null
    | some (t, i) => clearLoop pgdir n (a + PGSIZE) (k.store t i 0)

/-- `shmdt(shmaddr)` by process `p`. The two error returns inside the loop keep the lock. -/
def shmdt (k : Kernel) (p : Slot) (shmaddr : ℕ) : Except Fault (ℤ × Kernel) :=
  match (walkpgdir k (k.proc p).pgdir shmaddr false).1 with
  | none => .error .null
  | some (t, i) =>
    let r := p2v (pteAddr (k.mem t i))
    if k.shm.locked = true then .error .spin
    else
      match k.shm.find fun v => decide (v = r) with
      | none => .ok (-1, k)
      | some key =>
        if k.shm.pages key > 0 then
          if k.shm.count key ≤ 0 then .ok (-1, { k with shm := { k.shm with locked := true } })
          else do
            let numOfPages := k.shm.pages key
            let k := k.setRefs key 0 64 (k.shm.count key - 1)
            let k ← setFlag k key (k.proc p).pid 0
            let k := k.setProc p fun q => { q with hasShm := q.hasShm - 1 }
            let k ← clearLoop (k.proc p).pgdir numOfPages.toNat shmaddr k
            .ok (0, k)
        else .ok (-1, { k with shm := { k.shm with locked := true } })

/-- The scan of `deallocshm` for the first page of a segment, from address `a` on; it returns the
address it stops at. -/
def detachScan (pgdir sz key : ℕ) : ℕ → ℕ → Kernel → Except Fault (ℕ × Kernel)
  | 0, a, k => .ok (a, k)
  | n + 1, a, k =>
    if a < sz then
      match (walkpgdir k pgdir a false).1 with
      | none => detachScan pgdir sz key n (a + (NPTENTRIES - 1) * PGSIZE + PGSIZE) k
      | some (t, i) =>
        if k.mem t i &&& PTE_P ≠ 0 ∧ k.shm.seg key 0 = p2v (pteAddr (k.mem t i)) then do
          let k ← clearLoop pgdir (k.shm.pages key).toNat a k
          .ok (a, if k.shm.count key > 0 then k.setRefs key 0 64 (k.shm.count key - 1) else k)
        else detachScan pgdir sz key n (a + PGSIZE) k
    else .ok (a, k)

/-- The loop of `deallocshm` over the keys; `a` is not reset from one key to the next. -/
def detachLoop (pgdir sz pid : ℕ) : ℕ → ℕ → ℕ → Kernel → Except Fault Kernel
  | 0, _, _, k => .ok k
  | n + 1, key, a, k =>
    if pid ≤ 64 then
      if k.shm.refs key 0 pid ≠ 0 then do
        let (a, k) ← detachScan pgdir sz key (sz / PGSIZE + 1) a k
        detachLoop pgdir sz pid n (key + 1) a k
      else detachLoop pgdir sz pid n (key + 1) a k
    else .error .bounds

/-- `deallocshm(pid)` by process `p`. -/
def deallocshm (k : Kernel) (p : Slot) : Except Fault Kernel :=
  if k.shm.locked = true then .error .spin
  else detachLoop (k.proc p).pgdir (k.proc p).sz (k.proc p).pid numOfSegs 0 0 k

end Xv6.Vm
