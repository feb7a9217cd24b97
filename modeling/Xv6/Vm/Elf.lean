import Xv6.Lib.Bytes
import Xv6.Vm.System

/-! # Executable files

`exec` on a file given by its bytes. The headers are read from the file, as far as they can be, and
make an `Image`; `execFile` is `exec` of that image together with what it does to the name and the
trap frame.

`copies` lists where the contents of the file go while the program is loaded: for each page the
address, the page that `walkpgdir` finds for it in the new directory, how many bytes `readi` copies,
and the size of the new space at that time. -/

namespace Xv6.Vm

/-- The contents of a file. -/
abbrev File := List UInt8

namespace File
variable (f : File)

/-- `readi(ip, dst, off, n)`: the bytes read, `none` for the result `-1`. -/
def readi (off n : ℕ) : Option File :=
  if f.length < off ∨ 2 ^ 32 ≤ off + n then none else some ((f.drop off).take n)

/-- The `uint` and the `ushort` at an offset of what was read. -/
def word (i : ℕ) : ℕ := Bytes.val 4 fun j => f.getD (i + j) 0

def half (i : ℕ) : ℕ := Bytes.val 2 fun j => f.getD (i + j) 0

end File

def ELF_MAGIC : ℕ := 0x464C457F
def ELF_PROG_LOAD : ℕ := 1

/-- The fields of `struct elfhdr` that `exec` looks at after the check of `magic`. -/
structure Elfhdr where
  entry : ℕ
  phoff : ℕ
  phnum : ℕ
deriving DecidableEq, Repr

/-- The fields of `struct proghdr` that `exec` looks at. -/
structure Proghdr where
  type : ℕ
  off : ℕ
  vaddr : ℕ
  filesz : ℕ
  memsz : ℕ
deriving DecidableEq, Repr

/-- The ELF header, `none` where `exec` gives up. -/
def File.elfhdr (f : File) : Option Elfhdr :=
  match f.readi 0 52 with
  | none => none
  | some b =>
    if b.length < 52 then none
    else if b.word 0 ≠ ELF_MAGIC then none
    else some ⟨b.word 24, b.word 28, b.half 44⟩

/-- The program header at an offset, `none` where `exec` gives up. -/
def File.proghdr (f : File) (off : ℕ) : Option Proghdr :=
  match f.readi off 32 with
  | none => none
  | some b =>
    if b.length ≠ 32 then none
    else some ⟨b.word 0, b.word 4, b.word 8, b.word 16, b.word 20⟩

/-- The program headers from an offset on. -/
def File.proghdrs (f : File) : ℕ → ℕ → List (Option Proghdr)
  | 0, _ => []
  | n + 1, off => f.proghdr off :: f.proghdrs n (u32 (off + 32))

/-- A page after bytes have been copied to its beginning. -/
def putBytes (m : ℕ → ℕ) (b : List UInt8) (i : ℕ) : ℕ :=
  if b.length ≤ 4 * i then m i
  else Bytes.val 4 fun j => if 4 * i + j < b.length then b.getD (4 * i + j) 0 else Bytes.le (m i) j

namespace Proghdr
variable (f : File) (ph : Proghdr)

/-- How much `loaduvm` reads for its page `j`, and what it gets. -/
def want (j : ℕ) : ℕ := min PGSIZE (ph.filesz - j * PGSIZE)

def piece (j : ℕ) : List UInt8 := (f.readi (u32 (ph.off + j * PGSIZE)) (ph.want j)).getD []

def whole (j : ℕ) : Bool := (ph.piece f j).length = ph.want j

/-- The program header with its part of the file. -/
def segment : Phdr where
  load := ph.type = ELF_PROG_LOAD
  vaddr := ph.vaddr
  memsz := ph.memsz
  filesz := ph.filesz
  data j m := (ph.whole f j, putBytes m (ph.piece f j))

end Proghdr

/-- An argument of `exec`: a string in user memory, which takes `len` bytes with its `NUL`. -/
structure Arg where
  len : ℕ
  pos : 0 < len
  le : len ≤ KERNBASE

/-- The image in a file, as `exec` finds it. -/
def File.image (f : File) (args : List Arg) (data : ℕ → ℕ → (ℕ → ℕ) → (ℕ → ℕ)) : Option Image :=
  f.elfhdr.map fun elf =>
    { phdrs := (f.proghdrs elf.phnum elf.phoff).map (Option.map (Proghdr.segment f))
      args := args.map Arg.len
      data := data }

/-- The name and the trap frame of a process, as far as `exec` changes them. -/
structure Regs where
  name : List UInt8
  eip : ℕ
  esp : ℕ

/-- What follows the last slash. -/
def lastElem (path : List UInt8) : List UInt8 := (path.reverse.takeWhile (· ≠ 47)).reverse

/-- The stack pointer after the arguments and the argument vector have been pushed. -/
def stackPtr (sz : ℕ) (args : List Arg) : ℕ :=
  let sp := args.foldl (fun sp a => u32 (sp + 2 ^ 32 - a.len % 2 ^ 32) / 4 * 4) sz
  u32 (sp + 2 ^ 32 - (3 + args.length + 1) * 4)

/-- `exec(path, argv)` of process `p`, on the file that `path` names. -/
def execFile (k : Kernel) (p : Slot) (regs : Regs) (path : List UInt8) (f : File) (args : List Arg)
    (data : ℕ → ℕ → (ℕ → ℕ) → (ℕ → ℕ)) : Except Fault (ℤ × Kernel × Regs) := do
  let (r, k) ← exec k p (f.image args data)
  let entry := (f.elfhdr.map Elfhdr.entry).getD 0
  .ok (r, k, if r = 0 then ⟨(lastElem path).take 15, entry, stackPtr (k.proc p).sz args⟩ else regs)

/-! ### Where the contents go -/

/-- Bytes of the file copied to a page. -/
structure Copy where
  va : ℕ
  page : ℕ
  len : ℕ
  sz : ℕ

/-- The copies of the loop of `loaduvm`. -/
def loadCopies (pgdir : ℕ) (f : File) (ph : Proghdr) (sz : ℕ) : ℕ → ℕ → Kernel → List Copy
  | 0, _, _ => []
  | n + 1, j, k =>
    let va := u32 (ph.vaddr + j * PGSIZE)
    match (walkpgdir k pgdir va false).1 with
    | none => []
    | some (t, i) =>
      let page := p2v (pteAddr (k.mem t i))
      ⟨va, page, (ph.piece f j).length, sz⟩ ::
        if ph.whole f j = true then
          loadCopies pgdir f ph sz n (j + 1) (k.setPage page (putBytes (k.mem page) (ph.piece f j)))
        else []

/-- The copies of the loop of `exec`. -/
def execCopies (pgdir : ℕ) (f : File) : List (Option Proghdr) → ℕ → Kernel → List Copy
  | [], _, _ => []
  | none :: _, _, _ => []
  | some ph :: l, sz, k =>
    if (ph.segment f).load = false then execCopies pgdir f l sz k
    else if ph.memsz < ph.filesz then []
    else
      match allocuvm k pgdir sz (u32 (ph.vaddr + ph.memsz)) with
      | .error _ => []
      | .ok (sz, k) =>
        if sz = 0 ∨ ph.vaddr % PGSIZE ≠ 0 then []
        else
          loadCopies pgdir f ph (pgRoundUp sz) ((ph.filesz + PGSIZE - 1) / PGSIZE) 0 k ++
            match loaduvm k pgdir ph.vaddr (ph.segment f).data ph.filesz with
            | .ok (true, k) => execCopies pgdir f l sz k
            | _ => []

/-- The copies of `exec`. -/
def File.copies (f : File) (k : Kernel) : List Copy :=
  match f.elfhdr, setupkvm k with
  | some elf, .ok (some pgdir, k) => execCopies pgdir f (f.proghdrs elf.phnum elf.phoff) 0 k
  | _, _ => []

end Xv6.Vm
