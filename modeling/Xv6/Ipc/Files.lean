import Xv6.Lib.Runs
import Xv6.Lib.Table
import Xv6.Param
import Xv6.Fs.Layout

/-! # Open files

The table of open files and the descriptors of the processes, with the calls that create and drop
references: `open`, `dup`, `pipe`, `close`, `fork` and `exit`, each run to completion (`wait` is there
to make the slots of dead processes free again). What `open` finds in the file system and whether
`kalloc` has a page are parameters of the calls.

Pipes are numbered in the order they are made, and `closed` records the calls of `pipeclose`.

A file is referenced from the descriptors that hold it and, inside a call, from local variables; `Acc`
counts both. -/

namespace Xv6.Files

open Function Option

open Runs
open Fs (NFILE NOFILE)

/-- The type of a file. -/
inductive Kind where
  | none
  | pipe
  | inode
deriving DecidableEq

/-- `struct file`. -/
structure File where
  type : Kind
  ref : ℕ
  readable : Bool
  writable : Bool
  pipe : ℕ
  ip : ℕ
  off : ℕ

/-- The states of a process that matter here. -/
inductive Life where
  | unused
  | live
  | zombie
deriving DecidableEq

structure System where
  /-- `ftable`. -/
  file : Fin NFILE → File
  life : Slot → Life
  /-- `ofile (p, fd)` is `p->ofile[fd]`. -/
  ofile : Slot × Fin NOFILE → Option (Fin NFILE)
  /-- How many pipes were made. -/
  pipes : ℕ
  /-- The calls of `pipeclose`: the pipe and `writable`. -/
  closed : List (ℕ × Bool)

namespace System

def boot : System where
  file _ := ⟨.none, 0, false, false, 0, 0, 0⟩
  life p := if p = initproc then .live else .unused
  ofile _ := none
  pipes := 0
  closed := []

@[simps -fullyApplied]
def setFile (s : System) (f : Fin NFILE) (x : File) : System :=
  { s with file := update s.file f x }

def setRef (s : System) (f : Fin NFILE) (n : ℕ) : System := s.setFile f { s.file f with ref := n }

/-- `p->ofile[fd] = o`. -/
@[simps -fullyApplied]
def setSlot (s : System) (x : Slot × Fin NOFILE) (o : Option (Fin NFILE)) : System :=
  { s with ofile := update s.ofile x o }

/-! ### `file.c` -/

/-- The entry `filealloc` finds. -/
def freeFile (s : System) : Option (Fin NFILE) :=
  (List.finRange NFILE).find? fun f => (s.file f).ref = 0

def filealloc (s : System) : Option (Fin NFILE × System) :=
  s.freeFile.map fun f => (f, s.setRef f 1)

/-- `filedup`; `none` is the panic. -/
def filedup (s : System) (f : Fin NFILE) : Option System :=
  if (s.file f).ref < 1 then none else some (s.setRef f ((s.file f).ref + 1))

def pipeclose (s : System) (n : ℕ) (writable : Bool) : System :=
  { s with closed := s.closed ++ [(n, writable)] }

/-- `fileclose`; `none` is the panic. -/
def fileclose (s : System) (f : Fin NFILE) : Option System :=
  if (s.file f).ref < 1 then none
  else if 0 < (s.file f).ref - 1 then some (s.setRef f ((s.file f).ref - 1))
  else
    let ff := s.file f
    let s := s.setFile f { ff with ref := 0, type := .none }
    some (if ff.type = .pipe then s.pipeclose ff.pipe ff.writable else s)

/-! ### `pipe.c` -/

/-- The end of `pipealloc` that gives back the files. -/
def pipeBad (s : System) (fs : List (Fin NFILE)) : Option System := fs.foldlM fileclose s

/-- The end of `pipealloc` that sets up the files. -/
def newPipe (s : System) (f0 f1 : Fin NFILE) : System :=
  let s := s.setFile f0 { s.file f0 with
    type := .pipe, readable := true, writable := false, pipe := s.pipes }
  let s := s.setFile f1 { s.file f1 with
    type := .pipe, readable := false, writable := true, pipe := s.pipes }
  { s with pipes := s.pipes + 1 }

/-- `pipealloc`; `page` says whether `kalloc` has a page. -/
def pipealloc (s : System) (page : Bool) : Option (Option (Fin NFILE × Fin NFILE) × System) :=
  match s.filealloc with
  | none => some (none, s)
  | some (f0, s) =>
    match s.filealloc with
    | none => (s.pipeBad [f0]).map (none, ·)
    | some (f1, s) =>
      if page then some (some (f0, f1), s.newPipe f0 f1)
      else (s.pipeBad [f0, f1]).map (none, ·)

/-! ### `sysfile.c` -/

/-- The descriptor `fdalloc` finds. -/
def freeFd (s : System) (p : Slot) : Option (Fin NOFILE) :=
  (List.finRange NOFILE).find? fun fd => (s.ofile (p, fd)).isNone

def fdalloc (s : System) (p : Slot) (f : Fin NFILE) : Option (Fin NOFILE × System) :=
  (s.freeFd p).map fun fd => (fd, s.setSlot (p, fd) (some f))

def O_WRONLY : ℕ := 1
def O_RDWR : ℕ := 2

/-- `sys_open` from where it has the inode `ip`. -/
def openInode (s : System) (p : Slot) (ip omode : ℕ) : Option System :=
  match s.filealloc with
  | none => some s
  | some (f, s) =>
    match s.fdalloc p f with
    | none => s.fileclose f
    | some (_, s) => some (s.setFile f { s.file f with
        type := .inode, ip := ip, off := 0, readable := omode &&& O_WRONLY = 0
        writable := omode &&& O_WRONLY ≠ 0 ∨ omode &&& O_RDWR ≠ 0 })

def dup (s : System) (p : Slot) (fd : Fin NOFILE) : Option System :=
  match s.ofile (p, fd) with
  | none => some s
  | some f =>
    match s.fdalloc p f with
    | none => some s
    | some (_, s) => s.filedup f

def close (s : System) (p : Slot) (fd : Fin NOFILE) : Option System :=
  match s.ofile (p, fd) with
  | none => some s
  | some f => (s.setSlot (p, fd) none).fileclose f

def pipe (s : System) (p : Slot) (page : Bool) : Option System := do
  match ← s.pipealloc page with
  | (none, s) => return s
  | (some (rf, wf), s) =>
    match s.fdalloc p rf with
    | none => (← s.fileclose rf).fileclose wf
    | some (fd0, s) =>
      match s.fdalloc p wf with
      | none => (← (s.setSlot (p, fd0) none).fileclose rf).fileclose wf
      | some (_, s) => return s

/-! ### `fork` and `exit` -/

/-- The loop of `fork` at descriptor `fd`. -/
def dupTo (p np : Slot) (s : System) (fd : Fin NOFILE) : Option System :=
  match s.ofile (p, fd) with
  | none => some s
  | some f => (s.filedup f).map fun s => s.setSlot (np, fd) (some f)

/-- `fork`; `ok` says whether the memory of the child could be allocated. -/
def fork (s : System) (p : Slot) (ok : Bool) : Option System :=
  match (List.finRange NPROC).find? fun q => s.life q = .unused with
  | none => some s
  | some np =>
    if ok then
      ((List.finRange NOFILE).foldlM (dupTo p np) s).map fun s =>
        { s with life := update s.life np .live }
    else some s

/-- The loop of `exit` at descriptor `fd`. -/
def closeAt (p : Slot) (s : System) (fd : Fin NOFILE) : Option System :=
  match s.ofile (p, fd) with
  | none => some s
  | some f => (s.fileclose f).map fun s => s.setSlot (p, fd) none

def exit (s : System) (p : Slot) : Option System :=
  if p = initproc then none
  else
    ((List.finRange NOFILE).foldlM (closeAt p) s).map fun s =>
      { s with life := update s.life p .zombie }

end System

/-- A call by process `p`. -/
inductive Call where
  /-- `open`, with the inode and the mode if it finds one that may be opened so. -/
  | openFile (p : Slot) (found : Option (ℕ × ℕ))
  | dup (p : Slot) (fd : Fin NOFILE)
  | close (p : Slot) (fd : Fin NOFILE)
  | pipe (p : Slot) (page : Bool)
  | fork (p : Slot) (ok : Bool)
  | exit (p : Slot)
  /-- The parent of `q` finds it dead. -/
  | wait (q : Slot)

/-- The process that makes the call can run. -/
def Call.ready (s : System) : Call → Bool
  | .openFile p _ => s.life p = .live
  | .dup p _ => s.life p = .live
  | .close p _ => s.life p = .live
  | .pipe p _ => s.life p = .live
  | .fork p _ => s.life p = .live
  | .exit p => s.life p = .live ∧ p ≠ initproc
  | .wait q => s.life q = .zombie

def Call.run (s : System) : Call → Option System
  | .openFile _ none => some s
  | .openFile p (some (ip, omode)) => s.openInode p ip omode
  | .dup p fd => s.dup p fd
  | .close p fd => s.close p fd
  | .pipe p page => s.pipe p page
  | .fork p ok => s.fork p ok
  | .exit p => s.exit p
  | .wait q => some { s with life := update s.life q .unused }

def step (s : System) (c : Call) : Option System := if c.ready s then c.run s else none

/-! ### Counting references -/

/-- The number of descriptors that hold `f`. -/
def System.slots (s : System) (f : Fin NFILE) : ℕ := Table.count (· = some f) s.ofile

/-- The entry is the end `w` of the pipe `n`. -/
def File.IsEnd (x : File) (n : ℕ) (w : Bool) : Prop := x.type = .pipe ∧ x.pipe = n ∧ x.writable = w

/-- The ends of the pipes: each is a file of its own until it is closed, and is closed once. -/
structure Ends (s : System) : Prop where
  free : ∀ f, (s.file f).ref = 0 → (s.file f).type = .none
  lt : ∀ f n w, (s.file f).IsEnd n w → n < s.pipes
  inj : ∀ f f' n w, (s.file f).IsEnd n w → (s.file f').IsEnd n w → f = f'
  gone : ∀ n w, (n, w) ∈ s.closed → n < s.pipes ∧ ∀ f, ¬ (s.file f).IsEnd n w
  still : ∀ n w, n < s.pipes → (n, w) ∉ s.closed → ∃ f, (s.file f).IsEnd n w
  nodup : s.closed.Nodup

/-- The references of every file are the descriptors that hold it and `h` others. -/
structure Acc (s : System) (h : Fin NFILE → ℕ) : Prop where
  ref : ∀ f, (s.file f).ref = s.slots f + h f
  ends : Ends s

/-- A process that is not alive has no open files. -/
def Idle (s : System) : Prop := ∀ p fd, s.life p ≠ .live → s.ofile (p, fd) = none

@[simp] theorem setFile_slots (s : System) (f g : Fin NFILE) (x : File) :
    (s.setFile f x).slots g = s.slots g := rfl

section ends
variable {s s' : System} {f : Fin NFILE}

theorem Ends.congr (h : Ends s) (hpipes : s'.pipes = s.pipes) (hclosed : s'.closed = s.closed)
    (hfree : ∀ f, (s'.file f).ref = 0 → (s'.file f).type = .none)
    (hend : ∀ f n w, (s'.file f).IsEnd n w ↔ (s.file f).IsEnd n w) : Ends s' where
  free := hfree
  lt f n w hf := hpipes ▸ h.lt f n w ((hend f n w).mp hf)
  inj f f' n w hf hf' := h.inj f f' n w ((hend f n w).mp hf) ((hend f' n w).mp hf')
  gone n w hn := by
    obtain ⟨hlt, hgone⟩ := h.gone n w (hclosed ▸ hn)
    exact ⟨hpipes ▸ hlt, fun f => mt (hend f n w).mp (hgone f)⟩
  still n w hn hc := by
    obtain ⟨f, hf⟩ := h.still n w (hpipes ▸ hn) (hclosed ▸ hc)
    exact ⟨f, (hend f n w).mpr hf⟩
  nodup := hclosed ▸ h.nodup

theorem Ends.setSlot (h : Ends s) (x : Slot × Fin NOFILE) (o : Option (Fin NFILE)) :
    Ends (s.setSlot x o) :=
  h.congr rfl rfl h.free fun _ _ _ => Iff.rfl

/-- An entry is written that stays the end of a pipe, or stays no such end. -/
theorem Ends.setFile (h : Ends s) {x : File} (hx : x.ref = 0 → x.type = .none)
    (hend : ∀ n w, x.IsEnd n w ↔ (s.file f).IsEnd n w) : Ends (s.setFile f x) := by
  refine h.congr rfl rfl (fun g hg => ?_) fun g n w => ?_
  · by_cases hgf : g = f
    · subst hgf
      simp only [System.setFile_file, update_self] at hg ⊢
      exact hx hg
    · simp only [System.setFile_file, update_of_ne hgf] at hg ⊢
      exact h.free g hg
  · by_cases hgf : g = f
    · subst hgf
      simpa using hend n w
    · simp [hgf]

theorem Ends.pipeclose (h : Ends s) {n0 : ℕ} {w0 : Bool} (hf : (s.file f).IsEnd n0 w0)
    (hpipes : s'.pipes = s.pipes) (hclosed : s'.closed = s.closed ++ [(n0, w0)])
    (hnone : (s'.file f).type = .none) (hother : ∀ g, g ≠ f → s'.file g = s.file g) : Ends s' := by
  have hend : ∀ g n w, (s'.file g).IsEnd n w → g ≠ f ∧ (s.file g).IsEnd n w := by
    intro g n w hg
    have hgf : g ≠ f := by
      rintro rfl
      simp [File.IsEnd, hnone] at hg
    exact ⟨hgf, hother g hgf ▸ hg⟩
  refine ⟨fun g hg => ?_, fun g n w hg => hpipes ▸ h.lt g n w (hend g n w hg).2,
    fun g g' n w hg hg' => h.inj g g' n w (hend g n w hg).2 (hend g' n w hg').2, fun n w hn => ?_,
    fun n w hn hc => ?_, ?_⟩
  · by_cases hgf : g = f
    · rw [hgf, hnone]
    · rw [hother g hgf] at hg ⊢
      exact h.free g hg
  · rw [hclosed, List.mem_append, List.mem_singleton] at hn
    rcases hn with hn | hn
    · obtain ⟨hlt, hgone⟩ := h.gone n w hn
      exact ⟨hpipes ▸ hlt, fun g hg => hgone g (hend g n w hg).2⟩
    · obtain ⟨rfl, rfl⟩ := Prod.mk.inj hn
      refine ⟨hpipes ▸ h.lt f n w hf, fun g hg => ?_⟩
      obtain ⟨hgf, hg⟩ := hend g n w hg
      exact hgf (h.inj g f n w hg hf)
  · rw [hclosed, List.mem_append, List.mem_singleton, not_or] at hc
    obtain ⟨g, hg⟩ := h.still n w (hpipes ▸ hn) hc.1
    have hgf : g ≠ f := by
      rintro rfl
      exact hc.2 (by rw [← hg.2.1, ← hg.2.2, hf.2.1, hf.2.2])
    exact ⟨g, by rwa [hother g hgf]⟩
  · rw [hclosed, List.nodup_append]
    refine ⟨h.nodup, List.nodup_singleton _, fun e he e' he' heq => ?_⟩
    rw [List.mem_singleton] at he'
    rw [heq, he'] at he
    exact (h.gone n0 w0 he).2 f hf

theorem Ends.pipe (h : Ends s) (end0 end1 : Fin NFILE) (hpipes : s'.pipes = s.pipes + 1)
    (hclosed : s'.closed = s.closed) (h₀ : (s'.file end0).IsEnd s.pipes false)
    (h₁ : (s'.file end1).IsEnd s.pipes true) (href0 : (s'.file end0).ref ≠ 0)
    (href1 : (s'.file end1).ref ≠ 0) (hnone0 : (s.file end0).type = .none)
    (hnone1 : (s.file end1).type = .none)
    (hother : ∀ g, g ≠ end0 → g ≠ end1 → s'.file g = s.file g) : Ends s' := by
  have hcase : ∀ g n w, (s'.file g).IsEnd n w →
      (g = end0 ∧ n = s.pipes ∧ w = false) ∨ (g = end1 ∧ n = s.pipes ∧ w = true) ∨
      (s.file g).IsEnd n w ∧ n < s.pipes := by
    intro g n w hg
    by_cases hg0 : g = end0
    · subst hg0
      exact .inl ⟨rfl, hg.2.1.symm.trans h₀.2.1, hg.2.2.symm.trans h₀.2.2⟩
    · by_cases hg1 : g = end1
      · subst hg1
        exact .inr (.inl ⟨rfl, hg.2.1.symm.trans h₁.2.1, hg.2.2.symm.trans h₁.2.2⟩)
      · rw [hother g hg0 hg1] at hg
        exact .inr (.inr ⟨hg, h.lt g n w hg⟩)
  refine ⟨fun g hg => ?_, fun g n w hg => ?_, fun g g' n w hg hg' => ?_, fun n w hn => ?_,
    fun n w hn hc => ?_, hclosed ▸ h.nodup⟩
  · have hg0 : g ≠ end0 := by
      rintro rfl
      exact href0 hg
    have hg1 : g ≠ end1 := by
      rintro rfl
      exact href1 hg
    rw [hother g hg0 hg1] at hg ⊢
    exact h.free g hg
  · obtain ⟨_, rfl, _⟩ | ⟨_, rfl, _⟩ | ⟨_, hlt⟩ := hcase g n w hg <;> omega
  · obtain ⟨hgf, rfl, rfl⟩ | ⟨hgf, rfl, rfl⟩ | ⟨hg, hlt⟩ := hcase g n w hg
    · obtain ⟨hgf', _, _⟩ | ⟨_, _, hw⟩ | ⟨_, hlt⟩ := hcase g' _ _ hg'
      · rw [hgf, hgf']
      · cases hw
      · exact absurd hlt (Nat.lt_irrefl _)
    · obtain ⟨_, _, hw⟩ | ⟨hgf', _, _⟩ | ⟨_, hlt⟩ := hcase g' _ _ hg'
      · cases hw
      · rw [hgf, hgf']
      · exact absurd hlt (Nat.lt_irrefl _)
    · obtain ⟨_, rfl, _⟩ | ⟨_, rfl, _⟩ | ⟨hg', _⟩ := hcase g' _ _ hg'
      · exact absurd hlt (Nat.lt_irrefl _)
      · exact absurd hlt (Nat.lt_irrefl _)
      · exact h.inj g g' n w hg hg'
  · obtain ⟨hlt, hgone⟩ := h.gone n w (hclosed ▸ hn)
    refine ⟨by omega, fun g hg => ?_⟩
    obtain ⟨_, rfl, _⟩ | ⟨_, rfl, _⟩ | ⟨hg, _⟩ := hcase g n w hg
    · exact absurd hlt (Nat.lt_irrefl _)
    · exact absurd hlt (Nat.lt_irrefl _)
    · exact hgone g hg
  · by_cases hnew : n = s.pipes
    · subst hnew
      cases w with
      | false => exact ⟨end0, h₀⟩
      | true => exact ⟨end1, h₁⟩
    · obtain ⟨g, hg⟩ := h.still n w (by omega) (hclosed ▸ hc)
      have hg0 : g ≠ end0 := by
        rintro rfl
        simp [File.IsEnd, hnone0] at hg
      have hg1 : g ≠ end1 := by
        rintro rfl
        simp [File.IsEnd, hnone1] at hg
      exact ⟨g, by rwa [hother g hg0 hg1]⟩

end ends

/-! ### The functions of `file.c`, `pipe.c` and `sysfile.c` -/

section functions
variable {s s' : System} {f : Fin NFILE} {h : Fin NFILE → ℕ} {x : Slot × Fin NOFILE} {p : Slot}

/-- No descriptor changes. -/
structure Same (s s' : System) : Prop where
  ofile : s'.ofile = s.ofile
  life : s'.life = s.life

theorem Same.trans {s'' : System} (h : Same s s') (h' : Same s' s'') : Same s s'' :=
  ⟨h'.ofile.trans h.ofile, h'.life.trans h.life⟩

theorem slots_pos (hx : s.ofile x = some f) : 0 < s.slots f := Table.count_pos _ s.ofile hx

theorem ofile_ne (h0 : s.slots f = 0) (x : Slot × Fin NOFILE) : s.ofile x ≠ some f :=
  (Table.count_eq_zero_iff _ _).mp h0 x

theorem slots_setSlot (s : System) (x : Slot × Fin NOFILE) (o : Option (Fin NFILE)) (g : Fin NFILE) :
    (s.setSlot x o).slots g + (if s.ofile x = some g then 1 else 0) =
      s.slots g + if o = some g then 1 else 0 := by
  have hcount := Table.count_update (· = some g) s.ofile x o
  simp only [System.slots, System.setSlot_ofile]
  split_ifs at hcount ⊢ <;> omega

/-- One reference more, held by the caller. -/
def more (h : Fin NFILE → ℕ) (f : Fin NFILE) : Fin NFILE → ℕ := update h f (h f + 1)

/-- A file with another count, which the caller's references make up for. -/
theorem Acc.setFile (ha : Acc s h) {h' : Fin NFILE → ℕ} {y : File} (href : y.ref = s.slots f + h' f)
    (hother : ∀ g, g ≠ f → h' g = h g) (hends : Ends (s.setFile f y)) : Acc (s.setFile f y) h' := by
  refine ⟨fun g => ?_, hends⟩
  by_cases hg : g = f
  · subst hg
    simpa using href
  · simpa [hg, hother g hg] using ha.ref g

theorem Acc.setFile_same (ha : Acc s h) {y : File} (href : y.ref = (s.file f).ref)
    (hends : Ends (s.setFile f y)) : Acc (s.setFile f y) h :=
  ha.setFile (href.trans (ha.ref f)) (fun _ _ => rfl) hends

theorem Acc.clear (ha : Acc s h) (hx : s.ofile x = some f) : Acc (s.setSlot x none) (more h f) := by
  refine ⟨fun g => ?_, ha.ends.setSlot x none⟩
  have hslots := slots_setSlot s x none g
  have href := ha.ref g
  simp only [hx, some.injEq, reduceCtorEq, if_false] at hslots
  by_cases hg : g = f
  · subst hg
    simp only [if_true] at hslots
    simp only [System.setSlot_file, more, update_self]
    omega
  · rw [if_neg (Ne.symm hg)] at hslots
    simp only [System.setSlot_file, more, update_of_ne hg]
    omega

/-- The caller gives its reference to a free descriptor. -/
theorem Acc.fill (ha : Acc s (more h f)) (hx : s.ofile x = none) : Acc (s.setSlot x (some f)) h := by
  refine ⟨fun g => ?_, ha.ends.setSlot x _⟩
  have hslots := slots_setSlot s x (some f) g
  have href := ha.ref g
  simp only [hx, some.injEq, reduceCtorEq, if_false] at hslots
  by_cases hg : g = f
  · subst hg
    simp only [if_true] at hslots
    simp only [more, update_self] at href
    simp only [System.setSlot_file]
    omega
  · rw [if_neg (Ne.symm hg)] at hslots
    simp only [more, update_of_ne hg] at href
    simp only [System.setSlot_file]
    omega

theorem more_of_ne {g : Fin NFILE} (hg : g ≠ f) : more h f g = h g := update_of_ne hg ..

theorem more_self : more h f f = h f + 1 := update_self ..

theorem Acc.filealloc (ha : Acc s h) (hs : s.filealloc = some (f, s')) :
    s.slots f = 0 ∧ h f = 0 ∧ (s.file f).type = .none ∧ Same s s' ∧ s' = s.setRef f 1 ∧
      Acc s' (more h f) := by
  obtain ⟨f', hf, heq⟩ := map_eq_some_iff.mp hs
  obtain ⟨rfl, rfl⟩ := Prod.mk.inj heq
  have hzero : (s.file f').ref = 0 := by simpa using List.find?_some hf
  have href := ha.ref f'
  have hnone := ha.ends.free f' hzero
  refine ⟨by omega, by omega, hnone, ⟨rfl, rfl⟩, rfl, ?_⟩
  refine ha.setFile ?_ (fun g => more_of_ne) (ha.ends.setFile (fun h1 => (by cases h1)) fun _ _ => Iff.rfl)
  rw [more_self]
  show 1 = _
  omega

theorem Acc.filedup (ha : Acc s h) (hf : 0 < s.slots f) :
    s.filedup f = some (s.setRef f ((s.file f).ref + 1)) ∧
      Acc (s.setRef f ((s.file f).ref + 1)) (more h f) := by
  have href := ha.ref f
  refine ⟨if_neg (by omega), ?_⟩
  refine ha.setFile ?_ (fun g => more_of_ne)
    (ha.ends.setFile (fun h1 => absurd h1 (Nat.succ_ne_zero _)) fun _ _ => Iff.rfl)
  rw [more_self]
  show (s.file f).ref + 1 = _
  omega

theorem Acc.fileclose (ha : Acc s (more h f)) :
    ∃ s', s.fileclose f = some s' ∧ Same s s' ∧ Acc s' h := by
  have href := ha.ref f
  rw [more_self] at href
  rw [System.fileclose, if_neg (by omega)]
  by_cases hlast : 0 < (s.file f).ref - 1
  · rw [if_pos hlast]
    refine ⟨_, rfl, ⟨rfl, rfl⟩, ha.setFile ?_ (fun g hg => (more_of_ne hg).symm)
      (ha.ends.setFile (fun h1 => absurd h1 hlast.ne') fun _ _ => Iff.rfl)⟩
    show (s.file f).ref - 1 = _
    omega
  · rw [if_neg hlast]
    have hzero : ∀ g, ((s.setFile f { s.file f with ref := 0, type := .none }).file g).ref =
        s.slots g + h g := by
      intro g
      by_cases hg : g = f
      · subst hg
        simp only [System.setFile_file, update_self]
        omega
      · simpa [hg, more_of_ne hg] using ha.ref g
    dsimp only
    split_ifs with htype
    · refine ⟨_, rfl, ⟨rfl, rfl⟩, hzero, ?_⟩
      exact ha.ends.pipeclose (f := f) ⟨htype, rfl, rfl⟩ rfl rfl (by simp [System.pipeclose])
        fun g hg => by simp [System.pipeclose, hg]
    · refine ⟨_, rfl, ⟨rfl, rfl⟩, hzero, ha.ends.setFile (fun _ => rfl) fun n w => ?_⟩
      simp [File.IsEnd, htype]

theorem more_comm (h : Fin NFILE → ℕ) (f g : Fin NFILE) : more (more h f) g = more (more h g) f := by
  by_cases hfg : f = g
  · rw [hfg]
  · rw [more, more_of_ne (Ne.symm hfg), more, more, more_of_ne hfg, more, update_comm hfg]

theorem newPipe_file {f₀ f₁ : Fin NFILE} (hne : f₀ ≠ f₁) :
    ((s.newPipe f₀ f₁).file f₀).IsEnd s.pipes false ∧ ((s.newPipe f₀ f₁).file f₁).IsEnd s.pipes true ∧
      (∀ g, ((s.newPipe f₀ f₁).file g).ref = (s.file g).ref) ∧
      ∀ g, g ≠ f₀ → g ≠ f₁ → (s.newPipe f₀ f₁).file g = s.file g := by
  refine ⟨by simp [System.newPipe, File.IsEnd, hne], by simp [System.newPipe, File.IsEnd], fun g => ?_,
    fun g hg0 hg1 => by simp [System.newPipe, hg0, hg1]⟩
  by_cases hg1 : g = f₁
  · subst hg1
    simp [System.newPipe, hne.symm]
  · by_cases hg0 : g = f₀
    · subst hg0
      simp [System.newPipe, hg1]
    · simp [System.newPipe, hg0, hg1]

theorem Acc.newPipe (ha : Acc s h) {f₀ f₁ : Fin NFILE} (hne : f₀ ≠ f₁)
    (h₀ : (s.file f₀).type = .none ∧ (s.file f₀).ref ≠ 0)
    (h₁ : (s.file f₁).type = .none ∧ (s.file f₁).ref ≠ 0) : Acc (s.newPipe f₀ f₁) h := by
  obtain ⟨hend0, hend1, href, hother⟩ := newPipe_file (s := s) hne
  refine ⟨fun g => (href g).trans (ha.ref g), ?_⟩
  exact ha.ends.pipe f₀ f₁ rfl rfl hend0 hend1 (by rw [href]; exact h₀.2) (by rw [href]; exact h₁.2) h₀.1
    h₁.1 hother

theorem Acc.pipealloc (ha : Acc s h) (page : Bool) :
    ∃ r s', s.pipealloc page = some (r, s') ∧ Same s s' ∧ (r = none → Acc s' h) ∧
      ∀ f₀ f₁, r = some (f₀, f₁) → Acc s' (more (more h f₀) f₁) := by
  unfold System.pipealloc
  cases hs1 : s.filealloc with
  | none => exact ⟨none, s, rfl, ⟨rfl, rfl⟩, fun _ => ha, fun _ _ hr => (by cases hr)⟩
  | some r0 =>
    obtain ⟨f₀, s1⟩ := r0
    obtain ⟨_, _, hnone0, hsame1, hset0, ha1⟩ := ha.filealloc hs1
    dsimp only
    cases hs2 : s1.filealloc with
    | none =>
      obtain ⟨s', hs', hsame, ha'⟩ := ha1.fileclose
      exact ⟨none, s', by simp [System.pipeBad, hs'], hsame1.trans hsame, fun _ => ha',
        fun _ _ hr => (by cases hr)⟩
    | some r1 =>
      obtain ⟨f₁, s2⟩ := r1
      obtain ⟨_, hheld, hnone1, hsame2, hset1, ha2⟩ := ha1.filealloc hs2
      have hne : f₀ ≠ f₁ := by
        rintro rfl
        rw [more_self] at hheld
        exact Nat.succ_ne_zero _ hheld
      cases page with
      | false =>
        rw [more_comm] at ha2
        obtain ⟨s3, hs3, hsame3, ha3⟩ := ha2.fileclose
        obtain ⟨s4, hs4, hsame4, ha4⟩ := ha3.fileclose
        exact ⟨none, s4, by simp [System.pipeBad, hs3, hs4],
          ((hsame1.trans hsame2).trans hsame3).trans hsame4, fun _ => ha4,
          fun _ _ hr => (by cases hr)⟩
      | true =>
        have h₀ : (s2.file f₀).type = .none ∧ (s2.file f₀).ref ≠ 0 := by
          simpa [hset1, hset0, System.setRef, hne] using hnone0
        have h₁ : (s2.file f₁).type = .none ∧ (s2.file f₁).ref ≠ 0 := by
          simpa [hset1, System.setRef] using hnone1
        refine ⟨some (f₀, f₁), _, rfl, ⟨(hsame1.trans hsame2).ofile, (hsame1.trans hsame2).life⟩,
          fun hr => (by cases hr), fun g0 g1 hr => ?_⟩
        obtain ⟨rfl, rfl⟩ : f₀ = g0 ∧ f₁ = g1 := by simpa using hr
        exact ha2.newPipe hne h₀ h₁

/-! ### The calls -/

/-- What holds between calls. -/
structure Good (s : System) : Prop where
  acc : Acc s fun _ => 0
  idle : Idle s

theorem Idle.same (hi : Idle s) (h : Same s s') : Idle s' := fun p fd hp => by
  rw [h.ofile]
  exact hi p fd (by rwa [← h.life])

theorem Idle.setSlot (hi : Idle s) (hx : s.life x.1 = .live) (o : Option (Fin NFILE)) :
    Idle (s.setSlot x o) := by
  intro p fd hp
  have hne : (p, fd) ≠ x := by
    rintro rfl
    exact hp hx
  simpa [hne] using hi p fd hp

theorem freeFd_none {fd : Fin NOFILE} (h : s.freeFd p = some fd) : s.ofile (p, fd) = none := by
  simpa using List.find?_some h

theorem Good.openInode (hg : Good s) (hp : s.life p = .live) (ip omode : ℕ) :
    ∃ s', s.openInode p ip omode = some s' ∧ Good s' := by
  unfold System.openInode
  cases hs1 : s.filealloc with
  | none => exact ⟨s, rfl, hg⟩
  | some r =>
    obtain ⟨f, s1⟩ := r
    obtain ⟨_, _, hnone, hsame, hset, ha⟩ := hg.acc.filealloc hs1
    dsimp only
    cases hfd : s1.freeFd p with
    | none =>
      obtain ⟨s', hs', hsame', ha'⟩ := ha.fileclose
      exact ⟨s', by simp [System.fdalloc, hfd, hs'], ha', hg.idle.same (hsame.trans hsame')⟩
    | some fd =>
      have hfill := ha.fill (freeFd_none hfd)
      have hp1 : s1.life p = .live := by rw [hsame.life, hp]
      have hidle := (hg.idle.same hsame).setSlot (x := (p, fd)) hp1 (some f)
      have htype : (s1.file f).type = .none := by simpa [hset, System.setRef] using hnone
      have href : (s1.file f).ref = 1 := by simp [hset, System.setRef]
      simp only [System.fdalloc, hfd, map_some]
      refine ⟨_, rfl, hfill.setFile_same rfl (hfill.ends.setFile ?_ ?_), hidle.same ⟨rfl, rfl⟩⟩
      · intro h0
        rw [System.setSlot_file, href] at h0
        cases h0
      · intro n w
        simp [File.IsEnd, htype]

theorem Good.dup (hg : Good s) (hp : s.life p = .live) (fd : Fin NOFILE) :
    ∃ s', s.dup p fd = some s' ∧ Good s' := by
  unfold System.dup
  cases hf : s.ofile (p, fd) with
  | none => exact ⟨s, rfl, hg⟩
  | some f =>
    dsimp only
    cases hfd : s.freeFd p with
    | none => exact ⟨s, by simp [System.fdalloc, hfd], hg⟩
    | some fd' =>
      obtain ⟨hdup, ha⟩ := hg.acc.filedup (slots_pos hf)
      have hne : ¬ (s.file f).ref < 1 := by
        intro hlt
        rw [System.filedup, if_pos hlt] at hdup
        cases hdup
      simp only [System.fdalloc, hfd, map_some]
      refine ⟨(s.setRef f ((s.file f).ref + 1)).setSlot (p, fd') (some f), ?_,
        ha.fill (freeFd_none hfd), (hg.idle.same ⟨rfl, rfl⟩).setSlot (x := (p, fd')) hp _⟩
      rw [System.filedup, System.setSlot_file, if_neg hne]
      rfl

theorem Good.close (hg : Good s) (hp : s.life p = .live) (fd : Fin NOFILE) :
    ∃ s', s.close p fd = some s' ∧ Good s' := by
  unfold System.close
  cases hf : s.ofile (p, fd) with
  | none => exact ⟨s, rfl, hg⟩
  | some f =>
    obtain ⟨s', hs', hsame, ha⟩ := (hg.acc.clear hf).fileclose
    exact ⟨s', hs', ha, (hg.idle.setSlot (x := (p, fd)) hp none).same hsame⟩

theorem Good.pipe (hg : Good s) (hp : s.life p = .live) (page : Bool) :
    ∃ s', s.pipe p page = some s' ∧ Good s' := by
  obtain ⟨r, s1, hs1, hsame1, hfail, hok⟩ := hg.acc.pipealloc page
  have hidle1 := hg.idle.same hsame1
  have hp1 : s1.life p = .live := by rw [hsame1.life, hp]
  simp only [System.pipe, hs1, bind_eq_bind, bind_some]
  cases r with
  | none => exact ⟨s1, rfl, hfail rfl, hidle1⟩
  | some fs =>
    obtain ⟨rf, wf⟩ := fs
    have ha := hok rf wf rfl
    rw [more_comm] at ha
    dsimp only
    cases hfd0 : s1.freeFd p with
    | none =>
      obtain ⟨s2, hs2, hsame2, ha2⟩ := ha.fileclose
      obtain ⟨s3, hs3, hsame3, ha3⟩ := ha2.fileclose
      exact ⟨s3, by simp [System.fdalloc, hfd0, hs2, hs3], ha3, hidle1.same (hsame2.trans hsame3)⟩
    | some fd₀ =>
      have hfill := ha.fill (freeFd_none hfd0)
      have hidle2 := hidle1.setSlot (x := (p, fd₀)) hp1 (some rf)
      simp only [System.fdalloc, hfd0, map_some]
      cases hfd1 : (s1.setSlot (p, fd₀) (some rf)).freeFd p with
      | none =>
        have hclear := hfill.clear (x := (p, fd₀)) (f := rf) (by simp)
        obtain ⟨s2, hs2, hsame2, ha2⟩ := hclear.fileclose
        obtain ⟨s3, hs3, hsame3, ha3⟩ := ha2.fileclose
        refine ⟨s3, by simp [hs2, hs3], ha3, Idle.same ?_ (hsame2.trans hsame3)⟩
        exact hidle2.setSlot (x := (p, fd₀)) hp1 none
      | some fd1 =>
        simp only [map_some]
        refine ⟨_, rfl, hfill.fill (freeFd_none hfd1), ?_⟩
        exact hidle2.setSlot (x := (p, fd1)) hp1 (some wf)

/-- Closing a file and clearing a descriptor can be exchanged. -/
theorem fileclose_setSlot (s : System) (f : Fin NFILE) (x : Slot × Fin NOFILE) (o : Option (Fin NFILE)) :
    (s.setSlot x o).fileclose f = (s.fileclose f).map fun s => s.setSlot x o := by
  have hfile : (s.setSlot x o).file f = s.file f := rfl
  unfold System.fileclose
  rw [hfile]
  split
  · rfl
  · split
    · rfl
    · dsimp only [map_some]
      split <;> rfl

theorem Acc.dupTo {np : Slot} (ha : Acc s fun _ => 0) {fd : Fin NOFILE} (hnone : s.ofile (np, fd) = none) :
    ∃ s', System.dupTo p np s fd = some s' ∧ Acc s' (fun _ => 0) ∧ s'.life = s.life ∧
      ∀ x, x ≠ (np, fd) → s'.ofile x = s.ofile x := by
  unfold System.dupTo
  cases hf : s.ofile (p, fd) with
  | none => exact ⟨s, rfl, ha, rfl, fun _ _ => rfl⟩
  | some f =>
    obtain ⟨hdup, ha⟩ := ha.filedup (slots_pos hf)
    dsimp only
    rw [hdup]
    exact ⟨_, rfl, ha.fill hnone, rfl, fun x hx => update_of_ne hx ..⟩

theorem Acc.dupLoop {np : Slot} {l : List (Fin NOFILE)} (hl : l.Nodup) (ha : Acc s fun _ => 0)
    (hnone : ∀ fd ∈ l, s.ofile (np, fd) = none) :
    ∃ s', l.foldlM (System.dupTo p np) s = some s' ∧ Acc s' (fun _ => 0) ∧ s'.life = s.life ∧
      ∀ q fd, q ≠ np → s'.ofile (q, fd) = s.ofile (q, fd) := by
  induction l generalizing s with
  | nil => exact ⟨s, rfl, ha, rfl, fun _ _ _ => rfl⟩
  | cons fd l ih =>
    obtain ⟨hfd, hl⟩ := List.nodup_cons.mp hl
    obtain ⟨s1, hs1, ha1, hlife, hother⟩ := ha.dupTo (p := p) (hnone fd List.mem_cons_self)
    have hrest : ∀ fd' ∈ l, s1.ofile (np, fd') = none := by
      intro fd' hfd'
      rw [hother _ fun heq => hfd ((Prod.mk.inj heq).2 ▸ hfd')]
      exact hnone fd' (List.mem_cons_of_mem _ hfd')
    obtain ⟨s', hs', ha', hlife', hother'⟩ := ih hl ha1 hrest
    refine ⟨s', ?_, ha', hlife'.trans hlife, fun q fd' hq => ?_⟩
    · rw [List.foldlM_cons, hs1]
      exact hs'
    · exact (hother' q fd' hq).trans (hother _ fun heq => hq (Prod.mk.inj heq).1)

theorem Good.fork (hg : Good s) (p : Slot) (ok : Bool) : ∃ s', s.fork p ok = some s' ∧ Good s' := by
  unfold System.fork
  cases hnp : (List.finRange NPROC).find? fun q => s.life q = .unused with
  | none => exact ⟨s, rfl, hg⟩
  | some np =>
    have hunused : s.life np = .unused := by simpa using List.find?_some hnp
    cases ok with
    | false => exact ⟨s, rfl, hg⟩
    | true =>
      obtain ⟨s', hs', ha, hlife, hother⟩ := hg.acc.dupLoop (p := p)
        (List.nodup_finRange NOFILE) fun fd _ => hg.idle np fd (by simp [hunused])
      refine ⟨{ s' with life := update s'.life np .live }, ?_, ⟨ha.ref, ?_⟩, fun q fd hq => ?_⟩
      · simp only [if_true, hs', map_some]
      · exact ha.ends.congr rfl rfl ha.ends.free fun _ _ _ => Iff.rfl
      · have hqn : q ≠ np := by
          rintro rfl
          simp at hq
        simp only [update_of_ne hqn, hlife] at hq
        exact (hother q fd hqn).trans (hg.idle q fd hq)

theorem Acc.closeAt (ha : Acc s fun _ => 0) (fd : Fin NOFILE) :
    ∃ s', System.closeAt p s fd = some s' ∧ Acc s' (fun _ => 0) ∧ s'.life = s.life ∧
      s'.ofile = update s.ofile (p, fd) none := by
  unfold System.closeAt
  cases hf : s.ofile (p, fd) with
  | none => exact ⟨s, rfl, ha, rfl, (update_eq_self_iff.mpr hf.symm).symm⟩
  | some f =>
    obtain ⟨s1, hs1, hsame, ha1⟩ := (ha.clear hf).fileclose
    rw [fileclose_setSlot] at hs1
    exact ⟨s1, hs1, ha1, hsame.life, hsame.ofile⟩

theorem Acc.closeLoop (l : List (Fin NOFILE)) (ha : Acc s fun _ => 0) :
    ∃ s', l.foldlM (System.closeAt p) s = some s' ∧ Acc s' (fun _ => 0) ∧ s'.life = s.life ∧
      (∀ q fd, q ≠ p → s'.ofile (q, fd) = s.ofile (q, fd)) ∧
      ∀ fd, fd ∈ l ∨ s.ofile (p, fd) = none → s'.ofile (p, fd) = none := by
  induction l generalizing s with
  | nil => exact ⟨s, rfl, ha, rfl, fun _ _ _ => rfl, fun fd h => h.resolve_left List.not_mem_nil⟩
  | cons fd l ih =>
    obtain ⟨s1, hs1, ha1, hlife, hofile⟩ := ha.closeAt (p := p) fd
    obtain ⟨s', hs', ha', hlife', hother', hclear'⟩ := ih ha1
    refine ⟨s', ?_, ha', hlife'.trans hlife, fun q fd' hq => ?_, fun fd' h => hclear' fd' ?_⟩
    · rw [List.foldlM_cons, hs1]
      exact hs'
    · rw [hother' q fd' hq, hofile, update_of_ne fun heq => hq (Prod.mk.inj heq).1]
    · rw [hofile]
      by_cases hfd : fd' = fd
      · exact .inr (by simp [hfd])
      · simpa [hfd] using h

theorem Good.exit (hg : Good s) (hp : p ≠ initproc) : ∃ s', s.exit p = some s' ∧ Good s' := by
  obtain ⟨s', hs', ha, hlife, hother, hclear⟩ := hg.acc.closeLoop (p := p) (List.finRange NOFILE)
  refine ⟨{ s' with life := update s'.life p .zombie }, ?_, ⟨ha.ref, ?_⟩, fun q fd hq => ?_⟩
  · rw [System.exit, if_neg hp, hs', map_some]
  · exact ha.ends.congr rfl rfl ha.ends.free fun _ _ _ => Iff.rfl
  · by_cases hqp : q = p
    · subst hqp
      exact hclear fd (.inl (List.mem_finRange fd))
    · simp only [update_of_ne hqp, hlife] at hq
      exact (hother q fd hqp).trans (hg.idle q fd hq)

theorem Good.run (hg : Good s) {c : Call} (hc : c.ready s) : ∃ s', c.run s = some s' ∧ Good s' := by
  cases c with
  | openFile p found =>
    cases found with
    | none => exact ⟨s, rfl, hg⟩
    | some found => exact hg.openInode (of_decide_eq_true hc) found.1 found.2
  | dup p fd => exact hg.dup (of_decide_eq_true hc) fd
  | close p fd => exact hg.close (of_decide_eq_true hc) fd
  | pipe p page => exact hg.pipe (of_decide_eq_true hc) page
  | fork p ok => exact hg.fork p ok
  | exit p => exact hg.exit (of_decide_eq_true hc).2
  | wait q =>
    have hq : s.life q = .zombie := of_decide_eq_true hc
    refine ⟨_, rfl, ⟨hg.acc.ref, ?_⟩, fun p fd hp => ?_⟩
    · exact hg.acc.ends.congr rfl rfl hg.acc.ends.free fun _ _ _ => Iff.rfl
    · by_cases hpq : p = q
      · subst hpq
        exact hg.idle p fd (by simp [hq])
      · exact hg.idle p fd (by simpa [hpq] using hp)

end functions

/-! ### Every run -/

theorem Good.boot : Good .boot where
  acc := by
    refine ⟨fun f => ?_, fun _ _ => rfl, ?_, ?_, ?_, ?_, List.nodup_nil⟩
    · have hzero : System.boot.slots f = 0 := (Table.count_eq_zero_iff _ _).mpr (by simp [System.boot])
      rw [hzero]
      rfl
    · exact fun _ _ _ h => (by cases h.1)
    · exact fun _ _ _ _ h => (by cases h.1)
    · exact fun _ _ h => absurd h List.not_mem_nil
    · exact fun n _ hn => absurd hn (Nat.not_lt_zero n)
  idle _ _ _ := rfl

theorem good_of_reaches {s : System} (h : Reaches step Always .boot s) : Good s := by
  refine h.invariant (fun s c s' hg _ hs => ?_) Good.boot
  obtain ⟨hc, hs⟩ := ite_none_right_eq_some.mp hs
  obtain ⟨s1, hs1, hg1⟩ := hg.run hc
  rw [hs1, some.injEq] at hs
  rwa [← hs]

/-- References to open files, after any sequence of calls: the count of every entry is the number of
descriptors that hold it; `filealloc` takes entries that none holds; `pipeclose` was called once for
every end of a pipe that no descriptor holds, and for no other; and the next call completes. -/
theorem file_references {s : System} (h : Reaches step Always .boot s) :
    (∀ f, (s.file f).ref = (Finset.univ.filter fun x => s.ofile x = some f).card) ∧
    (∀ f s', s.filealloc = some (f, s') → (∀ x, s.ofile x ≠ some f) ∧
      ∀ f' s'', s'.filealloc = some (f', s'') → ∀ x, s.ofile x ≠ some f') ∧
    (s.closed.Nodup ∧ (∀ e ∈ s.closed, e.1 < s.pipes) ∧ ∀ n < s.pipes, ∀ w,
      (n, w) ∈ s.closed ↔ ∀ x f, s.ofile x = some f → ¬ (s.file f).IsEnd n w) ∧
    ∀ c : Call, c.ready s = true → ∃ s', step s c = some s' := by
  obtain ⟨ha, hidle⟩ := good_of_reaches h
  refine ⟨fun f => by rw [ha.ref f, Nat.add_zero, System.slots, Table.count], fun f s' hs => ?_, ⟨ha.ends.nodup, fun e he => (ha.ends.gone e.1 e.2 he).1,
    fun n hn w => ⟨fun hc x f _ => (ha.ends.gone n w hc).2 f, fun hno => ?_⟩⟩, fun c hc => ?_⟩
  · obtain ⟨hslots, _, _, hsame, _, ha'⟩ := ha.filealloc hs
    refine ⟨ofile_ne hslots, fun f' s'' hs' => ?_⟩
    rw [← hsame.ofile]
    exact ofile_ne (ha'.filealloc hs').1
  · by_contra hc
    obtain ⟨f, hf⟩ := ha.ends.still n w hn hc
    have href : (s.file f).ref ≠ 0 := by
      intro h0
      have hnone := ha.ends.free f h0
      rw [hf.1] at hnone
      cases hnone
    have hslots : s.slots f ≠ 0 := by
      intro h0
      rw [ha.ref f, h0] at href
      exact href rfl
    rw [System.slots, Ne, Table.count_eq_zero_iff] at hslots
    push Not at hslots
    obtain ⟨x, hx⟩ := hslots
    exact hno x f hx hf
  · obtain ⟨s', hs', _⟩ := Good.run ⟨ha, hidle⟩ hc
    exact ⟨s', by rw [step, if_pos hc, hs']⟩

/-- Init makes a pipe, forks, and closes its write end; the child still has it. -/
theorem file_references_pipe : ∃ s, Reaches step Always .boot s ∧
    ((s.file ⟨1, by decide⟩).ref = 1 ∧ (s.file ⟨0, by decide⟩).ref = 2 ∧ s.pipes = 1) ∧
    s.closed.Nodup := by
  obtain ⟨s, hs, htest⟩ := reaches_of_exec step Always .boot
    [.pipe initproc true, .fork initproc true, .close initproc ⟨1, by decide⟩]
    (fun s => (s.file ⟨1, by decide⟩).ref = 1 ∧ (s.file ⟨0, by decide⟩).ref = 2 ∧ s.pipes = 1)
    (by decide +kernel)
  exact ⟨s, hs, of_decide_eq_true htest, (file_references hs).2.2.1.1⟩

end Xv6.Files
