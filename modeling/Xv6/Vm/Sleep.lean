import Xv6.Fs.Calls
import Xv6.Sched.Wakeup
import Xv6.Vm.Ownership
import Xv6.Vm.Tables
import Xv6.Vm.Swap

/-! # `sleep` when `swapOut` fails

The scheduler and memory together. A `Machine` has the process table of `Sched`, memory, and the references
that are held in `ftable`. `swapOut` and `swapIn` are as in `Vm`, with what they do to the files; `sleep` is
that of `Sched`, with the call of `swapOut` in its place: the other CPUs may take any steps while it runs.

`swapOut` gives up if the swap file cannot be opened (`fileopen_full`), or if the process has more pages than the
largest file has room for (`filewrite_fits`), and tells nobody. `sleep` suspends the
process all the same, a wakeup hands it to the inswapper, and `swapIn` maps new pages over those that are
still there (`Slept.remap`). So all is well after a failure only if there was no attempt (`handled_iff`). -/

namespace Xv6.Fs.Names
open Prog

/-- The answers to the commands of `filewrite` for a file `f` that nobody else uses; the ghost state is the file.
As the offset does not pass the size, `writei` refuses only what goes beyond the largest file. -/
def swapFile (f : ℕ) : Rules Op Op.Resp File where
  may _ _ := True
  can
    | .tab (.file g), x, y => g = f → y = x
    | .writei _ off l, _, ok => ok = decide (off + l.length ≤ MAXFILE * BSIZE)
    | _, _, _ => True
  next
    | .tab (.fileSet g y), x, _ => if g = f then y else x
    | _, x, _ => x

/-- The bytes are written at the offset if the largest file has room for them. -/
def Fits (x : File) (n : ℕ) (ok : Bool) (y : File) : Prop :=
  ok = decide (x.off + n ≤ MAXFILE * BSIZE) ∧ (ok = true → y = { x with off := x.off + n })

theorem writeLoop_fits {f n : ℕ} {x : File} {l : List UInt8} (hn : l.length ≤ n)
    (hx : x.off ≤ MAXFILE * BSIZE) : (writeLoop f n l).Follows (swapFile f) (Fits x l.length) x := by
  induction n generalizing l x with
  | zero =>
    obtain rfl := List.length_eq_zero_iff.mp (Nat.le_zero.mp hn)
    exact ⟨(decide_eq_true hx).symm, fun _ => rfl⟩
  | succ n ih =>
    refine follows_ite.mpr ⟨fun h => ?_, fun _ => ?_⟩
    · rw [h]
      exact ⟨(decide_eq_true hx).symm, fun _ => rfl⟩
    refine ⟨trivial, fun _ _ => ⟨trivial, fun _ _ => ⟨trivial, fun _ _ => ⟨trivial, fun y hy => ⟨trivial,
      fun ok hok => ?_⟩⟩⟩⟩⟩
    obtain rfl : y = x := hy rfl
    have hmax : 0 < maxWrite := by decide
    have htake := List.length_take (i := maxWrite) (l := l)
    have hdrop := List.length_drop (i := maxWrite) (l := l)
    cases ok with
    | false =>
      have hbig := of_decide_eq_false hok.symm
      exact ⟨trivial, fun _ _ => ⟨trivial, fun _ _ => ⟨(decide_eq_false (by omega)).symm, by simp⟩⟩⟩
    | true =>
      refine ⟨trivial, fun _ _ => ⟨trivial, fun _ _ => ⟨trivial, fun _ _ => ?_⟩⟩⟩
      have hrest := ih (l := l.drop maxWrite) (x := { y with off := y.off + (l.take maxWrite).length })
        (by omega) (of_decide_eq_true hok.symm)
      unfold Fits at hrest ⊢
      rw [show y.off + l.length = y.off + (l.take maxWrite).length + (l.drop maxWrite).length by omega]
      change Follows _ _ _ (if f = f then _ else y)
      rw [if_pos rfl]
      exact hrest

/-- All entries of `ftable` are in use. -/
def fullTable : Rules Op Op.Resp Unit where
  may _ _ := True
  can
    | .tab .filealloc, _, r => r = none
    | _, _, _ => True
  next _ _ _ := ()

theorem fileopen_full (path : List UInt8) (omode : ℕ) :
    (fileopen path omode).Follows fullTable (fun r _ => r = none) () := by
  have hany : ∀ {α : Type} (p : Fsys α), p.Follows fullTable (fun _ _ => True) () := fun p => by
    induction p with
    | ret a => trivial
    | op c k ih => exact ⟨trivial, fun r _ => ih r⟩
  refine (hany (openInode path omode)).seq fun ip _ _ => ?_
  cases ip with
  | none => rfl
  | some ip =>
    refine ⟨trivial, fun f hf => ?_⟩
    obtain rfl : f = none := hf
    exact ⟨trivial, fun _ _ => ⟨trivial, fun _ _ => rfl⟩⟩

end Xv6.Fs.Names

namespace Xv6.Vm

open Runs Fallible Function

/-- The process table, memory, the references held in `ftable`, and for which processes `proc->swap` is one. -/
structure Machine where
  sched : Sched.Sys
  mem : Kernel
  files : ℕ
  swap : Slot → Bool

/-- `filewrite` of page `j` succeeds, at the offset where the page before has ended. -/
def pageFits (j : ℕ) : Bool := j * PGSIZE + PGSIZE ≤ Fs.MAXFILE * Fs.BSIZE

theorem filewrite_fits {f j : ℕ} {x : Fs.File} {l : List UInt8} (hw : x.writable = true) (ht : x.type = .inode)
    (hx : x.off = j * PGSIZE) (hj : x.off ≤ Fs.MAXFILE * Fs.BSIZE) (hl : l.length = PGSIZE) :
    (Fs.Names.filewrite f l).Follows (Fs.Names.swapFile f)
      (fun ok y => ok = pageFits j ∧ (ok = true → y = { x with off := (j + 1) * PGSIZE })) x := by
  have hloop := Fs.Names.writeLoop_fits (f := f) le_rfl hj (l := l)
  unfold Fs.Names.Fits at hloop
  refine ⟨trivial, fun y hy => Prog.follows_ite.mpr ⟨fun h => ?_, fun _ => ?_⟩⟩
  · obtain rfl : y = x := hy rfl
    simp [hw, ht] at h
  · rw [pageFits, Nat.succ_mul, ← hx, ← hl]
    exact hloop

namespace Machine

/-- `proc->swap = fileopen(…)`, with success. -/
def fileopen (m : Machine) (p : Slot) : Machine := { m with files := m.files + 1, swap := update m.swap p true }

/-- `proc->swap = fileopen(…)`, without. -/
def noFile (m : Machine) (p : Slot) : Machine := { m with swap := update m.swap p false }

def fileclose (m : Machine) (p : Slot) : Machine := { m.noFile p with files := m.files - 1 }

/-- `swapOut()`; `opened` is the outcome of `fileopen`. -/
def swapOut (m : Machine) (p : Slot) (opened : Bool) : Except Fault Machine :=
  if opened = false then .ok (m.noFile p)
  else do
    let ok ← outLoop (m.mem.proc p).pgdir pageFits (((m.mem.proc p).sz + PGSIZE - 1) / PGSIZE) 0 m.mem
    -- the file stays open if a page could not be written
    if ok = true then do
      let (_, k) ← deallocuvm m.mem (m.mem.proc p).pgdir (m.mem.proc p).sz 0
      .ok { (m.fileopen p).fileclose p with mem := k }
    else .ok (m.fileopen p)

/-- The body of the loop of `swapIn` for the process `t`. -/
def swapIn (m : Machine) (t : Slot) (opened : Bool) (data : FileData) : Except Fault Machine :=
  if (m.sched.proc t).state ≠ .runnableSuspended then .ok m
  else if opened = false then .ok (m.noFile t)
  else do
    let (sz, k) ← allocuvm m.mem (m.mem.proc t).pgdir 0 (m.mem.proc t).sz
    if sz = 0 then .ok { m.fileopen t with mem := k }
    else do
      let (_, k) ← loaduvm k (k.proc t).pgdir 0 data (k.proc t).sz
      .ok { (m.fileopen t).fileclose t with
        mem := k.setProc t fun q => { q with state := .running }
        sched := { m.sched.setState t .runnable with swappedout := m.sched.swappedout - 1 } }

def wakeup (m : Machine) (chan : Sched.Chan) : Machine := { m with sched := Sched.wakeup1 chan m.sched }

end Machine

/-- `sleep(chan, lk)` of process `p` on CPU `c`, up to the call of `sched`. While `swapOut` runs, without
`ptable.lock`, other CPUs go on, and the process may move to another one. -/
inductive Slept (m : Machine) (c : ℕ) (p : Slot) (chan : Sched.Chan) (wait opened : Bool) : Machine → Prop
  | stay (hoff : ¬ (m.sched.swapFlag = true ∧ 3 < (m.sched.proc p).pid)) :
      Slept m c p chan wait opened { m with sched := Sched.sleep m.sched c p chan wait }
  | swap {s : Sched.Sys} {c' : ℕ} {outs : List Sched.Call} {m' : Machine}
      (hon : m.sched.swapFlag = true ∧ 3 < (m.sched.proc p).pid)
      (hrun : Reaches Sched.step Always (Sched.sleep m.sched c p chan wait) s) (hcpu : s.cpu c' = .run p)
      (houts : (s.thr p).outs = ⟨m.sched.calls, chan, wait⟩ :: outs)
      (hout : m.swapOut p opened = .ok m') :
      Slept m c p chan wait opened
        { m' with
          sched := Sched.swapped s c' p ⟨m.sched.calls, chan, wait⟩ outs
          mem := m'.mem.setProc p fun q => { q with state := .sleepingSuspended } }

/-- `swapOut` gives up: the swap file cannot be opened, or some `filewrite` fails. -/
def SwapFails (k : Kernel) (p : Slot) (opened : Bool) : Prop := opened = false ∨ ∃ j < k.pagesOf p, pageFits j = false

/-- What one wants to find after a failed `swapOut`. -/
structure Handled (m m' : Machine) (p : Slot) (chan : Sched.Chan) : Prop where
  pages : ∀ n, 4096 * n < (m.mem.proc p).sz → m'.mem.entry (m'.mem.dirOf p) n = m.mem.entry (m.mem.dirOf p) n
  files : m'.files = m.files
  state : (m'.sched.proc p).state ≠ .sleepingSuspended ∧ (m'.sched.proc p).state ≠ .runnableSuspended
  wakes : ((m'.wakeup chan).sched.proc p).state = .runnable
  back : ∀ opened data, (m'.wakeup chan).swapIn p opened data ≠ .error (.panic "remap")

section
variable {m m' : Machine} {c : ℕ} {p : Slot} {chan : Sched.Chan} {wait opened : Bool} {s : Sched.Sys}

/-! ### The parts -/

theorem Machine.swapOut_mem (m : Machine) (p : Slot) (opened : Bool) :
    (m.swapOut p opened).map Machine.mem = Vm.swapOut m.mem p opened pageFits := by
  unfold Machine.swapOut Vm.swapOut
  split_ifs
  · rfl
  cases outLoop (m.mem.proc p).pgdir pageFits (((m.mem.proc p).sz + PGSIZE - 1) / PGSIZE) 0 m.mem with
  | error e => rfl
  | ok ok =>
    cases ok with
    | false => rfl
    | true =>
      show Except.map _ (deallocuvm _ _ _ _ >>= _) = (deallocuvm _ _ _ _ >>= _)
      cases deallocuvm m.mem (m.mem.proc p).pgdir (m.mem.proc p).sz 0 with
      | error e => rfl
      | ok r => rfl

theorem outLoop_true {k : Kernel} {writes : ℕ → Bool} {d n j : ℕ} (hr : outLoop d writes n j k = .ok true) :
    ∀ i < n, writes (j + i) = true := by
  induction n generalizing j with
  | zero => exact fun i hi => by omega
  | succ n ih =>
    rw [outLoop] at hr
    split at hr
    · cases hr
    · split_ifs at hr with hpr hw
      · intro i hi
        cases i with
        | zero => exact hw
        | succ i =>
          rw [show j + (i + 1) = j + 1 + i by omega]
          exact ih hr i (by omega)
      · cases hr

/-- A `swapOut` that fails leaves memory alone. -/
theorem Machine.swapOut_fails (hf : SwapFails m.mem p opened) (hr : m.swapOut p opened = .ok m') :
    m'.mem = m.mem := by
  unfold Machine.swapOut at hr
  split_ifs at hr with ho
  · obtain rfl := Except.ok.inj hr
    rfl
  · obtain ⟨ok, hloop, hr⟩ := bind_ok hr
    obtain ⟨j, hj, hwj⟩ := hf.resolve_left ho
    cases ok with
    | true =>
      have hw := outLoop_true hloop j hj
      rw [Nat.zero_add, hwj] at hw
      cases hw
    | false =>
      rw [if_neg (by decide)] at hr
      obtain rfl := Except.ok.inj hr
      rfl

/-- With all pages there, a `swapOut` that fails returns. -/
theorem Machine.swapOut_returns (hfull : NoHoles m.mem (m.mem.dirOf p) (m.mem.proc p).sz)
    (hf : SwapFails m.mem p opened) : ∃ m', m.swapOut p opened = .ok m' := by
  unfold Machine.swapOut
  split_ifs with ho
  · exact ⟨_, rfl⟩
  · obtain ⟨j, hj, hwj⟩ := hf.resolve_left ho
    have hloop := outLoop_eq (k := m.mem) (d := m.mem.dirOf p) pageFits (n := m.mem.pagesOf p) (j := 0) fun i hi => by
      rw [Nat.zero_add]
      exact hfull i (lt_pagesOf.mp hi)
    rw [decide_eq_false (fun hall => by
      have hw := hall j hj
      rw [Nat.zero_add, hwj] at hw
      cases hw)] at hloop
    unfold Kernel.pagesOf at hloop
    rw [hloop]
    exact ⟨_, rfl⟩

theorem Machine.swapIn_mem (hst : (m.sched.proc p).state = .runnableSuspended) (opened : Bool) (data : FileData) :
    (m.swapIn p opened data).map Machine.mem = Vm.swapIn m.mem p opened data := by
  unfold Machine.swapIn Vm.swapIn
  rw [if_neg (not_not.mpr hst)]
  split_ifs
  · rfl
  cases allocuvm m.mem (m.mem.proc p).pgdir 0 (m.mem.proc p).sz with
  | error e => rfl
  | ok r =>
    obtain ⟨sz, k⟩ := r
    show Except.map _ (if sz = 0 then _ else _) = (if sz = 0 then _ else _)
    split_ifs
    · rfl
    show Except.map _ (loaduvm _ _ _ _ _ >>= _) = (loaduvm _ _ _ _ _ >>= _)
    cases loaduvm k (k.proc p).pgdir 0 data (k.proc p).sz with
    | error e => rfl
    | ok r => rfl

theorem Machine.swapIn_skip (hst : (m.sched.proc p).state ≠ .runnableSuspended) (opened : Bool) (data : FileData) :
    m.swapIn p opened data = .ok m := if_pos hst

theorem swapIn_remap {k : Kernel} (h : Tabled k (k.dirOf p)) (hpr : Present (k.entry (k.dirOf p) 0))
    (hpos : 0 < (k.proc p).sz) (hsz : (k.proc p).sz < KERNBASE) (hfree : k.freelist ≠ []) (data : FileData) :
    Vm.swapIn k p true data = .error (.panic "remap") := by
  obtain ⟨v, l, hl⟩ := List.exists_cons_of_ne_nil hfree
  obtain ⟨n, hn⟩ : ∃ n, ((k.proc p).sz - pgRoundUp 0 + PGSIZE - 1) / PGSIZE = n + 1 :=
    Nat.exists_eq_succ_of_ne_zero (by
      rw [show pgRoundUp 0 = 0 by decide]
      unfold PGSIZE
      omega)
  have hal : allocuvm k (k.proc p).pgdir 0 (k.proc p).sz = .error (.panic "remap") := by
    unfold allocuvm
    rw [if_neg (by omega), if_neg (by omega)]
    dsimp only
    rw [hn, show pgRoundUp 0 = 4096 * 0 by decide,
      allocLoop_page (d := (k.proc p).pgdir) h hl (by decide) (pde_of_entry hpr), if_pos hpr]
  unfold Vm.swapIn
  rw [if_neg (by decide), hal]
  rfl

/-! ### The state of the process -/

theorem sleep_swapOut (c : ℕ) (chan : Sched.Chan) (wait : Bool) (hon : s.swapFlag = true ∧ 3 < (s.proc p).pid) :
    (Sched.sleep s c p chan wait).cpu = s.cpu ∧
      ((Sched.sleep s c p chan wait).thr p).outs = ⟨s.calls, chan, wait⟩ :: (s.thr p).outs := by
  unfold Sched.sleep
  dsimp only
  split_ifs with hon'
  · exact ⟨rfl, by simp⟩
  · refine absurd ?_ hon'
    rw [Sched.Sys.setProc_proc, update_self]
    exact hon

theorem swapped_state {call : Sched.Call} {outs : List Sched.Call} (hp : p ≠ inswapper) :
    ((Sched.swapped s c p call outs).proc p).state =
      if (s.proc p).wokenUp = true then .runnableSuspended else .sleepingSuspended := by
  split_ifs with hw
  · rw [Sched.swapped_of_woken hp hw]
    simp [Sched.Sys.sched]
  · rw [Sched.swapped_of_not_woken hw]
    simp [Sched.Sys.sched]

theorem sleep_proc (c : ℕ) (chan : Sched.Chan) (wait : Bool) (hoff : ¬ (s.swapFlag = true ∧ 3 < (s.proc p).pid)) :
    (Sched.sleep s c p chan wait).proc =
      update s.proc p { s.proc p with chan := chan, state := .sleeping } := by
  unfold Sched.sleep
  dsimp only
  split_ifs with hon
  · rw [Sched.Sys.setProc_proc, update_self] at hon
    exact absurd hon hoff
  · rfl

theorem Machine.wakeup_sched (m : Machine) (chan : Sched.Chan) :
    (m.wakeup chan).sched = Sched.wakeup1 chan m.sched := by
  simp only [Machine.wakeup]

theorem Machine.wakeup_mem (m : Machine) (chan : Sched.Chan) : (m.wakeup chan).mem = m.mem := by
  simp only [Machine.wakeup]

theorem wakeup_sleeping (chan : Sched.Chan) (hsw : m.sched.SwapperIn) (hch : (m.sched.proc p).chan = chan)
    (hst : (m.sched.proc p).state = .sleeping) (hidle : (m.sched.proc p).swappingOut = false) :
    ((m.wakeup chan).sched.proc p).state = .runnable := by
  have hd : Sched.Dozing chan p (m.sched.proc p) :=
    ⟨hch, fun h => absurd h (by simp [hidle]), fun _ => .inl hst, fun _ => hidle⟩
  have hw := (Sched.touch_wakeup1 chan hsw).proc p
  have hr := (hd.wakeup1 hsw).inward (hw.swappingOut.trans hidle)
  rw [Machine.wakeup_sched]
  refine hr.resolve_right fun hrs => ?_
  obtain e | ⟨-, e⟩ | ⟨e, -⟩ | ⟨-, e⟩ := hw.state
  · rw [hrs, hst] at e
    cases e
  · rw [hrs] at e
    cases e
  · rw [hst] at e
    cases e
  · rw [hrs] at e
    cases e

/-! ### After a failure -/

theorem Handled.of_stay (hs : Sched.Inv m.sched) (hidle : (m.sched.proc p).swappingOut = false)
    (hoff : ¬ (m.sched.swapFlag = true ∧ 3 < (m.sched.proc p).pid)) :
    Handled m { m with sched := Sched.sleep m.sched c p chan wait } p chan := by
  have hproc := sleep_proc c chan wait hoff
  have hst : ((Sched.sleep m.sched c p chan wait).proc p).state = .sleeping := by rw [hproc, update_self]
  have hsw : (Sched.sleep m.sched c p chan wait).SwapperIn := by
    unfold Sched.Sys.SwapperIn
    rw [hproc]
    by_cases hp : inswapper = p
    · subst hp
      rw [update_self]
      exact ⟨by simp, by simp⟩
    · rw [update_of_ne hp]
      exact hs.swapperIn
  have hwake := wakeup_sleeping (m := { m with sched := Sched.sleep m.sched c p chan wait }) (p := p) chan hsw
    (by rw [hproc, update_self]) hst (by rw [hproc, update_self]; exact hidle)
  refine ⟨fun n _ => rfl, rfl, ⟨by rw [hst]; simp, by rw [hst]; simp⟩, hwake, fun opened data => ?_⟩
  rw [Machine.swapIn_skip (by rw [hwake]; simp)]
  simp

/-- After an attempt the process is suspended, whatever `swapOut` did. -/
theorem Slept.suspended (hs : Sched.Inv m.sched) (hon : m.sched.swapFlag = true ∧ 3 < (m.sched.proc p).pid)
    (h : Slept m c p chan wait opened m') :
    (m'.sched.proc p).state = .sleepingSuspended ∨ (m'.sched.proc p).state = .runnableSuspended := by
  have hp : p ≠ inswapper := by
    rintro rfl
    rw [hs.swapperFits.pid] at hon
    omega
  cases h with
  | stay hoff => exact absurd hon hoff
  | @swap s c' outs _ _ hrun hcpu houts hout =>
    show ((Sched.swapped s c' p _ outs).proc p).state = _ ∨ ((Sched.swapped s c' p _ outs).proc p).state = _
    rw [swapped_state hp]
    split_ifs
    · exact .inr rfl
    · exact .inl rfl

/-- With all pages there, an attempt that fails ends: memory is as before, and the process is suspended. -/
theorem Slept.of_fails (chan : Sched.Chan) (wait : Bool) (hon : m.sched.swapFlag = true ∧ 3 < (m.sched.proc p).pid) (hcpu : m.sched.cpu c = .run p)
    (hfull : NoHoles m.mem (m.mem.dirOf p) (m.mem.proc p).sz) (hf : SwapFails m.mem p opened) :
    ∃ m', Slept m c p chan wait opened m' ∧
      m'.sched = Sched.swapped (Sched.sleep m.sched c p chan wait) c p ⟨m.sched.calls, chan, wait⟩
        (m.sched.thr p).outs ∧
      m'.mem = (m.mem.setProc p fun q => { q with state := .sleepingSuspended }) := by
  obtain ⟨hcpu', houts⟩ := sleep_swapOut c chan wait hon
  obtain ⟨m', hout⟩ := Machine.swapOut_returns hfull hf
  refine ⟨_, .swap hon (.refl _) (by rw [hcpu', hcpu]) houts hout, rfl, ?_⟩
  rw [← Machine.swapOut_fails hf hout]

/-- The process that could not be swapped out is swapped in. -/
theorem Slept.remap {own : ℕ → Role} (hk : m'.mem = (m.mem.setProc p fun q => { q with state := .sleepingSuspended }))
    (h : Inv m.mem own) (hp : m.mem.live p) (hfull : NoHoles m.mem (m.mem.dirOf p) (m.mem.proc p).sz)
    (hpos : 0 < (m.mem.proc p).sz) (hsz : (m.mem.proc p).sz < KERNBASE) (hfree : m.mem.freelist ≠ [])
    (hst : (m'.sched.proc p).state = .runnableSuspended) (data : FileData) :
    m'.swapIn p true data = .error (.panic "remap") := by
  have hdir : m'.mem.dirOf p = m.mem.dirOf p := by rw [hk, Kernel.dirOf, setProc_self]
  have hself : (m'.mem.proc p).sz = (m.mem.proc p).sz := by rw [hk, setProc_self]
  have hent : m'.mem.entry = m.mem.entry := by rw [hk]; exact entry_congr rfl
  have htab : Tabled m'.mem (m'.mem.dirOf p) := by
    rw [hdir, hk]
    exact (h.wf.tabled (h.dir p hp)).edit rfl (h.wf.tabled (h.dir p hp)).free (h.wf.tabled (h.dir p hp)).user
  rw [← map_error_iff (f := Machine.mem), Machine.swapIn_mem hst]
  refine swapIn_remap htab ?_ ?_ ?_ ?_ data
  · rw [hdir, hent]
    exact hfull 0 hpos
  · rw [hself]
    exact hpos
  · rw [hself]
    exact hsz
  · rw [hk]
    exact hfree

/-- **Failed swap-out.**  If `swapOut` fails, the process keeps its pages, no file stays open, it is not
suspended, and swapping in does not panic, exactly if `swapOut` is not called: swapping is off, or the process
is one of the first three. -/
theorem handled_iff (hs : Sched.Reachable Always m.sched) (hm : m.sched.mode = .run)
    (hidle : (m.sched.proc p).swappingOut = false) :
    (SwapFails m.mem p opened → (∃ m', Slept m c p chan wait opened m') ∧
        ∀ m', Slept m c p chan wait opened m' → Handled m m' p chan) ↔
      ¬ SwapFails m.mem p opened ∨ m.sched.swapFlag = false ∨ (m.sched.proc p).pid ≤ 3 := by
  have hI := hs.inv hm
  constructor
  · intro h
    by_contra hnot
    push Not at hnot
    obtain ⟨hf, hflag, hpid⟩ := hnot
    obtain ⟨⟨m', hsl⟩, hall⟩ := h hf
    obtain ⟨h1, h2⟩ := (hall m' hsl).state
    exact (hsl.suspended hI ⟨Bool.eq_true_of_not_eq_false hflag, hpid⟩).elim h1 h2
  · rintro (hnf | hoff) hf
    · exact absurd hf hnf
    · have hoff' : ¬ (m.sched.swapFlag = true ∧ 3 < (m.sched.proc p).pid) := by
        rintro ⟨hflag, hpid⟩
        obtain hoff | hoff := hoff
        · rw [hflag] at hoff
          cases hoff
        · omega
      refine ⟨⟨_, .stay hoff'⟩, fun m' hsl => ?_⟩
      cases hsl with
      | stay => exact .of_stay hI hidle hoff'
      | swap hon => exact absurd hon hoff'

/-- Without swapping nothing happens: init sleeps. -/
theorem handled_boot : ∃ m : Machine, SwapFails m.mem initproc false ∧
    (∃ m', Slept m 0 initproc (.obj 7) false false m') ∧
      ∀ m', Slept m 0 initproc (.obj 7) false false m' → Handled m m' initproc (.obj 7) := by
  have hf : SwapFails boot initproc false := .inl rfl
  exact ⟨⟨Sched.boot, boot, 0, fun _ => false⟩, hf,
    (handled_iff (m := ⟨Sched.boot, boot, 0, fun _ => false⟩) (.refl _) rfl rfl).mpr (.inr (.inl rfl)) hf⟩

/-- Process 4 sleeps, and its swap file cannot be opened as `ftable` is full: it is suspended with its page still
there, and when the process is woken the inswapper panics. -/
theorem swap_failure_panics : (∀ path omode,
    (Fs.Names.fileopen path omode).Follows Fs.Names.fullTable (fun r _ => r = none) ()) ∧
    ∃ (m m' : Machine) (p : Slot), m.files = Fs.NFILE ∧ Sched.Reachable Always m.sched ∧ m.sched.mode = .run ∧
    (m.sched.proc p).swappingOut = false ∧ Reachable OwnOk m.mem ∧ (m.sched.proc p).pid = (m.mem.proc p).pid ∧ SwapFails m.mem p false ∧ Slept m 2 p (.obj 7) false false m' ∧
    (m'.sched.proc p).state = .sleepingSuspended ∧
    ((m'.wakeup (.obj 7)).sched.proc p).state = .runnableSuspended ∧
    ∀ data, (m'.wakeup (.obj 7)).swapIn p true data = .error (.panic "remap") := by
  let p : Slot := ⟨3, by decide⟩
  obtain ⟨k, hk, htest⟩ := reaches_of_run OwnOk [.fork initproc, .fork initproc]
    (fun k => decide ((k.proc p).pid = 4 ∧ (k.proc p).sz = 4096 ∧ k.live p ∧ k.freelist ≠ [] ∧
      Present (k.entry (k.dirOf p) 0))) (by decide +kernel)
  obtain ⟨hpid, hsz, hlive, hfree, hpr⟩ := of_decide_eq_true htest
  obtain ⟨s, hs, htest⟩ := reaches_of_exec Sched.step Always Sched.boot Sched.warmUp
    (fun s => decide (s.mode = .run ∧ (s.proc p).swappingOut = false ∧ (s.proc p).pid = 4 ∧ s.swapFlag = true ∧
      s.cpu 2 = .run p ∧
      ((Sched.swapped (Sched.sleep s 2 p (.obj 7) false) 2 p ⟨s.calls, .obj 7, false⟩ (s.thr p).outs).proc p).state =
        .sleepingSuspended ∧
      ((Sched.wakeup1 (.obj 7) (Sched.swapped (Sched.sleep s 2 p (.obj 7) false) 2 p ⟨s.calls, .obj 7, false⟩
        (s.thr p).outs)).proc p).state = .runnableSuspended)) (by decide +kernel)
  obtain ⟨hm, hidle, hpid', hflag, hcpu, hst, hwake⟩ := of_decide_eq_true htest
  let m : Machine := ⟨s, k, Fs.NFILE, fun _ => false⟩
  have hfull : NoHoles k (k.dirOf p) (k.proc p).sz := fun n hn => by
    obtain rfl : n = 0 := by omega
    exact hpr
  have hf : SwapFails k p false := .inl rfl
  obtain ⟨own, hI⟩ := Reachable.inv hk
  obtain ⟨m', hsl, hsched, hmem⟩ := Slept.of_fails (m := m) (.obj 7) false
    ⟨hflag, by rw [hpid']; decide⟩ hcpu hfull hf
  dsimp only [m] at hsched
  have hwake' : ((m'.wakeup (.obj 7)).sched.proc p).state = .runnableSuspended := by
    rw [Machine.wakeup_sched, hsched]
    exact hwake
  refine ⟨Fs.Names.fileopen_full, m, m', p, rfl, hs, hm, hidle, hk, hpid'.trans hpid.symm, hf, hsl, by rw [hsched]; exact hst, hwake',
    Slept.remap (m := m) ((m'.wakeup_mem _).trans hmem) hI hlive hfull ?_ ?_ hfree hwake'⟩
  · show 0 < (k.proc p).sz
    omega
  · show (k.proc p).sz < KERNBASE
    rw [hsz]
    decide

end

end Xv6.Vm
