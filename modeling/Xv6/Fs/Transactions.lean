import Mathlib.Algebra.Order.BigOperators.Group.Finset
import Mathlib.Algebra.Order.BigOperators.Group.List
import Xv6.Fs.Mkfs
import Xv6.Fs.Threads
import Xv6.Lib.Table

/-! # Who writes to the log

Every call of `log_write` should be made inside a transaction of its own process. Two places of the
code can write outside of one: `iput`, when it drops the last reference to an inode without links,
and `bmap` under `readi`, when it finds a hole. `Covered` asks of a step that neither happens. -/

namespace Xv6.Fs

open Prog Runs

variable {fs : List Frame}

namespace Machine

/-- The command finds nothing to write outside of a transaction. -/
def harmless (m : Machine) : Cmd → Bool
  | .iputStart i => !decide (m.kern.lastRef i)
  | .addr i j => (m.kern.inode i).din.addrs j ≠ 0
  | .bword s j => word (m.kern.buf s) (4 * j) ≠ 0
  | _ => true

/-- A process that has not begun a transaction does not drop the last reference to an inode without
links, and finds no hole in a file. -/
def covered (m : Machine) : Event → Bool
  | .run p =>
    match m.stack p with
    | ⟨.op c _, g⟩ :: _ => g.trans || m.harmless c
    | _ => true
  | _ => true

/-- The condition on steps. -/
def Covered (m : Machine) (e : Event) : Prop := m.covered e = true
deriving Decidable

/-- The number of frames that own a transaction. -/
def owned (l : List Frame) : ℕ := (l.map (·.held.trans.toNat)).sum

@[simp] theorem owned_nil : owned [] = 0 := rfl

@[simp] theorem owned_cons (f : Frame) (l : List Frame) :
    owned (f :: l) = f.held.trans.toNat + owned l := rfl

/-- The number of open transactions that processes own. -/
def owners (m : Machine) : ℕ := ∑ p, owned (m.stack p)

/-- Nobody is in a system call. -/
structure Quiet (m : Machine) : Prop where
  idle : ∀ p, m.stack p = []
  free : m.kern.log.busy = false

/-- Everything that is left to do follows the rules, and `log.busy` says whether a process owns a
transaction. -/
structure Orderly (m : Machine) : Prop where
  follows : ∀ p, ∀ f ∈ m.stack p, f.left.Follows locks (fun _ g => g = Held.nothing) f.held
  owners : m.owners = m.kern.log.busy.toNat

variable {m m' : Machine} {e : Event} {p : Slot} {c : Cmd} {r : c.Resp}

theorem Quiet.orderly (h : m.Quiet) : m.Orderly where
  follows p f hf := by
    rw [h.idle p] at hf
    cases hf
  owners := by simp [Machine.owners, h.idle, h.free]

/-! ### Calls follow the rules -/

theorem prog_follows (c : Call) :
    c.prog.Follows locks (fun _ g => g = Held.nothing) Held.nothing := by
  have call : ∀ {α : Type} {q : Fsys α}, Names.Stays q Held.nothing →
      (q.kern >>= fun _ => pure ()).Follows locks (fun _ g => g = Held.nothing) Held.nothing :=
    fun hq => (kern_follows hq).seq fun _ _ hg => hg
  cases c with
  | sysOpen path omode => exact call (Names.sysOpen_stays path omode)
  | sysClose fd => exact call (Names.sysClose_stays fd)
  | sysDup fd => exact call (Names.sysDup_stays fd)
  | sysRead fd n => exact call (Names.sysRead_stays fd n)
  | sysWrite fd l => exact call (Names.sysWrite_stays fd l)
  | sysLink old new => exact call (Names.sysLink_stays old new)
  | unlink path => exact call (Names.unlink_stays path)
  | sysMkdir path => exact call (Names.sysMkdir_stays path)
  | sysMknod path major minor => exact call (Names.sysMknod_stays path major minor)
  | sysChdir path => exact call (Names.sysChdir_stays path)
  | exec path reads => exact call (Names.exec_stays path reads)
  | fork q => exact kern_follows (Names.fork_stays q)
  | exit => exact kern_follows Names.exit_stays
  | sleep => exact ⟨rfl, fun _ _ => rfl⟩

theorem outFrame_follows (name : List UInt8) (pages : List (List UInt8)) :
    (outFrame name pages).left.Follows locks (fun _ g => g = Held.nothing) (outFrame name pages).held :=
  kern_follows (Names.swapOut_stays name pages)

/-! ### What a command does to the log and to the locks -/

theorem exec_busy {k k' : State} (h : exec p c k = (.ok r, k')) :
    k'.log.busy = match c with
      | .logTake => true
      | .logDrop => false
      | _ => k.log.busy := by
  cases c <;> simp only [exec] at h
  case iputStart i =>
    split at h <;> cases h <;> rfl
  case tab c =>
    obtain ⟨-, rfl⟩ := Prod.mk.inj h
    rfl
  case panic msg => cases (Prod.mk.inj h).1
  all_goals
    cases h
    rfl

theorem next_trans (c : Cmd) (g : Held) (r : c.Resp) :
    (g.next c r).trans = match c with
      | .logTake => true
      | .logDrop => false
      | _ => g.trans := by
  cases c
  case iputStart i =>
    simp only [Held.next]
    split <;> rfl
  all_goals rfl

theorem owners_setStack (l : List Frame) :
    (m.setStack p l).owners + owned (m.stack p) = m.owners + owned l :=
  Table.sum_update owned m.stack p l

theorem owned_pos (h : m.owns p) : 1 ≤ owned (m.stack p) := by
  obtain ⟨f, hf, ht⟩ := h
  have hle : f.held.trans.toNat ≤ owned (m.stack p) :=
    List.le_sum_of_mem (List.mem_map.mpr ⟨f, hf, rfl⟩)
  rwa [ht] at hle

theorem owned_le_owners (m : Machine) (p : Slot) : owned (m.stack p) ≤ m.owners :=
  Finset.single_le_sum (fun q _ => Nat.zero_le (owned (m.stack q))) (Finset.mem_univ p)

theorem Orderly.busy_of_owns (h : m.Orderly) (hp : m.owns p) : m.kern.log.busy = true := by
  have hone := owned_pos hp
  have hle := owned_le_owners m p
  rw [h.owners] at hle
  cases hb : m.kern.log.busy with
  | true => rfl
  | false =>
    rw [hb, Bool.toNat_false] at hle
    omega

/-- Two processes do not own a transaction at the same time. -/
theorem Orderly.owner_unique (h : m.Orderly) {q : Slot} (hp : m.owns p) (hq : m.owns q) : p = q := by
  by_contra hne
  have hsum := owners_setStack (m := m) (p := p) []
  have hle := owned_le_owners (m.setStack p []) q
  rw [setStack_stack, Function.update_of_ne (Ne.symm hne)] at hle
  have h1 := owned_pos hp
  have h2 := owned_pos hq
  have hbusy : m.kern.log.busy.toNat ≤ 1 := Bool.toNat_le _
  rw [h.owners, owned_nil] at hsum
  omega

/-- The answer to a command that runs is one that the rules admit. -/
theorem Orderly.can_of_exec (h : m.Orderly) {k : c.Resp → Kern Unit} {g : Held}
    {s : State} (hp : m.stack p = ⟨.op c k, g⟩ :: fs) (hc : m.stops p c = false)
    (hx : exec p c m.kern = (.ok r, s)) (hmay : Held.may c g) (he : Covered m (.run p)) :
    Held.can c g r := by
  have hcov : g.trans = true ∨ m.harmless c = true := by
    simpa [Covered, covered, hp] using he
  have hmem : (⟨.op c k, g⟩ : Frame) ∈ m.stack p := hp ▸ List.mem_cons_self
  cases c <;> simp only [Held.can]
  case bread b =>
    intro hb
    simp only [stops, sleeps, decide_eq_false_iff_not] at hc
    exact hc ⟨p, _, hmem, hb⟩
  case itake i =>
    intro hi
    simp only [stops, sleeps, decide_eq_false_iff_not] at hc
    exact hc ⟨p, _, hmem, hi⟩
  case logEntry =>
    simp only [exec, Prod.mk.injEq, Except.ok.injEq] at hx
    rw [← hx.1]
    exact h.busy_of_owns ⟨_, hmem, hmay⟩
  case bword b j =>
    rintro rfl
    obtain hr : word (m.kern.buf b) (4 * j) = 0 := by
      simp only [exec, Prod.mk.injEq, Except.ok.injEq] at hx
      exact hx.1
    simpa [harmless, hr] using hcov
  case addr i j =>
    rintro rfl
    obtain hr : (m.kern.inode i).din.addrs j = 0 := by
      simp only [exec, Prod.mk.injEq, Except.ok.injEq] at hx
      exact hx.1
    simpa [harmless, hr] using hcov
  case iputStart i =>
    rintro rfl
    have hlast : m.kern.lastRef i := by
      simp only [exec] at hx
      split at hx
      · assumption
      · cases (Prod.mk.inj hx).1
    refine ⟨by simpa [harmless, hlast] using hcov, fun hi => ?_⟩
    simp only [stops, decide_eq_false_iff_not] at hc
    exact hc ⟨hlast, p, _, hmem, hi⟩

/-! ### The invariant -/

/-- Replacing the stack of one process by frames that follow the rules. -/
theorem Orderly.setStack (h : m.Orderly) {l : List Frame}
    (hl : ∀ f ∈ l, f.left.Follows locks (fun _ g => g = Held.nothing) f.held) (q : Slot) :
    ∀ f ∈ (m.setStack p l).stack q, f.left.Follows locks (fun _ g => g = Held.nothing) f.held := by
  intro f hf
  rcases eq_or_ne q p with rfl | hq
  · rw [setStack_stack, Function.update_self] at hf
    exact hl f hf
  · rw [setStack_stack, Function.update_of_ne hq] at hf
    exact h.follows q f hf

/-- A step that leaves the log and the number of owned transactions alone. -/
theorem Orderly.setStack_same (h : m.Orderly) {l : List Frame} (ho : owned l = owned (m.stack p))
    (hl : ∀ f ∈ l, f.left.Follows locks (fun _ g => g = Held.nothing) f.held) :
    (m.setStack p l).Orderly := by
  refine ⟨h.setStack hl, ?_⟩
  have hsum := owners_setStack (m := m) (p := p) l
  rw [setStack_kern, ← h.owners]
  omega

/-- The number of owned transactions, when the command of the top frame has run. -/
theorem Orderly.owners_cmd (h : m.Orderly) {k : c.Resp → Kern Unit} {g : Held}
    {s : State} (hp : m.stack p = ⟨.op c k, g⟩ :: fs)
    (hc : m.stops p c = false) (hx : exec p c m.kern = (.ok r, s)) (hmay : Held.may c g) :
    (m.setStack p (⟨k r, g.next c r⟩ :: fs)).owners = s.log.busy.toNat := by
  have hsum := owners_setStack (m := m) (p := p) (⟨k r, g.next c r⟩ :: fs)
  have hbusy := exec_busy hx
  have htrans := next_trans c g r
  have hle : m.kern.log.busy.toNat ≤ 1 := Bool.toNat_le _
  rw [h.owners, hp, owned_cons, owned_cons] at hsum
  cases c
  case logTake =>
    have hg : g.trans = false := congrArg Held.trans hmay
    have hfree : m.kern.log.busy = false := hc
    simp only [hbusy, htrans, hfree, hg, Bool.toNat_true, Bool.toNat_false] at hsum ⊢
    omega
  case logDrop =>
    have hg : g.trans = true := hmay.1
    simp only [hbusy, htrans, hg, Bool.toNat_true, Bool.toNat_false] at hsum ⊢
    omega
  all_goals
    simp only [hbusy, htrans] at hsum ⊢
    omega

theorem Orderly.step (h : m.Orderly) (he : Covered m e) (hs : m.step e = some m') : m'.Orderly := by
  cases step_move hs with
  | @call p c hp =>
    apply h.setStack_same
    · simp [hp, Held.nothing]
    · simpa using prog_follows c
  | @ret p g fs hp =>
    have hfol := h.follows p
    simp only [hp, List.mem_cons, forall_eq_or_imp, follows_ret] at hfol
    apply h.setStack_same
    · simp [hp, hfol.1, Held.nothing]
    · exact hfol.2
  | @cmd p c k g fs r s hp hc hx =>
    have hfol := h.follows p
    simp only [hp, List.mem_cons, forall_eq_or_imp] at hfol
    obtain ⟨hmay, hnext⟩ := hfol.1
    have hfs : ∀ f ∈ (⟨k r, g.next c r⟩ : Frame) :: fs,
        f.left.Follows locks (fun _ g => g = Held.nothing) f.held := by
      simp only [List.mem_cons, forall_eq_or_imp]
      exact ⟨hnext r (h.can_of_exec hp hc hx hmay he), hfol.2⟩
    exact ⟨h.setStack hfs, h.owners_cmd hp hc hx hmay⟩
  | @doze p name pages k g fs hp =>
    have hfol := h.follows p
    simp only [hp, List.mem_cons, forall_eq_or_imp] at hfol
    apply h.setStack_same
    · simp [hp, outFrame, Held.nothing]
    · simp only [List.mem_cons, forall_eq_or_imp]
      exact ⟨outFrame_follows name pages, hfol.1.2 () trivial, hfol.2⟩
  | @wait p name pages f fs hp =>
    have hfol := h.follows p
    simp only [hp, List.mem_cons, forall_eq_or_imp] at hfol
    apply h.setStack_same
    · simp [hp, outFrame, Held.nothing]
    · simp only [List.mem_cons, forall_eq_or_imp]
      exact ⟨outFrame_follows name pages, hfol.1, hfol.2⟩
  | setSwap => exact ⟨h.follows, h.owners⟩
  | setPid => exact ⟨h.follows, h.owners⟩

theorem Quiet.orderly_of_reaches (h : m.Quiet) (hr : Reaches Machine.step Covered m m') :
    m'.Orderly :=
  hr.invariant (fun _ _ _ ho he hs => ho.step he hs) h.orderly

/-- What process `p` does next. -/
def doesNext (m : Machine) (p : Slot) (c : Cmd) : Prop :=
  ∃ k g fs, m.stack p = ⟨.op c k, g⟩ :: fs

/-- A process only does what the rules for its locks allow. -/
theorem Orderly.may_next (h : m.Orderly) (hp : m.doesNext p c) :
    ∃ k g fs, m.stack p = ⟨.op c k, g⟩ :: fs ∧ Held.may c g := by
  obtain ⟨k, g, fs, hp⟩ := hp
  exact ⟨k, g, fs, hp, (h.follows p ⟨.op c k, g⟩ (hp ▸ List.mem_cons_self)).1⟩

end Machine

/-- **Writes only inside one's own transaction.**  In every run whose steps do not free an inode or
fill a hole outside of a transaction, a process that calls `log_write` owns the open transaction, no
other process does, and `log.busy` is set; the panic of `log_write` for the other case is not
reached. -/
theorem log_write_in_trans {m0 m : Machine} (h0 : m0.Quiet)
    (hr : Reaches Machine.step Machine.Covered m0 m) (p : Slot) :
    (m.doesNext p .logEntry →
      m.owns p ∧ (∀ q, m.owns q → q = p) ∧ m.kern.log.busy = true) ∧
    ¬ m.doesNext p (.panic "write outside of trans") := by
  have ho := h0.orderly_of_reaches hr
  constructor
  · intro hp
    obtain ⟨k, g, fs, hp, hmay⟩ := ho.may_next hp
    have howns : m.owns p := ⟨⟨.op .logEntry k, g⟩, hp ▸ List.mem_cons_self, hmay⟩
    exact ⟨howns, fun q hq => ho.owner_unique hq howns, ho.busy_of_owns howns⟩
  · intro hp
    obtain ⟨k, g, fs, hp, hmay⟩ := ho.may_next hp
    exact hmay rfl

/-- The machine when it has started from an image; process `p` has the pid `p + 1`. -/
def Machine.start (d : ℕ → Block) (swapFlag : Bool) : Machine :=
  ⟨boot d, fun _ => [], fun p => p + 1, swapFlag⟩

theorem Machine.start_quiet (d : ℕ → Block) (on : Bool) : (Machine.start d on).Quiet :=
  ⟨fun _ => rfl, rfl⟩

/-- The frame is at the beginning of `log_write`. -/
def Frame.atEntry (f : Frame) : Bool :=
  match f.left with
  | .op .logEntry _ => true
  | _ => false

theorem Machine.doesNext_of_atEntry {m : Machine} {p : Slot} {f : Frame}
    (hs : m.stack p = f :: fs) (hf : f.atEntry = true) : m.doesNext p .logEntry := by
  obtain ⟨l, g⟩ := f
  unfold Frame.atEntry at hf
  split at hf
  · rename_i k hl
    obtain rfl : l = .op .logEntry k := hl
    exact ⟨k, g, fs, hs⟩
  · cases hf

/-- `mkdir` writes the new inode in its transaction. -/
theorem log_write_in_trans_mkdir : ∃ m, Reaches Machine.step Machine.Covered
      (Machine.start Mkfs.plain false) m ∧ m.doesNext initproc .logEntry ∧ m.owns initproc ∧
      m.kern.log.busy = true := by
  obtain ⟨m, hr, hm⟩ := reaches_of_exec Machine.step Machine.Covered (Machine.start Mkfs.plain false)
    (.call initproc (.sysMkdir [97]) :: List.replicate 149 (.run initproc))
    (fun m => (m.stack initproc).head?.any Frame.atEntry) (by decide +kernel)
  cases hs : m.stack initproc with
  | nil => simp [hs] at hm
  | cons f fs =>
    have hnext := Machine.doesNext_of_atEntry hs (by simpa [hs] using hm)
    obtain ⟨howns, -, hbusy⟩ :=
      (log_write_in_trans (Machine.start_quiet _ _) hr initproc).1 hnext
    exact ⟨m, hr, hnext, howns, hbusy⟩

/-- A process in the directory `/a` removes it and goes to `/`: `chdir` drops the last reference to
the directory, and `iput` frees it outside of a transaction. -/
theorem chdir_writes_outside : ∃ m, Reaches Machine.step Always (Machine.start Mkfs.plain false) m ∧
    m.doesNext initproc .logEntry ∧ ¬ m.owns initproc ∧ m.kern.log.busy = false := by
  have hrun : (soloCalls initproc (.sysChdir [47]) 13 [(.sysMkdir [97], 458), (.sysChdir [97], 33),
      (.unlink [47, 97], 96)] (boot Mkfs.plain)).map
        (fun r => r.1.atEntry && !r.1.held.trans && !r.2.log.busy) = some true := by decide +kernel
  obtain ⟨⟨f, k⟩, hrun, hf⟩ := Option.map_eq_some_iff.mp hrun
  simp only [Bool.and_eq_true, Bool.not_eq_true'] at hf
  have hstack : ((Machine.start Mkfs.plain false).alone initproc f k).stack initproc = [f] := by
    simp [Machine.alone]
  refine ⟨(Machine.start Mkfs.plain false).alone initproc f k,
    Machine.soloCalls_reaches (m := Machine.start Mkfs.plain false) ?_ hrun,
    Machine.doesNext_of_atEntry hstack hf.1.1, ?_, hf.2⟩
  · rintro c k' (rfl | ⟨n, hc⟩)
    · rfl
    · simp only [List.mem_cons, Prod.mk.injEq, List.not_mem_nil, or_false] at hc
      rcases hc with ⟨rfl, -⟩ | ⟨rfl, -⟩ | ⟨rfl, -⟩ <;> rfl
  · rintro ⟨f', hf', ht⟩
    rw [hstack, List.mem_singleton] at hf'
    simp [hf', hf.1.2] at ht

end Xv6.Fs
