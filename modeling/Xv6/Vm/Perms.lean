import Xv6.Vm.Swap
import Xv6.Vm.Shmat
import Xv6.Vm.Tables

/-! # Protection of pages after `fork` and after swapping

`exec` takes `PTE_U` from the page below the stack, and `shmat` maps the pages of a segment without `PTE_W`
if it is told to. `copyuvm`, for the child of a `fork`, and `allocuvm`, when a process is swapped in, make
all entries anew, with `PTE_W` and `PTE_U`. So the bits survive for the processes that have no protected
page (`perms_kept_iff`). -/

namespace Xv6.Vm

open Runs Fallible Function Option

/-- The entries have the same `PTE_U` and `PTE_W`. -/
def SamePerms (w w' : ℕ) : Prop := w &&& PTE_U = w' &&& PTE_U ∧ w &&& PTE_W = w' &&& PTE_W
deriving Decidable

/-- User code may read and write. -/
def OpenEntry (w : ℕ) : Prop := w &&& PTE_U ≠ 0 ∧ w &&& PTE_W ≠ 0
deriving Decidable

/-- The address space of the process in slot `p` has been built anew: for its child in slot `np`, or for
itself, when it has been swapped out and swapped in. Until then others may have used memory in any way
that leaves its page table alone. -/
inductive Rebuilt (k : Kernel) (p : Slot) : Kernel → Slot → Prop
  | fork {r : ℤ} {k' : Kernel} {np : Slot} (hslot : unusedSlot k = some np)
      (hr : fork k p = .ok (r, k')) (hok : r ≠ -1) : Rebuilt k p k' np
  | swap {writes : ℕ → Bool} {data : FileData} {k1 k2 k' : Kernel} (hout : swapOut k p true writes = .ok k1)
      (hall : WritesAll k p writes)
      (hsame : SameSpace p (k1.setProc p fun q => { q with state := .sleepingSuspended }) k2)
      (htab : Tabled k2 (k2.dirOf p)) (hin : swapIn k2 p true data = .ok k')
      (hrun : (k'.proc p).state = .running) : Rebuilt k p k' p

section
variable {k k' : Kernel} {own : ℕ → Role} {p q : Slot} {w w' v m : ℕ}

theorem and_two_pow_eq {i : ℕ} (h : w &&& 2 ^ i ≠ 0) : w &&& 2 ^ i = 2 ^ i := by
  rw [Nat.and_two_pow] at h ⊢
  cases htest : w.testBit i with
  | false =>
    rw [htest] at h
    exact absurd (Nat.zero_mul _) h
  | true => exact Nat.one_mul _

/-- An open entry has the bits of the open entries only. -/
theorem samePerms_iff (h : OpenEntry w) : SamePerms w w' ↔ OpenEntry w' := by
  have hu : w &&& PTE_U = PTE_U := and_two_pow_eq (i := 2) h.1
  have hw : w &&& PTE_W = PTE_W := and_two_pow_eq (i := 1) h.2
  unfold SamePerms
  rw [hu, hw]
  constructor
  · rintro ⟨h1, h2⟩
    exact ⟨by rw [← h1]; decide, by rw [← h2]; decide⟩
  · rintro ⟨h1, h2⟩
    exact ⟨(and_two_pow_eq (i := 2) h1).symm, (and_two_pow_eq (i := 1) h2).symm⟩

theorem Page.openEntry (h : Page v) : OpenEntry (v2p v ||| (PTE_W ||| PTE_U ||| PTE_P)) := by
  have ha := h.v2p_aligned
  have e7 : PTE_W ||| PTE_U ||| PTE_P = 7 := by decide
  rw [h.or_flags (by decide), e7]
  refine ⟨(user_iff _).mpr ?_, (write_iff _).mpr ?_⟩
  · omega
  · omega

theorem fork_openEntry (h : Inv k own) (hp : k.live p) {r : ℤ} {np : Slot} (hslot : unusedSlot k = some np)
    (hr : fork k p = .ok (r, k')) (hok : r ≠ -1) (hm : 4096 * m < (k.proc p).sz) :
    OpenEntry (k'.entry (k'.dirOf np) m) := by
  have hpn : p ≠ np := by
    rintro rfl
    have hun : (k.proc p).state = .unused := by
      simpa using (List.find?_eq_some_iff_append.mp hslot).1
    exact hp hun
  unfold fork at hr
  rw [hslot] at hr
  dsimp only at hr
  set k0 : Kernel := { k.setProc np fun q => { q with state := .embryo, pid := k.nextpid } with
    nextpid := k.nextpid + 1 } with hk0
  cases hl : k0.freelist with
  | nil =>
    rw [kalloc_nil hl] at hr
    exact absurd (pair_ok hr).1.symm hok
  | cons ks l =>
    rw [kalloc_cons hl] at hr
    obtain ⟨⟨d, k2⟩, hcopy, hr⟩ := bind_ok hr
    obtain ⟨-, hw, -⟩ := h.wf.takeStack (v := ks) (l := l) hl np
    set k1 := ({ k0 with freelist := l } : Kernel).setProc np fun q => { q with kstack := ks } with hk1
    have hw1 : Wf k1 (update own ks (.kstack np)) := hw.congr rfl ⟨rfl, rfl⟩ fun _ _ => rfl
    have hproc : k1.proc p = k.proc p := by
      rw [hk1, Kernel.setProc_proc, update_of_ne hpn]
      exact update_of_ne hpn _ _
    rw [hproc] at hcopy
    cases d with
    | none =>
      obtain ⟨k3, -, hr⟩ := bind_ok hr
      exact absurd (pair_ok hr).1.symm hok
    | some d =>
      obtain ⟨-, rfl⟩ := pair_ok hr
      obtain ⟨v, hpage, hent⟩ := copyuvm_filled hw1 (h.size p hp) hcopy hm
      have hdir : (k2.setProc np fun q =>
          { q with pgdir := d, sz := (k2.proc p).sz, parent := some p, state := .running }).dirOf np = d := by
        rw [Kernel.dirOf, setProc_self]
      rw [hdir, show (k2.setProc np _).entry = k2.entry from entry_congr rfl, hent]
      exact hpage.openEntry

/-- The process itself, after it has been swapped out and in. -/
theorem swap_openEntry (h : Inv k own) (hp : k.live p) {writes : ℕ → Bool} {data : FileData} {k1 k2 : Kernel}
    (hout : swapOut k p true writes = .ok k1) (hall : WritesAll k p writes)
    (hsame : SameSpace p (k1.setProc p fun q => { q with state := .sleepingSuspended }) k2)
    (htab : Tabled k2 (k2.dirOf p)) (hin : swapIn k2 p true data = .ok k') (hrun : (k'.proc p).state = .running)
    (hm : 4096 * m < (k.proc p).sz) : OpenEntry (k'.entry (k'.dirOf p) m) := by
  obtain ⟨hfull, he⟩ := swapOut_emptied (h.wf.tabled (h.dir p hp)) (h.size p hp) hall hout
  have hmo := swapOut_memOnly.ok hout
  have hself := setProc_self k1 p fun q => { q with state := .sleepingSuspended }
  have hsz : (k2.proc p).sz = (k.proc p).sz := by rw [hsame.sz, hself, hmo.proc]
  have hdir : k2.dirOf p = k.dirOf p := by rw [hsame.pgdir, Kernel.dirOf, hself, hmo.proc]
  have hst : (k2.proc p).state = .sleepingSuspended := by rw [hsame.state, hself]
  have hmem : k2.mem (k.dirOf p) = k.mem (k.dirOf p) := by
    have hpde := hsame.pde (by rw [Kernel.live, hself]; simp)
    rw [Kernel.dirOf, hself, hmo.proc] at hpde
    exact hpde.trans he.dir
  obtain ⟨k3, hfill, hdir', hent⟩ := swapIn_refilled htab (by rw [hsz]; exact h.size p hp)
    (fun m hm => by
      rw [hsz] at hm
      rw [hdir, pde_congr hmem]
      exact pde_of_entry (hfull m hm)) (by rw [hst]; simp) hin hrun
  have hlt : m < k2.pagesOf p := lt_pagesOf.mpr (by rwa [hsz])
  obtain ⟨v, hv, hmap⟩ := hfill.mapped m hlt
  rw [Nat.zero_add] at hmap
  rw [hdir', hent, hmap]
  exact hv.openEntry

/-- **Protection.**  In a state in which every page has one use, the entries that `fork` makes for the child,
and those that a process has after it has been swapped out and in, have the same `PTE_U` and `PTE_W` as the old
ones exactly if all pages of the process are open to user code. -/
theorem perms_kept_iff (h : Inv k own) (hp : k.live p) (hr : Rebuilt k p k' q) :
    (∀ m, 4096 * m < (k.proc p).sz → SamePerms (k'.entry (k'.dirOf q) m) (k.entry (k.dirOf p) m)) ↔
      ∀ m, 4096 * m < (k.proc p).sz → OpenEntry (k.entry (k.dirOf p) m) := by
  have hopen : ∀ m, 4096 * m < (k.proc p).sz → OpenEntry (k'.entry (k'.dirOf q) m) := by
    intro m hm
    cases hr with
    | fork hslot hr hok => exact fork_openEntry h hp hslot hr hok hm
    | swap hout hall hsame htab hin hrun => exact swap_openEntry h hp hout hall hsame htab hin hrun hm
  exact forall₂_congr fun m hm => samePerms_iff (hopen m hm)

theorem Rebuilt.of_forkRun {np : Slot} (hslot : unusedSlot k = some np) (hr : forkRun k p = some k') :
    Rebuilt k p k' np :=
  .fork hslot (fork_of_forkRun hr) (by omega)

/-- The first child of init has the one page that init has. -/
theorem perms_kept_first : ∃ k', Rebuilt boot initproc k' childproc ∧
    ∀ m, 4096 * m < 4096 → SamePerms (k'.entry (k'.dirOf childproc) m) (boot.entry (boot.dirOf initproc) m) := by
  have htest : unusedSlot boot = some childproc ∧ (forkRun boot initproc).isSome = true ∧
      OpenEntry (boot.entry (boot.dirOf initproc) 0) := by decide +kernel
  obtain ⟨hslot, hfork, hopen⟩ := htest
  obtain ⟨k', hr⟩ := isSome_iff_exists.mp hfork
  obtain ⟨own, h⟩ := Reachable.inv (Reaches.refl boot)
  have hrb : Rebuilt boot initproc k' childproc := .of_forkRun hslot hr
  refine ⟨k', hrb, (perms_kept_iff h (by decide) hrb).mpr fun m hm => ?_⟩
  obtain rfl : m = 0 := by
    have hsz : (boot.proc initproc).sz = 4096 := rfl
    omega
  exact hopen

/-- Init has attached a segment to read only; its child may write to the page. -/
theorem fork_opens_page : ∃ k k', Reachable OwnOk k ∧ Rebuilt k initproc k' childproc ∧
    ¬ ∀ m, 4096 * m < (k.proc initproc).sz →
      SamePerms (k'.entry (k'.dirOf childproc) m) (k.entry (k.dirOf initproc) m) := by
  obtain ⟨k, hk, htest⟩ := reaches_of_run OwnOk
    [.shmget initproc 7 4096 CREAT 0, .shmat initproc (toInt (top 134)) SHM_RDONLY]
    (fun k => decide (unusedSlot k = some childproc ∧ 4096 * 1 < (k.proc initproc).sz ∧
      (forkRun k initproc).map (fun k' => decide (¬ SamePerms (k'.entry (k'.dirOf childproc) 1)
        (k.entry (k.dirOf initproc) 1))) = some true)) (by decide +kernel)
  obtain ⟨hslot, hsz, htest⟩ := of_decide_eq_true htest
  obtain ⟨k', hr, hdiff⟩ := map_eq_some_iff.mp htest
  exact ⟨k, k', hk, .of_forkRun hslot hr, fun hall => of_decide_eq_true hdiff (hall 1 hsz)⟩

end

end Xv6.Vm
