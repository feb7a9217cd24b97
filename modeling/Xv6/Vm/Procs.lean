import Xv6.Vm.Exec
import Xv6.Vm.Share

/-! # Processes and their address spaces

`Inv k own` is the invariant of the system: the roles agree with memory (`Wf`), every process in
use has a directory and a kernel stack of its own, and there are no other directories. A call
changes the address space of one process at most; `Turn p` says this for the process in slot `p`,
together with the invariant.

The rules below reduce the invariant after a call to what the call has done to one directory
(`Inv.edits`), to a new one (`Inv.enter`), or to none (`Inv.spared`). -/

namespace Xv6.Vm

open Fallible Function

/-- The slot is in use. -/
def Kernel.live (k : Kernel) (p : Slot) : Prop := (k.proc p).state ≠ .unused
deriving Decidable

/-- The directory of the process in slot `p`. -/
abbrev Kernel.dirOf (k : Kernel) (p : Slot) : ℕ := (k.proc p).pgdir

structure Inv (k : Kernel) (own : ℕ → Role) : Prop where
  wf : Wf k own
  dir : ∀ p, k.live p → own (k.dirOf p) = .dir
  stack : ∀ p, k.live p → own (k.proc p).kstack = .kstack p
  inj : ∀ p q, k.live p → k.live q → k.dirOf p = k.dirOf q → p = q
  size : ∀ p, k.live p → (k.proc p).sz ≤ KERNBASE
  owner : ∀ d, own d = .dir → ∃ p, k.live p ∧ k.dirOf p = d

/-- What the memory code knows of a process is as it was. -/
structure SameProc (q : Slot) (k k' : Kernel) : Prop where
  state : (k'.proc q).state = (k.proc q).state
  pgdir : k'.dirOf q = k.dirOf q
  kstack : (k'.proc q).kstack = (k.proc q).kstack
  sz : (k'.proc q).sz = (k.proc q).sz

/-- The process and its address space are as they were. -/
structure SameSpace (q : Slot) (k k' : Kernel) : Prop extends SameProc q k k' where
  entry : k.live q → ∀ n < allPages, k'.entry (k.dirOf q) n = k.entry (k.dirOf q) n
  pde : k.live q → k'.mem (k.dirOf q) = k.mem (k.dirOf q)

/-- A call that concerns the address space of the process in slot `p` only. -/
structure Turn (p : Slot) (k : Kernel) (own : ℕ → Role) (k' : Kernel) (own' : ℕ → Role) : Prop where
  inv : Inv k' own'
  apart : ∀ q ≠ p, SameSpace q k k'
  seg : ∀ v key i, own v = .seg key i → own' v = .seg key i

section
variable {k k' k1 : Kernel} {own own' : ℕ → Role} {p q : Slot} {d : ℕ}

theorem SameProc.of_eq (h : k'.proc q = k.proc q) : SameProc q k k' :=
  ⟨congrArg Proc.state h, congrArg Proc.pgdir h, congrArg Proc.kstack h, congrArg Proc.sz h⟩

theorem SameProc.live (h : SameProc q k k') : k'.live q ↔ k.live q := by
  rw [Kernel.live, Kernel.live, h.state]

theorem SameProc.trans_eq (h : SameProc q k k1) (e : k'.proc q = k1.proc q) : SameProc q k k' :=
  ⟨(congrArg Proc.state e).trans h.state, (congrArg Proc.pgdir e).trans h.pgdir,
    (congrArg Proc.kstack e).trans h.kstack, (congrArg Proc.sz e).trans h.sz⟩

variable {f : Proc → Proc}

theorem SameProc.setProc (h : SameProc q k k') (hne : q ≠ p) :
    SameProc q k (k'.setProc p f) := h.trans_eq (update_of_ne hne _ _)

theorem Turn.refl (h : Inv k own) (p : Slot) : Turn p k own k own :=
  ⟨h, fun _ _ => ⟨.of_eq rfl, fun _ _ _ => rfl, fun _ => rfl⟩, fun _ _ _ e => e⟩

theorem setProc_self (k : Kernel) (p : Slot) (f : Proc → Proc) :
    (k.setProc p f).proc p = f (k.proc p) := update_self _ _ _

theorem setProc_dead (h : (f (k.proc p)).state = .unused) : ¬ (k.setProc p f).live p := by
  rw [Kernel.live, setProc_self]
  exact fun e => e h

/-- A write to the process table that leaves the process as it is. -/
theorem setProc_eq (h : f (k.proc p) = k.proc p) : k.setProc p f = k := by
  unfold Kernel.setProc
  rw [h, update_eq_self]

/-! ### The invariant after a call -/

/-- Roles of directories and stacks that a local change keeps. -/
theorem Inv.keep (h : Inv k own) (hl : Local d k own k1 own') (hq : k.live q)
    (hd : k.dirOf q ≠ d) (hs : (k.proc q).kstack ≠ d) :
    own' (k.dirOf q) = .dir ∧ own' (k.proc q).kstack = .kstack q := by
  have h1 := h.dir q hq
  have h2 := h.stack q hq
  rw [hl.role _ hd (by rw [h1]; trivial), hl.role _ hs (by rw [h2]; trivial)]
  exact ⟨h1, h2⟩

theorem Inv.stack_ne (h : Inv k own) (hq : k.live q) (hd : own d = .dir ∨ own d = .free) :
    (k.proc q).kstack ≠ d := by
  intro e
  have h2 := h.stack q hq
  rw [e] at h2
  rcases hd with hd | hd <;> rw [hd] at h2 <;> cases h2

theorem Edits.congr (h : Edits d k own k1 own') (hmem : k'.mem = k1.mem)
    (hfree : k'.freelist = k1.freelist) (hseg : SameSegs k1 k') : Edits d k own k' own' :=
  ⟨⟨h.role, fun d' hd hd' n hn => by rw [entry_congr hmem]; exact h.entry d' hd hd' n hn,
    fun d' hd hd' => by rw [hmem]; exact h.pde d' hd hd', h.back⟩,
    h.wf.congr hfree hseg fun _ _ => by rw [hmem], h.dir⟩

/-- The general rule: the process in slot `p` has the directory and stack it should have, and
nothing has happened to the others. -/
theorem Inv.turn (h : Inv k own) (hwf : Wf k' own') (hsame : ∀ q ≠ p, SameSpace q k k')
    (hrole : ∀ q ≠ p, k.live q → own' (k.dirOf q) = .dir ∧ own' (k.proc q).kstack = .kstack q)
    (hp : k'.live p → own' (k'.dirOf p) = .dir ∧ own' (k'.proc p).kstack = .kstack p ∧
      (k'.proc p).sz ≤ KERNBASE ∧ ∀ q ≠ p, k.live q → k.dirOf q ≠ k'.dirOf p)
    (hback : ∀ d, own' d = .dir → (k'.live p ∧ d = k'.dirOf p) ∨
      own d = .dir ∧ (k.live p → d ≠ k.dirOf p))
    (hseg : ∀ v key i, own v = .seg key i → own' v = .seg key i) : Turn p k own k' own' := by
  have hlive : ∀ q ≠ p, (k'.live q ↔ k.live q) := fun q hq => (hsame q hq).live
  refine ⟨⟨hwf, fun q hq => ?_, fun q hq => ?_, fun q r hq hr e => ?_, fun q hq => ?_,
    fun d hd => ?_⟩, hsame, hseg⟩
  · by_cases e : q = p
    · subst e
      exact (hp hq).1
    · rw [(hsame q e).pgdir]
      exact (hrole q e ((hlive q e).mp hq)).1
  · by_cases e : q = p
    · subst e
      exact (hp hq).2.1
    · rw [(hsame q e).kstack]
      exact (hrole q e ((hlive q e).mp hq)).2
  · by_cases eq : q = p
    · by_cases er : r = p
      · rw [eq, er]
      · subst eq
        rw [(hsame r er).pgdir] at e
        exact absurd e.symm ((hp hq).2.2.2 r er ((hlive r er).mp hr))
    · rw [(hsame q eq).pgdir] at e
      by_cases er : r = p
      · subst er
        exact absurd e ((hp hr).2.2.2 q eq ((hlive q eq).mp hq))
      · rw [(hsame r er).pgdir] at e
        exact h.inj q r ((hlive q eq).mp hq) ((hlive r er).mp hr) e
  · by_cases e : q = p
    · subst e
      exact (hp hq).2.2.1
    · rw [(hsame q e).sz]
      exact h.size q ((hlive q e).mp hq)
  · rcases hback d hd with ⟨hl, rfl⟩ | ⟨hd, hne⟩
    · exact ⟨p, hl, rfl⟩
    · obtain ⟨q, hq, rfl⟩ := h.owner d hd
      have e : q ≠ p := by
        rintro rfl
        exact hne hq rfl
      exact ⟨q, (hlive q e).mpr hq, (hsame q e).pgdir⟩

theorem Inv.edits (h : Inv k own) (hp : k.live p) (he : Edits (k.dirOf p) k own k' own')
    (hq : ∀ q ≠ p, SameProc q k k') (hlive : k'.live p) (hd : k'.dirOf p = k.dirOf p)
    (hs : (k'.proc p).kstack = (k.proc p).kstack) (hsz : (k'.proc p).sz ≤ KERNBASE) :
    Turn p k own k' own' := by
  have hdp := h.dir p hp
  have hne : ∀ q ≠ p, k.live q → k.dirOf q ≠ k.dirOf p := fun q hqp hl e =>
    hqp (h.inj q p hl hp e)
  refine h.turn he.wf (fun q hqp => ⟨hq q hqp, fun hl => he.entry _ (hne q hqp hl) (h.dir q hl),
    fun hl => he.pde _ (hne q hqp hl) (h.dir q hl)⟩) (fun q hqp hl => ?_) (fun _ => ?_)
    (fun d hd' => ?_) (fun v key i e => ?_)
  · exact h.keep he.toLocal hl (hne q hqp hl) (h.stack_ne hl (.inl hdp))
  · rw [hd, hs]
    refine ⟨he.dir, ?_, hsz, hne⟩
    rw [he.role _ (h.stack_ne hp (.inl hdp)) (by rw [h.stack p hp]; trivial), h.stack p hp]
  · by_cases e : d = k.dirOf p
    · exact .inl ⟨hlive, by rw [hd, e]⟩
    · exact .inr ⟨he.back d e hd', fun _ => e⟩
  · rw [he.role v _ (by rw [e]; trivial), e]
    rintro rfl
    rw [hdp] at e
    cases e

theorem Inv.sameSpace (h : Inv k own) (hs : Spared k own k' own') (hq : SameProc q k k') :
    SameSpace q k k' :=
  ⟨hq, fun hl => hs.entry _ (h.dir q hl), fun hl => hs.pde _ (h.dir q hl)⟩

theorem Inv.spared (h : Inv k own) (hwf : Wf k' own') (hs : Spared k own k' own')
    (hq : ∀ q, SameProc q k k') (p : Slot) : Turn p k own k' own' := by
  refine h.turn hwf (fun q _ => h.sameSpace hs (hq q)) (fun q _ hl => ?_) (fun hl => ?_)
    (fun d hd => ?_) (fun v key i e => ?_)
  · rw [hs.role _ (by rw [h.dir q hl]; trivial), hs.role _ (by rw [h.stack q hl]; trivial)]
    exact ⟨h.dir q hl, h.stack q hl⟩
  · have hl' := (hq p).live.mp hl
    rw [(hq p).pgdir, (hq p).kstack, (hq p).sz, hs.role _ (by rw [h.dir p hl']; trivial),
      hs.role _ (by rw [h.stack p hl']; trivial)]
    exact ⟨h.dir p hl', h.stack p hl', h.size p hl', fun q hqp hlq e =>
      hqp (h.inj q p hlq hl' e)⟩
  · by_cases e : k.live p ∧ d = k.dirOf p
    · exact .inl ⟨(hq p).live.mpr e.1, by rw [(hq p).pgdir, e.2]⟩
    · exact .inr ⟨hs.back d hd, fun hl e' => e ⟨hl, e'⟩⟩
  · rw [hs.role v (by rw [e]; trivial), e]

/-- A call that gives the process in slot `p`, new or not, a directory made from free pages; its
old one is no longer in use. -/
theorem Inv.enter (h : Inv k own) {ks : ℕ} (hd : own d = .free) (hwf : Wf k' own')
    (hdir : own' d = .dir) (hks : own' ks = .kstack p)
    (hq : ∀ q ≠ p, SameSpace q k k') (hlive : k'.live p) (hd' : k'.dirOf p = d)
    (hs : (k'.proc p).kstack = ks) (hsz : (k'.proc p).sz ≤ KERNBASE)
    (hrole : ∀ q ≠ p, k.live q → own' (k.dirOf q) = .dir ∧ own' (k.proc q).kstack = .kstack q)
    (hback : ∀ d', own' d' = .dir → d' = d ∨ own d' = .dir ∧ (k.live p → d' ≠ k.dirOf p))
    (hseg : ∀ v key i, own v = .seg key i → own' v = .seg key i) : Turn p k own k' own' := by
  refine h.turn hwf hq hrole (fun _ => ?_) (fun d1 h1 => ?_) hseg
  · rw [hd', hs]
    refine ⟨hdir, hks, hsz, fun q _ hl e => ?_⟩
    have := h.dir q hl
    rw [e, hd] at this
    cases this
  · rcases hback d1 h1 with e | e
    · exact .inl ⟨hlive, by rw [hd', e]⟩
    · exact .inr e

/-! ### Pages of segments -/

/-- The page belongs to a live segment. -/
def Kernel.segPage (k : Kernel) (v : ℕ) : Prop :=
  ∃ key < numOfSegs, ∃ i < (k.shm.pages key).toNat, k.shm.seg key i = v

instance (k : Kernel) (v : ℕ) : Decidable (k.segPage v) := inferInstanceAs (Decidable (∃ _, _))

theorem Wf.segPage_iff (h : Wf k own) {v : ℕ} : k.segPage v ↔ ∃ key i, own v = .seg key i := by
  constructor
  · rintro ⟨key, hk, i, hi, e⟩
    exact ⟨key, i, (h.seg v key i).mpr ⟨hk, by omega, e⟩⟩
  · rintro ⟨key, i, e⟩
    obtain ⟨hk, hi, e⟩ := (h.seg v key i).mp e
    exact ⟨key, hk, i, by omega, e⟩

/-- The process maps page number `n` to a page of a live segment. -/
def Kernel.mapsSeg (k : Kernel) (p : Slot) (n : ℕ) : Prop :=
  Present (k.entry (k.dirOf p) n) ∧ k.segPage (frame (k.entry (k.dirOf p) n))
deriving Decidable

theorem Inv.priv_iff (h : Inv k own) (hp : k.live p) {n : ℕ} (hn : n < userPages) :
    Priv k own (k.dirOf p) n ↔ ¬ k.mapsSeg p n := by
  unfold Priv Kernel.mapsSeg
  rw [h.wf.segPage_iff]
  constructor
  · rintro h1 ⟨h2, key, i, e⟩
    rw [h1 h2] at e
    cases e
  · intro h1 h2
    rcases h.wf.user _ n (h.dir p hp) hn h2 with e | ⟨key, i, e⟩
    · exact e
    · exact absurd ⟨h2, key, i, e⟩ h1

end

end Xv6.Vm
