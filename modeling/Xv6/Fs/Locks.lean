import Mathlib.Data.Finset.Basic
import Xv6.Fs.Calls

/-! # Who holds what

The locks of the file system are the log (from `begin_trans` to `commit_trans`), the inodes
(`I_BUSY`) and the buffers (`B_BUSY`). `Held` is what a process holds; it moves with the commands
that the process issues.

* `locks`: the order in which the commands of the lower half take locks. Outside of a transaction a
  process holds at most one buffer, takes an inode only if it holds none, and writes nothing; the log
  is taken by a process that holds nothing, and nobody takes an inode with a buffer in hand.
* `calls`: the same for the operations of the lower half, between which no buffer is held.

The rules are about one process. What they ask of the answers (`can`) is that a lock that is
obtained was not held before, that `log_write` finds `log.busy` set, and that outside of a transaction
no inode is freed by `iput` and `bmap` finds no hole: there the code would write. -/

namespace Xv6.Fs

/-- What a process holds: the log, inodes and buffers. -/
@[ext] structure Held where
  trans : Bool
  inodes : Finset ℕ
  bufs : Finset ℕ
deriving DecidableEq

namespace Held

/-- No lock is held. -/
def nothing : Held := ⟨false, ∅, ∅⟩

def addBuf (g : Held) (s : ℕ) : Held := { g with bufs := insert s g.bufs }
def dropBuf (g : Held) (s : ℕ) : Held := { g with bufs := g.bufs.erase s }
def addInode (g : Held) (i : ℕ) : Held := { g with inodes := insert i g.inodes }
def dropInode (g : Held) (i : ℕ) : Held := { g with inodes := g.inodes.erase i }
def setTrans (g : Held) (b : Bool) : Held := { g with trans := b }

attribute [simps trans inodes] addBuf
attribute [simps trans bufs] addInode dropInode
attribute [simps] setTrans

section
variable (g : Held) (s i : ℕ)

@[simp] theorem mem_addBuf : s ∈ (g.addBuf s).bufs := Finset.mem_insert_self s g.bufs

@[simp] theorem mem_addInode : i ∈ (g.addInode i).inodes := Finset.mem_insert_self i g.inodes

variable {g s i}

theorem dropBuf_addBuf (h : s ∉ g.bufs) : (g.addBuf s).dropBuf s = g :=
  Held.ext rfl rfl (Finset.erase_insert h)

theorem addBuf_comm (g : Held) (s s' : ℕ) : (g.addBuf s).addBuf s' = (g.addBuf s').addBuf s :=
  Held.ext rfl rfl (Finset.insert_comm s' s g.bufs)

theorem dropInode_addInode (h : i ∉ g.inodes) : (g.addInode i).dropInode i = g :=
  Held.ext rfl (Finset.erase_insert h) rfl

theorem addInode_dropInode (h : i ∈ g.inodes) : (g.dropInode i).addInode i = g :=
  Held.ext rfl (Finset.insert_erase h) rfl

end

/-- When a command may be issued. -/
def may : Cmd → Held → Prop
  | .bread _, g => g.trans = false → g.bufs = ∅
  | .brelse s, g => s ∈ g.bufs
  | .logTake, g => g = nothing
  | .logDrop, g => g.trans = true ∧ g.bufs = ∅
  | .logEntry, g => g.trans = true
  | .iputEnd i, g => i ∈ g.inodes
  | .itake _, g => g.bufs = ∅ ∧ (g.trans = false → g.inodes = ∅)
  | .ifree i, g => i ∈ g.inodes
  | .doze, g => g = nothing
  | .panic msg, _ => msg ≠ "write outside of trans"
  | _, _ => True

/-- The answers that a command can get. -/
def can : (c : Cmd) → Held → c.Resp → Prop
  | .bread s, g, _ => s ∉ g.bufs
  | .bword _ _, g, w => w = 0 → g.trans = true
  | .logEntry, _, l => l.busy = true
  | .iputStart i, g, free => free = true → g.trans = true ∧ i ∉ g.inodes
  | .itake i, g, _ => i ∉ g.inodes
  | .addr _ _, g, a => a = 0 → g.trans = true
  | _, _, _ => True

/-- What is held after a command. -/
def next : (c : Cmd) → Held → c.Resp → Held
  | .bread s, g, _ => g.addBuf s
  | .brelse s, g, _ => g.dropBuf s
  | .logTake, g, _ => g.setTrans true
  | .logDrop, g, _ => g.setTrans false
  | .iputStart i, g, free => if free = true then g.addInode i else g
  | .iputEnd i, g, _ => g.dropInode i
  | .itake i, g, _ => g.addInode i
  | .ifree i, g, _ => g.dropInode i
  | _, g, _ => g

end Held

/-- The rules for the commands of the lower half. -/
def locks : Prog.Rules Cmd Cmd.Resp Held := ⟨Held.may, Held.can, Held.next⟩

/-- A program that ends with the locks it had. -/
def Keeps {α : Type} (p : Kern α) (g : Held) : Prop := p.Follows locks (fun _ g' => g' = g) g

open Prog

/-! ### The rules, command by command -/

section follows
variable {α β : Type} {g : Held} {Q : α → Held → Prop}

theorem Keeps.seq {p : Kern α} {f : α → Kern β} {Q : β → Held → Prop} (hp : Keeps p g)
    (hf : ∀ a, (f a).Follows locks Q g) : (p >>= f).Follows locks Q g :=
  Follows.seq hp fun a _ hg => hg ▸ hf a

theorem follows_panic {msg : String} (hm : msg ≠ "write outside of trans") :
    (panic msg : Kern α).Follows locks Q g := ⟨hm, fun e => nomatch e⟩

theorem follows_bread {s : ℕ} {f : Block → Kern α} (hg : g.trans = false → g.bufs = ∅)
    (hf : ∀ d, s ∉ g.bufs → (f d).Follows locks Q (g.addBuf s)) :
    (bread s >>= f).Follows locks Q g := ⟨hg, hf⟩

theorem follows_brelse {s : ℕ} {f : Unit → Kern α} (hs : s ∉ g.bufs)
    (hf : (f ()).Follows locks Q g) : (brelse s >>= f).Follows locks Q (g.addBuf s) := by
  refine ⟨g.mem_addBuf s, fun _ _ => ?_⟩
  change (f ()).Follows locks Q ((g.addBuf s).dropBuf s)
  rwa [Held.dropBuf_addBuf hs]

end follows

/-! ### The log -/

section lower
variable {g : Held}

theorem logWrite_keeps (hg : g.trans = true) (s : ℕ) (d : Block) : Keeps (logWrite s d) g := by
  refine ⟨trivial, fun _ _ => ⟨hg, fun l (hl : l.busy = true) => ?_⟩⟩
  apply follows_ite.mpr ⟨fun _ => follows_panic (by simp), fun _ => ?_⟩
  apply follows_ite.mpr ⟨fun h => ?_, fun _ => ?_⟩
  · rw [hl] at h
    cases h
  apply follows_bread (by simp [locks, Held.next, hg])
  intro _ hs
  refine ⟨trivial, fun _ _ => ⟨trivial, fun _ _ => ?_⟩⟩
  apply follows_brelse hs
  exact follows_ite.mpr ⟨fun _ => ⟨trivial, fun _ _ => rfl⟩, fun _ => rfl⟩

theorem writeHead_keeps (hg : g.trans = false → g.bufs = ∅) : Keeps writeHead g := by
  refine ⟨trivial, fun l _ => ?_⟩
  apply follows_bread hg
  intro _ hs
  refine ⟨trivial, fun _ _ => ⟨trivial, fun _ _ => ?_⟩⟩
  exact follows_brelse (f := ret) hs rfl

theorem installLoop_keeps (hg : g.trans = true) (start : ℕ) (l : List ℕ) (tail : ℕ) :
    Keeps (installLoop start tail l) g := by
  induction l generalizing tail with
  | nil => rfl
  | cons s l ih =>
    apply follows_bread (by simp [hg])
    intro d hd
    apply follows_bread (by simp [hg])
    intro _ hs
    refine ⟨trivial, fun _ _ => ⟨trivial, fun _ _ => ?_⟩⟩
    change Follows locks _ _ ((g.addBuf _).addBuf s)
    have hne : start + tail + 1 ≠ s := fun h => hs (h ▸ g.mem_addBuf _)
    rw [Held.addBuf_comm]
    apply follows_brelse
    · exact fun h => (Finset.mem_insert.mp h).elim hne hd
    · apply follows_brelse
      · exact fun h => hs (Finset.mem_insert_of_mem h)
      · exact ih (tail + 1)

theorem commitTrans_follows (hg : g.trans = true) (hb : g.bufs = ∅) :
    commitTrans.Follows locks (fun _ g' => g' = g.setTrans false) g := by
  have hdrop : (op .logDrop ret : Kern Unit).Follows locks
      (fun _ g' => g' = g.setTrans false) g := ⟨⟨hg, hb⟩, fun _ _ => rfl⟩
  have hhead : Keeps writeHead g := writeHead_keeps fun _ => hb
  refine ⟨trivial, fun l _ => follows_ite.mpr ⟨fun _ => ?_, fun _ => hdrop⟩⟩
  refine hhead.seq fun _ => Keeps.seq ⟨trivial, fun l _ => installLoop_keeps hg _ _ _⟩ fun _ => ?_
  exact ⟨trivial, fun _ _ => hhead.seq fun _ => hdrop⟩

/-! ### Blocks and inodes -/

theorem readsb_keeps (hg : g.trans = false → g.bufs = ∅) : Keeps readsb g := by
  apply follows_bread hg
  intro _ hs
  exact follows_brelse hs rfl

section
variable (hg : g.trans = true)
include hg

theorem bzero_keeps (b : ℕ) : Keeps (bzero b) g := by
  apply follows_bread (by simp [hg])
  intro _ hs
  apply (logWrite_keeps (g := g.addBuf b) hg b zeroBlock).seq
  intro _
  exact follows_brelse (f := ret) hs rfl

theorem ballocLoop_keeps (sb : Superblock) (n b : ℕ) : Keeps (ballocLoop sb n b) g := by
  induction n generalizing b with
  | zero => exact follows_panic (by simp)
  | succ n ih =>
    apply follows_bread (by simp [hg])
    intro d hs
    cases (List.range (min BPB (sb.size - b))).find? fun bi => getBit d bi = false with
    | none => exact follows_brelse hs (ih _)
    | some bi =>
      apply (logWrite_keeps (g := g.addBuf _) hg _ _).seq
      intro _
      exact follows_brelse hs ((bzero_keeps hg _).seq fun _ => rfl)

theorem balloc_keeps : Keeps balloc g :=
  (readsb_keeps (by simp [hg])).seq fun sb => ballocLoop_keeps hg sb _ _

theorem bfree_keeps (b : ℕ) : Keeps (bfree b) g := by
  apply (readsb_keeps (by simp [hg])).seq
  intro sb
  apply follows_bread (by simp [hg])
  intro d hs
  refine follows_ite.mpr ⟨fun _ => follows_panic (by simp), fun _ => ?_⟩
  apply (logWrite_keeps (g := g.addBuf _) hg _ _).seq
  intro _
  exact follows_brelse (f := ret) hs rfl

theorem iallocLoop_keeps (type n i : ℕ) : Keeps (iallocLoop type n i) g := by
  induction n generalizing i with
  | zero => exact follows_panic (by simp)
  | succ n ih =>
    apply follows_bread (by simp [hg])
    intro d hs
    refine follows_ite.mpr ⟨fun _ => ?_, fun _ => follows_brelse hs (ih _)⟩
    apply (logWrite_keeps (g := g.addBuf _) hg _ _).seq
    intro _
    exact follows_brelse hs ⟨trivial, fun _ _ => rfl⟩

theorem ialloc_keeps (type : ℕ) : Keeps (ialloc type) g :=
  (readsb_keeps (by simp [hg])).seq fun _ => iallocLoop_keeps hg type _ _

theorem iupdate_keeps (i : ℕ) : Keeps (iupdate i) g := by
  apply follows_bread (by simp [hg])
  intro d hs
  refine ⟨trivial, fun c _ => ?_⟩
  apply (logWrite_keeps (g := g.addBuf _) hg _ _).seq
  intro _
  exact follows_brelse (f := ret) hs rfl

end

theorem ilock_follows (hb : g.bufs = ∅) (hg : g.trans = false → g.inodes = ∅) (i : ℕ) :
    (ilock i).Follows locks (fun _ g' => i ∉ g.inodes ∧ g' = g.addInode i) g := by
  refine ⟨trivial, fun c _ => follows_ite.mpr ⟨fun _ => follows_panic (by simp), fun _ => ?_⟩⟩
  refine ⟨⟨hb, hg⟩, fun _ hi => ⟨trivial, fun c _ => ?_⟩⟩
  change Follows locks _ _ (g.addInode i)
  have hend : ∀ u : Unit, i ∉ g.inodes ∧ g.addInode i = g.addInode i := fun _ => ⟨hi, rfl⟩
  refine follows_ite.mpr ⟨fun _ => ?_, fun _ => hend ()⟩
  apply follows_bread (g := g.addInode i) fun _ => hb
  intro d hs
  refine ⟨trivial, fun _ _ => ?_⟩
  exact follows_brelse hs (follows_ite.mpr ⟨fun _ => follows_panic (by simp), fun _ => hend ()⟩)

/-! ### The contents of inodes -/

theorem setAddr_keeps (i j a : ℕ) : Keeps (setAddr i j a) g :=
  ⟨trivial, fun _ _ => ⟨trivial, fun _ _ => rfl⟩⟩

theorem allocAddr_keeps (i j : ℕ) : Keeps (allocAddr i j) g := by
  refine ⟨trivial, fun a ha => follows_ite.mpr ⟨fun h => ?_, fun _ => rfl⟩⟩
  apply (balloc_keeps (ha h)).seq
  intro b
  exact (setAddr_keeps i j b).seq fun _ => rfl

theorem bmap_keeps (hg : g.trans = false → g.bufs = ∅) (i bn : ℕ) : Keeps (bmap i bn) g := by
  refine follows_ite.mpr ⟨fun _ => allocAddr_keeps i bn, fun _ => ?_⟩
  refine follows_ite.mpr ⟨fun _ => ?_, fun _ => follows_panic (by simp)⟩
  apply (allocAddr_keeps i NDIRECT).seq
  intro a
  apply follows_bread hg
  intro d hs
  refine ⟨trivial, fun w hw => follows_ite.mpr ⟨fun h => ?_, fun _ => follows_brelse hs rfl⟩⟩
  have htrans : (g.addBuf a).trans = true := hw h
  apply (balloc_keeps htrans).seq
  intro b
  apply (logWrite_keeps htrans _ _).seq
  intro _
  exact follows_brelse hs rfl

theorem truncDirect_keeps (hg : g.trans = true) (i n j : ℕ) : Keeps (truncDirect i n j) g := by
  induction n generalizing j with
  | zero => rfl
  | succ n ih =>
    refine ⟨trivial, fun c _ => follows_ite.mpr ⟨fun _ => ?_, fun _ => ih _⟩⟩
    apply (bfree_keeps hg _).seq
    intro _
    exact (setAddr_keeps i j 0).seq fun _ => ih (j + 1)

theorem truncIndirect_keeps (hg : g.trans = true) (d : Block) (n j : ℕ) :
    Keeps (truncIndirect d n j) g := by
  induction n generalizing j with
  | zero => rfl
  | succ n ih =>
    exact follows_ite.mpr ⟨fun _ => (bfree_keeps hg _).seq fun _ => ih (j + 1), fun _ => ih _⟩

theorem itrunc_keeps (hg : g.trans = true) (i : ℕ) : Keeps (itrunc i) g := by
  have hend : Keeps (do
      let c ← inode i
      setInode i c.valid { c.din with size := 0 }
      iupdate i) g := ⟨trivial, fun c _ => ⟨trivial, fun _ _ => iupdate_keeps hg i⟩⟩
  apply (truncDirect_keeps hg i _ _).seq
  intro _
  refine ⟨trivial, fun c _ => follows_ite.mpr ⟨fun _ => ?_, fun _ => hend⟩⟩
  apply follows_bread (by simp [locks, Held.next, hg])
  intro d hs
  apply (truncIndirect_keeps (g := g.addBuf _) hg d _ _).seq
  intro _
  apply follows_brelse hs
  apply (bfree_keeps hg _).seq
  intro _
  exact (setAddr_keeps i NDIRECT 0).seq fun _ => hend

theorem iput_keeps (i : ℕ) : Keeps (iput i) g := by
  refine ⟨trivial, fun free hfree => follows_ite.mpr ⟨fun h => ?_, fun h => ?_⟩⟩
  · obtain ⟨hg, hi⟩ := hfree h
    change Follows locks _ _ (Held.next (.iputStart i) g free)
    rw [show Held.next (.iputStart i) g free = g.addInode i from if_pos h]
    apply (itrunc_keeps (g := g.addInode i) hg i).seq
    intro _
    refine ⟨trivial, fun c _ => ⟨trivial, fun _ _ => ?_⟩⟩
    apply (iupdate_keeps (g := g.addInode i) hg i).seq
    intro _
    exact ⟨g.mem_addInode i, fun _ _ => Held.dropInode_addInode hi⟩
  · exact if_neg h

theorem readLoop_keeps (hg : g.trans = false → g.bufs = ∅) (i fuel off n : ℕ) :
    Keeps (readLoop i fuel off n) g := by
  induction fuel generalizing off n with
  | zero => rfl
  | succ fuel ih =>
    refine follows_ite.mpr ⟨fun _ => rfl, fun _ => ?_⟩
    apply (bmap_keeps hg i _).seq
    intro b
    apply follows_bread hg
    intro d hs
    exact follows_brelse hs (Keeps.seq (ih _ _) fun _ => rfl)

theorem readFile_keeps (hg : g.trans = false → g.bufs = ∅) (i off n : ℕ) :
    Keeps (readFile i off n) g := by
  refine ⟨trivial, fun c _ => follows_ite.mpr ⟨fun _ => rfl, fun _ => ?_⟩⟩
  exact (readLoop_keeps hg i _ _ _).seq fun _ => rfl

theorem writeLoop_keeps (hg : g.trans = true) (i fuel off : ℕ) (l : List UInt8) :
    Keeps (writeLoop i fuel off l) g := by
  induction fuel generalizing off l with
  | zero => rfl
  | succ fuel ih =>
    refine follows_ite.mpr ⟨fun _ => rfl, fun _ => ?_⟩
    apply (bmap_keeps (by simp [hg]) i _).seq
    intro b
    apply follows_bread (by simp [hg])
    intro d hs
    apply (logWrite_keeps (g := g.addBuf _) hg _ _).seq
    intro _
    exact follows_brelse hs (ih _ _)

theorem writeFile_keeps (hg : g.trans = true) (i off : ℕ) (l : List UInt8) :
    Keeps (writeFile i off l) g := by
  refine ⟨trivial, fun c _ => follows_ite.mpr ⟨fun _ => rfl, fun _ => ?_⟩⟩
  refine follows_ite.mpr ⟨fun _ => rfl, fun _ => ?_⟩
  apply (writeLoop_keeps hg i _ _ _).seq
  intro _
  refine ⟨trivial, fun c _ => follows_ite.mpr ⟨fun _ => ?_, fun _ => rfl⟩⟩
  exact ⟨trivial, fun _ _ => (iupdate_keeps hg i).seq fun _ => rfl⟩

theorem readi_keeps {i : ℕ} (hg : g = Held.nothing.addInode i) (off n : ℕ) : Keeps (readi i off n) g := by
  subst hg
  refine ⟨trivial, fun c _ => follows_ite.mpr ⟨fun _ => ?_, fun _ => readFile_keeps (fun _ => rfl) i off n⟩⟩
  refine follows_ite.mpr ⟨fun _ => ?_, fun _ => rfl⟩
  refine ⟨Held.mem_addInode _ i, fun _ _ => ?_⟩
  change Follows locks _ _ ((Held.nothing.addInode i).dropInode i)
  rw [Held.dropInode_addInode (by simp [Held.nothing])]
  refine ⟨rfl, fun _ _ => (ilock_follows rfl (fun _ => rfl) i).seq fun _ g' hg' => ?_⟩
  exact hg'.2

theorem writei_keeps {i : ℕ} (hg : g.trans = true) (hb : g.bufs = ∅) (hi : i ∈ g.inodes) (off : ℕ)
    (l : List UInt8) : Keeps (writei i off l) g := by
  refine ⟨trivial, fun c _ => follows_ite.mpr ⟨fun _ => ?_, fun _ => writeFile_keeps hg i off l⟩⟩
  refine follows_ite.mpr ⟨fun _ => ?_, fun _ => rfl⟩
  refine ⟨hi, fun _ _ => ?_⟩
  change Follows locks _ _ (g.dropInode i)
  apply (ilock_follows (g := g.dropInode i) hb (by simp [hg]) i).seq
  intro _ g' hg'
  exact hg'.2.trans (Held.addInode_dropInode hi)

end lower

end Xv6.Fs
