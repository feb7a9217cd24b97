import Xv6.Fs.Locks

/-! # System calls and the order of locks

`calls` are the rules for the operations of the lower half; between two of them no buffer is held.
Their programs follow the rules for commands (`impl_follows`), and every system call follows the
rules for operations and ends without locks, so its program follows the rules for commands. -/

namespace Xv6.Fs

open Prog

namespace Held

/-- When an operation may be called. -/
def mayCall : Op → Held → Prop
  | .beginTrans, g => g = nothing
  | .commitTrans, g => g.trans = true
  | .ilock _, g => g.trans = false → g.inodes = ∅
  | .iunlock i, g => i ∈ g.inodes
  | .update _ _ _ _, g => g.trans = true
  | .ialloc _, g => g.trans = true
  | .writeDe _ _ _, g => g.trans = true
  | .readi i _ _, g => g = nothing.addInode i
  | .writei i _ _, g => g.trans = true ∧ i ∈ g.inodes
  | .panic msg, _ => msg ≠ "write outside of trans"
  | _, _ => True

/-- What a call can return: `ilock` returns if the inode was free. -/
def canReturn : (o : Op) → Held → o.Resp → Prop
  | .ilock i, g, _ => i ∉ g.inodes
  | _, _, _ => True

/-- What is held after the call. -/
def after : (o : Op) → Held → o.Resp → Held
  | .beginTrans, g, _ => g.setTrans true
  | .commitTrans, g, _ => g.setTrans false
  | .ilock i, g, _ => g.addInode i
  | .iunlock i, g, _ => g.dropInode i
  | _, g, _ => g

end Held

/-- The rules for the operations of the lower half. -/
def calls : Prog.Rules Op Op.Resp Held where
  may o g := g.bufs = ∅ ∧ g.mayCall o
  can := Held.canReturn
  next := Held.after

theorem impl_follows (o : Op) (g : Held) (hg : calls.may o g) :
    (impl o).Follows locks (fun r g' => calls.can o g r ∧ g' = calls.next o g r) g := by
  obtain ⟨hb, ho⟩ := hg
  have keeps : ∀ {α : Type} {p : Kern α}, Keeps p g → p.Follows locks (fun _ g' => True ∧ g' = g) g :=
    fun hp => hp.mono fun _ _ h => ⟨trivial, h⟩
  cases o with
  | beginTrans => exact ⟨ho, fun _ _ => ⟨trivial, rfl⟩⟩
  | commitTrans => exact (commitTrans_follows ho hb).mono fun _ _ h => ⟨trivial, h⟩
  | iget i => exact ⟨trivial, fun _ _ => ⟨trivial, rfl⟩⟩
  | ilock i => exact ilock_follows hb ho i
  | iunlock i => exact ⟨ho, fun _ _ => ⟨trivial, rfl⟩⟩
  | iput i => exact keeps (iput_keeps i)
  | stat i => exact ⟨trivial, fun _ _ => ⟨trivial, rfl⟩⟩
  | update i major minor nlink =>
    exact keeps ⟨trivial, fun _ _ => ⟨trivial, fun _ _ => iupdate_keeps ho i⟩⟩
  | ialloc type => exact keeps (ialloc_keeps ho type)
  | readDe i off => exact keeps ((readFile_keeps (fun _ => hb) i off 16).seq fun _ => rfl)
  | writeDe i off e => exact keeps (writeFile_keeps ho i off _)
  | readi i off n => exact keeps (readi_keeps ho off n)
  | writei i off l => exact keeps (writei_keeps ho.1 hb ho.2 off l)
  | tab c => exact ⟨trivial, fun _ _ => ⟨trivial, rfl⟩⟩
  | panic msg => exact ⟨ho, fun e => nomatch e⟩

/-- From the rules for operations to those for commands. -/
theorem kern_follows {α : Type} {p : Fsys α} {Q : α → Held → Prop} {g : Held}
    (hp : p.Follows calls Q g) : p.kern.Follows locks Q g :=
  hp.inline impl_follows

namespace Names

/-- A program that ends with the locks it had. -/
def Stays {α : Type} (p : Fsys α) (g : Held) : Prop := p.Follows calls (fun _ g' => g' = g) g

section calls
variable {α β : Type} {g : Held} {Q : α → Held → Prop} {f : Unit → Fsys α} {i : ℕ}

theorem Stays.seq {p : Fsys α} {f : α → Fsys β} {Q : β → Held → Prop} (hp : Stays p g)
    (hf : ∀ a, (f a).Follows calls Q g) : (p >>= f).Follows calls Q g :=
  Follows.seq hp fun a _ hg => hg ▸ hf a

section
variable (hb : g.bufs = ∅)
include hb

theorem follows_panic {msg : String}
    (hm : msg ≠ "write outside of trans") : (panic msg : Fsys α).Follows calls Q g :=
  ⟨⟨hb, hm⟩, fun e => nomatch e⟩

theorem tab_stays (c : TabCmd) : Stays (tab c) g :=
  ⟨⟨hb, trivial⟩, fun _ _ => rfl⟩

theorem iget_stays (i : ℕ) : Stays (iget i) g := ⟨⟨hb, trivial⟩, fun _ _ => rfl⟩

theorem iput_stays (i : ℕ) : Stays (iput i) g := ⟨⟨hb, trivial⟩, fun _ _ => rfl⟩

theorem getStat_stays (i : ℕ) : Stays (getStat i) g :=
  ⟨⟨hb, trivial⟩, fun _ _ => rfl⟩

theorem readDe_stays (i off : ℕ) : Stays (readDe i off) g :=
  ⟨⟨hb, trivial⟩, fun _ _ => rfl⟩

end

section
variable (hb : g.bufs = ∅) (hg : g.trans = true)
include hb hg

theorem writeDe_stays (i off : ℕ) (e : Dirent) :
    Stays (writeDe i off e) g := ⟨⟨hb, hg⟩, fun _ _ => rfl⟩

theorem ialloc_stays (type : ℕ) : Stays (ialloc type) g :=
  ⟨⟨hb, hg⟩, fun _ _ => rfl⟩

theorem update_stays (i major minor nlink : ℕ) :
    Stays (update i major minor nlink) g := ⟨⟨hb, hg⟩, fun _ _ => rfl⟩

theorem setNlink_stays (i : ℕ) (f : ℕ → ℕ) : Stays (setNlink i f) g :=
  (getStat_stays hb i).seq fun _ => update_stays hb hg i _ _ _

end

theorem follows_ilock (hb : g.bufs = ∅) (hg : g.trans = false → g.inodes = ∅)
    (hf : i ∉ g.inodes → (f ()).Follows calls Q (g.addInode i)) :
    (ilock i >>= f).Follows calls Q g := ⟨⟨hb, hg⟩, fun _ hi => hf hi⟩

theorem follows_ilock_trans (hb : g.bufs = ∅)
    (hg : g.trans = true) (hf : i ∉ g.inodes → (f ()).Follows calls Q (g.addInode i)) :
    (ilock i >>= f).Follows calls Q g :=
  follows_ilock hb (fun h => by simp [hg] at h) hf

theorem follows_iunlock (hb : g.bufs = ∅) (hi : i ∉ g.inodes) (hf : (f ()).Follows calls Q g) :
    (iunlock i >>= f).Follows calls Q (g.addInode i) := by
  refine ⟨⟨hb, g.mem_addInode i⟩, fun _ _ => ?_⟩
  change (f ()).Follows calls Q ((g.addInode i).dropInode i)
  rwa [Held.dropInode_addInode hi]

theorem follows_iunlockput (hb : g.bufs = ∅) (hi : i ∉ g.inodes) (hf : (f ()).Follows calls Q g) :
    (iunlockput i >>= f).Follows calls Q (g.addInode i) :=
  follows_iunlock hb hi ((iput_stays hb i).seq fun _ => hf)

/-! ### Directories and paths -/

section
variable (hb : g.bufs = ∅)
include hb

theorem lookupLoop_stays (dp : ℕ) (name : List UInt8) (n off : ℕ) : Stays (lookupLoop dp name n off) g := by
  induction n generalizing off with
  | zero => rfl
  | succ n ih =>
    apply (readDe_stays hb dp off).seq
    rintro (_ | e)
    · exact follows_panic hb (by simp)
    · exact follows_ite.mpr ⟨fun _ => (iget_stays hb e.inum).seq fun _ => rfl, fun _ => ih _⟩

theorem dirlookup_stays (dp : ℕ) (name : List UInt8) : Stays (dirlookup dp name) g := by
  apply (getStat_stays hb dp).seq
  intro m
  exact follows_ite.mpr ⟨fun _ => follows_panic hb (by simp), fun _ => lookupLoop_stays hb dp name _ _⟩

theorem emptyLoop_stays (dp n off : ℕ) : Stays (emptyLoop dp n off) g := by
  induction n generalizing off with
  | zero => rfl
  | succ n ih =>
    apply (readDe_stays hb dp off).seq
    rintro (_ | e)
    · exact follows_panic hb (by simp)
    · exact follows_ite.mpr ⟨fun _ => rfl, fun _ => ih _⟩

theorem dirlink_stays (hg : g.trans = true) (dp : ℕ) (name : List UInt8)
    (inum : ℕ) : Stays (dirlink dp name inum) g := by
  apply (dirlookup_stays hb dp name).seq
  rintro (_ | ⟨i, off⟩)
  · apply (getStat_stays hb dp).seq
    intro m
    apply (emptyLoop_stays hb dp _ _).seq
    intro off
    apply (writeDe_stays hb hg dp off _).seq
    intro ok
    exact follows_ite.mpr ⟨fun _ => follows_panic hb (by simp), fun _ => rfl⟩
  · exact (iput_stays hb i).seq fun _ => rfl

theorem namexLoop_stays (hi : g.inodes = ∅) (parent : Bool) (n : ℕ)
    (path : List UInt8) (ip : ℕ) : Stays (namexLoop parent n path ip) g := by
  induction n generalizing path ip with
  | zero => rfl
  | succ n ih =>
    unfold namexLoop
    cases skipelem path with
    | none => exact follows_ite.mpr ⟨fun _ => (iput_stays hb ip).seq fun _ => rfl, fun _ => rfl⟩
    | some e =>
      obtain ⟨name, path⟩ := e
      apply follows_ilock hb fun _ => hi
      intro hn
      apply (getStat_stays (g := g.addInode ip) hb ip).seq
      intro m
      refine follows_ite.mpr ⟨fun _ => follows_iunlockput hb hn rfl, fun _ => ?_⟩
      refine follows_ite.mpr ⟨fun _ => follows_iunlock hb hn rfl, fun _ => ?_⟩
      apply (dirlookup_stays (g := g.addInode ip) hb ip name).seq
      rintro (_ | ⟨next, off⟩)
      · exact follows_iunlockput hb hn rfl
      · exact follows_iunlockput hb hn (ih path next)

theorem namex_stays (hi : g.inodes = ∅) (path : List UInt8) (parent : Bool) : Stays (namex path parent) g := by
  refine follows_ite.mpr ⟨fun _ => ?_, fun _ => ?_⟩
  · exact (iget_stays hb ROOTINO).seq fun _ => namexLoop_stays hb hi parent _ path _
  · apply (tab_stays hb .cwd).seq
    intro cwd
    exact (iget_stays hb cwd).seq fun _ => namexLoop_stays hb hi parent _ path _

theorem namei_stays (hi : g.inodes = ∅) (path : List UInt8) : Stays (namei path) g :=
  (namex_stays hb hi path false).seq fun _ => rfl

end

/-! ### Creating and removing entries -/

end calls

/-- What a process holds in a transaction, before it locks an inode. -/
def inTrans : Held := Held.nothing.setTrans true

section calls
variable {α : Type} {Q : α → Held → Prop} {f : Unit → Fsys α} {g : Held} {dp : ℕ}

theorem follows_beginTrans
    (hf : (f ()).Follows calls Q inTrans) : (beginTrans >>= f).Follows calls Q Held.nothing :=
  ⟨⟨rfl, rfl⟩, fun _ _ => hf⟩

theorem follows_commitTrans (hb : g.bufs = ∅)
    (hg : g.trans = true) (hf : (f ()).Follows calls Q (g.setTrans false)) :
    (commitTrans >>= f).Follows calls Q g := ⟨⟨hb, hg⟩, fun _ _ => hf⟩

theorem follows_iunlockput_first {i j : ℕ}
    (hb : g.bufs = ∅) (hi : i ∉ g.inodes) (hj : j ∉ (g.addInode i).inodes)
    (hf : (f ()).Follows calls Q (g.addInode j)) :
    (iunlockput i >>= f).Follows calls Q ((g.addInode i).addInode j) := by
  have hswap : (g.addInode i).addInode j = (g.addInode j).addInode i :=
    Held.ext rfl (Finset.insert_comm j i g.inodes) rfl
  rw [hswap]
  refine follows_iunlockput hb (fun h => ?_) hf
  rcases Finset.mem_insert.mp h with rfl | h
  · exact hj (Finset.mem_insert_self _ _)
  · exact hi h

theorem dots_stays (hb : g.bufs = ∅) (hg : g.trans = true) (dp ip : ℕ) : Stays (dots dp ip) g := by
  apply (setNlink_stays hb hg dp inc).seq
  intro _
  apply (dirlink_stays hb hg ip dot ip).seq
  intro ok
  refine follows_ite.mpr ⟨fun _ => follows_panic hb (by simp), fun _ => ?_⟩
  apply (dirlink_stays hb hg ip dotdot dp).seq
  intro ok
  exact follows_ite.mpr ⟨fun _ => follows_panic hb (by simp), fun _ => rfl⟩

/-- What `create` holds in addition when it returns. -/
def created (g : Held) : Option ℕ → Held
  | none => g
  | some ip => g.addInode ip

theorem createNew_follows (hdp : dp ∉ inTrans.inodes) (name : List UInt8) (type major minor : ℕ) :
    (createNew dp name type major minor).Follows calls (fun r g' => g' = created inTrans r)
      (inTrans.addInode dp) := by
  apply (ialloc_stays (g := inTrans.addInode dp) rfl rfl type).seq
  intro ip
  apply follows_ilock_trans rfl rfl
  intro hip
  apply (update_stays (g := (inTrans.addInode dp).addInode ip) rfl rfl ip major minor 1).seq
  intro _
  have hend : (do
      let ok ← dirlink dp name ip
      if ok = false then panic "create: dirlink"
      else do
        iunlockput dp
        pure (some ip) : Fsys (Option ℕ)).Follows calls (fun r g' => g' = created inTrans r)
          ((inTrans.addInode dp).addInode ip) := by
    apply (dirlink_stays (g := (inTrans.addInode dp).addInode ip) rfl rfl dp name ip).seq
    intro ok
    refine follows_ite.mpr ⟨fun _ => follows_panic rfl (by simp), fun _ => ?_⟩
    exact follows_iunlockput_first rfl hdp hip rfl
  refine follows_ite.mpr ⟨fun _ => ?_, fun _ => hend⟩
  exact (dots_stays (g := (inTrans.addInode dp).addInode ip) rfl rfl dp ip).seq fun _ => hend

theorem create_follows (path : List UInt8) (type major minor : ℕ) :
    (create path type major minor).Follows calls (fun r g' => g' = created inTrans r) inTrans := by
  apply (namex_stays rfl rfl path true).seq
  rintro (_ | ⟨dp, name⟩)
  · rfl
  · apply follows_ilock_trans rfl rfl
    intro hdp
    apply (dirlookup_stays (g := inTrans.addInode dp) rfl dp name).seq
    rintro (_ | ⟨ip, off⟩)
    · exact createNew_follows hdp name type major minor
    · apply follows_iunlockput rfl hdp
      apply follows_ilock_trans rfl rfl
      intro hip
      apply (getStat_stays (g := inTrans.addInode ip) rfl ip).seq
      intro m
      exact follows_ite.mpr ⟨fun _ => rfl, fun _ => follows_iunlockput rfl hip rfl⟩

theorem sysLink_bad_follows (ip : ℕ) :
    (sysLink.bad ip).Follows calls (fun _ g' => g' = Held.nothing) inTrans := by
  apply follows_ilock_trans rfl rfl
  intro hip
  apply (setNlink_stays (g := inTrans.addInode ip) rfl rfl ip dec).seq
  intro _
  apply follows_iunlockput rfl hip
  exact follows_commitTrans rfl rfl rfl

theorem sysLink_stays (old new : List UInt8) : Stays (sysLink old new) Held.nothing := by
  apply (namei_stays rfl rfl old).seq
  rintro (_ | ip)
  · rfl
  · apply follows_beginTrans
    apply follows_ilock_trans rfl rfl
    intro hip
    apply (getStat_stays (g := inTrans.addInode ip) rfl ip).seq
    intro m
    refine follows_ite.mpr ⟨fun _ => ?_, fun _ => ?_⟩
    · exact follows_iunlockput rfl hip (follows_commitTrans rfl rfl rfl)
    · apply (update_stays (g := inTrans.addInode ip) rfl rfl ip _ _ _).seq
      intro _
      apply follows_iunlock rfl hip
      apply (namex_stays rfl rfl new true).seq
      rintro (_ | ⟨dp, name⟩)
      · exact sysLink_bad_follows ip
      · apply follows_ilock_trans rfl rfl
        intro hdp
        apply (dirlink_stays (g := inTrans.addInode dp) rfl rfl dp name ip).seq
        intro ok
        refine follows_ite.mpr ⟨fun _ => ?_, fun _ => ?_⟩
        · apply follows_iunlockput rfl hdp
          apply (iput_stays rfl ip).seq
          intro _
          exact follows_commitTrans rfl rfl rfl
        · exact follows_iunlockput rfl hdp (sysLink_bad_follows ip)

theorem isdirempty_stays (hb : g.bufs = ∅) (dp : ℕ) : Stays (isdirempty dp) g := by
  have hloop : ∀ n off, Stays (isdiremptyLoop dp n off) g := by
    intro n
    induction n with
    | zero => exact fun _ => rfl
    | succ n ih =>
      intro off
      apply (readDe_stays hb dp off).seq
      rintro (_ | e)
      · exact follows_panic hb (by simp)
      · exact follows_ite.mpr ⟨fun _ => rfl, fun _ => ih _⟩
  exact (getStat_stays hb dp).seq fun m => hloop _ _

theorem unlink_bad_follows (hdp : dp ∉ inTrans.inodes) :
    (unlink.bad dp).Follows calls (fun _ g' => g' = Held.nothing) (inTrans.addInode dp) :=
  follows_iunlockput rfl hdp (follows_commitTrans rfl rfl rfl)

theorem erase_follows {ip : ℕ} (hdp : dp ∉ inTrans.inodes) (hip : ip ∉ (inTrans.addInode dp).inodes)
    (off type : ℕ) :
    (erase dp ip off type).Follows calls (fun _ g' => g' = Held.nothing)
      ((inTrans.addInode dp).addInode ip) := by
  have herase : Stays (eraseEntry dp off) ((inTrans.addInode dp).addInode ip) :=
    (writeDe_stays rfl rfl dp off _).seq fun _ =>
      follows_ite.mpr ⟨fun _ => follows_panic rfl (by simp), fun _ => rfl⟩
  apply herase.seq
  intro _
  have hend : (do
      iunlockput dp
      setNlink ip dec
      iunlockput ip
      commitTrans
      pure true : Fsys Bool).Follows calls (fun _ g' => g' = Held.nothing)
        ((inTrans.addInode dp).addInode ip) := by
    apply follows_iunlockput_first rfl hdp hip
    apply (setNlink_stays (g := inTrans.addInode ip) rfl rfl ip dec).seq
    intro _
    apply follows_iunlockput rfl (fun h => hip (Finset.mem_insert_of_mem h))
    exact follows_commitTrans rfl rfl rfl
  refine follows_ite.mpr ⟨fun _ => ?_, fun _ => hend⟩
  exact (setNlink_stays (g := (inTrans.addInode dp).addInode ip) rfl rfl dp dec).seq fun _ => hend

theorem unlink_stays (path : List UInt8) : Stays (unlink path) Held.nothing := by
  apply (namex_stays rfl rfl path true).seq
  rintro (_ | ⟨dp, name⟩)
  · rfl
  · apply follows_beginTrans
    apply follows_ilock_trans rfl rfl
    intro hdp
    refine follows_ite.mpr ⟨fun _ => unlink_bad_follows hdp, fun _ => ?_⟩
    apply (dirlookup_stays (g := inTrans.addInode dp) rfl dp name).seq
    rintro (_ | ⟨ip, off⟩)
    · exact unlink_bad_follows hdp
    · apply follows_ilock_trans rfl rfl
      intro hip
      apply (getStat_stays (g := (inTrans.addInode dp).addInode ip) rfl ip).seq
      intro m
      refine follows_ite.mpr ⟨fun _ => follows_panic rfl (by simp), fun _ => ?_⟩
      have hempty : Stays (removable ip m.type) ((inTrans.addInode dp).addInode ip) :=
        follows_ite.mpr ⟨fun _ => isdirempty_stays rfl ip, fun _ => rfl⟩
      apply hempty.seq
      intro empty
      refine follows_ite.mpr ⟨fun _ => ?_, fun _ => erase_follows hdp hip off _⟩
      exact follows_iunlockput rfl hip (unlink_bad_follows hdp)

theorem created_follows {path : List UInt8} {type major minor : ℕ} :
    (do
      beginTrans
      match ← create path type major minor with
      | none => do
        commitTrans
        pure false
      | some ip => do
        iunlockput ip
        commitTrans
        pure true : Fsys Bool).Follows calls (fun _ g' => g' = Held.nothing) Held.nothing := by
  apply follows_beginTrans
  apply (create_follows path type major minor).seq
  rintro (_ | ip) g rfl
  · exact follows_commitTrans rfl rfl rfl
  · exact follows_iunlockput rfl (Finset.notMem_empty ip) (follows_commitTrans rfl rfl rfl)

theorem sysMkdir_stays (path : List UInt8) : Stays (sysMkdir path) Held.nothing := created_follows

theorem sysMknod_stays (path : List UInt8) (major minor : ℕ) :
    Stays (sysMknod path major minor) Held.nothing := created_follows

theorem sysChdir_stays (path : List UInt8) : Stays (sysChdir path) Held.nothing := by
  apply (namei_stays rfl rfl path).seq
  rintro (_ | ip)
  · rfl
  · apply follows_ilock rfl fun _ => rfl
    intro hip
    apply (getStat_stays (g := Held.nothing.addInode ip) rfl ip).seq
    intro m
    refine follows_ite.mpr ⟨fun _ => follows_iunlockput rfl hip rfl, fun _ => ?_⟩
    apply follows_iunlock rfl hip
    apply (tab_stays rfl .cwd).seq
    intro cwd
    apply (iput_stays rfl cwd).seq
    intro _
    exact (tab_stays rfl (.setCwd (some ip))).seq fun _ => rfl

/-! ### Open files -/

theorem fileclose_stays (f : ℕ) : Stays (fileclose f) Held.nothing := by
  apply (tab_stays rfl (.fileDrop f)).seq
  rintro (_ | x)
  · rfl
  · refine follows_ite.mpr ⟨fun _ => ?_, fun _ => rfl⟩
    apply follows_beginTrans
    apply (iput_stays rfl x.ip).seq
    intro _
    exact ⟨⟨rfl, rfl⟩, fun _ _ => rfl⟩

theorem openInode_follows (path : List UInt8) (omode : ℕ) :
    (openInode path omode).Follows calls (fun r g' => g' = created Held.nothing r)
      Held.nothing := by
  refine follows_ite.mpr ⟨fun _ => ?_, fun _ => ?_⟩
  · apply follows_beginTrans
    apply (create_follows path T_FILE 0 0).seq
    rintro (_ | ip) g rfl
    · exact follows_commitTrans rfl rfl rfl
    · exact follows_commitTrans rfl rfl rfl
  · apply (namei_stays rfl rfl path).seq
    rintro (_ | ip)
    · rfl
    · apply follows_ilock rfl fun _ => rfl
      intro hip
      apply (getStat_stays (g := Held.nothing.addInode ip) rfl ip).seq
      intro m
      exact follows_ite.mpr ⟨fun _ => follows_iunlockput rfl hip rfl, fun _ => rfl⟩

theorem fileopen_stays (path : List UInt8) (omode : ℕ) :
    Stays (fileopen path omode) Held.nothing := by
  apply (openInode_follows path omode).seq
  rintro (_ | ip) g rfl
  · rfl
  · have hip : ip ∉ Held.nothing.inodes := Finset.notMem_empty ip
    apply (tab_stays (g := Held.nothing.addInode ip) rfl .filealloc).seq
    rintro (_ | f)
    · exact follows_iunlockput rfl hip rfl
    · exact follows_iunlock rfl hip ((tab_stays rfl (.fileSet f _)).seq fun _ => rfl)

theorem sysOpen_stays (path : List UInt8) (omode : ℕ) : Stays (sysOpen path omode) Held.nothing := by
  apply (openInode_follows path omode).seq
  rintro (_ | ip) g rfl
  · rfl
  · have hip : ip ∉ Held.nothing.inodes := Finset.notMem_empty ip
    apply (tab_stays (g := Held.nothing.addInode ip) rfl .openFd).seq
    rintro (_ | ⟨f, fd⟩)
    · exact follows_iunlockput rfl hip rfl
    · exact follows_iunlock rfl hip ((tab_stays rfl (.fileSet f _)).seq fun _ => rfl)

theorem sysClose_stays (fd : ℕ) : Stays (sysClose fd) Held.nothing := by
  apply (tab_stays rfl (.fd fd)).seq
  rintro (_ | f)
  · rfl
  · apply (tab_stays rfl (.fdSet fd none)).seq
    intro _
    exact (fileclose_stays f).seq fun _ => rfl

theorem sysDup_stays (fd : ℕ) : Stays (sysDup fd) Held.nothing := by
  apply (tab_stays rfl (.fd fd)).seq
  rintro (_ | f)
  · rfl
  · apply (tab_stays rfl (.fdalloc f)).seq
    rintro (_ | n)
    · rfl
    · apply (tab_stays rfl (.file f)).seq
      intro x
      refine follows_ite.mpr ⟨fun _ => follows_panic rfl (by simp), fun _ => ?_⟩
      exact (tab_stays rfl (.fileSet f _)).seq fun _ => rfl

theorem sysRead_stays (fd n : ℕ) : Stays (sysRead fd n) Held.nothing := by
  apply (tab_stays rfl (.fd fd)).seq
  rintro (_ | f)
  · rfl
  · apply (tab_stays rfl (.file f)).seq
    intro x
    refine follows_ite.mpr ⟨fun _ => rfl, fun _ => ?_⟩
    apply follows_ilock rfl fun _ => rfl
    intro hip
    apply (tab_stays (g := Held.nothing.addInode x.ip) rfl (.file f)).seq
    intro y
    refine ⟨⟨rfl, rfl⟩, fun r _ => ?_⟩
    change Follows calls _ _ (Held.nothing.addInode x.ip)
    cases r with
    | none => exact follows_iunlock rfl hip rfl
    | some l =>
      apply (tab_stays (g := Held.nothing.addInode x.ip) rfl (.fileSet f _)).seq
      intro _
      exact follows_iunlock rfl hip rfl

theorem writeLoop_stays (f n : ℕ) (l : List UInt8) : Stays (writeLoop f n l) Held.nothing := by
  induction n generalizing l with
  | zero => rfl
  | succ n ih =>
    refine follows_ite.mpr ⟨fun _ => rfl, fun _ => ?_⟩
    apply (tab_stays rfl (.file f)).seq
    intro x
    apply follows_beginTrans
    apply follows_ilock_trans rfl rfl
    intro hip
    apply (tab_stays (g := inTrans.addInode x.ip) rfl (.file f)).seq
    intro y
    refine ⟨⟨rfl, rfl, Held.mem_addInode _ _⟩, fun ok _ => ?_⟩
    have hend : (do
        iunlock x.ip
        commitTrans
        if ok = false then pure false else writeLoop f n (l.drop maxWrite) : Fsys Bool).Follows
          calls (fun _ g' => g' = Held.nothing) (inTrans.addInode x.ip) := by
      apply follows_iunlock rfl hip
      apply follows_commitTrans rfl rfl
      exact follows_ite.mpr ⟨fun _ => rfl, fun _ => ih _⟩
    refine follows_ite.mpr ⟨fun _ => ?_, fun _ => hend⟩
    exact (tab_stays (g := inTrans.addInode x.ip) rfl (.fileSet f _)).seq fun _ => hend

theorem filewrite_stays (f : ℕ) (l : List UInt8) : Stays (filewrite f l) Held.nothing := by
  apply (tab_stays rfl (.file f)).seq
  intro x
  exact follows_ite.mpr ⟨fun _ => rfl, fun _ => writeLoop_stays f _ l⟩

theorem sysWrite_stays (fd : ℕ) (l : List UInt8) : Stays (sysWrite fd l) Held.nothing := by
  apply (tab_stays rfl (.fd fd)).seq
  rintro (_ | f)
  · rfl
  · exact filewrite_stays f l

/-! ### Processes -/

theorem closeLoop_stays (n fd : ℕ) : Stays (closeLoop n fd) Held.nothing := by
  induction n generalizing fd with
  | zero => rfl
  | succ n ih =>
    apply (tab_stays rfl (.fd fd)).seq
    rintro (_ | f)
    · exact ih (fd + 1)
    · apply (fileclose_stays f).seq
      intro _
      exact (tab_stays rfl (.fdSet fd none)).seq fun _ => ih (fd + 1)

theorem exit_stays : Stays exit Held.nothing := by
  apply (closeLoop_stays NOFILE 0).seq
  intro _
  apply (tab_stays rfl .cwd).seq
  intro cwd
  exact (iput_stays rfl cwd).seq fun _ => tab_stays rfl (.setCwd none)

theorem fork_stays (q : Slot) : Stays (fork q) Held.nothing := by
  apply (tab_stays rfl .cwd).seq
  intro cwd
  exact (iget_stays rfl cwd).seq fun _ => tab_stays rfl (.fork q)

theorem readAll_stays (ip : ℕ) (reads : List (ℕ × ℕ)) :
    Stays (readAll ip reads) (Held.nothing.addInode ip) := by
  induction reads with
  | nil => rfl
  | cons r reads ih => exact ⟨⟨rfl, rfl⟩, fun _ _ => ih⟩

theorem exec_stays (path : List UInt8) (reads : List (ℕ × ℕ)) :
    Stays (exec path reads) Held.nothing := by
  apply (namei_stays rfl rfl path).seq
  rintro (_ | ip)
  · rfl
  · apply follows_ilock rfl fun _ => rfl
    intro hip
    apply (readAll_stays ip reads).seq
    intro _
    exact follows_iunlockput rfl hip rfl

/-! ### Swapping -/

theorem swapOut_stays (name : List UInt8) (pages : List (List UInt8)) :
    Stays (swapOut name pages) Held.nothing := by
  apply (fileopen_stays name _).seq
  rintro (_ | f)
  · rfl
  · change Stays (outLoop f pages) Held.nothing
    induction pages with
    | nil => exact fileclose_stays f
    | cons page pages ih =>
      apply (filewrite_stays f page).seq
      intro ok
      exact follows_ite.mpr ⟨fun _ => ih, fun _ => rfl⟩

end calls

end Names

end Xv6.Fs
