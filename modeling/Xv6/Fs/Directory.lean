import Xv6.Lib.Runs
import Xv6.Lib.Slots
import Xv6.Fs.Dirents
import Xv6.Fs.Release
import Xv6.Fs.FileBytes

/-! # A directory is a finite map

The live entries of a directory are slots with names of at most `DIRSIZ` bytes (`slot`). No two have the
same name, and `dirlookup`, `dirlink` and the erasing of an entry in `unlink` are lookup, insertion and
removal in a finite map.

The programs run on the bytes of the directory (`dirExec`), where entries are read and written as by
`readi` and `writei`; the kernel with the directory locked and room in the log does the same
(`kernel_dirlink`, `kernel_dropEntry`). -/

namespace Xv6.Fs.Names

open Prog Slots Function Option

/-- Entry `t` of the directory with the contents `x`. -/
def entryAt (x : Node) (t : ℕ) : Dirent := getDirent fun j => x.data (16 * t + j)

/-- The live entries. -/
def slot (x : Node) (t : ℕ) : Option (List UInt8 × ℕ) :=
  if 16 * t < x.stat.size ∧ (entryAt x t).inum ≠ 0 then
    some ((entryAt x t).name, (entryAt x t).inum)
  else none

/-- A directory has whole entries, and is at most as large as a file can be. -/
structure IsDir (x : Node) : Prop where
  type : x.stat.type = T_DIR
  whole : 16 ∣ x.stat.size
  small : x.stat.size ≤ MAXFILE * BSIZE

/-- The operations on the contents of a directory. References to inodes are not part of these. -/
def dirExec : Handler Op Op.Resp Node String
  | .stat _, x => (.ok x.stat, x)
  | .readDe _ off, x => (.ok ((x.read off 16).bind fun l =>
    if l.length = 16 then some (getDirent fun j => l.getD j 0) else none), x)
  | .writeDe _ off e, x =>
    if writable x.stat.size off 16 then (.ok true, x.write off e.bytes) else (.ok false, x)
  | .iget _, x => (.ok (), x)
  | .iput _, x => (.ok (), x)
  | .panic msg, x => (.error msg, x)
  | _, x => (.error "not an operation on a directory", x)

/-- What `unlink` does to the directory: the entry that `dirlookup` finds is erased, as in `erase`. -/
def dropEntry (dp : ℕ) (name : List UInt8) : Fsys Bool := do
  match ← dirlookup dp name with
  | none => pure false
  | some (ip, off) => do
    eraseEntry dp off
    iput ip
    pure true

section
variable {x : Node} {t T i inum dp : ℕ} {e : Dirent} {name name' : List UInt8}

/-! ### Slots -/

theorem slot_eq_some : slot x t = some (name, i) ↔
    16 * t < x.stat.size ∧ i ≠ 0 ∧ entryAt x t = ⟨i, name⟩ := by
  unfold slot
  generalize entryAt x t = e
  obtain ⟨inum, s⟩ := e
  split_ifs with h
  · simp only [some.injEq, Prod.mk.injEq, Dirent.mk.injEq]
    constructor
    · rintro ⟨rfl, rfl⟩
      exact ⟨h.1, h.2, rfl, rfl⟩
    · rintro ⟨-, -, rfl, rfl⟩
      exact ⟨rfl, rfl⟩
  · simp only [Dirent.mk.injEq, false_iff]
    rintro ⟨h1, h2, rfl, -⟩
    exact h ⟨h1, h2⟩

theorem hit_entryAt : hit name (entryAt x t) ↔
    (entryAt x t).inum ≠ 0 ∧ (entryAt x t).name = name.take DIRSIZ := by
  have hlen : (entryAt x t).name.length ≤ DIRSIZ := getDirent_name_length _
  unfold hit nameEq
  rw [List.take_of_length_le hlen, beq_iff_eq, eq_comm (a := List.take _ _)]

/-- A slot with the name is an entry that `dirlookup` takes. -/
theorem slot_hit (h : slot x t = some (name.take DIRSIZ, i)) : hit name (entryAt x t) := by
  obtain ⟨-, h0, he⟩ := slot_eq_some.mp h
  rw [hit_entryAt, he]
  exact ⟨h0, rfl⟩

theorem hit_slot (ht : 16 * t < x.stat.size) (h : hit name (entryAt x t)) :
    slot x t = some (name.take DIRSIZ, (entryAt x t).inum) := by
  obtain ⟨h0, hname⟩ := hit_entryAt.mp h
  exact slot_eq_some.mpr ⟨ht, h0, by rw [← hname]⟩

theorem IsDir.entry_le (h : IsDir x) (ht : 16 * t < x.stat.size) : 16 * t + 16 ≤ MAXFILE * BSIZE := by
  obtain ⟨q, hq⟩ := h.whole
  have hsmall : x.stat.size ≤ 71680 := h.small
  show 16 * t + 16 ≤ 71680
  omega

theorem IsDir.exists_empty (h : IsDir x) : ∃ T, 16 * T ≤ x.stat.size ∧ slot x T = none ∧
    (∀ u < T, (entryAt x u).inum ≠ 0) ∧ (16 * T < x.stat.size → (entryAt x T).inum = 0) := by
  have hex : ∃ T, 16 * T < x.stat.size → (entryAt x T).inum = 0 :=
    ⟨x.stat.size, fun hlt => by omega⟩
  classical
  refine ⟨Nat.find hex, ?_, ?_, fun u hu => ?_, Nat.find_spec hex⟩
  · obtain ⟨q, hq⟩ := h.whole
    have hle : Nat.find hex ≤ q := Nat.find_min' hex fun hlt => by omega
    omega
  · exact if_neg fun hc => hc.2 (Nat.find_spec hex hc.1)
  · exact (Classical.not_imp.mp (Nat.find_min hex hu)).2

theorem slot_write (h : IsDir x) (he : e.Fits) (hT : 16 * T ≤ x.stat.size) :
    slot (x.write (16 * T) e.bytes)
      = Function.update (slot x) T (if e.inum ≠ 0 then some (e.name, e.inum) else none) := by
  have hlen := e.bytes_length
  have hsize : (x.write (16 * T) e.bytes).stat.size = max x.stat.size (16 * T + 16) := by
    rw [← hlen]
    rfl
  funext t
  by_cases ht : t = T
  · subst ht
    have hentry : entryAt (x.write (16 * t) e.bytes) t = e := by
      refine (getDirent_congr fun j hj => ?_).trans (getDirent_byte he)
      unfold Node.write
      dsimp only
      rw [if_pos (by omega), Nat.add_sub_cancel_left, e.bytes_getD hj]
    rw [update_self]
    unfold slot
    rw [hentry, hsize]
    simp only [show 16 * t < max x.stat.size (16 * t + 16) by omega, true_and]
  · have hentry : entryAt (x.write (16 * T) e.bytes) t = entryAt x t := by
      refine getDirent_congr fun j hj => ?_
      unfold Node.write
      dsimp only
      rw [if_neg (by omega)]
    obtain ⟨q, hq⟩ := h.whole
    have hlt : 16 * t < max x.stat.size (16 * T + 16) ↔ 16 * t < x.stat.size := by omega
    rw [update_of_ne ht]
    unfold slot
    rw [hentry, hsize]
    simp only [hlt]

theorem IsDir.write (h : IsDir x) (e : Dirent) (hT : 16 * T + 16 ≤ MAXFILE * BSIZE) :
    IsDir (x.write (16 * T) e.bytes) := by
  have hsize : (x.write (16 * T) e.bytes).stat.size = max x.stat.size (16 * T + 16) := by
    rw [← e.bytes_length]
    rfl
  obtain ⟨q, hq⟩ := h.whole
  refine ⟨h.type, ?_, ?_⟩
  · rw [hsize]
    omega
  · rw [hsize]
    exact max_le h.small hT

/-! ### The programs -/

/-- The handler shows the contents `x` of directory `dp`. -/
structure Serves {σ : Type} (h : Handler Op Op.Resp σ String) (dp : ℕ) (x : Node) (s : σ) : Prop where
  stat : h (.stat dp) s = (.ok x.stat, s)
  reads : Reads h dp (entryAt x) (x.stat.size / 16) s

section
variable {σ : Type} {h : Handler Op Op.Resp σ String} {s s' s'' : σ}

theorem Serves.lookup_there (hs : Serves h dp x s) (hd : IsDir x) (hx : Distinct (slot x))
    (hT : slot x T = some (name.take DIRSIZ, i)) (hget : h (.iget i) s = (.ok (), s')) :
    (dirlookup dp name).run h s = (.ok (some (i, 16 * T)), s') := by
  obtain ⟨hlt, h0, he⟩ := slot_eq_some.mp hT
  have hinum : (entryAt x T).inum = i := by rw [he]
  have hwhole := hd.whole
  rw [← hinum] at hget ⊢
  refine dirlookup_found hs.stat hd.type (hs.reads.mono (by omega)) (slot_hit hT) (fun u hu hh => ?_) hget hlt
  have hslot := hit_slot (by omega) hh
  exact absurd (hx u T _ _ _ hslot hT) (by omega)

theorem not_hit (habs : ∀ i, ¬ Maps (slot x) (name.take DIRSIZ) i) (ht : t < x.stat.size / 16) :
    ¬ hit name (entryAt x t) :=
  fun hh => habs _ ⟨t, hit_slot (by omega) hh⟩

section
variable (hs : Serves h dp x s) (hd : IsDir x)
include hs hd

theorem Serves.lookup_absent (habs : ∀ i, ¬ Maps (slot x) (name.take DIRSIZ) i) :
    (dirlookup dp name).run h s = (.ok none, s) := by
  have hsize : x.stat.size = 16 * (x.stat.size / 16) := (Nat.mul_div_cancel' hd.whole).symm
  exact dirlookup_none hs.stat hd.type hsize hs.reads fun u hu => not_hit habs hu

theorem Serves.link_there (hx : Distinct (slot x))
    (hT : slot x T = some (name.take DIRSIZ, i)) (hget : h (.iget i) s = (.ok (), s'))
    (hput : h (.iput i) s' = (.ok (), s'')) : (dirlink dp name inum).run h s = (.ok false, s'') := by
  have hiput : (iput i).run h s' = (.ok (), s'') := run_op hput
  rw [dirlink, run_seq (hs.lookup_there hd hx hT hget)]
  dsimp only
  rw [run_seq hiput]
  rfl

theorem Serves.link_new (habs : ∀ i, ¬ Maps (slot x) (name.take DIRSIZ) i) (hT : 16 * T ≤ x.stat.size)
    (hfull : ∀ u < T, (entryAt x u).inum ≠ 0) (hempty : 16 * T < x.stat.size → (entryAt x T).inum = 0)
    (hwrite : h (.writeDe dp (16 * T) ⟨inum, name.take DIRSIZ⟩) s = (.ok true, s')) :
    (dirlink dp name inum).run h s = (.ok true, s') := by
  have hsize : x.stat.size = 16 * (x.stat.size / 16) := (Nat.mul_div_cancel' hd.whole).symm
  exact dirlink_new hs.stat hd.type hsize hs.reads (fun u hu => not_hit habs hu) (by omega) hfull
    (fun hlt => hempty (by omega)) hwrite

theorem Serves.drop_there (hx : Distinct (slot x))
    (hT : slot x T = some (name.take DIRSIZ, i)) (hget : h (.iget i) s = (.ok (), s'))
    {s3 : σ} (hwrite : h (.writeDe dp (16 * T) Dirent.zero) s' = (.ok true, s''))
    (hput : h (.iput i) s'' = (.ok (), s3)) : (dropEntry dp name).run h s = (.ok true, s3) := by
  have hde : (writeDe dp (16 * T) Dirent.zero).run h s' = (.ok true, s'') := run_op hwrite
  have hiput : (iput i).run h s'' = (.ok (), s3) := run_op hput
  have herase : (eraseEntry dp (16 * T)).run h s' = (.ok (), s'') := run_seq hde _
  rw [dropEntry, run_seq (hs.lookup_there hd hx hT hget)]
  dsimp only
  rw [run_seq herase]
  exact run_seq hiput _

theorem Serves.drop_absent (habs : ∀ i, ¬ Maps (slot x) (name.take DIRSIZ) i) :
    (dropEntry dp name).run h s = (.ok false, s) := by
  rw [dropEntry, run_seq (hs.lookup_absent hd habs)]
  rfl

end

end

/-! ### On the bytes of the directory -/

theorem IsDir.read (hd : IsDir x) (ht : t < x.stat.size / 16) :
    ((x.read (16 * t) 16).bind fun l =>
      if l.length = 16 then some (getDirent fun j => l.getD j 0) else none) = some (entryAt x t) := by
  have hsmall : x.stat.size ≤ 71680 := hd.small
  unfold Node.read
  rw [if_neg (by omega), if_neg (by omega), bind_some, if_pos (by simp)]
  refine congrArg some (getDirent_congr fun j hj => ?_)
  simp [hj]

theorem dirExec_serves (hd : IsDir x) : Serves dirExec dp x x :=
  ⟨rfl, fun t ht => by rw [dirExec, hd.read ht]⟩

theorem dirExec_write (hT : 16 * T + 16 ≤ MAXFILE * BSIZE) (hle : 16 * T ≤ x.stat.size) :
    dirExec (.writeDe dp (16 * T) e) x = (.ok true, x.write (16 * T) e.bytes) := by
  have hT' : 16 * T + 16 ≤ 71680 := hT
  have hw : writable x.stat.size (16 * T) 16 = true := by
    unfold writable
    exact decide_eq_true ⟨hle, by omega, hT⟩
  rw [dirExec, if_pos hw]

/-- What `dirlookup` answers: the inode number, if there is an entry. -/
def lookup (dp : ℕ) (x : Node) (name : List UInt8) : Except String (Option ℕ) :=
  ((dirlookup dp name).run dirExec x).1.map (Option.map Prod.fst)

theorem lookup_of_maps (hd : IsDir x) (hx : Distinct (slot x)) (h : Maps (slot x) (name.take DIRSIZ) i) :
    lookup dp x name = .ok (some i) := by
  obtain ⟨T, hT⟩ := h
  rw [lookup, (dirExec_serves hd).lookup_there hd hx hT rfl]
  rfl

theorem lookup_of_absent (hd : IsDir x) (h : ∀ i, ¬ Maps (slot x) (name.take DIRSIZ) i) :
    lookup dp x name = .ok none := by
  rw [lookup, (dirExec_serves hd).lookup_absent hd h]
  rfl

/-- Two directories with the same entries for a name. -/
theorem lookup_congr {x' : Node} (hd : IsDir x) (hx : Distinct (slot x)) (hd' : IsDir x')
    (hx' : Distinct (slot x'))
    (h : ∀ i, Maps (slot x') (name.take DIRSIZ) i ↔ Maps (slot x) (name.take DIRSIZ) i) :
    lookup dp x' name = lookup dp x name := by
  by_cases hm : ∃ i, Maps (slot x) (name.take DIRSIZ) i
  · obtain ⟨i, hm⟩ := hm
    rw [lookup_of_maps hd hx hm, lookup_of_maps hd' hx' ((h i).mpr hm)]
  · have habs := not_exists.mp hm
    rw [lookup_of_absent hd habs, lookup_of_absent hd' fun i => mt (h i).mp (habs i)]

theorem nameEq_iff : nameEq name' name = true ↔ name'.take DIRSIZ = name.take DIRSIZ := by
  unfold nameEq
  rw [beq_iff_eq]

/-- There is a live entry for `name`. -/
def Live (x : Node) (name : List UInt8) : Prop := ∃ t, 16 * t < x.stat.size ∧ hit name (entryAt x t)

theorem live_iff : Live x name ↔ ∃ i, Maps (slot x) (name.take DIRSIZ) i := by
  constructor
  · rintro ⟨t, ht, hh⟩
    exact ⟨_, t, hit_slot ht hh⟩
  · rintro ⟨i, t, ht⟩
    exact ⟨t, (slot_eq_some.mp ht).1, slot_hit ht⟩

theorem Live.absent (h : ¬ Live x name) (i : ℕ) : ¬ Maps (slot x) (name.take DIRSIZ) i :=
  not_exists.mp (mt live_iff.mpr h) i

/-- The invariant of a directory. -/
structure Sound (x : Node) : Prop where
  dir : IsDir x
  distinct : Distinct (slot x)

theorem link_live (hs : Sound x) (hlive : Live x name) :
    (dirlink dp name inum).run dirExec x = (.ok false, x) := by
  obtain ⟨i, T, hT⟩ := live_iff.mp hlive
  exact (dirExec_serves hs.dir).link_there hs.dir hs.distinct hT rfl rfl

theorem fits_entry (hinum : inum < 65536) (hname : (0 : UInt8) ∉ name) :
    (Dirent.mk inum (name.take DIRSIZ)).Fits :=
  ⟨hinum, List.length_take_le _ _, fun h => hname (List.mem_of_mem_take h)⟩

theorem Sound.exists_place (hs : Sound x) (hsize : x.stat.size < MAXFILE * BSIZE) :
    ∃ T, 16 * T ≤ x.stat.size ∧ 16 * T + 16 ≤ MAXFILE * BSIZE ∧ slot x T = none ∧
      (∀ u < T, (entryAt x u).inum ≠ 0) ∧ (16 * T < x.stat.size → (entryAt x T).inum = 0) := by
  obtain ⟨T, hle, hnone, hfull, hempty⟩ := hs.dir.exists_empty
  have hsize' : x.stat.size < 71680 := hsize
  refine ⟨T, hle, ?_, hnone, hfull, hempty⟩
  show 16 * T + 16 ≤ 71680
  omega

theorem Sound.put (dp : ℕ) (hs : Sound x) (hlive : ¬ Live x name) (hinum : 1 ≤ inum ∧ inum < 65536)
    (hname : (0 : UInt8) ∉ name) (hle : 16 * T ≤ x.stat.size) (hT : 16 * T + 16 ≤ MAXFILE * BSIZE)
    (hnone : slot x T = none) :
    Sound (x.write (16 * T) (Dirent.mk inum (name.take DIRSIZ)).bytes) ∧
      ∀ name', lookup dp (x.write (16 * T) (Dirent.mk inum (name.take DIRSIZ)).bytes) name'
        = if nameEq name' name then .ok (some inum) else lookup dp x name' := by
  have habs := Live.absent hlive
  have hslot := slot_write hs.dir (fits_entry hinum.2 hname) hle
  rw [if_pos (show inum ≠ 0 by omega)] at hslot
  have hdir := hs.dir.write (Dirent.mk inum (name.take DIRSIZ)) hT
  have hdist : Distinct (slot (x.write (16 * T) (Dirent.mk inum (name.take DIRSIZ)).bytes)) := by
    rw [hslot]
    exact hs.distinct.put habs
  refine ⟨⟨hdir, hdist⟩, fun name' => ?_⟩
  split_ifs with hn
  · refine lookup_of_maps hdir hdist ?_
    rw [nameEq_iff.mp hn, hslot]
    exact ⟨T, update_self ..⟩
  · refine lookup_congr hs.dir hs.distinct hdir hdist fun i => ?_
    have hne := mt nameEq_iff.mpr hn
    rw [hslot, maps_put hnone habs]
    simp [hne]

theorem Sound.drop (dp : ℕ) (hs : Sound x) (hT : slot x T = some (name.take DIRSIZ, i)) :
    Sound (x.write (16 * T) Dirent.zero.bytes) ∧
      ∀ name', lookup dp (x.write (16 * T) Dirent.zero.bytes) name'
        = if nameEq name' name then .ok none else lookup dp x name' := by
  obtain ⟨hlt, -, -⟩ := slot_eq_some.mp hT
  have hslot := slot_write hs.dir Dirent.zero_fits hlt.le
  rw [if_neg (by decide)] at hslot
  have hdir := hs.dir.write Dirent.zero (hs.dir.entry_le hlt)
  have hdist : Distinct (slot (x.write (16 * T) Dirent.zero.bytes)) := by
    rw [hslot]
    exact hs.distinct.drop
  refine ⟨⟨hdir, hdist⟩, fun name' => ?_⟩
  split_ifs with hn
  · refine lookup_of_absent hdir fun j hj => ?_
    rw [nameEq_iff.mp hn, hslot, hs.distinct.maps_drop hT] at hj
    exact hj.1 rfl
  · refine lookup_congr hs.dir hs.distinct hdir hdist fun j => ?_
    have hne := mt nameEq_iff.mpr hn
    rw [hslot, hs.distinct.maps_drop hT]
    simp [hne]

/-! ### In the kernel -/

/-- The operations as the kernel does them. -/
def kexec (p : Slot) : Handler Op Op.Resp State String := fun o k => (impl o).run (Fs.exec p) k

theorem kern_run {α : Type} (p : Slot) (q : Fsys α) (k : State) :
    q.kern.run (Fs.exec p) k = q.run (kexec p) k :=
  run_inline (Fs.exec p) impl q k

/-- The kernel in a transaction, with directory `dp` locked. Its contents are `x`, and there is room for
an entry on the disk and in the log. -/
structure Ready (sb : Superblock) (S : Set ℕ) (c : ℕ → Block) (dp : ℕ) (x : Node) (k : State) : Prop where
  log : Logged sb.logStart sb.nlog c k
  busy : k.log.busy = true
  settled : Settled sb S k.inode (k.home sb)
  inum : dp < sb.inodeEnd
  there : (k.inode dp).There
  contents : nodes sb k.inode (k.home sb) dp = x
  blocks : placesOf (x.stat.size + 16) - placesOf x.stat.size ≤ room sb (k.home sb)
  fits : ∀ T, 16 * T ≤ x.stat.size → LogRoom sb k dp (16 * T) 16

/-- The kernel does what the program does on the bytes of directory `dp`, and leaves the other inodes
alone. -/
def KernelAgrees {α : Type} (q : Fsys α) (dp : ℕ) (x : Node) : Prop :=
  ∀ sb S c k p, Ready sb S c dp x k → ∃ a x' k', q.run dirExec x = (.ok a, x') ∧
    q.kern.run (Fs.exec p) k = (.ok a, k') ∧ Settled sb S k'.inode (k'.home sb) ∧
    nodes sb k'.inode (k'.home sb) = Function.update (nodes sb k.inode (k.home sb)) dp x'

section
variable {sb : Superblock} {S : Set ℕ} {c : ℕ → Block} {k k' : State} {p : Slot}

theorem Ready.serves (h : Ready sb S c dp x k) (hd : IsDir x) : Serves (kexec p) dp x k := by
  refine ⟨?_, fun t ht => ?_⟩
  · rw [← h.contents, h.settled.size h.inum h.there]
    rfl
  · have hthru : (readFile dp (16 * t) 16).thru (Fs.exec p) (fun _ => True) _ (fun _ _ => False) k :=
      readFile_thru trivial h.settled h.inum h.there
    obtain ⟨o, k', hrun, rfl, ho⟩ := exists_run ((thru_iff _).mp hthru).2
    show (readFile dp (16 * t) 16 >>= _).run (Fs.exec p) k' = _
    rw [run_seq hrun, ho, h.contents, ← hd.read ht]
    rfl

/-- The inodes keep their contents when fewer copies are valid. -/
theorem Settled.fewer {I I' : ℕ → Cached} {H : ℕ → Block} (h : Settled sb S I H)
    (hI : ∀ j, (I' j).There → (I j).There ∧ (I' j).din = (I j).din) :
    Settled sb S I' H ∧ nodes sb I' H = nodes sb I H ∧
      ptrs sb (view I' H) H = ptrs sb (view I H) H :=
  h.recache I' fun j hj ht => by
    obtain ⟨ht', e⟩ := hI j ht
    rw [e]
    exact h.synced j hj ht'

theorem addRef_there {y : Cached} : y.addRef.There ↔ y.There := by
  unfold Cached.addRef Cached.There
  simp

theorem Ready.iget (h : Ready sb S c dp x k) (i : ℕ) :
    Ready sb S c dp x (k.setInode i (k.inode i).addRef) ∧
      nodes sb (k.setInode i (k.inode i).addRef).inode (k.home sb) = nodes sb k.inode (k.home sb) := by
  have hI : ∀ j, ((k.setInode i (k.inode i).addRef).inode j).There ↔ (k.inode j).There := fun j => by
    by_cases e : j = i
    · subst e
      rw [State.setInode_inode, update_self, addRef_there]
    · rw [State.setInode_inode, update_of_ne e]
  have hdin : ∀ j, ((k.setInode i (k.inode i).addRef).inode j).din = (k.inode j).din := fun j => by
    by_cases e : j = i
    · subst e
      rw [State.setInode_inode, update_self]
      rfl
    · rw [State.setInode_inode, update_of_ne e]
  obtain ⟨hset, hnodes, hptrs⟩ := Settled.fewer h.settled fun j ht => ⟨(hI j).mp ht, hdin j⟩
  obtain ⟨g1, g2, g3, g4, g5, g6, g7, g8⟩ := h.log
  refine ⟨⟨⟨g1, g2, g3, g4, g5, g6, g7, g8⟩, h.busy, hset, h.inum, (hI dp).mpr h.there,
    (congrFun hnodes dp).trans h.contents, h.blocks, fun T hT => ?_⟩, hnodes⟩
  have hroom := h.fits T hT
  unfold LogRoom rangeSectors absent at hroom ⊢
  rw [home_setInode, hptrs]
  exact hroom

theorem iput_after_iget {I : ℕ → Cached} (hrefs : SameRefs (Function.update I i (I i).addRef) k'.inode) :
    kexec p (.iput i) k' = (.ok (), k'.setRef i ((k'.inode i).ref - 1)) := by
  have hlast : ¬ k'.lastRef i := by
    rintro ⟨h1, hv, -⟩
    obtain ⟨hr, hv'⟩ := hrefs i
    rw [update_self] at hr hv'
    rw [hr] at h1
    rw [hv'] at hv
    simp only [Cached.addRef, ne_eq, Bool.and_eq_true, decide_eq_true_eq] at h1 hv
    omega
  show (op (.iputStart i) _ : Kern Unit).run (Fs.exec p) k' = _
  have hstart : Fs.exec p (.iputStart i) k' = (.ok false, k'.setRef i ((k'.inode i).ref - 1)) := by
    rw [Fs.exec, if_neg hlast]
  rw [run, hstart]
  rfl

theorem setRef_fewer (k : State) (i : ℕ) (j : ℕ) (h : ((k.setRef i ((k.inode i).ref - 1)).inode j).There) :
    (k.inode j).There ∧ ((k.setRef i ((k.inode i).ref - 1)).inode j).din = (k.inode j).din := by
  by_cases e : j = i
  · subst e
    simp only [State.setRef, State.setInode_inode, update_self] at h ⊢
    obtain ⟨hv, hr⟩ := h
    dsimp only at hv hr
    exact ⟨⟨hv, by omega⟩, trivial⟩
  · simp only [State.setRef, State.setInode_inode, update_of_ne e] at h ⊢
    exact ⟨h, trivial⟩

theorem Ready.write (h : Ready sb S c dp x k) (hT : 16 * T + 16 ≤ MAXFILE * BSIZE)
    (hle : 16 * T ≤ x.stat.size) (e : Dirent) :
    ∃ k', kexec p (.writeDe dp (16 * T) e) k = (.ok true, k') ∧ SameRefs k.inode k'.inode ∧
      Settled sb S k'.inode (k'.home sb) ∧ nodes sb k'.inode (k'.home sb)
        = Function.update (nodes sb k.inode (k.home sb)) dp (x.write (16 * T) e.bytes) := by
  have hlen := e.bytes_length
  have hT' : 16 * T + 16 ≤ 71680 := hT
  have hok : ¬ refused (nodes sb k.inode (k.home sb) dp).stat.size (16 * T) e.bytes.length := by
    rw [h.contents, hlen]
    unfold refused
    omega
  have hfree : placesOf (16 * T + e.bytes.length)
      - placesOf (nodes sb k.inode (k.home sb) dp).stat.size ≤ room sb (k.home sb) := by
    rw [h.contents, hlen]
    exact (Nat.sub_le_sub_right (placesOf_mono (by omega)) _).trans h.blocks
  obtain ⟨k', W', hrun, hw⟩ := writeFile_accepted (p := p) h.log h.busy h.settled h.inum h.there hok hfree
    (hlen ▸ h.fits T hle)
  refine ⟨k', hrun, hw.refs, hw.settled, ?_⟩
  rw [hw.nodes, if_pos rfl, h.contents]

theorem kernel_dirlookup (hs : Sound x) (name : List UInt8) : KernelAgrees (dirlookup dp name) dp x := by
  intro sb S c k p h
  simp only [kern_run]
  by_cases hlive : Live x name
  · obtain ⟨i, T, hT⟩ := live_iff.mp hlive
    obtain ⟨hk, hnodes⟩ := h.iget i
    refine ⟨some (i, 16 * T), x, _, (dirExec_serves hs.dir).lookup_there hs.dir hs.distinct hT rfl,
      (h.serves hs.dir).lookup_there hs.dir hs.distinct hT rfl, hk.settled, ?_⟩
    rw [← h.contents, update_eq_self]
    exact hnodes
  · refine ⟨none, x, k, (dirExec_serves hs.dir).lookup_absent hs.dir (Live.absent hlive),
      (h.serves hs.dir).lookup_absent hs.dir (Live.absent hlive), h.settled, ?_⟩
    rw [← h.contents, update_eq_self]

theorem kernel_dirlink (hs : Sound x) (hsize : x.stat.size < MAXFILE * BSIZE) (name : List UInt8)
    (inum : ℕ) : KernelAgrees (dirlink dp name inum) dp x := by
  intro sb S c k p h
  simp only [kern_run]
  by_cases hlive : Live x name
  · obtain ⟨i, T, hT⟩ := live_iff.mp hlive
    have hput : kexec p (.iput i) (k.setInode i (k.inode i).addRef) = _ :=
      iput_after_iget (I := k.inode) (.refl _)
    obtain ⟨hk, hnodes⟩ := h.iget i
    obtain ⟨hset, hnodes', -⟩ := Settled.fewer hk.settled (setRef_fewer _ i)
    refine ⟨false, x, _, link_live hs hlive,
      (h.serves hs.dir).link_there hs.dir hs.distinct hT rfl hput, hset, ?_⟩
    rw [← h.contents, update_eq_self]
    exact hnodes'.trans hnodes
  · obtain ⟨T, hle, hT, -, hfull, hempty⟩ := hs.exists_place hsize
    obtain ⟨k', hwrite, -, hset, hnodes⟩ := h.write (p := p) hT hle ⟨inum, name.take DIRSIZ⟩
    exact ⟨true, _, k', (dirExec_serves hs.dir).link_new hs.dir (Live.absent hlive) hle hfull hempty
        (dirExec_write hT hle),
      (h.serves hs.dir).link_new hs.dir (Live.absent hlive) hle hfull hempty hwrite, hset, hnodes⟩

theorem kernel_dropEntry (hs : Sound x) (name : List UInt8) : KernelAgrees (dropEntry dp name) dp x := by
  intro sb S c k p h
  simp only [kern_run]
  by_cases hlive : Live x name
  · obtain ⟨i, T, hT⟩ := live_iff.mp hlive
    have hlt := (slot_eq_some.mp hT).1
    obtain ⟨hk, hnodes1⟩ := h.iget i
    have hmax := hs.dir.entry_le hlt
    obtain ⟨k2, hwrite, hrefs, hset2, hnodes2⟩ := hk.write (p := p) hmax hlt.le Dirent.zero
    obtain ⟨hset, hnodes, -⟩ := Settled.fewer hset2 (setRef_fewer k2 i)
    refine ⟨true, _, _, (dirExec_serves hs.dir).drop_there hs.dir hs.distinct hT rfl
      (dirExec_write hmax hlt.le) rfl, (h.serves hs.dir).drop_there hs.dir hs.distinct hT rfl hwrite
      (iput_after_iget (I := k.inode) hrefs), hset, ?_⟩
    refine hnodes.trans (hnodes2.trans ?_)
    rw [home_setInode, hnodes1]
  · refine ⟨false, x, k, (dirExec_serves hs.dir).drop_absent hs.dir (Live.absent hlive),
      (h.serves hs.dir).drop_absent hs.dir (Live.absent hlive), h.settled, ?_⟩
    rw [← h.contents, update_eq_self]

end

end

/-! ### Runs -/

/-- The changes of a directory. -/
inductive Change where
  | link (name : List UInt8) (inum : ℕ)
  | drop (name : List UInt8)

def Change.prog (dp : ℕ) : Change → Fsys Bool
  | .link name inum => dirlink dp name inum
  | .drop name => dropEntry dp name

/-- Names have no NUL, inode numbers are not 0 and fit in an entry, and the directory is not at its
largest size. -/
def Change.Ok (x : Node) : Change → Prop
  | .link name inum => (0 : UInt8) ∉ name ∧ 1 ≤ inum ∧ inum ≤ 65535 ∧ x.stat.size < MAXFILE * BSIZE
  | .drop _ => True

/-- The directory after a change. -/
def change (dp : ℕ) (x : Node) (e : Change) : Option Node :=
  match (e.prog dp).run dirExec x with
  | (.ok _, x') => some x'
  | (.error _, _) => none

section
variable {x x0 : Node} {dp inum : ℕ} {name : List UInt8}

theorem link_absent (dp : ℕ) (hs : Sound x) (hok : Change.Ok x (.link name inum)) (hlive : ¬ Live x name) :
    ∃ x', (dirlink dp name inum).run dirExec x = (.ok true, x') ∧ Sound x' ∧
      ∀ name', lookup dp x' name' = if nameEq name' name then .ok (some inum) else lookup dp x name' := by
  obtain ⟨hname, h1, h2, hsize⟩ := hok
  obtain ⟨T, hle, hT, hnone, hfull, hempty⟩ := hs.exists_place hsize
  obtain ⟨hs', hlook⟩ := hs.put dp hlive ⟨h1, by omega⟩ hname hle hT hnone
  exact ⟨_, (dirExec_serves hs.dir).link_new hs.dir (Live.absent hlive) hle hfull hempty
    (dirExec_write hT hle), hs', hlook⟩

theorem drop_live (dp : ℕ) (hs : Sound x) (hlive : Live x name) :
    ∃ x', (dropEntry dp name).run dirExec x = (.ok true, x') ∧ Sound x' ∧
      ∀ name', lookup dp x' name' = if nameEq name' name then .ok none else lookup dp x name' := by
  obtain ⟨i, T, hT⟩ := live_iff.mp hlive
  have hlt := (slot_eq_some.mp hT).1
  obtain ⟨hs', hlook⟩ := hs.drop dp hT
  exact ⟨_, (dirExec_serves hs.dir).drop_there hs.dir hs.distinct hT rfl
    (dirExec_write (hs.dir.entry_le hlt) hlt.le) rfl, hs', hlook⟩

theorem change_sound {e : Change} {x' : Node} (hs : Sound x) (hok : e.Ok x)
    (h : change dp x e = some x') : Sound x' := by
  have hrun : ∀ {b : Bool} {y : Node}, (e.prog dp).run dirExec x = (.ok b, y) → Sound y → Sound x' := by
    intro b y hr hy
    unfold change at h
    rw [hr] at h
    exact some.inj h ▸ hy
  cases e with
  | link name inum =>
    by_cases hlive : Live x name
    · exact hrun (link_live hs hlive) hs
    · obtain ⟨y, hr, hy, -⟩ := link_absent dp hs hok hlive
      exact hrun hr hy
  | drop name =>
    by_cases hlive : Live x name
    · obtain ⟨y, hr, hy, -⟩ := drop_live dp hs hlive
      exact hrun hr hy
    · exact hrun ((dirExec_serves hs.dir).drop_absent hs.dir (Live.absent hlive)) hs

theorem Sound.of_empty (htype : x.stat.type = T_DIR) (hsize : x.stat.size = 0) : Sound x := by
  refine ⟨⟨htype, hsize ▸ dvd_zero 16, hsize ▸ Nat.zero_le _⟩, fun i j k v w hi => ?_⟩
  have hlt := (slot_eq_some.mp hi).1
  omega

/-- **Directories are finite maps** from names of `DIRSIZ` bytes to inode numbers. -/
theorem directory_map (dp : ℕ) (h₀ : Sound x0) (h : Runs.Reaches (change dp) (fun x e => e.Ok x) x0 x) :
    Distinct (slot x) ∧
    (∀ name inum, Change.Ok x (.link name inum) →
      ((dirlink dp name inum).run dirExec x = (.ok false, x) ↔ Live x name) ∧
      (¬ Live x name → ∃ x', (dirlink dp name inum).run dirExec x = (.ok true, x') ∧
        ∀ name', lookup dp x' name'
          = if nameEq name' name then .ok (some inum) else lookup dp x name') ∧
      KernelAgrees (dirlink dp name inum) dp x) ∧
    (∀ name, (Live x name → ∃ x', (dropEntry dp name).run dirExec x = (.ok true, x') ∧
        ∀ name', lookup dp x' name' = if nameEq name' name then .ok none else lookup dp x name') ∧
      (¬ Live x name → lookup dp x name = .ok none) ∧
      KernelAgrees (dropEntry dp name) dp x ∧ KernelAgrees (dirlookup dp name) dp x) := by
  have hs : Sound x := h.invariant (fun _ _ _ hs hok he => change_sound hs hok he) h₀
  refine ⟨hs.distinct, fun name inum hok => ⟨⟨fun hrun => ?_, link_live hs⟩, fun hlive => ?_,
    kernel_dirlink hs hok.2.2.2 name inum⟩, fun name => ⟨fun hlive => ?_,
    fun hlive => lookup_of_absent hs.dir (Live.absent hlive), kernel_dropEntry hs name,
    kernel_dirlookup hs name⟩⟩
  · by_contra hlive
    obtain ⟨x', hrun', -⟩ := link_absent dp hs hok hlive
    rw [hrun'] at hrun
    cases hrun
  · obtain ⟨x', hrun, -, hlook⟩ := link_absent dp hs hok hlive
    exact ⟨x', hrun, hlook⟩
  · obtain ⟨x', hrun, -, hlook⟩ := drop_live dp hs hlive
    exact ⟨x', hrun, hlook⟩

/-- An empty directory. -/
def emptyDir : Node := ⟨⟨T_DIR, 0, 0, 1, 0⟩, fun _ => 0⟩

/-- A name of fifteen bytes is linked in an empty directory, and found under another last byte. -/
theorem directory_map_link : ∃ x,
    (dirlink 1 [1, 2, 3, 4, 5, 6, 7, 8, 9, 10, 11, 12, 13, 14, 15] 7).run dirExec emptyDir = (.ok true, x) ∧
    lookup 1 x [1, 2, 3, 4, 5, 6, 7, 8, 9, 10, 11, 12, 13, 14, 16] = .ok (some 7) := by
  have hnew : ¬ Live emptyDir [1, 2, 3, 4, 5, 6, 7, 8, 9, 10, 11, 12, 13, 14, 15] := by
    rintro ⟨t, ht, -⟩
    exact absurd ht (Nat.not_lt_zero _)
  obtain ⟨-, hlink, -⟩ := directory_map 1 (.of_empty rfl rfl) (.refl emptyDir)
  obtain ⟨x, hrun, hlook⟩ := (hlink _ 7 ⟨by decide, by decide, by decide, by decide⟩).2.1 hnew
  exact ⟨x, hrun, hlook _⟩

end

end Xv6.Fs.Names
