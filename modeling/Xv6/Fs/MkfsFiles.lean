import Xv6.Fs.MkfsImage

/-! # The files of an image

`Made S m root fs` says that the image has a root directory with the bytes `root` and files with the
contents `fs`, in inodes 2, 3, …, and that exactly the blocks for these are taken. `addFile` adds a file
and its entry; `mkfs` fails only if the blocks are not enough, a file is too large, or a name has a slash.
The contents are those of the first 206 files; there may be up to eight more. -/

namespace Xv6.Fs.Mkfs

open Img Function List Option

/-- An inode that `mkfs` makes. -/
def fileNode (type : ℕ) (l : List UInt8) : Node := ⟨⟨type, 0, 0, 1, l.length⟩, fun o => l.getD o 0⟩

/-- The inodes of an image. -/
def madeNodes (root : List UInt8) (fs : List (List UInt8)) : ℕ → Node
  | 0 => Node.free
  | 1 => fileNode T_DIR root
  | i + 2 => match fs[i]? with
    | some l => fileNode T_FILE l
    | none => Node.free

theorem madeNodes_file {root : List UInt8} {fs : List (List UInt8)} {i : ℕ} (h : i < fs.length) :
    madeNodes root fs (i + 2) = fileNode T_FILE fs[i] := by
  simp only [madeNodes, getElem?_eq_getElem h]

theorem madeNodes_none {root : List UInt8} {fs : List (List UInt8)} {i : ℕ} (h : fs.length ≤ i) :
    madeNodes root fs (i + 2) = Node.free := by
  simp only [madeNodes, getElem?_eq_none h]

/-- The number of blocks of the files. -/
def blockCount (fs : List (List UInt8)) : ℕ := (fs.map fun l => placesOf l.length).sum

/-- The image of a root directory and files. -/
structure Made (S : Set ℕ) (m : Img) (root : List UInt8) (fs : List (List UInt8)) : Prop where
  good : m.Good S
  early : fs.length ≤ 206 → S = ∅ ∧ m.nodes 0 = Node.free
  nodes : ∀ i, 1 ≤ i → i < 208 → m.nodes i = madeNodes root fs i
  inodes : m.freeinode = fs.length + 2
  blocks : m.freeblock = 29 + placesOf root.length + blockCount fs
  super : m.disk 1 = putSuper sb

section
variable {S : Set ℕ} {m : Img} {root l : List UInt8} {fs : List (List UInt8)} {type i : ℕ}

theorem fileNode_write (l l' : List UInt8) :
    (fileNode type l).write l.length l' = fileNode type (l ++ l') := by
  unfold fileNode Node.write
  simp only [length_append, Node.mk.injEq, Stat.mk.injEq, true_and]
  refine ⟨by omega, funext fun o => ?_⟩
  by_cases h : l.length ≤ o
  · by_cases h' : o < l.length + l'.length
    · rw [if_pos ⟨h, h'⟩, getD_append_right _ _ _ _ h]
    · rw [if_neg (by omega), getD_eq_default _ _ h, getD_eq_default _ _ (by simp; omega)]
  · rw [if_neg (by omega), getD_append _ _ _ _ (by omega)]

/-- The inode that stands for inode `n`. -/
def slotOf (n : ℕ) : ℕ := if n < 208 then n else 0

theorem update_madeNodes {fs' : List (List UInt8)} {f : ℕ → Node} (h : fs' = fs ∨ ∃ l', fs' = fs ++ [l'])
    (hf : ∀ i, 1 ≤ i → i < 208 → f i = madeNodes root fs' i) (h1 : 1 ≤ i) (h2 : i < 208) :
    update f (slotOf (fs.length + 2)) (fileNode T_FILE l) i = madeNodes root (fs ++ [l]) i := by
  have hslot : i = slotOf (fs.length + 2) ↔ i = fs.length + 2 := by
    unfold slotOf
    split_ifs <;> omega
  by_cases e : i = fs.length + 2
  · rw [← hslot.mpr e, update_self, e]
    simp [madeNodes]
  · rw [update_of_ne (mt hslot.mp e), hf i h1 h2]
    match i with
    | 1 => rfl
    | i + 2 =>
      have hget : fs'[i]? = (fs ++ [l])[i]? := by
        obtain rfl | ⟨l', rfl⟩ := h
        · by_cases hi : i < fs'.length
          · rw [getElem?_append_left hi]
          · rw [getElem?_eq_none (by omega), getElem?_eq_none (by simp; omega)]
        · by_cases hi : i < fs.length
          · rw [getElem?_append_left hi, getElem?_append_left hi]
          · rw [getElem?_eq_none (by simp; omega), getElem?_eq_none (by simp; omega)]
      simp only [madeNodes, hget]

theorem update_madeNodes_root {root' : List UInt8} {f : ℕ → Node}
    (hf : ∀ i, 1 ≤ i → i < 208 → f i = madeNodes root fs i) (h1 : 1 ≤ i) (h2 : i < 208) :
    update f 1 (fileNode T_DIR root') i = madeNodes root' fs i := by
  match i with
  | 1 => rw [update_self]; rfl
  | i + 2 => rw [update_of_ne (by omega), hf _ h1 h2]; rfl

/-! ### `ialloc` -/

theorem newInode_fits (h : type < 65536) :
    ({ Dinode.zero with type := type, nlink := 1 } : Dinode).Fits :=
  ⟨h, Dinode.zero_fits.major, Dinode.zero_fits.minor, (by decide : 1 < 65536),
    Dinode.zero_fits.size, Dinode.zero_fits.addrs, Dinode.zero_fits.rest⟩

theorem inum_slotOf {n : ℕ} (h1 : 1 ≤ n) (h2 : n < 216) (hm : m.freeinode = n + 1) :
    m.inum (slotOf n) = n := by
  unfold inum slotOf late
  split_ifs <;> omega

/-- The inode that inode 0 stands for becomes another one. -/
theorem full_next (d : Dinode) : putInode { m with freeinode := m.freeinode + 1 }.full (slotOf m.freeinode) d
    = putInode m.full (slotOf m.freeinode) d := by
  by_cases h : m.freeinode < 208
  · have hlate : ({ m with freeinode := m.freeinode + 1 } : Img).late = m.late := by
      unfold late
      dsimp only
      omega
    have hfull : ({ m with freeinode := m.freeinode + 1 } : Img).full = m.full := funext fun t =>
      full_congr rfl (fun _ => rfl) fun _ => by rw [hlate]
    rw [hfull]
  · rw [slotOf, if_neg h]
    funext t
    by_cases e : t = 2
    · rw [e]
      exact (putDinode_put _ _ _ _).trans (putDinode_put _ _ _ _).symm
    · rw [putInode_of_ne (show t ≠ IBLOCK 0 from e), putInode_of_ne (show t ≠ IBLOCK 0 from e)]
      exact full_congr rfl (fun _ => rfl) fun e2 => absurd e2 e

theorem ialloc_good (type : ℕ) (hg : m.Good S) (h1 : 1 ≤ m.freeinode) (h2 : m.freeinode < 216)
    (htype : type ≠ 0) (hlt : type < 65536) :
    ∃ m' S', m.ialloc type = some m' ∧ m'.Good S' ∧
      ((m.nodes (slotOf m.freeinode)).stat.type = 0 → S' = S) ∧
      m'.nodes = update m.nodes (slotOf m.freeinode) (fileNode type []) ∧
      m'.freeblock = m.freeblock ∧ m'.freeinode = m.freeinode + 1 ∧ m'.disk 1 = m.disk 1 := by
  have hz : ({ m with freeinode := m.freeinode + 1 } : Img).Zeroed :=
    ⟨hg.zeroed.used, hg.zeroed.lo, hg.zeroed.hi, hg.zeroed.zero⟩
  have hi : slotOf m.freeinode < 208 := by
    unfold slotOf
    split_ifs <;> omega
  obtain ⟨m', hrun, hfull, hz', hfb, hfi, hsup⟩ := winode_eq hi (newInode_fits hlt) hz
  rw [inum_slotOf h1 h2 rfl] at hrun
  rw [full_next] at hfull
  obtain ⟨hset, hnodes, hnone, hptr⟩ := hg.settled.create hi (newInode_fits hlt) htype rfl rfl
    hfull (cold_not_there _)
  have hnodes' : m'.nodes = update m.nodes (slotOf m.freeinode) (fileNode type []) := hnodes
  have hptr' : ∀ j n, j ≠ slotOf m.freeinode → m'.ptr j n = m.ptr j n := hptr
  refine ⟨m', _, hrun, ⟨hz', hfb ▸ hg.inside, hset, fun j n hp => ?_, ?_⟩, fun h0 => ?_, hnodes', hfb, hfi,
    hsup⟩
  · have hne : j ≠ slotOf m.freeinode := fun e => hp (e ▸ hnone n)
    rw [hptr' j n hne] at hp
    rw [len, hnodes', update_of_ne hne]
    exact hg.tight j n hp
  · rw [hfb]
    obtain h | h | ⟨j, bn, h⟩ := hg.last
    · exact .inl h
    · exact .inr (.inl (.inl h))
    · by_cases e : j = slotOf m.freeinode
      · have hlo := hg.zeroed.lo
        have hlast : m.ptr (slotOf m.freeinode) (place bn) = m.freeblock - 1 := by
          rw [← e]
          omega
        exact .inr (.inl (.inr ⟨show m.freeblock - 1 ≠ 0 by omega, place bn, hlast⟩))
      · exact .inr (.inr ⟨j, bn, by rw [hptr' j _ e]; exact h⟩)
  · refine Set.union_eq_left.mpr ?_
    rintro b ⟨hb, n, e⟩
    exact absurd (e.symm.trans (ptrs_unused fun hu => hg.type_ne hu h0)) hb

/-! ### Entries and files -/

/-- The bytes of an entry of the root directory. -/
def entryBytes (inum : ℕ) (name : List UInt8) : List UInt8 :=
  (range 16).map (Dirent.mk inum (name.take DIRSIZ)).byte

theorem entryBytes_length (inum : ℕ) (name : List UInt8) : (entryBytes inum name).length = 16 := by
  simp [entryBytes]

theorem Made.type_root (h : Made S m root fs) : (m.nodes 1).stat.type ≠ 0 := by
  rw [h.nodes 1 le_rfl (by decide)]
  exact (by decide : T_DIR ≠ 0)

theorem Made.len_root (h : Made S m root fs) : m.len ROOTINO = root.length :=
  congrArg (·.stat.size) (h.nodes ROOTINO le_rfl (by decide))

/-- There is room for an entry, or the file system is full. -/
theorem addEntry_made (h : Made S m root fs) (inum : ℕ) (name : List UInt8)
    (hroot : root.length + 16 ≤ MAXFILE * BSIZE) :
    (∃ m', m.addEntry inum name = some m' ∧ Made S m' (root ++ entryBytes inum name) fs ∧
      ∀ i, i ≠ 1 → m'.nodes i = m.nodes i) ∨
    (m.addEntry inum name = none ∧ size < 29 + placesOf (root.length + 16) + blockCount fs) := by
  have hlen := entryBytes_length inum name
  have hnode : m.nodes 1 = fileNode T_DIR root := h.nodes 1 le_rfl (by decide)
  have hsize : m.len 1 = root.length := h.len_root
  have hmono := placesOf_mono (Nat.le_add_right root.length 16)
  have hblocks := h.blocks
  obtain ⟨m', hrun, hg, hn, hb, hi, hs⟩ | ⟨hrun, hfull⟩ := iappend_good (l := entryBytes inum name)
    h.good (by decide : 1 < 208) h.type_root (by rw [hlen]; decide) (by rw [hsize, hlen]; exact hroot)
  · rw [hsize, hlen] at hb
    have hsame : ∀ i, i ≠ 1 → m'.nodes i = m.nodes i := fun i hne => by rw [hn, update_of_ne hne]
    refine .inl ⟨m', hrun, ⟨hg, ?_, fun i h1 h2 => ?_, hi.trans h.inodes, ?_, hs.trans h.super⟩, hsame⟩
    · rw [hsame 0 (by decide)]
      exact h.early
    · rw [hn, hsize, hnode, fileNode_write, update_madeNodes_root h.nodes h1 h2]
    · rw [length_append, hlen]
      omega
  · rw [hsize, hlen] at hfull
    exact .inr ⟨hrun, by omega⟩

theorem blockCount_append (fs : List (List UInt8)) (l : List UInt8) :
    blockCount (fs ++ [l]) = blockCount fs + placesOf l.length := by
  simp [blockCount]

/-- Why `mkfs` fails: a name with a slash, a file that is too large, or not enough blocks. -/
def Refused (files : List (List UInt8 × List UInt8)) (total : ℕ) : Prop :=
  (∃ f ∈ files, Names.slash ∈ f.1 ∨ MAXFILE * BSIZE < f.2.length) ∨ size < total

theorem addFile_made (h : Made S m root fs) (hfs : fs.length < 214)
    (hroot : root.length + 16 ≤ MAXFILE * BSIZE) (name data : List UInt8) :
    (∃ m' S', m.addFile name data = some m' ∧
      Made S' m' (root ++ entryBytes (fs.length + 2) (entryName name)) (fs ++ [data])) ∨
    (m.addFile name data = none ∧ Refused [(name, data)]
      (29 + placesOf (root.length + 16) + blockCount (fs ++ [data]))) := by
  unfold addFile
  by_cases hslash : Names.slash ∈ name
  · rw [if_pos hslash]
    exact .inr ⟨rfl, .inl ⟨(name, data), by simp, .inl hslash⟩⟩
  rw [if_neg hslash]
  have hinum := h.inodes
  obtain ⟨m1, S1, hrun1, hg1, hS1, hn1, hb1, hi1, hs1⟩ := ialloc_good T_FILE h.good
    (by omega) (by omega) (by decide) (by decide)
  rw [hinum] at hS1 hn1 hi1
  have h₁ : Made S1 m1 root (fs ++ [[]]) := by
    refine ⟨hg1, fun hle => ?_, fun i h1 h2 => ?_, ?_, ?_, hs1.trans h.super⟩
    · rw [length_append, length_singleton] at hle
      obtain ⟨hS, h0⟩ := h.early (by omega)
      have hslot : slotOf (fs.length + 2) = fs.length + 2 := if_pos (by omega)
      rw [hslot] at hS1 hn1
      rw [hn1, update_of_ne (by omega)]
      refine ⟨(hS1 ?_).trans hS, h0⟩
      rw [h.nodes _ (by omega) (by omega), madeNodes_none le_rfl]
      rfl
    · rw [hn1, update_madeNodes (.inl rfl) h.nodes h1 h2]
    · rw [hi1, length_append]
      rfl
    · rw [hb1, h.blocks, blockCount_append]
      rfl
  rw [hrun1, bind_eq_bind, bind_some, hinum]
  have hcount : blockCount (fs ++ [data]) = blockCount fs + placesOf data.length :=
    blockCount_append fs data
  have hcount0 : blockCount (fs ++ [[]]) = blockCount fs := blockCount_append fs []
  obtain ⟨m2, hrun2, h₂, hsame⟩ | ⟨hrun2, hfull⟩ := addEntry_made h₁ (fs.length + 2) (entryName name) hroot
  · rw [hrun2, bind_some]
    have hi : slotOf (fs.length + 2) < 208 ∧ slotOf (fs.length + 2) ≠ 1 := by
      unfold slotOf
      split_ifs <;> omega
    have hnode : m2.nodes (slotOf (fs.length + 2)) = fileNode T_FILE [] := by
      rw [hsame _ hi.2, hn1, update_self]
    have hsize : m2.len (slotOf (fs.length + 2)) = 0 := congrArg (·.stat.size) hnode
    have happ := appendAll_adds (l := data) h₂.good hi.1
      (by rw [hnode]; exact (by decide : T_FILE ≠ 0)) (fun _ => hsize ▸ dvd_zero _) le_rfl
    rw [inum_slotOf (by omega) (by omega) (by rw [h₂.inodes]; simp)] at happ
    obtain ⟨m3, hrun3, hg3, hn3, hb3, hi3, hs3⟩ | ⟨hrun3, hwhy⟩ := happ
    · refine .inl ⟨m3, S1, hrun3, hg3, fun hle => ?_, fun i h1 h2 => ?_, ?_, ?_, hs3.trans h₂.super⟩
      · have hearly := h₂.early (by simpa using hle)
        have hslot : (0 : ℕ) ≠ slotOf (fs.length + 2) := by
          rw [length_append, length_singleton] at hle
          unfold slotOf
          rw [if_pos (by omega)]
          omega
        rwa [hn3, update_of_ne hslot]
      · have hw : (fileNode T_FILE []).write 0 data = fileNode T_FILE data := fileNode_write [] data
        rw [hn3, hnode, hsize, hw, update_madeNodes (.inr ⟨[], rfl⟩) h₂.nodes h1 h2]
      · rw [hi3, h₂.inodes]
        simp
      · rw [hb3, hsize, h₂.blocks, Nat.zero_add, placesOf_zero]
        omega
    · rw [hsize, Nat.zero_add, h₂.blocks, placesOf_zero, length_append, entryBytes_length] at hwhy
      refine .inr ⟨hrun3, ?_⟩
      obtain hwhy | hwhy := hwhy
      · exact .inr (by omega)
      · exact .inl ⟨(name, data), by simp, .inr hwhy⟩
  · rw [hrun2]
    exact .inr ⟨rfl, .inr (by omega)⟩

/-- The entries of the files, from inode `n` on. -/
def entries : ℕ → List (List UInt8 × List UInt8) → List UInt8
  | _, [] => []
  | n, (name, _) :: files => entryBytes n (entryName name) ++ entries (n + 1) files

theorem entries_length (n : ℕ) (files : List (List UInt8 × List UInt8)) :
    (entries n files).length = 16 * files.length := by
  induction files generalizing n with
  | nil => rfl
  | cons f files ih =>
    rw [entries, length_append, entryBytes_length, ih, length_cons]
    omega

theorem blockCount_le {fs fs' : List (List UInt8)} (h : fs <+: fs') : blockCount fs ≤ blockCount fs' := by
  obtain ⟨r, rfl⟩ := h
  simp [blockCount]

theorem addFiles_made (files : List (List UInt8 × List UInt8)) (h : Made S m root fs)
    (hfs : fs.length + files.length ≤ 214) (hroot : root.length + 16 * files.length ≤ MAXFILE * BSIZE) :
    (∃ m' S', m.addFiles files = some m' ∧
      Made S' m' (root ++ entries (fs.length + 2) files) (fs ++ files.map Prod.snd)) ∨
    (m.addFiles files = none ∧ Refused files (29 + placesOf (root.length + 16 * files.length)
      + blockCount (fs ++ files.map Prod.snd))) := by
  induction files generalizing m root fs S with
  | nil =>
    refine .inl ⟨m, S, rfl, ?_⟩
    simpa [entries] using h
  | cons f files ih =>
    obtain ⟨name, data⟩ := f
    rw [length_cons] at hfs hroot
    have hlen : (root ++ entryBytes (fs.length + 2) (entryName name)).length = root.length + 16 := by
      rw [length_append, entryBytes_length]
    have hlen' : (fs ++ [data]).length = fs.length + 1 := length_append
    have hall : fs ++ [data] ++ files.map Prod.snd = fs ++ ((name, data) :: files).map Prod.snd := by
      simp
    unfold addFiles
    obtain ⟨m1, S1, hrun, h₁⟩ | ⟨hrun, hwhy⟩ := addFile_made h (by omega) (by omega) name data
    · rw [hrun, bind_eq_bind, bind_some]
      obtain ⟨m2, S2, hrun2, h₂⟩ | ⟨hrun2, hwhy⟩ := ih h₁ (by omega) (by omega)
      · refine .inl ⟨m2, S2, hrun2, ?_⟩
        rw [hall, hlen', append_assoc] at h₂
        exact h₂
      · rw [hall, hlen] at hwhy
        refine .inr ⟨hrun2, ?_⟩
        obtain ⟨f, hf, hwhy⟩ | hwhy := hwhy
        · exact .inl ⟨f, mem_cons_of_mem _ hf, hwhy⟩
        · refine .inr ?_
          rw [length_cons]
          have e : root.length + 16 + 16 * files.length = root.length + 16 * (files.length + 1) := by
            ring
          rwa [e] at hwhy
    · rw [hrun]
      refine .inr ⟨rfl, ?_⟩
      obtain ⟨f, hf, hwhy⟩ | hwhy := hwhy
      · rw [mem_singleton] at hf
        exact .inl ⟨f, by rw [hf]; exact mem_cons_self, hwhy⟩
      · have hpre : fs ++ [data] <+: fs ++ ((name, data) :: files).map Prod.snd :=
          ⟨files.map Prod.snd, hall⟩
        have hle := blockCount_le hpre
        have hmono : placesOf (root.length + 16)
            ≤ placesOf (root.length + 16 * ((name, data) :: files).length) :=
          placesOf_mono (by rw [length_cons]; omega)
        exact .inr (by omega)

/-! ### The image -/

theorem blank_disk {s : ℕ} (h : s ≠ 1) : blank.disk s = zeroBlock := by
  show update (fun _ => zeroBlock) 1 (putSuper sb) s = zeroBlock
  rw [update_of_ne h]

theorem blank_dinode {i : ℕ} (hi : i < 208) : (dinodeAt blank.full i).type = 0 := by
  have hblk := IBLOCK_inum (m := blank) hi
  rw [dinodeAt_full hi, dinodeAt, blank_disk (by omega)]
  exact Bytes.val_zero 2

theorem blank_unused (i : ℕ) : ¬ Used wide (view cold blank.full) i := by
  rintro ⟨hi, ht⟩
  refine ht ?_
  unfold view
  rw [if_neg (cold_not_there i)]
  exact blank_dinode hi

theorem blank_good : blank.Good ∅ := by
  have hz : blank.Zeroed := by
    refine ⟨rfl, le_rfl, by decide, fun s hs => ?_⟩
    have hs : 29 ≤ s := hs
    exact blank_disk (by omega)
  have hptr : ∀ i n, ptrs wide (view cold blank.full) blank.full i n = 0 := fun i n =>
    ptrs_unused (blank_unused i)
  have hsuper : getSuper (putSuper wide) = wide := by decide +kernel
  refine ⟨hz, by decide, ⟨⟨?_, by decide, fun b hb => ?_, ⟨fun i n hp => ?_, fun i n j k hp => ?_,
    fun b h1 h2 => ?_, fun i n hp => ?_⟩, fun i hu => ?_, fun i hu => ?_⟩, fun i _ ht => ?_⟩,
    fun i n hp => ?_, .inl rfl⟩
  · exact hsuper
  · have hb : b < 29 := hb
    rw [bit_full (by omega)]
    exact decide_eq_true hb
  · exact absurd (hptr i n) hp
  · exact absurd (hptr i n) hp
  · have h1 : 29 ≤ b := h1
    have h2 : b < 1027 := h2
    have hnot : ¬ b < 29 := by omega
    rw [bit_full (by omega)]
    show decide (b < 29) = true ↔ _
    simp only [hnot, decide_false, Bool.false_eq_true, Set.mem_empty_iff_false, false_or, false_iff]
    rintro ⟨i, n, e⟩
    rw [hptr] at e
    omega
  · exact absurd (hptr i n) hp
  · exact absurd hu (blank_unused i)
  · exact absurd hu (blank_unused i)
  · exact absurd ht (cold_not_there i)
  · exact absurd (hptr i n) hp

theorem blank_nodes (i : ℕ) : blank.nodes i = Node.free := if_neg (blank_unused i)

/-- The bytes of the root directory. -/
def rootBytes (files : List (List UInt8 × List UInt8)) : List UInt8 :=
  entryBytes ROOTINO Names.dot ++ entryBytes ROOTINO Names.dotdot ++ entries 2 files

theorem rootBytes_length (files : List (List UInt8 × List UInt8)) :
    (rootBytes files).length = 16 * (files.length + 2) := by
  simp only [rootBytes, length_append, entryBytes_length, entries_length]
  ring

/-- The disk that `mkfs` leaves: as before, with the size of the root directory rounded up and the
bitmap of the blocks that are taken. -/
structure Final (m : Img) (root : List UInt8) (d : ℕ → Block) : Prop where
  super : d 1 = putSuper sb
  bitmap : d 28 = bits m.freeblock
  root : dinodeAt d ROOTINO
    = (dinodeAt m.full ROOTINO).setSize ((root.length / BSIZE + 1) * BSIZE)
  inode : ∀ i, 1 ≤ i → i < 208 → i ≠ ROOTINO → dinodeAt d i = dinodeAt m.full i
  data : ∀ s, 29 ≤ s → d s = m.full s

theorem Made.root_size (h : Made S m root fs) : (dinodeAt m.full ROOTINO).size = root.length := by
  have hi : ROOTINO < wide.inodeEnd := by decide
  rw [← h.good.settled.view_eq hi, ← h.len_root]
  exact (nodes_size (used_of_type h.type_root)).symm

theorem Made.finish (h : Made S m root fs) (hroot : root.length < 2 ^ 31) :
    ∃ m', m.fixRoot = some m' ∧ m'.usedblocks = m.freeblock ∧ m'.freeblock = m.freeblock ∧
      Final m root (update m'.disk 28 (bits m.freeblock)) := by
  have hfits : ((dinodeAt m.full ROOTINO).setSize ((root.length / BSIZE + 1) * BSIZE)).Fits := by
    refine (getDinode_fits _ _).setSize ?_
    unfold BSIZE
    omega
  have hi : ROOTINO < 208 := by decide
  obtain ⟨m', hrun, hfull, hz, hfb, -, hsup⟩ := winode_eq hi hfits h.good.zeroed
  have hfix : m.fixRoot = some m' := by
    have hread : m.rinode ROOTINO = some (dinodeAt m.full ROOTINO) := rinode_eq hi
    unfold fixRoot
    rw [hread, bind_eq_bind, bind_some, h.root_size]
    exact hrun
  have hlow : ∀ i, 1 ≤ i → i < 208 → dinodeAt (update m'.disk 28 (bits m.freeblock)) i
      = dinodeAt m'.full i := fun i h1 h2 => by
    have hblk := IBLOCK_lt_28 h2
    rw [dinodeAt_update_of_ne (by omega), dinodeAt_full h2, inum, if_neg (by omega)]
  refine ⟨m', hfix, hz.used.trans hfb, hfb, ?_, ?_, ?_, fun i h1 h2 hne => ?_, fun s hs => ?_⟩
  · rw [update_of_ne (by decide), hsup, h.super]
  · rw [update_self]
  · rw [hlow ROOTINO le_rfl hi, hfull, putInode, dinodeAt_put hfits]
  · rw [hlow i h1 h2, hfull, putInode, dinodeAt_put_of_ne _ hne]
  · have hblk : s ≠ IBLOCK ROOTINO := by
      have : IBLOCK ROOTINO = 2 := rfl
      omega
    rw [update_of_ne (by omega), ← full_data (m := m') hs, hfull, putInode_of_ne hblk]

/-- **What `mkfs` does** for at most 214 files: the image with the files, or a failure. -/
theorem mkfs_made (files : List (List UInt8 × List UInt8)) (hfiles : files.length ≤ 214) :
    (∃ S m m', mkfs files = some m' ∧ m'.freeblock = m.freeblock ∧
      Made S m (rootBytes files) (files.map Prod.snd) ∧ Final m (rootBytes files) m'.disk) ∨
    (mkfs files = none ∧ Refused files (29 + placesOf (16 * (files.length + 2))
      + blockCount (files.map Prod.snd))) := by
  have hmax : ∀ n ≤ 216, 16 * n ≤ MAXFILE * BSIZE := fun n hn => by
    unfold MAXFILE BSIZE
    omega
  obtain ⟨m0, S0, hrun0, hg0, hS0, hn0, hb0, hi0, hs0⟩ := ialloc_good T_DIR blank_good (by decide)
    (by decide) (by decide) (by decide)
  have h₀ : Made S0 m0 [] [] := by
    refine ⟨hg0, fun _ => ⟨hS0 (by rw [blank_nodes]; rfl), ?_⟩, fun i h1 h2 => ?_, hi0, hb0, hs0⟩
    · rw [hn0]
      exact (update_of_ne (show 0 ≠ 1 by decide) _ _).trans (blank_nodes _)
    rw [hn0]
    match i with
    | 1 => rfl
    | i + 2 => exact (update_of_ne (show i + 2 ≠ 1 by omega) _ _).trans (blank_nodes _)
  obtain ⟨m1, hrun1, h₁, -⟩ | ⟨-, hfull⟩ := addEntry_made h₀ ROOTINO Names.dot (by decide)
  swap
  · exact absurd hfull (by decide)
  obtain ⟨m2, hrun2, h₂, -⟩ | ⟨-, hfull⟩ := addEntry_made h₁ ROOTINO Names.dotdot (by decide)
  swap
  · exact absurd hfull (by decide)
  have hlen : ([] ++ entryBytes ROOTINO Names.dot ++ entryBytes ROOTINO Names.dotdot).length
      + 16 * files.length = 16 * (files.length + 2) := by
    simp only [length_append, entryBytes_length, length_nil]
    ring
  have hmkfs : mkfs files = (m2.addFiles files).bind fun m => m.fixRoot.bind fun m =>
      m.balloc m.usedblocks := by
    unfold mkfs
    rw [hrun0, bind_eq_bind, bind_some, hrun1, bind_some, hrun2, bind_some]
  rw [hmkfs]
  obtain ⟨m, S, hrun, h⟩ | ⟨hrun, hwhy⟩ := addFiles_made files h₂ (by simpa using hfiles)
    (by rw [hlen]; exact hmax _ (by omega))
  · rw [nil_append, nil_append] at h
    have hroot := rootBytes_length files
    obtain ⟨m', hfix, hused, hfb, hfinal⟩ := (show Made S m (rootBytes files) _ from h).finish (by omega)
    have hin := h.good.inside
    refine .inl ⟨S, m, m'.wsect 28 (bits m.freeblock), ?_, hfb, h, hfinal⟩
    rw [hrun, bind_some, hfix, bind_some, Img.balloc, hused,
      if_pos (by unfold size at hin; omega)]
    rfl
  · rw [hrun]
    rw [hlen, nil_append] at hwhy
    exact .inr ⟨rfl, hwhy⟩

end

end Xv6.Fs.Mkfs
