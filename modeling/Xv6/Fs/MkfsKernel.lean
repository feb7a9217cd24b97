import Xv6.Fs.Directory
import Xv6.Fs.MkfsHoles

/-! # The kernel reads what `mkfs` has written

`readBack` looks a name up in the root directory and reads the file, with the kernel's `ilock`,
`dirlookup` and `readi`. No transaction is open, so that nothing is written: a block that is missing
would be a panic. The kernel finds every file in the inode that `mkfs` gave it (`Agrees`), unless there
are more files than inodes, or a file has the name of one of the first two entries. -/

namespace Xv6.Fs.Names

open Prog

/-- The fields of an inode and its contents. -/
def readInode (i : ℕ) : Fsys (ℕ × Stat × Option (List UInt8)) := do
  ilock i
  let m ← getStat i
  let l ← readi i 0 m.size
  pure (i, m, l)

/-- The inode of a name in the root directory, with its fields and its contents. -/
def readBack (name : List UInt8) : Fsys (Option (ℕ × Stat × Option (List UInt8))) := do
  ilock ROOTINO
  let r ← dirlookup ROOTINO name
  iunlock ROOTINO
  match r with
  | none => pure none
  | some (i, _) => do
    let x ← readInode i
    pure (some x)

end Xv6.Fs.Names

namespace Xv6.Fs.Mkfs

open Prog Img Names Function List

/-- Nothing has been written since the start: the buffers show the disk, and so do the copies of inodes. -/
structure Shows (d : ℕ → Block) (k : State) : Prop where
  buf : k.buf = d
  idle : k.log.busy = false
  valid : ∀ i, (k.inode i).valid = true → (k.inode i).din = dinodeAt d i

section
variable {d : ℕ → Block} {k k' : State} {p : Slot} {i bn off n s : ℕ} {b : Block} {E : String → State → Prop}
  {name : List UInt8}

/-! ### Outside of transactions -/

theorem boot_shows (d : ℕ → Block) : Shows d (boot d) := ⟨rfl, rfl, fun _ h => absurd h (by simp [boot])⟩

theorem Shows.iget (h : Shows d k) (i : ℕ) : Shows d (k.setInode i (k.inode i).addRef) := by
  refine ⟨h.buf, h.idle, fun j hj => ?_⟩
  by_cases e : j = i
  · subst e
    rw [State.setInode_inode, update_self] at hj ⊢
    simp only [Cached.addRef, Bool.and_eq_true] at hj
    exact h.valid j hj.1
  · rw [State.setInode_inode, update_of_ne e] at hj ⊢
    exact h.valid j hj

section
variable (h : k.log.busy = false)
include h

theorem logWrite_idle : (logWrite s b).wp (Fs.exec p) (fun _ _ => False) (fun _ _ => True) k := by
  unfold logWrite
  rw [wp_bind, wp_bset, wp_bind, wp_logEntry]
  split_ifs with h1 h2
  · trivial
  · trivial
  · exact absurd h h2

theorem balloc_idle : Fs.balloc.wp (Fs.exec p) (fun _ _ => False) (fun _ _ => True) k := by
  have hloop : ∀ sb fuel b, (ballocLoop sb fuel b).wp (Fs.exec p) (fun _ _ => False) (fun _ _ => True) k := by
    intro sb fuel
    induction fuel with
    | zero => exact fun _ => trivial
    | succ fuel ih =>
      intro b
      unfold ballocLoop
      rw [wp_bind, wp_bread]
      split
      · exact wp_seq (logWrite_idle h) fun _ _ hf => hf.elim
      · rw [wp_bind, wp_brelse]
        exact ih _
  unfold Fs.balloc readsb
  exact hloop _ _ _

theorem allocAddr_idle (j : ℕ) : (allocAddr i j).wp (Fs.exec p) (fun _ k' => k' = k) (fun _ _ => True) k := by
  unfold allocAddr
  rw [wp_bind, wp_getAddr]
  split_ifs
  · exact wp_seq (balloc_idle h) fun _ _ hf => hf.elim
  · rfl

theorem bmap_idle : (bmap i bn).wp (Fs.exec p) (fun _ k' => k' = k) (fun _ _ => True) k := by
  unfold bmap
  split_ifs
  · exact allocAddr_idle h bn
  · refine wp_seq (allocAddr_idle h NDIRECT) fun a k' hk => ?_
    subst hk
    rw [wp_bind, wp_bread, wp_bind, wp_bword]
    split_ifs
    · exact wp_seq (balloc_idle h) fun _ _ hf => hf.elim
    · rfl
  · trivial

theorem readFile_idle : (readFile i off n).wp (Fs.exec p) (fun _ k' => k' = k) (fun _ _ => True) k := by
  have hloop : ∀ fuel off n, (readLoop i fuel off n).wp (Fs.exec p) (fun _ k' => k' = k)
      (fun _ _ => True) k := by
    intro fuel
    induction fuel with
    | zero => exact fun _ _ => rfl
    | succ fuel ih =>
      intro off n
      unfold readLoop
      split_ifs
      · rfl
      · refine wp_seq (bmap_idle h) fun b k' hk => ?_
        subst hk
        rw [wp_bind, wp_bread, wp_bind, wp_brelse]
        exact wp_seq (ih _ _) fun _ _ hk => hk
  unfold readFile
  rw [wp_bind, wp_inode]
  split_ifs
  · rfl
  · exact wp_seq (hloop _ _ _) fun _ _ hk => hk
  · exact wp_seq (hloop _ _ _) fun _ _ hk => hk

end

theorem ilock_shows (h : Shows d k) : (Fs.ilock i).wp (Fs.exec p) (fun _ k' => Shows d k' ∧
      k'.inode = update k.inode i ⟨(k.inode i).ref, true, dinodeAt d i⟩)
    (fun _ _ => (k.inode i).ref = 0 ∨ (dinodeAt d i).type = 0) k := by
  unfold Fs.ilock
  rw [wp_bind, wp_inode]
  by_cases href : (k.inode i).ref < 1
  · rw [if_pos href]
    exact .inl (by omega)
  rw [if_neg href]
  show ((if (k.inode i).valid = false then _ else _ : Kern Unit)).wp (Fs.exec p) _ _ k
  by_cases hv : (k.inode i).valid = false
  · rw [if_pos hv, wp_bind, wp_bread, wp_bind, wp_setInode, wp_bind, wp_brelse, h.buf]
    split_ifs with h0
    · exact .inr h0
    · refine ⟨⟨h.buf, h.idle, fun j hj => ?_⟩, rfl⟩
      by_cases e : j = i
      · subst e
        rw [State.setInode_inode, update_self]
        rfl
      · rw [State.setInode_inode, update_of_ne e] at hj ⊢
        exact h.valid j hj
  · rw [if_neg hv]
    have hvalid : (k.inode i).valid = true := Bool.eq_true_of_not_eq_false hv
    refine ⟨h, ?_⟩
    rw [← h.valid i hvalid, ← hvalid, update_eq_self]

theorem ilock_run (h : Shows d k) (href : (k.inode i).ref ≠ 0) (htype : (dinodeAt d i).type ≠ 0) :
    ∃ k', (Names.ilock i).run (kexec p) k = (.ok (), k') ∧ Shows d k' ∧
      k'.inode i = ⟨(k.inode i).ref, true, dinodeAt d i⟩ := by
  obtain ⟨⟨⟩, k', hrun, h', hI⟩ := exists_run (wp_mono (ilock_shows (p := p) (i := i) h)
    (fun _ _ hq => hq) fun _ _ he => he.elim href htype)
  exact ⟨k', run_op hrun, h', by rw [hI, update_self]⟩

/-! ### What the kernel may find -/

theorem wp_kern {α : Type} {q : Fsys α} {Q : α → State → Prop} :
    q.kern.wp (Fs.exec p) Q E k ↔ q.wp (kexec p) Q E k := wp_inline

theorem wp_kexec {α : Type} {o : Op} {f : o.Resp → Fsys α} {Q : α → State → Prop} :
    ((.op o .ret : Fsys o.Resp) >>= f).wp (kexec p) Q E k ↔
      (impl o).wp (Fs.exec p) (fun r => (f r).wp (kexec p) Q E) E k := wp_op_run

theorem dirlookup_idle (h : k.log.busy = false) (dp : ℕ) :
    (dirlookup dp name).wp (kexec p)
      (fun r k' => ∀ i off, r = some (i, off) → k' = k.setInode i (k.inode i).addRef)
      (fun _ _ => True) k := by
  have hloop : ∀ fuel off, (lookupLoop dp name fuel off).wp (kexec p)
      (fun r k' => ∀ i off, r = some (i, off) → k' = k.setInode i (k.inode i).addRef)
      (fun _ _ => True) k := by
    intro fuel
    induction fuel with
    | zero => exact fun _ _ _ hr => nomatch hr
    | succ fuel ih =>
      intro off
      unfold lookupLoop
      refine wp_kexec.mpr (wp_seq (readFile_idle h) fun r k' hk => ?_)
      subst hk
      rw [wp_pure]
      split
      · trivial
      · rename_i e _
        rw [wp_ite]
        refine ⟨fun _ => wp_kexec.mpr ?_, fun _ => ih _⟩
        intro i off hr
        obtain ⟨rfl, -⟩ := Prod.mk.inj (Option.some.inj hr)
        rfl
  unfold dirlookup
  refine wp_kexec.mpr ?_
  show (if (k.inode dp).din.stat.type ≠ T_DIR then _ else _ : Fsys _).wp (kexec p) _ _ k
  rw [wp_ite]
  exact ⟨fun _ => trivial, fun _ => hloop _ _⟩

/-- The fields that the kernel returns are those on the disk. -/
theorem readInode_stat (h : Shows d k) : (readInode i).wp (kexec p)
    (fun x _ => x.1 = i ∧ x.2.1 = (dinodeAt d i).stat) (fun _ _ => True) k := by
  refine wp_kexec.mpr (wp_mono (ilock_shows h) (fun _ k1 ⟨_, hI⟩ => ?_) fun _ _ _ => trivial)
  have hdin : (k1.inode i).din = dinodeAt d i := by rw [hI, update_self]
  refine wp_kexec.mpr ?_
  show (Names.readi i 0 (k1.inode i).din.stat.size >>= _ : Fsys _).wp (kexec p) _ _ k1
  refine wp_kexec.mpr (wp_mono (wp_true _) (fun l k2 _ => ⟨rfl, ?_⟩) fun _ _ _ => trivial)
  exact congrArg Dinode.stat hdin

theorem readBack_stat (h : Shows d k) : (readBack name).kern.wp (Fs.exec p)
    (fun r _ => ∀ x, r = some x → x.2.1 = (dinodeAt d x.1).stat) (fun _ _ => True) k := by
  refine wp_kern.mpr (wp_kexec.mpr (wp_mono (ilock_shows h) (fun _ k1 ⟨h₁, _⟩ => ?_) fun _ _ _ => trivial))
  refine wp_seq (dirlookup_idle h₁.idle ROOTINO) fun r k2 hr => wp_kexec.mpr ?_
  show (match r with | none => _ | some (i, _) => _ : Fsys _).wp (kexec p) _ _ k2
  match r with
  | none => exact fun _ hx => nomatch hx
  | some (i, off) =>
    obtain rfl := hr i off rfl
    refine wp_seq (readInode_stat (h₁.iget i)) fun y k3 ⟨h1, h2⟩ x hx => ?_
    rw [← Option.some.inj hx, h1, h2]

end

/-! ### The blocks of an image -/

section
variable {m : Img} {root : List UInt8} {fs : List (List UInt8)} {d : ℕ → Block} {k : State} {p : Slot}
  {i n o off : ℕ}

/-- The image that was made, as the kernel shows it. -/
structure Mounted (m : Img) (root : List UInt8) (fs : List (List UInt8)) (d : ℕ → Block) (k : State) :
    Prop where
  made : Made ∅ m root fs
  final : Final m root d
  files : fs.length ≤ 206
  blocks : m.freeblock ≤ 1014
  shows : Shows d k

theorem Mounted.lt (h : Mounted m root fs d k) (h2 : i ≤ fs.length + 1) : i < 208 := by
  have := h.files
  omega

theorem Mounted.ptr_lt (h : Mounted m root fs d k) : m.ptr i n < 1014 := by
  by_cases hp : m.ptr i n = 0
  · omega
  · exact (h.made.ptr_lt hp).trans_le h.blocks

section
variable (h : Mounted m root fs d k) (ht : (k.inode i).There) (h1 : 1 ≤ i)
include h ht h1

theorem Mounted.ptrs (h2 : i ≤ fs.length + 1) :
    ptrs sb (view k.inode (k.home sb)) (k.home sb) i n = m.ptr i n := by
  obtain ⟨htype, hptr, -⟩ := h.made.found h.final h1 h2 (h.lt h2)
  have hdin : (k.inode i).din = dinodeAt d i := h.shows.valid i ht.1
  have hu : Used sb (view k.inode (k.home sb)) i := by
    refine ⟨h.lt h2, ?_⟩
    rw [view_there ht, hdin, htype]
    exact h.made.type_ne h1 h2 (h.lt h2)
  rw [ptrs_used hu, view_there ht, hdin, ← hptr]
  refine ptr_congr rfl fun _ => ?_
  have hlt : (dinodeAt d i).addrs NDIRECT < 1014 := by
    rw [← ptr_direct (H := d) _ le_rfl, hptr]
    exact h.ptr_lt
  exact (if_pos hlt).trans (congrFun h.shows.buf _)

theorem Mounted.byteAt (h2 : i ≤ fs.length + 1) (ho : o < m.len i) :
    byteAt sb (view k.inode (k.home sb)) (k.home sb) i o = (m.nodes i).data o := by
  have hu := used_of_type (h.made.type_ne h1 h2 (h.lt h2))
  have hlt : o / BSIZE * BSIZE < m.len i := (Nat.div_mul_le_self o BSIZE).trans_lt ho
  have hp : m.ptr i (place (o / BSIZE)) ≠ 0 := h.made.cover h1 h2 (h.lt h2) hlt
  have harea : 29 ≤ m.ptr i (place (o / BSIZE)) := (h.made.good.settled.tidy.ptr_area hp).1
  rw [nodes_size hu] at ho
  have hdata : (m.nodes i).data o = m.full (m.ptr i (place (o / BSIZE))) (o % BSIZE) := by
    unfold Img.nodes Fs.nodes node
    rw [if_pos hu]
    exact if_pos ho
  have hhome : k.home sb (m.ptr i (place (o / BSIZE))) = m.full (m.ptr i (place (o / BSIZE))) := by
    rw [← h.final.data _ harea, ← h.shows.buf]
    exact if_pos h.ptr_lt
  unfold Fs.byteAt
  rw [h.ptrs ht h1 h2, hhome, hdata]

theorem Mounted.readFile (h2 : i ≤ fs.length + 1) (hend : off + n ≤ m.len i) :
    (readFile i off n).run (Fs.exec p) k
      = (.ok (some ((range n).map fun j => (m.nodes i).data (off + j))), k) := by
  obtain ⟨-, -, hsize⟩ := h.made.found h.final h1 h2 (h.lt h2)
  have hdin : (k.inode i).din = dinodeAt d i := h.shows.valid i ht.1
  have hle : m.len i ≤ (k.inode i).din.size := by
    rw [hdin, hsize]
    split_ifs with e
    · rw [e, h.made.len_root, Nat.succ_mul]
      exact (Nat.lt_div_mul_add (a := root.length) (show 0 < BSIZE by decide)).le
    · exact le_rfl
  have hfits : (k.inode i).din.size < 2 ^ 32 := by
    rw [hdin]
    exact (getDinode_fits _ _).size
  have harea : ∀ n, Fs.ptrs sb (view k.inode (k.home sb)) (k.home sb) i n < sb.logStart := fun n => by
    rw [h.ptrs ht h1 h2]
    exact h.ptr_lt
  have hthru : (Fs.readFile i off n).thru (Fs.exec p) (fun _ => True) _ (fun _ _ => False) k :=
    readFile_bytes trivial harea ht (hend.trans hle) hfits fun o ho => by
      rw [h.ptrs ht h1 h2]
      exact h.made.cover h1 h2 (h.lt h2) ((Nat.div_mul_le_self o BSIZE).trans_lt (by omega))
  obtain ⟨l, k', hrun, rfl, hl⟩ := exists_run ((thru_iff _).mp hthru).2
  rw [hrun, hl]
  congr 3
  refine map_congr_left fun j hj => h.byteAt ht h1 h2 ?_
  have hj := mem_range.mp hj
  omega

end

end

/-! ### The root directory -/

section
variable {files : List (List UInt8 × List UInt8)} {m mf : Img} {d : ℕ → Block} {k : State} {p : Slot}
  {t j n T : ℕ} {name : List UInt8}

/-- The name of file `t` in the root directory. -/
def fileName (files : List (List UInt8 × List UInt8)) (t : ℕ) : List UInt8 :=
  (entryName (files.getD t ([], [])).1).take DIRSIZ

/-- Entry `t` of the root directory. -/
def rootEntry (files : List (List UInt8 × List UInt8)) : ℕ → Dirent
  | 0 => ⟨ROOTINO, dot⟩
  | 1 => ⟨ROOTINO, dotdot⟩
  | t + 2 => ⟨t + 2, fileName files t⟩

theorem entryBytes_getD (hj : j < 16) :
    (entryBytes n name).getD j 0 = (Dirent.mk n (name.take DIRSIZ)).byte j :=
  (Dirent.mk n (name.take DIRSIZ)).bytes_getD hj

theorem entries_getD (ht : t < files.length) (hj : j < 16) :
    (entries n files).getD (16 * t + j) 0 = (Dirent.mk (n + t) (fileName files t)).byte j := by
  induction files generalizing n t with
  | nil => exact absurd ht (Nat.not_lt_zero t)
  | cons f files ih =>
    have hlen := entryBytes_length n (entryName f.1)
    rw [entries]
    cases t with
    | zero =>
      rw [getD_append _ _ _ _ (by omega), Nat.mul_zero, Nat.zero_add, entryBytes_getD hj]
      rfl
    | succ t =>
      rw [length_cons] at ht
      have hsub : 16 * (t + 1) + j - (entryBytes n (entryName f.1)).length = 16 * t + j := by omega
      rw [getD_append_right _ _ _ _ (by omega), hsub, ih (by omega)]
      have hn : n + 1 + t = n + (t + 1) := by omega
      rw [hn]
      rfl

theorem rootBytes_getD (ht : t < files.length + 2) (hj : j < 16) :
    (rootBytes files).getD (16 * t + j) 0 = (rootEntry files t).byte j := by
  have h1 := entryBytes_length ROOTINO dot
  have h2 := entryBytes_length ROOTINO dotdot
  have h12 : (entryBytes ROOTINO dot ++ entryBytes ROOTINO dotdot).length = 32 := by
    rw [length_append, h1, h2]
  unfold rootBytes
  match t with
  | 0 =>
    rw [getD_append _ _ _ _ (by omega), getD_append _ _ _ _ (by omega), Nat.mul_zero,
      Nat.zero_add, entryBytes_getD hj]
    rfl
  | 1 =>
    rw [getD_append _ _ _ _ (by omega), getD_append_right _ _ _ _ (by omega), h1,
      Nat.mul_one, Nat.add_sub_cancel_left, entryBytes_getD hj]
    rfl
  | t + 2 =>
    have hsub : 16 * (t + 2) + j - 32 = 16 * t + j := by omega
    rw [getD_append_right _ _ _ _ (by omega), h12, hsub, entries_getD (by omega) hj, Nat.add_comm 2 t]
    rfl

theorem mem_entryName {b : UInt8} (h : b ∈ entryName name) : b ∈ name := by
  unfold entryName at h
  split_ifs at h
  · exact mem_of_mem_tail h
  · exact h

theorem rootEntry_fits (hlen : files.length ≤ 206) (hnul : ∀ f ∈ files, (0 : UInt8) ∉ f.1)
    (ht : t < files.length + 2) : (rootEntry files t).Fits := by
  match t with
  | 0 =>
    show (Dirent.mk ROOTINO dot).Fits
    exact ⟨by decide, by decide, by decide⟩
  | 1 =>
    show (Dirent.mk ROOTINO dotdot).Fits
    exact ⟨by decide, by decide, by decide⟩
  | t + 2 =>
    have hlt : t < files.length := by omega
    refine ⟨show t + 2 < 65536 by omega, length_take_le _ _, fun h0 => ?_⟩
    have hmem := mem_entryName (mem_of_mem_take h0)
    rw [getD_eq_getElem _ _ hlt] at hmem
    exact hnul _ (getElem_mem hlt) hmem

section
variable (h : Mounted m (rootBytes files) (files.map Prod.snd) d k)
include h

theorem Mounted.reads (hnul : ∀ f ∈ files, (0 : UInt8) ∉ f.1) (ht : (k.inode ROOTINO).There) :
    Reads (kexec p) ROOTINO (rootEntry files) (files.length + 2) k := by
  intro t hlt
  have hlen : files.length ≤ 206 := by
    have := h.files
    rwa [length_map] at this
  have hnode : m.nodes ROOTINO = fileNode T_DIR (rootBytes files) := h.made.nodes 1 le_rfl (by decide)
  have hsize : 16 * t + 16 ≤ m.len ROOTINO := by
    rw [h.made.len_root, rootBytes_length]
    omega
  have hread := h.readFile (p := p) ht le_rfl (Nat.le_add_left _ _) hsize
  show (Fs.readFile ROOTINO (16 * t) 16 >>= _).run (Fs.exec p) k = _
  rw [run_seq hread]
  have hentry : getDirent (fun j => ((range 16).map fun j =>
      (m.nodes ROOTINO).data (16 * t + j)).getD j 0) = rootEntry files t := by
    refine (getDirent_congr fun j hj => ?_).trans (getDirent_byte (rootEntry_fits hlen hnul hlt))
    rw [hnode, ← rootBytes_getD hlt hj]
    simp [hj, fileNode]
  show (Except.ok ((some _).bind _), k) = _
  rw [Option.bind_some, if_pos (by simp), hentry]

theorem Mounted.root_type : (dinodeAt d ROOTINO).type = T_DIR := by
  obtain ⟨htype, -⟩ := h.made.found h.final (i := ROOTINO) le_rfl (Nat.le_add_left 1 _) (by decide)
  rw [htype, h.made.nodes ROOTINO le_rfl (by decide)]
  rfl

theorem Mounted.root_size (hT : T < files.length + 2) : 16 * T < (dinodeAt d ROOTINO).size := by
  obtain ⟨-, -, hsize⟩ := h.made.found h.final (i := ROOTINO) le_rfl (Nat.le_add_left 1 _) (by decide)
  rw [hsize, if_pos rfl, rootBytes_length]
  unfold BSIZE
  omega

end

section
variable (h : Mounted m (rootBytes files) (files.map Prod.snd) d (boot d)) (hnul : ∀ f ∈ files, (0 : UInt8) ∉ f.1) (hT : T < files.length + 2)
include h hnul hT

theorem Mounted.lookup
    (hhit : hit name (rootEntry files T)) (hfirst : ∀ u < T, ¬ hit name (rootEntry files u)) :
    ∃ k1 k, (Names.ilock ROOTINO).run (kexec p) (boot d) = (.ok (), k1) ∧
      (dirlookup ROOTINO name).run (kexec p) k1 = (.ok (some ((rootEntry files T).inum, 16 * T)), k) ∧
      Shows d k ∧ (k.inode (rootEntry files T).inum).ref ≠ 0 := by
  obtain ⟨k1, hilock, h₁, hroot⟩ := ilock_run (p := p) (i := ROOTINO) h.shows (Nat.succ_ne_zero 1)
    (ne_of_eq_of_ne h.root_type (by decide))
  have hM : Mounted m (rootBytes files) (files.map Prod.snd) d k1 :=
    ⟨h.made, h.final, h.files, h.blocks, h₁⟩
  have hstat : kexec p (.stat ROOTINO) k1 = (.ok (dinodeAt d ROOTINO).stat, k1) := by
    show (Except.ok (k1.inode ROOTINO).din.stat, k1) = _
    rw [hroot]
  have hthere : (k1.inode ROOTINO).There := by
    rw [hroot]
    exact ⟨rfl, Nat.succ_ne_zero 1⟩
  have hfind := dirlookup_found (h := kexec p) hstat h.root_type ((hM.reads hnul hthere).mono hT) hhit
    hfirst rfl (h.root_size hT)
  refine ⟨k1, _, hilock, hfind, h₁.iget _, ?_⟩
  rw [State.setInode_inode, update_self]
  exact Nat.succ_ne_zero _

theorem Mounted.readBack
    (hhit : hit name (rootEntry files T)) (hfirst : ∀ u < T, ¬ hit name (rootEntry files u)) :
    ∃ k, Shows d k ∧ (k.inode (rootEntry files T).inum).ref ≠ 0 ∧
      (readBack name).kern.run (Fs.exec p) (boot d)
        = (readInode (rootEntry files T).inum >>= fun x => pure (some x)).run (kexec p) k := by
  obtain ⟨k1, k, hilock, hfind, hk, href⟩ := h.lookup (p := p) hnul hT hhit hfirst
  refine ⟨k, hk, href, ?_⟩
  rw [kern_run]
  unfold Names.readBack
  rw [run_seq hilock, run_seq hfind]
  rfl

end

theorem Mounted.readInode (h : Mounted m (rootBytes files) (files.map Prod.snd) d k)
    (hj : j < files.length) (href : (k.inode (j + 2)).ref ≠ 0) :
    ∃ k', (readInode (j + 2)).run (kexec p) k
      = (.ok (j + 2, ⟨T_FILE, 0, 0, 1, files[j].2.length⟩, some files[j].2), k') := by
  have hj' : j < (files.map Prod.snd).length := by rwa [length_map]
  have hi : j + 2 < 208 := h.lt (by omega)
  have hnode : m.nodes (j + 2) = fileNode T_FILE files[j].2 := by
    rw [h.made.nodes _ (by omega) hi, madeNodes_file hj', getElem_map]
  have hstat : (dinodeAt d (j + 2)).stat = ⟨T_FILE, 0, 0, 1, files[j].2.length⟩ := by
    have hu : Used wide (view cold m.full) (j + 2) := used_of_type (by
      rw [hnode]
      exact (by decide : T_FILE ≠ 0))
    have hfull : (m.nodes (j + 2)).stat = (dinodeAt m.full (j + 2)).stat := by
      unfold Img.nodes Fs.nodes node
      rw [if_pos hu, h.made.good.settled.view_eq hi]
    rw [h.final.inode (j + 2) (by omega) hi (by unfold ROOTINO; omega), ← hfull, hnode]
    rfl
  have htype : (dinodeAt d (j + 2)).type = T_FILE := congrArg Stat.type hstat
  obtain ⟨k1, hilock, h₁, hfile⟩ := ilock_run (p := p) (i := j + 2) h.shows href
    (ne_of_eq_of_ne htype (by decide))
  have hM : Mounted m (rootBytes files) (files.map Prod.snd) d k1 :=
    ⟨h.made, h.final, h.files, h.blocks, h₁⟩
  have hthere : (k1.inode (j + 2)).There := by
    rw [hfile]
    exact ⟨rfl, href⟩
  have hread : (Fs.readFile (j + 2) 0 files[j].2.length).run (Fs.exec p) k1 = _ :=
    hM.readFile hthere (by omega) (by omega) (by rw [Img.len, hnode, Nat.zero_add]; exact le_rfl)
  have hbytes : ((range files[j].2.length).map fun o => (m.nodes (j + 2)).data (0 + o))
      = files[j].2 := by
    rw [hnode]
    refine ext_getElem (by simp) fun o _ ho => ?_
    simp [fileNode, getElem?_eq_getElem ho]
  rw [hbytes] at hread
  have hget : (getStat (j + 2)).run (kexec p) k1 = (.ok (dinodeAt d (j + 2)).stat, k1) := by
    show (Except.ok (k1.inode (j + 2)).din.stat, k1) = _
    rw [hfile]
  have hreadi : (Names.readi (j + 2) 0 files[j].2.length).run (kexec p) k1
      = (.ok (some files[j].2), k1) := by
    refine run_op ?_
    show (Fs.readi (j + 2) 0 files[j].2.length).run (Fs.exec p) k1 = _
    rw [readi_run (by rw [hfile]; exact htype ▸ by decide), hread]
  refine ⟨k1, ?_⟩
  unfold Names.readInode
  rw [run_seq hilock, run_seq hget, hstat, run_seq hreadi]
  rfl

/-! ### Files -/

theorem addFiles_slash (h : m.addFiles files = some mf) : ∀ f ∈ files, slash ∉ f.1 := by
  induction files generalizing m with
  | nil => exact fun _ hf => nomatch hf
  | cons f files ih =>
    obtain ⟨m1, h₁, h⟩ := Option.bind_eq_some_iff.mp h
    intro g hg
    obtain rfl | hg := mem_cons.mp hg
    · unfold addFile at h₁
      split_ifs at h₁ with hslash
      exact hslash
    · exact ih h g hg

theorem mkfs_slash (h : mkfs files = some mf) : ∀ f ∈ files, slash ∉ f.1 := by
  unfold mkfs at h
  obtain ⟨m0, -, h⟩ := Option.bind_eq_some_iff.mp h
  obtain ⟨m1, -, h⟩ := Option.bind_eq_some_iff.mp h
  obtain ⟨m2, -, h⟩ := Option.bind_eq_some_iff.mp h
  obtain ⟨m3, h3, -⟩ := Option.bind_eq_some_iff.mp h
  exact addFiles_slash h3

theorem hit_rootEntry (n : ℕ) :
    hit name (rootEntry files (n + 2)) ↔ name.take DIRSIZ = fileName files n := by
  have hlen : (fileName files n).take DIRSIZ = fileName files n :=
    take_of_length_le (length_take_le _ _)
  unfold hit nameEq rootEntry
  rw [hlen, beq_iff_eq]
  exact and_iff_right (Nat.succ_ne_zero _)

theorem hit_dot : hit name (rootEntry files 0) ↔ name.take DIRSIZ = dot := by
  unfold hit nameEq rootEntry
  rw [beq_iff_eq]
  exact and_iff_right Nat.one_ne_zero

theorem hit_dotdot : hit name (rootEntry files 1) ↔ name.take DIRSIZ = dotdot := by
  unfold hit nameEq rootEntry
  rw [beq_iff_eq]
  exact and_iff_right Nat.one_ne_zero

/-- The kernel finds every file, in the inode that `mkfs` gave it, with its size and its bytes; and the
bitmap has the blocks that `mkfs` took. -/
def Agrees (files : List (List UInt8 × List UInt8)) (m : Img) : Prop :=
  (∀ j (hj : j < files.length), ∃ k',
    (readBack (entryName files[j].1)).kern.run (Fs.exec initproc) (boot m.disk)
      = (.ok (some (j + 2, ⟨T_FILE, 0, 0, 1, files[j].2.length⟩, some files[j].2)), k')) ∧
  ∀ b < size, bit (getSuper (m.disk 1)) m.disk b = true ↔ b < m.freeblock

theorem mkfs_mounted (hfiles : files.length ≤ 206) (hfit : blocksOf files ≤ nblocks)
    (hslash : ∀ f ∈ files, slash ∉ f.1) (hsize : ∀ f ∈ files, f.2.length ≤ MAXFILE * BSIZE) :
    ∃ m mf, mkfs files = some mf ∧ mf.freeblock = m.freeblock ∧
      Mounted m (rootBytes files) (files.map Prod.snd) mf.disk (boot mf.disk) := by
  have hfit : blocksOf files ≤ 985 := hfit
  obtain ⟨S, m, mf, hrun, hfb, hm, hf⟩ | ⟨-, hwhy⟩ := mkfs_made files (hfiles.trans (by decide))
  · obtain ⟨rfl, -⟩ := hm.early (by rwa [length_map])
    refine ⟨m, mf, hrun, hfb, hm, hf, by rwa [length_map], ?_, boot_shows _⟩
    rw [hm.blocks, rootBytes_length]
    unfold blocksOf at hfit
    omega
  · obtain ⟨f, hf, hbad | hbad⟩ | hbad := hwhy
    · exact absurd hbad (hslash f hf)
    · exact absurd (hsize f hf) (Nat.not_le_of_lt hbad)
    · unfold blocksOf at hfit
      have hbad : 1024 < _ := hbad
      omega

theorem Mounted.inum (h : Mounted m (rootBytes files) (files.map Prod.snd) d (boot d))
    (hnul : ∀ f ∈ files, (0 : UInt8) ∉ f.1) (hT : T < files.length + 2)
    (hhit : hit name (rootEntry files T)) (hfirst : ∀ u < T, ¬ hit name (rootEntry files u))
    {x : ℕ × Stat × Option (List UInt8)} {k' : State}
    (hrun : (Names.readBack name).kern.run (Fs.exec p) (boot d) = (.ok (some x), k')) :
    x.1 = (rootEntry files T).inum := by
  obtain ⟨k, hk, -, heq⟩ := h.readBack (p := p) hnul hT hhit hfirst
  rw [heq] at hrun
  have hwp : (Names.readInode (rootEntry files T).inum >>= fun y => pure (some y)).wp (kexec p)
      (fun r _ => ∀ y, r = some y → y.1 = (rootEntry files T).inum) (fun _ _ => True) k :=
    wp_seq (readInode_stat hk) fun y _ ⟨hy, _⟩ z hz => Option.some.inj hz ▸ hy
  exact (wp_run hwp hrun).1 _ rfl x rfl

theorem bitmap_agrees {root : List UInt8} (hf : Final m root d) {b : ℕ} (hb : b < size) :
    bit (getSuper (d 1)) d b = true ↔ b < m.freeblock := by
  have hb : b < 1024 := hb
  have hsuper : getSuper (putSuper sb) = sb := by decide +kernel
  have hblock : BBLOCK b sb.ninodes = 28 := BBLOCK_wide (by omega)
  unfold bit
  rw [hf.super, hsuper, hblock, hf.bitmap, getBit_bits, decide_eq_true_iff, Nat.mod_eq_of_lt]
  unfold BPB
  omega

theorem fileName_eq (hj : j < files.length) :
    fileName files j = (entryName files[j].1).take DIRSIZ := by
  unfold fileName
  rw [getD_eq_getElem _ _ hj]

/-- A file that the kernel finds in its own inode does not have the name of the first two entries. -/
theorem Mounted.not_dots (h : Mounted m (rootBytes files) (files.map Prod.snd) d (boot d))
    (hnul : ∀ f ∈ files, (0 : UInt8) ∉ f.1) {st : Stat} {l : Option (List UInt8)} {k' : State}
    (hrun : (Names.readBack name).kern.run (Fs.exec p) (boot d) = (.ok (some (j + 2, st, l)), k')) :
    name.take DIRSIZ ≠ dot ∧ name.take DIRSIZ ≠ dotdot := by
  have hne : j + 2 ≠ ROOTINO := by
    unfold ROOTINO
    omega
  have hdot : name.take DIRSIZ ≠ dot := fun hdot =>
    hne (h.inum (T := 0) hnul (by omega) (hit_dot.mpr hdot) (fun u hu => absurd hu (Nat.not_lt_zero u)) hrun)
  refine ⟨hdot, fun hdotdot =>
    hne (h.inum (T := 1) hnul (by omega) (hit_dotdot.mpr hdotdot) (fun u hu hhit => ?_) hrun)⟩
  obtain rfl : u = 0 := by omega
  exact hdot (hit_dot.mp hhit)

/-- The entry of a file is the first one for its name. -/
theorem first_hit (hdistinct : (files.map fun f => (entryName f.1).take DIRSIZ).Nodup)
    (hj : j < files.length) (hdot : (entryName files[j].1).take DIRSIZ ≠ dot)
    (hdotdot : (entryName files[j].1).take DIRSIZ ≠ dotdot) :
    ∀ u < j + 2, ¬ hit (entryName files[j].1) (rootEntry files u) := by
  intro u hu hhit
  match u with
  | 0 => exact hdot (hit_dot.mp hhit)
  | 1 => exact hdotdot (hit_dotdot.mp hhit)
  | u + 2 =>
    have hu' : u < files.length := by omega
    have hsame := (hit_rootEntry u).mp hhit
    rw [fileName_eq hu'] at hsame
    have hget : (files.map fun f => (entryName f.1).take DIRSIZ)[j]?
        = (files.map fun f => (entryName f.1).take DIRSIZ)[u]? := by
      rw [getElem?_map, getElem?_map, getElem?_eq_getElem hj,
        getElem?_eq_getElem hu', Option.map_some, Option.map_some, hsame]
    have hidx : j = u := (getElem?_inj (by rwa [length_map]) hdistinct).mp hget
    omega

theorem Mounted.agrees (h : Mounted m (rootBytes files) (files.map Prod.snd) mf.disk (boot mf.disk))
    (hfb : mf.freeblock = m.freeblock) (hnul : ∀ f ∈ files, (0 : UInt8) ∉ f.1)
    (hdistinct : (files.map fun f => (entryName f.1).take DIRSIZ).Nodup)
    (hnames : ∀ f ∈ files, (entryName f.1).take DIRSIZ ≠ dot ∧ (entryName f.1).take DIRSIZ ≠ dotdot) :
    Agrees files mf := by
  refine ⟨fun j hj => ?_, fun b hb => hfb ▸ bitmap_agrees h.final hb⟩
  obtain ⟨hdot, hdotdot⟩ := hnames _ (getElem_mem hj)
  obtain ⟨k, hk, href, heq⟩ := h.readBack (p := initproc) hnul (by omega)
    ((hit_rootEntry j).mpr (fileName_eq hj).symm) (first_hit hdistinct hj hdot hdotdot)
  have hM : Mounted m (rootBytes files) (files.map Prod.snd) mf.disk k :=
    ⟨h.made, h.final, h.files, h.blocks, hk⟩
  obtain ⟨k', hread⟩ := hM.readInode (p := initproc) hj href
  refine ⟨k', ?_⟩
  rw [heq]
  exact run_seq hread _

/-- **`mkfs` and the kernel agree on the format**, for files with different names that fit. -/
theorem mkfs_kernel_agree (hnul : ∀ f ∈ files, (0 : UInt8) ∉ f.1)
    (hdistinct : (files.map fun f => (entryName f.1).take DIRSIZ).Nodup)
    (hsize : ∀ f ∈ files, f.2.length ≤ MAXFILE * BSIZE) (hfit : blocksOf files ≤ nblocks) :
    (∃ m, mkfs files = some m ∧ Agrees files m) ↔ files.length ≤ 206 ∧
      ∀ f ∈ files, slash ∉ f.1 ∧ (entryName f.1).take DIRSIZ ≠ dot ∧
        (entryName f.1).take DIRSIZ ≠ dotdot := by
  constructor
  · rintro ⟨mf, hmf, hagree⟩
    have hslash := mkfs_slash hmf
    have hfiles : files.length ≤ 206 := by
      by_contra hmany
      obtain ⟨k', hrun⟩ := hagree.1 206 (by omega)
      have hstat := (wp_run (readBack_stat (boot_shows mf.disk)) hrun).1 _ rfl _ rfl
      have himage : image files = some mf.disk := by rw [image, hmf, Option.map_some]
      exact image_type_208 himage (congrArg Stat.type hstat).symm
    obtain ⟨m, mf', hmf', -, hM⟩ := mkfs_mounted hfiles hfit hslash hsize
    obtain rfl := Option.some.inj (hmf.symm.trans hmf')
    refine ⟨hfiles, fun f hf => ⟨hslash f hf, ?_⟩⟩
    obtain ⟨j, hj, rfl⟩ := getElem_of_mem hf
    obtain ⟨k', hrun⟩ := hagree.1 j hj
    exact hM.not_dots hnul hrun
  · rintro ⟨hfiles, hnames⟩
    obtain ⟨m, mf, hmf, hfb, hM⟩ := mkfs_mounted hfiles hfit (fun f hf => (hnames f hf).1) hsize
    exact ⟨mf, hmf, hM.agrees hfb hnul hdistinct fun f hf => (hnames f hf).2⟩

/-- One file, with the name `_a` and three bytes. -/
theorem mkfs_kernel_agree_one : ∃ m, mkfs [([95, 97], [1, 2, 3])] = some m ∧
    Agrees [([95, 97], [1, 2, 3])] m :=
  (mkfs_kernel_agree (by decide) (by decide) (by decide) (by decide)).mpr (by decide)

/-- A file with the name `_.`: the kernel finds the root directory under its name. -/
theorem mkfs_dot : ∃ m k, mkfs [([95, 46], [])] = some m ∧
    (do Names.ilock ROOTINO; dirlookup ROOTINO (entryName [95, 46]) : Fsys _).kern.run (Fs.exec initproc)
      (boot m.disk) = (.ok (some (ROOTINO, 0)), k) ∧
    (dinodeAt m.disk ROOTINO).type = T_DIR := by
  have hfit : blocksOf [([95, 46], [])] ≤ nblocks := by decide
  obtain ⟨m, mf, hmf, -, hM⟩ := mkfs_mounted (by decide) hfit (by decide) (by decide)
  obtain ⟨k1, k, hilock, hfind, -, -⟩ := hM.lookup (p := initproc) (T := 0) (by decide) (by decide)
    (hit_dot.mpr (by decide : (entryName [95, 46]).take DIRSIZ = dot)) fun u hu => absurd hu (Nat.not_lt_zero u)
  refine ⟨mf, k, hmf, ?_, hM.root_type⟩
  rw [kern_run, run_seq hilock]
  exact hfind

end

end Xv6.Fs.Mkfs
