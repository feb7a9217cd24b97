import Xv6.Fs.MkfsFiles

/-! # Holes in the images that `mkfs` makes

The kernel allocates a block when it reads a hole, and `balloc` panics outside of a transaction. An image
of at most 214 files has no holes and keeps off the log (`NoHoles`) exactly if there are few enough blocks
and the root directory does not end at the end of a block: `mkfs` rounds its size up to the *next* block.
The inodes of the files from 207 on lie in the sector of the bitmap, which overwrites them at the end. -/

namespace Xv6.Fs.Mkfs

open Img Option Function

/-- The address of block `bn` of inode `i`, as `bmap` finds it. -/
def blockAddr (d : ℕ → Block) (i bn : ℕ) : ℕ := (dinodeAt d i).ptr d (place bn)

/-- Inode `i` has a block below the log for every block index below its size. -/
def Whole (d : ℕ → Block) (i : ℕ) : Prop :=
  ∀ bn, bn * BSIZE < (dinodeAt d i).size →
    blockAddr d i bn ≠ 0 ∧ blockAddr d i bn < (getSuper (d 1)).logStart

/-- The inodes of the root directory and of `n` files have no holes. -/
def NoHoles (n : ℕ) (d : ℕ → Block) : Prop := ∀ i, 1 ≤ i → i ≤ n + 1 → Whole d i

/-- The blocks of the root directory and of the files. -/
def blocksOf (files : List (List UInt8 × List UInt8)) : ℕ :=
  placesOf (16 * (files.length + 2)) + blockCount (files.map Prod.snd)

/-! ### The bitmap as inodes -/

section
variable {files : List (List UInt8 × List UInt8)} {d : ℕ → Block} {u o j : ℕ}

theorem image_bitmap (h : image files = some d) : ∃ u, d 28 = bits u := by
  obtain ⟨m, hm, rfl⟩ := map_eq_some_iff.mp h
  unfold mkfs at hm
  obtain ⟨m0, -, h⟩ := bind_eq_some_iff.mp hm
  obtain ⟨m1, -, h⟩ := bind_eq_some_iff.mp h
  obtain ⟨m2, -, h⟩ := bind_eq_some_iff.mp h
  obtain ⟨m3, -, h⟩ := bind_eq_some_iff.mp h
  obtain ⟨m4, -, h⟩ := bind_eq_some_iff.mp h
  unfold Img.balloc at h
  split_ifs at h
  rw [← some.inj h]
  exact ⟨m4.usedblocks, disk_wsect_self⟩

theorem bits_ge (h : 8 * o + j < u) (hj : j < 8) : 2 ^ j ≤ (bits u o).toNat := by
  have hbit := getBit_bits u (8 * o + j)
  rw [decide_eq_true h, getBit, show (8 * o + j) / 8 = o by omega, show (8 * o + j) % 8 = j by omega] at hbit
  exact Nat.ge_two_pow_of_testBit hbit

theorem bits_zero (h : u ≤ 8 * o) : bits u o = 0 := by
  induction u with
  | zero => rfl
  | succ u ih =>
    rw [bits_succ, setBit, if_neg (by omega)]
    exact ih (by omega)

theorem word_bits_zero (h : u ≤ 8 * o) : word (bits u) o = 0 := by
  refine (Bytes.val_congr fun x _ => ?_).trans (Bytes.val_zero 4)
  exact bits_zero (by omega)

theorem word_bits_ge (h : 8 * o + 10 < u) : 1024 ≤ word (bits u) o := by
  have hbyte := bits_ge (show 8 * (o + 1) + 2 < u by omega) (by omega)
  show 1024 ≤ (bits u o).toNat + 256 * ((bits u (o + 1)).toNat + _)
  omega

theorem word_bits_pos (h : 8 * o < u) : 0 < word (bits u) o := by
  have hbyte := bits_ge (o := o) (j := 0) h (by omega)
  show 0 < (bits u o).toNat + _
  omega

theorem image_type_208 (h : image files = some d) : (dinodeAt d 208).type ≠ T_FILE := by
  obtain ⟨u, hd⟩ := image_bitmap h
  have htype : (dinodeAt d 208).type = (bits u 0).toNat + 256 * (bits u 1).toNat := by
    show half (d 28) 0 = _
    rw [hd]
    rfl
  rw [htype]
  unfold T_FILE
  cases u with
  | zero => decide
  | succ u =>
    have hodd : (bits (u + 1) 0).toNat % 2 = 1 := by
      have hbit := getBit_bits (u + 1) 0
      unfold getBit at hbit
      simpa [Nat.testBit_zero] using hbit
    omega

/-- Inode 208 is a part of the bitmap. Its size is 0 only if at most 64 blocks are in use; else it has no
first block, or has no second block, or the first is behind the disk. -/
theorem bitmap_whole (hd : d 28 = bits u) (hlog : (getSuper (d 1)).logStart = 1014) (h : Whole d 208) :
    u ≤ 64 := by
  have hsize : (dinodeAt d 208).size = word (bits u) 8 := by
    rw [← hd]
    rfl
  have haddr : ∀ n < 2, blockAddr d 208 n = word (bits u) (12 + 4 * n) := fun n hn => by
    have hn : n < NDIRECT := hn.trans (by decide)
    unfold blockAddr Dinode.ptr place
    rw [← hd, if_pos hn, if_pos hn.le]
    exact if_pos hn.le
  unfold Whole at h
  rw [hsize, hlog] at h
  by_contra hu
  obtain ⟨h0, hlt⟩ := h 0 (by rw [Nat.zero_mul]; exact word_bits_pos (by omega))
  rw [haddr 0 (by omega)] at h0 hlt
  have h96 : 96 < u := by
    by_contra hle
    exact h0 (word_bits_zero (by omega))
  have hlarge : 1024 ≤ word (bits u) 8 := word_bits_ge (by omega)
  obtain ⟨h1, -⟩ := h 1 (by unfold BSIZE; omega)
  rw [haddr 1 (by omega)] at h1
  have h128 : 128 < u := by
    by_contra hle
    exact h1 (word_bits_zero (by omega))
  exact absurd (word_bits_ge (show 8 * (12 + 4 * 0) + 10 < u by omega)) (by omega)

theorem whole_of_bitmap {i : ℕ} (hd : d 28 = bits u) (hu : u ≤ 64) (hi : IBLOCK i = 28) : Whole d i := by
  have hsize : (dinodeAt d i).size = word (bits u) (64 * (i % IPB) + 8) := by
    rw [← hd, ← hi]
    rfl
  intro bn hbn
  rw [hsize, word_bits_zero (by omega)] at hbn
  exact absurd hbn (Nat.not_lt_zero _)

/-! ### The inodes of the image -/

theorem placesOf_mul (bn : ℕ) : placesOf (bn * BSIZE) ≤ place bn := by
  have hdiv : (bn * BSIZE + BSIZE - 1) / BSIZE = bn := by
    unfold BSIZE
    omega
  unfold placesOf place
  rw [hdiv]
  by_cases h : NDIRECT * BSIZE < bn * BSIZE
  · have hlt := Nat.lt_of_mul_lt_mul_right h
    rw [if_pos h, if_neg (by omega)]
  · rw [if_neg h]
    split_ifs <;> omega

theorem lt_of_place {bn s : ℕ} (h : place bn < placesOf s) : bn * BSIZE < s := by
  by_contra hle
  exact absurd (h.trans_le ((placesOf_mono (Nat.le_of_not_lt hle)).trans (placesOf_mul bn))) (by omega)

variable {S : Set ℕ} {m : Img} {root : List UInt8} {fs : List (List UInt8)} {i bn : ℕ}

theorem madeNodes_lt (h : (madeNodes root fs i).stat.type ≠ 0) : 1 ≤ i ∧ i ≤ fs.length + 1 := by
  match i with
  | 0 => exact absurd rfl h
  | 1 => exact ⟨le_rfl, Nat.le_add_left _ _⟩
  | i + 2 =>
    by_contra hi
    rw [madeNodes_none (by omega)] at h
    exact h rfl

theorem madeNodes_type_ne (h1 : 1 ≤ i) (h2 : i ≤ fs.length + 1) :
    (madeNodes root fs i).stat.type ≠ 0 := by
  match i with
  | 1 => exact (by decide : T_DIR ≠ 0)
  | i + 2 =>
    rw [madeNodes_file (show i < fs.length by omega)]
    exact (by decide : T_FILE ≠ 0)

theorem Made.type_ne (h : Made S m root fs) (h1 : 1 ≤ i) (h2 : i ≤ fs.length + 1) (hi : i < 208) :
    (m.nodes i).stat.type ≠ 0 := by
  rw [h.nodes i h1 hi]
  exact madeNodes_type_ne h1 h2

theorem Made.found (h : Made S m root fs) (hf : Final m root d) (h1 : 1 ≤ i) (h2 : i ≤ fs.length + 1)
    (hi : i < 208) :
    (dinodeAt d i).type = (m.nodes i).stat.type ∧ (∀ n, (dinodeAt d i).ptr d n = m.ptr i n) ∧
      (dinodeAt d i).size = if i = ROOTINO then (root.length / BSIZE + 1) * BSIZE
        else (m.len i) := by
  have hu := used_of_type (h.type_ne h1 h2 hi)
  have hview : view cold m.full i = dinodeAt m.full i := h.good.settled.view_eq hi
  have hsame : (dinodeAt d i).type = (dinodeAt m.full i).type ∧
      (dinodeAt d i).addrs = (dinodeAt m.full i).addrs := by
    by_cases e : i = ROOTINO
    · rw [e, hf.root]
      exact ⟨rfl, rfl⟩
    · rw [hf.inode i h1 hi e]
      exact ⟨rfl, rfl⟩
  refine ⟨hsame.1.trans (nodes_type h.good.settled hi).symm, fun n => ?_, ?_⟩
  · unfold ptr
    rw [ptrs_used hu, hview]
    refine ptr_congr hsame.2 fun h0 => hf.data _ ?_
    have hp : ptrs wide (view cold m.full) m.full i NDIRECT ≠ 0 := by
      rwa [ptrs_indirect hu, hview]
    have harea := (h.good.settled.tidy.ptr_area hp).1
    rwa [ptrs_indirect hu, hview] at harea
  · by_cases e : i = ROOTINO
    · rw [if_pos e, e, hf.root]
      rfl
    · rw [if_neg e, hf.inode i h1 hi e, nodes_size hu, hview]

theorem Made.ptr_lt (h : Made S m root fs) {n : ℕ} (hp : m.ptr i n ≠ 0) : m.ptr i n < m.freeblock := by
  have harea : m.ptr i n < 1027 := (h.good.settled.tidy.ptr_area hp).2
  have hbit : bit wide m.full (m.ptr i n) = true := h.good.settled.tidy.owned.mark_of_ne hp
  rw [bit_full (show m.ptr i n < 4096 by omega)] at hbit
  exact of_decide_eq_true hbit

theorem Made.cover (h : Made S m root fs) (h1 : 1 ≤ i) (h2 : i ≤ fs.length + 1) (hi : i < 208)
    (hbn : bn * BSIZE < m.len i) : m.ptr i (place bn) ≠ 0 := by
  have hu := used_of_type (h.type_ne h1 h2 hi)
  have hplace := place_lt hbn
  rw [Nat.mul_div_cancel bn (by decide), nodes_size hu] at hplace
  exact h.good.settled.tidy.cover i hu _ hplace

theorem Final.logStart (hf : Final m root d) : (getSuper (d 1)).logStart = 1014 := by
  have hsuper : getSuper (putSuper sb) = sb := by decide +kernel
  rw [hf.super, hsuper]
  rfl

/-- If the root directory does not fill its last block, and the blocks are below the log, the inodes before
the bitmap have no holes. -/
theorem Made.whole (h : Made S m root fs) (hf : Final m root d) (hroot : ¬ BSIZE ∣ root.length)
    (hfew : m.freeblock ≤ 1014) (h1 : 1 ≤ i) (h2 : i ≤ fs.length + 1) (hi : i < 208) : Whole d i := by
  intro bn hbn
  obtain ⟨-, hptr, hsize⟩ := h.found hf h1 h2 hi
  have hlt : bn * BSIZE < m.len i := by
    rw [hsize] at hbn
    split_ifs at hbn with e
    · rw [e, h.len_root]
      unfold BSIZE at hroot hbn ⊢
      omega
    · exact hbn
  have hp := h.cover h1 h2 hi hlt
  have hbelow := h.ptr_lt hp
  rw [hf.logStart, blockAddr, hptr]
  exact ⟨hp, by omega⟩

/-- A root directory that fills its last block gets a hole. -/
theorem Made.root_hole (h : Made S m root fs) (hf : Final m root d) (hroot : BSIZE ∣ root.length) :
    root.length / BSIZE * BSIZE < (dinodeAt d ROOTINO).size ∧
      blockAddr d ROOTINO (root.length / BSIZE) = 0 := by
  obtain ⟨-, hptr, hsize⟩ := h.found hf (i := ROOTINO) le_rfl (Nat.le_add_left _ _) (by decide)
  refine ⟨?_, ?_⟩
  · rw [hsize, if_pos rfl]
    exact Nat.mul_lt_mul_of_pos_right (Nat.lt_succ_self _) (by decide)
  · unfold blockAddr
    rw [hptr]
    by_contra hp
    have htight := lt_of_place (h.good.tight _ _ hp)
    rw [h.len_root, Nat.div_mul_cancel hroot] at htight
    exact absurd htight (Nat.lt_irrefl _)

/-- If up to 206 files have no holes, the block that was taken last is below the log. -/
theorem Made.few (h : Made S m root fs) (hf : Final m root d) (hfs : fs.length ≤ 206)
    (hno : NoHoles fs.length d) : m.freeblock ≤ 1014 := by
  obtain h29 | hstray | ⟨j, bn, hlast⟩ := h.good.last
  · omega
  · rw [(h.early hfs).1] at hstray
    exact absurd hstray (Set.notMem_empty _)
  have h29 := h.good.zeroed.lo
  have hp : m.ptr j (place bn) ≠ 0 := by omega
  have hu := used_of_ptrs hp
  have hj : j < 208 := hu.1
  have htype := h.good.type_ne hu
  have h1 : 1 ≤ j := by
    by_contra h0
    rw [Nat.eq_zero_of_not_pos h0, (h.early hfs).2] at htype
    exact htype rfl
  rw [h.nodes j h1 hj] at htype
  obtain ⟨h1, h2⟩ := madeNodes_lt htype
  obtain ⟨-, hptr, hsize⟩ := h.found hf h1 h2 hj
  have hbn := lt_of_place (h.good.tight j _ hp)
  have hlt : bn * BSIZE < (dinodeAt d j).size := by
    rw [hsize]
    split_ifs with e
    · rw [e, h.len_root] at hbn
      have := Nat.lt_div_mul_add (a := root.length) (show 0 < BSIZE by decide)
      rw [Nat.succ_mul]
      omega
    · exact hbn
  have hbelow := (hno j h1 h2 bn hlt).2
  rw [hf.logStart, blockAddr, hptr] at hbelow
  omega

/-- **Images without holes.** -/
theorem mkfs_no_holes (h : image files = some d) (hfiles : files.length ≤ 214) :
    NoHoles files.length d ↔ ¬ 32 ∣ files.length + 2 ∧
      blocksOf files ≤ if files.length ≤ 206 then nblocks else 35 := by
  obtain ⟨mf, hmf, rfl⟩ := map_eq_some_iff.mp h
  obtain ⟨S, m, m', hrun, -, hm, hf⟩ | ⟨hrun, -⟩ := mkfs_made files hfiles
  swap
  · rw [hmf] at hrun
    cases hrun
  rw [hmf] at hrun
  obtain rfl := some.inj hrun
  have hfs : (files.map Prod.snd).length = files.length := List.length_map _
  have hlen := rootBytes_length files
  have hblocks : m.freeblock = 29 + blocksOf files := by
    rw [hm.blocks, hlen, blocksOf]
    omega
  have hroot : BSIZE ∣ (rootBytes files).length ↔ 32 ∣ files.length + 2 := by
    rw [hlen]
    unfold BSIZE
    omega
  constructor
  · intro hno
    refine ⟨fun hdvd => ?_, ?_⟩
    · obtain ⟨hlt, hhole⟩ := hm.root_hole hf (hroot.mpr hdvd)
      exact (hno ROOTINO le_rfl (Nat.le_add_left _ _) _ hlt).1 hhole
    · split_ifs with hmany
      · have hbelow := hm.few hf (hfs.trans_le hmany) (hfs ▸ hno)
        show blocksOf files ≤ 985
        omega
      · have hbelow := bitmap_whole hf.bitmap hf.logStart (hno 208 (by omega) (by omega))
        omega
  · rintro ⟨hdvd, hfew⟩ i h1 h2
    have hbelow : blocksOf files ≤ 985 ∧ (206 < files.length → blocksOf files ≤ 35) := by
      unfold nblocks at hfew
      split_ifs at hfew <;> omega
    by_cases hi : i < 208
    · exact hm.whole hf (mt hroot.mp hdvd) (by omega) h1 (hfs ▸ h2) hi
    · exact whole_of_bitmap hf.bitmap (by omega) (by unfold IBLOCK IPB; omega)

/-- The image without files. -/
theorem mkfs_no_holes_plain : ∃ d, image [] = some d ∧ NoHoles 0 d := by
  obtain ⟨S, m, m', hrun, -⟩ | ⟨-, hwhy⟩ := mkfs_made [] (by decide)
  · have himage : image [] = some m'.disk := by rw [image, hrun, map_some]
    exact ⟨m'.disk, himage, (mkfs_no_holes himage (by decide)).mpr (by decide)⟩
  · exact absurd hwhy (by unfold Refused; decide)

/-- Thirty empty files, with the names `a`, `b`, … -/
def thirty : List (List UInt8 × List UInt8) :=
  (List.range 30).map fun i => ([UInt8.ofNat (97 + i)], [])

/-- With thirty files the root directory fills one block. Its size becomes two blocks, and it has no
second one. -/
theorem mkfs_root_hole : ∃ d, image thirty = some d ∧ (dinodeAt d ROOTINO).size = 1024 ∧
    blockAddr d ROOTINO 1 = 0 := by
  obtain ⟨S, m, m', hrun, -, hm, hf⟩ | ⟨-, hwhy⟩ := mkfs_made thirty (by decide)
  · have hlen : (rootBytes thirty).length = 512 := rootBytes_length thirty
    obtain ⟨-, -, hsize⟩ := hm.found hf (i := ROOTINO) le_rfl (by decide) (by decide)
    obtain ⟨-, hhole⟩ := hm.root_hole hf (hlen ▸ dvd_rfl)
    rw [hlen] at hsize hhole
    exact ⟨m'.disk, by rw [image, hrun, map_some], hsize, hhole⟩
  · exact absurd hwhy (by unfold Refused; decide)

end

end Xv6.Fs.Mkfs
