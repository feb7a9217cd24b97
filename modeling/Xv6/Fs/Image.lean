import Xv6.Fs.Format
import Xv6.Fs.Names
import Xv6.Lib.Owned

/-! # What the blocks of a file system hold

A disk `H`, below its log, is read here through its super block `sb`: the bit of a block, the inodes,
and the blocks that an inode points to. The pointers of an inode are numbered by *places*: `0` to
`11` are the direct ones, `12` is the indirect block and `13` to `140` are its words. The inodes are
given by a function `ino`, since a copy in memory counts more than the disk.

`Tidy sb S ino H`: every pointer of an allocated inode is in the data area and marked in the bitmap, no
two places have the same pointer, every marked block of the data area has a place, and the blocks below
the size of an inode are there. `node sb ino H i` is what inode `i` is for its users: its fields and its
bytes. -/

namespace Xv6.Fs

open Function

/-! ### The areas of the disk -/

/-- The first block of the bitmap. -/
def Superblock.bitStart (sb : Superblock) : ℕ := sb.ninodes / IPB + 3

/-- There is room for inodes up to the bitmap; `ialloc` allocates those below `ninodes`. -/
def Superblock.inodeEnd (sb : Superblock) : ℕ := IPB * (sb.bitStart - 2)

/-- The first block behind the bitmap. -/
def Superblock.dataStart (sb : Superblock) : ℕ := sb.bitStart + (sb.size / BPB + 1)

/-- The first block of the log. -/
def Superblock.logStart (sb : Superblock) : ℕ := sb.size - sb.nlog

/-- The bit of block `b`. -/
def bit (sb : Superblock) (H : ℕ → Block) (b : ℕ) : Bool :=
  getBit (H (BBLOCK b sb.ninodes)) (b % BPB)

/-- The number of free blocks in the data area. -/
def room (sb : Superblock) (H : ℕ → Block) : ℕ := spare (bit sb H) sb.dataStart sb.logStart

/-- Inode `i` on the disk. -/
def dinodeAt (H : ℕ → Block) (i : ℕ) : Dinode := getDinode (H (IBLOCK i)) (i % IPB)

section
variable {sb : Superblock} {H H' : ℕ → Block} {i j b : ℕ}

theorem IBLOCK_lt (hi : i < sb.inodeEnd) : IBLOCK i < sb.bitStart := by
  unfold Superblock.inodeEnd Superblock.bitStart IPB at hi
  unfold IBLOCK Superblock.bitStart IPB
  omega

theorem BBLOCK_ge (sb : Superblock) (b : ℕ) : sb.bitStart ≤ BBLOCK b sb.ninodes := by
  unfold BBLOCK Superblock.bitStart
  rw [Nat.add_assoc]
  exact Nat.le_add_left _ _

theorem BBLOCK_lt (hb : b < sb.size) : BBLOCK b sb.ninodes < sb.dataStart := by
  have : b / BPB ≤ sb.size / BPB := Nat.div_le_div_right hb.le
  unfold BBLOCK Superblock.dataStart Superblock.bitStart
  omega

theorem three_le_bitStart (sb : Superblock) : 3 ≤ sb.bitStart := Nat.le_add_left _ _

theorem lt_dataStart (sb : Superblock) : sb.bitStart < sb.dataStart :=
  Nat.lt_add_of_pos_right (Nat.succ_pos _)

theorem dataStart_pos (sb : Superblock) : 0 < sb.dataStart :=
  Nat.lt_of_le_of_lt (Nat.zero_le _) (lt_dataStart sb)

theorem lt_size (hb : b < sb.logStart) : b < sb.size := by
  unfold Superblock.logStart at hb
  omega

theorem bit_congr (h : H' (BBLOCK b sb.ninodes) = H (BBLOCK b sb.ninodes)) :
    bit sb H' b = bit sb H b := by
  unfold bit
  rw [h]

theorem dinodeAt_update_of_ne {d : Block} (h : IBLOCK j ≠ b) :
    dinodeAt (update H b d) j = dinodeAt H j := by
  unfold dinodeAt
  rw [update_of_ne h]

theorem dinodeAt_put {d : Dinode} (h : d.Fits) :
    dinodeAt (update H (IBLOCK i) (putDinode (H (IBLOCK i)) (i % IPB) d)) i = d := by
  unfold dinodeAt
  rw [update_self, getDinode_put _ _ h]

theorem dinodeAt_put_of_ne (d : Dinode) (h : j ≠ i) :
    dinodeAt (update H (IBLOCK i) (putDinode (H (IBLOCK i)) (i % IPB) d)) j
      = dinodeAt H j := by
  by_cases e : IBLOCK j = IBLOCK i
  · unfold dinodeAt
    rw [e, update_self]
    refine getDinode_put_of_ne _ _ fun e' => h ?_
    unfold IBLOCK IPB at e
    unfold IPB at e'
    omega
  · exact dinodeAt_update_of_ne e

/-! ### Marking and freeing a block -/

/-- Block `b` is marked, and filled with zeros. -/
def mark (sb : Superblock) (H : ℕ → Block) (b : ℕ) : ℕ → Block :=
  update (update H (BBLOCK b sb.ninodes)
    (setBit (H (BBLOCK b sb.ninodes)) (b % BPB))) b zeroBlock

theorem same_bit {x : ℕ} (h : BBLOCK x sb.ninodes = BBLOCK b sb.ninodes) :
    x % BPB = b % BPB ↔ x = b := by
  unfold BBLOCK BPB at h
  unfold BPB
  omega

theorem bit_mark {x : ℕ} (hb : sb.dataStart ≤ b) (hx : x < sb.size) :
    bit sb (mark sb H b) x = (bit sb H x || decide (x = b)) := by
  have hne : BBLOCK x sb.ninodes ≠ b := by
    have := BBLOCK_lt hx
    omega
  unfold bit mark
  rw [update_of_ne hne]
  by_cases e : BBLOCK x sb.ninodes = BBLOCK b sb.ninodes
  · rw [e, update_self, getBit_setBit]
    simp only [same_bit e]
  · have hxb : x ≠ b := fun e' => e (by rw [e'])
    rw [update_of_ne e]
    simp [hxb]

@[simp] theorem mark_self : mark sb H b b = zeroBlock := update_self _ _ _

theorem mark_low {s : ℕ} (hs : s < sb.bitStart) (hb : sb.dataStart ≤ b) :
    mark sb H b s = H s := by
  have h1 : s ≠ b := by have := lt_dataStart sb; omega
  have h2 : s ≠ BBLOCK b sb.ninodes := by have := BBLOCK_ge sb b; omega
  unfold mark
  rw [update_of_ne h1, update_of_ne h2]

theorem mark_data {s : ℕ} (hs : sb.dataStart ≤ s) (hb : b < sb.size) (hne : s ≠ b) :
    mark sb H b s = H s := by
  have h2 : s ≠ BBLOCK b sb.ninodes := by have := BBLOCK_lt hb; omega
  unfold mark
  rw [update_of_ne hne, update_of_ne h2]

theorem room_mark (hlo : sb.dataStart ≤ b) (hhi : b < sb.logStart) (hb : bit sb H b = false) :
    room sb (mark sb H b) + 1 = room sb H := by
  refine spare_add hlo hhi hb fun x _ hx => ?_
  rw [bit_mark hlo (lt_size hx)]
  simp

end

/-! ### The pointers of an inode -/

/-- What an inode has at place `n`. -/
def Dinode.ptr (H : ℕ → Block) (d : Dinode) (n : ℕ) : ℕ :=
  if n ≤ NDIRECT then d.addrs n
  else if d.addrs NDIRECT = 0 ∨ MAXFILE < n then 0
  else word (H (d.addrs NDIRECT)) (4 * (n - (NDIRECT + 1)))

/-- The place of block `bn` of a file. -/
def place (bn : ℕ) : ℕ := if bn < NDIRECT then bn else bn + 1

/-- The number of places that a file of the given size uses. -/
def placesOf (size : ℕ) : ℕ :=
  (size + BSIZE - 1) / BSIZE + if NDIRECT * BSIZE < size then 1 else 0

/-- The inode is in use. -/
def Used (sb : Superblock) (ino : ℕ → Dinode) (i : ℕ) : Prop := i < sb.inodeEnd ∧ (ino i).type ≠ 0
deriving Decidable

/-- The pointers of the inodes that are in use. -/
def ptrs (sb : Superblock) (ino : ℕ → Dinode) (H : ℕ → Block) (i n : ℕ) : ℕ :=
  if Used sb ino i then (ino i).ptr H n else 0

/-- The blocks of the file system are in order. -/
structure Tidy (sb : Superblock) (S : Set ℕ) (ino : ℕ → Dinode) (H : ℕ → Block) : Prop where
  super : getSuper (H 1) = sb
  area : sb.dataStart ≤ sb.logStart
  low : ∀ b < sb.dataStart, bit sb H b = true
  owned : Owned S (ptrs sb ino H) (bit sb H) sb.dataStart sb.logStart
  cover : ∀ i, Used sb ino i → ∀ n < placesOf (ino i).size, ptrs sb ino H i n ≠ 0
  size : ∀ i, Used sb ino i → (ino i).size ≤ MAXFILE * BSIZE

/-- What an inode is for its users: its fields, and its bytes below its size. -/
structure Node where
  stat : Stat
  data : ℕ → UInt8

/-- A free inode. -/
def Node.free : Node := ⟨⟨0, 0, 0, 0, 0⟩, fun _ => 0⟩

/-- Byte `o` of an inode. -/
def byteAt (sb : Superblock) (ino : ℕ → Dinode) (H : ℕ → Block) (i o : ℕ) : UInt8 :=
  H (ptrs sb ino H i (place (o / BSIZE))) (o % BSIZE)

def node (sb : Superblock) (ino : ℕ → Dinode) (H : ℕ → Block) (i : ℕ) : Node :=
  if Used sb ino i then
    ⟨(ino i).stat, fun o => if o < (ino i).size then byteAt sb ino H i o else 0⟩
  else Node.free

section
variable {sb : Superblock} {S : Set ℕ} {H H' : ℕ → Block} {ino ino' : ℕ → Dinode} {i j n s : ℕ}

theorem ptrs_used (h : Used sb ino i) : ptrs sb ino H i n = (ino i).ptr H n := if_pos h

theorem ptrs_unused (h : ¬ Used sb ino i) : ptrs sb ino H i n = 0 := if_neg h

theorem used_of_ptrs (h : ptrs sb ino H i n ≠ 0) : Used sb ino i := by
  by_contra hu
  exact h (if_neg hu)

theorem ptr_direct (d : Dinode) (h : n ≤ NDIRECT) : d.ptr H n = d.addrs n := if_pos h

theorem ptr_word {d : Dinode} (h : d.addrs NDIRECT ≠ 0) (hn : n < NINDIRECT) :
    d.ptr H (n + (NDIRECT + 1)) = word (H (d.addrs NDIRECT)) (4 * n) := by
  have h1 : ¬ n + (NDIRECT + 1) ≤ NDIRECT := by omega
  have h2 : ¬ MAXFILE < n + (NDIRECT + 1) := by
    unfold NINDIRECT at hn
    unfold MAXFILE NDIRECT
    omega
  unfold Dinode.ptr
  rw [if_neg h1, if_neg (by simp [h, h2]), Nat.add_sub_cancel]

/-- The pointers depend on the type, the addresses and the indirect block. -/
theorem ptr_congr {d d' : Dinode} (ha : d'.addrs = d.addrs)
    (hH : d.addrs NDIRECT ≠ 0 → H' (d.addrs NDIRECT) = H (d.addrs NDIRECT)) :
    d'.ptr H' n = d.ptr H n := by
  unfold Dinode.ptr
  rw [ha]
  by_cases h0 : d.addrs NDIRECT = 0
  · simp [h0]
  · rw [hH h0]

theorem ptrs_indirect (h : Used sb ino i) : ptrs sb ino H i NDIRECT = (ino i).addrs NDIRECT := by
  rw [ptrs_used h, ptr_direct _ le_rfl]

theorem place_ne (bn : ℕ) : place bn ≠ NDIRECT := by
  unfold place
  split_ifs <;> omega

theorem place_lt {o size : ℕ} (h : o < size) : place (o / BSIZE) < placesOf size := by
  unfold place placesOf BSIZE NDIRECT
  split_ifs <;> omega

theorem placesOf_zero : placesOf 0 = 0 := rfl

theorem placesOf_mono {s' : ℕ} (h : s ≤ s') : placesOf s ≤ placesOf s' := by
  unfold placesOf BSIZE NDIRECT
  split_ifs <;> omega

/-- The places of a file are those of the blocks below its size, and its indirect block. -/
theorem exists_place (hn : n < placesOf s) :
    (n = NDIRECT ∧ NDIRECT * BSIZE < s) ∨ ∃ bn, place bn = n ∧ bn * BSIZE < s := by
  unfold placesOf at hn
  by_cases h12 : n < NDIRECT
  · refine .inr ⟨n, if_pos h12, ?_⟩
    by_cases hs : NDIRECT * BSIZE < s
    · exact lt_trans (Nat.mul_lt_mul_of_pos_right h12 (by decide)) hs
    · rw [if_neg hs] at hn
      unfold BSIZE at hn ⊢
      omega
  · by_cases hs : NDIRECT * BSIZE < s
    · rw [if_pos hs] at hn
      by_cases he : n = NDIRECT
      · exact .inl ⟨he, hs⟩
      · refine .inr ⟨n - 1, ?_, ?_⟩
        · unfold place
          rw [if_neg (by omega)]
          omega
        · unfold BSIZE at hn ⊢
          omega
    · rw [if_neg hs] at hn
      unfold NDIRECT BSIZE at hs
      unfold NDIRECT at h12
      unfold BSIZE at hn
      omega

theorem placesOf_cover (h : ∀ bn, bn * BSIZE < s → ptrs sb ino H i (place bn) ≠ 0)
    (hn : n < placesOf s) : ptrs sb ino H i n ≠ 0 := by
  obtain ⟨rfl, hs⟩ | ⟨bn, rfl, hlt⟩ := exists_place hn
  · have hp := h NDIRECT hs
    have hu := used_of_ptrs hp
    rw [ptrs_indirect hu]
    intro h0
    rw [ptrs_used hu] at hp
    exact hp (by simp [Dinode.ptr, place, h0])
  · exact h bn hlt

namespace Tidy

variable (h : Tidy sb S ino H)
include h

theorem size_lt : sb.size < 2 ^ 32 := by
  rw [← h.super]
  exact word_lt _ _

theorem ptr_area (hp : ptrs sb ino H i n ≠ 0) :
    sb.dataStart ≤ ptrs sb ino H i n ∧ ptrs sb ino H i n < sb.logStart := h.owned.area i n hp

theorem ptr_lt : ptrs sb ino H i n < sb.logStart := by
  by_cases hp : ptrs sb ino H i n = 0
  · rw [hp]
    exact lt_of_lt_of_le (dataStart_pos sb) h.area
  · exact (h.ptr_area hp).2

/-- Blocks before the bitmap do not matter, except the super block. -/
theorem congr (hino : ∀ j, ino' j = ino j)
    (hH : ∀ s, s = 1 ∨ sb.bitStart ≤ s → s < sb.logStart → H' s = H s) :
    Tidy sb S ino' H' ∧ (∀ j, node sb ino' H' j = node sb ino H j) ∧
      ∀ j m, ptrs sb ino' H' j m = ptrs sb ino H j m := by
  have e : ino' = ino := funext hino
  subst e
  have hlo := lt_dataStart sb
  have harea := h.area
  have hbit : ∀ x < sb.size, bit sb H' x = bit sb H x := fun x hx =>
    bit_congr (hH _ (.inr (BBLOCK_ge sb _)) (lt_of_lt_of_le (BBLOCK_lt hx) harea))
  have hdata : ∀ {j m}, ptrs sb ino' H j m ≠ 0 →
      H' (ptrs sb ino' H j m) = H (ptrs sb ino' H j m) := fun hp => by
    obtain ⟨h1, h2⟩ := h.ptr_area hp
    exact hH _ (.inr (by omega)) h2
  have hptr : ∀ j m, ptrs sb ino' H' j m = ptrs sb ino' H j m := fun j m => by
    by_cases hu : Used sb ino' j
    · rw [ptrs_used hu, ptrs_used hu]
      refine ptr_congr rfl fun h0 => ?_
      rw [← ptrs_indirect (H := H) hu] at h0 ⊢
      exact hdata h0
    · rw [ptrs_unused hu, ptrs_unused hu]
  refine ⟨⟨?_, h.area, fun x hx => ?_, ?_, fun j hu m hm => ?_, h.size⟩, fun j => ?_, hptr⟩
  · have h3 := three_le_bitStart sb
    rw [hH 1 (.inl rfl) (by omega), h.super]
  · rw [hbit x (lt_size (lt_of_lt_of_le hx harea)), h.low x hx]
  · exact h.owned.congr hptr fun x _ hx => hbit x (lt_size hx)
  · rw [hptr]
    exact h.cover j hu m hm
  · unfold node
    by_cases hu : Used sb ino' j
    · rw [if_pos hu, if_pos hu]
      congr 1
      funext o
      by_cases ho : o < (ino' j).size
      · rw [if_pos ho, if_pos ho, byteAt, byteAt, hptr, hdata (h.cover j hu _ (place_lt ho))]
      · rw [if_neg ho, if_neg ho]
    · rw [if_neg hu, if_neg hu]

end Tidy

end

end Xv6.Fs
