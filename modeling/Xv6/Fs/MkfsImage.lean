import Xv6.Fs.Mkfs
import Xv6.Fs.Release

/-! # The images that `mkfs` makes

`mkfs` takes blocks and fills inodes as the kernel does, only that it writes the bitmap at the end.
`Img.full` is the image with the bitmap for the blocks that are taken so far; on it `take` is what `balloc`
does, `fblock` what `bmap` does, and the loop of `iappend` what the loop of `writei` does, so that the
rules for these apply. The super block of `full` (`wide`) has no log, and leaves three more blocks
than the image file: a call of `iappend` never needs more, and fails when it reads the first of them.
Nothing checks the number of inodes, and those from 208 on lie in the sector of the bitmap. In `full`
inode 0, which is not used, stands for the last of them; blocks of the others belong to no inode. -/

namespace Xv6.Fs.Mkfs

open Function List Option

/-- A file system without a log. -/
def wide : Superblock := ⟨size + 3, nblocks, ninodes, 0⟩

/-- The bitmap block for the first `n` blocks. -/
def bits (n : ℕ) : Block := (range n).foldl setBit zeroBlock

theorem bits_succ (n : ℕ) : bits (n + 1) = setBit (bits n) n := by simp [bits, range_succ]

theorem getBit_bits (n j : ℕ) : getBit (bits n) j = decide (j < n) := by
  induction n with
  | zero => simp [bits, getBit, zeroBlock]
  | succ n ih =>
    rw [bits_succ, getBit_setBit, ih]
    by_cases h : j < n
    · simp [h, Nat.lt_succ_of_lt h]
    · by_cases e : j = n
      · simp [e]
      · simp [e, h, show ¬ j < n + 1 by omega]

namespace Img

/-- The inode that inode 0 stands for. -/
def late (m : Img) : ℕ := 208 + min (m.freeinode - 209) 7

/-- The inode that `i` stands for. -/
def inum (m : Img) (i : ℕ) : ℕ := if i = 0 then m.late else i

/-- The image with the bitmap so far. -/
def full (m : Img) (s : ℕ) : Block :=
  if s = 1 then putSuper wide
  else if s = 2 then putDinode (m.disk 2) 0 (dinodeAt m.disk m.late)
  else if s = 28 then bits m.freeblock
  else m.disk s

/-- The blocks that are not taken are zero. -/
structure Zeroed (m : Img) : Prop where
  used : m.usedblocks = m.freeblock
  lo : 29 ≤ m.freeblock
  hi : m.freeblock ≤ 1027
  zero : ∀ s, m.freeblock ≤ s → m.disk s = zeroBlock

section
variable {m : Img} {s b : ℕ} {d : Block}

theorem disk_wsect_self : (m.wsect s d).disk s = d := update_self _ _ _

theorem disk_wsect_of_ne {t : ℕ} (h : t ≠ s) : (m.wsect s d).disk t = m.disk t :=
  update_of_ne h _ _

theorem full_of_ne (h1 : s ≠ 1) (h2 : s ≠ 2) (h28 : s ≠ 28) : m.full s = m.disk s := by
  unfold full
  rw [if_neg h1, if_neg h2, if_neg h28]

theorem full_data (h : 29 ≤ s) : m.full s = m.disk s := full_of_ne (by omega) (by omega) (by omega)

theorem full_bitmap : m.full 28 = bits m.freeblock := rfl

theorem IBLOCK_late : IBLOCK m.late = 28 := by
  unfold IBLOCK IPB late
  omega

theorem full_congr {m' : Img} {t : ℕ} (hfree : m'.freeblock = m.freeblock)
    (ht : t ≠ 28 → m'.disk t = m.disk t)
    (h2 : t = 2 → dinodeAt m'.disk m'.late = dinodeAt m.disk m.late) : m'.full t = m.full t := by
  unfold full
  split_ifs with e1 e2 e28
  · rfl
  · subst e2
    rw [h2 rfl, ht (by decide)]
  · rw [hfree]
  · exact ht e28

theorem full_wsect (h : 29 ≤ s) : (m.wsect s d).full = update m.full s d := by
  funext t
  by_cases e : t = s
  · rw [e, update_self, full_data h]
    exact update_self _ _ _
  · rw [update_of_ne e]
    refine full_congr rfl (fun _ => disk_wsect_of_ne e) fun _ => dinodeAt_update_of_ne ?_
    exact IBLOCK_late.trans_ne (by omega)

theorem BBLOCK_wide (h : b < 4096) : BBLOCK b wide.ninodes = 28 := by
  unfold BBLOCK BPB
  show b / 4096 + 25 + 3 = 28
  omega

theorem bit_full (h : b < 4096) : bit wide m.full b = decide (b < m.freeblock) := by
  unfold bit
  rw [BBLOCK_wide h, full_bitmap, getBit_bits]
  congr 2
  unfold BPB
  omega

theorem room_full (hlo : 29 ≤ m.freeblock) : room wide m.full = 1027 - m.freeblock := by
  have hset : (Finset.Ico 29 1027).filter (bit wide m.full · = false)
      = Finset.Ico m.freeblock 1027 := by
    ext x
    simp only [Finset.mem_filter, Finset.mem_Ico]
    constructor
    · rintro ⟨⟨_, h2⟩, h3⟩
      rw [bit_full (by omega)] at h3
      simp at h3
      omega
    · rintro ⟨h1, h2⟩
      rw [bit_full (by omega)]
      simp
      omega
  show ((Finset.Ico 29 1027).filter (bit wide m.full · = false)).card = _
  rw [hset, Nat.card_Ico]

theorem full_take (hz : m.Zeroed) (hhi : m.freeblock < 1027) :
    m.take.full = mark wide m.full m.freeblock := by
  have hlo := hz.lo
  have hmod : m.freeblock % BPB = m.freeblock := Nat.mod_eq_of_lt (by unfold BPB; omega)
  unfold mark
  rw [BBLOCK_wide (by omega), hmod, full_bitmap]
  funext s
  by_cases e : s = m.freeblock
  · rw [e, update_self, full_data (by exact hlo)]
    exact hz.zero _ le_rfl
  · rw [update_of_ne e]
    by_cases e28 : s = 28
    · rw [e28, update_self]
      exact bits_succ _
    · rw [update_of_ne e28]
      unfold full
      rw [if_neg e28, if_neg e28]
      rfl

theorem Zeroed.take (hz : m.Zeroed) (hhi : m.freeblock < 1027) : m.take.Zeroed := by
  obtain ⟨h1, h2, -, h3⟩ := hz
  refine ⟨?_, ?_, hhi, fun s hs => h3 s ?_⟩
  · show m.usedblocks + 1 = m.freeblock + 1
    rw [h1]
  · show 29 ≤ m.freeblock + 1
    omega
  · have : m.freeblock + 1 ≤ s := hs
    omega

theorem Zeroed.wsect (hz : m.Zeroed) (hs : s < m.freeblock) : (m.wsect s d).Zeroed := by
  refine ⟨hz.used, hz.lo, hz.hi, fun t ht => ?_⟩
  have ht : m.freeblock ≤ t := ht
  have hne : t ≠ s := by omega
  rw [disk_wsect_of_ne hne, hz.zero t ht]

/-! ### A block of a file -/

variable {d d' : Dinode} {i n M x : ℕ} {S : Set ℕ} {I I' : ℕ → Cached} {m m' : Img}

theorem ptr_lt_freeblock (hw : Working wide S i M 0 I m.full) {j : ℕ}
    (hp : ptrs wide (view I m.full) m.full j n ≠ 0) :
    29 ≤ ptrs wide (view I m.full) m.full j n ∧
      ptrs wide (view I m.full) m.full j n < m.freeblock := by
  obtain ⟨h1, h2⟩ := hw.tidy.ptr_area hp
  have h2 : ptrs wide (view I m.full) m.full j n < 1027 := h2
  have hbit := hw.tidy.owned.mark_of_ne hp
  rw [bit_full (by omega)] at hbit
  exact ⟨h1, by simpa using hbit⟩

theorem freeblock_lt (hz : m.Zeroed) (hw : Working wide S i M 0 I m.full) (hn : n < M)
    (h0 : ptrs wide (view I m.full) m.full i n = 0) :
    m.freeblock < 1027 ∧ bit wide m.full m.freeblock = false := by
  have hfree := (hw.roomy_succ hn h0).free
  rw [room_full hz.lo] at hfree
  refine ⟨by omega, ?_⟩
  rw [bit_full (by omega)]
  simp

/-- The inode has block `x` at place `n`, perhaps a new one. -/
structure Found (S : Set ℕ) (m : Img) (i M n : ℕ) (I : ℕ → Cached) (m' : Img) (d' : Dinode) (x : ℕ)
    (I' : ℕ → Cached) : Prop where
  zeroed : m'.Zeroed
  working : Working wide S i M 0 I' m'.full
  din : (I' i).din = d'
  grows : Grows wide i M I m.full I' m'.full
  found : ptrs wide (view I' m'.full) m'.full i n = x
  ne : x ≠ 0
  last : m'.freeblock = m.freeblock ∨ m'.freeblock = x + 1 ∧ m'.disk x = zeroBlock
  inodes : m'.freeinode = m.freeinode
  super : m'.disk 1 = m.disk 1

theorem addr_found (hz : m.Zeroed) (hw : Working wide S i M 0 I m.full) (hd : (I i).din = d)
    (hn : n ≤ NDIRECT) (hm : n < M) :
    ∃ I', Found S m i M n I (m.addr d n).1 (m.addr d n).2 ((m.addr d n).2.addrs n) I' := by
  subst hd
  have haddr := hw.addr hn
  unfold addr
  by_cases h0 : (I i).din.addrs n = 0
  · rw [if_pos h0]
    obtain ⟨hlt, hbit⟩ := freeblock_lt hz hw hm (haddr.trans h0)
    obtain ⟨hw', hg, -, hp⟩ := hw.addAddr hn hm h0 hz.lo hlt hbit rfl
    rw [← full_take hz hlt] at hw' hg hp
    have hself : update (I i).din.addrs n m.freeblock n = m.freeblock :=
      update_self _ _ _
    refine ⟨_, hz.take hlt, hw', ?_, hg, hp.trans hself.symm, ?_, .inr ⟨?_, ?_⟩, rfl, rfl⟩
    · rw [update_self]
      rfl
    · have := hz.lo
      dsimp only
      omega
    · dsimp only
      rw [hself]
      rfl
    · dsimp only
      rw [hself]
      exact hz.zero _ le_rfl
  · rw [if_neg h0]
    exact ⟨I, hz, hw, rfl, .refl wide i M I m.full, haddr, h0, .inl rfl, rfl, rfl⟩

theorem taken_eq (hz : m.Zeroed) (hz' : m'.Zeroed)
    (hcost : room wide m.full + missing wide (view I' m'.full) m'.full i M
      = room wide m'.full + missing wide (view I m.full) m.full i M) :
    m'.freeblock + missing wide (view I' m'.full) m'.full i M
      = m.freeblock + missing wide (view I m.full) m.full i M := by
  have h1 := hz.hi
  have h2 := hz'.hi
  rw [room_full hz.lo, room_full hz'.lo] at hcost
  omega

theorem fblock_found (hz : m.Zeroed) (hw : Working wide S i M 0 I m.full) (hd : (I i).din = d)
    {fbn : ℕ} (hbn : fbn < MAXFILE) (hm : place fbn < M) :
    (∃ m' d' x I', m.fblock d fbn = some (m', d', x) ∧ Found S m i M (place fbn) I m' d' x I') ∨
    (m.fblock d fbn = none ∧
      1024 < m.freeblock + missing wide (view I m.full) m.full i M) := by
  unfold fblock
  by_cases hdir : fbn < NDIRECT
  · rw [if_pos hdir]
    rw [place_direct hdir] at hm ⊢
    obtain ⟨I', h⟩ := addr_found hz hw hd hdir.le hm
    exact .inl ⟨_, _, _, I', rfl, h⟩
  · have hx : fbn - NDIRECT < NINDIRECT := by
      unfold MAXFILE at hbn
      unfold NDIRECT NINDIRECT
      omega
    rw [if_neg hdir]
    rw [place_word hdir] at hm ⊢
    obtain ⟨I1, h⟩ := addr_found hz hw hd le_rfl (show NDIRECT < M by omega)
    dsimp only
    generalize (m.addr d NDIRECT).1 = m1 at h ⊢
    generalize (m.addr d NDIRECT).2 = d1 at h ⊢
    obtain ⟨hz1, hw1, rfl, hg1, hp1, hne, hlast, hinodes, hsuper⟩ := h
    have hcost := taken_eq hz hz1 hg1.cost
    have hlt := ptr_lt_freeblock hw1 (hp1 ▸ hne)
    rw [hp1] at hlt
    unfold rsect
    by_cases hin : (I1 i).din.addrs NDIRECT < size
    · have hword : ptrs wide (view I1 m1.full) m1.full i (fbn - NDIRECT + (NDIRECT + 1))
          = word (m1.disk ((I1 i).din.addrs NDIRECT)) (4 * (fbn - NDIRECT)) := by
        rw [ptrs_used hw1.used, view_there hw1.there, ptr_word hne hx, full_data hlt.1]
      rw [if_pos hin]
      by_cases h0 : word (m1.disk ((I1 i).din.addrs NDIRECT)) (4 * (fbn - NDIRECT)) = 0
      · obtain ⟨hfb, hbit⟩ := freeblock_lt hz1 hw1 hm (hword.trans h0)
        have hmark : update (mark wide m1.full m1.freeblock) ((I1 i).din.addrs NDIRECT)
            (setWord (m1.full ((I1 i).din.addrs NDIRECT)) (fbn - NDIRECT) m1.freeblock)
            = (m1.take.wsect ((I1 i).din.addrs NDIRECT) (setWord (m1.disk ((I1 i).din.addrs NDIRECT))
              (fbn - NDIRECT) m1.freeblock)).full := by
          rw [full_wsect hlt.1, full_take hz1 hfb, full_data hlt.1]
        obtain ⟨hw2, hg2, -, hp2⟩ := hw1.addWord hx hm rfl hne (full_data hlt.1 ▸ h0) hz1.lo hfb hbit rfl
        rw [hmark] at hw2 hg2 hp2
        refine .inl ⟨_, _, _, I1, if_pos h0, (hz1.take hfb).wsect (Nat.lt_succ_of_lt hlt.2), hw2, rfl,
          hg1.trans hg2, hp2, ?_, .inr ⟨rfl, ?_⟩, hinodes, ?_⟩
        · have := hz1.lo
          omega
        · exact (disk_wsect_of_ne (by omega)).trans (hz1.zero _ le_rfl)
        · exact (disk_wsect_of_ne (by omega)).trans hsuper
      · refine .inl ⟨_, _, _, I1, if_neg h0, hz1, hw1, rfl, hg1, hword, h0, ?_, hinodes, hsuper⟩
        obtain hl | ⟨-, hl⟩ := hlast
        · exact .inl hl
        · rw [hl, word_zeroBlock] at h0
          exact absurd rfl h0
    · rw [if_neg hin]
      refine .inr ⟨rfl, ?_⟩
      unfold size at hin
      omega

/-! ### `iappend` -/

variable {off : ℕ} {l : List UInt8}

/-- The bytes `l` are in inode `i` from offset `off` on. -/
structure Appended (S : Set ℕ) (m : Img) (i M off : ℕ) (l : List UInt8) (I : ℕ → Cached) (m' : Img)
    (d' : Dinode) (I' : ℕ → Cached) : Prop where
  zeroed : m'.Zeroed
  inside : m'.freeblock ≤ size
  working : Working wide S i M 0 I' m'.full
  din : (I' i).din = d'
  wrote : Wrote wide i M off l I m.full I' m'.full
  last : m'.freeblock = m.freeblock ∨
    ∃ bn, ptrs wide (view I' m'.full) m'.full i (place bn) + 1 = m'.freeblock
  inodes : m'.freeinode = m.freeinode
  super : m'.disk 1 = m.disk 1

/-- The loop of `iappend` adds the bytes, or the file system is full. -/
theorem appendLoop_appended (hz : m.Zeroed) (hin : m.freeblock ≤ size)
    (hw : Working wide S i M 0 I m.full) (hd : (I i).din = d) {fuel : ℕ} (hfuel : l.length ≤ fuel)
    (hsize : off + l.length ≤ MAXFILE * BSIZE) (hM : placesOf (off + l.length) ≤ M) :
    (∃ m' d' I', appendLoop fuel m d off l = some (m', d', off + l.length) ∧
      Appended S m i M off l I m' d' I') ∨
    (appendLoop fuel m d off l = none ∧
      size < m.freeblock + missing wide (view I m.full) m.full i M) := by
  induction fuel generalizing m I d off l with
  | zero =>
    obtain rfl : l = [] := length_eq_zero_iff.mp (by omega)
    exact .inl ⟨m, d, I, rfl, hz, hin, hw, hd, .nil wide i M off I m.full, .inl rfl, rfl, rfl⟩
  | succ fuel ih =>
    unfold appendLoop
    by_cases h0 : l = []
    · subst h0
      rw [if_pos rfl]
      exact .inl ⟨m, d, I, rfl, hz, hin, hw, hd, .nil wide i M off I m.full, .inl rfl, rfl, rfl⟩
    have hpos : 0 < l.length := length_pos_iff.mpr h0
    have hpos' : 0 < BSIZE - off % BSIZE := Nat.sub_pos_of_lt (Nat.mod_lt _ (by decide))
    have hbn : off / BSIZE < MAXFILE := Nat.div_lt_of_lt_mul (by rw [Nat.mul_comm]; omega)
    rw [if_neg h0, if_pos hbn]
    obtain ⟨m1, d1, x, I1, hrun, hz1, hw1, hd1, hg1, hp1, hx, hlast, hinodes, hsuper⟩ | ⟨hrun, hfull⟩ :=
      fblock_found hz hw hd hbn (lt_of_lt_of_le (place_lt (by omega)) hM)
    · rw [hrun, bind_eq_bind, bind_some]
      dsimp only
      generalize hc : min l.length (BSIZE - off % BSIZE) = c
      have hlt := ptr_lt_freeblock hw1 (hp1 ▸ hx)
      rw [hp1] at hlt
      unfold rsect
      by_cases hxs : x < size
      · rw [if_pos hxs, bind_eq_bind, bind_some]
        have htake : (l.take c).length = c := by
          rw [length_take]
          omega
        have hdisk : m1.disk x = m1.full x := (full_data hlt.1).symm
        rw [hdisk]
        obtain ⟨hw2, hwrote, hptr⟩ := hg1.write hw1 hp1 hx (by rw [htake]; omega)
          (piece_take (by omega) _ _) rfl
        rw [← full_wsect hlt.1] at hw2 hwrote hptr
        have hz2 := hz1.wsect (d := fun o => if off % BSIZE ≤ o ∧ o < off % BSIZE + c then
          l.getD (o - off % BSIZE) 0 else m1.full x o) hlt.2
        have hin2 : m1.freeblock ≤ size := by
          obtain h | ⟨h, -⟩ := hlast <;> omega
        have htotal := taken_eq hz hz2 hwrote.cost
        have hdrop : (l.drop c).length = l.length - c := length_drop
        have hend : off + c + (l.drop c).length = off + l.length := by
          rw [hdrop]
          omega
        have hfuel' : (l.drop c).length ≤ fuel := by
          rw [hdrop]
          omega
        obtain ⟨m3, d3, I3, hrun3, h₃⟩ | ⟨hrun3, hfull3⟩ := ih hz2 hin2 hw2 hd1 hfuel'
          (by rw [hend]; exact hsize) (by rw [hend]; exact hM)
        · rw [hrun3, hend]
          have hnext : off + c = off + (l.take c).length := by rw [htake]
          have hw3 := h₃.wrote
          rw [hnext] at hw3
          have hall := hwrote.trans hw3
          rw [take_append_drop] at hall
          refine .inl ⟨m3, d3, I3, rfl, h₃.zeroed, h₃.inside, h₃.working, h₃.din, hall, ?_,
            h₃.inodes.trans hinodes, h₃.super.trans (Eq.trans ?_ hsuper)⟩
          · obtain h | h := h₃.last
            · obtain h' | ⟨h', -⟩ := hlast
              · exact .inl (h.trans h')
              · refine .inr ⟨off / BSIZE, ?_⟩
                have hx2 := (hptr i (place (off / BSIZE))).trans hp1
                rw [h₃.wrote.keep i _ fun e => hx (hx2.symm.trans e), hx2, h]
                exact h'.symm
            · exact .inr h
          · exact disk_wsect_of_ne (by omega)
        · rw [hrun3]
          exact .inr ⟨rfl, by omega⟩
      · rw [if_neg hxs]
        have htotal := taken_eq hz hz1 hg1.cost
        exact .inr ⟨rfl, by omega⟩
    · rw [hrun]
      exact .inr ⟨rfl, hfull⟩

/-- No inode is in memory. -/
def cold : ℕ → Cached := fun _ => ⟨0, false, Dinode.zero⟩

theorem cold_not_there (j : ℕ) : ¬ (cold j).There := fun h => h.2 rfl

/-- The inodes of the image. -/
def nodes (m : Img) : ℕ → Node := Fs.nodes wide cold m.full

def len (m : Img) (i : ℕ) : ℕ := (m.nodes i).stat.size

/-- The blocks of the inodes. -/
def ptr (m : Img) : ℕ → ℕ → ℕ := ptrs wide (view cold m.full) m.full

/-- The image between two calls of `iappend`: the blocks are in order, no inode has blocks after its
end, and the block that was taken last holds bytes of a file or belongs to no inode. -/
structure Good (S : Set ℕ) (m : Img) : Prop where
  zeroed : m.Zeroed
  inside : m.freeblock ≤ size
  settled : Settled wide S cold m.full
  tight : ∀ j n, m.ptr j n ≠ 0 → n < placesOf (m.len j)
  last : m.freeblock = 29 ∨ m.freeblock - 1 ∈ S ∨ ∃ j bn, m.ptr j (place bn) + 1 = m.freeblock

theorem IBLOCK_lt_28 (hi : i < 208) : IBLOCK i < 28 := by
  unfold IBLOCK IPB
  omega

theorem used_of_type (h : (m.nodes i).stat.type ≠ 0) : Used wide (view cold m.full) i := by
  by_contra hu
  exact h (by unfold nodes Fs.nodes node; rw [if_neg hu]; rfl)

theorem Good.type_ne (hg : m.Good S) (hu : Used wide (view cold m.full) i) :
    (m.nodes i).stat.type ≠ 0 := by
  rw [nodes, nodes_type hg.settled hu.1, ← hg.settled.view_eq hu.1]
  exact hu.2

theorem nodes_size (hu : Used wide (view cold m.full) i) :
    m.len i = (view cold m.full i).size := by
  unfold len nodes Fs.nodes node
  rw [if_pos hu]
  rfl

theorem inum_congr (h : m'.freeinode = m.freeinode) (i : ℕ) : m'.inum i = m.inum i := by
  unfold inum late
  rw [h]

theorem dinodeAt_full (hi : i < 208) : dinodeAt m.full i = dinodeAt m.disk (m.inum i) := by
  unfold inum
  split_ifs with h0
  · rw [h0]
    exact getDinode_put _ _ (getDinode_fits _ _)
  · have hblk := IBLOCK_lt_28 hi
    unfold dinodeAt
    by_cases e : IBLOCK i = 2
    · rw [e]
      refine getDinode_put_of_ne _ _ ?_
      unfold IBLOCK at e
      unfold IPB at e ⊢
      omega
    · rw [full_of_ne IBLOCK_ne_one.symm e (by omega)]

theorem IBLOCK_inum (hi : i < 208) : 2 ≤ IBLOCK (m.inum i) ∧ IBLOCK (m.inum i) < 29 := by
  have hblk := IBLOCK_lt_28 hi
  refine ⟨Nat.le_add_left _ _, ?_⟩
  unfold inum
  split_ifs
  · rw [IBLOCK_late]
    decide
  · omega

theorem rinode_eq (hi : i < 208) : m.rinode (m.inum i) = some (dinodeAt m.full i) := by
  have hblk := IBLOCK_inum (m := m) hi
  rw [dinodeAt_full hi]
  unfold rinode rsect dinodeAt
  rw [if_pos (by unfold size; omega)]
  rfl

theorem full_winode (hi : i < 208) (hd : d.Fits) : (m.wsect (IBLOCK (m.inum i))
    (putDinode (m.disk (IBLOCK (m.inum i))) (m.inum i % IPB) d)).full = putInode m.full i d := by
  have hblk := IBLOCK_lt_28 hi
  funext t
  unfold inum
  split_ifs with h0
  · subst h0
    have hput := dinodeAt_put (H := m.disk) (i := m.late) hd
    rw [IBLOCK_late] at hput ⊢
    by_cases e : t = 2
    · rw [e]
      show putDinode (m.disk 2) 0 (dinodeAt _ m.late) = putDinode (putDinode (m.disk 2) 0 _) 0 d
      rw [putDinode_put]
      exact congrArg (putDinode (m.disk 2) 0) hput
    · rw [putInode_of_ne (show t ≠ IBLOCK 0 from e)]
      exact full_congr rfl disk_wsect_of_ne fun e2 => absurd e2 e
  · by_cases e : t = IBLOCK i
    · rw [e, putInode, update_self]
      by_cases e2 : IBLOCK i = 2
      · have hne : i % IPB ≠ 0 := by
          unfold IBLOCK at e2
          unfold IPB at e2 ⊢
          omega
        rw [e2]
        show putDinode ((m.wsect 2 _).disk 2) 0 (dinodeAt (update m.disk 2 _) m.late)
          = putDinode (putDinode (m.disk 2) 0 _) (i % IPB) d
        rw [disk_wsect_self, dinodeAt_update_of_ne (IBLOCK_late.trans_ne (by decide)), putDinode_comm _ _ _ hne]
      · rw [full_of_ne IBLOCK_ne_one.symm e2 (by omega), full_of_ne IBLOCK_ne_one.symm e2 (by omega)]
        exact update_self _ _ _
    · rw [putInode_of_ne e]
      refine full_congr rfl (fun _ => disk_wsect_of_ne e) fun _ => dinodeAt_update_of_ne ?_
      exact IBLOCK_late.trans_ne hblk.ne'

theorem winode_eq (hi : i < 208) (hd : d.Fits) (hz : m.Zeroed) :
    ∃ m', m.winode (m.inum i) d = some m' ∧ m'.full = putInode m.full i d ∧ m'.Zeroed ∧
      m'.freeblock = m.freeblock ∧ m'.freeinode = m.freeinode ∧ m'.disk 1 = m.disk 1 := by
  have hblk := IBLOCK_inum (m := m) hi
  have hlo := hz.lo
  unfold winode rsect
  rw [if_pos (by unfold size; omega)]
  exact ⟨_, rfl, full_winode hi hd, hz.wsect (by omega), rfl, rfl, disk_wsect_of_ne (by omega)⟩

/-- A piece of at most one block needs at most two blocks. -/
theorem placesOf_piece (s : ℕ) {n : ℕ} (hn : n ≤ BSIZE) : placesOf (s + n) ≤ placesOf s + 2 := by
  unfold BSIZE at hn
  unfold placesOf BSIZE NDIRECT
  split_ifs <;> omega

theorem Good.missing_eq (hg : m.Good S) (hu : Used wide (view cold m.full) i)
    (hI : ptrs wide (view I m.full) m.full = m.ptr) (M : ℕ) :
    missing wide (view I m.full) m.full i M = M - placesOf (m.len i) := by
  have hsize := nodes_size hu
  have hset : absent wide (view I m.full) m.full i (Finset.range M) = Finset.Ico (placesOf (m.len i)) M := by
    ext n
    simp only [absent, hI, Finset.mem_filter, Finset.mem_range, Finset.mem_Ico]
    constructor
    · rintro ⟨h1, h2⟩
      refine ⟨?_, h1⟩
      by_contra hlt
      exact hg.settled.tidy.cover i hu n (by rw [← hsize]; omega) h2
    · rintro ⟨h1, h2⟩
      refine ⟨h2, ?_⟩
      by_contra hp
      exact absurd (hg.tight i n hp) (by omega)
  unfold missing
  rw [hset, Nat.card_Ico]

/-- `iappend` seen from the kernel: inode `i` alone is in memory. -/
theorem Good.working (hg : m.Good S) (hi : i < 208) (hu : Used wide (view cold m.full) i)
    (hlen : l.length ≤ BSIZE) : ∃ I, (I i).There ∧ (I i).din = dinodeAt m.full i ∧ Settled wide S I m.full ∧
      Fs.nodes wide I m.full = m.nodes ∧ ptrs wide (view I m.full) m.full = m.ptr ∧
      Working wide S i (placesOf (m.len i + l.length)) 0 I m.full := by
  have hview : view cold m.full i = dinodeAt m.full i := hg.settled.view_eq hi
  let I : ℕ → Cached := update cold i ⟨1, true, dinodeAt m.full i⟩
  have hIi : I i = ⟨1, true, dinodeAt m.full i⟩ := update_self _ _ _
  have ht : (I i).There := by
    rw [hIi]
    exact ⟨rfl, Nat.one_ne_zero⟩
  have hsync : ∀ j, (I j).There → j = i := fun j hj => by
    by_contra hne
    exact cold_not_there j (update_of_ne hne _ cold ▸ hj)
  obtain ⟨hs, hnodes, hptrs⟩ := hg.settled.recache I fun j _ hj => by
    rw [hsync j hj, hIi]
    exact ⟨rfl, hview ▸ hu.2⟩
  refine ⟨I, ht, by rw [hIi], hs, hnodes, hptrs, hs.working hi ht ?_⟩
  have hin := hg.inside
  have hpiece := placesOf_piece (m.len i) hlen
  rw [hIi, ← hview, ← nodes_size hu, room_full hg.zeroed.lo]
  unfold size at hin
  omega

/-- What a call that adds bytes to inode `i` leads to: the bytes are there, or the file system is full
or the file too large. -/
def Adds (S : Set ℕ) (m : Img) (i : ℕ) (l : List UInt8) (o : Option Img) : Prop :=
  (∃ m', o = some m' ∧ m'.Good S ∧ m'.nodes = update m.nodes i ((m.nodes i).write (m.len i) l) ∧
    m'.freeblock = m.freeblock + (placesOf (m.len i + l.length) - placesOf (m.len i)) ∧
    m'.freeinode = m.freeinode ∧ m'.disk 1 = m.disk 1) ∨
  (o = none ∧ (size < m.freeblock + (placesOf (m.len i + l.length) - placesOf (m.len i)) ∨
    MAXFILE * BSIZE < m.len i + l.length))

theorem iappend_good (hg : m.Good S) (hi : i < 208) (htype : (m.nodes i).stat.type ≠ 0)
    (hlen : l.length ≤ BSIZE) (hmax : m.len i + l.length ≤ MAXFILE * BSIZE) :
    Adds S m i l (m.iappend (m.inum i) l) := by
  have hview : view cold m.full i = dinodeAt m.full i := hg.settled.view_eq hi
  have hu := used_of_type htype
  have hsize : m.len i = (dinodeAt m.full i).size := hview ▸ nodes_size hu
  obtain ⟨I, ht, hIi, hs, hnodes, hptrs, hw⟩ := hg.working hi hu hlen
  have hIsize : (I i).din.size = m.len i := by rw [hIi, hsize]
  have hmissI := hg.missing_eq hu hptrs
  have hrun : m.iappend (m.inum i) l = (appendLoop l.length m (dinodeAt m.full i) (m.len i) l).bind
      fun r => r.1.winode (m.inum i) { r.2.1 with size := r.2.2 } := by
    unfold iappend
    rw [rinode_eq hi, hsize]
    rfl
  rw [hrun]
  obtain ⟨m1, d1, I1, happ, h⟩ | ⟨happ, hfull⟩ := appendLoop_appended hg.zeroed hg.inside
    hw hIi le_rfl hmax le_rfl
  · rw [happ, bind_some]
    have hmaxsize : max (I i).din.size (m.len i + l.length) = m.len i + l.length := by
      rw [hIsize]
      omega
    obtain ⟨hset, hnew, hptr⟩ := h.wrote.settled h.working hs hi ht hIsize.ge hmax rfl
    rw [hmaxsize, update_self, Cached.setDin_din, h.din] at hset hnew hptr
    have hfits : (d1.setSize (m.len i + l.length)).Fits := by
      refine (h.din ▸ h.working.fits).setSize ?_
      unfold MAXFILE BSIZE at hmax
      omega
    obtain ⟨m2, hw2, hfull, hz2, hfb, hfi, hsup⟩ := winode_eq hi hfits h.zeroed
    rw [inum_congr h.inodes] at hw2
    rw [← hfull] at hset hnew hptr
    obtain ⟨hset', hnodes', hptrs'⟩ := hset.recache cold fun j _ hj => absurd hj (cold_not_there j)
    have hnodes2 : m2.nodes = update m.nodes i ((m.nodes i).write (m.len i) l) := by
      refine hnodes'.trans (hnew.trans ?_)
      rw [hnodes]
    have hptr2 : ∀ j n, m2.ptr j n = ptrs wide (view I1 m1.full) m1.full j n := fun j n => by
      unfold ptr
      rw [hptrs', hptr]
    have hsize2 : m2.len i = m.len i + l.length := by
      rw [len, hnodes2, update_self]
      exact max_eq_right (Nat.le_add_right _ _)
    have hu2 : Used wide (view cold m2.full) i := by
      refine used_of_type ?_
      rw [hnodes2, update_self]
      exact htype
    have hsize2' : (view cold m2.full i).size = m.len i + l.length :=
      (nodes_size hu2).symm.trans hsize2
    have hmiss1 : missing wide (view I1 m1.full) m1.full i (placesOf (m.len i + l.length)) = 0 := by
      refine Finset.card_eq_zero.mpr (Finset.filter_eq_empty_iff.mpr fun n hn => ?_)
      rw [← hptr2]
      exact hset'.tidy.cover i hu2 n (by rw [hsize2']; exact Finset.mem_range.mp hn)
    refine .inl ⟨m2, hw2, ⟨hz2, hfb ▸ h.inside, hset', fun j n hp => ?_, ?_⟩, hnodes2, ?_,
      hfi.trans h.inodes, hsup.trans h.super⟩
    · rw [hptr2] at hp
      obtain hp | ⟨rfl, hn⟩ := h.wrote.only j n hp
      · have hlt := hg.tight j n (by rwa [← hptrs])
        by_cases e : j = i
        · rw [e] at hlt
          rw [e, hsize2]
          exact lt_of_lt_of_le hlt (placesOf_mono (Nat.le_add_right _ _))
        · rwa [len, hnodes2, update_of_ne e]
      · rwa [hsize2]
    · rw [hfb]
      obtain hl | ⟨bn, hl⟩ := h.last
      · obtain hl' | hl' | ⟨j, bn, hl'⟩ := hg.last
        · exact .inl (hl.trans hl')
        · exact .inr (.inl (hl.symm ▸ hl'))
        · refine .inr (.inr ⟨j, bn, ?_⟩)
          have hne : ptrs wide (view I m.full) m.full j (place bn) ≠ 0 := by
            have := hg.zeroed.lo
            rw [hptrs]
            omega
          rw [hptr2, h.wrote.keep j _ hne, hptrs, hl, ← hl']
      · exact .inr (.inr ⟨i, bn, by rw [hptr2, hl]⟩)
    · have htotal := taken_eq hg.zeroed h.zeroed h.wrote.cost
      rw [hmiss1, hmissI] at htotal
      rw [hfb]
      exact htotal
  · rw [hmissI] at hfull
    rw [happ]
    exact .inr ⟨rfl, .inl hfull⟩

/-! ### Files -/

theorem write_nil (x : Node) : x.write x.stat.size [] = x := by
  unfold Node.write
  simp only [length_nil, Nat.add_zero, max_self]
  congr 1
  funext o
  exact if_neg (by omega)

theorem write_write (x : Node) {l l' : List UInt8} :
    (x.write off l).write (off + l.length) l' = x.write off (l ++ l') := by
  unfold Node.write
  simp only [length_append, Node.mk.injEq, Stat.mk.injEq, true_and]
  refine ⟨by omega, funext fun o => ?_⟩
  by_cases h1 : off + l.length ≤ o ∧ o < off + l.length + l'.length
  · rw [if_pos h1, if_pos (by omega), getD_append_right _ _ _ _ (by omega)]
    congr 1
    omega
  · rw [if_neg h1]
    by_cases h2 : off ≤ o ∧ o < off + l.length
    · rw [if_pos h2, if_pos (by omega), getD_append _ _ _ _ (by omega)]
    · rw [if_neg h2, if_neg (by omega)]

theorem iappend_none (hg : m.Good S) (hi : i < 208) (htype : (m.nodes i).stat.type ≠ 0) (hl : l ≠ [])
    (hmax : MAXFILE ≤ m.len i / BSIZE) : m.iappend (m.inum i) l = none := by
  have hsize : m.len i = (dinodeAt m.full i).size :=
    (nodes_size (used_of_type htype)).trans (by rw [hg.settled.view_eq hi])
  obtain ⟨n, hn⟩ : ∃ n, l.length = n + 1 :=
    Nat.exists_eq_succ_of_ne_zero (length_pos_iff.mpr hl).ne'
  unfold iappend
  rw [rinode_eq hi, bind_eq_bind, bind_some, ← hsize, hn, appendLoop, if_neg hl,
    if_neg (by omega)]
  rfl

theorem Good.adds_nil (hg : m.Good S) : Adds S m i [] (some m) := by
  refine .inl ⟨m, rfl, hg, ?_, by simp, rfl, rfl⟩
  rw [len, write_nil, update_eq_self]

theorem appendAll_adds (hg : m.Good S) (hi : i < 208) (htype : (m.nodes i).stat.type ≠ 0)
    (hfull : l ≠ [] → BSIZE ∣ m.len i) {fuel : ℕ} (hfuel : l.length ≤ fuel) :
    Adds S m i l (appendAll fuel m (m.inum i) l) := by
  induction fuel generalizing m l with
  | zero =>
    obtain rfl : l = [] := length_eq_zero_iff.mp (by omega)
    exact hg.adds_nil
  | succ fuel ih =>
    unfold appendAll
    by_cases h0 : l = []
    · subst h0
      rw [if_pos rfl]
      exact hg.adds_nil
    rw [if_neg h0]
    have hpos : 0 < l.length := length_pos_iff.mpr h0
    have htake : (l.take BSIZE).length = min BSIZE l.length := length_take
    have hdrop : (l.drop BSIZE).length = l.length - BSIZE := length_drop
    have hBpos : 0 < BSIZE := by decide
    obtain ⟨q, hq⟩ := hfull h0
    by_cases hmax : m.len i + (l.take BSIZE).length ≤ MAXFILE * BSIZE
    · have hmono : placesOf (m.len i + (l.take BSIZE).length)
          ≤ placesOf (m.len i + l.length) := placesOf_mono (by omega)
      have hmono' : placesOf (m.len i) ≤ placesOf (m.len i + (l.take BSIZE).length) :=
        placesOf_mono (by omega)
      obtain ⟨m1, hrun, hg1, hn1, hb1, hi1, hs1⟩ | ⟨hrun, hfull1⟩ :=
        iappend_good hg hi htype (length_take_le _ _) hmax
      · have hnode : m1.nodes i = (m.nodes i).write (m.len i) (l.take BSIZE) := by
          rw [hn1, update_self]
        have hsize : m1.len i = m.len i + (l.take BSIZE).length := by
          rw [len, hnode]
          exact max_eq_right (Nat.le_add_right _ _)
        have hlen : m1.len i + (l.drop BSIZE).length = m.len i + l.length := by
          rw [hsize, htake, hdrop]
          omega
        have hrest := ih hg1 (by rw [hnode]; exact htype) (fun hne => ?_)
          (show (l.drop BSIZE).length ≤ fuel by omega)
        · rw [inum_congr hi1] at hrest
          rw [hrun, bind_eq_bind, bind_some]
          obtain ⟨m2, hrun2, hg2, hn2, hb2, hi2, hs2⟩ | ⟨hrun2, hwhy⟩ := hrest
          · refine .inl ⟨m2, hrun2, hg2, ?_, ?_, hi2.trans hi1, hs2.trans hs1⟩
            · rw [hn2, hsize, hnode, hn1, update_idem, write_write,
                take_append_drop]
            · rw [hlen, hsize] at hb2
              omega
          · rw [hlen, hsize] at hwhy
            refine .inr ⟨hrun2, ?_⟩
            omega
        · have hlong : BSIZE < l.length := by
            have := length_pos_iff.mpr hne
            omega
          rw [hsize, htake, Nat.min_eq_left hlong.le, hq]
          exact ⟨q + 1, by ring⟩
      · rw [hrun]
        exact .inr ⟨rfl, .inl (by omega)⟩
    · have hu := used_of_type htype
      have hle := hg.settled.tidy.size i hu
      rw [← nodes_size hu] at hle
      have hq' : MAXFILE ≤ m.len i / BSIZE := by
        rw [hq, Nat.mul_div_cancel_left q hBpos]
        by_contra hlt
        have hstep : BSIZE * (q + 1) ≤ BSIZE * MAXFILE := Nat.mul_le_mul_left _ (by omega)
        rw [hq, htake, Nat.mul_comm MAXFILE] at hmax
        rw [Nat.mul_succ] at hstep
        omega
      rw [iappend_none hg hi htype (fun e => ?_) hq']
      · exact .inr ⟨rfl, .inr (by omega)⟩
      · rw [e, length_nil] at htake
        omega

end

end Img

end Xv6.Fs.Mkfs
