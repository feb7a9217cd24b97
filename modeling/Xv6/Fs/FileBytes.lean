import Xv6.Fs.Inodes
import Xv6.Fs.Mkfs

/-! # An inode is a growable array of bytes

`writei` and `readi` at the level of the contents of inodes (`nodes`): `writei` refuses a request that
starts after the end, wraps around or passes the largest file, and else replaces the bytes of the range
and leaves all other bytes of all files as they are; `readi` returns the bytes up to the size.

`writei` logs the inode, the blocks of the range, the indirect block and the bitmap. `log_write` panics
when the transaction has too many sectors, so that the range must leave the log large enough
(`LogRoom`). -/

namespace Xv6.Fs

open Prog Function Finset

/-- What `writei` refuses. -/
def refused (size off n : ℕ) : Prop := off > size ∨ 2 ^ 32 ≤ off + n ∨ off + n > MAXFILE * BSIZE
deriving Decidable

/-- The sectors of the transaction so far, the sector of the inode, and the blocks that the range has
already. -/
def rangeSectors (sb : Superblock) (k : State) (i off n : ℕ) : Finset ℕ :=
  k.log.lh.toFinset ∪ {IBLOCK i} ∪
    ((placesIn off n).image (ptrs sb (view k.inode (k.home sb)) (k.home sb) i)).filter (· ≠ 0)

/-- The log has room for a write of the range: for the sectors above, for the blocks that are missing,
and for the sectors of the bitmap that have their bits. -/
def LogRoom (sb : Superblock) (k : State) (i off n : ℕ) : Prop :=
  logCost sb (rangeSectors sb k i off n)
    (absent sb (view k.inode (k.home sb)) (k.home sb) i (placesIn off n)).card
      < min LOGSIZE (sb.nlog - 1)
deriving Decidable

section
variable {sb : Superblock} {S : Set ℕ} {c : ℕ → Block} {k : State} {i off n : ℕ} {p : Slot}
  {l : List UInt8}

theorem writable_iff : writable n off l.length = true ↔ ¬ refused n off l.length := by
  unfold writable refused
  rw [decide_eq_true_iff]
  omega

theorem charged_range : Charged sb i (placesIn off n) (rangeSectors sb k i off n)
    (logCost sb (rangeSectors sb k i off n)
      (absent sb (view k.inode (k.home sb)) (k.home sb) i (placesIn off n)).card)
    k.inode (k.home sb) := by
  refine ⟨by simp [rangeSectors], fun m hm hp => ?_, le_rfl⟩
  exact mem_union_right _ (mem_filter.mpr ⟨mem_image_of_mem _ hm, hp⟩)

theorem readi_run (h : (k.inode i).din.type ≠ T_DEV) :
    (readi i off n).run (exec p) k = (readFile i off n).run (exec p) k := by
  show ((if (k.inode i).din.type = T_DEV then _ else _ : Kern (Option (List UInt8)))).run (exec p) k = _
  rw [if_neg h]

/-- A request that is not refused, with enough blocks: a panic in a transaction means that the log is too small. -/
theorem writeFile_range (hl : Logged sb.logStart sb.nlog c k)
    (hs : Settled sb S k.inode (k.home sb)) (hi : i < sb.inodeEnd) (ht : (k.inode i).There)
    (hok : ¬ refused (nodes sb k.inode (k.home sb) i).stat.size off l.length)
    (hfree : placesOf (off + l.length) - placesOf (nodes sb k.inode (k.home sb) i).stat.size
      ≤ room sb (k.home sb)) :
    (writeFile i off l).wp (exec p)
      (fun b k' => b = true ∧ ∃ W', Written sb S c k i off l k.inode (k.home sb) true W' k'.inode
        (k'.home sb) k')
      (fun msg _ => k.log.busy = true → msg = "too big a transaction" ∧ ¬ LogRoom sb k i off l.length) k := by
  have hat : At sb c k (rangeSectors sb k i off l.length) (k.home sb) k.inode k :=
    (At.start hl).mono fun s hs => mem_union_left _ (mem_union_left _ hs)
  have hr : Roomy sb 0 (k.home sb) := ⟨hs.tidy.super, hs.tidy.area, hs.tidy.low, Nat.zero_le _⟩
  have hthru := writeFile_thru (p := p) hat hs hr hi ht fun _ => ⟨by omega, charged_range⟩
  refine wp_mono ((thru_iff _).mp hthru).2 (fun b k' ⟨W', I', H', hw⟩ => ?_) fun _ _ he hb =>
    (he.2 hb).imp_right Nat.not_lt_of_le
  have hb : b = true := hw.ok.trans (writable_iff.mpr hok)
  have hI := hw.here.inode
  have hH := hw.here.home
  subst hb hI hH
  exact ⟨rfl, W', hw⟩

theorem writeFile_accepted (hl : Logged sb.logStart sb.nlog c k) (hbusy : k.log.busy = true)
    (hs : Settled sb S k.inode (k.home sb)) (hi : i < sb.inodeEnd) (ht : (k.inode i).There)
    (hok : ¬ refused (nodes sb k.inode (k.home sb) i).stat.size off l.length)
    (hfree : placesOf (off + l.length) - placesOf (nodes sb k.inode (k.home sb) i).stat.size
      ≤ room sb (k.home sb)) (hlog : LogRoom sb k i off l.length) :
    ∃ k' W', (writeFile i off l).run (exec p) k = (.ok true, k') ∧
      Written sb S c k i off l k.inode (k.home sb) true W' k'.inode (k'.home sb) k' := by
  obtain ⟨b, k', hrun, rfl, W', hw⟩ := exists_run (wp_mono
    (writeFile_range (p := p) hl hs hi ht hok hfree) (fun _ _ hq => hq)
    fun _ _ he => (he hbusy).2 hlog)
  exact ⟨k', W', hrun, hw⟩

/-- Where the disk has only zeros, the log has every block that gets other bytes. -/
theorem Written.logged {k0 k' : State} {I I' : ℕ → Cached} {H H' : ℕ → Block} {W' : Finset ℕ} {o : ℕ}
    (h : Written sb S c k0 i off l I H true W' I' H' k')
    (hzero : ∀ b, sb.dataStart ≤ b → b < sb.logStart → c b = zeroBlock) (hl : (0 : UInt8) ∉ l)
    (h1 : off ≤ o) (h2 : o < off + l.length) :
    ptrs sb (view I' H') H' i (place (o / BSIZE)) ≠ 0 ∧
      ptrs sb (view I' H') H' i (place (o / BSIZE)) ∈ k'.log.lh := by
  have hbyte : (Fs.nodes sb I' H' i).data o ≠ 0 := by
    rw [h.nodes, if_pos rfl, update_self]
    unfold Node.write
    dsimp only
    rw [if_pos ⟨h1, h2⟩, List.getD_eq_getElem _ _ (by omega)]
    exact fun e => hl (e ▸ List.getElem_mem _)
  unfold Fs.nodes node at hbyte
  split_ifs at hbyte with hu
  · dsimp only at hbyte
    split_ifs at hbyte with ho
    · have hp := h.settled.tidy.cover i hu _ (place_lt ho)
      obtain ⟨hlo, hhi⟩ := h.settled.tidy.ptr_area hp
      refine ⟨hp, ?_⟩
      by_contra hm
      have hbuf := h.here.log.rest _ (.inl hhi) hm
      rw [h.here.buf hhi, hzero _ hlo hhi] at hbuf
      unfold byteAt at hbyte
      rw [hbuf] at hbyte
      exact hbyte rfl
    · exact absurd rfl hbyte
  · exact absurd rfl hbyte

end

/-! ### A small file system -/

/-- Sixty-four sectors, with one inode besides inode 0. -/
def small : Superblock := ⟨64, 50, 2, 10⟩

end Xv6.Fs
