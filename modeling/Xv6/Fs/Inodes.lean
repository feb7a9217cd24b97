import Xv6.Fs.Contents

/-! # The operations on inodes

Between operations the blocks are tidy, and every copy of an inode in memory agrees with the disk and
is in use (`Settled`). `iupdate` after a change of the fields and `writei` keep this, and change the
contents of inodes (`nodes`) as they should; `readi` returns what is there. -/

namespace Xv6.Fs

open Prog Function

/-- The inodes of a file system. -/
def nodes (sb : Superblock) (I : ℕ → Cached) (H : ℕ → Block) : ℕ → Node := node sb (view I H) H

/-- The blocks are tidy, and the copies in memory agree with the disk. -/
structure Settled (sb : Superblock) (S : Set ℕ) (I : ℕ → Cached) (H : ℕ → Block) : Prop where
  tidy : Tidy sb S (view I H) H
  synced : ∀ i < sb.inodeEnd, (I i).There → (I i).din = dinodeAt H i ∧ (I i).din.type ≠ 0

/-- Inode `i` of the disk is written. -/
def putInode (H : ℕ → Block) (i : ℕ) (d : Dinode) : ℕ → Block :=
  update H (IBLOCK i) (putDinode (H (IBLOCK i)) (i % IPB) d)

section
variable {sb : Superblock} {S : Set ℕ} {k k0 : State} {c H H' : ℕ → Block} {I I' : ℕ → Cached}
  {i j m n r B : ℕ} {W : Finset ℕ} {p : Slot} {ino ino' : ℕ → Dinode} {d : Dinode}

/-! ### `iupdate` -/

theorem putInode_of_ne {s : ℕ} (h : s ≠ IBLOCK i) : putInode H i d s = H s :=
  update_of_ne h _ _

theorem IBLOCK_ne_one : 1 ≠ IBLOCK i := by
  unfold IBLOCK IPB
  omega

theorem putInode_high {s : ℕ} (hi : i < sb.inodeEnd) (hs : s = 1 ∨ sb.bitStart ≤ s) :
    putInode H i d s = H s := by
  refine putInode_of_ne fun e => ?_
  obtain rfl | hs := hs
  · exact IBLOCK_ne_one e
  · have := IBLOCK_lt hi
    omega

theorem view_putInode (hi : (I i).There) : view I (putInode H i d) j = view I H j := by
  by_cases e : j = i
  · subst e
    rw [view_there hi, view_there hi]
  · unfold view putInode
    rw [dinodeAt_put_of_ne _ e]

theorem room_putInode (hi : i < sb.inodeEnd) : room sb (putInode H i d) = room sb H :=
  spare_congr fun x _ _ => bit_congr (putInode_high hi (.inr (BBLOCK_ge sb x)))

theorem Roomy.putInode (h : Roomy sb r H) (hi : i < sb.inodeEnd) : Roomy sb r (putInode H i d) :=
  h.congr fun _ ht _ => putInode_high hi ht

theorem iupdate_thru (h : At sb c k0 W H I k) (hW : IBLOCK i ∈ W) (hB : W.card ≤ B)
    (hr : Roomy sb r H) (hi : i < sb.inodeEnd) :
    (iupdate i).thru (exec p) (Airy sb r)
      (fun _ k' => At sb c k0 W (putInode H i (I i).din) I k') (Lost sb c k0 B) k := by
  have hlt : IBLOCK i < sb.logStart :=
    lt_of_lt_of_le (lt_trans (IBLOCK_lt hi) (lt_dataStart sb)) hr.area
  unfold iupdate
  rw [thru_bread_bind, thru_inode_bind, h.buf hlt, h.inode]
  refine thru_seq (logWrite_thru h hW hB hlt hr (hr.putInode hi)) fun _ k1 ⟨h₁, _⟩ => ?_
  rw [thru_brelse]
  exact ⟨h₁.airy (hr.putInode hi), h₁⟩

theorem settle (h : Tidy sb S (view I H) H) (hi : Used sb (view I H) i) (ht : (I i).There)
    (hf : (I i).din.Fits) (hs : ∀ j < sb.inodeEnd, j ≠ i → (I j).There →
      (I j).din = dinodeAt H j ∧ (I j).din.type ≠ 0) :
    Settled sb S I (putInode H i (I i).din) ∧
      nodes sb I (putInode H i (I i).din) = nodes sb I H ∧
      ∀ j n, ptrs sb (view I (putInode H i (I i).din)) (putInode H i (I i).din) j n
        = ptrs sb (view I H) H j n := by
  obtain ⟨h1, h2, h3⟩ := h.congr (fun j => view_putInode ht) fun s hs _ =>
    putInode_high (H := H) (d := (I i).din) hi.1 hs
  refine ⟨⟨h1, fun j hj hthere => ?_⟩, funext h2, h3⟩
  by_cases e : j = i
  · subst e
    unfold putInode
    rw [dinodeAt_put hf]
    have := hi.2
    rw [view_there ht] at this
    exact ⟨rfl, this⟩
  · obtain ⟨e1, e2⟩ := hs j hj e hthere
    unfold putInode
    rw [dinodeAt_put_of_ne _ e]
    exact ⟨e1, e2⟩

section
variable (h : Settled sb S I H) (hi : i < sb.inodeEnd)
include h hi

theorem Settled.view_eq : view I H i = dinodeAt H i := by
  by_cases ht : (I i).There
  · rw [view_there ht, (h.synced i hi ht).1]
  · exact if_neg ht

theorem Settled.used (ht : (I i).There) :
    Used sb (view I H) i := ⟨hi, by rw [view_there ht]; exact (h.synced i hi ht).2⟩

theorem Settled.fits (ht : (I i).There) : (I i).din.Fits := by
  rw [(h.synced i hi ht).1]
  exact getDinode_fits _ _

/-- There are no holes: the inode can be written up to `m` places. -/
theorem Settled.working (ht : (I i).There)
    (hr : r + (m - placesOf (I i).din.size) ≤ room sb H) : Working sb S i m r I H := by
  have hu := h.used hi ht
  refine ⟨h.tidy, ht, hu, h.fits hi ht, ?_⟩
  have hle : missing sb (view I H) H i m ≤ m - placesOf (I i).din.size := by
    refine missing_le fun n hn => h.tidy.cover i hu n ?_
    rwa [view_there ht]
  omega

end

/-! ### The fields of an inode -/

theorem used_congr (hino : ∀ j < sb.inodeEnd, (ino' j).type = (ino j).type) :
    Used sb ino' j ↔ Used sb ino j := and_congr_right fun hj => by rw [hino j hj]

/-- The pointers depend on the types and the addresses only. -/
theorem ptrs_congr (hino : ∀ j < sb.inodeEnd, (ino' j).type = (ino j).type ∧
    (ino' j).addrs = (ino j).addrs) : ptrs sb ino' H = ptrs sb ino H := by
  have hused : ∀ {j}, Used sb ino' j ↔ Used sb ino j := used_congr fun j hj => (hino j hj).1
  funext j n
  by_cases hu : Used sb ino j
  · rw [ptrs_used hu, ptrs_used (hused.mpr hu), ptr_congr (hino j hu.1).2 fun _ => rfl]
  · rw [ptrs_unused hu, ptrs_unused (mt hused.mp hu)]

theorem Tidy.resize (h : Tidy sb S ino H) (hino : ∀ j < sb.inodeEnd, (ino' j).type = (ino j).type ∧
    (ino' j).addrs = (ino j).addrs) (hsize : ∀ j, Used sb ino j → (ino' j).size ≤ MAXFILE * BSIZE ∧
      ∀ n < placesOf (ino' j).size, ptrs sb ino H j n ≠ 0) : Tidy sb S ino' H := by
  have hptr := ptrs_congr (H := H) hino
  have hused : ∀ {j}, Used sb ino' j → Used sb ino j :=
    (used_congr fun j hj => (hino j hj).1).mp
  refine ⟨h.super, h.area, h.low, hptr ▸ h.owned, fun j hj n hn => ?_, fun j hj => ?_⟩
  · rw [hptr]
    exact (hsize j (hused hj)).2 n hn
  · exact (hsize j (hused hj)).1

/-- Copies in memory come and go; the inodes are the same. -/
theorem Settled.recache (I' : ℕ → Cached) (h : Settled sb S I H) (hI : ∀ j < sb.inodeEnd, (I' j).There →
    (I' j).din = dinodeAt H j ∧ (I' j).din.type ≠ 0) :
    Settled sb S I' H ∧ nodes sb I' H = nodes sb I H ∧
      ptrs sb (view I' H) H = ptrs sb (view I H) H := by
  have hview : ∀ j < sb.inodeEnd, view I' H j = view I H j := fun j hj => by
    rw [h.view_eq hj]
    by_cases ht : (I' j).There
    · rw [view_there ht, (hI j hj ht).1]
    · exact if_neg ht
  have hino : ∀ j < sb.inodeEnd, (view I' H j).type = (view I H j).type ∧
      (view I' H j).addrs = (view I H j).addrs := fun j hj => by
    rw [hview j hj]
    exact ⟨rfl, rfl⟩
  have hptr := ptrs_congr (H := H) hino
  have hused : ∀ {j}, Used sb (view I' H) j ↔ Used sb (view I H) j :=
    used_congr fun j hj => (hino j hj).1
  refine ⟨⟨h.tidy.resize hino fun j hj => ?_, hI⟩, funext fun j => ?_, hptr⟩
  · rw [hview j hj.1]
    exact ⟨h.tidy.size j hj, h.tidy.cover j hj⟩
  · unfold nodes node byteAt
    rw [hptr]
    by_cases hu : Used sb (view I H) j
    · rw [if_pos hu, if_pos (hused.mpr hu), hview j hu.1]
    · rw [if_neg hu, if_neg (mt hused.mp hu)]

/-! ### `writei` -/

@[simps -fullyApplied type size addrs]
def Dinode.setSize (d : Dinode) (n : ℕ) : Dinode := { d with size := n }

theorem Dinode.Fits.setSize {d : Dinode} (h : d.Fits) {n : ℕ} (hn : n < 2 ^ 32) : (d.setSize n).Fits :=
  ⟨h.type, h.major, h.minor, h.nlink, hn, h.addrs, h.rest⟩

/-- The bytes `l` are written at offset `off`. -/
def Node.write (x : Node) (off : ℕ) (l : List UInt8) : Node where
  stat := ⟨x.stat.type, x.stat.major, x.stat.minor, x.stat.nlink, max x.stat.size (off + l.length)⟩
  data o := if off ≤ o ∧ o < off + l.length then l.getD (o - off) 0 else x.data o

/-- What `writei` checks. -/
def writable (size off n : ℕ) : Bool := off ≤ size ∧ off + n < 2 ^ 32 ∧ off + n ≤ MAXFILE * BSIZE

variable {off : ℕ} {l : List UInt8} {I'' : ℕ → Cached}

/-- The inodes when the bytes are written and the size is set. -/
theorem Wrote.nodes (h : Wrote sb i m off l I H I' H') (hw : Working sb S i m r I' H')
    (hs : Settled sb S I H) (hi : i < sb.inodeEnd) (ht : (I i).There) (hoff : off ≤ (I i).din.size)
    (hmax : off + l.length ≤ MAXFILE * BSIZE) (hI : I'' = update I' i ((I' i).setDin
      ((I' i).din.setSize (max (I i).din.size (off + l.length))))) :
    Tidy sb S (view I'' H') H' ∧ Fs.nodes sb I'' H'
      = update (Fs.nodes sb I H) i ((Fs.nodes sb I H i).write off l) ∧
    ptrs sb (view I'' H') H' = ptrs sb (view I' H') H' := by
  obtain ⟨A, hA⟩ := h.inode
  have hu := hs.used hi ht
  have ht'' : (I'' i).There := by
    rw [hI, update_self]
    exact hw.there
  have hdin : (I'' i).din
      = ((I i).din.setAddrs A).setSize (max (I i).din.size (off + l.length)) := by
    rw [hI, update_self, Cached.setDin_din, hA, update_self, Cached.setDin_din]
  have hmine : view I'' H' i
      = ((I i).din.setAddrs A).setSize (max (I i).din.size (off + l.length)) := by
    rw [view_there ht'', hdin]
  have hmine' : view I' H' i = (I i).din.setAddrs A := by
    rw [view_there hw.there, hA, update_self, Cached.setDin_din]
  have hother' : ∀ j < sb.inodeEnd, j ≠ i → view I' H' j = view I H j := fun j hj hne => by
    rw [hA, view_update_of_ne hne, view_congr hj h.low]
  have hother : ∀ j, j ≠ i → view I'' H' j = view I' H' j := fun j hne => by
    rw [hI, view_update_of_ne hne]
  have hino : ∀ j < sb.inodeEnd, (view I'' H' j).type = (view I' H' j).type ∧
      (view I'' H' j).addrs = (view I' H' j).addrs := fun j _ => by
    by_cases e : j = i
    · rw [e, hmine, hmine']
      exact ⟨rfl, rfl⟩
    · rw [hother j e]
      exact ⟨rfl, rfl⟩
  have hused : ∀ {j}, Used sb (view I'' H') j ↔ Used sb (view I H) j := by
    refine used_congr fun j hj => (hino j hj).1.trans ?_
    by_cases e : j = i
    · rw [e, hmine', view_there ht]
      rfl
    · rw [hother' j hj e]
  have hptr : ptrs sb (view I'' H') H' = ptrs sb (view I' H') H' := ptrs_congr hino
  have hnew : ∀ n < placesOf (max (I i).din.size (off + l.length)),
      ptrs sb (view I' H') H' i n ≠ 0 := fun n hn => by
    refine placesOf_cover (fun bn hbn => ?_) hn
    by_cases hlt : bn * BSIZE < (I i).din.size
    · have hdiv : bn * BSIZE / BSIZE = bn := Nat.mul_div_cancel bn (by decide)
      have hlt' : place bn < placesOf (view I H i).size := by
        rw [view_there ht, ← hdiv]
        exact place_lt hlt
      have hp := hs.tidy.cover i hu _ hlt'
      rwa [h.keep i _ hp]
    · have hp := (h.new (bn * BSIZE) (by omega) (by omega)).1
      rwa [Nat.mul_div_cancel bn (by decide)] at hp
  refine ⟨hw.tidy.resize hino fun j hj => ?_, funext fun j => ?_, hptr⟩
  · by_cases e : j = i
    · have hsize := hs.tidy.size i hu
      rw [view_there ht] at hsize
      rw [e, hmine, Dinode.setSize_size]
      exact ⟨max_le hsize hmax, hnew⟩
    · rw [hother j e]
      exact ⟨hw.tidy.size j hj, hw.tidy.cover j hj⟩
  · by_cases e : j = i
    · subst e
      rw [update_self]
      unfold Fs.nodes node
      rw [if_pos (hused.mpr hu), if_pos hu, hmine, view_there ht]
      unfold Node.write
      congr 1
      funext o
      have hbyte : byteAt sb (view I'' H') H' j o = byteAt sb (view I' H') H' j o := by
        unfold byteAt
        rw [hptr]
      rw [Dinode.setSize_size, hbyte]
      dsimp only
      by_cases hin : off ≤ o ∧ o < off + l.length
      · rw [if_pos hin, if_pos (lt_max_of_lt_right hin.2), (h.new o hin.1 hin.2).2]
      · rw [if_neg hin]
        by_cases ho : o < (I j).din.size
        · have hp := hs.tidy.cover j hu (place (o / BSIZE)) (by rw [view_there ht]; exact place_lt ho)
          rw [if_pos ho, if_pos (lt_max_of_lt_left ho), h.mine o hp hin]
        · rw [if_neg ho, if_neg (by omega)]
    · rw [update_of_ne e]
      unfold Fs.nodes node
      by_cases hj : Used sb (view I H) j
      · rw [if_pos hj, if_pos (hused.mpr hj), hother j e, hother' j hj.1 e]
        congr 1
        funext o
        by_cases ho : o < (view I H j).size
        · have hp := hs.tidy.cover j hj _ (place_lt ho)
          unfold byteAt
          rw [if_pos ho, if_pos ho, hptr, h.keep j _ hp, h.other j _ e (place_ne _) hp]
        · rw [if_neg ho, if_neg ho]
      · rw [if_neg hj, if_neg (mt hused.mp hj)]

/-- References and copies in memory are the same. -/
def SameRefs (I I' : ℕ → Cached) : Prop := ∀ j, (I' j).ref = (I j).ref ∧ (I' j).valid = (I j).valid

theorem SameRefs.refl (I : ℕ → Cached) : SameRefs I I := fun _ => ⟨rfl, rfl⟩

theorem SameRefs.setDin (I : ℕ → Cached) (i : ℕ) (d : Dinode) :
    SameRefs I (update I i ((I i).setDin d)) := fun j => by
  by_cases e : j = i
  · rw [e, update_self]
    exact ⟨rfl, rfl⟩
  · rw [update_of_ne e]
    exact ⟨rfl, rfl⟩

theorem SameRefs.trans (h : SameRefs I I') (h' : SameRefs I' I'') : SameRefs I I'' := fun j =>
  ⟨(h' j).1.trans (h j).1, (h' j).2.trans (h j).2⟩

/-- The bytes are written, the disk does not yet have a new size. -/
theorem Wrote.settled (h : Wrote sb i m off l I H I' H') (hw : Working sb S i m r I' H')
    (hs : Settled sb S I H) (hi : i < sb.inodeEnd) (ht : (I i).There) (hoff : off ≤ (I i).din.size)
    (hmax : off + l.length ≤ MAXFILE * BSIZE) (hI : I'' = update I' i ((I' i).setDin
      ((I' i).din.setSize (max (I i).din.size (off + l.length))))) :
    Settled sb S I'' (putInode H' i (I'' i).din) ∧ Fs.nodes sb I'' (putInode H' i (I'' i).din)
      = update (Fs.nodes sb I H) i ((Fs.nodes sb I H i).write off l) ∧
    ∀ j n, ptrs sb (view I'' (putInode H' i (I'' i).din)) (putInode H' i (I'' i).din) j n
      = ptrs sb (view I' H') H' j n := by
  obtain ⟨htidy, hnodes, hptr⟩ := h.nodes hw hs hi ht hoff hmax hI
  obtain ⟨A, hA⟩ := h.inode
  have ht'' : (I'' i).There := by
    rw [hI, update_self]
    exact hw.there
  have hdin : (I'' i).din = (I' i).din.setSize (max (I i).din.size (off + l.length)) := by
    rw [hI, update_self, Cached.setDin_din]
  have hu : Used sb (view I'' H') i := by
    have := hw.used.2
    rw [view_there hw.there] at this
    exact ⟨hi, by rw [view_there ht'', hdin]; exact this⟩
  have hsize := hs.tidy.size i (hs.used hi ht)
  rw [view_there ht] at hsize
  have hfit : (I'' i).din.Fits := by
    obtain ⟨f1, f2, f3, f4, -, f6, f7⟩ := hw.fits
    rw [hdin]
    exact ⟨f1, f2, f3, f4, lt_of_le_of_lt (max_le hsize hmax) (by decide), f6, f7⟩
  obtain ⟨hset, hsame, hsame'⟩ := settle htidy hu ht'' hfit fun j hj hne hthere => by
    rw [hI, hA, update_of_ne hne, update_of_ne hne] at hthere ⊢
    have hlow : dinodeAt H' j = dinodeAt H j := by
      unfold dinodeAt
      rw [h.low _ (IBLOCK_lt hj)]
    rw [hlow]
    exact hs.synced j hj hthere
  exact ⟨hset, hsame.trans hnodes, fun j n => (hsame' j n).trans (by rw [hptr])⟩

/-- What `writei` does: it fails, or the bytes are written. -/
structure Written (sb : Superblock) (S : Set ℕ) (c : ℕ → Block) (k0 : State) (i off : ℕ)
    (l : List UInt8) (I : ℕ → Cached) (H : ℕ → Block) (b : Bool) (W' : Finset ℕ) (I' : ℕ → Cached)
    (H' : ℕ → Block) (k' : State) : Prop where
  here : At sb c k0 W' H' I' k'
  settled : Settled sb S I' H'
  refs : SameRefs I I'
  ok : b = writable (nodes sb I H i).stat.size off l.length
  nodes : Fs.nodes sb I' H' = if b then
    update (Fs.nodes sb I H) i ((Fs.nodes sb I H i).write off l) else Fs.nodes sb I H
  room : room sb H ≤ room sb H' +
    if b then placesOf (off + l.length) - placesOf (Fs.nodes sb I H i).stat.size else 0

theorem Settled.size (h : Settled sb S I H) (hi : i < sb.inodeEnd) (ht : (I i).There) :
    (nodes sb I H i).stat = (I i).din.stat := by
  unfold nodes node
  rw [if_pos (h.used hi ht), view_there ht]

theorem writeFile_thru (h : At sb c k0 W H I k) (hs : Settled sb S I H) (hr : Roomy sb r H)
    (hi : i < sb.inodeEnd) (ht : (I i).There)
    (hroom : writable (nodes sb I H i).stat.size off l.length = true →
      r + (placesOf (off + l.length) - placesOf (nodes sb I H i).stat.size) ≤ room sb H ∧
      Charged sb i (placesIn off l.length) W B I H) :
    (writeFile i off l).thru (exec p) (Airy sb r)
      (fun b k' => ∃ W' I' H', Written sb S c k0 i off l I H b W' I' H' k') (Lost sb c k0 B) k := by
  have hstat : (nodes sb I H i).stat.size = (I i).din.size := by
    rw [hs.size hi ht]
    rfl
  have hfail : writable (I i).din.size off l.length = false →
      Written sb S c k0 i off l I H false W I H k := fun hf =>
    ⟨h, hs, .refl I, by rw [hstat, hf], rfl, Nat.le_refl _⟩
  rw [hstat] at hroom
  unfold writeFile
  rw [thru_inode_bind, h.inode]
  by_cases h1 : off > (I i).din.size ∨ 2 ^ 32 ≤ off + l.length
  · rw [if_pos h1, thru_pure]
    exact ⟨h.airy hr, W, I, H, hfail (decide_eq_false (by omega))⟩
  rw [if_neg h1]
  by_cases h2 : off + l.length > MAXFILE * BSIZE
  · rw [if_pos h2, thru_pure]
    exact ⟨h.airy hr, W, I, H, hfail (decide_eq_false (by omega))⟩
  rw [if_neg h2]
  have hok : writable (I i).din.size off l.length = true := decide_eq_true (by omega)
  have hoff : off ≤ (I i).din.size := by omega
  have hmax : off + l.length ≤ MAXFILE * BSIZE := by omega
  obtain ⟨hfree, hc⟩ := hroom hok
  refine thru_seq (writeLoop_thru h (hs.working hi ht hfree) hc le_rfl hmax le_rfl subset_rfl)
    fun _ k1 ⟨W1, I1, H1, h₁, hw1, hc1, hwrote⟩ => ?_
  have hcost := hwrote.cost
  have hmiss : missing sb (view I H) H i (placesOf (off + l.length))
      ≤ placesOf (off + l.length) - placesOf (I i).din.size := by
    refine missing_le fun n hn => hs.tidy.cover i (hs.used hi ht) n ?_
    rwa [view_there ht]
  have hroom1 : room sb H ≤ room sb H1 + (placesOf (off + l.length) - placesOf (I i).din.size) := by
    omega
  obtain ⟨A, hA⟩ := hwrote.inode
  have hsize : (k1.inode i).din.size = (I i).din.size := by
    rw [h₁.inode, hA, update_self]
    rfl
  rw [thru_inode_bind, hsize]
  by_cases hgrow : 0 < l.length ∧ off + l.length > (I i).din.size
  · rw [if_pos hgrow]
    obtain ⟨hset, hnodes, -⟩ := hwrote.settled hw1 hs hi ht hoff hmax rfl
    rw [thru_setInode_bind, h₁.inode]
    have h₂ := h₁.setInode i ((I1 i).setDin ((I1 i).din.setSize (max (I i).din.size (off + l.length))))
    rw [max_eq_right hgrow.2.le] at h₂ hset hnodes
    refine ⟨h₁.airy hw1.roomy, thru_seq (iupdate_thru h₂ hc1.mine hc1.card_le hw1.roomy hi)
      fun _ k3 h₃ => ?_⟩
    rw [thru_pure]
    refine ⟨h₃.airy (hw1.roomy.putInode hi), _, _, _, h₃, hset, ?_, by rw [hstat, hok], hnodes, ?_⟩
    · exact (hA ▸ SameRefs.setDin I i _).trans (SameRefs.setDin I1 i _)
    · rw [room_putInode hi, hstat]
      exact hroom1
  · rw [if_neg hgrow, thru_pure]
    have hend : off + l.length ≤ (I i).din.size := by omega
    have hmono := placesOf_mono hend
    have hidle : I1 = I := hwrote.idle (by omega)
    subst hidle
    have hself : I1 = update I1 i ((I1 i).setDin
        ((I1 i).din.setSize (max (I1 i).din.size (off + l.length)))) := by
      rw [max_eq_left hend]
      exact (update_eq_self i I1).symm
    obtain ⟨htidy, hnodes, -⟩ := hwrote.nodes hw1 hs hi ht hoff hmax hself
    refine ⟨h₁.airy hw1.roomy, W1, I1, H1, h₁, ⟨htidy, fun j hj hthere => ?_⟩, .refl I1,
      by rw [hstat, hok], hnodes, ?_⟩
    · have hlow : dinodeAt H1 j = dinodeAt H j := by
        unfold dinodeAt
        rw [hwrote.low _ (IBLOCK_lt hj)]
      rw [hlow]
      exact hs.synced j hj hthere
    · rw [hstat]
      exact hroom1

/-! ### `readi` -/

/-- What `readi` returns for a request of `n` bytes at offset `off`. -/
def Node.read (x : Node) (off n : ℕ) : Option (List UInt8) :=
  if off > x.stat.size ∨ 2 ^ 32 ≤ off + n then none
  else some ((List.range (if off + n > x.stat.size then x.stat.size - off else n)).map
    fun j => x.data (off + j))

/-- `readi` of bytes that have blocks, up to the size. -/
theorem readFile_bytes {J : State → Prop} {E : String → State → Prop} (hJ : J k)
    (ha : ∀ n, ptrs sb (view k.inode (k.home sb)) (k.home sb) i n < sb.logStart)
    (ht : (k.inode i).There) {n : ℕ} (hend : off + n ≤ (k.inode i).din.size)
    (hsize : (k.inode i).din.size < 2 ^ 32)
    (hp : ∀ o < off + n, ptrs sb (view k.inode (k.home sb)) (k.home sb) i (place (o / BSIZE)) ≠ 0) :
    (readFile i off n).thru (exec p) J (fun o k' => k' = k ∧ o = some ((List.range n).map fun j =>
      byteAt sb (view k.inode (k.home sb)) (k.home sb) i (off + j))) E k := by
  unfold readFile
  rw [thru_inode_bind, if_neg (by omega), if_neg (by omega)]
  refine thru_seq (readLoop_thru hJ ha ht le_rfl hp) fun l k' ⟨hk, hl⟩ => ?_
  rw [thru_pure]
  exact ⟨hk ▸ hJ, hk, congrArg some hl⟩

theorem readFile_thru {J : State → Prop} {E : String → State → Prop} (hJ : J k)
    (hs : Settled sb S k.inode (k.home sb)) (hi : i < sb.inodeEnd) (ht : (k.inode i).There) {n : ℕ} :
    (readFile i off n).thru (exec p) J
      (fun o k' => k' = k ∧ o = (nodes sb k.inode (k.home sb) i).read off n) E k := by
  have hu := hs.used hi ht
  have hstat : (nodes sb k.inode (k.home sb) i).stat.size = (k.inode i).din.size := by
    rw [hs.size hi ht]
    rfl
  unfold readFile Node.read
  rw [thru_inode_bind, hstat]
  by_cases h1 : off > (k.inode i).din.size ∨ 2 ^ 32 ≤ off + n
  · rw [if_pos h1, if_pos h1]
    exact ⟨hJ, rfl, rfl⟩
  · rw [if_neg h1, if_neg h1]
    have hend : off + (if off + n > (k.inode i).din.size then (k.inode i).din.size - off else n)
        ≤ (k.inode i).din.size := by
      split_ifs <;> omega
    generalize (if off + n > (k.inode i).din.size then (k.inode i).din.size - off else n) = n' at *
    refine thru_seq (readLoop_thru hJ (fun _ => hs.tidy.ptr_lt) ht le_rfl fun o ho => ?_) fun l k' ⟨hk, hl⟩ => ?_
    · refine hs.tidy.cover i hu _ (place_lt ?_)
      rw [view_there ht]
      omega
    · rw [thru_pure]
      refine ⟨hk ▸ hJ, hk, ?_⟩
      rw [hl]
      congr 1
      refine List.map_congr_left fun j hj => ?_
      have hj := List.mem_range.mp hj
      unfold nodes node
      rw [if_pos hu, view_there ht]
      exact (if_pos (by omega)).symm

end

end Xv6.Fs
