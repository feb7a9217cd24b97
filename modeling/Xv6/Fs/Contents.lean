import Xv6.Fs.Extend

/-! # Reading and writing the contents of an inode

`bmap` finds the block of an offset, or adds one to the inode at work. The loop of `readi` reads the
bytes of a file that has all its blocks; the loop of `writei` puts the given bytes in their places and
changes no other byte of any file (`Wrote`). -/

namespace Xv6.Fs

open Prog Function List

section
variable {sb : Superblock} {S : Set ℕ} {k k0 : State} {c H : ℕ → Block} {I : ℕ → Cached}
  {i m n r B bn off : ℕ} {T W : Finset ℕ} {p : Slot}

/-! ### `bmap` -/

/-- Inode `i` has a block at place `n` afterwards. -/
structure Mapped (sb : Superblock) (S : Set ℕ) (c : ℕ → Block) (k0 : State) (i m r : ℕ)
    (T : Finset ℕ) (B n : ℕ) (I : ℕ → Cached) (H : ℕ → Block) (a : ℕ) (W' : Finset ℕ)
    (I' : ℕ → Cached) (H' : ℕ → Block) (k' : State) : Prop where
  here : At sb c k0 W' H' I' k'
  working : Working sb S i m r I' H'
  charged : Charged sb i T W' B I' H'
  grows : Grows sb i m I H I' H'
  found : ptrs sb (view I' H') H' i n = a
  ne : a ≠ 0

theorem allocAddr_thru (h : At sb c k0 W H I k) (hw : Working sb S i m r I H)
    (hc : Charged sb i T W B I H) (hn : n ≤ NDIRECT) (hm : n < m) (hT : n ∈ T) :
    (allocAddr i n).thru (exec p) (Airy sb r)
      (fun a k' => ∃ W' I' H', Mapped sb S c k0 i m r T B n I H a W' I' H' k') (Lost sb c k0 B) k := by
  unfold allocAddr
  rw [thru_getAddr_bind, h.inode, thru_ite]
  constructor
  · intro h0
    have hp0 : ptrs sb (view I H) H i n = 0 := (hw.addr hn).trans h0
    refine thru_seq (balloc_thru h (fun a => hc.alloc hT hp0) (hw.roomy_succ hm hp0))
      fun b k1 ⟨hlo, hhi, hfree, h₁⟩ => ?_
    obtain ⟨hw', hg, hc', hp⟩ := hw.addAddr hn hm h0 hlo hhi hfree rfl
    have h₂ := h₁.setInode i
      ((I i).setDin ((I i).din.setAddrs (update (I i).din.addrs n b)))
    unfold setAddr
    rw [thru_bind, thru_inode_bind, thru_setInode, thru_pure, h₁.inode]
    refine ⟨h₁.airy hw'.roomy, h₂.airy hw'.roomy, h₂.airy hw'.roomy, _, _, _, h₂, hw',
      hc' T W B hT hc, hg, hp, ?_⟩
    have := dataStart_pos sb
    omega
  · intro h0
    rw [thru_pure]
    exact ⟨h.airy hw.roomy, W, I, H, h, hw, hc, .refl sb i m I H, hw.addr hn, h0⟩

theorem place_direct (h : bn < NDIRECT) : place bn = bn := if_pos h

theorem place_word (h : ¬ bn < NDIRECT) : place bn = bn - NDIRECT + (NDIRECT + 1) := by
  unfold place
  rw [if_neg h]
  omega

theorem place_inj {a b : ℕ} (h : place a = place b) : a = b := by
  unfold place at h
  split_ifs at h <;> omega

/-- The places of the blocks that hold some of `n` bytes from offset `off` on. -/
def placesIn (off n : ℕ) : Finset ℕ :=
  ((Finset.Ico off (off + n)).image fun o => place (o / BSIZE)) ∪
    if NDIRECT * BSIZE < off + n ∧ 0 < n then {NDIRECT} else ∅

theorem place_mem_placesIn {o n : ℕ} (h1 : off ≤ o) (h2 : o < off + n) : place (o / BSIZE) ∈ placesIn off n :=
  Finset.mem_union_left _ (Finset.mem_image.mpr ⟨o, Finset.mem_Ico.mpr ⟨h1, h2⟩, rfl⟩)

theorem indirect_mem_placesIn {n : ℕ} (h : NDIRECT ≤ off / BSIZE) (hn : 0 < n) : NDIRECT ∈ placesIn off n := by
  have hlt : NDIRECT * BSIZE < off + n := by
    have := (Nat.le_div_iff_mul_le (by decide)).mp h
    omega
  refine Finset.mem_union_right _ ?_
  rw [if_pos ⟨hlt, hn⟩]
  exact Finset.mem_singleton_self _

theorem placesIn_subset {off' n n' : ℕ} (h1 : off ≤ off') (h2 : off' + n' ≤ off + n) :
    placesIn off' n' ⊆ placesIn off n := by
  refine Finset.union_subset_union (Finset.image_subset_image (Finset.Ico_subset_Ico h1 h2)) ?_
  by_cases h : NDIRECT * BSIZE < off' + n' ∧ 0 < n'
  · rw [if_pos h, if_pos (by omega)]
  · rw [if_neg h]
    exact Finset.empty_subset _

theorem bmap_thru (h : At sb c k0 W H I k) (hw : Working sb S i m r I H)
    (hc : Charged sb i T W B I H) (hbn : bn < MAXFILE) (hm : place bn < m)
    (hT : place bn ∈ T) (hT' : NDIRECT ≤ bn → NDIRECT ∈ T) : (bmap i bn).thru (exec p) (Airy sb r)
      (fun a k' => ∃ W' I' H', Mapped sb S c k0 i m r T B (place bn) I H a W' I' H' k')
      (Lost sb c k0 B) k := by
  unfold bmap
  by_cases hd : bn < NDIRECT
  · rw [if_pos hd]
    rw [place_direct hd] at hm hT ⊢
    exact allocAddr_thru h hw hc hd.le hm hT
  · have hx : bn - NDIRECT < NINDIRECT := by
      unfold MAXFILE at hbn
      unfold NDIRECT NINDIRECT
      omega
    rw [if_neg hd, if_pos hx]
    rw [place_word hd] at hm hT ⊢
    have hind := hT' (Nat.le_of_not_lt hd)
    refine thru_seq (allocAddr_thru h hw hc le_rfl (by omega) hind)
      fun a k1 ⟨W1, I1, H1, h₁, hw1, hc1, hg1, hp1, ha⟩ => ?_
    have haddr : (I1 i).din.addrs NDIRECT = a := (hw1.addr le_rfl).symm.trans hp1
    have hlt : a < sb.logStart := hp1 ▸ (hw1.tidy.ptr_area (hp1 ▸ ha)).2
    have hword : ptrs sb (view I1 H1) H1 i (bn - NDIRECT + (NDIRECT + 1))
        = word (H1 a) (4 * (bn - NDIRECT)) := by
      rw [ptrs_used hw1.used, view_there hw1.there, ptr_word (haddr ▸ ha) hx, haddr]
    rw [thru_bread_bind, thru_bword_bind, h₁.buf hlt, thru_ite]
    constructor
    · intro h0
      have hp0 := hword.trans h0
      refine thru_seq (balloc_thru h₁ (fun a => hc1.alloc hT hp0) (hw1.roomy_succ hm hp0))
        fun b k2 ⟨hlo, hhi, hfree, h₂⟩ => ?_
      obtain ⟨hw2, hg2, hc', hp2⟩ := hw1.addWord hx hm haddr ha h0 hlo hhi hfree rfl
      have hc2 := hc' T W1 B hT hc1
      have haW : a ∈ withBlock sb W1 b :=
        subset_withBlock sb W1 b (hp1 ▸ hc1.there _ hind (hp1 ▸ ha))
      have hr : Roomy sb r (mark sb H1 b) :=
        (hw1.roomy_succ hm hp0).mark hlo hhi hfree
      refine thru_seq (logWrite_thru h₂ haW hc2.card_le hlt hr hw2.roomy) fun _ k3 ⟨h3, _⟩ => ?_
      rw [thru_brelse_bind, thru_pure]
      refine ⟨h3.airy hw2.roomy, _, I1, _, h3, hw2, hc2, hg1.trans hg2, hp2, ?_⟩
      have := dataStart_pos sb
      omega
    · intro h0
      rw [thru_brelse_bind, thru_pure]
      exact ⟨h₁.airy hw1.roomy, W1, I1, H1, h₁, hw1, hc1, hg1, hword, h0⟩

theorem bmap_read {J : State → Prop} {E : String → State → Prop} (hJ : J k)
    (ha : ∀ n, ptrs sb (view k.inode (k.home sb)) (k.home sb) i n < sb.logStart) (hi : (k.inode i).There)
    (hp : ptrs sb (view k.inode (k.home sb)) (k.home sb) i (place bn) ≠ 0) :
    (bmap i bn).thru (exec p) J (fun b k' => k' = k ∧
      b = ptrs sb (view k.inode (k.home sb)) (k.home sb) i (place bn)) E k := by
  have hu := used_of_ptrs hp
  have hptr : ptrs sb (view k.inode (k.home sb)) (k.home sb) i (place bn)
      = (k.inode i).din.ptr (k.home sb) (place bn) := by rw [ptrs_used hu, view_there hi]
  unfold bmap
  by_cases hd : bn < NDIRECT
  · rw [place_direct hd, ptr_direct _ hd.le] at hptr
    rw [if_pos hd]
    unfold allocAddr
    rw [thru_getAddr_bind, ← hptr, if_neg (place_direct hd ▸ hp), thru_pure, place_direct hd]
    exact ⟨hJ, rfl, rfl⟩
  · have hind : ptrs sb (view k.inode (k.home sb)) (k.home sb) i NDIRECT ≠ 0 := by
      intro h0
      rw [ptrs_indirect hu, view_there hi] at h0
      refine hp (hptr.trans ?_)
      unfold Dinode.ptr
      rw [if_neg (by rw [place_word hd]; omega), if_pos (.inl h0)]
    have haddr : ptrs sb (view k.inode (k.home sb)) (k.home sb) i NDIRECT
        = (k.inode i).din.addrs NDIRECT := by rw [ptrs_indirect hu, view_there hi]
    have hx : bn - NDIRECT < NINDIRECT := by
      by_contra hge
      have hlarge : MAXFILE < place bn := by
        rw [place_word hd]
        unfold NINDIRECT at hge
        unfold MAXFILE NDIRECT at *
        omega
      refine hp (hptr.trans ?_)
      unfold Dinode.ptr
      rw [if_neg (by rw [place_word hd]; omega), if_pos (.inr hlarge)]
    have hlt := ha NDIRECT
    rw [haddr] at hind hlt
    have hbuf : k.buf ((k.inode i).din.addrs NDIRECT) = k.home sb ((k.inode i).din.addrs NDIRECT) :=
      (if_pos hlt).symm
    rw [place_word hd, ptr_word hind hx, ← hbuf] at hptr
    rw [if_neg hd, if_pos hx]
    unfold allocAddr
    rw [thru_bind, thru_getAddr_bind, if_neg hind, thru_pure]
    refine ⟨hJ, ?_⟩
    rw [thru_bread_bind, thru_bword_bind, ← hptr, if_neg (place_word hd ▸ hp), thru_brelse_bind,
      thru_pure, place_word hd]
    exact ⟨hJ, rfl, rfl⟩

/-! ### Reading -/

theorem readLoop_thru {J : State → Prop} {E : String → State → Prop} (hJ : J k)
    (ha : ∀ n, ptrs sb (view k.inode (k.home sb)) (k.home sb) i n < sb.logStart) (hi : (k.inode i).There)
    {fuel n : ℕ} (hn : n ≤ fuel)
    (hp : ∀ o < off + n, ptrs sb (view k.inode (k.home sb)) (k.home sb) i (place (o / BSIZE)) ≠ 0) :
    (readLoop i fuel off n).thru (exec p) J (fun l k' => k' = k ∧ l = (range n).map fun j =>
      byteAt sb (view k.inode (k.home sb)) (k.home sb) i (off + j)) E k := by
  induction fuel generalizing off n with
  | zero =>
    obtain rfl : n = 0 := by omega
    exact ⟨hJ, rfl, rfl⟩
  | succ fuel ih =>
    unfold readLoop
    by_cases h0 : n = 0
    · subst h0
      rw [if_pos rfl]
      exact ⟨hJ, rfl, rfl⟩
    · rw [if_neg h0]
      refine thru_seq (bmap_read hJ ha hi (hp off (by omega))) fun b k' ⟨hk, hb⟩ => ?_
      subst hk
      have hbuf : k'.buf b = k'.home sb b := (if_pos (hb ▸ ha _)).symm
      have hpos : 0 < BSIZE - off % BSIZE := Nat.sub_pos_of_lt (Nat.mod_lt _ (by decide))
      rw [thru_bread_bind, thru_brelse_bind]
      refine thru_seq (ih (n := n - min n (BSIZE - off % BSIZE)) (by omega) fun o ho =>
        hp o (by omega)) fun l k'' ⟨hk, hl⟩ => ?_
      subst hk
      rw [thru_pure]
      refine ⟨hJ, rfl, ?_⟩
      have hsplit : n = min n (BSIZE - off % BSIZE) + (n - min n (BSIZE - off % BSIZE)) := by omega
      conv_rhs => rw [hsplit, range_add, map_append, map_map]
      rw [hl]
      congr 1
      · refine map_congr_left fun j hj => ?_
        have hj := mem_range.mp hj
        have e1 : (off + j) / BSIZE = off / BSIZE := by
          unfold BSIZE at hj ⊢
          omega
        have e2 : (off + j) % BSIZE = off % BSIZE + j := by
          unfold BSIZE at hj ⊢
          omega
        rw [byteAt, e1, e2, hbuf, hb]
      · refine map_congr_left fun j _ => ?_
        rw [comp_apply, Nat.add_assoc]

/-! ### Writing -/

variable {I' I'' : ℕ → Cached} {H' H'' : ℕ → Block} {off : ℕ} {l l' : List UInt8}

/-- The bytes `l` have been written to inode `i` at offset `off`. -/
structure Wrote (sb : Superblock) (i m off : ℕ) (l : List UInt8) (I : ℕ → Cached) (H : ℕ → Block)
    (I' : ℕ → Cached) (H' : ℕ → Block) : Prop where
  inode : ∃ A, I' = update I i ((I i).setDin ((I i).din.setAddrs A))
  keep : ∀ j n, ptrs sb (view I H) H j n ≠ 0 →
    ptrs sb (view I' H') H' j n = ptrs sb (view I H) H j n
  other : ∀ j n, j ≠ i → n ≠ NDIRECT → ptrs sb (view I H) H j n ≠ 0 →
    H' (ptrs sb (view I H) H j n) = H (ptrs sb (view I H) H j n)
  mine : ∀ o, ptrs sb (view I H) H i (place (o / BSIZE)) ≠ 0 → ¬ (off ≤ o ∧ o < off + l.length) →
    byteAt sb (view I' H') H' i o = byteAt sb (view I H) H i o
  new : ∀ o, off ≤ o → o < off + l.length →
    ptrs sb (view I' H') H' i (place (o / BSIZE)) ≠ 0 ∧
      byteAt sb (view I' H') H' i o = l.getD (o - off) 0
  only : ∀ j n, ptrs sb (view I' H') H' j n ≠ 0 →
    ptrs sb (view I H) H j n ≠ 0 ∨ (j = i ∧ n < m)
  low : ∀ s < sb.bitStart, H' s = H s
  cost : room sb H + missing sb (view I' H') H' i m = room sb H' + missing sb (view I H) H i m
  idle : missing sb (view I H) H i m = 0 → I' = I

theorem Wrote.nil (sb : Superblock) (i m off : ℕ) (I : ℕ → Cached) (H : ℕ → Block) :
    Wrote sb i m off [] I H I H :=
  ⟨⟨(I i).din.addrs, (update_eq_self i I).symm⟩, fun _ _ _ => rfl, fun _ _ _ _ _ => rfl,
    fun _ _ _ => rfl, fun o h1 h2 => absurd h2 (by rw [length_nil]; omega),
    fun _ _ hp => .inl hp, fun _ _ => rfl, rfl, fun _ => rfl⟩

theorem Wrote.trans (h : Wrote sb i m off l I H I' H')
    (h' : Wrote sb i m (off + l.length) l' I' H' I'' H'') :
    Wrote sb i m off (l ++ l') I H I'' H'' := by
  refine ⟨?_, fun j n hp => ?_, fun j n hj hn hp => ?_, fun o hp ho => ?_, fun o h1 h2 => ?_,
    fun j n hp => ?_, fun s hs => (h'.low s hs).trans (h.low s hs), ?_, fun h0 => ?_⟩
  · obtain ⟨A, rfl⟩ := h.inode
    obtain ⟨A', rfl⟩ := h'.inode
    exact ⟨A', by rw [update_self, update_idem]; rfl⟩
  · have e := h.keep j n hp
    exact (h'.keep j n (e ▸ hp)).trans e
  · have e := h.keep j n hp
    have e' := h'.other j n hj hn (e ▸ hp)
    rw [e] at e'
    exact e'.trans (h.other j n hj hn hp)
  · rw [length_append] at ho
    have e := h.keep i _ hp
    exact (h'.mine o (e ▸ hp) (by omega)).trans (h.mine o hp (by omega))
  · rw [length_append] at h2
    by_cases hlt : o < off + l.length
    · obtain ⟨hp, hb⟩ := h.new o h1 hlt
      refine ⟨(h'.keep i _ hp).symm ▸ hp, (h'.mine o hp (by omega)).trans (hb.trans ?_)⟩
      rw [getD_append _ _ _ _ (by omega)]
    · obtain ⟨hp, hb⟩ := h'.new o (by omega) (by omega)
      refine ⟨hp, hb.trans ?_⟩
      rw [getD_append_right _ _ _ _ (by omega)]
      congr 1
      omega
  · obtain hp | hp := h'.only j n hp
    · exact h.only j n hp
    · exact .inr hp
  · have := h.cost
    have := h'.cost
    omega
  · have hle := missing_le_of_keep (m := m) fun n hp => h.keep i n hp
    exact (h'.idle (by omega)).trans (h.idle h0)

/-- The bytes of one block: `bmap`, and a change of the block. -/
theorem Grows.write {r b : ℕ} {d : Block} (hg : Grows sb i m I H I' H') (hw : Working sb S i m r I' H')
    (hb : ptrs sb (view I' H') H' i (place (off / BSIZE)) = b) (hb0 : b ≠ 0)
    (hlen : off % BSIZE + l.length ≤ BSIZE)
    (hd : d = fun o => if off % BSIZE ≤ o ∧ o < off % BSIZE + l.length then
      l.getD (o - off % BSIZE) 0 else H' b o) (hH : H'' = update H' b d) :
    Working sb S i m r I' H'' ∧ Wrote sb i m off l I H I' H'' ∧
      ∀ j k, ptrs sb (view I' H'') H'' j k = ptrs sb (view I' H') H' j k := by
  obtain ⟨hw', hptr, hbits, hroom⟩ := hw.store hb hb0 (place_ne _) hH
  have hin : ∀ {o}, off ≤ o → o < off + l.length →
      o / BSIZE = off / BSIZE ∧ o % BSIZE = off % BSIZE + (o - off) := fun {o} h1 h2 => by
    unfold BSIZE at hlen ⊢
    omega
  refine ⟨hw', ⟨hg.inode, fun j n hp => (hptr j n).trans (hg.keep j n hp), fun j n hj hn hp => ?_,
    fun o hp ho => ?_, fun o h1 h2 => ?_, fun j n hp => hg.only j n (hptr j n ▸ hp),
    fun s hs => (hbits s (lt_trans hs (lt_dataStart sb))).trans (hg.low s hs), ?_, hg.idle⟩, hptr⟩
  · have hk := hg.keep j n hp
    have hne : ptrs sb (view I H) H j n ≠ b := by
      intro e
      have := hw.tidy.owned.inj j n i (place (off / BSIZE)) (hk ▸ hp) (hk.trans (e.trans hb.symm))
      exact hj this.1
    rw [hH, update_of_ne hne, hg.data j n hn hp]
  · have hk := hg.keep i _ hp
    have hold := hg.data i _ (place_ne _) hp
    unfold byteAt
    rw [hptr, hk, ← hold]
    by_cases e : ptrs sb (view I H) H i (place (o / BSIZE)) = b
    · have heq := place_inj (hw.tidy.owned.inj i _ i _ (hk ▸ hp) (hk.trans (e.trans hb.symm))).2
      rw [e, hH, update_self, hd]
      refine if_neg ?_
      unfold BSIZE at heq ⊢
      omega
    · rw [hH, update_of_ne e]
  · obtain ⟨e1, e2⟩ := hin h1 h2
    refine ⟨by rw [hptr, e1, hb]; exact hb0, ?_⟩
    unfold byteAt
    rw [hptr, e1, hb, hH, update_self, hd, e2]
    dsimp only
    rw [if_pos (by omega), Nat.add_sub_cancel_left]
  · have hmiss : missing sb (view I' H'') H'' i m = missing sb (view I' H') H' i m := by
      unfold missing absent
      simp only [hptr]
    rw [hmiss, hroom]
    exact hg.cost

/-- The bytes that go to one block are the first of those that are left. -/
theorem piece_take {n : ℕ} (h : n ≤ l.length) (q : ℕ) (b : Block) :
    (fun o => if q ≤ o ∧ o < q + n then l.getD (o - q) 0 else b o)
      = fun o => if q ≤ o ∧ o < q + (l.take n).length then (l.take n).getD (o - q) 0 else b o := by
  have hlen : (l.take n).length = n := by
    rw [length_take]
    omega
  funext o
  rw [hlen]
  split_ifs with ho
  · rw [getD_eq_getElem?_getD, getD_eq_getElem?_getD, getElem?_take_of_lt (by omega)]
  · rfl

theorem writeLoop_thru (h : At sb c k0 W H I k) (hw : Working sb S i m r I H)
    (hc : Charged sb i T W B I H) {fuel : ℕ} (hfuel : l.length ≤ fuel)
    (hsize : off + l.length ≤ MAXFILE * BSIZE) (hm : placesOf (off + l.length) ≤ m)
    (hT : placesIn off l.length ⊆ T) :
    (writeLoop i fuel off l).thru (exec p) (Airy sb r) (fun _ k' => ∃ W' I' H',
      At sb c k0 W' H' I' k' ∧ Working sb S i m r I' H' ∧ Charged sb i T W' B I' H' ∧
      Wrote sb i m off l I H I' H') (Lost sb c k0 B) k := by
  induction fuel generalizing k W H I off l with
  | zero =>
    obtain rfl : l = [] := length_eq_zero_iff.mp (by omega)
    exact ⟨h.airy hw.roomy, W, I, H, h, hw, hc, .nil sb i m off I H⟩
  | succ fuel ih =>
    unfold writeLoop
    by_cases h0 : l = []
    · subst h0
      rw [if_pos rfl]
      exact ⟨h.airy hw.roomy, W, I, H, h, hw, hc, .nil sb i m off I H⟩
    · have hpos : 0 < l.length := length_pos_iff.mpr h0
      have hpos' : 0 < BSIZE - off % BSIZE := Nat.sub_pos_of_lt (Nat.mod_lt _ (by decide))
      rw [if_neg h0]
      have hbn : off / BSIZE < MAXFILE := Nat.div_lt_of_lt_mul (by rw [Nat.mul_comm]; omega)
      have hplace := hT (place_mem_placesIn (n := l.length) le_rfl (by omega))
      refine thru_seq (bmap_thru h hw hc hbn (lt_of_lt_of_le (place_lt (by omega)) hm) hplace
        fun hge => hT (indirect_mem_placesIn hge hpos))
        fun b k1 ⟨W1, I1, H1, h₁, hw1, hc1, hg1, hp1, hb⟩ => ?_
      have hlt : b < sb.logStart := hp1 ▸ (hw1.tidy.ptr_area (hp1 ▸ hb)).2
      have htake : (l.take (min l.length (BSIZE - off % BSIZE))).length
          = min l.length (BSIZE - off % BSIZE) := by
        rw [length_take]
        omega
      obtain ⟨hw2, hwrote, hptr⟩ := hg1.write hw1 hp1 hb (by rw [htake]; omega)
        (piece_take (Nat.min_le_left _ _) _ _) rfl
      have hbW : b ∈ W1 := hp1 ▸ hc1.there _ hplace (hp1 ▸ hb)
      rw [thru_bread_bind, h₁.buf hlt]
      refine thru_seq (logWrite_thru h₁ hbW hc1.card_le hlt hw1.roomy hw2.roomy)
        fun _ k2 ⟨h₂, _⟩ => ?_
      rw [thru_brelse_bind]
      have hdrop : (l.drop (min l.length (BSIZE - off % BSIZE))).length
          = l.length - min l.length (BSIZE - off % BSIZE) := length_drop
      have hend : off + min l.length (BSIZE - off % BSIZE)
          + (l.drop (min l.length (BSIZE - off % BSIZE))).length = off + l.length := by
        rw [hdrop]
        omega
      refine thru_mono (ih h₂ hw2 (hc1.keep hptr) (by omega) (by omega) (by rw [hend]; exact hm)
        ((placesIn_subset (by omega) hend.le).trans hT))
        (fun _ k3 ⟨W3, I3, H3, h3, hw3, hc3, hwrote'⟩ => ?_) fun _ _ he => he
      refine ⟨W3, I3, H3, h3, hw3, hc3, ?_⟩
      have hnext : off + min l.length (BSIZE - off % BSIZE)
          = off + (l.take (min l.length (BSIZE - off % BSIZE))).length := by rw [htake]
      rw [hnext] at hwrote'
      have := hwrote.trans hwrote'
      rwa [take_append_drop] at this

end

end Xv6.Fs
