import Xv6.Fs.Blocks

/-! # Files that grow: `bmap` and `writei`

`view I H i` is inode `i`: its copy in the cache `I` if there is one, else inode `i` of the disk `H`.
While a file is written its copy in memory gets new blocks, and the disk follows at the end.
`Working` is what holds of the inode at work meanwhile: the blocks are tidy with its copy in memory,
and the free blocks are enough for the places below `m` that have no block yet.

`Grows` says what `bmap` may do: pointers that are there stay, and so does what they point to. `Wrote`
says what the loop of `writei` does: in addition the given bytes are in their places. -/

namespace Xv6.Fs

open Function Finset

/-- There is a copy of the inode in memory. -/
def Cached.There (x : Cached) : Prop := x.valid = true ∧ x.ref ≠ 0
deriving Decidable

/-- The cache has another inode. -/
@[simps] def Cached.setDin (x : Cached) (d : Dinode) : Cached := { x with din := d }

/-- Other block addresses. -/
@[simps -fullyApplied type size addrs]
def Dinode.setAddrs (d : Dinode) (A : ℕ → ℕ) : Dinode := { d with addrs := A }

theorem Dinode.Fits.setAddrs {d : Dinode} (h : d.Fits) {A : ℕ → ℕ} (hA : ∀ n, A n < 2 ^ 32)
    (hrest : ∀ n, NDIRECT < n → A n = 0) : (d.setAddrs A).Fits :=
  ⟨h.type, h.major, h.minor, h.nlink, h.size, hA, hrest⟩

theorem Dinode.Fits.setAddr {d : Dinode} (h : d.Fits) {n b : ℕ} (hn : n ≤ NDIRECT) (hb : b < 2 ^ 32) :
    (d.setAddrs (update d.addrs n b)).Fits := by
  refine h.setAddrs (fun k => ?_) fun k hk => ?_
  · by_cases e : k = n
    · rwa [e, update_self]
    · rw [update_of_ne e]
      exact h.addrs k
  · rw [update_of_ne (by omega)]
    exact h.rest k hk

/-- Inode `i`, in the cache or on the disk. -/
def view (I : ℕ → Cached) (H : ℕ → Block) (i : ℕ) : Dinode :=
  if (I i).There then (I i).din else dinodeAt H i

/-- The places of `T` without a block. -/
def absent (sb : Superblock) (ino : ℕ → Dinode) (H : ℕ → Block) (i : ℕ) (T : Finset ℕ) : Finset ℕ :=
  T.filter (ptrs sb ino H i · = 0)

/-- The number of places below `m` without a block. -/
def missing (sb : Superblock) (ino : ℕ → Dinode) (H : ℕ → Block) (i m : ℕ) : ℕ :=
  (absent sb ino H i (range m)).card

section
variable {sb : Superblock} {S : Set ℕ} {T W : Finset ℕ} {B r : ℕ} {I I' : ℕ → Cached} {H H' : ℕ → Block} {ino ino' : ℕ → Dinode}
  {i j b n m : ℕ}

theorem view_there (h : (I i).There) : view I H i = (I i).din := if_pos h

theorem view_update_of_ne {x : Cached} (h : j ≠ i) : view (update I i x) H j = view I H j := by
  unfold view
  rw [update_of_ne h]

theorem view_congr (hj : j < sb.inodeEnd) (hlow : ∀ s < sb.bitStart, H' s = H s) :
    view I H' j = view I H j := by
  unfold view dinodeAt
  rw [hlow _ (IBLOCK_lt hj)]

/-! ### One more block -/

/-- An inode in use gets block `b`, which was free, at a place that had none. -/
theorem Tidy.grow (h : Tidy sb S ino H) (hlo : sb.dataStart ≤ b)
    (hhi : b < sb.logStart) (hfree : bit sb H b = false) (h0 : ptrs sb ino H i n = 0)
    (hino : ∀ j < sb.inodeEnd, (ino' j).type = (ino j).type ∧ (ino' j).size = (ino j).size)
    (hnew : ptrs sb ino' H' i n = b)
    (hold : ∀ j k, ¬ (j = i ∧ k = n) → ptrs sb ino' H' j k = ptrs sb ino H j k)
    (hbit : ∀ x < sb.size, bit sb H' x = (bit sb H x || decide (x = b)))
    (hlow : ∀ s < sb.bitStart, H' s = H s) : Tidy sb S ino' H' := by
  have hused : ∀ {j}, Used sb ino' j → Used sb ino j := fun hj =>
    ⟨hj.1, fun e => hj.2 ((hino _ hj.1).1.trans e)⟩
  refine ⟨?_, h.area, fun x hx => ?_, ?_, fun j hj k hk => ?_, fun j hj => ?_⟩
  · have h3 := three_le_bitStart sb
    rw [hlow 1 (by omega), h.super]
  · rw [hbit x (lt_size (lt_of_lt_of_le hx h.area)), h.low x hx, Bool.true_or]
  · refine h.owned.add (dataStart_pos sb) hlo hhi hfree h0 hnew hold fun x _ hx => ?_
    rw [hbit x (lt_size hx)]
    simp
  · rw [(hino j hj.1).2] at hk
    have hne := h.cover j (hused hj) k hk
    by_cases hjk : j = i ∧ k = n
    · rw [hjk.1, hjk.2, h0] at hne
      exact absurd rfl hne
    · rwa [hold j k hjk]
  · rw [(hino j hj.1).2]
    exact h.size j (hused hj)

/-- The place that gets a block was one of those without. -/
theorem card_absent_grow (hn : n ∈ T) (h0 : ptrs sb ino H i n = 0) (hb : b ≠ 0)
    (hnew : ptrs sb ino' H' i n = b)
    (hold : ∀ j k, ¬ (j = i ∧ k = n) → ptrs sb ino' H' j k = ptrs sb ino H j k) :
    (absent sb ino' H' i T).card + 1 = (absent sb ino H i T).card := by
  have hset : absent sb ino' H' i T = (absent sb ino H i T).erase n := by
    ext k
    simp only [absent, mem_filter, mem_erase]
    by_cases hk : k = n
    · subst hk
      simp [hnew, hb]
    · rw [hold i k (by simp [hk])]
      simp [hk]
  rw [hset]
  exact card_erase_add_one (mem_filter.mpr ⟨hn, h0⟩)

theorem cost_grow (hlo : sb.dataStart ≤ b) (hhi : b < sb.logStart) (hfree : bit sb H b = false)
    (h0 : ptrs sb ino H i n = 0) (hn : n < m) (hb : b ≠ 0) (hnew : ptrs sb ino' H' i n = b)
    (hold : ∀ j k, ¬ (j = i ∧ k = n) → ptrs sb ino' H' j k = ptrs sb ino H j k)
    (hbit : ∀ x < sb.size, bit sb H' x = (bit sb H x || decide (x = b))) :
    room sb H + missing sb ino' H' i m = room sb H' + missing sb ino H i m := by
  have hroom : room sb H' + 1 = room sb H := by
    refine spare_add hlo hhi hfree fun x _ hx => ?_
    rw [hbit x (lt_size hx)]
    simp
  have hmiss : missing sb ino' H' i m + 1 = missing sb ino H i m :=
    card_absent_grow (mem_range.mpr hn) h0 hb hnew hold
  omega

/-- What `bmap` may do. -/
structure Grows (sb : Superblock) (i m : ℕ) (I : ℕ → Cached) (H : ℕ → Block) (I' : ℕ → Cached)
    (H' : ℕ → Block) : Prop where
  inode : ∃ A, I' = update I i ((I i).setDin ((I i).din.setAddrs A))
  keep : ∀ j n, ptrs sb (view I H) H j n ≠ 0 →
    ptrs sb (view I' H') H' j n = ptrs sb (view I H) H j n
  data : ∀ j n, n ≠ NDIRECT → ptrs sb (view I H) H j n ≠ 0 →
    H' (ptrs sb (view I H) H j n) = H (ptrs sb (view I H) H j n)
  only : ∀ j n, ptrs sb (view I' H') H' j n ≠ 0 →
    ptrs sb (view I H) H j n ≠ 0 ∨ (j = i ∧ n < m)
  low : ∀ s < sb.bitStart, H' s = H s
  cost : room sb H + missing sb (view I' H') H' i m = room sb H' + missing sb (view I H) H i m
  idle : missing sb (view I H) H i m = 0 → I' = I

theorem missing_le_of_keep (h : ∀ n, ptrs sb ino H i n ≠ 0 → ptrs sb ino' H' i n = ptrs sb ino H i n) :
    missing sb ino' H' i m ≤ missing sb ino H i m := by
  refine card_le_card fun n hn => ?_
  obtain ⟨hm, h0⟩ := mem_filter.mp hn
  refine mem_filter.mpr ⟨hm, ?_⟩
  by_contra hp
  rw [h n hp] at h0
  exact hp h0

theorem missing_le (h : ∀ k < n, ptrs sb ino H i k ≠ 0) : missing sb ino H i m ≤ m - n := by
  rw [← Nat.card_Ico]
  refine card_le_card fun k hk => ?_
  obtain ⟨hm, h0⟩ := mem_filter.mp hk
  refine mem_Ico.mpr ⟨?_, mem_range.mp hm⟩
  by_contra hlt
  exact h k (by omega) h0

theorem Grows.refl (sb : Superblock) (i m : ℕ) (I : ℕ → Cached) (H : ℕ → Block) :
    Grows sb i m I H I H :=
  ⟨⟨(I i).din.addrs, (update_eq_self i I).symm⟩, fun _ _ _ => rfl, fun _ _ _ _ => rfl,
    fun _ _ hp => .inl hp, fun _ _ => rfl, rfl, fun _ => rfl⟩

theorem Grows.trans {I'' : ℕ → Cached} {H'' : ℕ → Block} (h : Grows sb i m I H I' H')
    (h' : Grows sb i m I' H' I'' H'') : Grows sb i m I H I'' H'' := by
  refine ⟨?_, fun j n hp => ?_, fun j n hn hp => ?_, fun j n hp => ?_, fun s hs => ?_, ?_, fun h0 => ?_⟩
  · obtain ⟨A, rfl⟩ := h.inode
    obtain ⟨A', rfl⟩ := h'.inode
    exact ⟨A', by rw [update_self, update_idem]; rfl⟩
  · have e := h.keep j n hp
    exact (h'.keep j n (e ▸ hp)).trans e
  · have e := h.keep j n hp
    have e' := h'.data j n hn (e ▸ hp)
    rw [e] at e'
    exact e'.trans (h.data j n hn hp)
  · obtain hp | hp := h'.only j n hp
    · exact h.only j n hp
    · exact .inr hp
  · exact (h'.low s hs).trans (h.low s hs)
  · have := h.cost
    have := h'.cost
    omega
  · have hle := missing_le_of_keep (m := m) fun n hp => h.keep i n hp
    exact (h'.idle (by omega)).trans (h.idle h0)

/-! ### Sectors of the log -/

/-- The sector belongs to the bitmap. -/
def OfMap (sb : Superblock) (s : ℕ) : Prop := sb.bitStart ≤ s ∧ s < sb.dataStart
deriving Decidable

/-- The number of sectors of a transaction that has logged `W` and then allocates `n` blocks: each of
them is a sector, and its bit is in a sector of the bitmap. -/
def logCost (sb : Superblock) (W : Finset ℕ) (n : ℕ) : ℕ :=
  (W.filter (¬ OfMap sb ·)).card + n +
    min (sb.dataStart - sb.bitStart) ((W.filter (OfMap sb)).card + n)

theorem card_le_logCost : W.card ≤ logCost sb W n := by
  have hsplit := card_filter_add_card_filter_not (s := W) (OfMap sb)
  have hmap : (W.filter (OfMap sb)).card ≤ sb.dataStart - sb.bitStart := by
    rw [← Nat.card_Ico]
    exact card_le_card fun s hs => mem_Ico.mpr (mem_filter.mp hs).2
  unfold logCost
  omega

theorem logCost_withBlock (hlo : sb.dataStart ≤ b) (hhi : b < sb.logStart) :
    logCost sb (withBlock sb W b) n ≤ logCost sb W (n + 1) := by
  have h1 : ¬ OfMap sb b := fun h => by have := h.2; omega
  have h2 : OfMap sb (BBLOCK b sb.ninodes) := ⟨BBLOCK_ge sb b, BBLOCK_lt (lt_size hhi)⟩
  unfold logCost withBlock
  simp only [filter_insert, h1, h2, not_true_eq_false, not_false_eq_true, if_true, if_false]
  have h3 := card_insert_le b (W.filter (¬ OfMap sb ·))
  have h4 := card_insert_le (BBLOCK b sb.ninodes) (W.filter (OfMap sb))
  omega

/-- The log is large enough for the sector of inode `i` and for blocks in its places `T`. -/
structure Charged (sb : Superblock) (i : ℕ) (T W : Finset ℕ) (B : ℕ) (I : ℕ → Cached)
    (H : ℕ → Block) : Prop where
  mine : IBLOCK i ∈ W
  there : ∀ n ∈ T, ptrs sb (view I H) H i n ≠ 0 → ptrs sb (view I H) H i n ∈ W
  cost : logCost sb W (absent sb (view I H) H i T).card ≤ B

theorem Charged.card_le (h : Charged sb i T W B I H) : W.card ≤ B := card_le_logCost.trans h.cost

/-- There is room for a block at a place that has none. -/
theorem Charged.alloc (h : Charged sb i T W B I H) (hn : n ∈ T) (h0 : ptrs sb (view I H) H i n = 0)
    (hlo : sb.dataStart ≤ b) (hhi : b < sb.logStart) : (withBlock sb W b).card ≤ B := by
  have hpos : 0 < (absent sb (view I H) H i T).card :=
    card_pos.mpr ⟨n, mem_filter.mpr ⟨hn, h0⟩⟩
  obtain ⟨a, ha⟩ := Nat.exists_eq_succ_of_ne_zero hpos.ne'
  have hcost := h.cost
  rw [ha] at hcost
  exact (card_le_logCost.trans (logCost_withBlock hlo hhi)).trans hcost

theorem Charged.grow (h : Charged sb i T W B I H) (hn : n ∈ T) (h0 : ptrs sb (view I H) H i n = 0)
    (hlo : sb.dataStart ≤ b) (hhi : b < sb.logStart) (hnew : ptrs sb (view I' H') H' i n = b)
    (hold : ∀ j k, ¬ (j = i ∧ k = n) → ptrs sb (view I' H') H' j k = ptrs sb (view I H) H j k) :
    Charged sb i T (withBlock sb W b) B I' H' := by
  have hb : b ≠ 0 := by have := dataStart_pos sb; omega
  have hW := subset_withBlock sb W b
  refine ⟨hW h.mine, fun k hk hp => ?_, ?_⟩
  · by_cases e : k = n
    · rw [e, hnew]
      exact mem_insert_self _ _
    · rw [hold i k (by simp [e])] at hp ⊢
      exact hW (h.there k hk hp)
  · refine (logCost_withBlock hlo hhi).trans ?_
    rw [card_absent_grow hn h0 hb hnew hold]
    exact h.cost

theorem Charged.keep (h : Charged sb i T W B I H)
    (hptr : ∀ j k, ptrs sb (view I' H') H' j k = ptrs sb (view I H) H j k) :
    Charged sb i T W B I' H' := by
  have habsent : absent sb (view I' H') H' i T = absent sb (view I H) H i T := by
    unfold absent
    simp only [hptr]
  refine ⟨h.mine, fun n hn hp => ?_, habsent ▸ h.cost⟩
  rw [hptr] at hp ⊢
  exact h.there n hn hp

/-! ### The inode at work -/

/-- Inode `i` is at work: it is used, its copy in memory can be stored, and the free blocks suffice
for its places below `m`, so that `r` blocks are left. -/
structure Working (sb : Superblock) (S : Set ℕ) (i m r : ℕ) (I : ℕ → Cached) (H : ℕ → Block) : Prop where
  tidy : Tidy sb S (view I H) H
  there : (I i).There
  used : Used sb (view I H) i
  fits : (I i).din.Fits
  budget : r + missing sb (view I H) H i m ≤ room sb H

theorem Working.roomy (h : Working sb S i m r I H) : Roomy sb r H :=
  ⟨h.tidy.super, h.tidy.area, h.tidy.low, by have := h.budget; omega⟩

theorem Working.roomy_succ (h : Working sb S i m r I H) (hn : n < m)
    (h0 : ptrs sb (view I H) H i n = 0) : Roomy sb (r + 1) H := by
  have hpos : 0 < missing sb (view I H) H i m :=
    card_pos.mpr ⟨n, mem_filter.mpr ⟨mem_range.mpr hn, h0⟩⟩
  exact ⟨h.tidy.super, h.tidy.area, h.tidy.low, by have := h.budget; omega⟩

theorem Working.addr (h : Working sb S i m r I H) (hn : n ≤ NDIRECT) :
    ptrs sb (view I H) H i n = (I i).din.addrs n := by
  rw [ptrs_used h.used, ptr_direct _ hn, view_there h.there]

/-- The block of another place is not `b`, and stays. -/
theorem Tidy.mark_ptr (h : Tidy sb S ino H) (hlo : sb.dataStart ≤ b) (hhi : b < sb.logStart)
    (hfree : bit sb H b = false) (hp : ptrs sb ino H j n ≠ 0) :
    mark sb H b (ptrs sb ino H j n) = H (ptrs sb ino H j n) :=
  mark_data (h.ptr_area hp).1 (lt_size hhi) (h.owned.ne_of_unmarked hlo hhi hfree j n)

/-- The inode keeps its type and its size when it gets other addresses. -/
theorem view_setAddrs (sb : Superblock) (A : ℕ → ℕ) (hi : (I i).There) (hlow : ∀ s < sb.bitStart, H' s = H s) :
    view (update I i ((I i).setDin ((I i).din.setAddrs A))) H' i = (I i).din.setAddrs A ∧
    (∀ j < sb.inodeEnd, j ≠ i →
      view (update I i ((I i).setDin ((I i).din.setAddrs A))) H' j = view I H j) ∧
    ∀ j < sb.inodeEnd,
      (view (update I i ((I i).setDin ((I i).din.setAddrs A))) H' j).type = (view I H j).type ∧
      (view (update I i ((I i).setDin ((I i).din.setAddrs A))) H' j).size
        = (view I H j).size := by
  have hmine : view (update I i ((I i).setDin ((I i).din.setAddrs A))) H' i
      = (I i).din.setAddrs A := by
    rw [view_there (by rw [update_self]; exact hi), update_self, Cached.setDin_din]
  have hothers : ∀ j < sb.inodeEnd, j ≠ i →
      view (update I i ((I i).setDin ((I i).din.setAddrs A))) H' j = view I H j :=
    fun j hj hne => by rw [view_update_of_ne hne, view_congr hj hlow]
  refine ⟨hmine, hothers, fun j hj => ?_⟩
  by_cases e : j = i
  · rw [e, hmine, view_there hi]
    exact ⟨rfl, rfl⟩
  · rw [hothers j hj e]
    exact ⟨rfl, rfl⟩

theorem Working.grow (h : Working sb S i m r I H) {A : ℕ → ℕ}
    (hI : I' = update I i ((I i).setDin ((I i).din.setAddrs A)))
    (hA : ((I i).din.setAddrs A).Fits) (hlo : sb.dataStart ≤ b) (hhi : b < sb.logStart)
    (hfree : bit sb H b = false) (hn : n < m) (h0 : ptrs sb (view I H) H i n = 0)
    (hnew : ptrs sb (view I' H') H' i n = b)
    (hold : ∀ j k, ¬ (j = i ∧ k = n) → ptrs sb (view I' H') H' j k = ptrs sb (view I H) H j k)
    (hbit : ∀ x < sb.size, bit sb H' x = (bit sb H x || decide (x = b)))
    (hlow : ∀ s < sb.bitStart, H' s = H s) (hdata : ∀ j k, k ≠ NDIRECT → ptrs sb (view I H) H j k ≠ 0 →
      H' (ptrs sb (view I H) H j k) = H (ptrs sb (view I H) H j k)) :
    Working sb S i m r I' H' ∧ Grows sb i m I H I' H' ∧ ∀ T W B, n ∈ T →
      Charged sb i T W B I H → Charged sb i T (withBlock sb W b) B I' H' := by
  have hbpos : b ≠ 0 := by have := dataStart_pos sb; omega
  obtain ⟨-, -, hino⟩ := view_setAddrs sb A h.there hlow
  rw [← hI] at hino
  have hcost := cost_grow hlo hhi hfree h0 hn hbpos hnew hold hbit
  refine ⟨⟨h.tidy.grow hlo hhi hfree h0 hino hnew hold hbit hlow, ?_, ?_, ?_, ?_⟩,
    ⟨⟨A, hI⟩, fun j k hp => hold j k ?_, hdata, fun j k hp => ?_, hlow, hcost,
      fun hz => absurd hz ?_⟩,
    fun T W B hT hc => hc.grow hT h0 hlo hhi hnew hold⟩
  · rw [hI, update_self]
    exact h.there
  · exact ⟨h.used.1, by rw [(hino i h.used.1).1]; exact h.used.2⟩
  · rw [hI, update_self]
    exact hA
  · have := h.budget
    omega
  · rintro ⟨rfl, rfl⟩
    exact hp h0
  · by_cases hjk : j = i ∧ k = n
    · exact .inr ⟨hjk.1, hjk.2 ▸ hn⟩
    · rw [hold j k hjk] at hp
      exact .inl hp
  · exact card_ne_zero.mpr ⟨n, mem_filter.mpr ⟨mem_range.mpr hn, h0⟩⟩

theorem Working.addAddr (h : Working sb S i m r I H) (hn : n ≤ NDIRECT) (hm : n < m)
    (h0 : (I i).din.addrs n = 0) (hlo : sb.dataStart ≤ b) (hhi : b < sb.logStart)
    (hfree : bit sb H b = false) (hI : I' = update I i
      ((I i).setDin ((I i).din.setAddrs (update (I i).din.addrs n b)))) :
    Working sb S i m r I' (mark sb H b) ∧ Grows sb i m I H I' (mark sb H b) ∧
      (∀ T W B, n ∈ T → Charged sb i T W B I H →
        Charged sb i T (withBlock sb W b) B I' (mark sb H b)) ∧
      ptrs sb (view I' (mark sb H b)) (mark sb H b) i n = b := by
  have hT := h.tidy
  have hlow : ∀ s < sb.bitStart, mark sb H b s = H s := fun s hs => mark_low hs hlo
  obtain ⟨hmine, hothers, hino⟩ := view_setAddrs sb (update (I i).din.addrs n b)
    h.there hlow
  rw [← hI] at hmine hothers hino
  have hused : ∀ j, Used sb (view I' (mark sb H b)) j ↔ Used sb (view I H) j :=
    fun j => and_congr_right fun hj => by rw [(hino j hj).1]
  have hnew : ptrs sb (view I' (mark sb H b)) (mark sb H b) i n = b := by
    rw [ptrs_used ((hused i).mpr h.used), ptr_direct _ hn, hmine, Dinode.setAddrs_addrs,
      update_self]
  have hold : ∀ j k, ¬ (j = i ∧ k = n) → ptrs sb (view I' (mark sb H b)) (mark sb H b) j k
      = ptrs sb (view I H) H j k := by
    intro j k hjk
    by_cases hu : Used sb (view I H) j
    · have hind : (view I H j).addrs NDIRECT ≠ 0 →
          mark sb H b ((view I H j).addrs NDIRECT) = H ((view I H j).addrs NDIRECT) := fun hne => by
        rw [← ptrs_indirect (H := H) hu] at hne ⊢
        exact hT.mark_ptr hlo hhi hfree hne
      rw [ptrs_used hu, ptrs_used ((hused j).mpr hu)]
      by_cases e : j = i
      · subst e
        have hk : k ≠ n := fun e => hjk ⟨rfl, e⟩
        rw [view_there h.there] at hind
        rw [hmine, view_there h.there]
        by_cases hk12 : k ≤ NDIRECT
        · rw [ptr_direct _ hk12, ptr_direct _ hk12, Dinode.setAddrs_addrs, update_of_ne hk]
        · unfold Dinode.ptr
          rw [if_neg hk12, if_neg hk12, Dinode.setAddrs_addrs]
          by_cases e12 : n = NDIRECT
          · subst e12
            rw [update_self, mark_self, word_zeroBlock, ite_self]
            exact (if_pos (.inl h0)).symm
          · rw [update_of_ne (Ne.symm e12)]
            by_cases hz : (I j).din.addrs NDIRECT = 0
            · rw [if_pos (.inl hz), if_pos (.inl hz)]
            · rw [hind hz]
      · rw [hothers j hu.1 e]
        exact ptr_congr rfl hind
    · rw [ptrs_unused hu, ptrs_unused (mt (hused j).mp hu)]
  have hfits := h.fits.setAddr hn (lt_trans (lt_size hhi) hT.size_lt)
  obtain ⟨hw, hg, hc⟩ := h.grow hI hfits hlo hhi hfree hm ((h.addr hn).trans h0) hnew hold
    (fun y hy => bit_mark hlo hy) hlow fun j k _ hp => hT.mark_ptr hlo hhi hfree hp
  exact ⟨hw, hg, hc, hnew⟩

theorem Working.addWord {x a : ℕ} (h : Working sb S i m r I H) (hx : x < NINDIRECT)
    (hm : x + (NDIRECT + 1) < m) (ha : (I i).din.addrs NDIRECT = a) (ha0 : a ≠ 0)
    (h0 : word (H a) (4 * x) = 0) (hlo : sb.dataStart ≤ b) (hhi : b < sb.logStart)
    (hfree : bit sb H b = false) (hH : H' = update (mark sb H b) a (setWord (H a) x b)) :
    Working sb S i m r I H' ∧ Grows sb i m I H I H' ∧
      (∀ T W B, x + (NDIRECT + 1) ∈ T → Charged sb i T W B I H →
        Charged sb i T (withBlock sb W b) B I H') ∧
      ptrs sb (view I H') H' i (x + (NDIRECT + 1)) = b := by
  have hT := h.tidy
  have hpa : ptrs sb (view I H) H i NDIRECT = a := (h.addr le_rfl).trans ha
  have harea := hT.ptr_area (hpa ▸ ha0)
  rw [hpa] at harea
  have hne : ∀ {j k}, ptrs sb (view I H) H j k ≠ 0 → ¬ (j = i ∧ k = NDIRECT) →
      H' (ptrs sb (view I H) H j k) = H (ptrs sb (view I H) H j k) := fun {j k} hp hjk => by
    have : ptrs sb (view I H) H j k ≠ a := fun e =>
      hjk (hT.owned.inj j k i NDIRECT hp (e.trans hpa.symm))
    rw [hH, update_of_ne this, hT.mark_ptr hlo hhi hfree hp]
  have hbits : ∀ s < sb.dataStart, H' s = mark sb H b s := fun s hs => by
    rw [hH, update_of_ne (by omega)]
  have hlow : ∀ s < sb.bitStart, H' s = H s := fun s hs => by
    rw [hbits s (lt_trans hs (lt_dataStart sb)), mark_low hs hlo]
  have hothers : ∀ j < sb.inodeEnd, view I H' j = view I H j := fun j hj => view_congr hj hlow
  have hused : ∀ j, Used sb (view I H') j ↔ Used sb (view I H) j :=
    fun j => and_congr_right fun hj => by rw [hothers j hj]
  have haw : ((I i).din.addrs NDIRECT) ≠ 0 := ha ▸ ha0
  have hnew : ptrs sb (view I H') H' i (x + (NDIRECT + 1)) = b := by
    rw [ptrs_used ((hused i).mpr h.used), view_there h.there, ptr_word haw hx, ha, hH,
      update_self, word_setWord _ (lt_trans (lt_size hhi) hT.size_lt)]
  have h0' : ptrs sb (view I H) H i (x + (NDIRECT + 1)) = 0 := by
    rw [ptrs_used h.used, view_there h.there, ptr_word haw hx, ha, h0]
  have hold : ∀ j k, ¬ (j = i ∧ k = x + (NDIRECT + 1)) →
      ptrs sb (view I H') H' j k = ptrs sb (view I H) H j k := by
    intro j k hjk
    by_cases hu : Used sb (view I H) j
    · rw [ptrs_used hu, ptrs_used ((hused j).mpr hu), hothers j hu.1]
      by_cases e : j = i
      · subst e
        rw [view_there h.there]
        have hk : k ≠ x + (NDIRECT + 1) := fun e => hjk ⟨rfl, e⟩
        unfold Dinode.ptr
        rw [ha, hH, update_self]
        by_cases hk12 : k ≤ NDIRECT
        · rw [if_pos hk12, if_pos hk12]
        · rw [if_neg hk12, if_neg hk12, word_setWord_of_ne _ (by omega)]
      · refine ptr_congr rfl fun h0 => ?_
        rw [← ptrs_indirect (H := H) hu] at h0 ⊢
        exact hne h0 fun e' => e e'.1
    · rw [ptrs_unused hu, ptrs_unused (mt (hused j).mp hu)]
  have hI : I = update I i ((I i).setDin ((I i).din.setAddrs (I i).din.addrs)) :=
    (update_eq_self i I).symm
  obtain ⟨hw, hg, hc⟩ := h.grow hI h.fits hlo hhi hfree hm h0' hnew hold
    (fun y hy => (bit_congr (hbits _ (BBLOCK_lt hy))).trans (bit_mark hlo hy)) hlow
    fun j k hk hp => hne hp fun e => hk e.2
  exact ⟨hw, hg, hc, hnew⟩

theorem Working.store (h : Working sb S i m r I H) {a : ℕ} (ha : ptrs sb (view I H) H i n = a)
    (ha0 : a ≠ 0) (hn : n ≠ NDIRECT) {d : Block} (hH : H' = update H a d) :
    Working sb S i m r I H' ∧ (∀ j k, ptrs sb (view I H') H' j k = ptrs sb (view I H) H j k) ∧
      (∀ s < sb.dataStart, H' s = H s) ∧ room sb H' = room sb H := by
  have hT := h.tidy
  have harea := hT.ptr_area (ha ▸ ha0)
  rw [ha] at harea
  have hbits : ∀ s < sb.dataStart, H' s = H s := fun s hs => by
    rw [hH, update_of_ne (by omega)]
  have hlow : ∀ s < sb.bitStart, H' s = H s := fun s hs => hbits s (lt_trans hs (lt_dataStart sb))
  have hothers : ∀ j < sb.inodeEnd, view I H' j = view I H j := fun j hj => view_congr hj hlow
  have hused : ∀ j, Used sb (view I H') j ↔ Used sb (view I H) j :=
    fun j => and_congr_right fun hj => by rw [hothers j hj]
  have hptr : ∀ j k, ptrs sb (view I H') H' j k = ptrs sb (view I H) H j k := by
    intro j k
    by_cases hu : Used sb (view I H) j
    · rw [ptrs_used hu, ptrs_used ((hused j).mpr hu), hothers j hu.1]
      refine ptr_congr rfl fun h0 => ?_
      rw [← ptrs_indirect (H := H) hu] at h0 ⊢
      have : ptrs sb (view I H) H j NDIRECT ≠ a := fun e =>
        hn (hT.owned.inj j NDIRECT i n h0 (e.trans ha.symm)).2.symm
      rw [hH, update_of_ne this]
    · rw [ptrs_unused hu, ptrs_unused (mt (hused j).mp hu)]
  have hbit : ∀ x < sb.size, bit sb H' x = bit sb H x := fun x hx => bit_congr (hbits _ (BBLOCK_lt hx))
  have hroom : room sb H' = room sb H := spare_congr fun x _ hx => hbit x (lt_size hx)
  have hmiss : missing sb (view I H') H' i m = missing sb (view I H) H i m := by
    unfold missing absent
    simp only [hptr]
  refine ⟨⟨⟨?_, hT.area, fun x hx => ?_, ?_, fun j hj k hk => ?_, fun j hj => ?_⟩, h.there,
    (hused i).mpr h.used, h.fits, by rw [hmiss, hroom]; exact h.budget⟩, hptr, hbits, hroom⟩
  · rw [hlow 1 (by have := three_le_bitStart sb; omega), hT.super]
  · rw [hbit x (lt_size (lt_of_lt_of_le hx hT.area)), hT.low x hx]
  · exact hT.owned.congr hptr fun x _ hx => hbit x (lt_size hx)
  · rw [hothers j hj.1] at hk
    rw [hptr]
    exact hT.cover j ((hused j).mp hj) k hk
  · rw [hothers j hj.1]
    exact hT.size j ((hused j).mp hj)

end

end Xv6.Fs
