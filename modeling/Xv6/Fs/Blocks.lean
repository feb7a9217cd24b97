import Xv6.Fs.Crash
import Xv6.Fs.Image
import Xv6.Lib.Refine

/-! # Blocks inside a transaction

The code of a transaction is specified by what the sectors below the log hold (`State.home`) and by the
inode cache: `At sb c k0 W H I k` says that `k` has the sectors `H` and the cache `I`, has come from `k0`
by steps of one transaction that has logged sectors of `W` only, and that all disks on the way recover to
the contents `c` of the last commit. A step that faults was a panic of `log_write`, and has left the
disks so too (`Lost`); with at most `B` sectors to log and a log for more than `B` there is no panic.

On the way the bitmap stays good for `balloc` (`Airy`): the blocks before the data area are marked, and
at least `r` blocks of the data area are free. -/

namespace Xv6.Fs

open Function Finset

/-- What the buffers hold below the log. -/
def State.home (sb : Superblock) (k : State) : ℕ → Block := fun s =>
  if s < sb.logStart then k.buf s else zeroBlock

/-- The bitmap marks what lies before the data area, and leaves `r` blocks of the data area free. -/
structure Roomy (sb : Superblock) (r : ℕ) (H : ℕ → Block) : Prop where
  super : getSuper (H 1) = sb
  area : sb.dataStart ≤ sb.logStart
  low : ∀ b < sb.dataStart, bit sb H b = true
  free : r ≤ room sb H

/-- The state has such a bitmap. -/
def Airy (sb : Superblock) (r : ℕ) (k : State) : Prop := Roomy sb r (k.home sb)

/-- The disks there were since `k0` recover to `c`. -/
def Since (sb : Superblock) (c : ℕ → Block) (k0 k : State) : Prop :=
  ∀ e ∈ k.disks, e ∈ k0.disks ∨ Recovers sb.logStart sb.nlog c e

/-- A state of the transaction that has begun in `k0`. -/
structure At (sb : Superblock) (c : ℕ → Block) (k0 : State) (W : Finset ℕ) (H : ℕ → Block)
    (I : ℕ → Cached) (k : State) : Prop where
  home : k.home sb = H
  inode : k.inode = I
  tab : k.tab = k0.tab
  log : Logged sb.logStart sb.nlog c k
  busy : k.log.busy = k0.log.busy
  since : Since sb c k0 k
  logged : ∀ s ∈ k.log.lh, s ∈ W

/-- A panic of `log_write` in the transaction: inside one, `B` sectors are too many for the log. -/
def Lost (sb : Superblock) (c : ℕ → Block) (k0 : State) (B : ℕ) (msg : String) (k : State) : Prop :=
  Since sb c k0 k ∧ (k0.log.busy = true → msg = "too big a transaction" ∧ min LOGSIZE (sb.nlog - 1) ≤ B)

/-! ### Commands -/

section
variable {p : Slot} {J : State → Prop} {k : State} {E : String → State → Prop} {α : Type}
  {Q : α → State → Prop} {f : Unit → Kern α} {s i : ℕ}

open Prog

@[simp] theorem thru_panic {msg : String} : (panic msg : Kern α).thru (exec p) J Q E k ↔
    J k ∧ E msg k := by
  unfold panic
  rw [thru_op]
  simp [exec]

theorem thru_read {c : Cmd} {r : c.Resp} (h : exec p c k = (.ok r, k)) {f : c.Resp → Kern α} :
    ((.op c .ret : Kern c.Resp) >>= f).thru (exec p) J Q E k ↔ (f r).thru (exec p) J Q E k := by
  rw [op_bind, thru_op, h]
  exact ⟨fun hp => hp.2, fun hp => ⟨thru_start hp, hp⟩⟩

theorem thru_set {c : Cmd} {r : c.Resp} {k' : State} (h : exec p c k = (.ok r, k')) {f : c.Resp → Kern α} :
    ((.op c .ret : Kern c.Resp) >>= f).thru (exec p) J Q E k ↔
      J k ∧ (f r).thru (exec p) J Q E k' := by
  rw [op_bind, thru_op, h]
  exact Iff.rfl

@[simp] theorem thru_bread_bind {f : Block → Kern α} :
    (bread s >>= f).thru (exec p) J Q E k ↔ (f (k.buf s)).thru (exec p) J Q E k := thru_read rfl

@[simp] theorem thru_bword_bind {j : ℕ} {f : ℕ → Kern α} : (bword s j >>= f).thru (exec p) J Q E k ↔
    (f (word (k.buf s) (4 * j))).thru (exec p) J Q E k := thru_read rfl

@[simp] theorem thru_brelse_bind :
    (brelse s >>= f).thru (exec p) J Q E k ↔ (f ()).thru (exec p) J Q E k := thru_read rfl

@[simp] theorem thru_logEntry_bind {f : LogMem → Kern α} :
    (logEntry >>= f).thru (exec p) J Q E k ↔ (f k.log).thru (exec p) J Q E k := thru_read rfl

@[simp] theorem thru_inode_bind {f : Cached → Kern α} :
    (inode i >>= f).thru (exec p) J Q E k ↔ (f (k.inode i)).thru (exec p) J Q E k := thru_read rfl

@[simp] theorem thru_getAddr_bind {j : ℕ} {f : ℕ → Kern α} :
    (getAddr i j >>= f).thru (exec p) J Q E k ↔
      (f ((k.inode i).din.addrs j)).thru (exec p) J Q E k := thru_read rfl

@[simp] theorem thru_bset_bind {d : Block} :
    (bset s d >>= f).thru (exec p) J Q E k ↔
      J k ∧ (f ()).thru (exec p) J Q E (k.setBuf s d) := thru_set rfl

@[simp] theorem thru_bwrite_bind :
    (bwrite s >>= f).thru (exec p) J Q E k ↔ J k ∧ (f ()).thru (exec p) J Q E (k.write s) :=
  thru_set rfl

@[simp] theorem thru_setInode_bind {v : Bool} {d : Dinode} :
    (setInode i v d >>= f).thru (exec p) J Q E k ↔ J k ∧
      (f ()).thru (exec p) J Q E (k.setInode i { k.inode i with valid := v, din := d }) :=
  thru_set rfl

@[simp] theorem thru_brelse {Q : Unit → State → Prop} : (brelse s).thru (exec p) J Q E k ↔ J k ∧ Q () k := by
  unfold brelse
  rw [thru_op]
  exact ⟨fun hp => hp.2, fun hp => ⟨hp.1, hp⟩⟩

@[simp] theorem thru_setLh {l : List ℕ} {Q : Unit → State → Prop} :
    (setLh l).thru (exec p) J Q E k ↔ J k ∧ J (k.setLog { k.log with lh := l }) ∧
      Q () (k.setLog { k.log with lh := l }) := by
  unfold setLh
  rw [thru_op]
  exact Iff.rfl

@[simp] theorem thru_setInode {v : Bool} {d : Dinode} {Q : Unit → State → Prop} :
    (setInode i v d).thru (exec p) J Q E k ↔ J k ∧
      J (k.setInode i { k.inode i with valid := v, din := d }) ∧
      Q () (k.setInode i { k.inode i with valid := v, din := d }) := by
  unfold setInode
  rw [thru_op]
  exact Iff.rfl

end

/-! ### The sectors below the log -/

section
variable {sb : Superblock} {k k0 : State} {s : ℕ} {c H H' : ℕ → Block} {I : ℕ → Cached} {r : ℕ}
  {W W' : Finset ℕ}

theorem home_setBuf (h : s < sb.logStart) (d : Block) :
    (k.setBuf s d).home sb = update (k.home sb) s d := by
  funext t
  by_cases e : t = s
  · subst e
    simp [State.home, h]
  · simp [State.home, e]

theorem home_setBuf_log (h : sb.logStart ≤ s) (d : Block) :
    (k.setBuf s d).home sb = k.home sb := by
  funext t
  unfold State.home
  by_cases ht : t < sb.logStart
  · rw [if_pos ht, if_pos ht, State.setBuf_buf, update_of_ne (by omega)]
  · rw [if_neg ht, if_neg ht]

@[simp] theorem home_setInode (i : ℕ) (x : Cached) : (k.setInode i x).home sb = k.home sb := rfl

section
variable (h : At sb c k0 W H I k)
include h

theorem At.buf (hs : s < sb.logStart) : k.buf s = H s := by
  rw [← h.home]
  exact (if_pos hs).symm

theorem At.airy (hr : Roomy sb r H) : Airy sb r k := by
  unfold Airy
  rw [h.home]
  exact hr

theorem At.setInode (i : ℕ) (x : Cached) : At sb c k0 W H (update I i x) (k.setInode i x) := by
  obtain ⟨h1, h2, h3, ⟨g1, g2, g3, g4, g5, g6, g7, g8⟩, h5, h6, h7⟩ := h
  exact ⟨h1, by rw [State.setInode_inode, h2], h3, ⟨g1, g2, g3, g4, g5, g6, g7, g8⟩, h5, h6, h7⟩

theorem At.mono (hW : W ⊆ W') : At sb c k0 W' H I k :=
  ⟨h.home, h.inode, h.tab, h.log, h.busy, h.since, fun s hs => hW (h.logged s hs)⟩

theorem At.length_le : k.log.lh.length ≤ W.card := by
  rw [← List.toFinset_card_of_nodup h.log.list.nodup]
  exact card_le_card fun s hs => h.logged s (List.mem_toFinset.mp hs)

end

theorem Since.refl (c : ℕ → Block) (k : State) : Since sb c k k := fun _ he => .inl he

theorem At.start (h : Logged sb.logStart sb.nlog c k) :
    At sb c k k.log.lh.toFinset (k.home sb) k.inode k :=
  ⟨rfl, rfl, rfl, h, rfl, .refl c k, fun _ hs => List.mem_toFinset.mpr hs⟩

theorem Roomy.congr (h : Roomy sb r H) (hH : ∀ t, t = 1 ∨ sb.bitStart ≤ t →
    t < sb.dataStart → H' t = H t) : Roomy sb r H' := by
  have h3 := three_le_bitStart sb
  have h4 := lt_dataStart sb
  have hbit : ∀ x < sb.size, bit sb H' x = bit sb H x := fun x hx =>
    bit_congr (hH _ (.inr (BBLOCK_ge sb _)) (BBLOCK_lt hx))
  refine ⟨?_, h.area, fun b hb => ?_, ?_⟩
  · rw [hH 1 (.inl rfl) (by omega), h.super]
  · rw [hbit b (lt_size (lt_of_lt_of_le hb h.area)), h.low b hb]
  · refine h.free.trans (le_of_eq ?_)
    exact (spare_congr fun b _ hb => hbit b (lt_size hb)).symm

theorem Roomy.mono {r' : ℕ} (h : Roomy sb r H) (hr : r' ≤ r) : Roomy sb r' H :=
  ⟨h.super, h.area, h.low, hr.trans h.free⟩

theorem Roomy.size_lt (h : Roomy sb r H) : sb.size < 2 ^ 32 := by
  rw [← h.super]
  exact word_lt _ _

theorem Roomy.mark {b : ℕ} (h : Roomy sb (r + 1) H) (hlo : sb.dataStart ≤ b) (hhi : b < sb.logStart)
    (hb : bit sb H b = false) : Roomy sb r (mark sb H b) := by
  have h3 := three_le_bitStart sb
  have h4 := lt_dataStart sb
  refine ⟨?_, h.area, fun x hx => ?_, ?_⟩
  · rw [mark_low (by omega) hlo, h.super]
  · rw [bit_mark hlo (lt_size (lt_of_lt_of_le hx h.area)), h.low x hx, Bool.true_or]
  · have := room_mark hlo hhi hb
    have := h.free
    omega

end

/-! ### `log_write` -/

section
variable {sb : Superblock} {k k0 : State} {s : ℕ} {c H : ℕ → Block} {I : ℕ → Cached} {r B : ℕ}
  {W : Finset ℕ} {p : Slot}

theorem logWrite_airy {b : Block} (h : At sb c k0 W H I k) (hs : s < sb.logStart)
    (hr : Roomy sb r H) (hr' : Roomy sb r (update H s b)) :
    (logWrite s b).thru (exec p) (Airy sb r) (fun _ _ => True) (fun _ _ => True) k := by
  have hJ := h.airy hr
  have hset : Airy sb r (k.setBuf s b) := by
    unfold Airy
    rw [home_setBuf hs, h.home]
    exact hr'
  have hcopy : ∀ i, Airy sb r ((k.setBuf s b).setBuf (k.log.start + i + 1) b) := fun i => by
    unfold Airy
    rw [home_setBuf_log (by rw [h.log.begins]; omega)]
    exact hset
  unfold logWrite
  simp only [thru_bset_bind, thru_logEntry_bind, Prog.thru_ite, thru_panic, thru_bread_bind,
    thru_bwrite_bind, thru_brelse_bind, thru_setLh, Prog.thru_pure, and_true]
  refine ⟨hJ, fun _ => hset, fun _ => ⟨fun _ => hset, fun _ => ⟨hset, hcopy _, ?_, ?_⟩⟩⟩
  · exact fun _ => ⟨hcopy _, hcopy _⟩
  · exact fun _ => hcopy _

theorem logWrite_thru {b : Block} (h : At sb c k0 W H I k) (hW : s ∈ W) (hB : W.card ≤ B)
    (hs : s < sb.logStart) (hr : Roomy sb r H) (hr' : Roomy sb r (update H s b)) :
    (logWrite s b).thru (exec p) (Airy sb r)
      (fun _ k' => At sb c k0 W (update H s b) I k' ∧ k0.log.busy = true) (Lost sb c k0 B) k := by
  refine (Prog.thru_iff _).mpr ⟨((Prog.thru_iff _).mp (logWrite_airy h hs hr hr')).1, ?_⟩
  have hbound : s < 2 ^ 32 := lt_trans (lt_size hs) hr.size_lt
  refine Prog.wp_mono (logWrite_spec h.log (.inl hs) hbound (E := Lost sb c k0 B) ?_) ?_ ?_
  · intro msg k' hbig hd hp
    refine ⟨fun e he => h.since e ?_, fun hb => ?_⟩
    · unfold State.disks at he ⊢
      rwa [hd, hp] at he
    · obtain ⟨hmsg, hbig⟩ := hbig (h.busy.trans hb)
      exact ⟨hmsg, (hbig.trans h.length_le).trans hB⟩
  · rintro _ k' ⟨h1, h2, h3, h4, ⟨-, h5⟩, h6, h7⟩
    refine ⟨⟨?_, h2.inode.trans h.inode, h2.tab.trans h.tab, h1, h3.trans h.busy, fun e he => ?_,
      fun t ht => ?_⟩, h.busy ▸ h4⟩
    · funext t
      unfold State.home
      by_cases ht : t < sb.logStart
      · rw [if_pos ht, h7 t (.inl ht)]
        by_cases e : t = s
        · rw [e, update_self, update_self]
        · rw [update_of_ne e, update_of_ne e, h.buf ht]
      · have e : t ≠ s := by omega
        rw [if_neg ht, update_of_ne e, ← h.home, State.home, if_neg ht]
    · obtain rfl | he := List.mem_cons.mp (List.mem_reverse.mp he)
      · exact .inr h1.recovers
      · rw [h6] at he
        exact h.since e (List.mem_reverse.mpr he)
    · obtain rfl | ht := h5 t ht
      · exact hW
      · exact h.logged t ht
  · exact fun _ _ he => he

theorem bzero_thru {b : ℕ} (h : At sb c k0 W H I k) (hW : b ∈ W) (hB : W.card ≤ B)
    (hb : b < sb.logStart) (hr : Roomy sb r H) (hr' : Roomy sb r (update H b zeroBlock)) :
    (bzero b).thru (exec p) (Airy sb r)
      (fun _ k' => At sb c k0 W (update H b zeroBlock) I k') (Lost sb c k0 B) k := by
  unfold bzero
  rw [thru_bread_bind]
  refine Prog.thru_seq (logWrite_thru h hW hB hb hr hr') fun _ k' ⟨h', _⟩ => ?_
  rw [thru_brelse]
  exact ⟨h'.airy hr', h'⟩

/-! ### `balloc` and `bfree` -/

/-- What `balloc` logs when it returns block `a`. -/
def withBlock (sb : Superblock) (W : Finset ℕ) (a : ℕ) : Finset ℕ :=
  insert a (insert (BBLOCK a sb.ninodes) W)

theorem subset_withBlock (sb : Superblock) (W : Finset ℕ) (a : ℕ) : W ⊆ withBlock sb W a :=
  (subset_insert _ _).trans (subset_insert _ _)

section
variable (h : At sb c k0 W H I k) (hB : ∀ a, sb.dataStart ≤ a → a < sb.logStart → (withBlock sb W a).card ≤ B) (hr : Roomy sb (r + 1) H)
include h hB hr

/-- The scan of the bitmap: all blocks before `b` are marked, and `x` is not. -/
theorem ballocLoop_thru {n b x : ℕ}
    (hmul : b % BPB = 0) (hbefore : ∀ y < b, bit sb H y = true) (hend : sb.size ≤ b + n * BPB)
    (hx : x < sb.logStart) (hfree : bit sb H x = false) :
    (ballocLoop sb n b).thru (exec p) (Airy sb r) (fun a k' => sb.dataStart ≤ a ∧
      a < sb.logStart ∧ bit sb H a = false ∧ At sb c k0 (withBlock sb W a) (mark sb H a) I k') (Lost sb c k0 B) k := by
  have harea := hr.area
  induction n generalizing b with
  | zero =>
    have := hbefore x (by have := lt_size hx; omega)
    rw [hfree] at this
    exact Bool.noConfusion this
  | succ n ih =>
    have hxb : b ≤ x := by
      by_contra hlt
      rw [hbefore x (by omega)] at hfree
      exact Bool.noConfusion hfree
    have hbb : BBLOCK b sb.ninodes < sb.dataStart := BBLOCK_lt (lt_of_le_of_lt hxb (lt_size hx))
    have hbit : ∀ bi < BPB, bit sb H (b + bi) = getBit (H (BBLOCK b sb.ninodes)) bi := by
      intro bi hbi
      have e1 : BBLOCK (b + bi) sb.ninodes = BBLOCK b sb.ninodes := by
        unfold BPB at hmul hbi
        unfold BBLOCK BPB
        omega
      have e2 : (b + bi) % BPB = bi := by
        unfold BPB at hmul hbi ⊢
        omega
      unfold bit
      rw [e1, e2]
    unfold ballocLoop
    rw [thru_bread_bind, h.buf (lt_of_lt_of_le hbb harea)]
    split
    · rename_i bi hfind
      obtain ⟨hclear, hmem, hset⟩ := List.find?_range_eq_some.mp hfind
      have hbi := List.mem_range.mp hmem
      have hnew : bit sb H (b + bi) = false := by
        rw [hbit bi (by omega)]
        simpa using hclear
      have hlo : sb.dataStart ≤ b + bi := by
        by_contra hlt
        rw [hr.low _ (by omega)] at hnew
        exact Bool.noConfusion hnew
      have hhi : b + bi < sb.logStart := by
        by_contra hge
        have hy := hset (x - b) (by omega)
        rw [← hbit _ (by omega), Nat.add_sub_cancel' hxb, hfree] at hy
        simp at hy
      have hr0 : Roomy sb r H := hr.mono (Nat.le_succ r)
      have e1 : BBLOCK (b + bi) sb.ninodes = BBLOCK b sb.ninodes := by
        unfold BPB at hmul hbi
        unfold BBLOCK BPB
        omega
      have e2 : (b + bi) % BPB = bi := by
        unfold BPB at hmul hbi ⊢
        omega
      have hmark : mark sb H (b + bi) = update (update H (BBLOCK b sb.ninodes)
          (setBit (H (BBLOCK b sb.ninodes)) bi)) (b + bi) zeroBlock := by
        unfold mark
        rw [e1, e2]
      have hr2 := hr.mark hlo hhi hnew
      have hr1 : Roomy sb r (update H (BBLOCK b sb.ninodes)
          (setBit (H (BBLOCK b sb.ninodes)) bi)) := by
        refine hr2.congr fun t _ ht => ?_
        have hne : t ≠ b + bi := by omega
        rw [hmark, update_of_ne hne]
      have hcard := hB _ hlo hhi
      have hmap : BBLOCK b sb.ninodes ∈ withBlock sb W (b + bi) := by
        unfold withBlock
        rw [e1]
        exact mem_insert_of_mem (mem_insert_self _ _)
      refine Prog.thru_seq (logWrite_thru (h.mono (subset_withBlock sb W _)) hmap hcard
        (lt_of_lt_of_le hbb harea) hr0 hr1) fun _ k1 ⟨h₁, _⟩ => ?_
      rw [thru_brelse_bind]
      refine Prog.thru_seq (bzero_thru h₁ (mem_insert_self _ _) hcard hhi hr1 (hmark ▸ hr2))
        fun _ k2 h₂ => ?_
      rw [← hmark] at h₂
      exact ⟨h₂.airy hr2, hlo, hhi, hnew, h₂⟩
    · rename_i hfind
      rw [thru_brelse_bind]
      refine ih (by unfold BPB at hmul ⊢; omega) (fun y hy => ?_) ?_
      · by_cases hyb : y < b
        · exact hbefore y hyb
        · have hyx : y < sb.size := by
            by_contra hge
            have := lt_size hx
            have hset := List.find?_eq_none.mp hfind (x - b) (List.mem_range.mpr (by omega))
            rw [← hbit _ (by omega), Nat.add_sub_cancel' hxb, hfree] at hset
            simp at hset
          have hset := List.find?_eq_none.mp hfind (y - b) (List.mem_range.mpr (by omega))
          rw [← hbit _ (by omega), Nat.add_sub_cancel' (by omega)] at hset
          simpa using hset
      · rw [Nat.succ_mul] at hend
        omega

/-- `balloc` when a block of the data area is free: it returns such a block. -/
theorem balloc_thru :
    balloc.thru (exec p) (Airy sb r) (fun a k' => sb.dataStart ≤ a ∧
      a < sb.logStart ∧ bit sb H a = false ∧ At sb c k0 (withBlock sb W a) (mark sb H a) I k') (Lost sb c k0 B) k := by
  have h3 := three_le_bitStart sb
  have h4 := lt_dataStart sb
  have harea := hr.area
  obtain ⟨x, -, hx, hfree⟩ := exists_of_spare (lt_of_lt_of_le (Nat.succ_pos r) hr.free)
  unfold balloc readsb
  rw [Prog.thru_bind, thru_bread_bind, thru_brelse_bind, Prog.thru_pure, h.buf (by omega), hr.super]
  refine ⟨h.airy (hr.mono (Nat.le_succ r)), ballocLoop_thru h hB hr rfl (by simp) ?_ hx hfree⟩
  unfold BPB
  omega

end

end

end Xv6.Fs
