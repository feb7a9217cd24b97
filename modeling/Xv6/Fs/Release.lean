import Xv6.Fs.Inodes

/-! # Taking an inode

Where an inode of the disk is written, as `ialloc` does, the other inodes keep their contents and the
new one is empty (`Settled.create`). If it had blocks, nothing points to them any more. -/

namespace Xv6.Fs

open Prog Function

section
variable {sb : Superblock} {S : Set ℕ} {H H' : ℕ → Block} {I : ℕ → Cached} {i n : ℕ} {d : Dinode}

theorem nodes_type (hs : Settled sb S I H) (hi : i < sb.inodeEnd) :
    (nodes sb I H i).stat.type = (dinodeAt H i).type := by
  have hv := hs.view_eq hi
  unfold nodes node
  by_cases hu : Used sb (view I H) i
  · rw [if_pos hu, hv]
    rfl
  · rw [if_neg hu, ← hv]
    have h0 : (view I H i).type = 0 := by
      by_contra hne
      exact hu ⟨hi, hne⟩
    rw [h0]
    rfl

/-- A reference more: `iget` and `idup`. -/
def Cached.addRef (x : Cached) : Cached := ⟨x.ref + 1, x.valid && x.ref ≠ 0, x.din⟩

theorem Dinode.ptr_of_addrs {d : Dinode} (h : d.addrs = fun _ => 0) : d.ptr H n = 0 := by
  unfold Dinode.ptr
  simp [h]

/-- An inode of the disk is written, without blocks. -/
theorem Settled.create (hs : Settled sb S I H) (hi : i < sb.inodeEnd) (hd : d.Fits) (htype : d.type ≠ 0) (haddr : d.addrs = fun _ => 0) (hsize : d.size = 0)
    (hH : H' = putInode H i d) (hnot : ¬ (I i).There) :
    Settled sb (S ∪ {b | b ≠ 0 ∧ ∃ n, ptrs sb (view I H) H i n = b}) I H' ∧
      nodes sb I H' = update (nodes sb I H) i ⟨d.stat, fun _ => 0⟩ ∧
      (∀ n, ptrs sb (view I H') H' i n = 0) ∧
      ∀ j n, j ≠ i → ptrs sb (view I H') H' j n = ptrs sb (view I H) H j n := by
  have hmine : view I H' i = d := by
    unfold view
    rw [if_neg hnot, hH]
    exact dinodeAt_put hd
  have hother : ∀ j, j ≠ i → view I H' j = view I H j := fun j hj => by
    unfold view
    rw [hH]
    unfold putInode
    rw [dinodeAt_put_of_ne _ hj]
  have hused : ∀ j, j ≠ i → (Used sb (view I H') j ↔ Used sb (view I H) j) := fun j hj => by
    unfold Used
    rw [hother j hj]
  have hhigh : ∀ s, s = 1 ∨ sb.bitStart ≤ s → H' s = H s := fun s hs => hH ▸ putInode_high hi hs
  have hdata : ∀ {j n}, ptrs sb (view I H) H j n ≠ 0 →
      H' (ptrs sb (view I H) H j n) = H (ptrs sb (view I H) H j n) := fun hp =>
    hhigh _ (.inr ((lt_dataStart sb).le.trans (hs.tidy.ptr_area hp).1))
  have hnone : ∀ n, ptrs sb (view I H') H' i n = 0 := fun n => by
    rw [ptrs_used ⟨hi, by rw [hmine]; exact htype⟩, hmine, Dinode.ptr_of_addrs haddr]
  have hptr : ∀ j n, j ≠ i → ptrs sb (view I H') H' j n = ptrs sb (view I H) H j n := fun j n e => by
    by_cases hu : Used sb (view I H) j
    · rw [ptrs_used hu, ptrs_used ((hused j e).mpr hu), hother j e]
      refine ptr_congr rfl fun h0 => ?_
      rw [← ptrs_indirect (H := H) hu] at h0 ⊢
      exact hdata h0
    · rw [ptrs_unused hu, ptrs_unused (mt (hused j e).mp hu)]
  have hbit : ∀ x, bit sb H' x = bit sb H x := fun x => bit_congr (hhigh _ (.inr (BBLOCK_ge sb x)))
  refine ⟨⟨⟨?_, hs.tidy.area, fun b hb => ?_, ?_, fun j hj n hn => ?_, fun j hj => ?_⟩,
    fun j hj hthere => ?_⟩, funext fun j => ?_, hnone, hptr⟩
  · rw [hhigh 1 (.inl rfl), hs.tidy.super]
  · rw [hbit, hs.tidy.low b hb]
  · exact hs.tidy.owned.drop (dataStart_pos sb) hnone hptr fun b _ _ => hbit b
  · by_cases e : j = i
    · rw [e, hmine, hsize] at hn
      exact absurd (placesOf_zero ▸ hn) (Nat.not_lt_zero n)
    · rw [hother j e] at hn
      rw [hptr j n e]
      exact hs.tidy.cover j ((hused j e).mp hj) n hn
  · by_cases e : j = i
    · rw [e, hmine, hsize]
      exact Nat.zero_le _
    · rw [hother j e]
      exact hs.tidy.size j ((hused j e).mp hj)
  · by_cases e : j = i
    · exact absurd (e ▸ hthere) hnot
    · rw [hH]
      unfold putInode
      rw [dinodeAt_put_of_ne _ e]
      exact hs.synced j hj hthere
  · unfold nodes
    by_cases e : j = i
    · subst e
      rw [update_self, node, if_pos ⟨hi, by rw [hmine]; exact htype⟩, hmine, hsize]
      rfl
    · rw [update_of_ne e, node, node]
      by_cases hu : Used sb (view I H) j
      · rw [if_pos hu, if_pos ((hused j e).mpr hu), hother j e]
        congr 1
        funext o
        by_cases ho : o < (view I H j).size
        · unfold byteAt
          rw [if_pos ho, if_pos ho, hptr j _ e, hdata (hs.tidy.cover j hu _ (place_lt ho))]
        · rw [if_neg ho, if_neg ho]
      · rw [if_neg hu, if_neg (mt (hused j e).mp hu)]

end

end Xv6.Fs
