import Xv6.Lib.Extents
import Xv6.User.Malloc

/-! # Free and live blocks in memory

`Layout base size brk regions nodes bs`: the headers `nodes` of the free list, among them `base`, in order
of address with room between each and the next, and the headers `bs` of the blocks in use, tile what was
obtained from `sbrk`. It says nothing about links, which is why the steps of `free` and `malloc` are few
here: a block changes hands (`Layout.cut`, `Layout.insert`), is split (`Layout.split`), or is joined with
the one behind it (`Layout.join`, `Layout.joinFree`); and `sbrk` adds one (`Layout.more`). -/

namespace Xv6.Malloc

open Extents Function List

/-- The blocks with headers at the addresses `l`. -/
def extents (size : ℕ → ℕ) (l : List ℕ) : List (ℕ × ℕ) := l.map fun a => (a, size a)

theorem extents_cons (size : ℕ → ℕ) (a : ℕ) (l : List ℕ) :
    extents size (a :: l) = (a, size a) :: extents size l := rfl

theorem extents_append (size : ℕ → ℕ) (l m : List ℕ) :
    extents size (l ++ m) = extents size l ++ extents size m := map_append

variable {size' : ℕ → ℕ}

theorem extents_congr {size : ℕ → ℕ} {l : List ℕ} (h : ∀ a ∈ l, size' a = size a) :
    extents size' l = extents size l :=
  map_congr_left fun a ha => by rw [h a ha]

structure Layout (base : ℕ) (size : ℕ → ℕ) (brk : ℕ) (regions : List (ℕ × ℕ)) (nodes bs : List ℕ) : Prop where
  base_mem : base ∈ nodes
  base_size : size base = 0
  free_pos : ∀ a ∈ nodes, a ≠ base → 0 < size a
  live_pos : ∀ a ∈ bs, 0 < size a
  sorted : nodes.Pairwise fun f g => f + HDR * size f < g
  tiles : Tiles HDR (extents size (nodes ++ bs)) regions
  bounds : ∀ u ∈ regions.flatMap (cells HDR), base + HDR ≤ u ∧ u + HDR ≤ brk
  base_lt : base + HDR ≤ brk
  brk_lt : brk < 2 ^ 32

namespace Layout

variable {base brk a b p m n hp nu : ℕ} {size : ℕ → ℕ} {regions : List (ℕ × ℕ)} {nodes bs c d : List ℕ}

/-! ### What follows for the blocks -/

section
variable (h : Layout base size brk regions nodes bs)
include h

theorem pos (ha : a ∈ nodes ++ bs) (hne : a ≠ base) : 0 < size a :=
  (mem_append.mp ha).elim (fun ha => h.free_pos a ha hne) (h.live_pos a)

theorem base_not_live : base ∉ bs :=
  fun hmem => (h.live_pos base hmem).ne' h.base_size

theorem cell_bounds (ha : a ∈ nodes ++ bs) (hm : m < size a) :
    base + HDR ≤ a + HDR * m ∧ a + HDR * m + HDR ≤ brk := by
  have hmem : (a, size a) ∈ extents size (nodes ++ bs) := mem_map_of_mem ha
  exact h.bounds _ (h.tiles.mem hmem (mem_cells.mpr ⟨m, hm, rfl⟩))

theorem block_bounds (ha : a ∈ nodes ++ bs) (hne : a ≠ base) : base + HDR ≤ a ∧ a + HDR * size a ≤ brk := by
  have hpos := h.pos ha hne
  have hfirst := h.cell_bounds ha hpos
  have hlast := h.cell_bounds ha (show size a - 1 < size a by omega)
  have hmul : HDR * size a = HDR * (size a - 1) + HDR := by
    rw [← Nat.mul_succ, Nat.succ_eq_add_one, Nat.sub_add_cancel hpos]
  omega

theorem base_le (ha : a ∈ nodes) : base ≤ a := by
  by_cases hne : a = base
  · exact hne.ge
  · have hle := (h.block_bounds (mem_append_left bs ha) hne).1
    omega

theorem fin_lt (ha : a ∈ nodes ++ bs) : a + HDR * size a < 2 ^ 32 := by
  have hbrk := h.brk_lt
  by_cases hne : a = base
  · have hbase := h.base_lt
    rw [hne, h.base_size]
    omega
  · have hle := (h.block_bounds ha hne).2
    omega

theorem disjoint : (nodes ++ bs).Pairwise fun a b => Disjoint HDR (a, size a) (b, size b) :=
  pairwise_map.mp (h.tiles.disjoint (by decide))

theorem apart (ha : a ∈ nodes ++ bs) (hb : b ∈ nodes ++ bs)
    (hne : a ≠ b) (ha0 : a ≠ base) (hb0 : b ≠ base) :
    a + HDR * size a ≤ b ∨ b + HDR * size b ≤ a := by
  have hdis : Disjoint HDR (a, size a) (b, size b) :=
    (h.tiles.disjoint (by decide)).forall (mem_map_of_mem ha) (mem_map_of_mem hb)
      fun heq => hne (congrArg Prod.fst heq)
  exact hdis (h.pos ha ha0) (h.pos hb hb0)

theorem nodes_lt : nodes.Pairwise (· < ·) :=
  h.sorted.imp fun hlt => (Nat.le_add_right _ _).trans_lt hlt

theorem nodes_nodup : nodes.Nodup :=
  h.nodes_lt.imp Nat.ne_of_lt

end

theorem not_mem_rest (h : Layout base size brk regions (c ++ p :: d) bs) : p ∉ d ++ c := by
  have hnodup := (perm_middle.nodup_iff.mp h.nodes_nodup)
  intro hmem
  exact (nodup_cons.mp hnodup).1 (mem_append.mpr (mem_append.mp hmem).symm)

theorem not_disjoint_self (h : 0 < size p) : ¬ Disjoint HDR (p, size p) (p, size p) := by
  intro hdis
  have hpos : 0 < HDR * size p := Nat.mul_pos (by decide) h
  obtain hle | hle : p + HDR * size p ≤ p ∨ p + HDR * size p ≤ p := hdis h h <;> omega

theorem live_not_free (h : Layout base size brk regions nodes bs) (ha : a ∈ bs) : a ∉ nodes :=
  fun hmem => not_disjoint_self (h.live_pos a ha) ((pairwise_append.mp h.disjoint).2.2 a hmem a ha)

theorem live_not_mem (h : Layout base size brk regions nodes (p :: bs)) : p ∉ nodes ∧ p ∉ bs := by
  refine ⟨h.live_not_free mem_cons_self, fun hmem => ?_⟩
  have hpair := (pairwise_append.mp h.disjoint).2.1
  exact not_disjoint_self (h.live_pos p mem_cons_self) ((pairwise_cons.mp hpair).1 p hmem)

/-- An address inside of a block is that of no block. -/
theorem inside_not_mem (h : Layout base size brk regions nodes bs) (hp : p ∈ nodes ++ bs) (hp0 : p ≠ base)
    (hlt : p < a) (hfin : a < p + HDR * size p) : a ∉ nodes ++ bs := by
  intro hmem
  have hbase := (h.block_bounds hp hp0).1
  have ha0 : a ≠ base := by omega
  have hpos : 0 < HDR * size a := Nat.mul_pos (by decide) (h.pos hmem ha0)
  obtain hle | hle := h.apart hp hmem (by omega) hp0 ha0 <;> omega

theorem length_le (h : Layout base size brk regions nodes bs) : HDR * nodes.length ≤ brk := by
  have hpair : nodes.Pairwise fun f g => f + HDR ≤ g := by
    refine h.sorted.imp_of_mem fun {f g} hf hg hlt => ?_
    by_cases hf0 : f = base
    · have hne : g ≠ base := by omega
      rw [hf0]
      exact (h.block_bounds (mem_append_left bs hg) hne).1
    · have hpos : HDR * 1 ≤ HDR * size f := Nat.mul_le_mul_left HDR (h.free_pos f hf hf0)
      omega
  have hhi : ∀ f ∈ nodes, f + HDR ≤ brk := by
    intro f hf
    by_cases hf0 : f = base
    · exact hf0 ▸ h.base_lt
    · have hpos : HDR * 1 ≤ HDR * size f := Nat.mul_le_mul_left HDR (h.free_pos f hf hf0)
      have hle := (h.block_bounds (mem_append_left bs hf) hf0).2
      omega
  have hcount : ∀ (l : List ℕ) (lo : ℕ), l.Pairwise (fun f g => f + HDR ≤ g) →
      (∀ f ∈ l, lo ≤ f ∧ f + HDR ≤ brk) → l = [] ∨ lo + HDR * l.length ≤ brk := by
    intro l
    induction l with
    | nil => exact fun _ _ _ => .inl rfl
    | cons f l ih =>
      intro lo hl hlo
      obtain ⟨hf, hl⟩ := pairwise_cons.mp hl
      have hf' := hlo f mem_cons_self
      refine .inr ?_
      rw [length_cons, Nat.mul_succ]
      obtain rfl | hle := ih (f + HDR) hl fun g hg =>
        ⟨hf g hg, (hlo g (mem_cons_of_mem f hg)).2⟩
      · rw [length_nil]
        omega
      · omega
  obtain rfl | hle := hcount nodes 0 hpair fun f hf => ⟨Nat.zero_le f, hhi f hf⟩
  · exact Nat.zero_le brk
  · omega

/-! ### The steps -/

theorem replace {bs' : List ℕ} (h : Layout base size brk regions nodes bs)
    (hfree : ∀ a ∈ nodes, size' a = size a) (hpos : ∀ a ∈ bs', 0 < size' a)
    (htiles : Tiles HDR (extents size nodes ++ extents size' bs') regions) :
    Layout base size' brk regions nodes bs' where
  base_mem := h.base_mem
  base_size := (hfree base h.base_mem).trans h.base_size
  free_pos a ha hne := by
    rw [hfree a ha]
    exact h.free_pos a ha hne
  live_pos := hpos
  sorted := by
    refine h.sorted.imp_of_mem fun {f g} hf _ hlt => ?_
    rw [hfree f hf]
    exact hlt
  tiles := by
    rw [extents_append, extents_congr hfree]
    exact htiles
  bounds := h.bounds
  base_lt := h.base_lt
  brk_lt := h.brk_lt

theorem congr (h : Layout base size brk regions nodes bs)
    (heq : ∀ a ∈ nodes ++ bs, size' a = size a) : Layout base size' brk regions nodes bs := by
  have hlive : ∀ a ∈ bs, size' a = size a := fun a ha => heq a (mem_append_right nodes ha)
  refine h.replace (fun a ha => heq a (mem_append_left bs ha)) (fun a ha => ?_) ?_
  · rw [hlive a ha]
    exact h.live_pos a ha
  · rw [extents_congr hlive, ← extents_append]
    exact h.tiles

theorem reorder {bs' : List ℕ} (h : Layout base size brk regions nodes bs) (hp : bs'.Perm bs) :
    Layout base size brk regions nodes bs' :=
  { h with
    live_pos := fun a ha => h.live_pos a (hp.mem_iff.mp ha)
    tiles := h.tiles.reorder ((hp.append_left nodes).map _) }

theorem cut (h : Layout base size brk regions (c ++ p :: d) bs) (hp : p ≠ base) :
    Layout base size brk regions (c ++ d) (p :: bs) where
  base_mem := by
    have hmem := h.base_mem
    simp only [mem_append, mem_cons] at hmem ⊢
    obtain hmem | rfl | hmem := hmem
    · exact .inl hmem
    · exact absurd rfl hp
    · exact .inr hmem
  base_size := h.base_size
  free_pos a ha := h.free_pos a (mem_append.mpr ((mem_append.mp ha).imp_right (mem_cons_of_mem p)))
  live_pos := by
    rintro a (_ | ⟨_, ha⟩)
    · exact h.free_pos p (mem_append_right c mem_cons_self) hp
    · exact h.live_pos a ha
  sorted := h.sorted.sublist ((sublist_cons_self p d).append_left c)
  tiles := by
    refine h.tiles.reorder (List.Perm.map _ ?_)
    simp only [append_assoc, cons_append]
    exact (perm_middle.append_left c)
  bounds := h.bounds
  base_lt := h.base_lt
  brk_lt := h.brk_lt

/-- A block in use is put into the list, with room on both sides. -/
theorem insert (h : Layout base size brk regions (c ++ d) (b :: bs)) (hc : ∀ f ∈ c, f + HDR * size f < b)
    (hd : ∀ g ∈ d, b + HDR * size b < g) : Layout base size brk regions (c ++ b :: d) bs where
  base_mem := ((sublist_cons_self b d).append_left c).subset h.base_mem
  base_size := h.base_size
  free_pos a ha hne := by
    simp only [mem_append, mem_cons] at ha
    obtain ha | rfl | ha := ha
    · exact h.free_pos a (mem_append_left d ha) hne
    · exact h.live_pos a mem_cons_self
    · exact h.free_pos a (mem_append_right c ha) hne
  live_pos a ha := h.live_pos a (mem_cons_of_mem b ha)
  sorted := by
    obtain ⟨hcs, hds, hcd⟩ := pairwise_append.mp h.sorted
    refine pairwise_append.mpr ⟨hcs, pairwise_cons.mpr ⟨hd, hds⟩, ?_⟩
    rintro f hf g (_ | ⟨_, hg⟩)
    · exact hc f hf
    · exact hcd f hf g hg
  tiles := by
    refine h.tiles.reorder (List.Perm.map _ ?_)
    simp only [append_assoc, cons_append]
    exact (perm_middle.symm.append_left c)
  bounds := h.bounds
  base_lt := h.base_lt
  brk_lt := h.brk_lt

theorem update_live {v : ℕ} (h : Layout base size brk regions nodes (p :: bs)) :
    ∀ a ∈ nodes ++ bs, update size p v a = size a := by
  intro a ha
  refine update_of_ne ?_ _ _
  rintro rfl
  exact (mem_append.mp ha).elim h.live_not_mem.1 h.live_not_mem.2

/-- A block in use and the one behind it are made one. -/
theorem join (h : Layout base size brk regions nodes (p :: b :: bs)) (heq : p + HDR * size p = b) :
    Layout base (update size p (size p + size b)) brk regions nodes (p :: bs) := by
  have hsize := h.update_live (v := size p + size b)
  have hbs : ∀ a ∈ bs, update size p (size p + size b) a = size a :=
    fun a ha => hsize a (mem_append_right nodes (mem_cons_of_mem b ha))
  refine h.replace (fun a ha => hsize a (mem_append_left _ ha)) ?_ ?_
  · rintro a (_ | ⟨_, ha⟩)
    · rw [update_self]
      exact Nat.add_pos_left (h.live_pos p mem_cons_self) _
    · rw [hbs a ha]
      exact h.live_pos a (mem_cons_of_mem p (mem_cons_of_mem b ha))
  · have htiles := h.tiles
    rw [extents_append, extents_cons, extents_cons] at htiles
    rw [extents_cons, update_self, extents_congr hbs]
    refine (tiles_split.mpr ?_).reorder perm_middle
    rw [heq]
    exact htiles.reorder (perm_middle.trans (perm_middle.cons _)).symm

theorem split (h : Layout base size brk regions nodes (p :: bs)) (heq : size p = m + n) (hm : 0 < m)
    (hn : 0 < n) : Layout base (update (update size p m) (p + HDR * m) n) brk regions nodes
      (p :: (p + HDR * m) :: bs) := by
  have hpos : 0 < HDR * m := Nat.mul_pos (by decide) hm
  have hlt : HDR * m < HDR * size p := Nat.mul_lt_mul_of_pos_left (by omega) (by decide)
  have hmem : p ∈ nodes ++ p :: bs := mem_append_right nodes mem_cons_self
  have hp0 : p ≠ base := fun heq => h.base_not_live (heq ▸ mem_cons_self)
  have hnot := h.inside_not_mem hmem hp0 (a := p + HDR * m) (by omega) (by omega)
  have hsize : ∀ a ∈ nodes ++ bs,
      update (update size p m) (p + HDR * m) n a = size a := by
    intro a ha
    rw [update_of_ne, h.update_live a ha]
    rintro rfl
    exact hnot ((sublist_cons_self p bs).append_left nodes |>.subset ha)
  have hself : update (update size p m) (p + HDR * m) n p = m := by
    rw [update_of_ne (by omega), update_self]
  refine h.replace (fun a ha => hsize a (mem_append_left _ ha)) ?_ ?_
  · rintro a (_ | ⟨_, _ | ⟨_, ha⟩⟩)
    · rw [hself]
      exact hm
    · rw [update_self]
      exact hn
    · rw [hsize a (mem_append_right nodes ha)]
      exact h.live_pos a (mem_cons_of_mem p ha)
  · have htiles := h.tiles
    rw [extents_append, extents_cons, heq] at htiles
    rw [extents_cons, extents_cons, hself, update_self,
      extents_congr fun a ha => hsize a (mem_append_right nodes ha)]
    exact (tiles_split.mp (htiles.reorder perm_middle.symm)).reorder
      (perm_middle.trans (perm_middle.cons _))

/-- A free block is joined with the block in use behind it. -/
theorem joinFree (h : Layout base size brk regions (c ++ p :: d) (b :: bs)) (hp : p ≠ base)
    (heq : p + HDR * size p = b) (hd : ∀ g ∈ d, b + HDR * size b < g) :
    Layout base (update size p (size p + size b)) brk regions (c ++ p :: d) bs := by
  have hjoin := (h.cut hp).join heq
  refine hjoin.insert (fun f hf => ?_) fun g hg => ?_
  · have hlt := (pairwise_append.mp h.sorted).2.2 f hf p mem_cons_self
    rw [(h.cut hp).update_live f (mem_append_left _ (mem_append_left d hf))]
    exact hlt
  · rw [update_self, Nat.mul_add, ← Nat.add_assoc, heq]
    exact hd g hg

/-- A block in use is joined with the free block behind it. -/
theorem joinLive (h : Layout base size brk regions (c ++ p :: d) (b :: bs)) (hp : p ≠ base)
    (heq : b + HDR * size b = p) :
    Layout base (update size b (size b + size p)) brk regions (c ++ d) (b :: bs) :=
  ((h.cut hp).reorder (.swap p b bs)).join heq

theorem splitFree (h : Layout base size brk regions (c ++ p :: d) bs) (hp : p ≠ base)
    (heq : size p = m + n) (hm : 0 < m) (hn : 0 < n) :
    Layout base (update (update size p m) (p + HDR * m) n) brk regions (c ++ p :: d)
      ((p + HDR * m) :: bs) := by
  have hsplit := (h.cut hp).split heq hm hn
  have hpos : 0 < HDR * m := Nat.mul_pos (by decide) hm
  have hlt : HDR * m < HDR * size p := Nat.mul_lt_mul_of_pos_left (by omega) (by decide)
  obtain ⟨-, hpd, hcp⟩ := pairwise_append.mp h.sorted
  refine hsplit.insert (fun f hf => ?_) fun g hg => ?_
  · have hfp := hcp f hf p mem_cons_self
    rw [update_of_ne (by omega), update_of_ne (by omega)]
    exact hfp
  · have hpg := (pairwise_cons.mp hpd).1 g hg
    rw [update_of_ne (by omega), update_self]
    omega

theorem more (h : Layout base size brk regions nodes bs) (hbrk : brk ≤ hp) (hfin : hp + HDR * nu < 2 ^ 32)
    (hnu : 0 < nu) :
    Layout base (update size hp nu) (hp + HDR * nu) ((hp, nu) :: regions) nodes (hp :: bs) := by
  have hsize : ∀ a ∈ nodes ++ bs, update size hp nu a = size a := by
    intro a ha
    refine update_of_ne ?_ _ _
    rintro rfl
    by_cases ha0 : a = base
    · have hbase := h.base_lt
      have hHDR : 0 < HDR := by decide
      omega
    · have hle := (h.block_bounds ha ha0).2
      have hpos : 0 < HDR * size a := Nat.mul_pos (by decide) (h.pos ha ha0)
      omega
  have hcongr := h.congr hsize
  refine { hcongr with live_pos := ?_, tiles := ?_, bounds := ?_, base_lt := ?_, brk_lt := hfin }
  · rintro a (_ | ⟨_, ha⟩)
    · rw [update_self]
      exact hnu
    · exact hcongr.live_pos a ha
  · have htiles := hcongr.tiles
    rw [extents_append] at htiles ⊢
    rw [extents_cons, update_self]
    exact (htiles.add (fun u hu => (h.bounds u hu).2.trans hbrk) nu).reorder perm_middle
  · intro u hu
    have hbase := h.base_lt
    rw [flatMap_cons] at hu
    obtain hu | hu := mem_append.mp hu
    · obtain ⟨i, hi, rfl⟩ := mem_cells.mp hu
      have hle : HDR * (i + 1) ≤ HDR * nu := Nat.mul_le_mul_left HDR hi
      rw [Nat.mul_add, Nat.mul_one] at hle
      dsimp only
      omega
    · have hu := h.bounds u hu
      omega
  · have hbase := h.base_lt
    omega

end Layout

end Xv6.Malloc
