import Xv6.User.Blocks

/-! # The heap stays sound

`Sound base h nodes bs`: the links of the headers `nodes` form a loop, and with the blocks `bs` in use they
lie in memory as `Layout` says. `free` and `malloc` return and keep that (`Sound.free`, `Sound.malloc`).
The two halves of `free` share one intermediate state: a heap in which the block is still in use, the free
block behind it has been added to it if it touched it, and its link is where that of `p` has to lead
(`Sound.joinUp`). -/

namespace Xv6.Malloc

open Loop Extents Runs Function List Option

variable {base a b p y z m n nu nunits : ℕ} {nodes bs c d l : List ℕ} {h : Heap}

namespace Heap

@[simp] theorem setPtr_next (h : Heap) (p q : ℕ) : (h.setPtr p q).next = update h.next p q := by
  funext a
  by_cases ha : a = p
  · subst ha
    simp [setPtr, next]
  · simp [setPtr, next, ha]

@[simp] theorem setPtr_size (h : Heap) (p q : ℕ) : (h.setPtr p q).size = h.size := by
  funext a
  by_cases ha : a = p
  · subst ha
    simp [setPtr, size]
  · simp [setPtr, size, ha]

@[simp] theorem setSize_next (h : Heap) (p n : ℕ) : (h.setSize p n).next = h.next := by
  funext a
  by_cases ha : a = p
  · subst ha
    simp [setSize, next]
  · simp [setSize, next, ha]

@[simp] theorem setSize_size (h : Heap) (p n : ℕ) : (h.setSize p n).size = update h.size p n := by
  funext a
  by_cases ha : a = p
  · subst ha
    simp [setSize, size]
  · simp [setSize, size, ha]

@[simp] theorem setPtr_brk (h : Heap) (p q : ℕ) : (h.setPtr p q).brk = h.brk := rfl

@[simp] theorem setPtr_regions (h : Heap) (p q : ℕ) : (h.setPtr p q).regions = h.regions := rfl

@[simp] theorem setSize_brk (h : Heap) (p n : ℕ) : (h.setSize p n).brk = h.brk := rfl

@[simp] theorem setSize_regions (h : Heap) (p n : ℕ) : (h.setSize p n).regions = h.regions := rfl

end Heap

theorem u32_of_lt (h : n < 2 ^ 32) : u32 n = n := Nat.mod_eq_of_lt h

structure Sound (base : ℕ) (h : Heap) (nodes bs : List ℕ) : Prop where
  loop : IsLoop h.next nodes
  layout : Layout base h.size h.brk h.regions nodes bs

namespace Sound

theorem fin_eq (hs : Sound base h nodes bs) (ha : a ∈ nodes ++ bs) : h.fin a = a + HDR * h.size a :=
  u32_of_lt (hs.layout.fin_lt ha)

theorem head_eq (hs : Sound base h (y :: l) bs) : y = base := by
  obtain rfl | hmem := mem_cons.mp hs.layout.base_mem
  · rfl
  · have hlt := (pairwise_cons.mp hs.layout.nodes_lt).1 base hmem
    have hle := hs.layout.base_le (a := y) mem_cons_self
    omega

theorem next_last (hs : Sound base h (c ++ [z]) bs) : h.next z = base := by
  cases c with
  | nil =>
    rw [← hs.head_eq]
    exact hs.loop.next_last (l := []) rfl
  | cons y c =>
    rw [← hs.head_eq]
    exact hs.loop.next_last (l := y :: c) rfl

/-! ### `free` -/

/-- The block to be freed lies above the static header. -/
theorem base_lt (hs : Sound base h nodes (b :: bs)) : base < b := by
  have hne : b ≠ base := fun heq => hs.layout.base_not_live (heq ▸ mem_cons_self)
  have hle := (hs.layout.block_bounds (mem_append_right nodes mem_cons_self) hne).1
  omega

/-- The loop of `free` ends at the last header below the block. -/
theorem stops_iff (hs : Sound base h (c ++ z :: d) (b :: bs)) :
    h.stops b z = true ↔ z < b ∧ ∀ g ∈ d, b < g := by
  have hbase := hs.base_lt
  have hle : base ≤ z := hs.layout.base_le (mem_append_right c mem_cons_self)
  have hlt := (pairwise_append.mp hs.layout.nodes_lt).2.1
  cases d with
  | nil =>
    rw [Heap.stops, decide_eq_true_iff, hs.next_last]
    simp only [not_mem_nil, false_implies, implies_true, and_true]
    omega
  | cons y d =>
    obtain ⟨hz, hy⟩ := pairwise_cons.mp hlt
    have hzy := hz y mem_cons_self
    rw [Heap.stops, decide_eq_true_iff, hs.loop.next_eq]
    constructor
    · intro hstop
      refine ⟨by omega, ?_⟩
      rintro g (_ | ⟨_, hg⟩)
      · omega
      · have hyg := (pairwise_cons.mp hy).1 g hg
        omega
    · rintro ⟨hzb, hd⟩
      have hby := hd y mem_cons_self
      omega

end Sound

theorem exists_cut (hl : l.Pairwise (· < ·)) (hb : b ∉ l) (hmem : ∃ x ∈ l, x < b) :
    ∃ c z d, l = c ++ z :: d ∧ z < b ∧ ∀ g ∈ d, b < g := by
  induction l with
  | nil => obtain ⟨x, hx, -⟩ := hmem; cases hx
  | cons x l ih =>
    obtain ⟨hx, hl⟩ := pairwise_cons.mp hl
    by_cases hbelow : ∃ y ∈ l, y < b
    · obtain ⟨c, z, d, rfl, hz⟩ := ih hl (fun hmem => hb (mem_cons_of_mem x hmem)) hbelow
      exact ⟨x :: c, z, d, rfl, hz⟩
    · have habove : ∀ g ∈ l, b < g := by
        intro g hg
        have hle : ¬ g < b := fun hlt => hbelow ⟨g, hg, hlt⟩
        have hne : g ≠ b := fun heq => hb (heq ▸ mem_cons_of_mem x hg)
        omega
      refine ⟨[], x, l, rfl, ?_, habove⟩
      obtain ⟨y, _ | ⟨_, hy⟩, hlt⟩ := hmem
      · exact hlt
      · exact absurd ⟨y, hy, hlt⟩ hbelow

namespace Sound

/-- The search of `free` ends where the block belongs. -/
theorem search (hs : Sound base h nodes (b :: bs)) (hf : h.freep ∈ nodes) :
    ∃ c z d, nodes = c ++ z :: d ∧ walk h.next (h.stops b) (2 ^ 32) h.freep = some z ∧
      z < b ∧ ∀ g ∈ d, b < g := by
  have hbase := hs.base_lt
  obtain ⟨c, z, d, rfl, hz⟩ := exists_cut hs.layout.nodes_lt hs.layout.live_not_mem.1
    ⟨base, hs.layout.base_mem, hbase⟩
  have hlen := (Nat.le_mul_of_pos_left _ (by decide)).trans hs.layout.length_le
  have hbrk := hs.layout.brk_lt
  obtain ⟨z', hz', hwalk, hstop⟩ := hs.loop.walk hf (n := 2 ^ 32) (by omega)
    ⟨z, mem_append_right c mem_cons_self, hs.stops_iff.mpr hz⟩
  obtain ⟨c', d', heq⟩ := append_of_mem hz'
  rw [heq] at hs ⊢
  exact ⟨c', z', d', rfl, hwalk, hs.stops_iff.mp hstop⟩

/-- The block that follows is not below the end of one in use. -/
theorem lt_next (hs : Sound base h (c ++ z :: d) (b :: bs)) (hd : ∀ g ∈ d, b < g)
    (hne : h.fin b ≠ h.next z) : ∀ g ∈ d, b + HDR * h.size b < g := by
  have hb : b ∈ (c ++ z :: d) ++ b :: bs := mem_append_right _ mem_cons_self
  have hbase := hs.base_lt
  cases d with
  | nil => exact fun g hg => absurd hg not_mem_nil
  | cons y d =>
    rw [hs.loop.next_eq, hs.fin_eq hb] at hne
    have hby := hd y mem_cons_self
    have hy : y ∈ (c ++ z :: y :: d) ++ b :: bs := by simp
    have hpos : 0 < HDR * h.size y :=
      Nat.mul_pos (by decide) (hs.layout.pos hy (by omega))
    have hlt : b + HDR * h.size b < y := by
      obtain hle | hle := hs.layout.apart hb hy (by omega) (by omega) (by omega) <;> omega
    have hyd := (pairwise_append.mp hs.layout.nodes_lt).2.1
    rintro g (_ | ⟨_, hg⟩)
    · exact hlt
    · exact hlt.trans ((pairwise_cons.mp (pairwise_cons.mp hyd).2).1 g hg)

/-- `free` up to the first link: the free block behind is now part of `b`, if it touches it, and the link
of `b` is where that of `z` would have to lead. -/
structure Joined (base : ℕ) (h h' : Heap) (c : List ℕ) (z : ℕ) (d : List ℕ) (b : ℕ) (bs : List ℕ) : Prop where
  sound : Sound base (h'.setPtr z (h'.next b)) (c ++ z :: d) (b :: bs)
  room : ∀ g ∈ d, b + HDR * h'.size b < g
  live : ∀ a ∈ bs, h'.size a = h.size a
  grown : h.size b ≤ h'.size b

theorem joinUp_touching (hs : Sound base h (c ++ z :: y :: d) (b :: bs)) (hby : b < y)
    (hfin : h.fin b = y) : Joined base h (h.joinUp b z) c z d b bs := by
  have hb : b ∈ (c ++ z :: y :: d) ++ b :: bs := mem_append_right _ mem_cons_self
  have hy0 : y ≠ base := (hs.base_lt.trans hby).ne'
  have hnext : h.next z = y := hs.loop.next_eq
  have hend := hs.fin_eq hb ▸ hfin
  have hsum : h.size b + h.size y < 2 ^ 32 := by
    have hlt := hs.layout.fin_lt (a := y) (by simp)
    have hHDR : HDR = 8 := rfl
    rw [hHDR] at hend hlt
    omega
  have hup : h.joinUp b z = (h.setSize b (h.size b + h.size y)).setPtr b (h.next y) := by
    rw [Heap.joinUp, hnext, if_pos hfin, u32_of_lt hsum]
  have hcut : Layout base h.size h.brk h.regions ((c ++ [z]) ++ y :: d) (b :: bs) := by
    rw [append_assoc]
    exact hs.layout
  have hlayout := hcut.joinLive hy0 hend
  rw [append_assoc] at hlayout
  have hz : z ∉ d ++ c := fun hmem => hs.layout.not_mem_rest (mem_cons_of_mem y hmem)
  refine ⟨⟨?_, ?_⟩, ?_, ?_, ?_⟩
  · refine (hs.loop.remove hz).congr fun a ha => ?_
    have hab : a ≠ b := fun heq => hlayout.live_not_mem.1 (heq ▸ ha)
    simp only [hup, Heap.setPtr_next, Heap.setSize_next, update_self]
    by_cases haz : a = z
    · rw [haz, update_self, update_self]
    · rw [update_of_ne haz, update_of_ne hab, update_of_ne haz]
  · rw [hup]
    simpa using hlayout
  · intro g hg
    have hyd := (pairwise_append.mp hs.layout.sorted).2.1
    have hyg := (pairwise_cons.mp (pairwise_cons.mp hyd).2).1 g hg
    simp only [hup, Heap.setPtr_size, Heap.setSize_size, update_self]
    rw [Nat.mul_add, ← Nat.add_assoc, hend]
    exact hyg
  · intro a ha
    have hab : a ≠ b := fun heq => hlayout.live_not_mem.2 (heq ▸ ha)
    simp only [hup, Heap.setPtr_size, Heap.setSize_size, update_of_ne hab]
  · simp [hup]

theorem joinUp_apart (hs : Sound base h (c ++ z :: d) (b :: bs)) (hd : ∀ g ∈ d, b < g)
    (hfin : h.fin b ≠ h.next z) : Joined base h (h.joinUp b z) c z d b bs := by
  have hup : h.joinUp b z = h.setPtr b (h.next z) := if_neg hfin
  refine ⟨⟨?_, ?_⟩, ?_, ?_, ?_⟩
  · refine hs.loop.congr fun a ha => ?_
    have hab : a ≠ b := fun heq => hs.layout.live_not_mem.1 (heq ▸ ha)
    simp only [hup, Heap.setPtr_next, update_self]
    by_cases haz : a = z
    · rw [haz, update_self]
    · rw [update_of_ne haz, update_of_ne hab]
  · simpa [hup] using hs.layout
  · simpa [hup] using hs.lt_next hd hfin
  · simp [hup]
  · simp [hup]

theorem joinUp (hs : Sound base h (c ++ z :: d) (b :: bs)) (hd : ∀ g ∈ d, b < g) :
    ∃ d', Joined base h (h.joinUp b z) c z d' b bs := by
  by_cases hfin : h.fin b = h.next z
  · have hb : b ∈ (c ++ z :: d) ++ b :: bs := mem_append_right _ mem_cons_self
    cases d with
    | nil =>
      have hbase := hs.base_lt
      rw [hs.next_last, hs.fin_eq hb] at hfin
      omega
    | cons y d =>
      rw [hs.loop.next_eq] at hfin
      exact ⟨d, hs.joinUp_touching (hd y mem_cons_self) hfin⟩
  · exact ⟨d, hs.joinUp_apart hd hfin⟩

end Sound

namespace Sound.Joined

variable {h' : Heap}

theorem below (hj : Joined base h h' c z d b bs) (hz : z < b) (hfin : h'.fin z ≠ b) :
    ∀ f ∈ c ++ [z], f + HDR * h'.size f < b := by
  have hsize : (h'.setPtr z (h'.next b)).size = h'.size := Heap.setPtr_size _ _ _
  have hl := hsize ▸ hj.sound.layout
  have hbase := hj.sound.base_lt
  have hzm : z ∈ (c ++ z :: d) ++ b :: bs := by simp
  have hbm : b ∈ (c ++ z :: d) ++ b :: bs := by simp
  have hzb : z + HDR * h'.size z < b := by
    rw [show h'.fin z = z + HDR * h'.size z from u32_of_lt (hl.fin_lt hzm)] at hfin
    by_cases hz0 : z = base
    · have h0 := hl.base_size
      rw [hz0, h0]
      exact hbase
    · have hpos : 0 < HDR * h'.size b := Nat.mul_pos (by decide) (hl.live_pos b mem_cons_self)
      obtain hle | hle := hl.apart hzm hbm hz.ne hz0 hbase.ne' <;> omega
  intro f hf
  obtain hf | hf := mem_append.mp hf
  · have hfz := (pairwise_append.mp hl.sorted).2.2 f hf z mem_cons_self
    omega
  · rw [mem_singleton.mp hf]
    exact hzb

theorem joinDown (hj : Joined base h h' c z d b bs) (hz : z < b) :
    ∃ nodes, z ∈ nodes ∧ Sound base (h'.joinDown b z) nodes bs ∧
      (∀ a ∈ bs, (h'.joinDown b z).size a = h.size a) ∧
      ∃ f ∈ nodes, h.size b ≤ (h'.joinDown b z).size f := by
  have hsize : (h'.setPtr z (h'.next b)).size = h'.size := Heap.setPtr_size _ _ _
  have hl := hsize ▸ hj.sound.layout
  have hbase := hj.sound.base_lt
  have hzm : z ∈ (c ++ z :: d) ++ b :: bs := by simp
  have hzf : h'.fin z = z + HDR * h'.size z := u32_of_lt (hl.fin_lt hzm)
  by_cases hfin : h'.fin z = b
  · have hend := hzf ▸ hfin
    have hz0 : z ≠ base := by
      rintro rfl
      rw [hl.base_size] at hend
      omega
    have hsum : h'.size z + h'.size b < 2 ^ 32 := by
      have hlt := hl.fin_lt (a := b) (by simp)
      have hHDR : HDR = 8 := rfl
      rw [hHDR] at hend hlt
      omega
    have hdown : h'.joinDown b z = (h'.setSize z (h'.size z + h'.size b)).setPtr z (h'.next b) := by
      rw [Heap.joinDown, if_pos hfin, u32_of_lt hsum]
    refine ⟨c ++ z :: d, by simp, ⟨?_, ?_⟩, ?_, z, by simp, ?_⟩
    · simpa [hdown] using hj.sound.loop
    · simpa [hdown] using hl.joinFree hz0 hend hj.room
    · intro a ha
      have haz : a ≠ z := by
        rintro rfl
        exact hl.live_not_free (mem_cons_of_mem b ha) (by simp)
      rw [← hj.live a ha]
      simp [hdown, haz]
    · have hgrown := hj.grown
      simp only [hdown, Heap.setPtr_size, Heap.setSize_size, update_self]
      omega
  · have hdown : h'.joinDown b z = h'.setPtr z b := if_neg hfin
    have hlayout : Layout base h'.size h'.brk h'.regions ((c ++ [z]) ++ d) (b :: bs) := by
      rw [append_assoc]
      exact hl
    have hinsert := hlayout.insert (hj.below hz hfin) hj.room
    rw [append_assoc] at hinsert
    refine ⟨c ++ z :: b :: d, by simp, ⟨?_, ?_⟩, ?_, b, by simp, ?_⟩
    · refine (hj.sound.loop.insert hl.not_mem_rest hl.live_not_mem.1).congr fun a ha => ?_
      simp only [hdown, Heap.setPtr_next, update_self]
      by_cases haz : a = z
      · rw [haz, update_self, update_self]
      · rw [update_of_ne haz, update_of_ne haz]
        by_cases hab : a = b
        · rw [hab, update_self]
        · rw [update_of_ne hab, update_of_ne haz]
    · simpa [hdown] using hinsert
    · intro a ha
      rw [hdown, Heap.setPtr_size]
      exact hj.live a ha
    · rw [hdown, Heap.setPtr_size]
      exact hj.grown

end Sound.Joined

namespace Sound

/-- The heap between two calls. -/
structure Ready (base : ℕ) (h : Heap) (nodes bs : List ℕ) : Prop extends Sound base h nodes bs where
  freep : h.freep ∈ nodes

theorem free (hs : Sound base h nodes (b :: bs)) (hf : h.freep ∈ nodes) :
    ∃ h' nodes', h.free (u32 (b + HDR)) = some h' ∧ Ready base h' nodes' bs ∧
      (∀ a ∈ bs, h'.size a = h.size a) ∧ ∃ f ∈ nodes', h.size b ≤ h'.size f := by
  have hlt := hs.layout.fin_lt (a := b) (by simp)
  have hpos := hs.layout.live_pos b mem_cons_self
  have hHDR : HDR = 8 := rfl
  have hbp : u32 (u32 (b + HDR) + 2 ^ 32 - HDR) = b := by
    rw [hHDR] at hlt ⊢
    rw [u32, u32]
    omega
  obtain ⟨c, z, d, rfl, hwalk, hz, hd⟩ := hs.search hf
  obtain ⟨d', hup⟩ := hs.joinUp hd
  obtain ⟨nodes', hmem, hsound, hlive, f, hf, hsize⟩ := hup.joinDown hz
  refine ⟨{ (h.joinUp b z).joinDown b z with freep := z }, nodes', ?_, ⟨⟨hsound.loop, hsound.layout⟩, hmem⟩,
    hlive, f, hf, hsize⟩
  simp only [Heap.free, hbp, hwalk, map_some]

/-! ### `malloc` -/

/-- A header with a block behind another one is its successor in the list. -/
theorem exists_next (hs : Sound base h nodes bs) (hy : y ∈ nodes) (hnext : h.next y = p) (hp : p ≠ base) :
    ∃ c d, nodes = c ++ y :: p :: d := by
  obtain ⟨c, d, rfl⟩ := append_of_mem hy
  cases d with
  | nil => exact absurd (hnext.symm.trans hs.next_last) hp
  | cons q d =>
    have hq : h.next y = q := hs.loop.next_eq
    exact ⟨c, d, by rw [← hq, hnext]⟩

/-- `malloc` takes a block as it is, by the link that leads to it. -/
theorem take_whole (hs : Sound base h (c ++ y :: p :: d) bs) (hp : p ≠ base) :
    Ready base { h.setPtr y (h.next p) with freep := y } (c ++ y :: d) (p :: bs) := by
  have hcut : Layout base h.size h.brk h.regions ((c ++ [y]) ++ p :: d) bs := by
    rw [append_assoc]
    exact hs.layout
  have hlayout := hcut.cut hp
  rw [append_assoc] at hlayout
  have hy : y ∉ d ++ c := fun hmem => hs.layout.not_mem_rest (mem_cons_of_mem p hmem)
  refine ⟨⟨?_, ?_⟩, mem_append_right c mem_cons_self⟩
  · have hloop := hs.loop.remove hy
    rw [← Heap.setPtr_next] at hloop
    exact hloop
  · rw [← Heap.setPtr_size h y (h.next p)] at hlayout
    exact hlayout

theorem take_end (hs : Sound base h (c ++ p :: d) bs) (hp : p ≠ base) (heq : h.size p = m + n) (hm : 0 < m)
    (hn : 0 < n) (hy : y ∈ c ++ p :: d) :
    Ready base { (h.setSize p m).setSize (p + HDR * m) n with freep := y } (c ++ p :: d) ((p + HDR * m) :: bs) := by
  have hlayout := hs.layout.splitFree hp heq hm hn
  refine ⟨⟨?_, ?_⟩, hy⟩
  · have hloop := hs.loop
    rw [← Heap.setSize_next h p m, ← Heap.setSize_next _ (p + HDR * m) n] at hloop
    exact hloop
  · rw [← Heap.setSize_size, ← Heap.setSize_size] at hlayout
    exact hlayout

theorem take (hs : Sound base h nodes bs) (hy : y ∈ nodes) (hnext : h.next y = p) (hn : 0 < nunits)
    (hfit : nunits ≤ h.size p) :
    ∃ a h' nodes', h.take nunits y p = (a + HDR, h') ∧ Ready base h' nodes' (a :: bs) ∧
      h'.size a = nunits ∧ ∀ b ∈ bs, h'.size b = h.size b := by
  have hp : p ≠ base := by
    rintro rfl
    rw [hs.layout.base_size] at hfit
    omega
  obtain ⟨c, d, rfl⟩ := hs.exists_next hy hnext hp
  have hpm : p ∈ (c ++ y :: p :: d) ++ bs := by simp
  have hlt := hs.layout.fin_lt hpm
  have hHDR : HDR = 8 := rfl
  by_cases heq : h.size p = nunits
  · have hu : u32 (p + HDR) = p + HDR := u32_of_lt (by rw [hHDR] at hlt ⊢; omega)
    refine ⟨p, _, _, ?_, hs.take_whole hp, ?_, fun b _ => ?_⟩
    · rw [Heap.take, if_pos heq, hu]
    · exact (congrFun (Heap.setPtr_size h y (h.next p)) p).trans heq
    · exact congrFun (Heap.setPtr_size h y (h.next p)) b
  · obtain ⟨m, hm⟩ := Nat.exists_eq_add_of_le' hfit
    have hcut : (c ++ y :: p :: d) = (c ++ [y]) ++ p :: d := by simp
    rw [hcut] at hs hpm hy
    have hready := hs.take_end hp hm (by omega) hn hy
    have hfin : (h.setSize p (h.size p - nunits)).fin p = p + HDR * m := by
      rw [Heap.fin, Heap.setSize_size, update_self, hm, Nat.add_sub_cancel]
      exact u32_of_lt (by rw [hHDR] at hlt ⊢; omega)
    have hu : u32 (p + HDR * m + HDR) = p + HDR * m + HDR := u32_of_lt (by rw [hHDR] at hlt ⊢; omega)
    refine ⟨p + HDR * m, _, _, ?_, hready, ?_, fun b hb => ?_⟩
    · simp only [Heap.take, if_neg heq, hfin, hu]
      rw [hm, Nat.add_sub_cancel]
    · exact (congrFun (Heap.setSize_size _ _ _) _).trans (update_self _ _ _)
    · have hbp : b ≠ p := by
        rintro rfl
        exact hs.layout.live_not_free hb (by simp)
      have hba : b ≠ p + HDR * m := fun hba => hready.layout.live_not_mem.2 (hba ▸ hb)
      refine (congrFun (Heap.setSize_size _ _ _) b).trans ?_
      rw [update_of_ne hba, Heap.setSize_size, update_of_ne hbp]

/-- The memory that `sbrk` has given, as a block in use. -/
theorem grow (hs : Sound base h nodes bs) {gap k : ℕ} (hk : 0 < k) (hfit : h.brk + gap + k * HDR < 2 ^ 32) :
    Sound base (({ h with
      brk := h.brk + gap + k * HDR
      regions := (h.brk + gap, k * HDR / HDR) :: h.regions } : Heap).setSize (h.brk + gap) k)
      nodes ((h.brk + gap) :: bs) := by
  refine ⟨?_, ?_⟩
  · rw [Heap.setSize_next]
    exact hs.loop
  · rw [Heap.setSize_size, Heap.setSize_brk, Heap.setSize_regions, Nat.mul_div_cancel k (by decide)]
    rw [Nat.mul_comm k HDR] at hfit ⊢
    exact hs.layout.more (Nat.le_add_right _ _) hfit hk

/-- Without an answer of `sbrk` nothing changes; with one, there is a free block of `nu` units. -/
theorem Ready.morecore (hr : Ready base h nodes bs) (hnu : nu * HDR < 2 ^ 32) (answer : Option ℕ) :
    h.morecore nu answer = some (0, h) ∨
      ∃ h' nodes', h.morecore nu answer = some (h'.freep, h') ∧ Ready base h' nodes' bs ∧
        (∀ a ∈ bs, h'.size a = h.size a) ∧ ∃ f ∈ nodes', nu ≤ h'.size f := by
  generalize hk : (if nu < 4096 then 4096 else nu) = k
  have hHDR : HDR = 8 := rfl
  obtain ⟨hpos, hle, hlt⟩ : 0 < k ∧ nu ≤ k ∧ k * HDR < 2 ^ 32 := by
    rw [hHDR] at hnu ⊢
    split at hk <;> omega
  have hu : u32 (k * HDR) = k * HDR := u32_of_lt hlt
  cases answer with
  | none => exact .inl (by simp only [Heap.morecore, Heap.sbrk])
  | some gap =>
    by_cases hfit : h.brk + gap + k * HDR < 2 ^ 32
    · have hgrow := hr.toSound.grow hpos hfit
      obtain ⟨h', nodes', hfree, hready, hlive, f, hf, hsize⟩ := hgrow.free hr.freep
      rw [Heap.setSize_size, update_self] at hsize
      refine .inr ⟨h', nodes', ?_, hready, fun a ha => ?_, f, hf, hle.trans hsize⟩
      · simp only [Heap.morecore, hk, hu, Heap.sbrk, if_pos hfit, hfree, map_some]
      · have hne : a ≠ h.brk + gap := fun heq => hgrow.layout.live_not_mem.2 (heq ▸ ha)
        rw [hlive a ha, Heap.setSize_size, update_of_ne hne]
        rfl
    · refine .inl ?_
      simp only [Heap.morecore, hk, hu, Heap.sbrk, if_neg hfit]

end Sound

/-- What `malloc` does when it is back at `freep`. -/
def refill (nunits n : ℕ) (h : Heap) (answers : List (Option ℕ)) : Option (ℕ × Heap) :=
  match h.morecore nunits (answers.headD none) with
  | none => none
  | some (p, h) => if p = 0 then some (0, h) else Heap.mallocLoop nunits n h p (h.next p) answers.tail

/-- One round of `malloc`, from `y` to `freep`: it takes the first block that fits, or none does. -/
theorem mallocLoop_round (nunits : ℕ) {answers : List (Option ℕ)} (hpath : Loop.Path h.next y l h.freep)
    (hl : h.freep ∉ l) :
    (∃ x ∈ y :: l, nunits ≤ h.size (h.next x) ∧
        Heap.mallocLoop nunits (l.length + 1 + n) h y (h.next y) answers =
          some (h.take nunits x (h.next x))) ∨
      (∀ a ∈ h.freep :: l, h.size a < nunits) ∧
        Heap.mallocLoop nunits (l.length + 1 + n) h y (h.next y) answers = refill nunits n h answers := by
  induction l generalizing y with
  | nil =>
    have hnext : h.next y = h.freep := hpath
    rw [length_nil, Nat.zero_add, Nat.add_comm 1 n, Heap.mallocLoop]
    by_cases hfit : nunits ≤ h.size (h.next y)
    · exact .inl ⟨y, mem_cons_self, hfit, if_pos hfit⟩
    · rw [if_neg hfit, if_pos hnext]
      refine .inr ⟨fun a ha => ?_, rfl⟩
      rw [mem_singleton.mp ha, ← hnext]
      exact Nat.lt_of_not_le hfit
  | cons b l ih =>
    obtain ⟨hnext, hpath⟩ := hpath
    obtain ⟨hb, hl⟩ := not_or.mp (mt mem_cons.mpr hl)
    have hfuel : (b :: l).length + 1 + n = (l.length + 1 + n) + 1 := by
      rw [length_cons]
      omega
    rw [hfuel, Heap.mallocLoop, hnext]
    by_cases hfit : nunits ≤ h.size b
    · exact .inl ⟨y, mem_cons_self, hnext ▸ hfit, by rw [if_pos hfit, hnext]⟩
    · rw [if_neg hfit, if_neg (Ne.symm hb)]
      obtain ⟨x, hx, htake⟩ | ⟨hsmall, hrefill⟩ := ih hpath hl
      · exact .inl ⟨x, mem_cons_of_mem y hx, htake⟩
      · refine .inr ⟨fun a ha => ?_, hrefill⟩
        simp only [mem_cons] at ha hsmall
        obtain rfl | rfl | ha := ha
        · exact hsmall _ (.inl rfl)
        · exact Nat.lt_of_not_le hfit
        · exact hsmall a (.inr ha)

namespace Sound.Ready

theorem exists_path (hr : Ready base h nodes bs) :
    ∃ l, Loop.Path h.next h.freep l h.freep ∧ h.freep ∉ l ∧ l.length + 1 = nodes.length ∧
      ∀ a, a ∈ nodes ↔ a ∈ h.freep :: l := by
  obtain ⟨c, d, hcd⟩ := append_of_mem hr.freep
  obtain ⟨⟨hloop, hlayout⟩, -⟩ := hr
  rw [hcd] at hloop hlayout
  refine ⟨d ++ c, (isLoop_rotate _ _).mp hloop, hlayout.not_mem_rest, ?_, fun a => ?_⟩
  · rw [hcd]
    simp only [length_append, length_cons]
    omega
  · rw [hcd, mem_append, ← cons_append, mem_append, or_comm]

/-- What `malloc` of a request of `nunits` units returns. -/
def Served (base : ℕ) (h h' : Heap) (nunits r : ℕ) (bs : List ℕ) : Prop :=
  (∀ b ∈ bs, h'.size b = h.size b) ∧ ∃ nodes, (r = 0 ∧ Ready base h' nodes bs) ∨
    ∃ a, r = a + HDR ∧ Ready base h' nodes (a :: bs) ∧ h'.size a = nunits

theorem served_of_take (hr : Ready base h nodes bs) (hy : y ∈ nodes) (hn : 0 < nunits)
    (hfit : nunits ≤ h.size (h.next y)) :
    ∃ r h', h.take nunits y (h.next y) = (r, h') ∧ Served base h h' nunits r bs := by
  obtain ⟨a, h', nodes', htake, hready, hsize, hlive⟩ := hr.take hy rfl hn hfit
  exact ⟨_, h', htake, hlive, nodes', .inr ⟨a, rfl, hready, hsize⟩⟩

theorem two_rounds {h' : Heap} {nodes' bs' : List ℕ} (hr : Ready base h nodes bs)
    (hr' : Ready base h' nodes' bs') : nodes.length + nodes'.length ≤ 2 ^ 32 := by
  have hle := hr.layout.length_le
  have hle' := hr'.layout.length_le
  have hbrk := hr.layout.brk_lt
  have hbrk' := hr'.layout.brk_lt
  have hHDR : HDR = 8 := rfl
  rw [hHDR] at hle hle'
  omega

/-- `malloc` returns: if the first round finds nothing and `sbrk` gives memory, the second one does. -/
theorem malloc (hr : Ready base h nodes bs) (hbase : 0 < base) (hn : 0 < nunits)
    (hlt : nunits * HDR < 2 ^ 32) (answers : List (Option ℕ)) :
    ∃ r h', Heap.mallocLoop nunits (2 ^ 32) h h.freep (h.next h.freep) answers = some (r, h') ∧
      Served base h h' nunits r bs := by
  obtain ⟨l, hpath, hl, hlen, hmem⟩ := hr.exists_path
  have hle := hr.two_rounds hr
  obtain ⟨n, hfuel⟩ : ∃ n, 2 ^ 32 = l.length + 1 + n := ⟨2 ^ 32 - (l.length + 1), by omega⟩
  rw [hfuel]
  obtain ⟨x, hx, hfit, hloop⟩ | ⟨-, hloop⟩ := mallocLoop_round nunits hpath hl
  · obtain ⟨r, h', htake, hserved⟩ := hr.served_of_take ((hmem x).mpr hx) hn hfit
    exact ⟨r, h', by rw [hloop, htake], hserved⟩
  · rw [hloop, refill]
    obtain hmore | ⟨h', nodes', hmore, hr', hlive, f, hf, hsize⟩ := hr.morecore hlt (answers.headD none)
    · rw [hmore]
      exact ⟨0, h, rfl, fun _ _ => rfl, nodes, .inl ⟨rfl, hr⟩⟩
    · have hfreep := hr'.layout.base_le hr'.freep
      rw [hmore]
      dsimp only
      rw [if_neg (by omega)]
      obtain ⟨l', hpath', hl', hlen', hmem'⟩ := hr'.exists_path
      have hle' := hr.two_rounds hr'
      obtain ⟨k, rfl⟩ : ∃ k, n = l'.length + 1 + k := ⟨n - (l'.length + 1), by omega⟩
      obtain ⟨x, hx, hfit, hloop⟩ | ⟨hsmall, -⟩ := mallocLoop_round nunits hpath' hl'
      · obtain ⟨r, h'', htake, hkept, hserved⟩ := hr'.served_of_take ((hmem' x).mpr hx) hn hfit
        exact ⟨r, h'', by rw [hloop, htake], fun b hb => (hkept b hb).trans (hlive b hb), hserved⟩
      · exact absurd (hsmall f ((hmem' f).mp hf)) (Nat.not_lt.mpr hsize)

end Sound.Ready

end Xv6.Malloc
