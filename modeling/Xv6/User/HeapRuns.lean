import Xv6.User.Heap

/-! # Sequences of `malloc` and `free`

`heap_sound`: after any sequence of calls in which each `free` gets a block that `malloc` returned and that
is still in use, whatever the user writes to its blocks in between and wherever `sbrk` finds memory, the
heap is `WellFormed`, and the next call returns. -/

namespace Xv6.Malloc

open Loop Extents Runs Sound List Option

variable {base : ℕ} {s s' : System} {h : Heap} {nodes bs : List ℕ} {b : Live}

/-- What the free list `nodes` and the blocks in use are between two calls. -/
structure WellFormed (base : ℕ) (s : System) (nodes : List ℕ) : Prop where
  /-- The list is circular, and `freep` points into it. -/
  loop : IsLoop s.heap.next nodes
  freep : s.heap.freep ∈ nodes
  /-- The static header is in it, without memory; all others have some. -/
  base_mem : base ∈ nodes
  base_size : s.heap.size base = 0
  free_pos : ∀ f ∈ nodes, f ≠ base → 0 < s.heap.size f
  /-- It is in order of address, and one link leads down. -/
  ordered : nodes.Pairwise (· < ·)
  wrap : ∃! f, f ∈ nodes ∧ s.heap.next f ≤ f
  /-- Between two free blocks there is something else. -/
  free_apart : nodes.Pairwise fun f g => f + HDR * s.heap.size f < g
  /-- The blocks in use do not overlap each other or a free one, and are as large as asked for. -/
  live_apart : s.live.Pairwise fun b c =>
    b.addr + HDR * s.heap.size b.addr ≤ c.addr ∨ c.addr + HDR * s.heap.size c.addr ≤ b.addr
  apart : ∀ b ∈ s.live, ∀ f ∈ nodes, f ≠ base →
    b.addr + HDR * s.heap.size b.addr ≤ f ∨ f + HDR * s.heap.size f ≤ b.addr
  bytes : ∀ b ∈ s.live, b.nbytes + HDR ≤ HDR * s.heap.size b.addr
  /-- Each unit that `sbrk` gave is in one block. -/
  units : ∀ u ∈ s.heap.regions.flatMap (cells HDR),
    ∃! a, a ∈ nodes ++ s.live.map Live.addr ∧ u ∈ cells HDR (a, s.heap.size a)

theorem Sound.existsUnique_wrap (hs : Sound base h nodes bs) : ∃! f, f ∈ nodes ∧ h.next f ≤ f := by
  obtain rfl | ⟨c, z, rfl⟩ := eq_nil_or_concat' nodes
  · cases hs.layout.base_mem
  have hz : z ∈ c ++ [z] := mem_append_right c mem_cons_self
  refine ⟨z, ⟨hz, ?_⟩, ?_⟩
  · rw [hs.next_last]
    exact hs.layout.base_le hz
  · rintro f ⟨hf, hle⟩
    obtain ⟨c', d, hcd⟩ := append_of_mem hf
    cases d with
    | nil => exact (cons.inj (append_inj' hcd rfl).2).1.symm
    | cons g d =>
      rw [hcd] at hs
      have hfg := (pairwise_cons.mp (pairwise_append.mp hs.layout.nodes_lt).2.1).1 g mem_cons_self
      rw [hs.loop.next_eq] at hle
      omega

/-- Between two calls. Before the first one the list is that which `malloc` will set up. -/
structure Inv (base : ℕ) (s : System) : Prop where
  ready : ∃ nodes, Ready base (s.heap.init base) nodes (s.live.map Live.addr)
  bytes : ∀ b ∈ s.live, b.nbytes + HDR ≤ HDR * s.heap.size b.addr
  fresh : s.heap.freep = 0 → s.live = [] ∧ s.heap.regions = []

theorem init_eq (hf : h.freep ≠ 0) : h.init base = h := if_neg hf

namespace Inv

theorem start {hdr : ℕ → Header} {brk : ℕ} (hbrk : base + HDR ≤ brk) (hlt : brk < 2 ^ 32) :
    Inv base (start hdr brk) := by
  have hsize : ((Malloc.start hdr brk).heap.init base).size base = 0 := by
    simp [Malloc.start, Heap.init, Heap.size]
  refine ⟨⟨[base], ⟨⟨?_, ?_⟩, mem_cons_self⟩⟩, fun b hb => (by cases hb), fun _ => ⟨rfl, rfl⟩⟩
  · simp [Malloc.start, Heap.init, Heap.next, IsLoop, Loop.Path]
  · exact {
      base_mem := mem_cons_self
      base_size := hsize
      free_pos := fun a ha hne => absurd (mem_singleton.mp ha) hne
      live_pos := fun a ha => by cases ha
      sorted := pairwise_singleton _ _
      tiles := ⟨by simp [extents, cells, hsize]; rfl, .nil⟩
      bounds := fun u hu => by cases hu
      base_lt := hbrk
      brk_lt := hlt }

theorem wellFormed (hi : Inv base s) (hf : s.heap.freep ≠ 0) : ∃ nodes, WellFormed base s nodes := by
  obtain ⟨nodes, hr⟩ := hi.ready
  rw [init_eq hf] at hr
  have hl := hr.layout
  have hlive : ∀ b ∈ s.live, b.addr ∈ s.live.map Live.addr := fun b hb => mem_map_of_mem hb
  refine ⟨nodes, hr.loop, hr.freep, hl.base_mem, hl.base_size, hl.free_pos, hl.nodes_lt,
    hr.existsUnique_wrap, hl.sorted, ?_, fun b hb f hf hf0 => ?_, hi.bytes, fun u hu => ?_⟩
  · have hpair := pairwise_map.mp (pairwise_append.mp hl.disjoint).2.1
    refine hpair.imp_of_mem fun {b c} hb hc hdis => ?_
    exact hdis (hl.live_pos _ (hlive b hb)) (hl.live_pos _ (hlive c hc))
  · have hne : b.addr ≠ f := fun heq => hl.live_not_free (hlive b hb) (heq ▸ hf)
    have hb0 : b.addr ≠ base := fun heq => hl.base_not_live (heq ▸ hlive b hb)
    exact hl.apart (mem_append_right _ (hlive b hb)) (mem_append_left _ hf) hne hb0 hf0
  · obtain ⟨e, ⟨he, hue⟩, huniq⟩ := hl.tiles.existsUnique (by decide) hu
    obtain ⟨a, ha, rfl⟩ := mem_map.mp he
    refine ⟨a, ⟨ha, hue⟩, ?_⟩
    rintro a' ⟨ha', hua'⟩
    exact congrArg Prod.fst (huniq (a', s.heap.size a') ⟨mem_map_of_mem ha', hua'⟩)

theorem of_ready {live : List Live} (hbase : 0 < base) (hr : Ready base h nodes (live.map Live.addr))
    (hbytes : ∀ b ∈ live, b.nbytes + HDR ≤ HDR * h.size b.addr) : Inv base ⟨h, live⟩ := by
  have hf : h.freep ≠ 0 := by
    have hle := hr.layout.base_le hr.freep
    omega
  refine ⟨⟨nodes, ?_⟩, hbytes, fun h0 => absurd h0 hf⟩
  rw [init_eq hf]
  exact hr

/-- The sizes of the blocks in use are what they were before `malloc` sets up the list. -/
theorem init_size (hi : Inv base s) (hb : b ∈ s.live) :
    (s.heap.init base).size b.addr = s.heap.size b.addr := by
  by_cases hf : s.heap.freep = 0
  · rw [(hi.fresh hf).1] at hb
    cases hb
  · rw [init_eq hf]

theorem freep_ne (hi : Inv base s) (hb : b ∈ s.live) : s.heap.freep ≠ 0 := by
  intro hf
  rw [(hi.fresh hf).1] at hb
  cases hb

theorem malloc (hi : Inv base s) (hbase : 0 < base) {nbytes : ℕ} {answers : List (Option ℕ)}
    (hok : NoWrap s (.malloc nbytes answers)) :
    ∃ s', step base s (.malloc nbytes answers) = some s' ∧ Inv base s' := by
  obtain ⟨nodes, hr⟩ := hi.ready
  obtain ⟨hbytes, hunits⟩ := hok
  have hHDR : HDR = 8 := rfl
  have hroom : nbytes + HDR ≤ HDR * Heap.units nbytes := by
    rw [Heap.units, u32_of_lt hbytes, hHDR]
    omega
  have hpos : 0 < Heap.units nbytes := Nat.succ_pos _
  obtain ⟨r, h', hmalloc, hkept, nodes', hserved⟩ := hr.malloc hbase hpos hunits answers
  have hlive : ∀ b ∈ s.live, b.nbytes + HDR ≤ HDR * h'.size b.addr := by
    intro b hb
    rw [hkept b.addr (mem_map_of_mem hb), hi.init_size hb]
    exact hi.bytes b hb
  have hcall : s.heap.malloc base nbytes answers = some (r, h') := hmalloc
  rw [step, hcall, map_some]
  obtain ⟨rfl, hready⟩ | ⟨a, rfl, hready, hsize⟩ := hserved
  · exact ⟨_, rfl, of_ready hbase hready hlive⟩
  · refine ⟨_, rfl, ?_⟩
    rw [if_neg (by rw [hHDR]; omega), Nat.add_sub_cancel]
    refine of_ready hbase hready ?_
    rintro b (_ | ⟨_, hb⟩)
    · rw [hsize]
      exact hroom
    · exact hlive b hb

theorem free (hi : Inv base s) (hbase : 0 < base) (hb : b ∈ s.live) :
    ∃ h', s.heap.free (b.addr + HDR) = some h' ∧ Inv base ⟨h', s.live.erase b⟩ := by
  obtain ⟨nodes, hr⟩ := hi.ready
  rw [init_eq (hi.freep_ne hb)] at hr
  have hperm : (s.live.map Live.addr).Perm (b.addr :: (s.live.erase b).map Live.addr) :=
    (perm_cons_erase hb).map Live.addr
  have hs : Sound base s.heap nodes (b.addr :: (s.live.erase b).map Live.addr) :=
    ⟨hr.loop, hr.layout.reorder hperm.symm⟩
  have hu : u32 (b.addr + HDR) = b.addr + HDR := by
    have hlt := hs.layout.fin_lt (a := b.addr) (by simp)
    have hpos := hs.layout.live_pos b.addr mem_cons_self
    have hHDR : HDR = 8 := rfl
    rw [hHDR] at hlt ⊢
    exact u32_of_lt (by omega)
  obtain ⟨h', nodes', hfree, hready, hkept, -⟩ := hs.free hr.freep
  refine ⟨h', hu ▸ hfree, of_ready hbase hready fun c hc => ?_⟩
  rw [hkept c.addr (mem_map_of_mem hc)]
  exact hi.bytes c (mem_of_mem_erase hc)

/-- What the user writes to a block is at the place of no header. -/
theorem write (hi : Inv base s) (hbase : 0 < base) (hb : b ∈ s.live) (words : ℕ → Header) :
    Inv base { s with heap := s.heap.write b words } := by
  obtain ⟨nodes, hr⟩ := hi.ready
  rw [init_eq (hi.freep_ne hb)] at hr
  have hb' : b.addr ∈ s.live.map Live.addr := mem_map_of_mem hb
  have hb0 : b.addr ≠ base := fun heq => hr.layout.base_not_live (heq ▸ hb')
  have hhdr : ∀ a ∈ nodes ++ s.live.map Live.addr, (s.heap.write b words).hdr a = s.heap.hdr a := by
    intro a ha
    refine if_neg ?_
    rintro ⟨hlt, hfin⟩
    exact hr.layout.inside_not_mem (mem_append_right nodes hb') hb0 hlt hfin ha
  have hloop : IsLoop (s.heap.write b words).next nodes := by
    refine hr.loop.congr fun a ha => ?_
    rw [Heap.next, hhdr a (mem_append_left _ ha)]
    rfl
  refine of_ready hbase ⟨⟨hloop, ?_⟩, hr.freep⟩ fun c hc => ?_
  · refine hr.layout.congr fun a ha => ?_
    rw [Heap.size, hhdr a ha]
    rfl
  · rw [Heap.size, hhdr c.addr (mem_append_right nodes (mem_map_of_mem hc))]
    exact hi.bytes c hc

theorem step (hbase : 0 < base) (s : System) (e : Event) (s' : System) (hi : Inv base s) (hok : NoWrap s e)
    (hstep : step base s e = some s') : Inv base s' := by
  cases e with
  | malloc nbytes answers =>
    obtain ⟨s1, hs1, hi1⟩ := hi.malloc hbase hok
    rw [hs1] at hstep
    exact some.inj hstep ▸ hi1
  | free ap =>
    rw [Malloc.step] at hstep
    split at hstep
    · cases hstep
    case h_2 b hfind =>
      have haddr : b.addr + HDR = ap := by simpa using find?_some hfind
      obtain ⟨h', hfree, hi'⟩ := hi.free hbase (mem_of_find?_eq_some hfind)
      rw [← haddr, hfree] at hstep
      exact some.inj hstep ▸ hi'
  | write b words =>
    rw [Malloc.step, ite_none_right_eq_some] at hstep
    obtain ⟨hb, heq⟩ := hstep
    exact some.inj heq ▸ hi.write hbase hb words

end Inv

/-- Whatever the calls, the heap is well formed once it is set up, and the next call returns. -/
theorem heap_sound {hdr : ℕ → Header} {brk : ℕ} (hbase : 0 < base) (hbrk : base + HDR ≤ brk)
    (hlt : brk < 2 ^ 32) (hr : Reaches (step base) NoWrap (start hdr brk) s) :
    (s.heap.freep = 0 → s.live = [] ∧ s.heap.regions = []) ∧
    (s.heap.freep ≠ 0 → ∃ nodes, WellFormed base s nodes) ∧
    (∀ nbytes answers, NoWrap s (.malloc nbytes answers) →
      (s.heap.malloc base nbytes answers).isSome) ∧
    ∀ b ∈ s.live, (s.heap.free (b.addr + HDR)).isSome := by
  have hi : Inv base s := hr.invariant (Inv.step hbase) (Inv.start hbrk hlt)
  refine ⟨hi.fresh, hi.wellFormed, fun nbytes answers hok => ?_, fun b hb => ?_⟩
  · obtain ⟨s', hs', -⟩ := hi.malloc hbase hok
    rw [step] at hs'
    exact isSome_map ▸ isSome_of_eq_some hs'
  · obtain ⟨h', hfree, -⟩ := hi.free hbase hb
    exact isSome_of_eq_some hfree

/-- Two blocks of one `sbrk`, the first of them freed. -/
theorem heap_sound_two : ∃ s, Reaches (step 16) NoWrap (start (fun _ => ⟨0, 0⟩) 4096) s ∧
    s.heap.next 4096 = 36832 ∧ s.live = [⟨36808, 10⟩] ∧ ∃ nodes, WellFormed 16 s nodes := by
  obtain ⟨s, hs, htest⟩ := reaches_of_exec (step 16) NoWrap (start (fun _ => ⟨0, 0⟩) 4096)
    [.malloc 20 [some 0], .malloc 10 [], .free 36840]
    (fun s => s.heap.next 4096 = 36832 ∧ s.live = [⟨36808, 10⟩] ∧ s.heap.freep ≠ 0) (by decide +kernel)
  obtain ⟨hnext, hlive, hf⟩ := of_decide_eq_true htest
  exact ⟨s, hs, hnext, hlive, (heap_sound (by decide) (by decide) (by decide) hs).2.1 hf⟩

end Xv6.Malloc
