import Xv6.Vm.Build
import Xv6.Vm.Tabled

/-! # `mappages`, page by page

What one round of the loop of `mappages` does to a directory whose pages are apart from the free list
(`Entered`): one entry is made, a table for it is taken from the free list if there is none, and nothing else
changes. In particular the pages that are free or belong to the directory are the same before and after
(`Entered.account`), which is what the results on lost memory rest on. Whatever is mapped, a directory acts
as a map from page numbers to entries (`mappages_refines`). -/

namespace Xv6.Vm

open Fallible Function List

/-- The pages of the free list are different ones, and none of them is mapped. -/
structure Apart (k : Kernel) (d : ℕ) : Prop extends Tabled k d where
  nodup : k.freelist.Nodup
  unused : ∀ m < userPages, Present (k.entry d m) → frame (k.entry d m) ∉ k.freelist

/-- The pages of an address space: the directory, its tables, and the pages mapped in the user half. -/
def InSpace (k : Kernel) (d v : ℕ) : Prop :=
  v = d ∨ (∃ x < 1024, Present (k.mem d x) ∧ frame (k.mem d x) = v) ∨
    ∃ m < userPages, Present (k.entry d m) ∧ frame (k.entry d m) = v

/-- The page is free or belongs to the address space. -/
def Accounted (k : Kernel) (d v : ℕ) : Prop := v ∈ k.freelist ∨ InSpace k d v

/-- The page may be mapped in the directory. -/
structure Usable (k : Kernel) (d v : ℕ) : Prop where
  page : Page v
  dir : v ≠ d
  table : NoTable k d v
  free : v ∉ k.freelist

/-- The pages that a directory grows by are taken from the front of the free list. Those that stay there are
unchanged, and so are those that neither were there nor belong to the directory. -/
structure Takes (k k' : Kernel) (d : ℕ) : Prop where
  suffix : k'.freelist <:+ k.freelist
  rest : ∀ u ∈ k'.freelist, k'.mem u = k.mem u
  noTable : ∀ u ∉ k.freelist, NoTable k d u → NoTable k' d u
  mem : ∀ u ∉ k.freelist, u ≠ d → NoTable k d u → k'.mem u = k.mem u

/-- What one round of the loop of `mappages` leaves when it enters `w` for page number `m`. -/
structure Entered (k k' : Kernel) (d m w : ℕ) : Prop extends Takes k k' d where
  apart : Apart k' d
  entry : ∀ n < allPages, k'.entry d n = if n = m then w else k.entry d n
  tables : ∀ x < 1024, Present (k'.mem d x) ↔ Present (k.mem d x) ∨ x = m / 1024
  length : k'.freelist.length + (if Present (k.pde d m) then 0 else 1) = k.freelist.length
  account : ∀ u, Accounted k' d u ↔ Accounted k d u ∨ m < userPages ∧ Present w ∧ frame w = u

section
variable {k k1 k' : Kernel} {own : ℕ → Role} {d m n v w x perm pa : ℕ} {l : List ℕ}

theorem Takes.refl (k : Kernel) (d : ℕ) : Takes k k d :=
  ⟨suffix_refl _, fun _ _ => rfl, fun _ _ hnt => hnt, fun _ _ _ _ => rfl⟩

theorem Takes.trans (h : Takes k k1 d) (h' : Takes k1 k' d) : Takes k k' d := by
  have hout : ∀ u ∉ k.freelist, u ∉ k1.freelist := fun u hu hin => hu (h.suffix.subset hin)
  refine ⟨h'.suffix.trans h.suffix, fun u hu => ?_,
    fun u hu hnt => h'.noTable u (hout u hu) (h.noTable u hu hnt), fun u hu hud hnt => ?_⟩
  · rw [h'.rest u hu, h.rest u (h'.suffix.subset hu)]
  · rw [h'.mem u (hout u hu) hud (h.noTable u hu hnt), h.mem u hu hud hnt]

theorem Wf.apart (h : Wf k own) (hd : own d = .dir) : Apart k d := by
  refine ⟨h.tabled hd, h.nodup, fun m hm hpr hfree => ?_⟩
  rw [h.free] at hfree
  obtain hown | ⟨key, i, hown⟩ := h.user d m hd hm hpr
  · rw [hown] at hfree
    cases hfree
  · rw [hown] at hfree
    cases hfree

theorem Apart.of_sublist (h : Apart k d) (hl : l.Sublist k.freelist) : Apart { k with freelist := l } d :=
  ⟨⟨h.self, h.apart, fun v hv => h.free v (hl.subset hv), h.user⟩, h.nodup.sublist hl, fun m hm hpr hin =>
    h.unused m hm hpr (hl.subset hin)⟩

theorem noTable_iff : NoTable k d v ↔ ∀ x < 1024, Present (k.mem d x) → frame (k.mem d x) ≠ v := by
  constructor
  · intro h x hx hp
    have hx' : 1024 * x / 1024 % 1024 = x := by omega
    have := h (1024 * x)
    unfold Kernel.pde at this
    rw [hx'] at this
    exact this hp
  · intro h m hp
    exact h _ (Nat.mod_lt _ (by decide)) hp

theorem Apart.not_free (h : Apart k d) (hv : InSpace k d v) : v ∉ k.freelist := by
  intro hfree
  obtain ⟨-, hvd, hvt⟩ := h.free v hfree
  obtain e | ⟨x, hx, hp, e⟩ | ⟨m, hm, hpr, e⟩ := hv
  · exact hvd e
  · exact noTable_iff.mp hvt x hx hp e
  · exact h.unused m hm hpr (e ▸ hfree)

theorem Apart.rooted (h : Apart k d) : Rooted k d := h.toTabled.rooted

/-! ### A new table -/

namespace Rooted

theorem withTable_mem (h : Rooted k d) (hl : k.freelist = v :: l) :
    (∀ y, (k.withTable d x v l).mem d y = if y = x then v2p v ||| (PTE_P ||| PTE_W ||| PTE_U) else k.mem d y) ∧
      (k.withTable d x v l).mem v = (fun _ => 0) ∧
      ∀ u ≠ d, u ≠ v → (k.withTable d x v l).mem u = k.mem u := by
  obtain ⟨-, hvd, -⟩ := h.free v (by rw [hl]; exact mem_cons_self)
  refine ⟨fun y => ?_, ?_, fun u hu huv => ?_⟩
  · rw [Kernel.withTable, Kernel.store_mem, update_self]
    split_ifs with hy
    · rw [hy, update_self]
    · rw [update_of_ne hy, Kernel.setPage_mem, update_of_ne hvd.symm]
  · rw [Kernel.withTable, Kernel.store_mem, update_of_ne hvd]
    exact update_self _ _ _
  · rw [Kernel.withTable, Kernel.store_mem, update_of_ne hu, Kernel.setPage_mem, update_of_ne huv]

theorem withTable_present (h : Rooted k d) (hl : k.freelist = v :: l) (x y : ℕ) :
    Present ((k.withTable d x v l).mem d y) ↔ Present (k.mem d y) ∨ y = x := by
  obtain ⟨hpage, -⟩ := h.free v (by rw [hl]; exact mem_cons_self)
  rw [(h.withTable_mem hl).1]
  split_ifs with hy
  · exact iff_of_true (hpage.present_or (by decide) (by decide)) (.inr hy)
  · exact ⟨.inl, fun hor => hor.resolve_right hy⟩

/-- The tables of the directory are the old ones and the new one. -/
theorem withTable_frame (h : Rooted k d) (hl : k.freelist = v :: l) (x y : ℕ) :
    frame ((k.withTable d x v l).mem d y) = if y = x then v else frame (k.mem d y) := by
  obtain ⟨hpage, -⟩ := h.free v (by rw [hl]; exact mem_cons_self)
  rw [(h.withTable_mem hl).1]
  split_ifs with hy
  · exact hpage.frame_or (by decide)
  · rfl

section
variable (h : Rooted k d) (hl : k.freelist = v :: l) (hx : x < 1024) (hp : ¬ Present (k.mem d x))
include h hl hx hp

theorem withTable_noTable {u : ℕ} : NoTable (k.withTable d x v l) d u ↔ NoTable k d u ∧ u ≠ v := by
  rw [noTable_iff, noTable_iff]
  constructor
  · intro hall
    refine ⟨fun y hy hpy => ?_, ?_⟩
    · have hyx : y ≠ x := by
        rintro rfl
        exact hp hpy
      have hpy' := (h.withTable_present hl x y).mpr (.inl hpy)
      have := hall y hy hpy'
      rwa [h.withTable_frame hl x _, if_neg hyx] at this
    · have hpx := (h.withTable_present hl x x).mpr (.inr rfl)
      have := hall x hx hpx
      rw [h.withTable_frame hl x _, if_pos rfl] at this
      exact this.symm
  · rintro ⟨hall, huv⟩ y hy hpy
    rw [h.withTable_frame hl x _]
    split_ifs with hyx
    · exact huv.symm
    · exact hall y hy (((h.withTable_present hl x y).mp hpy).resolve_right hyx)

omit hx in
theorem withTable_entry (n : ℕ) : (k.withTable d x v l).entry d n = k.entry d n := by
  obtain ⟨-, hvd, hnt⟩ := h.free v (by rw [hl]; exact mem_cons_self)
  obtain ⟨hdir, hnew, hother⟩ := h.withTable_mem (x := x) hl
  by_cases hn : n / 1024 % 1024 = x
  · have hpn : ¬ Present (k.pde d n) := by
      unfold Kernel.pde
      rw [hn]
      exact hp
    have hpn' : Present ((k.withTable d x v l).pde d n) := (h.withTable_present hl x _).mpr (.inr hn)
    have hf : frame ((k.withTable d x v l).pde d n) = v :=
      (h.withTable_frame hl x _).trans (if_pos hn)
    rw [Kernel.entry, Kernel.entry, if_pos hpn', if_neg hpn, hf, hnew]
  · have hpde : (k.withTable d x v l).pde d n = k.pde d n := (hdir _).trans (if_neg hn)
    unfold Kernel.entry
    rw [hpde]
    split_ifs with hpn
    · rw [hother _ (h.self n hpn) (hnt n hpn)]
    · rfl

theorem withTable (hnd : k.freelist.Nodup) : Rooted (k.withTable d x v l) d := by
  rw [hl] at hnd
  obtain ⟨hvl, -⟩ := nodup_cons.mp hnd
  have hv := h.free v (by rw [hl]; exact mem_cons_self)
  have hframe := h.withTable_frame hl x
  refine ⟨(h.withTable_noTable hl hx hp).mpr ⟨h.self, hv.2.1.symm⟩, fun m m' hpm hpm' heq => ?_,
    fun u hu => ?_⟩
  · unfold Kernel.pde at hpm hpm' heq
    rw [hframe, hframe] at heq
    have hold : ∀ {y : ℕ}, y ≠ x → Present ((k.withTable d x v l).mem d y) → Present (k.mem d y) := fun hy hpy =>
      ((h.withTable_present hl x _).mp hpy).resolve_right hy
    split_ifs at heq with h1 h2 h2
    · rw [h1, h2]
    · exact absurd heq.symm (hv.2.2 m' (hold h2 hpm'))
    · exact absurd heq (hv.2.2 m (hold h1 hpm))
    · exact h.apart m m' (hold h1 hpm) (hold h2 hpm') heq
  · obtain ⟨hpage, hne, hnt⟩ := h.free u (by rw [hl]; exact mem_cons_of_mem v hu)
    refine ⟨hpage, hne, (h.withTable_noTable hl hx hp).mpr ⟨hnt, ?_⟩⟩
    rintro rfl
    exact hvl hu

/-- The new table leaves the free list for the address space. -/
theorem withTable_account (u : ℕ) : Accounted (k.withTable d x v l) d u ↔ Accounted k d u := by
  have hpx := (h.withTable_present hl x x).mpr (.inr rfl)
  have hfx := (h.withTable_frame hl x _).trans (if_pos rfl)
  unfold Accounted InSpace
  rw [show (k.withTable d x v l).freelist = l from rfl, hl, mem_cons]
  simp only [h.withTable_entry hl hp]
  constructor
  · rintro (hu | hu | ⟨y, hy, hpy, rfl⟩ | hu)
    · exact .inl (.inr hu)
    · exact .inr (.inl hu)
    · rw [h.withTable_frame hl x _]
      split_ifs with hyx
      · exact .inl (.inl rfl)
      · exact .inr (.inr (.inl ⟨y, hy, ((h.withTable_present hl x y).mp hpy).resolve_right hyx, rfl⟩))
    · exact .inr (.inr (.inr hu))
  · rintro ((rfl | hu) | hu | ⟨y, hy, hpy, rfl⟩ | hu)
    · exact .inr (.inr (.inl ⟨x, hx, hpx, hfx⟩))
    · exact .inl hu
    · exact .inr (.inl hu)
    · have hpy' := (h.withTable_present hl x y).mpr (.inl hpy)
      have hyx : y ≠ x := by
        rintro rfl
        exact hp hpy
      exact .inr (.inr (.inl ⟨y, hy, hpy', (h.withTable_frame hl x _).trans (if_neg hyx)⟩))
    · exact .inr (.inr (.inr hu))

end

end Rooted

theorem Apart.withTable (h : Apart k d) (hl : k.freelist = v :: l) (hx : x < 1024) (hp : ¬ Present (k.mem d x)) :
    Apart (k.withTable d x v l) d := by
  have hr := h.rooted.withTable hl hx hp h.nodup
  have hnd := h.nodup
  rw [hl] at hnd
  refine ⟨⟨hr.self, hr.apart, hr.free, fun m hm hpr => ?_⟩, (nodup_cons.mp hnd).2, fun m hm hpr => ?_⟩
  · rw [h.rooted.withTable_entry hl hp] at hpr ⊢
    obtain ⟨hpage, hne, hnt⟩ := h.user m hm hpr
    refine ⟨hpage, hne, (h.rooted.withTable_noTable hl hx hp).mpr ⟨hnt, fun e => ?_⟩⟩
    exact h.unused m hm hpr (by rw [hl, e]; exact mem_cons_self)
  · rw [h.rooted.withTable_entry hl hp] at hpr ⊢
    intro hin
    exact h.unused m hm hpr (by rw [hl]; exact mem_cons_of_mem v hin)

/-! ### A new entry -/

theorem Apart.setEntry (h : Apart k d) (hm : m < allPages) (hp : Present (k.pde d m)) (hnew : ¬ Present (k.entry d m))
    (hw : m < userPages → Present w → Usable k d (frame w)) :
    Entered k (k.store (frame (k.pde d m)) (m % 1024) w) d m w := by
  have hua := userPages_le
  obtain ⟨hdir, hent⟩ := h.rooted.entry_store hm hp w
  have htab : ∀ x < 1024, Present (k.mem d x) ↔ Present (k.mem d x) ∨ x = m / 1024 := by
    refine fun x _ => ⟨.inl, fun hor => hor.elim id ?_⟩
    rintro rfl
    rwa [← pde_eq_mem hm]
  have hmem : ∀ u, NoTable k d u → (k.store (frame (k.pde d m)) (m % 1024) w).mem u = k.mem u := fun u hnt => by
    rw [Kernel.store_mem, update_of_ne (hnt m hp).symm]
  refine ⟨⟨suffix_refl _, fun u hu => hmem u (h.free u hu).2.2, fun u _ hnt n hpn => ?_, fun u _ _ => hmem u⟩,
    ⟨h.toTabled.edit hdir h.free fun n hn hpr => ?_, h.nodup, fun n hn hpr => ?_⟩, hent, fun x hx => ?_,
    by rw [if_pos hp]; rfl, fun u => ?_⟩
  · rw [pde_congr hdir] at hpn ⊢
    exact hnt n hpn
  · rw [hent n (by omega)] at hpr ⊢
    split_ifs at hpr ⊢ with e
    · obtain ⟨h1, h2, h3, -⟩ := hw (e ▸ hn) hpr
      exact ⟨h1, h2, h3⟩
    · exact h.user n hn hpr
  · rw [hent n (by omega)] at hpr ⊢
    split_ifs at hpr ⊢ with e
    · exact (hw (e ▸ hn) hpr).free
    · exact h.unused n hn hpr
  · rw [hdir]
    exact htab x hx
  · unfold Accounted InSpace
    rw [hdir]
    constructor
    · rintro (hu | hu | hu | ⟨n, hn, hpr, hf⟩)
      · exact .inl (.inl hu)
      · exact .inl (.inr (.inl hu))
      · exact .inl (.inr (.inr (.inl hu)))
      · rw [hent n (by omega)] at hpr hf
        split_ifs at hpr hf with e
        · exact .inr ⟨e ▸ hn, hpr, hf⟩
        · exact .inl (.inr (.inr (.inr ⟨n, hn, hpr, hf⟩)))
    · rintro ((hu | hu | hu | ⟨n, hn, hpr, hf⟩) | ⟨hlt, hpr, hf⟩)
      · exact .inl hu
      · exact .inr (.inl hu)
      · exact .inr (.inr (.inl hu))
      · have hne : n ≠ m := by
          rintro rfl
          exact hnew hpr
        refine .inr (.inr (.inr ⟨n, hn, ?_⟩))
        rw [hent n (by omega), if_neg hne]
        exact ⟨hpr, hf⟩
      · refine .inr (.inr (.inr ⟨m, hlt, ?_⟩))
        rw [hent m hm, if_pos rfl]
        exact ⟨hpr, hf⟩

theorem Page.pte (h : Page v) (hperm : perm < 4096) :
    frame (v2p v ||| (perm ||| PTE_P)) = v ∧ Present (v2p v ||| (perm ||| PTE_P)) := by
  have hflags : perm ||| PTE_P < 4096 := Nat.or_lt_two_pow (n := 12) hperm (by decide)
  refine ⟨h.frame_or hflags, h.present_or hflags ?_⟩
  rw [Nat.or_mod_two_eq_one]
  exact .inr rfl

/-! ### One round -/

/-- The state in which there is a table for page number `m`, if memory is left for one. -/
def Kernel.ensured (k : Kernel) (d m : ℕ) : Kernel :=
  if Present (k.pde d m) then k
  else match k.freelist with
    | [] => k
    | v :: l => k.withTable d (m / 1024 % 1024) v l

theorem pde_and (k : Kernel) (d m : ℕ) : k.mem d (m / 1024 % 1024) &&& PTE_P ≠ 0 ↔ Present (k.pde d m) := present_and _

theorem walkpgdir_true (h : Rooted k d) (hroom : Present (k.pde d m) ∨ k.freelist ≠ []) :
    walkpgdir k d (4096 * m) true = (some (frame ((k.ensured d m).pde d m), m % 1024), k.ensured d m) := by
  have e4 : 4096 * m / 4096 = m := by omega
  unfold walkpgdir Kernel.ensured
  dsimp only
  rw [pdx_eq, ptx_eq, e4]
  by_cases hp : Present (k.pde d m)
  · rw [if_pos ((pde_and k d m).mpr hp), if_pos hp, frame_eq]
    rfl
  · rw [if_neg (mt (pde_and k d m).mp hp), if_neg (by decide), if_neg hp]
    obtain ⟨v, l, hl⟩ := exists_cons_of_ne_nil (hroom.resolve_left hp)
    rw [kalloc_cons hl, hl]
    dsimp only
    have hf : frame ((k.withTable d (m / 1024 % 1024) v l).pde d m) = v :=
      (h.withTable_frame hl _ _).trans (if_pos rfl)
    rw [hf]
    rfl

/-- A table is there, or is taken from the free list. -/
theorem Rooted.ensured (h : Rooted k d) (hnd : k.freelist.Nodup) (hroom : Present (k.pde d m) ∨ k.freelist ≠ []) :
    Rooted (k.ensured d m) d ∧ Present ((k.ensured d m).pde d m) ∧
      (∀ n, (k.ensured d m).entry d n = k.entry d n) ∧ (k.ensured d m).freelist <:+ k.freelist := by
  have hx : m / 1024 % 1024 < 1024 := Nat.mod_lt _ (by decide)
  unfold Kernel.ensured
  split_ifs with hp
  · exact ⟨h, hp, fun _ => rfl, suffix_refl _⟩
  · obtain ⟨v, l, hl⟩ := exists_cons_of_ne_nil (hroom.resolve_left hp)
    rw [hl]
    exact ⟨h.withTable hl hx hp hnd, (h.withTable_present hl _ _).mpr (.inr rfl), h.withTable_entry hl hp,
      suffix_cons _ _⟩

/-- The address space and the free list with the table. -/
theorem Apart.ensured (h : Apart k d) (hroom : Present (k.pde d m) ∨ k.freelist ≠ []) :
    Apart (k.ensured d m) d ∧
      (∀ x, Present ((k.ensured d m).mem d x) ↔ Present (k.mem d x) ∨ x = m / 1024 % 1024) ∧
      (k.ensured d m).freelist.length + (if Present (k.pde d m) then 0 else 1) = k.freelist.length ∧
      (∀ u, Accounted (k.ensured d m) d u ↔ Accounted k d u) ∧ Takes k (k.ensured d m) d := by
  have hx : m / 1024 % 1024 < 1024 := Nat.mod_lt _ (by decide)
  have ht := h.rooted
  unfold Kernel.ensured
  by_cases hp : Present (k.pde d m)
  · rw [if_pos hp, if_pos hp]
    refine ⟨h, fun x => ⟨.inl, fun hor => hor.elim id ?_⟩, rfl, fun _ => Iff.rfl, .refl k d⟩
    rintro rfl
    exact hp
  · rw [if_neg hp, if_neg hp]
    obtain ⟨v, l, hl⟩ := exists_cons_of_ne_nil (hroom.resolve_left hp)
    have hnd := h.nodup
    rw [hl] at hnd ⊢
    dsimp only
    have hmem := (ht.withTable_mem (x := m / 1024 % 1024) hl).2.2
    have hfree : ∀ u ∈ l, u ≠ d := fun u hu => (ht.free u (by rw [hl]; exact mem_cons_of_mem v hu)).2.1
    have hout : ∀ u ∉ k.freelist, u ≠ v := fun u hu e => hu (by rw [hl, e]; exact mem_cons_self)
    exact ⟨h.withTable hl hx hp, ht.withTable_present hl _, rfl, ht.withTable_account hl hx hp,
      by rw [hl]; exact suffix_cons v l, fun u hu => hmem u (hfree u hu) fun e => (nodup_cons.mp hnd).1 (e ▸ hu),
      fun u hu hnt => (ht.withTable_noTable hl hx hp).mpr ⟨hnt, hout u hu⟩, fun u hu hud _ => hmem u hud (hout u hu)⟩

theorem mapLoop_enter (perm pa : ℕ) (h : Rooted k d) (hnd : k.freelist.Nodup) (hnew : ¬ Present (k.entry d m))
    (hroom : Present (k.pde d m) ∨ k.freelist ≠ []) :
    mapLoop d perm (n + 1) (4096 * m) pa k =
      mapLoop d perm n (u32 (4096 * m + PGSIZE)) (u32 (pa + PGSIZE))
        ((k.ensured d m).store (frame ((k.ensured d m).pde d m)) (m % 1024) (pa ||| (perm ||| PTE_P))) := by
  obtain ⟨-, hp, he, -⟩ := h.ensured hnd hroom
  rw [← he] at hnew
  rw [mapLoop, walkpgdir_true h hroom]
  dsimp only
  rw [← entry_of_present hp, if_neg (mt (present_and _).mp hnew)]

/-- **One round of the loop of `mappages`.** -/
theorem mapLoop_round (perm pa : ℕ) (h : Apart k d) (hm : m < allPages) (hnew : ¬ Present (k.entry d m))
    (hroom : Present (k.pde d m) ∨ k.freelist ≠ [])
    (hw : m < userPages → Usable k d (frame (pa ||| (perm ||| PTE_P)))) :
    ∃ k', Entered k k' d m (pa ||| (perm ||| PTE_P)) ∧
      mapLoop d perm (n + 1) (4096 * m) pa k =
        mapLoop d perm n (u32 (4096 * m + PGSIZE)) (u32 (pa + PGSIZE)) k' := by
  obtain ⟨-, hp1, he1, -⟩ := h.rooted.ensured h.nodup hroom
  obtain ⟨h1, ht1, hlen1, hacc1, htake⟩ := h.ensured hroom
  have hnew1 : ¬ Present ((k.ensured d m).entry d m) := by
    rw [he1]
    exact hnew
  obtain ⟨hset, h2, he2, ht2, hlen2, hacc2⟩ := h1.setEntry (w := pa ||| (perm ||| PTE_P)) hm hp1 hnew1
    fun hlt _ => by
      obtain ⟨u1, u2, u3, u4⟩ := hw hlt
      exact ⟨u1, u2, htake.noTable _ u4 u3, fun hin => u4 (htake.suffix.subset hin)⟩
  have hdiv : m / 1024 % 1024 = m / 1024 := by
    unfold allPages at hm
    omega
  refine ⟨_, ⟨htake.trans hset, h2, fun n hn => ?_, fun x hx => ?_, ?_, fun u => ?_⟩,
    mapLoop_enter perm pa h.rooted h.nodup hnew hroom⟩
  · rw [he2 n hn, he1]
  · rw [ht2 x hx, ht1, hdiv]
    tauto
  · rw [if_pos hp1] at hlen2
    omega
  · rw [hacc2, hacc1]

theorem mapLoop_full (hp : ¬ Present (k.pde d m)) (hl : k.freelist = []) :
    mapLoop d perm (n + 1) (4096 * m) pa k = .ok (false, k) := by
  have e4 : 4096 * m / 4096 = m := by omega
  rw [mapLoop]
  unfold walkpgdir
  dsimp only
  rw [pdx_eq, e4, if_neg (mt (pde_and k d m).mp hp), if_neg (by decide), kalloc_nil hl]

theorem mapLoop_remap (hpr : Present (k.entry d m)) :
    mapLoop d perm (n + 1) (4096 * m) pa k = .error (.panic "remap") := by
  have e4 : 4096 * m / 4096 = m := by omega
  have hp := pde_of_entry hpr
  rw [mapLoop]
  unfold walkpgdir
  dsimp only
  rw [pdx_eq, ptx_eq, e4, if_pos ((pde_and k d m).mpr hp), frame_eq]
  dsimp only
  rw [show k.mem (frame (k.mem d (m / 1024 % 1024))) (m % 1024) = k.entry d m from (entry_of_present hp).symm,
    if_pos ((present_and _).mpr hpr)]

/-! ### A page from the free list -/

theorem Apart.take (h : Apart k d) (hl : k.freelist = v :: l) (f : ℕ → ℕ) :
    let k1 := ({ k with freelist := l } : Kernel).setPage v f
    Apart k1 d ∧ Usable k1 d v ∧ k1.mem d = k.mem d ∧ (∀ n, k1.entry d n = k.entry d n) ∧
      (∀ u, Accounted k d u ↔ Accounted k1 d u ∨ u = v) ∧ Takes k k1 d := by
  intro k1
  have hnd := h.nodup
  rw [hl] at hnd
  obtain ⟨hvl, hndl⟩ := nodup_cons.mp hnd
  obtain ⟨hpage, hvd, hvt⟩ := h.free v (by rw [hl]; exact mem_cons_self)
  obtain ⟨hdir, hent⟩ := entry_setPage (k := ({ k with freelist := l } : Kernel)) hvd hvt f
  have hent : ∀ n, k1.entry d n = k.entry d n := hent
  have hdir : k1.mem d = k.mem d := hdir
  have hnt : ∀ {u}, NoTable k1 d u ↔ NoTable k d u := by
    unfold NoTable
    simp only [pde_congr hdir, implies_true]
  have hfree : ∀ u ∈ l, u ∈ k.freelist := fun u hu => by
    rw [hl]
    exact mem_cons_of_mem v hu
  have hmem : ∀ u ≠ v, k1.mem u = k.mem u := fun u hu => update_of_ne hu _ _
  refine ⟨⟨h.toTabled.edit hdir (fun u hu => h.free u (hfree u hu)) fun n hn hpr => ?_, hndl, fun n hn hpr hin => ?_⟩,
    ⟨hpage, hvd, hnt.mpr hvt, hvl⟩, hdir, hent, fun u => ?_, by rw [hl]; exact suffix_cons v l,
    fun u hu => hmem u fun e => hvl (e ▸ hu), fun u _ => hnt.mpr, fun u hu _ _ => hmem u fun e => ?_⟩
  · rw [hent] at hpr ⊢
    exact h.user n hn hpr
  · rw [hent] at hpr hin
    exact h.unused n hn hpr (hfree _ hin)
  · have hin : InSpace k1 d u ↔ InSpace k d u := by
      unfold InSpace
      rw [hdir]
      simp only [hent]
    unfold Accounted
    rw [hin, hl, mem_cons, or_assoc, or_comm]
    rfl
  · exact hu (by rw [hl, e]; exact mem_cons_self)

/-- What is left when the free page `v` is filled with `f` and mapped at page number `m`. -/
structure NewPage (k k' : Kernel) (d m v : ℕ) (f : ℕ → ℕ) (perm : ℕ) : Prop extends Takes k k' d where
  apart : Apart k' d
  entry : ∀ n < allPages, k'.entry d n = if n = m then v2p v ||| (perm ||| PTE_P) else k.entry d n
  page : k'.mem v = f
  tables : ∀ x < 1024, Present (k'.mem d x) ↔ Present (k.mem d x) ∨ x = m / 1024
  length : k'.freelist.length + 1 + (if Present (k.pde d m) then 0 else 1) = k.freelist.length
  tail : k'.freelist <:+ k.freelist.tail
  account : ∀ u, Accounted k' d u ↔ Accounted k d u

theorem mappages_new (h : Apart k d) (hl : k.freelist = v :: l) (hm : m < userPages) (f : ℕ → ℕ)
    (hnew : ¬ Present (k.entry d m)) (hroom : Present (k.pde d m) ∨ l ≠ []) (hperm : perm < 4096) :
    ∃ k', mappages (({ k with freelist := l } : Kernel).setPage v f) d (4096 * m) PGSIZE (v2p v) perm = .ok (true, k') ∧
      NewPage k k' d m v f perm := by
  have hua := userPages_le
  obtain ⟨h1, hv, hdir, hent, hacc, htake⟩ := h.take hl f
  set k1 : Kernel := ({ k with freelist := l } : Kernel).setPage v f with hk1
  obtain ⟨hfr, hpr⟩ := hv.page.pte hperm
  have hpde : k1.pde d m = k.pde d m := pde_congr hdir m
  obtain ⟨k', he, hr⟩ := mapLoop_round (n := 0) perm (v2p v) h1 (by omega : m < allPages)
    (by rw [hent]; exact hnew) (by rw [hpde]; exact hroom) fun _ => by rw [hfr]; exact hv
  refine ⟨k', ?_, htake.trans he.toTakes, he.apart, fun n hn => ?_, ?_, fun x hx => ?_, ?_, ?_, fun u => ?_⟩
  · rw [mappages_one (by omega) (by unfold userPages at hm; omega), hr]
    rfl
  · rw [he.entry n hn, hent]
  · rw [he.mem v hv.free hv.dir hv.table, hk1, Kernel.setPage_mem, update_self]
  · rw [he.tables x hx, hdir]
  · have hlen := he.length
    rw [hpde, show k1.freelist = l from rfl] at hlen
    rw [hl, length_cons]
    omega
  · rw [hl]
    exact he.suffix
  · rw [he.account, hacc, hfr]
    refine or_congr_right ⟨fun hx => hx.2.2.symm, fun hx => ⟨hm, hpr, hx.symm⟩⟩

/-- There is no memory for the table: the page is not mapped. -/
theorem mappages_lost (h : Apart k d) (hl : k.freelist = [v]) (hm : m < userPages) (f : ℕ → ℕ)
    (hp : ¬ Present (k.pde d m)) :
    mappages (({ k with freelist := [] } : Kernel).setPage v f) d (4096 * m) PGSIZE (v2p v) perm =
      .ok (false, ({ k with freelist := [] } : Kernel).setPage v f) := by
  obtain ⟨-, -, hdir, -⟩ := h.take hl f
  rw [mappages_one (by omega) (by unfold userPages at hm; omega), mapLoop_full _ rfl]
  rw [pde_congr hdir]
  exact hp

/-! ### The table as a map -/

/-- The entry that `walkpgdir` finds for an address, and `0` if there is no table for it. -/
def Kernel.walk (k : Kernel) (d va : ℕ) : ℕ :=
  match (walkpgdir k d va false).1 with
  | none => 0
  | some (t, i) => k.mem t i

theorem walk_eq (k : Kernel) (d va : ℕ) : k.walk d va = k.entry d (va / 4096) := by
  rw [Kernel.walk, walkpgdir_false, Kernel.entry]
  split_ifs <;> rfl

theorem Rooted.congr (h : Rooted k d) (hdir : k'.mem d = k.mem d) (hfree : k'.freelist = k.freelist) :
    Rooted k' d := by
  have hpde := pde_congr hdir
  refine ⟨fun m => ?_, fun m m' => ?_, fun v hv => ?_⟩
  · rw [hpde]
    exact h.self m
  · rw [hpde, hpde]
    exact h.apart m m'
  · rw [hfree] at hv
    obtain ⟨hpage, hne, hnt⟩ := h.free v hv
    refine ⟨hpage, hne, fun m => ?_⟩
    rw [hpde]
    exact hnt m

/-- Two addresses with the same row of the same table are in the same page. -/
theorem Rooted.walk_inj (h : Rooted k d) {a b : ℕ} (ha : a < 2 ^ 32) (hb : b < 2 ^ 32) {e : ℕ × ℕ}
    (hea : (walkpgdir k d a false).1 = some e) (heb : (walkpgdir k d b false).1 = some e) :
    a / 4096 = b / 4096 := by
  rw [walkpgdir_false] at hea heb
  dsimp only at hea heb
  split_ifs at hea heb with hpa hpb
  rw [← heb] at hea
  obtain ⟨htab, hrow⟩ := Prod.mk.inj (Option.some.inj hea)
  have hall : allPages = 2 ^ 20 := rfl
  exact page_ext (by omega) (by omega) (h.apart _ _ hpa hpb htab) hrow

theorem mapLoop_entry (h : Rooted k d) (hnd : k.freelist.Nodup) (hpa : pa < 2 ^ 32)
    (hm : m + n ≤ allPages) (hnew : ∀ j, m ≤ j → j < m + n → ¬ Present (k.entry d j))
    (hr : mapLoop d perm n (u32 (4096 * m)) pa k = .ok (true, k')) :
    Rooted k' d ∧ k'.freelist.Nodup ∧ ∀ j < allPages, k'.entry d j =
      if m ≤ j ∧ j < m + n then u32 (pa + 4096 * (j - m)) ||| (perm ||| PTE_P) else k.entry d j := by
  induction n generalizing m pa k with
  | zero =>
    obtain ⟨-, rfl⟩ := pair_ok hr
    exact ⟨h, hnd, fun j _ => (if_neg (by omega)).symm⟩
  | succ n ih =>
    have hlt : m < allPages := by omega
    have hu : u32 (4096 * m) = 4096 * m := by
      unfold u32 allPages at *
      omega
    have hnext : u32 (4096 * m + PGSIZE) = u32 (4096 * (m + 1)) := rfl
    rw [hu] at hr
    have hroom : Present (k.pde d m) ∨ k.freelist ≠ [] := by
      by_contra hnone
      rw [not_or, not_not] at hnone
      rw [mapLoop_full hnone.1 hnone.2] at hr
      cases hr
    obtain ⟨h1, hp1, he1, hsuf⟩ := h.ensured hnd hroom
    obtain ⟨hdir, hent⟩ := h1.entry_store hlt hp1 (pa ||| (perm ||| PTE_P))
    rw [mapLoop_enter perm pa h hnd (hnew m (le_refl m) (by omega)) hroom, hnext] at hr
    obtain ⟨hroot, hnd', hall⟩ := ih (h1.congr hdir rfl) (hnd.sublist hsuf.sublist) (Nat.mod_lt _ (by decide))
      (by omega) (fun j hj hj' => by
        rw [hent j (by omega), if_neg (by omega), he1]
        exact hnew j (by omega) (by omega)) hr
    refine ⟨hroot, hnd', fun j hj => ?_⟩
    rw [hall j hj, hent j hj, he1]
    obtain rfl | hne := eq_or_ne j m
    · rw [if_neg (by omega), if_pos rfl, if_pos (by omega), Nat.sub_self, Nat.mul_zero, Nat.add_zero]
      exact congrArg (· ||| _) (Nat.mod_eq_of_lt hpa).symm
    · rw [if_neg hne]
      split_ifs with hin hin' hin'
      · exact congrArg (· ||| _) (u32_next_page pa hin.1)
      · omega
      · omega
      · rfl

/-- The number of rounds of `mappages`, up to the last page of the range. -/
theorem mappages_loop {va size : ℕ} (hsize : 1 ≤ size) (hva : va + size ≤ 2 ^ 32) :
    mappages k d va size pa perm =
      mapLoop d perm ((va + size - 1) / 4096 - va / 4096 + 1) (u32 (4096 * (va / 4096))) pa k := by
  have hfirst : pgRoundDown va = u32 (4096 * (va / 4096)) := by
    unfold pgRoundDown u32 PGSIZE
    omega
  have hcount : u32 (pgRoundDown (u32 (va + size + 2 ^ 32 - 1)) + 2 ^ 32 - pgRoundDown va) / PGSIZE + 1 =
      (va + size - 1) / 4096 - va / 4096 + 1 := by
    unfold pgRoundDown u32 PGSIZE
    omega
  rw [mappages, hcount, hfirst]

/-- **A directory is a map from page numbers to entries**, and `mappages` changes it as one: the pages of the
range get the pages from `pa` on with the flags `perm` and `PTE_P`, all others stay. `walkpgdir` without
allocation changes nothing, and two pages never have the same entry. -/
theorem mappages_refines (h : Rooted k d) (hnd : k.freelist.Nodup) {va size pa perm : ℕ} (hsize : 1 ≤ size)
    (hva : va + size ≤ 2 ^ 32) (hpa : pa < 2 ^ 32) (halign : pa % 4096 = 0)
    (hnew : ∀ a, va ≤ a → a < va + size → ¬ Present (k.walk d a))
    (hr : mappages k d va size pa perm = .ok (true, k')) :
    (∀ a < 2 ^ 32,
      if va / 4096 ≤ a / 4096 ∧ a / 4096 ≤ (va + size - 1) / 4096 then
        k'.walk d a = u32 (pa + (pgRoundDown a - pgRoundDown va)) ||| (perm ||| PTE_P) ∧
          (perm < 4096 → pteAddr (k'.walk d a) = u32 (pa + (pgRoundDown a - pgRoundDown va)))
      else k'.walk d a = k.walk d a) ∧
    Rooted k' d ∧ k'.freelist.Nodup ∧ (∀ a, (walkpgdir k d a false).2 = k) ∧
    ∀ a < 2 ^ 32, ∀ b < 2 ^ 32, ∀ e, (walkpgdir k d a false).1 = some e →
      (walkpgdir k d b false).1 = some e → a / 4096 = b / 4096 := by
  have hall : allPages = 2 ^ 20 := rfl
  rw [mappages_loop hsize hva] at hr
  obtain ⟨hroot, hnd', hent⟩ := mapLoop_entry h hnd hpa (by omega) (fun j hj hj' => by
    have hmax : max va (4096 * j) / 4096 = j := by omega
    rw [← hmax, ← walk_eq]
    exact hnew _ (by omega) (by omega)) hr
  refine ⟨fun a ha => ?_, hroot, hnd', fun a => by rw [walkpgdir_false], fun a ha b hb e => h.walk_inj ha hb⟩
  rw [walk_eq, walk_eq, hent _ (by omega)]
  have hdist : 4096 * (a / 4096 - va / 4096) = pgRoundDown a - pgRoundDown va := by
    unfold pgRoundDown PGSIZE
    omega
  rw [hdist]
  split_ifs with hin hin' hin'
  · refine ⟨rfl, fun hperm => ?_⟩
    have hflags : perm ||| PTE_P < 2 ^ 12 := Nat.or_lt_two_pow hperm (by decide)
    have haddr : u32 (pa + (pgRoundDown a - pgRoundDown va)) % 2 ^ 12 = 0 := by
      rw [← hdist]
      unfold u32
      omega
    rw [Words.or_eq_add haddr hflags]
    exact Words.div_mul_of_aligned haddr hflags
  · omega
  · omega
  · rfl

end

/-- A directory at `0x80400000` without tables, and one free page. -/
def bareDir : Kernel := { boot with mem := fun _ _ => 0, freelist := [top 134] }

/-- The last page of the address space is mapped; the page before it is not. -/
theorem mappages_refines_top : ∃ k', mappages bareDir 0x80400000 0xfffff000 0x1000 0xff000000 PTE_W = .ok (true, k') ∧
    pteAddr (k'.walk 0x80400000 0xffffffff) = 0xff000000 ∧ k'.walk 0x80400000 0xffffefff = 0 := by
  have hzero : ∀ d m, ¬ Present (bareDir.pde d m) := fun _ _ => not_present_zero
  have hroot : Rooted bareDir 0x80400000 := by
    refine ⟨fun m hp => absurd hp (hzero _ m), fun m _ hp => absurd hp (hzero _ m), fun v hv => ?_⟩
    obtain rfl := mem_singleton.mp hv
    exact ⟨by constructor <;> decide, by decide, fun m hp => absurd hp (hzero _ m)⟩
  have hwalk : ∀ a, bareDir.walk 0x80400000 a = 0 := fun a => by
    rw [walk_eq, Kernel.entry, if_neg (hzero _ _)]
  obtain ⟨k', hr⟩ : ∃ k', mappages bareDir 0x80400000 0xfffff000 0x1000 0xff000000 PTE_W = .ok (true, k') := ⟨_, rfl⟩
  obtain ⟨hall, -⟩ := mappages_refines hroot (nodup_singleton _) (by decide) (by decide) (by decide) (by decide)
    (fun a _ _ => by rw [hwalk]; exact not_present_zero) hr
  have hlast := hall 0xffffffff (by decide)
  have hbefore := hall 0xffffefff (by decide)
  rw [if_pos (by decide)] at hlast
  rw [if_neg (by decide), hwalk] at hbefore
  exact ⟨k', hr, (hlast.2 (by decide)).trans (by decide), hbefore⟩

end Xv6.Vm
