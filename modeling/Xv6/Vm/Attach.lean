import Mathlib.Data.Finset.Prod
import Xv6.Vm.Ownership

/-! # Counting the attachments of a segment

`refs[key][0][64]` counts the attachments of the segment of `key`. An attachment is a process and
the page number from which on it maps all pages of the segment; a process that has exited keeps its
address space until its parent waits for it.

In runs of `shmget`, `shmat`, `shmdt`, `shmdel`, `fork`, `exit` and stores of user code the counter
is right, if `shmat` succeeds whenever it counts (`CountOk`): it counts an attachment before it has
looked at the flag, and it neither notices that the segment does not fit below `KERNBASE` nor that
memory for a page table is missing.

The invariant (`Counted`) says besides that a process maps segments only as a whole. -/

namespace Xv6.Vm

open Runs Fallible Function Option Finset

/-- The process in slot `q` maps all pages of the segment of `key`, from page number `n` on. -/
structure Attachment (k : Kernel) (key : ℕ) (q : Slot) (n : ℕ) : Prop where
  live : k.live q
  pos : 0 < k.shm.pages key
  room : n + (k.shm.pages key).toNat ≤ userPages
  maps : ∀ i < (k.shm.pages key).toNat, Present (k.entry (k.dirOf q) (n + i)) ∧
    frame (k.entry (k.dirOf q) (n + i)) = k.shm.seg key i

instance (k : Kernel) (key : ℕ) (q : Slot) (n : ℕ) : Decidable (Attachment k key q n) :=
  decidable_of_iff (k.live q ∧ 0 < k.shm.pages key ∧ n + (k.shm.pages key).toNat ≤ userPages ∧
      ∀ i < (k.shm.pages key).toNat, Present (k.entry (k.dirOf q) (n + i)) ∧
        frame (k.entry (k.dirOf q) (n + i)) = k.shm.seg key i)
    ⟨fun ⟨h1, h2, h3, h4⟩ => ⟨h1, h2, h3, h4⟩, fun ⟨h1, h2, h3, h4⟩ => ⟨h1, h2, h3, h4⟩⟩

/-- The attachments of the segment of `key`, and their number. -/
@[irreducible] def attached (k : Kernel) (key : ℕ) : Finset (Slot × ℕ) :=
  (univ ×ˢ range userPages).filter fun a => Attachment k key a.1 a.2

def attachments (k : Kernel) (key : ℕ) : ℕ := (attached k key).card

/-- The calls on segments, `fork`, `exit` and stores, with pids below 64; and when `shmat` counts an
attachment, the flag is one of the two, the segment fits below `KERNBASE`, and there is memory for
the page tables. -/
def CountOk (k : Kernel) : Op → Prop
  | .shmat p shmid flg => (k.proc p).pid < 64 ∧ ∀ key < numOfSegs, Attaches k p shmid key →
      (shmPerm flg).isSome = true ∧ k.topPage p + (k.shm.pages key).toNat ≤ userPages ∧
        (missingTables k (k.dirOf p) (k.topPage p) (k.topPage p + (k.shm.pages key).toNat)).card ≤
          k.freelist.length
  | .shmdt p _ => (k.proc p).pid < 64
  | .shmget _ _ _ _ _ | .shmdel _ _ | .fork _ | .exit _ | .store _ _ _ => True
  | _ => False

structure Counted (k : Kernel) (own : ℕ → Role) : Prop where
  inv : Inv k own
  rows : Rows k
  complete : ∀ q n key i, k.live q → n < userPages → Present (k.entry (k.dirOf q) n) →
    own (frame (k.entry (k.dirOf q) n)) = .seg key i → i ≤ n ∧ Attachment k key q (n - i)
  count : ∀ key < numOfSegs, k.shm.count key = attachments k key

section
variable {k k' : Kernel} {own own' : ℕ → Role} {p q : Slot} {key n a : ℕ} {shmid r flg : ℤ}

/-! ### Attachments -/

theorem Attachment.lt (h : Attachment k key q n) : n < userPages := by
  have := h.room
  have := h.pos
  omega

theorem Attachment.role (h : Attachment k key q n) (hi : Inv k own) (hk : key < numOfSegs) {i : ℕ}
    (hlt : i < (k.shm.pages key).toNat) :
    own (frame (k.entry (k.dirOf q) (n + i))) = .seg key i :=
  (hi.wf.seg _ _ _).mpr ⟨hk, by omega, (h.maps i hlt).2.symm⟩

theorem mem_attached {a : Slot × ℕ} : a ∈ attached k key ↔ Attachment k key a.1 a.2 := by
  unfold attached
  simp only [mem_filter, mem_product, mem_univ, true_and, mem_range]
  exact ⟨fun h => h.2, fun h => ⟨h.lt, h⟩⟩

theorem attachments_congr (h : ∀ q n, Attachment k' key q n ↔ Attachment k key q n) :
    attachments k' key = attachments k key := by
  unfold attachments
  congr 1
  ext a
  rw [mem_attached, mem_attached, h]

theorem attachments_succ {m : ℕ} (hnew : ¬ Attachment k key p m)
    (h : ∀ q n, Attachment k' key q n ↔ Attachment k key q n ∨ q = p ∧ n = m) :
    attachments k' key = attachments k key + 1 := by
  have hset : attached k' key = insert (p, m) (attached k key) := by
    ext ⟨q, n⟩
    rw [mem_insert, mem_attached, mem_attached, h, Prod.mk.injEq, or_comm]
  unfold attachments
  rw [hset, card_insert_of_notMem (by rwa [mem_attached])]

theorem attachments_eq_zero : attachments k key = 0 ↔ ∀ q n, ¬ Attachment k key q n := by
  unfold attachments
  rw [card_eq_zero, eq_empty_iff_forall_notMem]
  simp only [mem_attached, Prod.forall]

/-- A segment without attachments is mapped by no process. -/
theorem Counted.unmapped_iff (h : Counted k own) (hk : key < numOfSegs) (hp : 0 < k.shm.pages key) :
    Unmapped k key ↔ attachments k key = 0 := by
  rw [attachments_eq_zero]
  constructor
  · intro hu q n ha
    have h0 := ha.maps 0 (by omega)
    exact hu q ha.live (n + 0) ha.lt h0.1 0 (by omega) h0.2
  · intro hno q hq m hm hpr i hi e
    have hown : own (frame (k.entry (k.dirOf q) m)) = .seg key i :=
      (h.inv.wf.seg _ _ _).mpr ⟨hk, by omega, e.symm⟩
    exact hno q _ (h.complete q m key i hq hm hpr hown).2

/-! ### Changes of one address space -/

/-- An attachment stays where its process and the size of the segment stay, and its entries lead to
the segment. -/
theorem Attachment.keep (h : Attachment k key q n) (hl : k'.live q)
    (hpages : k'.shm.pages key = k.shm.pages key)
    (hmaps : ∀ i < (k.shm.pages key).toNat, n + i < userPages →
      Present (k'.entry (k'.dirOf q) (n + i)) ∧
        frame (k'.entry (k'.dirOf q) (n + i)) = k'.shm.seg key i) : Attachment k' key q n := by
  have hroom := h.room
  refine ⟨hl, ?_, ?_, ?_⟩ <;> rw [hpages]
  · exact h.pos
  · exact hroom
  · exact fun i hi => hmaps i hi (by omega)

theorem Attachment.same (h : Attachment k key q n) (hs : SameSpace q k k') (hseg : SameSegs k k') :
    Attachment k' key q n := by
  have hua := userPages_le
  refine h.keep (hs.live.mpr h.live) (by rw [hseg.pages]) fun i hi hn => ?_
  rw [hs.pgdir, hs.entry h.live (n + i) (by omega), hseg.seg]
  exact h.maps i hi

theorem SameSpace.symm (h : SameSpace q k k') : SameSpace q k' k :=
  ⟨⟨h.state.symm, h.pgdir.symm, h.kstack.symm, h.sz.symm⟩, fun hl n hn => by
    rw [h.pgdir]
    exact (h.entry (h.live.mp hl) n hn).symm, fun hl => by
    rw [h.pgdir]
    exact (h.pde (h.live.mp hl)).symm⟩

theorem SameSpace.refl (q : Slot) (k : Kernel) : SameSpace q k k :=
  ⟨.of_eq rfl, fun _ _ _ => rfl, fun _ => rfl⟩

theorem SameSpace.trans {k1 k2 : Kernel} (h : SameSpace q k k1) (h' : SameSpace q k1 k2) : SameSpace q k k2 := by
  refine ⟨⟨h'.state.trans h.state, h'.pgdir.trans h.pgdir, h'.kstack.trans h.kstack, h'.sz.trans h.sz⟩,
    fun hq m hm => ?_, fun hq => ?_⟩
  · have hent := h'.entry (h.live.mpr hq) m hm
    rw [h.pgdir] at hent
    exact hent.trans (h.entry hq m hm)
  · have hpde := h'.pde (h.live.mpr hq)
    rw [h.pgdir] at hpde
    exact hpde.trans (h.pde hq)

theorem SameSegs.symm (h : SameSegs k k') : SameSegs k' k := ⟨h.seg.symm, h.pages.symm⟩

theorem attachment_iff (hs : SameSpace q k k') (hseg : SameSegs k k') :
    Attachment k' key q n ↔ Attachment k key q n :=
  ⟨fun h => h.same hs.symm hseg.symm, fun h => h.same hs hseg⟩

/-- Roles of pages of segments depend on the table only. -/
theorem seg_role_iff (h : Wf k own) (h' : Wf k' own') (hseg : SameSegs k k') {v i : ℕ} :
    own' v = .seg key i ↔ own v = .seg key i := by
  rw [h.seg, h'.seg, hseg.seg, hseg.pages]

/-- A page of a segment is mapped where it was before. -/
def MappedBefore (k : Kernel) (own : ℕ → Role) (k' : Kernel) (own' : ℕ → Role) (q : Slot) : Prop :=
  ∀ n key i, k'.live q → n < userPages → Present (k'.entry (k'.dirOf q) n) →
    own' (frame (k'.entry (k'.dirOf q) n)) = .seg key i →
      k.live q ∧ Present (k.entry (k.dirOf q) n) ∧ own (frame (k.entry (k.dirOf q) n)) = .seg key i

theorem SameSpace.mappedBefore (hs : SameSpace q k k') (hw : Wf k own) (hw' : Wf k' own')
    (hseg : SameSegs k k') : MappedBefore k own k' own' q := by
  have hua := userPages_le
  intro n key i hq hn hpr hown
  have hq' := hs.live.mp hq
  rw [hs.pgdir, hs.entry hq' n (by omega)] at hpr hown
  exact ⟨hq', hpr, (seg_role_iff hw hw' hseg).mp hown⟩

theorem Counted.transfer (h : Counted k own) (hi : Inv k' own') (hrow : Rows k')
    (hiff : ∀ {key}, key < numOfSegs → ∀ q n, Attachment k' key q n ↔ Attachment k key q n)
    (hmap : ∀ q, MappedBefore k own k' own' q) (hcount : k'.shm.count = k.shm.count) :
    Counted k' own' := by
  refine ⟨hi, hrow, fun q n key i hq hn hpr hown => ?_, fun key hk => ?_⟩
  · obtain ⟨hq', hpr', hown'⟩ := hmap q n key i hq hn hpr hown
    obtain ⟨h1, h2⟩ := h.complete q n key i hq' hn hpr' hown'
    exact ⟨h1, (hiff ((h.inv.wf.seg _ _ _).mp hown').1 q _).mpr h2⟩
  · rw [hcount, h.count key hk, attachments_congr (hiff hk)]

theorem Counted.congr (h : Counted k own) (hi : Inv k' own') (hs : ∀ q, SameSpace q k k')
    (hseg : SameSegs k k') (hcount : k'.shm.count = k.shm.count) : Counted k' own' :=
  h.transfer hi (hseg.rows h.rows) (fun _ q _ => attachment_iff (hs q) hseg)
    (fun q => (hs q).mappedBefore h.inv.wf hi.wf hseg) hcount

section
variable {m : ℕ} (hi : Inv k' own') (hs : ∀ q ≠ p, SameSpace q k k') (hp : k.live p) (hp' : k'.live p)
  (hd : k'.dirOf p = k.dirOf p) (hseg : SameSegs k k') (hk : key < numOfSegs)
include hi hs hp hp' hd hseg hk

/-- The process has mapped the segment of `key` from page number `m` on. -/
theorem Counted.attach (h : Counted k own) (hpos : 0 < k.shm.pages key)
    (hroom : m + (k.shm.pages key).toNat ≤ userPages)
    (hout : ∀ x < allPages, x < m ∨ m + (k.shm.pages key).toNat ≤ x →
      k'.entry (k.dirOf p) x = k.entry (k.dirOf p) x)
    (hin : ∀ i < (k.shm.pages key).toNat, ¬ Present (k.entry (k.dirOf p) (m + i)) ∧
      Present (k'.entry (k.dirOf p) (m + i)) ∧ frame (k'.entry (k.dirOf p) (m + i)) = k.shm.seg key i)
    (hcount : ∀ key', k'.shm.count key' =
      if key' = key then k.shm.count key' + 1 else k.shm.count key') : Counted k' own' := by
  have hua := userPages_le
  have hwf := h.inv.wf
  have hnew : Attachment k' key p m := by
    refine ⟨hp', by rw [hseg.pages]; exact hpos, by rw [hseg.pages]; exact hroom, fun i hlt => ?_⟩
    rw [hseg.pages] at hlt
    rw [hd, hseg.seg]
    exact (hin i hlt).2
  have hold : ∀ {key' n}, Attachment k key' p n → Attachment k' key' p n := by
    intro key' n ha
    refine ha.keep hp' (by rw [hseg.pages]) fun i hlt hn => ?_
    rw [hd, hseg.seg, hout (n + i) (by omega)]
    · exact ha.maps i hlt
    · by_contra hc
      push Not at hc
      have := (hin (n + i - m) (by omega)).1
      rw [show m + (n + i - m) = n + i by omega] at this
      exact this (ha.maps i hlt).1
  have hpage : ∀ {n key' i}, n < userPages → Present (k'.entry (k.dirOf p) n) →
      own' (frame (k'.entry (k.dirOf p) n)) = .seg key' i →
      i ≤ n ∧ (Attachment k key' p (n - i) ∨ key' = key ∧ n - i = m) := by
    intro n key' i hn hpr hown
    rw [seg_role_iff hwf hi.wf hseg] at hown
    by_cases hc : n < m ∨ m + (k.shm.pages key).toNat ≤ n
    · rw [hout n (by omega) hc] at hpr hown
      obtain ⟨h1, h2⟩ := h.complete p n key' i hp hn hpr hown
      exact ⟨h1, .inl h2⟩
    · have hj := (hin (n - m) (by omega)).2.2
      rw [show m + (n - m) = n by omega] at hj
      rw [hj, (hwf.seg _ key (n - m)).mpr ⟨hk, by omega, rfl⟩] at hown
      obtain ⟨rfl, rfl⟩ := Role.seg.inj hown
      exact ⟨by omega, .inr ⟨rfl, by omega⟩⟩
  have hiff : ∀ {key'}, key' < numOfSegs → ∀ q n,
      Attachment k' key' q n ↔ Attachment k key' q n ∨ q = p ∧ n = m ∧ key' = key := by
    intro key' hk' q n
    by_cases hq : q = p
    · subst hq
      constructor
      · intro ha
        have h0 := ha.role hi hk' (i := 0) (by have := ha.pos; omega)
        have hm0 := (ha.maps 0 (by have := ha.pos; omega)).1
        rw [add_zero, hd] at h0 hm0
        rcases (hpage ha.lt hm0 h0).2 with h1 | ⟨h1, h2⟩
        · exact .inl h1
        · exact .inr ⟨rfl, h2, h1⟩
      · rintro (ha | ⟨_, rfl, rfl⟩)
        · exact hold ha
        · exact hnew
    · rw [attachment_iff (hs q hq) hseg]
      simp [hq]
  refine ⟨hi, hseg.rows h.rows, fun q n key' i hq hn hpr hown => ?_, fun key' hk' => ?_⟩
  · by_cases e : q = p
    · subst e
      rw [hd] at hpr hown
      obtain ⟨h1, h2 | ⟨rfl, h2⟩⟩ := hpage hn hpr hown
      · exact ⟨h1, hold h2⟩
      · rw [h2]
        exact ⟨h1, hnew⟩
    · obtain ⟨hq', hpr', hown'⟩ := (hs q e).mappedBefore hwf hi.wf hseg n key' i hq hn hpr hown
      obtain ⟨h1, h2⟩ := h.complete q n key' i hq' hn hpr' hown'
      exact ⟨h1, h2.same (hs q e) hseg⟩
  · rw [hcount, h.count key' hk']
    by_cases e : key' = key
    · subst e
      have hcard : attachments k' key' = attachments k key' + 1 := by
        refine attachments_succ (p := p) (m := m) (fun ha => ?_) fun q n => ?_
        · exact (hin 0 (by omega)).1 (ha.maps 0 (by omega)).1
        · rw [hiff hk']
          simp
      rw [if_pos rfl, hcard]
      push_cast
      rfl
    · have hcard : attachments k' key' = attachments k key' :=
        attachments_congr fun q n => by
          rw [hiff hk']
          simp [e]
      rw [if_neg e, hcard]

section
variable (hent : ∀ x < allPages, k'.entry (k.dirOf p) x =
  if m ≤ x ∧ x < m + (k.shm.pages key).toNat then 0 else k.entry (k.dirOf p) x)
include hent

omit hi hs hp hp' hseg hk hd in
/-- What is mapped after the entries have been cleared was mapped before, and lies outside. -/
theorem present_cleared {x : ℕ} (hx : x < allPages) (hpr : Present (k'.entry (k.dirOf p) x)) :
    ¬ (m ≤ x ∧ x < m + (k.shm.pages key).toNat) ∧
      k'.entry (k.dirOf p) x = k.entry (k.dirOf p) x := by
  rw [hent x hx] at hpr ⊢
  split_ifs at hpr ⊢ with hc
  · exact absurd hpr not_present_zero
  · exact ⟨hc, rfl⟩

omit hi hs hp hp' hseg hk in
theorem Attachment.gone (hat : Attachment k key p m) : ¬ Attachment k' key p m := by
  have hua := userPages_le
  intro ha
  have h0 := (ha.maps 0 (by have := ha.pos; omega)).1
  rw [add_zero, hd] at h0
  have := hat.pos
  exact (present_cleared hent (by have := ha.lt; omega) h0).1 ⟨le_refl _, by omega⟩

omit hi in
/-- The attachments are those left and the one that is gone. -/
theorem Counted.detach_iff (h : Counted k own) (hat : Attachment k key p m) {key' : ℕ}
    (hk' : key' < numOfSegs) (q : Slot) (n : ℕ) :
    Attachment k key' q n ↔ Attachment k' key' q n ∨ q = p ∧ n = m ∧ key' = key := by
  have hua := userPages_le
  have hold : ∀ {n}, Attachment k key' p n → ¬ (n = m ∧ key' = key) → Attachment k' key' p n := by
    intro n ha hne
    refine ha.keep hp' (by rw [hseg.pages]) fun i hlt hn => ?_
    rw [hd, hseg.seg, hent (n + i) (by omega), if_neg]
    · exact ha.maps i hlt
    · intro hc
      have e1 := ha.role h.inv hk' hlt
      have e2 := hat.role h.inv hk (i := n + i - m) (by omega)
      rw [show m + (n + i - m) = n + i by omega, e1] at e2
      obtain ⟨rfl, e3⟩ := Role.seg.inj e2
      exact hne ⟨by omega, rfl⟩
  have hback : ∀ {n}, Attachment k' key' p n → Attachment k key' p n := by
    intro n ha
    refine ha.keep hp (by rw [hseg.pages]) fun i hlt hn => ?_
    have hm := ha.maps i hlt
    rw [hd, hseg.seg] at hm
    rwa [(present_cleared hent (by omega) hm.1).2] at hm
  by_cases hq : q = p
  · subst hq
    constructor
    · intro ha
      by_cases hne : n = m ∧ key' = key
      · exact .inr ⟨rfl, hne⟩
      · exact .inl (hold ha hne)
    · rintro (ha | ⟨_, rfl, rfl⟩)
      · exact hback ha
      · exact hat
  · rw [attachment_iff (hs q hq) hseg]
    simp [hq]

/-- The process has unmapped the segment of `key` at page number `m`. -/
theorem Counted.detach (h : Counted k own) (hat : Attachment k key p m)
    (hcount : ∀ key', k'.shm.count key' =
      if key' = key then k.shm.count key' - 1 else k.shm.count key') : Counted k' own' := by
  have hua := userPages_le
  have hwf := h.inv.wf
  have hiff : ∀ {key'}, key' < numOfSegs → ∀ q n,
      Attachment k key' q n ↔ Attachment k' key' q n ∨ q = p ∧ n = m ∧ key' = key :=
    fun hk' => h.detach_iff hs hp hp' hd hseg hk hent hat hk'
  refine ⟨hi, hseg.rows h.rows, fun q n key' i hq hn hpr hown => ?_, fun key' hk' => ?_⟩
  · by_cases e : q = p
    · subst e
      rw [hd] at hpr hown
      obtain ⟨hno, e1⟩ := present_cleared hent (by omega) hpr
      rw [e1] at hpr hown
      rw [seg_role_iff hwf hi.wf hseg] at hown
      have hseg' := (hwf.seg _ _ _).mp hown
      obtain ⟨h1, h2⟩ := h.complete q n key' i hp hn hpr hown
      refine ⟨h1, ((hiff hseg'.1 q _).mp h2).resolve_right ?_⟩
      rintro ⟨_, h3, rfl⟩
      omega
    · obtain ⟨hq', hpr', hown'⟩ := (hs q e).mappedBefore hwf hi.wf hseg n key' i hq hn hpr hown
      obtain ⟨h1, h2⟩ := h.complete q n key' i hq' hn hpr' hown'
      exact ⟨h1, h2.same (hs q e) hseg⟩
  · rw [hcount, h.count key' hk']
    by_cases e : key' = key
    · subst e
      have hcard : attachments k key' = attachments k' key' + 1 := by
        refine attachments_succ (p := p) (m := m) (hat.gone hd hent) fun q n => ?_
        rw [hiff hk']
        simp
      rw [if_pos rfl, hcard]
      push_cast
      ring
    · have hcard : attachments k key' = attachments k' key' :=
        attachments_congr fun q n => by
          rw [hiff hk']
          simp [e]
      rw [if_neg e, hcard]

end

end

/-! ### The calls -/

theorem noted_count (hpid : (k.proc p).pid < 64) (d x : ℤ) (key' : ℕ) :
    (k.noted p key d x).shm.count key' =
      if key' = key then k.shm.count key' + d else k.shm.count key' := by
  have hne : (64 : ℕ) ≠ (k.proc p).pid := by omega
  unfold Kernel.noted Shm.count
  split_ifs with e
  · subst e
    simp [hne]
  · simp [e]

/-- The entry that leads to the first page of a segment. -/
theorem Counted.first (h : Counted k own) (hp : k.live p) (hn : n < userPages) (hk : key < numOfSegs)
    (hpos : 0 < k.shm.pages key) (hf : frame (k.entry (k.dirOf p) n) = k.shm.seg key 0) :
    Attachment k key p n := by
  have hown : own (frame (k.entry (k.dirOf p) n)) = .seg key 0 :=
    (h.inv.wf.seg _ _ _).mpr ⟨hk, by omega, hf.symm⟩
  have hpr : Present (k.entry (k.dirOf p) n) := by
    by_contra hnp
    rw [h.inv.wf.absent _ n (h.inv.dir p hp) hn hnp, h.inv.wf.frame_zero] at hown
    cases hown
  have := (h.complete p n key 0 hp hn hpr hown).2
  rwa [Nat.sub_zero] at this

theorem Counted.shmat (h : Counted k own) (hp : k.live p)
    (hok : CountOk k (.shmat p shmid flg)) (hr : Vm.shmat k p shmid flg = .ok (r, k')) :
    ∃ own', Counted k' own' := by
  obtain ⟨hpid, hok⟩ := hok
  obtain ⟨own', ht, hst⟩ := shmat_turn h.inv hp hr
  rcases shmat_cases h.inv hp hr with ⟨rfl, _⟩ | ⟨key, hat, _, ⟨hnone, _⟩ | ⟨perm, k1, own1, hperm, hm, ha, hk'⟩⟩
  · exact ⟨own, h⟩
  · have := (hok key (find_some hat.1).1 hat).1
    rw [hnone] at this
    cases this
  have hk := (find_some hat.1).1
  obtain ⟨_, hroom, hfree⟩ := hok key hk hat
  obtain ⟨hf, hodd⟩ := shmPerm_some hperm
  have hsame := noted_sameProc (k := k) p p key 1 1
  have hshm : k'.shm = (k.noted p key 1 1).shm := by
    rw [hk', Kernel.setProc_shm, hm.shm]
  have hseg : SameSegs k k' :=
    (SameSegs.noted k p key 1 1).trans ⟨by rw [hshm], by rw [hshm]⟩
  have hent : k'.entry = k1.entry := entry_congr (by rw [hk', Kernel.setProc_mem])
  have hd : k'.dirOf p = k.dirOf p := by
    rw [Kernel.dirOf, hk', setProc_self, hm.proc]
    exact hsame.pgdir
  refine ⟨own', h.attach (m := k.topPage p) ht.inv ht.apart hp (by rw [Kernel.live, hst]; exact hp) hd
    hseg hk hat.2.1 hroom (fun x hx hout => ?_) (fun i hi => ?_) (fun key' => ?_)⟩
  · rw [hent, ha.outside x hx hout, noted_entry]
  · have hin := ha.inside i hi (by omega)
    rw [noted_entry] at hin
    have hall := ha.all (by rw [min_eq_left hroom]; exact hfree) i hi (by omega)
    have hseg0 : (k.noted p key 1 1).shm.seg key (0 + i) = k.shm.seg key i := by
      rw [zero_add, (SameSegs.noted k p key 1 1).seg]
    have hpage : Page (k.shm.seg key i) := h.inv.wf.page _ (by
      rw [h.inv.wf.seg_own hat.1 (by omega)]
      simp)
    rw [hent, hall, segEntry, hseg0]
    exact ⟨hin.1, hpage.present_or hf hodd, hpage.frame_or hf⟩
  · rw [hshm, noted_count hpid]

/-- What `shmdt` looks at is an entry of the directory. -/
theorem Detaches.frame (h : Detaches k p a key) :
    key < numOfSegs ∧ 0 < k.shm.pages key ∧
      Vm.frame (k.entry (k.dirOf p) (a / 4096)) = k.shm.seg key 0 := by
  obtain ⟨t, i, hw, hf, hpos, _⟩ := h
  rw [walkpgdir_false] at hw
  dsimp only at hw
  split_ifs at hw with hpd
  obtain ⟨rfl, rfl⟩ := Prod.mk.inj (some.inj hw)
  obtain ⟨h1, h2, _⟩ := find_some hf
  rw [← entry_of_present hpd, frame_eq] at h2
  exact ⟨h1, hpos, (of_decide_eq_true h2).symm⟩

section
variable (h : Counted k own)
include h

theorem Counted.shmdt (hp : k.live p)
    (hpid : (k.proc p).pid < 64) (ha : a + 4 ≤ (k.proc p).sz) (hr : Vm.shmdt k p a = .ok (r, k')) :
    ∃ own', Counted k' own' := by
  obtain ⟨own', ht, hst⟩ := shmdt_turn h.inv hp h.rows ha hr
  rcases shmdt_cases h.inv hp h.rows ha hr with ⟨_, rfl | rfl⟩ | ⟨key, own1, hdet, _, hm, _, hent, _⟩
  · exact ⟨own, h⟩
  · have hi : Inv { k with shm := { k.shm with locked := true } } own :=
      h.inv.congr rfl rfl ⟨rfl, rfl⟩ rfl
    exact ⟨own, h.congr hi (fun q => ⟨.of_eq rfl, fun _ _ _ => rfl, fun _ => rfl⟩) ⟨rfl, rfl⟩ rfl⟩
  have hsz := h.inv.size p hp
  obtain ⟨hk, hpos, hf⟩ := hdet.frame
  have hat := h.first hp (page_lt hsz (by omega)) hk hpos hf
  have hd : k'.dirOf p = k.dirOf p := by
    rw [Kernel.dirOf, hm.proc]
    exact (noted_sameProc p p key (-1) 0).pgdir
  refine ⟨own', h.detach ht.inv ht.apart hp (by rw [Kernel.live, hst]; exact hp) hd
    ((SameSegs.noted k p key (-1) 0).trans hm.sameSegs) hk hent hat fun key' => ?_⟩
  rw [hm.shm, noted_count hpid]
  rfl

/-- A scan of `deallocshm` removes the attachment it finds. -/
theorem Counted.scan (hp : k.live p) {sz key n a' : ℕ} (hk : key < numOfSegs)
    (hsz : sz ≤ KERNBASE) (hr : detachScan (k.dirOf p) sz key n a k = .ok (a', k')) :
    ∃ own', Counted k' own' ∧ k'.proc = k.proc := by
  rcases detachScan_ok h.inv.wf (h.inv.dir p hp) h.rows hsz hr with
    rfl | ⟨m, k1, own1, hm, _, hf, hmo, hrs, hent, hmem, hk'⟩
  · exact ⟨own, h, rfl⟩
  have hsame : ∀ q, SameProc q k k1 := fun q => .of_eq (by rw [hmo.proc])
  have ht := h.inv.edits hp hrs.toEdits (fun q _ => hsame q) ((hsame p).live.mpr hp) (hsame p).pgdir
    (hsame p).kstack (by rw [(hsame p).sz]; exact h.inv.size p hp)
  have hmu := page_lt hsz hm
  have hcount := h.count key hk
  by_cases hpos : 0 < k.shm.pages key
  · have hat := h.first hp hmu hk hpos hf
    have hne : attachments k key ≠ 0 := fun h0 => attachments_eq_zero.mp h0 p m hat
    rw [if_pos (by omega)] at hk'
    have hi : Inv k' own1 := by
      rw [hk']
      exact ht.inv.congr rfl rfl (.setRefs _ _ _ _) rfl
    have hs : ∀ q ≠ p, SameSpace q k k' := fun q hq => by
      rw [hk']
      have := ht.apart q hq
      exact ⟨⟨this.state, this.pgdir, this.kstack, this.sz⟩, this.entry, this.pde⟩
    have hproc : k'.proc = k.proc := by rw [hk', Kernel.setRefs_proc, hmo.proc]
    refine ⟨own1, h.detach hi hs hp (by rw [Kernel.live, hproc]; exact hp)
      (by rw [Kernel.dirOf, hproc]) ?_ hk (fun x hx => ?_) hat (fun key' => ?_), hproc⟩
    · rw [hk']
      exact hmo.sameSegs.trans (.setRefs _ _ _ _)
    · rw [hk', ← hent x hx]
      rfl
    · rw [hk']
      unfold Shm.count
      rw [Kernel.setRefs_refs, hmo.shm]
      split_ifs with e
      · subst e
        simp
      · simp [e]
  · have hrow := h.rows key
    have hzero : (k.shm.pages key).toNat = 0 := by omega
    have h0 : attachments k key = 0 := attachments_eq_zero.mpr fun q n ha => hpos ha.pos
    rw [if_neg (by omega)] at hk'
    subst hk'
    refine ⟨own1, h.congr ht.inv (fun q => ?_) hmo.sameSegs (by rw [hmo.shm]), hmo.proc⟩
    by_cases e : q = p
    · subst e
      refine ⟨hsame q, fun _ x hx => ?_, fun _ => hmem⟩
      rw [hent x hx, hzero, if_neg (by omega)]
    · exact ht.apart q e

theorem Counted.exit (hp : k.live p) (hr : Vm.exit k p = .ok k') : ∃ own', Counted k' own' := by
  obtain ⟨_, k1, rfl, hk1⟩ := exit_ok hr
  have hc : ∃ own1, Counted k1 own1 ∧ k1.proc = k.proc := by
    rcases hk1 with ⟨_, rfl⟩ | ⟨_, e1⟩
    · exact ⟨own, h, rfl⟩
    · unfold deallocshm at e1
      split_ifs at e1
      refine detachLoop_keeps (I := fun k1 => ∃ own1, Counted k1 own1 ∧ k1.proc = k.proc)
        (fun k1 k2 key n a a' ⟨own1, h1, hpr⟩ hk hs => ?_) (by decide) ⟨own, h, rfl⟩ e1
      have hd : (k.proc p).pgdir = k1.dirOf p := by rw [Kernel.dirOf, hpr]
      rw [hd] at hs
      obtain ⟨own2, h2, hpr2⟩ := h1.scan (p := p) (by rw [Kernel.live, hpr]; exact hp) hk
        (h.inv.size p hp) hs
      exact ⟨own2, h2, hpr2.trans hpr⟩
  obtain ⟨own1, h1, hpr⟩ := hc
  have hp1 : k1.live p := by
    rw [Kernel.live, hpr]
    exact hp
  obtain ⟨e1, e2, e3, e4⟩ := exited_self (k := k1) (p := p)
  have hl : (exited k1 p).live p := by simp [Kernel.live, e1]
  have hed : Edits (k1.dirOf p) k1 own1 (exited k1 p) own1 :=
    (Edits.refl h1.inv.wf (h1.inv.dir p hp1)).congr rfl rfl ⟨rfl, rfl⟩
  have ht := h1.inv.edits hp1 hed (fun q hq => exited_other hq) hl e2 e3 (by rw [e4]; exact h1.inv.size p hp1)
  have hiff : ∀ key q n, Attachment (exited k1 p) key q n ↔ Attachment k1 key q n := by
    intro key q n
    by_cases e : q = p
    · subst e
      constructor
      · intro ha
        refine ha.keep hp1 rfl fun i hi _ => ?_
        have := ha.maps i hi
        rwa [e2] at this
      · intro ha
        refine ha.keep hl rfl fun i hi _ => ?_
        rw [e2]
        exact ha.maps i hi
    · exact attachment_iff (ht.apart q e) ⟨rfl, rfl⟩
  refine ⟨own1, h1.transfer ht.inv h1.rows (fun _ => hiff _) (fun q n key i hq hn hpr' hown => ?_) rfl⟩
  have hq1 : k1.live q ∧ (exited k1 p).dirOf q = k1.dirOf q := by
    by_cases e : q = p
    · subst e
      exact ⟨hp1, e2⟩
    · exact ⟨(exited_other e).live.mp hq, (exited_other e).pgdir⟩
  rw [hq1.2] at hpr' hown
  exact ⟨hq1.1, hpr', hown⟩

theorem Counted.fork (hp : k.live p) (hr : Vm.fork k p = .ok (r, k')) : ∃ own', Counted k' own' := by
  have hua := userPages_le
  have hshm := (fork_shm hr).1
  have hseg := sameSegs_of_shm hshm
  rcases fork_ok h.inv hp hr with rfl | ⟨np, own', ht, hnl, hnew⟩
  · exact ⟨own, h⟩
  have hchild : ∀ {n key i}, k'.live np → n < userPages → Present (k'.entry (k'.dirOf np) n) →
      own' (frame (k'.entry (k'.dirOf np) n)) ≠ .seg key i := by
    intro n key i hl hn hpr e
    rw [(hnew hl).2.2.1 n hn hpr] at e
    cases e
  have hiff : ∀ {key}, key < numOfSegs → ∀ q n, Attachment k' key q n ↔ Attachment k key q n := by
    intro key hk q n
    by_cases e : q = np
    · subst e
      refine ⟨fun ha => ?_, fun ha => absurd ha.live hnl⟩
      have hpos := ha.pos
      have h0 := ha.role ht.inv hk (i := 0) (by omega)
      exact absurd h0 (hchild ha.live ha.lt (ha.maps 0 (by omega)).1)
    · exact attachment_iff (ht.apart q e) hseg
  refine ⟨own', h.transfer ht.inv (hseg.rows h.rows) hiff (fun q => ?_) (by rw [hshm])⟩
  by_cases e : q = np
  · subst e
    exact fun n key i hq hn hpr hown => absurd hown (hchild hq hn hpr)
  · exact (ht.apart q e).mappedBefore h.inv.wf ht.inv.wf hseg

theorem Counted.shmget {key : ℤ} {size : ℕ} {junk : ℤ}
    (hr : Vm.shmget k key size flg junk = .ok (r, k')) (hrow : Rows k') : ∃ own', Counted k' own' := by
  have hua := userPages_le
  obtain ⟨own', hw, ht⟩ := shmget_taken h.inv.wf hr
  have hs := fun q => h.inv.sameSpace (ht.spared h.inv.wf) (q := q) (.of_eq (by rw [ht.proc]))
  have hi := (h.inv.spared hw (ht.spared h.inv.wf) (fun q => (hs q).toSameProc) initproc).inv
  have hrole : ∀ {q n}, k.live q → n < userPages → Present (k.entry (k.dirOf q) n) →
      own' (frame (k.entry (k.dirOf q) n)) = own (frame (k.entry (k.dirOf q) n)) := by
    intro q n hq hn hpr
    refine ht.role _ fun e => ?_
    rcases h.inv.wf.user _ n (h.inv.dir q hq) hn hpr with e' | ⟨_, _, e'⟩ <;> rw [e] at e' <;> cases e'
  have hsegs : ∀ {key i v}, own v = .seg key i → own' v = .seg key i ∧
      k'.shm.pages key = k.shm.pages key := by
    intro key i v e
    refine ⟨by rw [ht.role v (by simp [e]), e], (ht.pages key).resolve_right fun h0 => ?_⟩
    have := (h.inv.wf.seg v key i).mp e
    omega
  have hiff : ∀ {key}, key < numOfSegs → ∀ q n, Attachment k' key q n ↔ Attachment k key q n := by
    intro key hk q n
    constructor
    · intro ha
      have hq := (hs q).live.mp ha.live
      have hpos := ha.pos
      have hroom := ha.room
      have hown : ∀ i < (k'.shm.pages key).toNat, Present (k.entry (k.dirOf q) (n + i)) ∧
          own (frame (k.entry (k.dirOf q) (n + i))) = .seg key i := fun i hlt => by
        have h1 := (ha.maps i hlt).1
        have h2 := ha.role hi hk hlt
        rw [(hs q).pgdir, (hs q).entry hq (n + i) (by omega)] at h1 h2
        rw [hrole hq (by omega) h1] at h2
        exact ⟨h1, h2⟩
      have hpg := (hsegs (hown 0 (by omega)).2).2
      exact ha.keep hq hpg.symm fun i hlt _ => ⟨(hown i hlt).1,
        ((h.inv.wf.seg _ _ _).mp (hown i hlt).2).2.2.symm⟩
    · intro ha
      have hpg := (hsegs (ha.role h.inv hk (i := 0) (by have := ha.pos; omega))).2
      refine ha.keep ((hs q).live.mpr ha.live) hpg fun i hlt hn => ?_
      rw [(hs q).pgdir, (hs q).entry ha.live (n + i) (by omega)]
      have h1 := (hsegs (ha.role h.inv hk hlt)).1
      exact ⟨(ha.maps i hlt).1, ((hi.wf.seg _ _ _).mp h1).2.2.symm⟩
  refine ⟨own', h.transfer hi hrow hiff (fun q n key i hq hn hpr hown => ?_) ht.count⟩
  have hq' := (hs q).live.mp hq
  rw [(hs q).pgdir, (hs q).entry hq' n (by omega)] at hpr hown
  exact ⟨hq', hpr, hrole hq' hn hpr ▸ hown⟩

/-- `shmdel` removes only segments without attachments. -/
theorem Counted.deletes (hd : Deletes k shmid key) : key < numOfSegs ∧ Unmapped k key := by
  have hk := (find_some hd.1).1
  have hc := h.count key hk
  have := hd.2.1
  exact ⟨hk, (h.unmapped_iff hk hd.2.2).mpr (by omega)⟩

theorem Counted.shmdel (hr : Vm.shmdel k shmid = .ok (r, k')) (hrow : Rows k') : ∃ own', Counted k' own' := by
  have hua := userPages_le
  obtain ⟨own', hi, hs, hrole⟩ := shmdel_inv h.inv h.rows (fun key hdel q hq n hn hpr i e => by
    obtain ⟨hk, hun⟩ := h.deletes hdel
    obtain ⟨j, hj, e'⟩ := (h.inv.wf.seg_iff hk).mp ⟨i, e⟩
    exact hun q hq n hn hpr j hj e'.symm) hr
  rcases shmdel_ok h.inv.wf h.rows hr with ⟨rfl, _⟩ | ⟨key, hdel, _, hseg, hpages, hcount, _⟩
  · exact ⟨own, h⟩
  obtain ⟨hk, hun⟩ := h.deletes hdel
  have hzero : ∀ q n, ¬ Attachment k key q n := attachments_eq_zero.mp ((h.unmapped_iff hk hdel.2.2).mp hun)
  have hother : ∀ key' ≠ key, k'.shm.pages key' = k.shm.pages key' := fun key' hne => by
    rw [hpages, update_of_ne hne]
  have hself : k'.shm.pages key = 0 := by rw [hpages, update_self]
  have hiff : ∀ key' q n, Attachment k' key' q n ↔ Attachment k key' q n := by
    intro key' q n
    by_cases e : key' = key
    · subst e
      refine ⟨fun ha => ?_, fun ha => absurd ha (hzero q n)⟩
      have := ha.pos
      omega
    · constructor
      · intro ha
        have hq := (hs q).live.mp ha.live
        refine ha.keep hq (hother key' e).symm fun i hlt hn => ?_
        have := ha.maps i hlt
        rwa [(hs q).pgdir, (hs q).entry hq (n + i) (by omega), hseg] at this
      · intro ha
        refine ha.keep ((hs q).live.mpr ha.live) (hother key' e) fun i hlt hn => ?_
        rw [(hs q).pgdir, (hs q).entry ha.live (n + i) (by omega), hseg]
        exact ha.maps i hlt
  refine ⟨own', h.transfer hi hrow (fun _ => hiff _) (fun q n key' i hq hn hpr hown => ?_) hcount⟩
  have hq' := (hs q).live.mp hq
  rw [(hs q).pgdir, (hs q).entry hq' n (by omega)] at hpr hown
  refine ⟨hq', hpr, ?_⟩
  rcases hrole (frame (k.entry (k.dirOf q) n)) with e | ⟨_, _, _, _, e⟩
  · rw [← e, hown]
  · rw [hown] at e
    cases e

end

/-! ### Runs -/

theorem Counted.step {o : Op} (h : Counted k own) (ho : CountOk k o) (hs : Vm.step k o = some k') :
    ∃ own', Counted k' own' := by
  have hrow := h.rows.step hs
  unfold Vm.step at hs
  split_ifs at hs with hc
  obtain ⟨hmay, hadm⟩ := hc
  have hcall := toOption_some hs
  cases o with
  | growproc p n => exact absurd ho id
  | fork p =>
    obtain ⟨⟨r, k1⟩, e, rfl⟩ := map_ok hcall
    exact h.fork (live_of_mayCall hmay rfl) e
  | exec p img => exact absurd ho id
  | exit p => exact h.exit (live_of_mayCall hmay rfl) hcall
  | wait p => exact absurd ho id
  | swapOut p opened writes => exact absurd ho id
  | swapIn t opened data => exact absurd ho id
  | shmget p key size flg junk =>
    obtain ⟨⟨r, k1⟩, e, rfl⟩ := map_ok hcall
    exact h.shmget e hrow
  | shmat p shmid flg =>
    obtain ⟨⟨r, k1⟩, e, rfl⟩ := map_ok hcall
    exact h.shmat (live_of_mayCall hmay rfl) ho e
  | shmdt p a =>
    obtain ⟨⟨r, k1⟩, e, rfl⟩ := map_ok hcall
    exact h.shmdt (live_of_mayCall hmay rfl) ho hadm e
  | shmdel p shmid =>
    obtain ⟨⟨r, k1⟩, e, rfl⟩ := map_ok hcall
    exact h.shmdel e hrow
  | store p va w =>
    obtain ⟨hw, hs, hm⟩ := store_call h.inv (live_of_mayCall hmay rfl) hcall
    have hq : ∀ q, SameProc q k k' := fun q => .of_eq (by rw [hm.proc])
    exact ⟨own, h.congr (h.inv.spared hw hs hq p).inv (fun q => h.inv.sameSpace hs (hq q))
      hm.sameSegs (by rw [hm.shm])⟩

theorem counted_boot : Counted boot bootOwn := by
  refine ⟨inv_boot, Reachable.rows (.refl boot : Reachable Always boot),
    fun q n key i _ _ _ hown => ?_, fun key _ => ?_⟩
  · obtain ⟨_, h, _⟩ := (inv_boot.wf.seg _ _ _).mp hown
    have h0 : boot.shm.pages key = 0 := rfl
    omega
  · have h0 : attachments boot key = 0 := attachments_eq_zero.mpr fun q n ha => by
      have := ha.pos
      exact absurd this (by show ¬ (0 : ℤ) < 0; decide)
    rw [h0]
    rfl

theorem Reachable.counted (h : Reachable CountOk k) : ∃ own, Counted k own :=
  h.invariant (I := fun k => ∃ own, Counted k own) (fun _ _ _ ⟨_, h⟩ ho hs => h.step ho hs)
    ⟨bootOwn, counted_boot⟩

/-- `shmdel` of the id of a segment that no smaller key names. -/
theorem Counted.shmdel_iff (h : Counted k own) (hk : key < numOfSegs) (hp : 0 < k.shm.pages key)
    (hfirst : ∀ j < key, toInt (k.shm.seg j 0) ≠ toInt (k.shm.seg key 0)) :
    (∃ r k', Vm.shmdel k (toInt (k.shm.seg key 0)) = .ok (r, k') ∧ r ≠ -1 ∧ k'.shm.pages key = 0) ↔
      Unmapped k key := by
  have hfind : (k.shm.find fun v => decide (toInt (k.shm.seg key 0) = toInt v)) = some key := by
    refine List.find?_range_eq_some.mpr ⟨by simp, List.mem_range.mpr hk, fun j hj => ?_⟩
    simpa using (hfirst j hj).symm
  constructor
  · rintro ⟨r, k', hr, _, hzero⟩
    rcases shmdel_ok h.inv.wf h.rows hr with ⟨rfl, _⟩ | ⟨key', hdel, _⟩
    · omega
    · have e : key' = key := some.inj (hdel.1.symm.trans hfind)
      subst e
      exact (h.deletes hdel).2
  · intro hun
    have hc := h.count key hk
    rw [(h.unmapped_iff hk hp).mp hun] at hc
    have hrow := h.rows key
    obtain ⟨k', e1, _, _, e2, _⟩ := delLoop_pages (k := k)
      (n := (k.shm.pages key).toNat) (j := 0) (by omega) fun i _ hi => h.inv.wf.page _ (by
        rw [h.inv.wf.seg_own hfind (by omega)]
        simp)
    refine ⟨k.shm.pages key, k', ?_, by omega, ?_⟩
    · unfold Vm.shmdel
      rw [hfind]
      dsimp only
      rw [if_neg (by omega), e1]
      rfl
    · rw [e2, update_self]
      omega

/-- **Reference counting.**  In every run of these calls in which `shmat` succeeds whenever it
counts, the counter of a segment is the number of its attachments; and `shmdel` of a segment whose
id no smaller key names succeeds exactly if no process maps it. -/
theorem attachments_counted (h : Reachable CountOk k) (hk : key < numOfSegs) (hp : 0 < k.shm.pages key) :
    k.shm.count key = attachments k key ∧
      ((∀ j < key, toInt (k.shm.seg j 0) ≠ toInt (k.shm.seg key 0)) →
        ((∃ r k', shmdel k (toInt (k.shm.seg key 0)) = .ok (r, k') ∧ r ≠ -1 ∧
          k'.shm.pages key = 0) ↔ Unmapped k key)) := by
  obtain ⟨own, hc⟩ := h.counted
  exact ⟨hc.count key hk, hc.shmdel_iff hk hp⟩

/-- A process of one page may attach a segment of one page. -/
theorem CountOk.shmat_one (hpid : (k.proc p).pid < 64) (hflg : (shmPerm flg).isSome = true)
    (hsz : (k.proc p).sz = 4096) (hpde : Present (k.mem (k.dirOf p) 0))
    (hone : ∀ key < numOfSegs, Attaches k p shmid key → (k.shm.pages key).toNat = 1) :
    CountOk k (.shmat p shmid flg) := by
  refine ⟨hpid, fun key hk ha => ?_⟩
  have htop : k.topPage p = 1 := by rw [Kernel.topPage, hsz]
  have hempty : missingTables k (k.dirOf p) 1 2 = ∅ := by
    refine filter_eq_empty_iff.mpr fun x hx => ?_
    obtain ⟨m, hm, rfl⟩ := mem_image.mp hx
    have hm' := mem_Ico.mp hm
    rw [show m / 1024 = 0 by omega]
    exact not_not.mpr hpde
  rw [htop, hone key hk ha, hempty]
  exact ⟨hflg, by decide, Nat.zero_le _⟩

/-- After init has attached a segment of one page. -/
theorem attachments_counted_one : ∃ k, Reachable CountOk k ∧ 0 < k.shm.pages 7 ∧
    attachments k 7 = 1 := by
  have htest : (step boot (.shmget initproc 7 4096 CREAT 0)).map (fun k => decide
      ((k.proc initproc).pid < 64 ∧ (k.proc initproc).sz = 4096 ∧
        Present (k.mem (k.dirOf initproc) 0) ∧
        ∀ key < numOfSegs, Attaches k initproc (toInt (top 134)) key →
          (k.shm.pages key).toNat = 1) &&
      decide ((step k (.shmat initproc (toInt (top 134)) SHM_RDWR)).map (fun k =>
        decide (0 < k.shm.pages 7 ∧ k.shm.count 7 = 1)) = some true)) = some true := by
    decide +kernel
  obtain ⟨k1, hs1, ht1⟩ := map_eq_some_iff.mp htest
  obtain ⟨h1, h2⟩ := Bool.and_eq_true_iff.mp ht1
  obtain ⟨hpid, hsz, hpde, hone⟩ := of_decide_eq_true h1
  obtain ⟨k2, hs2, ht2⟩ := map_eq_some_iff.mp (of_decide_eq_true h2)
  obtain ⟨hpos, hcount⟩ := of_decide_eq_true ht2
  have hk : Reachable CountOk k2 := ((Reaches.refl boot).snoc trivial hs1).snoc
    (.shmat_one hpid (by decide) hsz hpde hone) hs2
  have hcnt := (attachments_counted hk (by decide) hpos).1
  rw [hcount] at hcnt
  exact ⟨k2, hk, hpos, by exact_mod_cast hcnt.symm⟩

/-- `shmat` with a flag that is not one of the two counts an attachment that does not exist; the
segment can then not be deleted. -/
theorem shmat_flag_counts : ∃ k, Reachable Always k ∧ 0 < k.shm.pages 7 ∧ k.shm.count 7 = 1 ∧
    attachments k 7 = 0 := by
  have htest : (step boot (.shmget initproc 7 4096 CREAT 0)).map (fun k => decide
      ((k.proc initproc).state = .running ∧ 0 < k.shm.pages 7 ∧ k.shm.count 7 = 0) &&
      decide ((step k (.shmat initproc (toInt (top 134)) 0)).map (fun k =>
        decide (0 < k.shm.pages 7 ∧ k.shm.count 7 = 1)) = some true)) = some true := by
    decide +kernel
  obtain ⟨k1, hs1, ht1⟩ := map_eq_some_iff.mp htest
  obtain ⟨h1, h2⟩ := Bool.and_eq_true_iff.mp ht1
  obtain ⟨hrun, hpos1, hcount1⟩ := of_decide_eq_true h1
  obtain ⟨k2, hs2, ht2⟩ := map_eq_some_iff.mp (of_decide_eq_true h2)
  obtain ⟨hpos, hcount⟩ := of_decide_eq_true ht2
  have hk1 : Reachable CountOk k1 := (Reaches.refl boot).snoc (by trivial) hs1
  obtain ⟨own, hc⟩ := hk1.counted
  have hzero : attachments k1 7 = 0 := by
    have := hc.count 7 (by decide)
    omega
  refine ⟨k2, ((Reaches.refl boot).snoc trivial hs1).snoc trivial hs2, hpos, hcount, ?_⟩
  unfold step at hs2
  split_ifs at hs2
  obtain ⟨⟨r, k3⟩, e, rfl⟩ := map_ok (toOption_some hs2)
  have hl : k1.live initproc := by simp [Kernel.live, hrun]
  rcases shmat_cases hc.inv hl e with ⟨rfl, _⟩ | ⟨key, _, _, ⟨_, rfl⟩ | ⟨perm, _, _, hperm, _⟩⟩
  · exact hzero
  · rw [← hzero]
    exact attachments_congr fun q n => attachment_iff
      ⟨noted_sameProc initproc q key 1 1, fun _ m _ => by rw [noted_entry], fun _ => rfl⟩
      (.noted _ _ _ _ _)
  · cases hperm

end

end Xv6.Vm
