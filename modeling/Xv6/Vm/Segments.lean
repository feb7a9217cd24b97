import Mathlib.Tactic.Ring
import Xv6.Lib.Runs
import Xv6.Lib.Table
import Xv6.Vm.Boot

/-! # The segment table as a map from keys to segments

`segment k` is the map the table stands for: a key has a segment when its page count is positive.
`CreatSpec`, `GetSpec` and `DelSpec` say what the calls should do in terms of the map and of the
set of free pages. In every run of `shmget` and `shmdel` with any other use of the allocator the
first two hold. `shmdel` looks for its argument among the first pages of all keys, and the entries
of a deleted segment are never cleared; so it does what it should exactly if the first key that
names this page has a segment (`DelOk`). -/

namespace Xv6.Vm

open Runs Table Fallible Function List Option

/-- The segment of a key: its pages in order. -/
def Kernel.segment (k : Kernel) (key : ℕ) : Option (List ℕ) :=
  if key < numOfSegs ∧ 0 < k.shm.pages key then
    some ((range' 0 (k.shm.pages key).toNat).map (k.shm.seg key))
  else none

/-- The id of a segment. -/
def segId (l : List ℕ) : ℤ := toInt (l.headD 0)

/-- Calls on the segment table, and any other use of the allocator: others give back pages that
are neither free nor part of a segment. -/
inductive SegOp where
  | creat (key size : ℕ)
  | get (key : ℕ)
  | del (shmid : ℤ)
  | kalloc
  | kfree (v : ℕ)

def segStep (k : Kernel) : SegOp → Option Kernel
  | .creat key size =>
    if key < numOfSegs ∧ 1 ≤ size ∧ size ≤ numOfSegs * PGSIZE then
      ((shmget k key size CREAT 0).map Prod.snd).toOption
    else none
  | .get key => if key < numOfSegs then ((shmget k key 0 GET 0).map Prod.snd).toOption else none
  | .del shmid => ((shmdel k shmid).map Prod.snd).toOption
  | .kalloc => some (Vm.kalloc k).2
  | .kfree v =>
    if v < 2 ^ 32 ∧ v ∉ k.freelist ∧ ∀ key < numOfSegs, ∀ l ∈ k.segment key, v ∉ l then
      (Vm.kfree k v).toOption
    else none

/-! ### What the calls should do -/

/-- `shmget(key, size, CREAT)` adds a segment of fresh pages, if the key has none and there are
enough free pages; otherwise it returns `-1` and changes neither the segments nor the set of free
pages. -/
def CreatSpec (k : Kernel) (key size : ℕ) : Prop :=
  ∃ r k', shmget k key size CREAT 0 = .ok (r, k') ∧
    if k.segment key = none ∧ (size + 4095) / 4096 ≤ k.freelist.length then
      ∃ l, l.length = (size + 4095) / 4096 ∧ r = segId l ∧ r ≠ -1 ∧
        k'.segment = update k.segment key (some l) ∧
        (l ++ k'.freelist).Nodup ∧ ∀ v, v ∈ k.freelist ↔ v ∈ l ∨ v ∈ k'.freelist
    else r = -1 ∧ k'.segment = k.segment ∧ k'.freelist.Nodup ∧
      ∀ v, v ∈ k'.freelist ↔ v ∈ k.freelist

/-- `shmget(key, size, GET)` returns the id of the segment, or `-1`, which is no id. -/
def GetSpec (k : Kernel) (key size : ℕ) : Prop :=
  shmget k key size GET 0 = .ok (((k.segment key).map segId).getD (-1), k) ∧
    ∀ l ∈ k.segment key, segId l ≠ -1

/-- `shmdel(shmid)` removes the segment with this id, returns the number of its pages and frees
them; if there is none, it returns `-1` and changes nothing. -/
def DelSpec (k : Kernel) (shmid : ℤ) : Prop :=
  ∃ r k', shmdel k shmid = .ok (r, k') ∧
    (∀ key l, k.segment key = some l → shmid = segId l →
      r = l.length ∧ k'.segment = update k.segment key none ∧
        k'.freelist.Nodup ∧ ∀ v, v ∈ k'.freelist ↔ v ∈ l ∨ v ∈ k.freelist) ∧
    ((∀ key l, k.segment key = some l → shmid ≠ segId l) → r = -1 ∧ k' = k)

/-- A key without a segment that still names the first page is preceded by one with it. -/
def DelOk (k : Kernel) (shmid : ℤ) : Prop :=
  ∀ key < numOfSegs, shmid = toInt (k.shm.seg key 0) → k.segment key = none →
    ∃ key' < key, shmid = toInt (k.shm.seg key' 0) ∧ k.segment key' ≠ none

instance (k : Kernel) (shmid : ℤ) : Decidable (DelOk k shmid) := by
  unfold DelOk
  infer_instance

/-! ### The invariant -/

structure SegInv (k : Kernel) : Prop where
  nodup : k.freelist.Nodup
  free : ∀ v ∈ k.freelist, Page v
  range : ∀ key, 0 ≤ k.shm.pages key ∧ k.shm.pages key ≤ numOfSegs
  count : ∀ key, k.shm.count key = 0
  page : ∀ key l v, k.segment key = some l → v ∈ l → Page v ∧ v ∉ k.freelist
  apart : ∀ key key' l l' v, k.segment key = some l → k.segment key' = some l' → v ∈ l → v ∈ l' →
    key = key'
  distinct : ∀ key l, k.segment key = some l → l.Nodup

section
variable {k k' : Kernel} {key : ℕ} {l : List ℕ}

theorem segment_some (h : k.segment key = some l) :
    key < numOfSegs ∧ 0 < k.shm.pages key ∧ l.length = (k.shm.pages key).toNat ∧
      l = (range' 0 (k.shm.pages key).toNat).map (k.shm.seg key) := by
  unfold Kernel.segment at h
  split_ifs at h with hc
  obtain rfl := (some.inj h).symm
  exact ⟨hc.1, hc.2, by simp, rfl⟩

theorem segment_none (hk : key < numOfSegs) (hr : 0 ≤ k.shm.pages key) :
    k.segment key = none ↔ k.shm.pages key = 0 := by
  unfold Kernel.segment
  by_cases h : 0 < k.shm.pages key
  · simp [hk, h, h.ne']
  · simp only [h, and_false, if_false, true_iff]
    omega

/-- The id of a segment is what the table holds for its first page. -/
theorem segment_id (h : k.segment key = some l) : segId l = toInt (k.shm.seg key 0) ∧ k.shm.seg key 0 ∈ l := by
  obtain ⟨_, hp, _, rfl⟩ := segment_some h
  obtain ⟨n, hn⟩ : ∃ n, (k.shm.pages key).toNat = n + 1 := ⟨(k.shm.pages key).toNat - 1, by omega⟩
  rw [hn]
  simp [segId, range'_succ]

/-! ### The loops -/

/-- `shm` after the pages of a list have become the pages of `key` from `i` on. -/
def Shm.withRow (s : Shm) (key : ℕ) (row : ℕ → ℕ) : Shm :=
  { s with seg := update s.seg key row }

theorem Shm.withRow_self (s : Shm) (key : ℕ) (row : ℕ → ℕ) : (s.withRow key row).seg key = row :=
  update_self _ _ _

theorem Shm.withRow_of_ne (s : Shm) {key' : ℕ} (row : ℕ → ℕ) (h : key' ≠ key) :
    (s.withRow key row).seg key' = s.seg key' :=
  update_of_ne h _ _

/-- With enough free pages the loop of `shmget` takes the first ones. -/
theorem creatLoop_enough {n i : ℕ} (hi : i + n ≤ numOfSegs) (hn : n ≤ k.freelist.length) :
    creatLoop key n i k = .ok ((true, i + n), { k with
      freelist := k.freelist.drop n
      shm := k.shm.withRow key (fill (k.shm.seg key) i (k.freelist.take n)) }) := by
  induction n generalizing i k with
  | zero => simp [creatLoop, Shm.withRow, fill]
  | succ n ih =>
    obtain ⟨v, l, hl⟩ := exists_cons_of_length_pos (l := k.freelist) (by omega)
    have hlen : n ≤ l.length := by
      rw [hl, length_cons] at hn
      omega
    unfold creatLoop
    rw [kalloc_cons hl]
    simp only [getD_some]
    rw [if_pos (by omega), ih (by omega) hlen]
    simp only [hl, drop_succ_cons, take_succ_cons, fill, Shm.withRow,
      Kernel.setSeg, Shm.setSeg, update_self, update_idem]
    congr 3
    omega

/-- Otherwise it takes all of them and writes a null pointer after the last. -/
theorem creatLoop_short {n i : ℕ} (hn : k.freelist.length < n) (hi : i + k.freelist.length < numOfSegs) :
    creatLoop key n i k = .ok ((false, i + k.freelist.length), { k with
      freelist := []
      shm := k.shm.withRow key (update (fill (k.shm.seg key) i k.freelist)
        (i + k.freelist.length) 0) }) := by
  induction n generalizing i k with
  | zero => omega
  | succ n ih =>
    unfold creatLoop
    cases hl : k.freelist with
    | nil =>
      rw [kalloc_nil hl]
      rw [hl] at hi
      simp only [getD_none]
      rw [if_pos (by simpa using hi)]
      simp [fill, Shm.withRow, Kernel.setSeg, Shm.setSeg, hl]
    | cons v l =>
      rw [hl, length_cons] at hn hi
      rw [kalloc_cons hl]
      simp only [getD_some]
      rw [if_pos (by omega), ih (by simpa using hn) (by simp; omega)]
      simp only [length_cons, fill, Shm.withRow, Kernel.setSeg, Shm.setSeg,
        update_self, update_idem]
      have e : i + 1 + l.length = i + (l.length + 1) := by omega
      rw [e]

theorem undoLoop_pages {n j : ℕ} (hp : ∀ i, j ≤ i → i < j + n → Page (k.shm.seg key i)) :
    ∃ k', undoLoop key n j k = .ok k' ∧ k'.shm = k.shm ∧
      k'.freelist = ((range' j n).map (k.shm.seg key)).reverse ++ k.freelist ∧
      ∀ v, (∀ i, j ≤ i → i < j + n → v ≠ k.shm.seg key i) → k'.mem v = k.mem v := by
  induction n generalizing j k with
  | zero => exact ⟨k, rfl, rfl, by simp, fun _ _ => rfl⟩
  | succ n ih =>
    have hj := hp j (le_refl _) (by omega)
    obtain ⟨k', h1, h2, h3, h4⟩ := ih (k := k.freed (k.shm.seg key j)) (j := j + 1)
      fun i h1 h2 => hp i (by omega) (by omega)
    refine ⟨k', ?_, h2, ?_, fun v hv => ?_⟩
    · unfold undoLoop
      rw [kfree_page hj]
      exact h1
    · rw [h3, range'_succ]
      simp
    · rw [h4 v fun i hi hi' => hv i (by omega) (by omega),
        k.freed_mem_of_ne (hv j (le_refl _) (by omega))]

theorem delLoop_pages {n j : ℕ} (hn : j + n ≤ numOfSegs)
    (hp : ∀ i, j ≤ i → i < j + n → Page (k.shm.seg key i)) :
    ∃ k', delLoop key n j k = .ok k' ∧ k'.shm.seg = k.shm.seg ∧ k'.shm.count = k.shm.count ∧
      k'.shm.pages = update k.shm.pages key (k.shm.pages key - n) ∧
      k'.freelist = ((range' j n).map (k.shm.seg key)).reverse ++ k.freelist ∧
      ∀ v, (∀ i, j ≤ i → i < j + n → v ≠ k.shm.seg key i) → k'.mem v = k.mem v := by
  induction n generalizing j k with
  | zero => exact ⟨k, rfl, rfl, rfl, by simp, by simp, fun _ _ => rfl⟩
  | succ n ih =>
    have hj := hp j (le_refl _) (by omega)
    obtain ⟨k', h1, h2, h3, h4, h5, h6⟩ := ih
      (k := (k.freed (k.shm.seg key j)).setRefs key 1 64 (k.shm.pages key - 1)) (j := j + 1)
      (by omega) fun i h1 h2 => hp i (by omega) (by omega)
    refine ⟨k', ?_, h2, by simpa using h3, ?_, ?_, fun v hv => ?_⟩
    · unfold delLoop
      rw [if_pos (by omega), kfree_page hj]
      exact h1
    · rw [h4]
      simp only [setRefs_pages, Kernel.freed_shm, update_self, update_idem]
      congr 1
      push_cast
      ring
    · rw [h5, range'_succ]
      simp
    · rw [h6 v fun i hi hi' => hv i (by omega) (by omega)]
      exact k.freed_mem_of_ne (hv j (le_refl _) (by omega))

theorem segment_update {row : ℕ → ℕ} {x : ℤ} (hseg : k'.shm.seg = update k.shm.seg key row)
    (hp : k'.shm.pages = update k.shm.pages key x) :
    k'.segment = update k.segment key
      (if key < numOfSegs ∧ 0 < x then some ((range' 0 x.toNat).map row) else none) := by
  funext j
  rw [Kernel.segment, hseg, hp]
  by_cases h : j = key
  · subst h; simp
  · simp [h, Kernel.segment]

/-! ### The calls -/

theorem SegInv.seg_page (h : SegInv k) {key l i} (hs : k.segment key = some l)
    (hi : i < (k.shm.pages key).toNat) : Page (k.shm.seg key i) ∧ k.shm.seg key i ∈ l := by
  obtain ⟨_, _, _, rfl⟩ := segment_some hs
  have hm : k.shm.seg key i ∈ (range' 0 (k.shm.pages key).toNat).map (k.shm.seg key) :=
    mem_map_of_mem (by simpa using hi)
  exact ⟨(h.page key _ _ hs hm).1, hm⟩

/-- Removing a segment or its key's stale entries keeps the invariant, with the pages freed. -/
theorem SegInv.remove (h : SegInv k) (hl : ∀ v ∈ l, Page v)
    (hnd : (l ++ k.freelist).Nodup) (hother : ∀ j m v, j ≠ key → k.segment j = some m → v ∈ m → v ∉ l)
    (hseg : k'.segment = update k.segment key none)
    (hrange : ∀ j, 0 ≤ k'.shm.pages j ∧ k'.shm.pages j ≤ numOfSegs)
    (hcount : k'.shm.count = k.shm.count) (hfree : k'.freelist = l ++ k.freelist) : SegInv k' := by
  have hsome : ∀ j m, k'.segment j = some m → j ≠ key ∧ k.segment j = some m := by
    intro j m hj
    rw [hseg] at hj
    by_cases e : j = key
    · subst e; simp at hj
    · exact ⟨e, by simpa [e] using hj⟩
  refine ⟨hfree ▸ hnd, fun v hv => ?_, hrange, fun j => by rw [hcount]; exact h.count j,
    fun j m v hj hv => ?_, fun j j' m m' v hj hj' hv hv' => ?_, fun j m hj => ?_⟩
  · rw [hfree, mem_append] at hv
    rcases hv with hv | hv
    · exact hl v hv
    · exact h.free v hv
  · obtain ⟨hne, hj⟩ := hsome j m hj
    obtain ⟨h1, h2⟩ := h.page j m v hj hv
    refine ⟨h1, ?_⟩
    rw [hfree, mem_append]
    rintro (e | e)
    · exact hother j m v hne hj hv e
    · exact h2 e
  · exact h.apart j j' m m' v (hsome j m hj).2 (hsome j' m' hj').2 hv hv'
  · exact h.distinct j m (hsome j m hj).2

/-- A new segment takes its pages from the free list. -/
theorem SegInv.add (h : SegInv k) (hnd : (l ++ k'.freelist).Nodup)
    (hmem : ∀ v, v ∈ k.freelist ↔ v ∈ l ∨ v ∈ k'.freelist)
    (hseg : k'.segment = update k.segment key (some l))
    (hrange : ∀ j, 0 ≤ k'.shm.pages j ∧ k'.shm.pages j ≤ numOfSegs)
    (hcount : k'.shm.count = k.shm.count) : SegInv k' := by
  obtain ⟨hnd1, hnd2, hdisj⟩ := nodup_append.mp hnd
  have hsome : ∀ j m, k'.segment j = some m → j = key ∧ m = l ∨ j ≠ key ∧ k.segment j = some m := by
    intro j m hj
    rw [hseg] at hj
    by_cases e : j = key
    · subst e
      simp only [update_self, some.injEq] at hj
      exact .inl ⟨rfl, hj.symm⟩
    · exact .inr ⟨e, by simpa [e] using hj⟩
  have hold : ∀ j m v, k.segment j = some m → v ∈ m → v ∉ l := fun j m v hj hv hvl =>
    (h.page j m v hj hv).2 ((hmem v).mpr (.inl hvl))
  refine ⟨hnd2, fun v hv => h.free v ((hmem v).mpr (.inr hv)), hrange,
    fun j => by rw [hcount]; exact h.count j, fun j m v hj hv => ?_,
    fun j j' m m' v hj hj' hv hv' => ?_, fun j m hj => ?_⟩
  · rcases hsome j m hj with ⟨rfl, rfl⟩ | ⟨_, hj⟩
    · exact ⟨h.free v ((hmem v).mpr (.inl hv)), fun e => hdisj v hv v e rfl⟩
    · obtain ⟨h1, h2⟩ := h.page j m v hj hv
      exact ⟨h1, fun e => h2 ((hmem v).mpr (.inr e))⟩
  · rcases hsome j m hj with ⟨rfl, rfl⟩ | ⟨_, hj⟩ <;> rcases hsome j' m' hj' with ⟨rfl, rfl⟩ | ⟨_, hj'⟩
    · rfl
    · exact absurd hv (hold j' m' v hj' hv')
    · exact absurd hv' (hold j m v hj hv)
    · exact h.apart j j' m m' v hj hj' hv hv'
  · rcases hsome j m hj with ⟨rfl, rfl⟩ | ⟨_, hj⟩
    · exact hnd1
    · exact h.distinct j m hj

theorem shmget_creat (hk : key < numOfSegs) (size : ℕ) : shmget k key size CREAT 0 = shmcreat k key size := by
  have hk' : key < 100 := hk
  unfold shmget
  rw [if_neg (by omega), if_pos rfl, Int.toNat_natCast]

theorem pages_of_size {size : ℕ} (hs : 1 ≤ size ∧ size ≤ numOfSegs * PGSIZE) :
    pgRoundUp size / PGSIZE = (size + 4095) / 4096 ∧ 1 ≤ (size + 4095) / 4096 ∧
      (size + 4095) / 4096 ≤ numOfSegs := by
  obtain ⟨h1, h2⟩ := hs
  have h2' : size ≤ 409600 := h2
  unfold pgRoundUp u32 PGSIZE numOfSegs
  omega

theorem SegInv.reorder (h : SegInv k) (hseg : k'.segment = k.segment)
    (hpages : k'.shm.pages = k.shm.pages) (hcount : k'.shm.count = k.shm.count)
    (hfree : k'.freelist.Perm k.freelist) : SegInv k' := by
  refine ⟨hfree.nodup_iff.mpr h.nodup, fun v hv => h.free v (hfree.mem_iff.mp hv),
    fun j => by rw [hpages]; exact h.range j, fun j => by rw [hcount]; exact h.count j, ?_, ?_, ?_⟩
  · rw [hseg]
    intro j l v hj hv
    rw [hfree.mem_iff]
    exact h.page j l v hj hv
  · rw [hseg]
    exact h.apart
  · rw [hseg]
    exact h.distinct

section creat
variable {key size : ℕ} (hk : key < numOfSegs) (hs : 1 ≤ size ∧ size ≤ numOfSegs * PGSIZE)
include hk hs

/-- Creation with enough free pages takes the first ones. -/
theorem SegInv.creat_enough (h : SegInv k) (hp : k.shm.pages key = 0)
    (hlen : (size + 4095) / 4096 ≤ k.freelist.length) :
    ∃ k' l, shmcreat k key size = .ok (segId l, k') ∧ SegInv k' ∧
      l.length = (size + 4095) / 4096 ∧ l ++ k'.freelist = k.freelist ∧
      k'.segment = update k.segment key (some l) := by
  obtain ⟨hn, hn1, hn2⟩ := pages_of_size hs
  rw [shmcreat, if_neg (by omega), if_pos hp, hn]
  generalize (size + 4095) / 4096 = n at hn1 hn2 hlen
  dsimp only
  rw [creatLoop_enough (by omega) hlen]
  set l := k.freelist.take n with hl
  have hll : l.length = n := by rw [hl, length_take]; omega
  have hrow : (range' 0 n).map (fill (k.shm.seg key) 0 l) = l := by
    rw [← hll]
    exact map_fill _ _ _
  set k' : Kernel := Kernel.setRefs { k with
    freelist := k.freelist.drop n
    shm := k.shm.withRow key (fill (k.shm.seg key) 0 l) } key 1 64 n with hk'
  have hseg : k'.segment = update k.segment key (some l) := by
    rw [segment_update (k := k) (x := n) rfl
      (by rw [hk', setRefs_pages]; rfl), if_pos ⟨hk, by omega⟩, Int.toNat_natCast, hrow]
  have hfree : l ++ k'.freelist = k.freelist := take_append_drop n k.freelist
  have hid : segId l = toInt (k'.shm.seg key 0) ∧ k'.shm.seg key 0 ∈ l :=
    segment_id (by rw [hseg, update_self])
  refine ⟨k', l, ?_, ?_, hll, hfree, hseg⟩
  · rw [hid.1]
    rfl
  · refine h.add (hfree ▸ h.nodup) (fun v => by rw [← hfree, mem_append]) hseg (fun j => ?_)
      (by rw [hk', setRefs_count]; rfl)
    rw [hk', setRefs_pages]
    by_cases e : j = key
    · subst e
      simp only [update_self]
      omega
    · rw [update_of_ne e]
      exact h.range j

/-- Without enough free pages those taken are given back, in reverse order. -/
theorem SegInv.creat_short (h : SegInv k) (hp : k.shm.pages key = 0)
    (hlen : k.freelist.length < (size + 4095) / 4096) :
    ∃ k', shmcreat k key size = .ok (-1, k') ∧ SegInv k' ∧
      k'.freelist = k.freelist.reverse ∧ k'.segment = k.segment := by
  obtain ⟨hn, hn1, hn2⟩ := pages_of_size hs
  rw [shmcreat, if_neg (by omega), if_pos hp, hn]
  generalize (size + 4095) / 4096 = n at hn1 hn2 hlen
  dsimp only
  rw [creatLoop_short hlen (by omega), zero_add]
  set row := update (fill (k.shm.seg key) 0 k.freelist) k.freelist.length 0 with hrw
  set k1 : Kernel := { k with freelist := [], shm := k.shm.withRow key row } with hk1
  have hrow : (range' 0 k.freelist.length).map (k1.shm.seg key) = k.freelist := by
    have e : ∀ j ∈ range' 0 k.freelist.length,
        k1.shm.seg key j = fill (k.shm.seg key) 0 k.freelist j := by
      intro j hj
      have hj' : j < k.freelist.length := by simpa using hj
      simp only [hk1, hrw, Shm.withRow, update_self]
      exact update_of_ne (by omega) _ _
    rw [map_congr_left e]
    exact map_fill _ _ _
  obtain ⟨k', h1, h2, h3, _⟩ := undoLoop_pages (k := k1) (n := k.freelist.length)
    (j := 0) fun i _ hi => h.free _ (by
      rw [← hrow]
      exact mem_map_of_mem (by simpa using hi))
  rw [hrow, show k1.freelist = [] from rfl, append_nil] at h3
  have hseg : k'.segment = k.segment := by
    have hpg : k'.shm.pages = update k.shm.pages key 0 := by
      rw [h2, ← hp, update_eq_self]
      rfl
    rw [segment_update (k := k) (by rw [h2]; rfl) hpg, if_neg (by simp),
      ← (segment_none (k := k) hk (h.range key).1).mpr hp, update_eq_self]
  refine ⟨k', ?_, h.reorder hseg (by rw [h2]; rfl) (by rw [h2]; rfl) ?_, h3, hseg⟩
  · simp only [bind, Except.bind, Bool.false_eq_true, if_false, h1]
  · rw [h3]
    exact reverse_perm _

/-- **`shmget(key, size, CREAT)`** meets its specification. -/
theorem SegInv.creatSpec (h : SegInv k) : CreatSpec k key size := by
  unfold CreatSpec
  rw [shmget_creat hk]
  simp only [segment_none hk (h.range key).1]
  by_cases hp : k.shm.pages key = 0
  · by_cases hlen : (size + 4095) / 4096 ≤ k.freelist.length
    · obtain ⟨k', l, h1, h2, h3, h4, h5⟩ := h.creat_enough hk hs hp hlen
      refine ⟨_, k', h1, ?_⟩
      rw [if_pos ⟨hp, hlen⟩]
      have hid := segment_id (k := k') (by rw [h5, update_self])
      refine ⟨l, h3, rfl, ?_, h5, h4 ▸ h.nodup, fun v => by rw [← h4, mem_append]⟩
      rw [hid.1]
      exact (h.free _ (by rw [← h4]; exact mem_append_left _ hid.2)).toInt_ne
    · obtain ⟨k', h1, h2, h3, h4⟩ := h.creat_short hk hs hp (by omega)
      refine ⟨_, k', h1, ?_⟩
      rw [if_neg fun e => hlen e.2]
      exact ⟨rfl, h4, h2.nodup, fun v => by rw [h3, mem_reverse]⟩
  · refine ⟨-1, k, ?_, ?_⟩
    · rw [shmcreat, if_neg (by omega), if_neg hp]
    · rw [if_neg fun e => hp e.1]
      exact ⟨rfl, rfl, h.nodup, fun v => Iff.rfl⟩

theorem SegInv.creat (h : SegInv k) {r : ℤ} (hc : shmget k key size CREAT 0 = .ok (r, k')) :
    SegInv k' := by
  rw [shmget_creat hk] at hc
  by_cases hp : k.shm.pages key = 0
  · by_cases hlen : (size + 4095) / 4096 ≤ k.freelist.length
    · obtain ⟨k1, l, h1, h2, _⟩ := h.creat_enough hk hs hp hlen
      rw [h1] at hc
      obtain ⟨_, rfl⟩ := pair_ok hc
      exact h2
    · obtain ⟨k1, h1, h2, _⟩ := h.creat_short hk hs hp (by omega)
      rw [h1] at hc
      obtain ⟨_, rfl⟩ := pair_ok hc
      exact h2
  · rw [shmcreat, if_neg (by omega), if_neg hp] at hc
    obtain ⟨_, rfl⟩ := pair_ok hc
    exact h

end creat

/-- **`shmget(key, size, GET)`** meets its specification. -/
theorem SegInv.getSpec (h : SegInv k) (hk : key < numOfSegs) (size : ℕ) : GetSpec k key size := by
  have hk' : key < 100 := hk
  refine ⟨?_, fun l hl => ?_⟩
  swap
  · obtain ⟨e, hm⟩ := segment_id hl
    rw [e]
    exact (h.page key l _ hl hm).1.toInt_ne
  unfold shmget
  rw [if_neg (by omega), if_neg (by decide), if_pos rfl, Int.toNat_natCast, if_neg (by omega)]
  cases hs : k.segment key with
  | none =>
    rw [if_pos ((segment_none hk (h.range key).1).mp hs)]
    rfl
  | some l =>
    have hp := (segment_some hs).2.1
    rw [if_neg (by omega), map_some, getD_some, (segment_id hs).1]

/-! ### Deletion -/

section del
variable {shmid : ℤ} {key : ℕ} (hf : k.shm.find (fun v => decide (shmid = toInt v)) = some key)
include hf

/-- The first key that names the page has a segment: its pages are freed, the last one first. -/
theorem SegInv.del_live (h : SegInv k) (hs : k.segment key = some l) :
    ∃ k', shmdel k shmid = .ok (l.length, k') ∧ SegInv k' ∧
      k'.segment = update k.segment key none ∧ k'.freelist = l.reverse ++ k.freelist := by
  obtain ⟨hk, hp, hlen, hl⟩ := segment_some hs
  have hr := (h.range key).2
  have hn : 0 + (k.shm.pages key).toNat ≤ numOfSegs := by omega
  obtain ⟨k', h1, h2, h3, h4, h5, _⟩ := delLoop_pages hn fun i _ hi =>
    (h.seg_page hs (by omega)).1
  rw [← hl] at h5
  have hseg : k'.segment = update k.segment key none := by
    rw [segment_update (k := k) (by rw [h2, update_eq_self]) h4,
      if_neg (by omega)]
  refine ⟨k', ?_, ?_, hseg, h5⟩
  · have hc := h.count key
    simp only [shmdel, hf]
    rw [if_neg (by omega), h1, hlen, Int.toNat_of_nonneg hp.le]
    rfl
  · have hnd : (l.reverse ++ k.freelist).Nodup := by
      refine nodup_append.mpr ⟨nodup_reverse.mpr (h.distinct key l hs), h.nodup, ?_⟩
      rintro v hv w hw rfl
      exact (h.page key l v hs (mem_reverse.mp hv)).2 hw
    refine h.remove (fun v hv => (h.page key l v hs (mem_reverse.mp hv)).1) hnd ?_ hseg
      (fun j => ?_) h3 h5
    · intro j m v hne hj hv hvl
      exact hne (h.apart j key m l v hj hs hv (mem_reverse.mp hvl))
    · rw [h4]
      by_cases e : j = key
      · subst e
        simp only [update_self]
        omega
      · rw [update_of_ne e]
        exact h.range j

theorem SegInv.del_stale (h : SegInv k) (hs : k.segment key = none) :
    shmdel k shmid = .ok (0, k) := by
  have hc := h.count key
  have hp := (segment_none (find_some hf).1 (h.range key).1).mp hs
  simp only [shmdel, hf]
  rw [if_neg (by omega), hp]
  rfl

end del

theorem SegInv.del_cases (h : SegInv k) (shmid : ℤ) :
    (shmdel k shmid = .ok (-1, k) ∧ ∀ key < numOfSegs, shmid ≠ toInt (k.shm.seg key 0)) ∨
    ∃ key < numOfSegs, shmid = toInt (k.shm.seg key 0) ∧
      (∀ j < key, shmid ≠ toInt (k.shm.seg j 0)) ∧
      ((k.segment key = none ∧ shmdel k shmid = .ok (0, k)) ∨
        ∃ k' l, k.segment key = some l ∧ shmdel k shmid = .ok (l.length, k') ∧ SegInv k' ∧
          k'.segment = update k.segment key none ∧
          k'.freelist = l.reverse ++ k.freelist) := by
  cases hf : k.shm.find (fun v => decide (shmid = toInt v)) with
  | none =>
    refine .inl ⟨by simp only [shmdel, hf], fun key hk => ?_⟩
    simpa using find_none hf hk
  | some key =>
    obtain ⟨h1, h2, h3⟩ := find_some hf
    refine .inr ⟨key, h1, by simpa using h2, fun j hj => by simpa using h3 j hj, ?_⟩
    cases hs : k.segment key with
    | none => exact .inl ⟨rfl, h.del_stale hf hs⟩
    | some l =>
      obtain ⟨k', e1, e2, e3, e4⟩ := h.del_live hf hs
      exact .inr ⟨k', l, rfl, e1, e2, e3, e4⟩

/-- **`shmdel`** meets its specification exactly if the first key that names the page has a
segment. -/
theorem SegInv.delSpec_iff (h : SegInv k) (shmid : ℤ) : DelSpec k shmid ↔ DelOk k shmid := by
  rcases h.del_cases shmid with ⟨e, hno⟩ | ⟨key, hk, hid, hfirst, ⟨hs, e⟩ | ⟨k', l, hs, e, h', hseg, hfree⟩⟩
  · refine ⟨fun _ j hj hji => absurd hji (hno j hj), fun _ => ⟨-1, k, e, ?_, fun _ => ⟨rfl, rfl⟩⟩⟩
    intro j l hj hji
    exact absurd ((segment_id hj).1 ▸ hji) (hno j (segment_some hj).1)
  · refine ⟨fun hd => ?_, fun hok => ?_⟩
    · obtain ⟨r, k', e', h1, h2⟩ := hd
      rw [e] at e'
      obtain ⟨rfl, rfl⟩ := pair_ok e'
      by_cases hex : ∃ j l, k.segment j = some l ∧ shmid = segId l
      · obtain ⟨j, l, hj, hji⟩ := hex
        have hl := (h1 j l hj hji).1
        obtain ⟨_, hp, hlen, _⟩ := segment_some hj
        omega
      · push Not at hex
        exact absurd (h2 hex).1 (by decide)
    · obtain ⟨j, hj, hji, _⟩ := hok key hk hid hs
      exact absurd hji (hfirst j hj)
  · refine ⟨fun _ j hj hji hnone => ?_, fun _ => ⟨_, k', e, ?_, ?_⟩⟩
    · refine ⟨key, ?_, hid, by rw [hs]; exact some_ne_none l⟩
      rcases Nat.lt_trichotomy key j with hlt | rfl | hlt
      · exact hlt
      · rw [hs] at hnone
        cases hnone
      · exact absurd hji (hfirst j hlt)
    · intro j m hj hji
      have hj0 := segment_id hj
      have hk0 := segment_id hs
      have hpg : k.shm.seg j 0 = k.shm.seg key 0 :=
        (h.page j m _ hj hj0.2).1.toInt_inj (h.page key l _ hs hk0.2).1 (by rw [← hj0.1, ← hji, hid])
      obtain rfl := h.apart j key m l _ hj hs hj0.2 (by rw [hpg]; exact hk0.2)
      obtain rfl : m = l := some.inj (hj ▸ hs)
      exact ⟨rfl, hseg, h'.nodup, fun v => by rw [hfree, mem_append, mem_reverse]⟩
    · intro hno
      exact absurd (hid.trans (segment_id hs).1.symm) (hno key l hs)

theorem SegInv.del (h : SegInv k) {shmid r : ℤ} (hd : shmdel k shmid = .ok (r, k')) :
    SegInv k' := by
  rcases h.del_cases shmid with ⟨e, _⟩ | ⟨key, _, _, _, ⟨_, e⟩ | ⟨k1, l, _, e, h', _⟩⟩ <;>
    rw [e] at hd <;> obtain ⟨_, rfl⟩ := pair_ok hd
  · exact h
  · exact h
  · exact h'

/-! ### Other users of the allocator -/

theorem SegInv.kalloc (h : SegInv k) : SegInv (Vm.kalloc k).2 := by
  cases hl : k.freelist with
  | nil =>
    rw [kalloc_nil hl]
    exact h
  | cons v l =>
    rw [kalloc_cons hl]
    have hnd := h.nodup
    rw [hl] at hnd
    have hsub : ∀ w ∈ l, w ∈ k.freelist := fun w hw => by rw [hl]; exact mem_cons_of_mem v hw
    have hseg : ({ k with freelist := l } : Kernel).segment = k.segment := rfl
    refine ⟨(nodup_cons.mp hnd).2, fun w hw => h.free w (hsub w hw), h.range, h.count,
      fun j m w hj hw => ?_, h.apart, h.distinct⟩
    obtain ⟨h1, h2⟩ := h.page j m w hj hw
    exact ⟨h1, fun e => h2 (hsub w e)⟩

theorem SegInv.kfree (h : SegInv k) {v : ℕ} (hp : Page v) (hfree : v ∉ k.freelist)
    (hseg : ∀ key < numOfSegs, ∀ l ∈ k.segment key, v ∉ l) : SegInv (k.freed v) := by
  refine ⟨nodup_cons.mpr ⟨hfree, h.nodup⟩, fun w hw => ?_, h.range, h.count,
    fun j m w hj hw => ?_, h.apart, h.distinct⟩
  · rcases mem_cons.mp hw with rfl | hw
    · exact hp
    · exact h.free w hw
  · obtain ⟨h1, h2⟩ := h.page j m w hj hw
    refine ⟨h1, fun e => ?_⟩
    rcases mem_cons.mp e with rfl | e
    · exact hseg j (segment_some (k := k) hj).1 m hj hw
    · exact h2 e

/-! ### Runs -/

theorem SegInv.step (h : SegInv k) {o : SegOp} (hs : segStep k o = some k') : SegInv k' := by
  cases o with
  | creat key size =>
    simp only [segStep, ite_none_right_eq_some] at hs
    obtain ⟨⟨hk, hsize⟩, hs⟩ := hs
    obtain ⟨⟨r, k1⟩, e, rfl⟩ := map_ok (toOption_some hs)
    exact h.creat hk hsize e
  | get key =>
    simp only [segStep, ite_none_right_eq_some] at hs
    obtain ⟨hk, hs⟩ := hs
    rw [(h.getSpec hk 0).1] at hs
    obtain rfl := some.inj hs
    exact h
  | del shmid =>
    obtain ⟨⟨r, k1⟩, e, rfl⟩ := map_ok (toOption_some hs)
    exact h.del e
  | kalloc =>
    obtain rfl := some.inj hs
    exact h.kalloc
  | kfree v =>
    simp only [segStep, ite_none_right_eq_some] at hs
    obtain ⟨⟨hv, hfree, hseg⟩, hs⟩ := hs
    obtain ⟨hp, rfl⟩ := kfree_ok hv (toOption_some hs)
    exact h.kfree hp hfree hseg

theorem segInv_boot : SegInv boot := by
  have hnone : ∀ key l, boot.segment key ≠ some l := fun key l h =>
    absurd (segment_some h).2.1 (lt_irrefl (0 : ℤ))
  have hrange : ∀ key, 0 ≤ boot.shm.pages key ∧ boot.shm.pages key ≤ numOfSegs := fun _ =>
    ⟨le_refl (0 : ℤ), show (0 : ℤ) ≤ numOfSegs by decide⟩
  exact ⟨boot_freelist_nodup, fun v hv => boot_freelist_page hv, hrange, fun _ => rfl,
    fun key l _ h => absurd h (hnone key l), fun key _ l _ _ h => absurd h (hnone key l),
    fun key l h => absurd h (hnone key l)⟩

/-- **The segment table refines a map**: in every state that a run of the calls and of other users
of the allocator reaches, both forms of `shmget` do what they should, and `shmdel` exactly if the
first key that names the page has a segment. -/
theorem segments_refine (h : Reaches segStep Always boot k) :
    (∀ key < numOfSegs, ∀ size, 1 ≤ size → size ≤ numOfSegs * PGSIZE → CreatSpec k key size) ∧
    (∀ key < numOfSegs, ∀ size, GetSpec k key size) ∧
    ∀ shmid, DelSpec k shmid ↔ DelOk k shmid := by
  have hi : SegInv k := h.invariant (I := SegInv) (fun _ _ _ h _ hs => h.step hs) segInv_boot
  exact ⟨fun key hk size h1 h2 => hi.creatSpec hk ⟨h1, h2⟩, fun key hk size => hi.getSpec hk size,
    fun shmid => hi.delSpec_iff shmid⟩

end

/-- A segment of two pages, before it is deleted. -/
theorem segments_refine_created : ∃ k, Reaches segStep Always boot k ∧
    k.segment 7 = some [top 134, top 135] ∧ GetSpec k 7 0 ∧ CreatSpec k 8 4096 ∧
    DelSpec k (segId [top 134, top 135]) := by
  obtain ⟨k, hr, hp⟩ := reaches_of_exec segStep Always boot [.creat 7 8192]
    (fun k => decide (k.segment 7 = some [top 134, top 135] ∧
      DelOk k (segId [top 134, top 135]))) (by decide +kernel)
  obtain ⟨h1, h2⟩ := of_decide_eq_true hp
  obtain ⟨hc, hg, hd⟩ := segments_refine hr
  exact ⟨k, hr, h1, hg 7 (by decide) 0, hc 8 (by decide) 4096 (by decide) (by decide),
    (hd _).mpr h2⟩

/-- A page is used by a segment, which is deleted, and then by a segment with a higher key:
`shmdel` of the second one finds the old entry, returns `0` and frees nothing. -/
theorem shmdel_stale : ∃ k, Reaches segStep Always boot k ∧ k.segment 8 = some [top 134] ∧
    (shmdel k (segId [top 134])).toOption.map Prod.fst = some 0 ∧ ¬ DelSpec k (segId [top 134]) := by
  obtain ⟨k, hr, hp⟩ := reaches_of_exec segStep Always boot
    [.creat 7 4096, .del (segId [top 134]), .creat 8 4096]
    (fun k => decide (k.segment 8 = some [top 134] ∧
      (shmdel k (segId [top 134])).toOption.map Prod.fst = some 0)) (by decide +kernel)
  obtain ⟨h1, h2⟩ := of_decide_eq_true hp
  refine ⟨k, hr, h1, h2, ?_⟩
  rintro ⟨r, k', e, hlive, _⟩
  rw [e] at h2
  have hr : r = 0 := some.inj h2
  have h3 := (hlive 8 _ h1 rfl).1
  rw [hr] at h3
  exact absurd h3 (by decide)

end Xv6.Vm
