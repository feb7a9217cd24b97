import Xv6.Lib.Fallible
import Xv6.Lib.Words
import Xv6.Vm.Shm

/-! # Pages, addresses and the allocator

The pages `kfree` accepts, the arithmetic of their addresses, and what the primitive operations on
memory, on the free list and on `shm` do. -/

namespace Xv6.Vm

open Function

/-- A page that `kfree` accepts. -/
structure Page (v : ℕ) : Prop where
  aligned : v % 4096 = 0
  low : endAddr ≤ v
  high : v < KERNBASE + PHYSTOP

instance (v : ℕ) : Decidable (Page v) :=
  decidable_of_iff (v % 4096 = 0 ∧ endAddr ≤ v ∧ v < KERNBASE + PHYSTOP)
    ⟨fun ⟨h1, h2, h3⟩ => ⟨h1, h2, h3⟩, fun ⟨h1, h2, h3⟩ => ⟨h1, h2, h3⟩⟩

/-- The page that an entry refers to. -/
@[irreducible] def frame (w : ℕ) : ℕ := p2v (pteAddr w)

theorem frame_eq (w : ℕ) : p2v (pteAddr w) = frame w := by
  unfold frame
  rfl

namespace Page
variable {v f : ℕ}

section
variable (h : Page v)
include h

theorem ge : 0x8012a55c ≤ v := h.low

theorem lt : v < 0x8e000000 := h.high

theorem v2p_eq : v2p v = v - 0x80000000 := by
  have h1 := h.ge
  have h2 := h.lt
  unfold v2p u32 KERNBASE
  omega

theorem p2v_v2p : p2v (v2p v) = v := by
  have h1 := h.ge
  have h2 := h.lt
  rw [h.v2p_eq]
  unfold p2v u32 KERNBASE
  omega

theorem v2p_aligned : v2p v % 2 ^ 12 = 0 := by
  have h1 := h.ge
  have h2 := h.aligned
  rw [h.v2p_eq]
  omega

/-- An entry made from the address of a page and flags. -/
theorem or_flags (hf : f < 4096) : v2p v ||| f = v2p v + f :=
  Words.or_eq_add h.v2p_aligned hf

theorem pteAddr_or (hf : f < 4096) : pteAddr (v2p v ||| f) = v2p v := by
  rw [h.or_flags hf]
  exact Words.div_mul_of_aligned h.v2p_aligned hf

theorem frame_or (hf : f < 4096) : frame (v2p v ||| f) = v := by
  unfold frame
  rw [h.pteAddr_or hf, h.p2v_v2p]

theorem toInt_eq : toInt v = (v : ℤ) - 2 ^ 32 := by
  have h1 := h.ge
  unfold toInt
  rw [if_neg (by omega)]

theorem toInt_inj {w : ℕ} (h' : Page w) (he : toInt v = toInt w) : v = w := by
  rw [h.toInt_eq, h'.toInt_eq] at he
  omega

theorem toInt_ne : toInt v ≠ -1 := by
  have h1 := h.lt
  rw [h.toInt_eq]
  omega

end

end Page

theorem present_iff (w : ℕ) : w &&& PTE_P ≠ 0 ↔ w % 2 = 1 := by
  have h := Words.and_two_pow_ne_zero w 0
  rwa [pow_zero, Nat.div_one] at h

theorem user_iff (w : ℕ) : w &&& PTE_U ≠ 0 ↔ w / 4 % 2 = 1 := by
  simpa [PTE_U] using Words.and_two_pow_ne_zero w 2

/-! ### Memory -/

namespace Kernel
variable (k : Kernel) (key b i j v : ℕ) (x : ℤ)

@[simp] theorem setSeg_seg : (k.setSeg key i v).shm.seg =
    update k.shm.seg key (update (k.shm.seg key) i v) := rfl
@[simp] theorem setSeg_refs : (k.setSeg key i v).shm.refs = k.shm.refs := rfl

@[simp] theorem setRefs_seg : (k.setRefs key b j x).shm.seg = k.shm.seg := rfl
@[simp] theorem setRefs_refs : (k.setRefs key b j x).shm.refs = update k.shm.refs key
    (update (k.shm.refs key) b (update (k.shm.refs key b) j x)) := rfl

/-- The state after `kfree` of an acceptable page. -/
def freed : Kernel :=
  { k.setPage v (fun i => if i = 0 then k.freelist.headD 0 else 0x01010101) with
    freelist := v :: k.freelist }

@[simp] theorem freed_freelist : (k.freed v).freelist = v :: k.freelist := rfl
@[simp] theorem freed_shm : (k.freed v).shm = k.shm := rfl

theorem freed_mem_of_ne {v w : ℕ} (h : w ≠ v) : (k.freed v).mem w = k.mem w := by
  simp [freed, h]

end Kernel

/-! ### The allocator -/

theorem kfree_page {k : Kernel} {v : ℕ} (h : Page v) : kfree k v = .ok (k.freed v) := by
  have h1 := h.v2p_eq
  have h2 := h.lt
  have h3 := h.aligned
  unfold kfree
  rw [if_neg]
  · rfl
  · rintro (e | e | e)
    · exact e h3
    · exact absurd h.low (by omega)
    · rw [h1] at e
      unfold PHYSTOP at e
      omega

theorem kfree_ok {k k' : Kernel} {v : ℕ} (hv : v < 2 ^ 32) (h : kfree k v = .ok k') :
    Page v ∧ k' = k.freed v := by
  unfold kfree at h
  split_ifs at h with hc
  push Not at hc
  obtain ⟨h1, h2, h3⟩ := hc
  refine ⟨⟨h1, h2, ?_⟩, (Except.ok.inj h).symm⟩
  have : 0x8012a55c ≤ v := h2
  unfold v2p u32 KERNBASE PHYSTOP at *
  omega

theorem kalloc_cons {k : Kernel} {v : ℕ} {l : List ℕ} (h : k.freelist = v :: l) :
    kalloc k = (some v, { k with freelist := l }) := by
  simp [kalloc, h]

theorem kalloc_nil {k : Kernel} (h : k.freelist = []) : kalloc k = (none, k) := by
  simp [kalloc, h]

theorem kalloc_none {k k' : Kernel} {o : Option ℕ} (h : kalloc k = (o, k')) : o = none ↔ k.freelist = [] := by
  unfold kalloc at h
  split at h <;> cases h <;> simp_all

/-- The first words of the pages link them in this order, down to a null pointer: the list is what `kmem.freelist`
leads to. -/
def Linked (mem : ℕ → ℕ → ℕ) : List ℕ → Prop
  | [] => True
  | v :: l => mem v 0 = l.headD 0 ∧ Linked mem l

section
variable {mem mem' : ℕ → ℕ → ℕ} {l l' : List ℕ} {k : Kernel} {v : ℕ}

theorem Linked.congr (h : Linked mem l) (hm : ∀ u ∈ l, mem' u = mem u) : Linked mem' l := by
  induction l with
  | nil => trivial
  | cons v l ih =>
    refine ⟨?_, ih h.2 fun u hu => hm u (List.mem_cons_of_mem v hu)⟩
    rw [hm v List.mem_cons_self]
    exact h.1

theorem Linked.suffix (h : Linked mem l) (hs : l' <:+ l) : Linked mem l' := by
  obtain ⟨t, rfl⟩ := hs
  induction t with
  | nil => exact h
  | cons v t ih => exact ih h.2

/-- `kalloc` follows the link of the page that it takes. -/
theorem Linked.kalloc (h : Linked k.mem k.freelist) (hl : k.freelist = v :: l) :
    k.mem v 0 = (kalloc k).2.freelist.headD 0 ∧ Linked (kalloc k).2.mem (kalloc k).2.freelist := by
  rw [hl] at h
  rw [kalloc_cons hl]
  exact h

/-- `kfree` keeps the links if the page is not free already; otherwise it closes them to a circle. -/
theorem Linked.freed (h : Linked k.mem k.freelist) (hv : v ∉ k.freelist) :
    Linked (k.freed v).mem (k.freed v).freelist := by
  refine ⟨?_, h.congr fun u hu => k.freed_mem_of_ne ?_⟩
  · simp [Kernel.freed]
  · rintro rfl
    exact hv hu

end

/-! ### The segment table -/

section
variable {k : Kernel}

@[simp] theorem setRefs_pages (key : ℕ) (x : ℤ) :
    (k.setRefs key 1 64 x).shm.pages = update k.shm.pages key x := by
  funext j
  by_cases h : j = key
  · subst h; simp [Shm.pages]
  · simp [Shm.pages, h]

@[simp] theorem setRefs_count (key j : ℕ) (x : ℤ) :
    (k.setRefs key 1 j x).shm.count = k.shm.count := by
  funext i
  by_cases h : i = key
  · subst h; simp [Shm.count]
  · simp [Shm.count, h]

theorem find_none {s : Shm} {p : ℕ → Bool} (h : s.find p = none) {key : ℕ} (hk : key < numOfSegs) :
    p (s.seg key 0) = false := by
  have := List.find?_eq_none.mp h key (List.mem_range.mpr hk)
  simpa using this

theorem find_some {s : Shm} {p : ℕ → Bool} {key : ℕ} (h : s.find p = some key) :
    key < numOfSegs ∧ p (s.seg key 0) = true ∧ ∀ j < key, p (s.seg j 0) = false := by
  obtain ⟨h1, h2, h3⟩ := List.find?_range_eq_some.mp h
  exact ⟨List.mem_range.mp h2, h1, fun j hj => by simpa using h3 j hj⟩

end

end Xv6.Vm
