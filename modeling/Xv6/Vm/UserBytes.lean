import Xv6.Lib.Bytes
import Xv6.Vm.Start

/-! # The bytes that `copyout` writes

`copyoutBytes` is `copyout` with the bytes of its buffer. Seen from the page tables it is the `copyout` of the other
modules with a particular effect on each page (`copyoutBytes_eq`), and so it writes the buffer up to the first page that
users cannot reach, and nothing else (`Wrote`). It goes wrong exactly if that page has no page table
(`copyout_contract_iff`). -/

namespace Xv6.Vm

open Fallible Function List

/-- A page after the bytes have been copied to offset `o`. -/
def memmove (m : ℕ → ℕ) (o : ℕ) (b : List UInt8) (i : ℕ) : ℕ :=
  if 4 * i + 4 ≤ o ∨ o + b.length ≤ 4 * i then m i
  else Bytes.val 4 fun j =>
    if o ≤ 4 * i + j ∧ 4 * i + j < o + b.length then b.getD (4 * i + j - o) 0 else Bytes.le (m i) j

/-- The loop of `copyout`, with the rest of the buffer. -/
def copyoutBytesLoop (pgdir : ℕ) : ℕ → ℕ → List UInt8 → Kernel → Except Fault (Bool × Kernel)
  | 0, _, _, k => .ok (true, k)
  | f + 1, va, buf, k =>
    if buf.length = 0 then .ok (true, k)
    else do
      let va0 := pgRoundDown va
      match ← uva2ka k pgdir va0 with
      | none => .ok (false, k)
      | some pa0 =>
        let n := min buf.length (PGSIZE - (va - va0))
        copyoutBytesLoop pgdir f (u32 (va0 + PGSIZE)) (buf.drop n)
          (k.setPage pa0 (memmove (k.mem pa0) (va - va0) (buf.take n)))

/-- `copyout(pgdir, va, p, len)`, where `buf` is what is at `p`. -/
def copyoutBytes (k : Kernel) (pgdir va : ℕ) (buf : List UInt8) : Except Fault (Bool × Kernel) :=
  copyoutBytesLoop pgdir (buf.length / PGSIZE + 2) va buf k

/-- The number of bytes before the `j`-th piece. -/
def start (va j : ℕ) : ℕ := 4096 * j - va % 4096

/-- What the `j`-th piece of the buffer makes of its page. -/
def putPiece (va : ℕ) (buf : List UInt8) (j : ℕ) (m : ℕ → ℕ) : ℕ → ℕ :=
  let o := if j = 0 then va % 4096 else 0
  memmove m o ((buf.drop (start va j)).take (4096 - o))

/-- A byte of memory, given by its page and the offset there. -/
def Kernel.byte (k : Kernel) (x : ℕ × ℕ) : UInt8 := Bytes.le (k.mem x.1 (x.2 / 4)) (x.2 % 4)

/-- Where a user address is. -/
def Kernel.place (k : Kernel) (d a : ℕ) : ℕ × ℕ := (frame (k.entry d (a / 4096)), a % 4096)

/-- The bytes of the buffer from `lo` up to `hi` are at their places, and no other byte has changed. -/
structure Wrote (k k' : Kernel) (d va : ℕ) (buf : List UInt8) (lo hi : ℕ) : Prop where
  done : ∀ i, lo ≤ i → i < hi → k'.byte (k.place d (va + i)) = buf.getD i 0
  other : ∀ x, (∀ i, lo ≤ i → i < hi → k.place d (va + i) ≠ x) → k'.byte x = k.byte x

section
variable {k k' k1 : Kernel} {d m n c j va lo mid hi : ℕ} {buf : List UInt8}

theorem start_lt {len : ℕ} (h : j < pieces va len) : start va j < len := by
  unfold pieces at h
  unfold start
  split_ifs at h
  · omega
  · omega

theorem le_memmove (m : ℕ → ℕ) (o : ℕ) (b : List UInt8) (p : ℕ) :
    Bytes.le (memmove m o b (p / 4)) (p % 4) =
      if o ≤ p ∧ p < o + b.length then b.getD (p - o) 0 else Bytes.le (m (p / 4)) (p % 4) := by
  have hp : 4 * (p / 4) + p % 4 = p := Nat.div_add_mod p 4
  unfold memmove
  split_ifs with hout hin hin
  · omega
  · rfl
  · rw [Bytes.le_val _ (Nat.mod_lt _ (by decide)), hp, if_pos hin]
  · rw [Bytes.le_val _ (Nat.mod_lt _ (by decide)), hp, if_neg hin]

theorem putPiece_zero (va : ℕ) (buf : List UInt8) (m : ℕ → ℕ) :
    putPiece va buf 0 m = memmove m (va % 4096) (buf.take (min buf.length (4096 - va % 4096))) := by
  unfold putPiece start
  dsimp only
  rw [if_pos rfl, Nat.mul_zero, Nat.zero_sub, drop_zero, take_eq_take_min, Nat.min_comm]

theorem putPiece_succ (va : ℕ) (buf : List UInt8) (j : ℕ) :
    putPiece (u32 (pgRoundDown va + PGSIZE)) (buf.drop (min buf.length (4096 - va % 4096))) j = putPiece va buf (j + 1) := by
  have haligned : u32 (pgRoundDown va + PGSIZE) % 4096 = 0 := by
    unfold u32 pgRoundDown PGSIZE
    omega
  have hdrop : (buf.drop (min buf.length (4096 - va % 4096))).drop (4096 * j) = buf.drop (4096 * (j + 1) - va % 4096) := by
    rw [drop_drop]
    obtain hlt | hge := Nat.lt_or_ge buf.length (4096 - va % 4096)
    · rw [drop_eq_nil_of_le (by omega), drop_eq_nil_of_le (by omega)]
    · have hsum : min buf.length (4096 - va % 4096) + 4096 * j = 4096 * (j + 1) - va % 4096 := by omega
      rw [hsum]
  funext m
  unfold putPiece start
  dsimp only
  rw [haligned, ite_self, Nat.sub_zero (4096 * j), hdrop, if_neg (Nat.succ_ne_zero j)]

theorem copyoutBytesLoop_eq {data : ℕ → (ℕ → ℕ) → (ℕ → ℕ)} (hdata : ∀ i, data (j + i) = putPiece va buf i) :
    copyoutBytesLoop d n va buf k = copyoutLoop d data n j va buf.length k := by
  induction n generalizing j va buf k with
  | zero => rfl
  | succ n ih =>
    have hoff : va - pgRoundDown va = va % 4096 := by
      unfold pgRoundDown PGSIZE
      omega
    unfold copyoutBytesLoop copyoutLoop
    split_ifs
    · rfl
    · dsimp only
      congr 1
      funext r
      cases r with
      | none => rfl
      | some page =>
        have h0 : data j = putPiece va buf 0 := hdata 0
        dsimp only
        rw [hoff, ← length_drop, h0, putPiece_zero, PGSIZE]
        apply ih
        intro i
        rw [Nat.add_assoc, Nat.add_comm 1, hdata]
        exact (putPiece_succ va buf i).symm

theorem copyoutBytes_eq (k : Kernel) (d va : ℕ) (buf : List UInt8) :
    copyoutBytes k d va buf = copyout k d va buf.length (putPiece va buf) :=
  copyoutBytesLoop_eq fun i => by rw [Nat.zero_add]

theorem Wrote.trans (h : Wrote k k1 d va buf lo mid) (h' : Wrote k1 k' d va buf mid hi) (hlo : lo ≤ mid) (hhi : mid ≤ hi)
    (hent : ∀ m, k1.entry d m = k.entry d m)
    (hne : ∀ i j, lo ≤ i → i < mid → mid ≤ j → j < hi → k.place d (va + i) ≠ k.place d (va + j)) :
    Wrote k k' d va buf lo hi := by
  have hplace : ∀ a, k1.place d a = k.place d a := fun a => by
    unfold Kernel.place
    rw [hent]
  obtain ⟨hdone', hother'⟩ := h'
  simp only [hplace] at hdone' hother'
  refine ⟨fun i hi1 hi2 => ?_, fun x hx => ?_⟩
  · obtain hlt | hge := Nat.lt_or_ge i mid
    · rw [hother' _ fun j hj1 hj2 e => hne i j hi1 hlt hj1 hj2 e.symm]
      exact h.done i hi1 hlt
    · exact hdone' i hge hi2
  · rw [hother' x fun j hj1 hj2 => hx j (by omega) hj2]
    exact h.other x fun i hi1 hi2 => hx i hi1 (by omega)

theorem wrote_piece (hj : start va j < buf.length) :
    Wrote k (k.setPage (frame (k.entry d (va / 4096 + j)))
      (putPiece va buf j (k.mem (frame (k.entry d (va / 4096 + j)))))) d va buf (start va j)
      (min buf.length (start va (j + 1))) := by
  have hlen : ∀ o, ((buf.drop (start va j)).take (4096 - o)).length = min (4096 - o) (buf.length - start va j) := fun o => by
    rw [length_take, length_drop]
  have hoff : (va + start va j) % 4096 = if j = 0 then va % 4096 else 0 := by
    unfold start
    split_ifs
    · omega
    · omega
  unfold putPiece
  dsimp only
  rw [← hoff]
  set o := (va + start va j) % 4096 with ho
  set v := frame (k.entry d (va / 4096 + j)) with hv
  have hplace : ∀ i, start va j ≤ i → i < min buf.length (start va (j + 1)) →
      k.place d (va + i) = (v, o + (i - start va j)) := fun i hi1 hi2 => by
    have hpg : (va + i) / 4096 = va / 4096 + j := by
      unfold start at hi1 hi2
      omega
    unfold Kernel.place
    rw [hpg]
    refine congrArg (Prod.mk v) ?_
    unfold start at *
    omega
  have hend : min (4096 - o) (buf.length - start va j) = min buf.length (start va (j + 1)) - start va j := by
    unfold start at *
    omega
  refine ⟨fun i hi1 hi2 => ?_, fun x hx => ?_⟩
  · rw [hplace i hi1 hi2, Kernel.byte, Kernel.setPage_mem]
    dsimp only
    rw [update_self, le_memmove, if_pos (by rw [hlen, hend]; omega), Nat.add_sub_cancel_left,
      getD_eq_getElem?_getD, getD_eq_getElem?_getD, getElem?_take_of_lt (by omega), getElem?_drop,
      Nat.add_sub_cancel' hi1]
  · obtain ⟨u, p⟩ := x
    unfold Kernel.byte
    dsimp only
    rw [Kernel.setPage_mem]
    obtain rfl | hne := eq_or_ne u v
    · rw [update_self, le_memmove, if_neg]
      rw [hlen, hend]
      rintro ⟨hp1, hp2⟩
      refine hx (start va j + (p - o)) (by omega) (by omega) ?_
      rw [hplace _ (by omega) (by omega), Nat.add_sub_cancel_left, Nat.add_sub_cancel' hp1]
    · rw [update_of_ne hne]

/-- Different pages of the range that users can reach are different pages of memory. -/
def Distinct (k : Kernel) (d va len : ℕ) : Prop :=
  ∀ i < len, ∀ i' < len, Reach k d ((va + i) / 4096) → Reach k d ((va + i') / 4096) →
    frame (k.entry d ((va + i) / 4096)) = frame (k.entry d ((va + i') / 4096)) →
      (va + i) / 4096 % allPages = (va + i') / 4096 % allPages

theorem Distinct.place_ne {len i i' : ℕ} (h : Distinct k d va len) (hlen : len ≤ 2 ^ 32) (hi : i < i') (hi' : i' < len)
    (hr : Reach k d ((va + i) / 4096)) (hr' : Reach k d ((va + i') / 4096)) :
    k.place d (va + i) ≠ k.place d (va + i') := by
  intro e
  obtain ⟨e1, e2⟩ := Prod.mk.inj e
  have := h i (by omega) i' hi' hr hr' e1
  unfold allPages at this
  omega

theorem copied_wrote (hs : Sealed k d) (hd : Distinct k d va buf.length) (hlen : buf.length ≤ 2 ^ 32)
    (hc : j + c ≤ pieces va buf.length) (hall : ∀ i < j + c, Reach k d (va / 4096 + i)) :
    Wrote k (copied d (putPiece va buf) c (va / 4096 + j) j k) d va buf (min buf.length (start va j))
      (min buf.length (start va (j + c))) := by
  induction c generalizing j k with
  | zero => exact ⟨fun i hi1 hi2 => absurd hi1 (not_le.mpr hi2), fun _ _ => rfl⟩
  | succ c ih =>
    have hj : start va j < buf.length := start_lt (by omega)
    have h1 := wrote_piece (k := k) (d := d) hj
    have hs1 := hs.write (hall j (by omega)) (putPiece va buf j (k.mem (frame (k.entry d (va / 4096 + j)))))
    rw [copied, min_eq_right hj.le]
    set k1 := k.setPage (frame (k.entry d (va / 4096 + j)))
      (putPiece va buf j (k.mem (frame (k.entry d (va / 4096 + j))))) with hk1
    have hd1 : Distinct k1 d va buf.length := fun i hi i' hi' hr hr' => by
      rw [hs1.entry, hs1.entry]
      exact hd i hi i' hi' (hs1.reach.mp hr) (hs1.reach.mp hr')
    have h2 := ih (j := j + 1) (hs1.sealed hs) hd1 (by omega) fun i hi => hs1.reach.mpr (hall i (by omega))
    have hpage : ∀ i < min buf.length (start va (j + 1 + c)), Reach k d ((va + i) / 4096) := fun i hi => by
      have hlt : (va + i) / 4096 - va / 4096 < j + (c + 1) := by
        unfold start at hi
        omega
      have := hall _ hlt
      rwa [Nat.add_sub_cancel' (by omega)] at this
    have hle : start va j ≤ start va (j + 1) ∧ start va (j + 1) ≤ start va (j + 1 + c) := by
      unfold start
      omega
    rw [show j + (c + 1) = j + 1 + c by omega]
    refine h1.trans h2 (le_min hj.le hle.1) (min_le_min_left _ hle.2) hs1.entry fun i i' hi1 hi2 hi3 hi4 => ?_
    exact hd.place_ne hlen (by omega) (by omega) (hpage i (by omega)) (hpage i' hi4)

/-- A `copyout` that returns has written the buffer up to some byte, in pages that users can reach; after success, all
of it. -/
theorem copyout_wrote {b : Bool} (hs : Sealed k d) (hd : Distinct k d va buf.length) (hlen : buf.length ≤ 2 ^ 32)
    (hr : copyout k d va buf.length (putPiece va buf) = .ok (b, k')) :
    SameTables k k' d ∧ ∃ hi ≤ buf.length, Wrote k k' d va buf 0 hi ∧ (∀ i < hi, Reach k d ((va + i) / 4096)) ∧
      (b = true → hi = buf.length) := by
  obtain ⟨c, hc, hall, rfl, htrue⟩ := copyout_ok hs hr
  have hwrote := copied_wrote (c := c) (j := 0) hs hd hlen (by omega) (by rwa [Nat.zero_add])
  rw [Nat.add_zero, Nat.zero_add, show start va 0 = 0 from Nat.zero_sub _, Nat.min_zero] at hwrote
  refine ⟨(copied_frame hs hall).1, _, min_le_left _ _, hwrote, fun i hi => ?_, fun hb => min_eq_left ?_⟩
  · have := hall ((va + i) / 4096 - va / 4096) (by unfold start at hi; omega)
    rwa [Nat.add_sub_cancel' (by omega)] at this
  · rw [htrue hb]
    unfold pieces start
    split_ifs
    · omega
    · omega

/-- `copyout` returns exactly if the first page of the range that users cannot reach has a page table. -/
theorem copyout_returns_iff {len : ℕ} (data : ℕ → (ℕ → ℕ) → (ℕ → ℕ)) (hs : Sealed k d) :
    (∃ b k', copyout k d va len data = .ok (b, k')) ↔ ∀ i < len, (∀ i' < i, Reach k d ((va + i') / 4096)) →
      Present (k.pde d ((va + i) / 4096)) := by
  obtain ⟨c, hc, hall, hcase⟩ := copyout_cases va len data hs
  have hreach : ∀ i, (va + i) / 4096 < va / 4096 + c → Reach k d ((va + i) / 4096) := fun i hlt => by
    have := hall ((va + i) / 4096 - va / 4096) (by omega)
    rwa [Nat.add_sub_cancel' (by omega)] at this
  obtain ⟨e, hr⟩ | ⟨hlt, hno, hr⟩ := hcase
  · refine iff_of_true ⟨true, _, hr⟩ fun i hi _ => pde_of_entry (hreach i ?_).1
    rw [e, pieces, if_neg (by omega)]
    omega
  · have hfirst : (va + start va c) / 4096 = va / 4096 + c := by
      unfold start
      omega
    rw [hr]
    split_ifs with hpde
    · refine iff_of_true ⟨false, _, rfl⟩ fun i hi hbefore => ?_
      obtain hlt' | heq | hgt := Nat.lt_trichotomy ((va + i) / 4096) (va / 4096 + c)
      · exact pde_of_entry (hreach i hlt').1
      · rw [heq]
        exact hpde
      · have := hbefore (start va c) (by unfold start; omega)
        rw [hfirst] at this
        exact absurd this hno
    · refine iff_of_false (by rintro ⟨b, k', hr'⟩; cases hr') fun hcond => hpde ?_
      rw [← hfirst]
      refine hcond _ (start_lt hlt) fun i' hi' => hreach i' ?_
      unfold start at hi'
      omega

/-! ### The contract -/

theorem u32_page (a : ℕ) : u32 a / 4096 % allPages = a / 4096 % allPages := by
  unfold u32 allPages
  omega

theorem place_u32 (k : Kernel) (d a : ℕ) : k.place d (u32 a) = k.place d a := by
  have hoff : u32 a % 4096 = a % 4096 := by
    unfold u32
    omega
  unfold Kernel.place
  rw [entry_mod (u32_page a), hoff]

theorem reach_u32 (k : Kernel) (d a : ℕ) : Reach k d (u32 a / 4096) ↔ Reach k d (a / 4096) := by
  unfold Reach
  rw [entry_mod (u32_page a)]

/-- What `copyout` is for: it returns; after success the buffer is at its addresses, and no other byte has changed; after
failure no byte has changed but some of the range, in pages that users can reach. -/
def CopyoutOk (k : Kernel) (d va : ℕ) (buf : List UInt8) : Prop :=
  ∃ b k', copyoutBytes k d va buf = .ok (b, k') ∧ MemOnly k k' ∧ k'.freelist = k.freelist ∧
    (b = true → (∀ i < buf.length, k'.byte (k'.place d (u32 (va + i))) = buf.getD i 0) ∧
      ∀ x, (∀ i < buf.length, k.place d (u32 (va + i)) ≠ x) → k'.byte x = k.byte x) ∧
    (b = false → ∀ x, k'.byte x ≠ k.byte x →
      ∃ i < buf.length, Reach k d (u32 (va + i) / 4096) ∧ k.place d (u32 (va + i)) = x)

/-- **`copyout`** does what it is for exactly if the first page of the range that users cannot reach has a page table. -/
theorem copyout_contract_iff (hs : Sealed k d) (hd : Distinct k d va buf.length) (hlen : buf.length < 2 ^ 32) :
    CopyoutOk k d va buf ↔ ∀ i < buf.length, (∀ i' < i, Reach k d (u32 (va + i') / 4096)) →
      Present (k.pde d (u32 (va + i) / 4096)) := by
  simp only [CopyoutOk, place_u32, reach_u32, pde_mod (u32_page _), copyoutBytes_eq]
  rw [← copyout_returns_iff (putPiece va buf) hs]
  constructor
  · rintro ⟨b, k', hr, -⟩
    exact ⟨b, k', hr⟩
  · rintro ⟨b, k', hr⟩
    obtain ⟨hsame, hi, hle, hwrote, hreach, htrue⟩ := copyout_wrote hs hd hlen.le hr
    have hplace : ∀ a, k'.place d a = k.place d a := fun a => by
      unfold Kernel.place
      rw [hsame.entry]
    refine ⟨b, k', hr, copyout_memOnly.ok hr, hsame.freelist, fun hb => ?_, fun _ x hx => ?_⟩
    · obtain rfl := htrue hb
      simp only [hplace]
      exact ⟨fun i hi => hwrote.done i (Nat.zero_le i) hi, fun x hx => hwrote.other x fun i _ hi => hx i hi⟩
    · by_contra hnone
      push Not at hnone
      exact hx (hwrote.other x fun i _ hi => hnone i (by omega) (hreach i hi))

end

/-- Three bytes in the page of init. -/
theorem copyout_contract_init : CopyoutOk boot (boot.dirOf initproc) 16 [104, 105, 0] := by
  refine (copyout_contract_iff (inv_boot.wf.sealed (inv_boot.dir initproc (by decide))) ?_ (by decide)).mpr ?_
  · intro i hi i' hi' _ _ _
    rw [length_cons, length_cons, length_singleton] at hi hi'
    have e : (16 + i) / 4096 = (16 + i') / 4096 := by omega
    rw [e]
  · decide +kernel

/-- An address of the kernel half for which the new directory has no page table. -/
theorem copyout_null : ¬ CopyoutOk boot (boot.dirOf initproc) 0xA0000000 [0] := by
  rintro ⟨b, k', hr, -⟩
  have htest : (copyoutBytes boot (boot.dirOf initproc) 0xA0000000 [0]).toOption.isNone = true := by decide +kernel
  rw [hr] at htest
  cases htest

end Xv6.Vm
