import Mathlib.Data.Nat.Bitwise
import Xv6.Fs.Layout

/-! # What is written to a block is read back

Inodes, words, directory entries and bits of the bitmap: reading gives what was written last, and
writing one of them leaves the others of the block as they were. The numbers in an inode are
truncated to the size of its fields; `Dinode.Fits` are those that are not. -/

namespace Xv6.Fs

open Bytes List

/-! ### Words -/

theorem half_lt (b : Block) (o : ℕ) : half b o < 65536 := val_lt 2 _

theorem word_lt (b : Block) (o : ℕ) : word b o < 2 ^ 32 := val_lt 4 _

@[simp] theorem word_zeroBlock (o : ℕ) : word zeroBlock o = 0 := val_zero 4

variable {i j : ℕ}

theorem word_setWord (b : Block) {w : ℕ} (hw : w < 2 ^ 32) : word (setWord b i w) (4 * i) = w := by
  refine (val_congr fun j hj => ?_).trans (val_le_of_lt hw)
  have e1 : (4 * i + j) / 4 = i := by omega
  have e2 : (4 * i + j) % 4 = j := by omega
  simp only [setWord, e1, e2, if_true]

theorem word_setWord_of_ne (b : Block) {w : ℕ} (h : j ≠ i) :
    word (setWord b i w) (4 * j) = word b (4 * j) := by
  refine val_congr fun x hx => ?_
  have e : (4 * j + x) / 4 ≠ i := by omega
  simp only [setWord, if_neg e]

/-! ### Inodes -/

/-- The numbers fit in the fields of `struct dinode`. -/
structure Dinode.Fits (d : Dinode) : Prop where
  type : d.type < 65536
  major : d.major < 65536
  minor : d.minor < 65536
  nlink : d.nlink < 65536
  size : d.size < 2 ^ 32
  addrs : ∀ i, d.addrs i < 2 ^ 32
  rest : ∀ i, NDIRECT < i → d.addrs i = 0

theorem getDinode_fits (b : Block) (j : ℕ) : (getDinode b j).Fits := by
  refine ⟨half_lt _ _, half_lt _ _, half_lt _ _, half_lt _ _, word_lt _ _, fun i => ?_, fun i hi => ?_⟩
  · unfold getDinode
    dsimp only
    split_ifs
    · exact word_lt _ _
    · decide
  · exact if_neg (by omega)

theorem Dinode.zero_fits : Dinode.zero.Fits :=
  ⟨by decide, by decide, by decide, by decide, by decide, fun _ => Nat.two_pow_pos 32,
    fun _ _ => rfl⟩

theorem putDinode_self (b : Block) (j : ℕ) (d : Dinode) {o : ℕ} (ho : o < 64) :
    putDinode b j d (64 * j + o) = d.byte o := by
  have e1 : (64 * j + o) / 64 = j := by omega
  have e2 : (64 * j + o) % 64 = o := by omega
  simp only [putDinode, e1, e2, if_true]

theorem putDinode_put (b : Block) (j : ℕ) (d d' : Dinode) :
    putDinode (putDinode b j d) j d' = putDinode b j d' := by
  funext o
  unfold putDinode
  split_ifs <;> rfl

theorem putDinode_comm (b : Block) (d d' : Dinode) (h : i ≠ j) :
    putDinode (putDinode b i d) j d' = putDinode (putDinode b j d') i d := by
  funext o
  unfold putDinode
  split_ifs
  · omega
  · rfl
  · rfl
  · rfl

theorem getDinode_put (b : Block) (j : ℕ) {d : Dinode} (h : d.Fits) :
    getDinode (putDinode b j d) j = d := by
  obtain ⟨type, major, minor, nlink, size, addrs⟩ := d
  obtain ⟨h1, h2, h3, h4, h5, h6, h7⟩ := h
  have field : ∀ {n o w : ℕ}, o + n ≤ 64 → w < 256 ^ n →
      (∀ x < n, Dinode.byte ⟨type, major, minor, nlink, size, addrs⟩ (o + x) = le w x) →
      val n (fun x => putDinode b j ⟨type, major, minor, nlink, size, addrs⟩ (64 * j + o + x)) = w := by
    intro n o w hn hw hx
    refine (val_congr fun x hxn => ?_).trans (val_le_of_lt hw)
    rw [Nat.add_assoc, putDinode_self b j _ (by omega), hx x hxn]
  have haddr : (fun i => if i ≤ NDIRECT then word (putDinode b j
      ⟨type, major, minor, nlink, size, addrs⟩) (64 * j + 12 + 4 * i) else 0) = addrs := by
    funext i
    split_ifs with hi
    · have hi' : i ≤ 12 := hi
      have e : 64 * j + 12 + 4 * i = 64 * j + (12 + 4 * i) := by omega
      unfold word
      rw [e]
      refine field (by omega) (h6 i) fun x hx => ?_
      have e1 : (12 + 4 * i + x - 12) / 4 = i := by omega
      have e2 : (12 + 4 * i + x - 12) % 4 = x := by omega
      unfold Dinode.byte
      rw [if_neg (by omega), if_neg (by omega), if_neg (by omega), if_neg (by omega),
        if_neg (by omega), e1, e2]
    · exact (h7 i (by omega)).symm
  unfold getDinode
  rw [haddr]
  congr 1
  · refine field (o := 0) (by omega) h1 fun x hx => ?_
    unfold Dinode.byte
    rw [if_pos (by omega), Nat.zero_add]
  · refine field (by omega) h2 fun x hx => ?_
    unfold Dinode.byte
    rw [if_neg (by omega), if_pos (by omega), Nat.add_sub_cancel_left]
  · refine field (by omega) h3 fun x hx => ?_
    unfold Dinode.byte
    rw [if_neg (by omega), if_neg (by omega), if_pos (by omega), Nat.add_sub_cancel_left]
  · refine field (by omega) h4 fun x hx => ?_
    unfold Dinode.byte
    rw [if_neg (by omega), if_neg (by omega), if_neg (by omega), if_pos (by omega),
      Nat.add_sub_cancel_left]
  · refine field (by omega) h5 fun x hx => ?_
    unfold Dinode.byte
    rw [if_neg (by omega), if_neg (by omega), if_neg (by omega), if_neg (by omega),
      if_pos (by omega), Nat.add_sub_cancel_left]

theorem getDinode_congr {b b' : Block} (h : ∀ o < 64, b' (64 * j + o) = b (64 * j + o)) :
    getDinode b' j = getDinode b j := by
  have hhalf : ∀ o, o + 2 ≤ 64 → half b' (64 * j + o) = half b (64 * j + o) := fun o ho =>
    val_congr fun x hx => by rw [Nat.add_assoc]; exact h _ (by omega)
  have hword : ∀ o, o + 4 ≤ 64 → word b' (64 * j + o) = word b (64 * j + o) := fun o ho =>
    val_congr fun x hx => by rw [Nat.add_assoc]; exact h _ (by omega)
  unfold getDinode
  congr 1
  · exact hhalf 0 (by omega)
  · exact hhalf 2 (by omega)
  · exact hhalf 4 (by omega)
  · exact hhalf 6 (by omega)
  · exact hword 8 (by omega)
  · funext i
    split_ifs with hi
    · have hi' : i ≤ 12 := hi
      rw [Nat.add_assoc]
      exact hword _ (by omega)
    · rfl

theorem getDinode_put_of_ne (b : Block) {j' : ℕ} (d : Dinode) (h : j' ≠ j) :
    getDinode (putDinode b j d) j' = getDinode b j' :=
  getDinode_congr fun o ho => if_neg (by omega)

/-! ### Directory entries -/

/-- The number and the name fit in a `struct dirent`. -/
structure Dirent.Fits (e : Dirent) : Prop where
  inum : e.inum < 65536
  name : e.name.length ≤ DIRSIZ
  nul : (0 : UInt8) ∉ e.name

theorem Dirent.zero_fits : Dirent.zero.Fits := ⟨by decide, by decide, by decide⟩

theorem getDirent_congr {f g : ℕ → UInt8} (h : ∀ j < 16, f j = g j) : getDirent f = getDirent g := by
  unfold getDirent
  rw [val_congr fun j hj => h j (by omega)]
  congr 2
  refine map_congr_left fun j hj => h _ ?_
  have hj : j < 14 := mem_range.mp hj
  omega

/-- A name, with NULs up to the size of the field, is read up to the first NUL. -/
theorem takeWhile_name {l : List UInt8} {n : ℕ} (hl : l.length ≤ n) (h0 : (0 : UInt8) ∉ l) :
    ((range n).map fun j => l.getD j 0).takeWhile (· ≠ 0) = l := by
  obtain ⟨m, rfl⟩ := Nat.exists_eq_add_of_le hl
  have hfront : ((range l.length).map fun j => l.getD j 0) = l :=
    ext_getElem (by simp) fun j _ h => by simp [getElem?_eq_getElem h]
  have hpos : ∀ x ∈ l, decide (x ≠ 0) = true := fun x hx => decide_eq_true fun e => h0 (e ▸ hx)
  rw [range_add, map_append, hfront, takeWhile_append_of_pos hpos]
  cases m with
  | zero => simp
  | succ m => simp [range_succ_eq_map]

theorem getDirent_byte {e : Dirent} (h : e.Fits) : getDirent e.byte = e := by
  have hinum : val 2 e.byte = e.inum :=
    (val_congr fun j hj => if_pos hj).trans (val_le_of_lt h.inum)
  have hname : ((range DIRSIZ).map fun j => e.byte (2 + j)) =
      (range DIRSIZ).map fun j => e.name.getD j 0 :=
    map_congr_left fun j _ => by
      unfold Dirent.byte
      rw [if_neg (by omega), Nat.add_sub_cancel_left]
  unfold getDirent
  rw [hinum, hname, takeWhile_name h.name h.nul]

theorem getDirent_name_length (f : ℕ → UInt8) : (getDirent f).name.length ≤ DIRSIZ :=
  (takeWhile_sublist _).length_le.trans (by simp)

/-- The bytes of an entry. -/
def Dirent.bytes (e : Dirent) : List UInt8 := (range 16).map e.byte

theorem Dirent.bytes_length (e : Dirent) : e.bytes.length = 16 := by simp [bytes]

theorem Dirent.bytes_getD (e : Dirent) (h : j < 16) : e.bytes.getD j 0 = e.byte j := by
  simp [bytes, h]

/-! ### The bitmap -/

theorem getBit_setBit (b : Block) (i j : ℕ) :
    getBit (setBit b i) j = (getBit b j || decide (j = i)) := by
  unfold getBit setBit
  split_ifs with h
  · have hlt : (b (j / 8)).toNat ||| 2 ^ (i % 8) < 2 ^ 8 :=
      Nat.or_lt_two_pow (b (j / 8)).toNat_lt (Nat.pow_lt_pow_right (by decide) (by omega))
    rw [UInt8.toNat_ofNat', Nat.mod_eq_of_lt hlt, Nat.testBit_or, Nat.testBit_two_pow]
    congr 1
    exact decide_eq_decide.mpr (by omega)
  · have hne : j ≠ i := fun e => h (by rw [e])
    simp [hne]

end Xv6.Fs
