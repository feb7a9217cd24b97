import Mathlib.Data.List.Nodup
import Xv6.Fs.Log

/-! # What the log functions do

`Home` sectors are those outside the log. `Recovers c d`: the disk `d` will have the contents `c`
at the home sectors after a complete recovery. This depends on the header on the disk: the sectors
it lists get the copies in the log.

* While a transaction is open (`Logged`), the header is empty and `log_write` only adds copies.
* The first write of the header makes all copies count at once.
* Installing the copies, and recovering, do not change what the disk recovers to; nor does the empty
  header at the end, when all copies are installed (`Installing`). -/

namespace Xv6.Fs

open Bytes Function List

/-- A sector outside the log. -/
def Home (start size s : ℕ) : Prop := s < start ∨ start + size ≤ s

/-- A list of sectors that fits in the log. -/
structure LogList (start size : ℕ) (l : List ℕ) : Prop where
  nodup : l.Nodup
  home : ∀ s ∈ l, Home start size s
  fits : l.length < size
  short : l.length ≤ LOGSIZE
  bound : ∀ s ∈ l, s < 2 ^ 32

/-- What a complete recovery leaves in sector `s`. -/
def recovered (start : ℕ) (d : ℕ → Block) (s : ℕ) : Block :=
  if s ∈ getHeader (d start) then d (start + (getHeader (d start)).idxOf s + 1) else d s

/-- A disk with a proper header that recovers to the contents `c`. -/
structure Recovers (start size : ℕ) (c d : ℕ → Block) : Prop where
  list : LogList start size (getHeader (d start))
  home : ∀ s, Home start size s → recovered start d s = c s

/-- The header is written: every sector of the list has its copy in the log, and the others are
in place. -/
structure Installing (start size : ℕ) (c : ℕ → Block) (l : List ℕ) (k : State) : Prop where
  list : LogList start size l
  area : k.log.start = start
  head : getHeader (k.disk start) = l
  copy : ∀ s ∈ l, k.disk (start + l.idxOf s + 1) = c s
  copyBuf : ∀ s ∈ l, k.buf (start + l.idxOf s + 1) = c s
  rest : ∀ s, Home start size s → s ∉ l → k.disk s = c s

/-- Between transactions, and inside one: the header is empty, the disk has the contents `c` of the
last commit, and what differs from it in the buffers is listed and copied to the log. -/
structure Logged (start size : ℕ) (c : ℕ → Block) (k : State) : Prop where
  begins : k.log.start = start
  room : k.log.size = size
  list : LogList start size k.log.lh
  head : getHeader (k.disk start) = []
  disk : ∀ s, Home start size s → k.disk s = c s
  copy : ∀ s ∈ k.log.lh, k.disk (start + k.log.lh.idxOf s + 1) = k.buf s
  copyBuf : ∀ s ∈ k.log.lh, k.buf (start + k.log.lh.idxOf s + 1) = k.buf s
  rest : ∀ s, Home start size s → s ∉ k.log.lh → k.buf s = c s

section
variable {start size s : ℕ} {c c' d : ℕ → Block} {l : List ℕ} {k : State} {p : Slot}
  {E : String → State → Prop}

/-! ### The header -/

theorem LogList.nil (h : 0 < size) : LogList start size [] :=
  ⟨nodup_nil, by simp, h, Nat.zero_le _, by simp⟩

theorem getHeader_put (b : Block) (h : l.length ≤ LOGSIZE) (hb : ∀ s ∈ l, s < 2 ^ 32) :
    getHeader (putHeader b l) = l := by
  have hlen : l.length < 256 ^ 4 := lt_of_le_of_lt h (by decide)
  have h0 : word (putHeader b l) 0 = l.length := by
    refine (val_congr fun j hj => ?_).trans (val_le_of_lt hlen)
    simp [putHeader, hj]
  unfold getHeader
  rw [h0]
  refine ext_getElem (by simp) fun i hi hi' => ?_
  rw [getElem_map, getElem_range]
  refine (val_congr fun j hj => ?_).trans (val_le_of_lt (hb l[i] (getElem_mem hi')))
  have e1 : (4 + 4 * i + j - 4) / 4 = i := by omega
  have e2 : (4 + 4 * i + j - 4) % 4 = j := by omega
  unfold putHeader
  rw [if_neg (by omega), if_pos (by omega), e1, e2, getD_eq_getElem?_getD, getElem?_eq_getElem hi', Option.getD_some]

/-! ### Recovery, as a function of the disk -/

theorem Recovers.congr (h : Recovers start size c d)
    (hc : ∀ s, Home start size s → c s = c' s) : Recovers start size c' d :=
  ⟨h.list, fun s hs => (h.home s hs).trans (hc s hs)⟩

theorem Installing.recovers (h : Installing start size c l k) :
    Recovers start size c k.disk := by
  refine ⟨by rw [h.head]; exact h.list, fun s hs => ?_⟩
  unfold recovered
  rw [h.head]
  by_cases hm : s ∈ l
  · rw [if_pos hm, h.copy s hm]
  · rw [if_neg hm, h.rest s hs hm]

theorem Logged.recovers (h : Logged start size c k) : Recovers start size c k.disk := by
  refine ⟨by rw [h.head]; exact .nil (Nat.zero_lt_of_lt h.list.fits), fun s hs => ?_⟩
  unfold recovered
  rw [h.head, if_neg (by simp), h.disk s hs]

/-! ### `log_write` -/

/-- The other parts of the state. -/
structure Beside (k k' : State) : Prop where
  inode : k'.inode = k.inode
  tab : k'.tab = k.tab

theorem Beside.refl (k : State) : Beside k k := ⟨rfl, rfl⟩

theorem Home.ne_copy {i : ℕ} (hs : Home start size s) (hi : i + 1 < size) : s ≠ start + i + 1 := by
  unfold Home at hs
  omega

/-- The state after `log_write` has put the block `b` of sector `s` at place `n` of the log. -/
def State.logged (k : State) (l : List ℕ) (n s : ℕ) (b : Block) : State :=
  (((k.setBuf s b).setBuf (k.log.start + n + 1) b).write (k.log.start + n + 1)).setLog
    { k.log with lh := l }

theorem Logged.write (h : Logged start size c k) {b : Block} (hl : LogList start size l)
    (hs : s ∈ l) (hold : ∀ t ∈ l, t ≠ s → t ∈ k.log.lh ∧ l.idxOf t = k.log.lh.idxOf t)
    (hnew : ∀ t ∈ k.log.lh, t ∈ l) :
    Logged start size c (k.logged l (l.idxOf s) s b) ∧ ∀ t, Home start size t →
      (k.logged l (l.idxOf s) s b).buf t = update k.buf s b t := by
  obtain ⟨h1, h2, h3, h4, h5, h6, h7, h8⟩ := h
  have hfit := hl.fits
  have hplace : ∀ t ∈ l, l.idxOf t < l.length := fun t => idxOf_lt_length_of_mem
  have hn := hplace s hs
  have hbuf : ∀ t, Home start size t →
      (k.logged l (l.idxOf s) s b).buf t = update k.buf s b t := fun t ht => by
    have := ht.ne_copy (i := l.idxOf s) (by omega)
    rw [← h1] at this
    simp only [State.logged, State.setLog_buf, State.write_buf, State.setBuf_buf]
    rw [update_of_ne this]
  have hne : ∀ t ∈ l, t ≠ s → start + l.idxOf t + 1 ≠ start + l.idxOf s + 1 := fun t ht e e' =>
    e ((idxOf_inj ht).mp (by omega))
  refine ⟨⟨h1, h2, hl, ?_, fun t ht => ?_, fun t ht => ?_, fun t ht => ?_, fun t ht hm => ?_⟩, hbuf⟩
  · simp only [State.logged, State.setLog_disk, State.write_disk, State.setBuf_disk, h1]
    rw [update_of_ne (by omega), h4]
  · simp only [State.logged, State.setLog_disk, State.write_disk, State.setBuf_disk, h1]
    rw [update_of_ne (ht.ne_copy (by omega)), h5 t ht]
  · rw [hbuf t (hl.home t ht)]
    simp only [State.logged, State.setLog_disk, State.setLog_log, State.write_disk,
      State.setBuf_disk, State.setBuf_buf, h1]
    by_cases e : t = s
    · rw [e, update_self, update_self, update_self]
    · obtain ⟨ht', e'⟩ := hold t ht e
      rw [update_of_ne (hne t ht e), update_of_ne e, e', h6 t ht']
  · rw [hbuf t (hl.home t ht)]
    simp only [State.logged, State.setLog_buf, State.setLog_log, State.write_buf, State.setBuf_buf,
      h1]
    by_cases e : t = s
    · rw [e, update_self, update_self]
    · obtain ⟨ht', e'⟩ := hold t ht e
      rw [update_of_ne (hne t ht e), update_of_ne e, update_of_ne, e',
        h7 t ht']
      exact ((hl.home s hs).ne_copy (by have := hplace t ht; omega)).symm
  · rw [hbuf t ht, update_of_ne, h8 t ht fun h => hm (hnew t h)]
    rintro rfl
    exact hm hs

theorem LogList.snoc (h : LogList start size l) (hm : s ∉ l) (hs : Home start size s)
    (hb : s < 2 ^ 32) (hshort : l.length < LOGSIZE) (hroom : l.length + 1 < size) :
    LogList start size (l ++ [s]) := by
  have hmem : ∀ t ∈ l ++ [s], t ∈ l ∨ t = s := fun t ht => by simpa using ht
  refine ⟨List.Nodup.append h.nodup (by simp) (by simpa using hm), fun t ht => ?_, ?_, ?_, fun t ht => ?_⟩
  · rcases hmem t ht with ht | rfl
    · exact h.home t ht
    · exact hs
  · simpa using hroom
  · rw [length_append]
    exact hshort
  · rcases hmem t ht with ht | rfl
    · exact h.bound t ht
    · exact hb

/-- `log_write` inside a transaction: the disk recovers to what it did. -/
theorem logWrite_spec (h : Logged start size c k) {b : Block} (hs : Home start size s) (hb : s < 2 ^ 32)
    (hE : ∀ msg k', (k.log.busy = true → msg = "too big a transaction" ∧
      min LOGSIZE (size - 1) ≤ k.log.lh.length) → k'.disk = k.disk → k'.past = k.past → E msg k') :
    (logWrite s b).wp (exec p) (fun _ k' => Logged start size c k' ∧ Beside k k' ∧
      k'.log.busy = k.log.busy ∧ k.log.busy = true ∧
      (s ∈ k'.log.lh ∧ ∀ t ∈ k'.log.lh, t = s ∨ t ∈ k.log.lh) ∧ k'.past = k.disk :: k.past ∧
      ∀ t, Home start size t → k'.buf t = update k.buf s b t) E k := by
  unfold logWrite
  simp only [Prog.wp_bind, Prog.wp_ite, wp_panic, wp_bset, wp_logEntry, wp_bread, wp_bwrite,
    wp_brelse, wp_setLh, Prog.wp_pure]
  refine ⟨fun hbig => hE _ _ (fun _ => ⟨rfl, ?_⟩) rfl rfl, fun hbig =>
    ⟨fun hbusy => hE _ _ (fun hb => ?_) rfl rfl, fun hbusy => ?_⟩⟩
  · rw [State.setBuf_log, h.room] at hbig
    omega
  · rw [State.setBuf_log, hb] at hbusy
    cases hbusy
  simp only [State.setBuf_log, Bool.not_eq_false] at hbig hbusy
  obtain ⟨hbig, hroom⟩ := not_or.mp hbig
  rw [h.room] at hroom
  have hl := h.list
  by_cases hm : s ∈ k.log.lh
  · refine ⟨fun e => absurd e (Nat.ne_of_lt (idxOf_lt_length_of_mem hm)), fun _ => ?_⟩
    obtain ⟨hw, hbuf⟩ := h.write (b := b) hl hm (fun t ht _ => ⟨ht, rfl⟩) (fun t ht => ht)
    exact ⟨hw, ⟨rfl, rfl⟩, rfl, hbusy, ⟨hm, fun _ ht => .inr ht⟩, rfl, hbuf⟩
  · have hi : k.log.lh.idxOf s = k.log.lh.length := idxOf_eq_length hm
    have hi' : (k.log.lh ++ [s]).idxOf s = k.log.lh.length := by
      rw [idxOf_append_of_notMem hm]
      simp
    refine ⟨fun _ => ?_, fun e => absurd hi e⟩
    obtain ⟨hw, hbuf⟩ := h.write (s := s) (b := b) (hl.snoc hm hs hb (by omega) (by omega))
      (by simp) (fun t ht e => by
        have ht' : t ∈ k.log.lh := by simpa [e] using ht
        exact ⟨ht', idxOf_append_of_mem ht'⟩)
      (fun t ht => mem_append_left _ ht)
    rw [hi'] at hw hbuf
    have e : (k.setBuf s b).log.lh.idxOf s = k.log.lh.length := hi
    rw [e]
    refine ⟨hw, ⟨rfl, rfl⟩, rfl, hbusy, ⟨by simp, fun t ht => ?_⟩, rfl, hbuf⟩
    obtain ht | ht := mem_append.mp ht
    · exact .inr ht
    · exact .inl (mem_singleton.mp ht)

/-! ### Installing and committing -/

theorem Installing.install (h : Installing start size c l k) (hs : s ∈ l) :
    Installing start size c l ((k.setBuf s (c s)).write s) := by
  obtain ⟨h1, h2, h3, h4, h5, h6⟩ := h
  have hhome := h1.home s hs
  have hne : ∀ t ∈ l, start + l.idxOf t + 1 ≠ s := fun t ht =>
    (hhome.ne_copy (by have := idxOf_lt_length_of_mem ht; have := h1.fits; omega)).symm
  refine ⟨h1, h2, ?_, fun t ht => ?_, fun t ht => ?_, fun t ht hm => ?_⟩
  · rw [State.write_disk, update_of_ne, State.setBuf_disk, h3]
    have := h1.fits
    unfold Home at hhome
    omega
  · rw [State.write_disk, update_of_ne (hne t ht), State.setBuf_disk, h4 t ht]
  · rw [State.write_buf, State.setBuf_buf, update_of_ne (hne t ht), h5 t ht]
  · rw [State.write_disk, update_of_ne, State.setBuf_disk, h6 t ht hm]
    rintro rfl
    exact hm hs

/-- The loop of `install_trans`: all disks on the way recover to the same contents. -/
theorem installLoop_spec {l1 l2 : List ℕ} (hl : l = l1 ++ l2) (h : Installing start size c l k) :
    (installLoop start l1.length l2).wp (exec p) (fun _ k' => Installing start size c l k' ∧
      Beside k k' ∧ k'.log = k.log ∧
      (∀ s, k'.disk s = if s ∈ l2 then c s else k.disk s) ∧
      (∀ s, k'.buf s = if s ∈ l2 then c s else k.buf s) ∧
      ∃ ds, k'.past = ds ++ k.past ∧ ∀ e ∈ ds, Recovers start size c e) E k := by
  induction l2 generalizing l1 k with
  | nil => exact ⟨h, .refl k, rfl, by simp, by simp, [], rfl, by simp⟩
  | cons s l2 ih =>
    have hs : s ∈ l := by simp [hl]
    have hnot : s ∉ l1 := fun hm => by
      have hd := h.list.nodup
      rw [hl] at hd
      exact (nodup_append.mp hd).2.2 s hm s (by simp) rfl
    have hidx : l.idxOf s = l1.length := by
      rw [hl, idxOf_append_of_notMem hnot]
      simp
    have hcopy := h.copyBuf s hs
    rw [hidx] at hcopy
    unfold installLoop
    simp only [Prog.wp_bind, wp_bread, wp_bset, wp_bwrite, wp_brelse]
    rw [hcopy]
    have hsplit : l = (l1 ++ [s]) ++ l2 := by simp [hl]
    have hnext := ih hsplit (h.install hs)
    rw [length_append, length_singleton] at hnext
    refine Prog.wp_mono hnext (fun _ k' hk => ?_) fun _ _ he => he
    obtain ⟨h1, h2, h3, h4, h5, ds, h6, h7⟩ := hk
    refine ⟨h1, ⟨h2.inode, h2.tab⟩, h3, fun t => ?_, fun t => ?_, ds ++ [k.disk], ?_,
      fun e he => ?_⟩
    · rw [h4 t]
      by_cases e : t = s
      · subst e
        simp
      · simp [e]
    · rw [h5 t]
      by_cases e : t = s
      · subst e
        simp
      · simp [e]
    · rw [h6]
      simp
    · rcases mem_append.mp he with he | he
      · exact h7 e he
      · rw [mem_singleton.mp he]
        exact h.recovers

theorem installTrans_spec (h : Installing start size c k.log.lh k) :
    installTrans.wp (exec p) (fun _ k' => Installing start size c k.log.lh k' ∧
      Beside k k' ∧ k'.log = k.log ∧
      (∀ s, k'.disk s = if s ∈ k.log.lh then c s else k.disk s) ∧
      (∀ s, k'.buf s = if s ∈ k.log.lh then c s else k.buf s) ∧
      ∃ ds, k'.past = ds ++ k.past ∧ ∀ e ∈ ds, Recovers start size c e) E k := by
  unfold installTrans
  rw [Prog.wp_bind, wp_getLog, h.area]
  exact installLoop_spec (nil_append k.log.lh).symm h

/-- The state after `write_head`. -/
def State.headed (k : State) : State :=
  (k.setBuf k.log.start (putHeader (k.buf k.log.start) k.log.lh)).write k.log.start

theorem wp_writeHead {Q : Unit → State → Prop} :
    writeHead.wp (exec p) Q E k ↔ Q () k.headed := Iff.rfl

theorem headed_disk_of_ne (h : s ≠ k.log.start) : k.headed.disk s = k.disk s := by
  simp [State.headed, h]

theorem headed_buf_of_ne (h : s ≠ k.log.start) : k.headed.buf s = k.buf s := by
  simp [State.headed, h]

theorem headed_head (h : LogList start size k.log.lh) :
    getHeader (k.headed.disk k.log.start) = k.log.lh := by
  simp only [State.headed, State.write_disk, State.setBuf_buf, update_self]
  exact getHeader_put _ h.short h.bound

theorem Home.ne_start (h : Home start size s) (hsize : 0 < size) : s ≠ start := by
  unfold Home at h
  omega

theorem Logged.commit (h : Logged start size c k) :
    Installing start size k.buf k.log.lh k.headed := by
  have hlt := h.list.fits
  have hne : ∀ s ∈ k.log.lh, start + k.log.lh.idxOf s + 1 ≠ k.log.start := fun s hs => by
    rw [h.begins]
    omega
  refine ⟨h.list, h.begins, ?_, fun s hs => ?_, fun s hs => ?_, fun s hs hm => ?_⟩
  · rw [← h.begins]
    exact headed_head h.list
  · rw [headed_disk_of_ne (hne s hs), h.copy s hs]
  · rw [headed_buf_of_ne (hne s hs), h.copyBuf s hs]
  · rw [headed_disk_of_ne (by rw [h.begins]; exact hs.ne_start (by omega)), h.disk s hs,
      h.rest s hs hm]

/-- All copies are installed, and the list is empty: the empty header is written. -/
theorem Installing.erase (h : Installing start size c l k) (hsize : k.log.size = size)
    (hnil : k.log.lh = []) (hdisk : ∀ s, Home start size s → k.disk s = c s)
    (hbuf : ∀ s, Home start size s → k.buf s = c s) : Logged start size c k.headed := by
  have hlt := h.list.fits
  have hlh : k.headed.log.lh = [] := hnil
  refine ⟨h.area, hsize, by rw [hlh]; exact .nil (by omega), ?_, fun s hs => ?_, fun s hs => ?_,
    fun s hs => ?_, fun s hs _ => ?_⟩
  · have hlist : LogList start size k.log.lh := by
      rw [hnil]
      exact .nil (by omega)
    rw [← h.area, headed_head hlist, hnil]
  · rw [headed_disk_of_ne (by rw [h.area]; exact hs.ne_start (by omega)), hdisk s hs]
  · simp [hlh] at hs
  · simp [hlh] at hs
  · rw [headed_buf_of_ne (by rw [h.area]; exact hs.ne_start (by omega)), hbuf s hs]

/-- `commit_trans`: what was in the buffers is now what the disk recovers to. The disks before the
header was written recover to the contents `c` of the last commit, the others to the new ones. -/
theorem commitTrans_spec (h : Logged start size c k) :
    commitTrans.wp (exec p) (fun _ k' => Logged start size k.buf k' ∧ Beside k k' ∧
      k'.log.busy = false ∧ k'.log.lh = [] ∧ (∀ s, Home start size s → k'.buf s = k.buf s) ∧
      (k.log.lh = [] ∧ k'.past = k.past ∧ k'.disk = k.disk ∨ k.log.lh ≠ [] ∧
        ∃ ds, k'.past = ds ++ k.disk :: k.past ∧ ∀ e ∈ ds, Recovers start size k.buf e)) E k := by
  unfold commitTrans
  simp only [Prog.wp_bind, Prog.wp_ite, wp_getLog, wp_writeHead]
  refine ⟨fun hpos => ?_, fun hzero => ?_⟩
  · have hi := h.commit
    have hlt := h.list.fits
    refine Prog.wp_mono (installTrans_spec hi) (fun _ k2 hk => ?_) fun _ _ he => he
    obtain ⟨h1, h2, h3, h4, h5, ds, h6, h7⟩ := hk
    have hdisk : ∀ s, Home start size s → k2.disk s = k.buf s := fun s hs => by
      rw [h4 s]
      split_ifs with hm
      · rfl
      · exact hi.rest s hs hm
    have hbuf : ∀ s, Home start size s → k2.buf s = k.buf s := fun s hs => by
      rw [h5 s]
      split_ifs with hm
      · rfl
      · exact headed_buf_of_ne (by rw [h.begins]; exact hs.ne_start (by omega))
    have h1' : Installing start size k.buf k.log.lh (k2.setLog { k2.log with lh := [] }) :=
      ⟨h1.list, h1.area, h1.head, h1.copy, h1.copyBuf, h1.rest⟩
    have hl := h1'.erase (by rw [State.setLog_log, h3]; exact h.room) rfl hdisk hbuf
    obtain ⟨g1, g2, g3, g4, g5, g6, g7, g8⟩ := hl
    refine ⟨⟨g1, g2, g3, g4, g5, g6, g7, g8⟩, ⟨h2.inode, h2.tab⟩, rfl, rfl, fun s hs => ?_,
      .inr ⟨length_pos_iff.mp hpos, k2.disk :: ds, ?_, fun e he => ?_⟩⟩
    · exact (headed_buf_of_ne (by
        rw [State.setLog_log, h3]
        exact h.begins ▸ hs.ne_start (by omega))).trans (hbuf s hs)
    · show k2.disk :: k2.past = _
      rw [h6]
      rfl
    · rcases mem_cons.mp he with rfl | he
      · exact h1.recovers
      · exact h7 e he
  · have hnil : k.log.lh = [] := length_eq_zero_iff.mp (by omega)
    obtain ⟨h1, h2, h3, h4, h5, h6, h7, h8⟩ := h
    refine ⟨⟨h1, h2, h3, h4, fun s hs => ?_, h6, h7, fun s _ _ => rfl⟩, ⟨rfl, rfl⟩, rfl, hnil,
      fun s _ => rfl, .inl ⟨hnil, rfl, rfl⟩⟩
    exact (h5 s hs).trans (h8 s hs (by simp [hnil])).symm

end

end Xv6.Fs
