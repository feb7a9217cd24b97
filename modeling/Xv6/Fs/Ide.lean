import Mathlib.Data.Fintype.Card
import Xv6.Fs.Bcache
import Xv6.Lib.Fallible
import Xv6.Lib.Queue

/-! # The disk driver (`ide.c`)

The buffer at the head of `idequeue` is the one whose command the disk works on. `iderw` puts a buffer in
at the end, starts the disk if the queue was empty, and waits until the buffer is in sync with the disk;
`ideintr` takes the head out and starts the disk for the next buffer.

* **Interleaving.**  The queue is only touched with `idelock` held. A step is what a process or the interrupt
  handler does under the lock: `iderw` up to its loop, a test in the loop that succeeds (`leave`), `ideintr`.
* **Buffers.**  Only the process that has a buffer (`B_BUSY`) calls `iderw` for it and changes it (`edit`), so
  that there is one call for a buffer at a time.
* **The disk** performs the commands it is given, in order, and raises one interrupt for each and none
  otherwise; reading may fail. The commands that have been started are a list, as if there could be several.

The lists of requests in the order of arrival, of start and of completion are history. -/

namespace Xv6.Ide

open Queue Runs Function Bio Option List

variable {D : Type}

/-- The fields of `struct buf` that the driver uses. -/
structure Buf (D : Type) where
  busy : Bool
  valid : Bool
  dirty : Bool
  dev : ℕ
  sector : ℕ
  data : D

/-- `(flags & (B_VALID|B_DIRTY)) == B_VALID`. -/
def Buf.synced (x : Buf D) : Bool := x.valid && !x.dirty

/-- A command for a buffer, with the data to write, or `none` for reading. -/
structure Command (D : Type) where
  buf : Fin NBUF
  dev : ℕ
  sector : ℕ
  write : Option D

/-- `call b` is the number of the request for `b` that is under way, with the buffer as it was then. -/
structure System (D : Type) where
  buf : Fin NBUF → Buf D
  idequeue : Option (Fin NBUF)
  qnext : Fin NBUF → Option (Fin NBUF)
  havedisk1 : Bool
  commands : List (Command D)
  disk : ℕ × ℕ → D
  call : Fin NBUF → Option (ℕ × Buf D)
  arrived : List (Fin NBUF)
  started : List (Fin NBUF)
  completed : List (Command D)

/-- Why a function does not return. -/
inductive Stop where
  | panic (msg : String)
  | loops
deriving DecidableEq

/-- What `idestart` writes to the registers. -/
def command (b : Fin NBUF) (x : Buf D) : Command D :=
  { buf := b, dev := x.dev % 2, sector := x.sector % 2 ^ 28,
    write := if x.dirty = true then some x.data else none }

def idestart (s : System D) : Option (Fin NBUF) → Except Stop (System D)
  | none => .error (.panic "idestart")
  | some b =>
    .ok { s with commands := s.commands ++ [command b (s.buf b)], started := s.started ++ [b] }

/-- `iderw(b)` up to the loop. -/
def iderw (s : System D) (b : Fin NBUF) : Except Stop (System D) :=
  let x := s.buf b
  if x.busy = false then .error (.panic "iderw: buf not busy")
  else if x.synced = true then .error (.panic "iderw: nothing to do")
  else if x.dev ≠ 0 ∧ s.havedisk1 = false then .error (.panic "iderw: ide disk 1 not present")
  else
    match push NBUF s.idequeue s.qnext b with
    | none => .error .loops
    | some (idequeue, qnext) =>
      let s := { s with
        idequeue := idequeue, qnext := qnext,
        call := update s.call b (some (s.arrived.length, x)), arrived := s.arrived ++ [b] }
      if idequeue = some b then idestart s (some b) else .ok s

/-- `ideintr()`; `port` is what `insl` reads, or `none` if there was an error. -/
def ideintr (s : System D) (port : Option D) : Except Stop (System D) :=
  match s.idequeue with
  | none => .ok s
  | some b =>
    let x := s.buf b
    let data := if x.dirty = false then port.getD x.data else x.data
    let s := { s with
      idequeue := s.qnext b,
      buf := update s.buf b { x with data := data, valid := true, dirty := false } }
    if s.idequeue ≠ none then idestart s s.idequeue else .ok s

/-- What a command does to the disk. -/
def perform (disk : ℕ × ℕ → D) (c : Command D) : ℕ × ℕ → D :=
  match c.write with
  | some d => update disk (c.dev, c.sector) d
  | none => disk

inductive Event (D : Type) where
  | iderw (b : Fin NBUF)
  | ideintr (ok : Bool)
  | leave (b : Fin NBUF)
  | edit (b : Fin NBUF) (x : Buf D)

def step (s : System D) : Event D → Option (System D)
  | .iderw b => if (s.call b).isNone = true then (iderw s b).toOption else none
  | .ideintr ok =>
    match s.commands with
    | [] => none
    | c :: l =>
      let port := if ok = true then some (s.disk (c.dev, c.sector)) else none
      (ideintr { s with commands := l, disk := perform s.disk c, completed := s.completed ++ [c] }
        port).toOption
  | .leave b =>
    if (s.call b).isSome = true ∧ (s.buf b).synced = true then
      some { s with call := update s.call b none }
    else none
  | .edit b x => if (s.call b).isNone = true then some { s with buf := update s.buf b x } else none

/-- Before the first request. -/
def start (buf : Fin NBUF → Buf D) (qnext : Fin NBUF → Option (Fin NBUF)) (havedisk1 : Bool)
    (disk : ℕ × ℕ → D) : System D where
  buf := buf
  idequeue := none
  qnext := qnext
  havedisk1 := havedisk1
  commands := []
  disk := disk
  call := fun _ => none
  arrived := []
  started := []
  completed := []

/-! ### The queue -/

/-- `q` are the buffers in the queue, as they were when they were put in, and `r` those for which the disk
has a command. -/
structure Inv (disk : ℕ × ℕ → D) (s : System D) (r q : List (Fin NBUF)) : Prop where
  chain : Chain s.qnext s.idequeue q
  nodup : q.Nodup
  commands : s.commands = r.map fun b => command b (s.buf b)
  arrived : s.arrived = s.completed.map Command.buf ++ q
  started : s.started = s.completed.map Command.buf ++ r
  disk : s.disk = s.completed.foldl perform disk
  waiting : ∀ b i, q[i]? = some b → s.call b = some (s.completed.length + i, s.buf b) ∧
    (s.buf b).synced = false
  done : ∀ b i x, s.call b = some (i, x) → b ∉ q → s.completed[i]? = some (command b x)

section
variable {disk : ℕ × ℕ → D} {s s' : System D} {r q : List (Fin NBUF)} {b : Fin NBUF} {c : Command D}
  {l : List (Command D)}

theorem Inv.not_mem (h : Inv disk s r q) (hb : s.call b = none) : b ∉ q := fun hm => by
  obtain ⟨i, hi⟩ := getElem?_of_mem hm
  rw [(h.waiting b i hi).1] at hb
  cases hb

theorem Inv.idestart (h : Inv disk s [] q) (hr : Ide.idestart s (some b) = .ok s') : Inv disk s' [b] q := by
  obtain rfl := Except.ok.inj hr
  exact { h with commands := by simp [h.commands], started := by simp [h.started] }

theorem Inv.arrive (h : Inv disk s r q) (hb : s.call b = none) (hsync : (s.buf b).synced = false)
    {idequeue : Option (Fin NBUF)} {qnext : Fin NBUF → Option (Fin NBUF)}
    (hchain : Chain qnext idequeue (q ++ [b])) :
    Inv disk { s with
      idequeue := idequeue, qnext := qnext,
      call := update s.call b (some (s.arrived.length, s.buf b)), arrived := s.arrived ++ [b] }
      r (q ++ [b]) := by
  have hbq := h.not_mem hb
  refine ⟨hchain, h.nodup.append (nodup_singleton b) (by simpa using hbq), h.commands, ?_, h.started,
    h.disk, fun b' i hi => ?_, fun b' i x hc hn => ?_⟩
  · rw [h.arrived, append_assoc]
  · dsimp only
    rw [getElem?_append] at hi
    split_ifs at hi with hlt
    · have hne : b' ≠ b := by
        rintro rfl
        exact hbq (mem_of_getElem? hi)
      rw [update_of_ne hne]
      exact h.waiting b' i hi
    · obtain ⟨hi0, rfl⟩ : i - q.length = 0 ∧ b = b' := by simpa [getElem?_singleton] using hi
      refine ⟨?_, hsync⟩
      rw [update_self, h.arrived, length_append, length_map, show i = q.length by omega]
  · have hne : b' ≠ b := fun e => hn (by simp [e])
    dsimp only at hc
    rw [update_of_ne hne] at hc
    exact h.done b' i x hc fun hm => hn (mem_append_left _ hm)

theorem Inv.iderw (h : Inv disk s (q.take 1) q) (hb : s.call b = none) :
    Ide.iderw s b ≠ .error .loops ∧
      ∀ s', Ide.iderw s b = .ok s' → Inv disk s' ((q ++ [b]).take 1) (q ++ [b]) := by
  have hbq := h.not_mem hb
  have hlen : q.length ≤ NBUF := by simpa using h.nodup.length_le_card
  obtain ⟨idequeue, qnext, hpush, hchain⟩ := h.chain.push h.nodup hbq hlen
  unfold Ide.iderw
  rw [hpush]
  dsimp only
  split_ifs with h1 h2 h3 h4
  · exact ⟨nofun, nofun⟩
  · exact ⟨nofun, nofun⟩
  · exact ⟨nofun, nofun⟩
  · refine ⟨nofun, fun s' hs => ?_⟩
    cases q with
    | nil => exact (h.arrive hb (by simpa using h2) hchain).idestart hs
    | cons a l => exact absurd (some.inj (hchain.1.symm.trans h4)) fun e => hbq (by simp [e])
  · refine ⟨nofun, fun s' hs => ?_⟩
    obtain rfl := Except.ok.inj hs
    cases q with
    | nil => exact absurd hchain.1 h4
    | cons a l => exact h.arrive hb (by simpa using h2) hchain

/-- The head is taken out. -/
theorem Inv.complete (h : Inv disk s [b] (b :: q)) (x : Buf D) :
    Inv disk { s with
      idequeue := s.qnext b, commands := [], buf := update s.buf b x,
      disk := perform s.disk (command b (s.buf b)),
      completed := s.completed ++ [command b (s.buf b)] } [] q := by
  obtain ⟨hbq, hnd⟩ := nodup_cons.mp h.nodup
  refine ⟨h.chain.2, hnd, rfl, by simp [h.arrived, command], by simp [h.started, command],
    by simp [h.disk], fun b' i hi => ?_, fun b' i y hy hn => ?_⟩
  · have hne : b' ≠ b := by
      rintro rfl
      exact hbq (mem_of_getElem? hi)
    have hw := h.waiting b' (i + 1) hi
    dsimp only
    rw [update_of_ne hne, length_append, length_singleton, Nat.add_assoc, Nat.add_comm 1]
    exact hw
  · rcases eq_or_ne b' b with rfl | hne
    · obtain ⟨rfl, rfl⟩ := Prod.mk.inj (some.inj (hy.symm.trans (h.waiting b' 0 rfl).1))
      rw [Nat.add_zero, getElem?_concat_length]
    · have hp := h.done b' i y hy (by simp [hne, hn])
      rw [List.getElem?_append_left (List.getElem?_eq_some_iff.mp hp).1, hp]

theorem Inv.ideintr {port : Option D} (h : Inv disk s (q.take 1) q) (hc : s.commands = c :: l)
    (hr : Ide.ideintr { s with commands := l, disk := perform s.disk c, completed := s.completed ++ [c] }
      port = .ok s') : ∃ q', Inv disk s' (q'.take 1) q' := by
  have hcmd := h.commands
  cases q with
  | nil => rw [hc] at hcmd; cases hcmd
  | cons b q =>
    have hhead : s.idequeue = some b := h.chain.1
    obtain ⟨rfl, rfl⟩ := cons.inj (hc.symm.trans hcmd)
    unfold Ide.ideintr at hr
    simp only [hhead] at hr
    refine ⟨q, ?_⟩
    cases q with
    | nil =>
      have htail : s.qnext b = none := h.chain.2
      rw [if_neg (not_not.mpr htail)] at hr
      obtain rfl := Except.ok.inj hr
      exact h.complete _
    | cons b' q =>
      have htail : s.qnext b = some b' := h.chain.2.1
      rw [if_pos (by simp [htail])] at hr
      nth_rewrite 2 [htail] at hr
      exact (h.complete _).idestart hr

theorem Inv.leave (h : Inv disk s r q) (hb : (s.buf b).synced = true) :
    b ∉ q ∧ Inv disk { s with call := update s.call b none } r q := by
  have hbq : b ∉ q := fun hm => by
    obtain ⟨i, hi⟩ := getElem?_of_mem hm
    rw [(h.waiting b i hi).2] at hb
    cases hb
  refine ⟨hbq, { h with waiting := fun b' i hi => ?_, done := fun b' i x hc hn => ?_ }⟩
  · have hne : b' ≠ b := by
      rintro rfl
      exact hbq (mem_of_getElem? hi)
    dsimp only
    rw [update_of_ne hne]
    exact h.waiting b' i hi
  · dsimp only at hc
    rcases eq_or_ne b' b with rfl | hne
    · rw [update_self] at hc
      cases hc
    · rw [update_of_ne hne] at hc
      exact h.done b' i x hc hn

theorem Inv.edit (h : Inv disk s (q.take 1) q) (hb : s.call b = none) (x : Buf D) :
    Inv disk { s with buf := update s.buf b x } (q.take 1) q := by
  have hbq := h.not_mem hb
  have hne : ∀ b' ∈ q, update s.buf b x b' = s.buf b' := fun b' hm =>
    update_of_ne (by rintro rfl; exact hbq hm) _ _
  refine { h with commands := h.commands.trans ?_, waiting := fun b' i hi => ?_ }
  · refine map_congr_left fun b' hm => ?_
    dsimp only
    rw [hne b' (mem_of_mem_take hm)]
  · dsimp only
    rw [hne b' (mem_of_getElem? hi)]
    exact h.waiting b' i hi

theorem Inv.step {e : Event D} (h : Inv disk s (q.take 1) q) (hs : Ide.step s e = some s') :
    ∃ q', Inv disk s' (q'.take 1) q' := by
  cases e with
  | iderw b =>
    obtain ⟨hb, hr⟩ := ite_none_right_eq_some.mp hs
    exact ⟨_, (h.iderw (isNone_iff_eq_none.mp hb)).2 s' (Fallible.toOption_some hr)⟩
  | ideintr ok =>
    cases hc : s.commands with
    | nil => simp [Ide.step, hc] at hs
    | cons c l =>
      simp only [Ide.step, hc] at hs
      exact h.ideintr hc (Fallible.toOption_some hs)
  | leave b =>
    obtain ⟨hb, hs⟩ := ite_none_right_eq_some.mp hs
    obtain rfl := some.inj hs
    exact ⟨q, (h.leave hb.2).2⟩
  | edit b x =>
    obtain ⟨hb, hs⟩ := ite_none_right_eq_some.mp hs
    obtain rfl := some.inj hs
    exact ⟨q, h.edit (isNone_iff_eq_none.mp hb) x⟩

/-- A sector has what the last write to it put there. -/
theorem foldl_perform (l : List (Command D)) (a : ℕ × ℕ) : l.foldl perform disk a =
    (l.filterMap fun c => if (c.dev, c.sector) = a then c.write else none).getLast?.getD (disk a) := by
  induction l using reverseRecOn with
  | nil => rfl
  | append_singleton l c ih =>
    rw [foldl_append, filterMap_append, getLast?_append, foldl_cons, foldl_nil, perform]
    cases hc : c.write with
    | none => simpa [hc] using ih
    | some d =>
      obtain rfl | ha := eq_or_ne a (c.dev, c.sector)
      · simp [hc]
      · simpa [ha, ha.symm] using ih

/-- **The disk queue.**  In every run, the disk has at most one command, which is for the head of the queue;
no buffer is in the queue twice; requests are started and completed in the order of their arrival; the disk
has what the write commands put there; and when `iderw` returns, the command of this call has been
completed, which was a write of the buffer exactly if it was dirty. -/
theorem iderw_in_order {buf : Fin NBUF → Buf D} {qnext : Fin NBUF → Option (Fin NBUF)} {havedisk1 : Bool}
    (h : Reaches step Always (start buf qnext havedisk1 disk) s) :
    ∃ q, Chain s.qnext s.idequeue q ∧ q.Nodup ∧ s.commands.map Command.buf = q.take 1 ∧
      s.arrived = s.completed.map Command.buf ++ q ∧
      s.started = s.completed.map Command.buf ++ q.take 1 ∧
      (∀ a, s.disk a = (s.completed.filterMap fun c => if (c.dev, c.sector) = a then c.write else none).getLast?.getD
        (disk a)) ∧
      (∀ b, s.call b = none → iderw s b ≠ .error .loops) ∧
      ∀ b s', step s (.leave b) = some s' → b ∉ q ∧ (s'.buf b).valid = true ∧ (s'.buf b).dirty = false ∧
        ∃ i x c, s.call b = some (i, x) ∧ s.completed[i]? = some c ∧ c.buf = b ∧ c.dev = x.dev % 2 ∧
          c.sector = x.sector % 2 ^ 28 ∧ (x.dirty = true → c.write = some x.data) ∧
          (x.dirty = false → c.write = none) := by
  obtain ⟨q, hi⟩ := h.invariant (I := fun s => ∃ q, Inv disk s (q.take 1) q) (fun _ _ _ ⟨_, h⟩ _ hs => h.step hs)
    ⟨[], rfl, nodup_nil, rfl, rfl, rfl, rfl, nofun, nofun⟩
  refine ⟨q, hi.chain, hi.nodup, ?_, hi.arrived, hi.started, fun a => ?_, fun b hb => (hi.iderw hb).1,
    fun b s' hs => ?_⟩
  · simp [hi.commands, comp_def, command]
  · rw [hi.disk, foldl_perform]
  · obtain ⟨⟨hcall, hb⟩, hs⟩ := ite_none_right_eq_some.mp hs
    obtain rfl := some.inj hs
    obtain ⟨⟨i, x⟩, hx⟩ := isSome_iff_exists.mp hcall
    have hbq := (hi.leave hb).1
    obtain ⟨hv, hd⟩ : (s.buf b).valid = true ∧ (s.buf b).dirty = false := by simpa [Buf.synced] using hb
    exact ⟨hbq, hv, hd, i, x, _, hx, hi.done b i x hx hbq, rfl, rfl, rfl, fun h => if_pos h,
      fun h => if_neg (by simp [h])⟩

end

/-- Two requests, the second one dirty. -/
theorem iderw_in_order_two : ∃ s s' : System Bool,
    Reaches step Always (start (fun b => ⟨true, false, b = 1, 0, b, true⟩) (fun _ => none) false fun _ => false) s ∧
      step s (.leave 1) = some s' ∧ s.arrived = [0, 1] ∧ (s'.buf 1).valid = true ∧
      ∃ i x c, s.call 1 = some (i, x) ∧ s.completed[i]? = some c ∧ c.buf = 1 := by
  obtain ⟨s, hs, ht⟩ := reaches_of_exec step Always
    (start (fun b => ⟨true, false, b = 1, 0, b, true⟩) (fun _ => none) false fun _ => false)
    [.iderw 0, .iderw 1, .ideintr true, .ideintr true]
    (fun s => decide (s.arrived = [0, 1] ∧ (step s (.leave 1)).isSome = true)) (by decide +kernel)
  obtain ⟨ha, hl⟩ := of_decide_eq_true ht
  obtain ⟨s', hs'⟩ := isSome_iff_exists.mp hl
  obtain ⟨q, -, -, -, -, -, -, -, hq⟩ := iderw_in_order hs
  obtain ⟨-, hv, -, i, x, c, hx, hp, hb, -⟩ := hq 1 s' hs'
  exact ⟨s, s', hs, hs', ha, hv, i, x, c, hx, hp, hb⟩

end Xv6.Ide
