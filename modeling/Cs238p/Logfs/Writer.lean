/-
  Cs238p.Logfs.Writer — the producer and the background writer of `project-4/logfs.c`,
  interleaved.

  Steps. The critical section of `write_to_queue` (`enqueue`, when fewer than 32 blocks
  are active); the critical section of `write_to_device` (`dequeue`: copy the tail slot's
  bytes, free the slot); and the `device_write` the writer makes after the unlock
  (`write`). That last step has the copied bytes, but reads the block number through
  `wcache_unit`, from the slot as it is by then. `logfs_append` hands over whole blocks
  of the log, each block number once.

  A reader that misses the read cache looks in all slots, then on the device (`lookup`).

  Between `dequeue` and `write` the slot is free, and the producer may fill it: it does
  when 31 blocks are active and the ring comes round. Then the dequeued block is neither
  in a slot nor on the device (`a_block_is_unreadable`), and the pending write puts its
  bytes at the number of the block that took the slot (`a_block_is_misdirected`).
  Proved: runs in which this never happens (`Clear`) keep every block readable
  (`readable`) and put every block at its own place (`written_in_place`); and in any run
  at all a write goes to its own place exactly when fewer than 32 blocks are active at
  that moment.
-/
import Cs238p.Logfs.Wcache

namespace Cs238p.Logfs

open ByteMemory

structure WriterSt where
  wc : Wcache
  device : Device
  /-- `wcache_unit` and the copied bytes, between the unlock and the device write. -/
  pending : Option (Nat × List UInt8)
  /-- The blocks given to `write_to_queue`, in order. -/
  handed : List Block
  /-- How many of them have been dequeued. -/
  taken : Nat

inductive Act where
  | enqueue (b : Block)
  | dequeue
  | write

inductive Step : WriterSt → Act → WriterSt → Prop
  | enqueue (s : WriterSt) (b : Block) : s.wc.activeBlks < 32 → b.buf.length = s.device.block →
      s.device.Admits b.blk s.device.block → (∀ x ∈ s.handed, x.blk ≠ b.blk) →
      Step s (.enqueue b) { s with wc := enqueue s.wc b, handed := s.handed ++ [b] }
  | dequeue (s : WriterSt) : s.pending = none → s.wc.activeBlks ≠ 0 →
      Step s .dequeue { s with wc := (dequeue s.wc).2, pending := some (dequeue s.wc).1, taken := s.taken + 1 }
  | write (s : WriterSt) (i : Nat) (buf : List UInt8) (d : Device) : s.pending = some (i, buf) →
      deviceWrite s.device buf (s.wc.slots i).blk s.device.block = .ok d →
      Step s .write { s with device := d, pending := none }

def start (d : Device) (junk : Nat → List UInt8) : WriterSt := ⟨wcacheOpen junk, d, none, [], 0⟩

/-- The states of the runs whose steps all meet `ok`. -/
inductive Reach (d : Device) (junk : Nat → List UInt8) (ok : WriterSt → Act → Prop) : WriterSt → Prop
  | start : Reach d junk ok (start d junk)
  | step {s s' : WriterSt} {a : Act} : Reach d junk ok s → ok s a → Step s a s' → Reach d junk ok s'

def anyStep : WriterSt → Act → Prop := fun _ _ => True

/-- The step does not fill the slot whose device write is pending. -/
def Clear (s : WriterSt) : Act → Prop
  | .enqueue _ => s.pending = none ∨ s.wc.activeBlks ≠ 31
  | _ => True

/-- A block as `read_mem` finds it on a read cache miss. -/
def lookup (s : WriterSt) (blkStart : Nat) : Except Stop (Option (List UInt8)) :=
  match checkInWcache s.wc blkStart with
  | some buf => .ok (some buf)
  | none => deviceRead s.device false blkStart s.device.block

/-- The pending write would put the bytes it copied at the number they were handed over
    with: the block is the one dequeued last. -/
def InPlace (s : WriterSt) (i : Nat) (buf : List UInt8) : Prop :=
  ∃ b, s.handed[s.taken - 1]? = some b ∧ buf = b.buf ∧ (s.wc.slots i).blk = b.blk

/-! ## Every run -/

structure WriterInv (d : Device) (junk : Nat → List UInt8) (s : WriterSt) : Prop where
  fifo : Fifo (fun i => ⟨3, junk i⟩) s.wc s.handed s.taken
  placed : Placed s.device s.handed
  block_eq : s.device.block = d.block
  pending : ∀ i buf, s.pending = some (i, buf) → 0 < s.taken ∧ i = (s.taken - 1) % 32 ∧
    ∃ b, s.handed[s.taken - 1]? = some b ∧ buf = b.buf

variable {d : Device} {junk : Nat → List UInt8} {ok : WriterSt → Act → Prop}

theorem WriterInv.start : WriterInv d junk (start d junk) :=
  ⟨fifo_open junk, placed_nil d, rfl, fun _ _ h => by cases h⟩

theorem WriterInv.taken_le {s : WriterSt} (h : WriterInv d junk s) : s.taken ≤ s.handed.length := by
  have := h.fifo.active; omega

/-- A device write changes bytes only. -/
theorem deviceWrite_geometry {e e' : Device} {buf : List UInt8} {off len : Nat}
    (h : deviceWrite e buf off len = .ok e') :
    e'.size = e.size ∧ e'.block = e.block := by
  unfold deviceWrite at h
  split at h
  · cases h; exact ⟨rfl, rfl⟩
  · cases h

theorem WriterInv.step {s s' : WriterSt} {a : Act} (h : WriterInv d junk s) (hs : Step s a s') :
    WriterInv d junk s' := by
  cases hs with
  | enqueue b hlt hlen hadm hnew =>
    refine ⟨h.fifo.enqueue hlt b, h.placed.append hlen hadm hnew, h.block_eq, ?_⟩
    intro i buf hp
    obtain ⟨hpos, hi, x, hx, hbuf⟩ := h.pending i buf hp
    refine ⟨hpos, hi, x, ?_, hbuf⟩
    have hlt := (List.getElem?_eq_some_iff.mp hx).1
    show (s.handed ++ [b])[s.taken - 1]? = some x
    rw [List.getElem?_append_left hlt]
    exact hx
  | dequeue hn h0 =>
    have ht : s.taken < s.handed.length := by have := h.fifo.active; omega
    refine ⟨h.fifo.dequeue h0, h.placed, h.block_eq, ?_⟩
    intro i buf hp
    simp only [dequeue, Option.some.injEq, Prod.mk.injEq] at hp
    obtain ⟨rfl, rfl⟩ := hp
    refine ⟨Nat.succ_pos _, h.fifo.tail, s.handed[s.taken], ?_, ?_⟩
    · simp only [Nat.add_sub_cancel]
      exact List.getElem?_eq_getElem ht
    · rw [h.fifo.slot_tail ht]
  | write i buf e hp hw =>
    obtain ⟨hsz, hbl⟩ := deviceWrite_geometry hw
    exact ⟨h.fifo, h.placed.of_geometry hsz hbl, by rw [← h.block_eq]; exact hbl, fun _ _ hn => by cases hn⟩

theorem writerInv {s : WriterSt} (h : Reach d junk ok s) : WriterInv d junk s := by
  induction h with
  | start => exact .start
  | step _ _ hs ih => exact ih.step hs

/-- In any run, a pending write goes to its own place iff its slot has not been filled
    again, that is iff fewer than 32 blocks are active. -/
theorem WriterInv.inPlace_iff {s : WriterSt} (h : WriterInv d junk s) {i : Nat} {buf : List UInt8}
    (hp : s.pending = some (i, buf)) : InPlace s i buf ↔ s.wc.activeBlks ≠ 32 := by
  obtain ⟨hpos, rfl, b, hb, hbuf⟩ := h.pending i buf hp
  obtain ⟨hlt, rfl⟩ := List.getElem?_eq_some_iff.mp hb
  have ha := h.fifo.active
  have hle := h.fifo.le
  constructor
  · intro h he
    obtain ⟨x, hx, -, hblk⟩ := h
    rw [hb] at hx; cases hx
    -- the slot holds the block 32 later
    have hl : s.taken - 1 + 32 < s.handed.length := by omega
    have hr := h.fifo.slots.recent (s.taken - 1 + 32) hl (by omega)
    rw [Nat.add_mod_right] at hr
    rw [hr] at hblk
    have := h.placed.distinct _ _ hl hlt hblk
    omega
  · intro hne
    exact ⟨_, hb, hbuf, by rw [h.fifo.slots.recent (s.taken - 1) hlt (by omega)]⟩

/-! ## Runs that leave the pending slot alone -/

/-- How many blocks are on the device: all that were dequeued but a pending one. -/
def written (s : WriterSt) : Nat := if s.pending = none then s.taken else s.taken - 1

structure Safe (s : WriterSt) : Prop where
  room : s.pending ≠ none → s.wc.activeBlks ≤ 31
  stored : Stored s.device s.handed (written s)

theorem Safe.step {s s' : WriterSt} {a : Act} (h : Safe s) (hi : WriterInv d junk s) (hc : Clear s a)
    (hs : Step s a s') :
    Safe s' := by
  have hle := hi.taken_le
  have hact := hi.fifo.active
  cases hs with
  | enqueue b hlt hlen hadm hnew =>
    refine ⟨?_, ?_⟩
    · intro hp
      have hr := h.room hp
      rcases hc with hc | hc
      · exact absurd hc hp
      · simp only [enqueue]; omega
    · intro k hk hkn
      have hw : written s ≤ s.taken := by unfold written; split <;> omega
      have hkn' : k < written s := hkn
      rw [List.getElem_append_left (by omega)]
      exact h.stored k (by omega) hkn'
  | dequeue hn h0 =>
    refine ⟨?_, fun k hk hkn => h.stored k hk ?_⟩
    · intro _
      have := hi.fifo.le; simp only [dequeue]; omega
    · simp only [written, hn, if_true]
      simpa [written] using hkn
  | write i buf e hp hw =>
    obtain ⟨hpos, rfl, b, hb, rfl⟩ := hi.pending i buf hp
    obtain ⟨hlt, rfl⟩ := List.getElem?_eq_some_iff.mp hb
    have hroom := h.room (by rw [hp]; simp)
    have hslot := hi.fifo.slots.recent (s.taken - 1) hlt (by omega)
    rw [hslot, deviceWrite_ok (hi.placed.admits (List.getElem_mem hlt))] at hw
    cases hw
    refine ⟨fun hn => absurd rfl hn, ?_⟩
    have hst : Stored s.device s.handed (s.taken - 1) := by simpa [written, hp] using h.stored
    have := hst.write hi.placed.laid hlt
    rw [show s.taken - 1 + 1 = s.taken by omega] at this
    simpa [written] using this

theorem safe {s : WriterSt} (h : Reach d junk Clear s) : Safe s := by
  induction h with
  | start => exact ⟨fun hn => absurd rfl hn, fun k hk _ => absurd hk (Nat.not_lt_zero k)⟩
  | step hr hc hs ih => exact ih.step (writerInv hr) hc hs

/-- Every block handed to the queue stays readable at every moment, in every run that
    never fills a slot whose device write is pending. -/
theorem readable {s : WriterSt} (h : Reach d junk Clear s) : ∀ b ∈ s.handed, lookup s b.blk = .ok (some b.buf) := by
  intro b hb
  have hi := writerInv h
  obtain ⟨k, hk, rfl⟩ := List.getElem_of_mem hb
  have hact := hi.fifo.active
  have hle := hi.fifo.le
  unfold lookup
  by_cases hr : s.handed.length ≤ k + 32
  · rw [hi.fifo.check_recent hi.placed.distinct hk hr]
  · -- it has left the ring: it was dequeued, and its write is not the pending one
    rw [hi.fifo.check_old hi.placed.distinct (by omega)]
    have hkw : k < written s := by
      unfold written
      split
      · omega
      · have := (safe h).room ‹_›; omega
    simp only
    rw [deviceRead_ok (hi.placed.admits (List.getElem_mem hk)), (safe h).stored k hk hkw]

/-- A device write puts the bytes it copied at the block number they were handed over
    with iff fewer than 32 blocks are active when it is made; and in every run that never
    fills a slot whose write is pending, all writes do, so that with nothing active or
    pending the device holds every block at its own place. -/
theorem written_in_place :
    (∀ s s' i buf, Reach d junk anyStep s → s.pending = some (i, buf) → Step s .write s' →
      (InPlace s i buf ↔ s.wc.activeBlks ≠ 32)) ∧
    (∀ s, Reach d junk Clear s →
      (∀ s' i buf, s.pending = some (i, buf) → Step s .write s' → InPlace s i buf) ∧
      (s.wc.activeBlks = 0 → s.pending = none → ∀ b ∈ s.handed, s.device.bytes.read b.blk s.device.block = b.buf)) := by
  refine ⟨fun s s' i buf h hp _ => (writerInv h).inPlace_iff hp, fun s h =>
    ⟨?_, ?_⟩⟩
  · intro s' i buf hp _
    have := (safe h).room (by rw [hp]; simp)
    exact ((writerInv h).inPlace_iff hp).mpr (by omega)
  · intro h0 hn b hb
    obtain ⟨k, hk, rfl⟩ := List.getElem_of_mem hb
    have := (writerInv h).fifo.active
    exact (safe h).stored k hk (by unfold written; rw [if_pos hn]; omega)

/-! ## The ring comes round to the pending slot -/

/-- 64 blocks of 512 zero bytes. -/
def device512 : Device := ⟨512 * 64, 512, ⟨fun _ => 0⟩, by decide, by decide, by decide⟩

def ones : List UInt8 := List.replicate 512 1

theorem length_ones : ones.length = 512 := List.length_replicate ..

/-- The `k`-th block of a log of ones. -/
def onesAt (k : Nat) : Block := ⟨512 * k, ones⟩

theorem admits_onesAt {k : Nat} (h : k < 64) : device512.Admits (onesAt k).blk device512.block := by
  refine ⟨?_, ?_, ?_⟩ <;> simp only [onesAt, device512] <;> omega

/-- The device holds zeros, the blocks hold ones. -/
theorem read_ne_ones (a : Nat) : device512.bytes.read a 512 ≠ ones := by
  intro hread
  have hzero : 0 < (device512.bytes.read a 512).length := by rw [Mem.length_read]; decide
  have hbyte : (device512.bytes.read a 512)[0]? = ones[0]? := by rw [hread]
  have hone : ones[0]? = some 1 := by rw [ones, List.getElem?_replicate, if_pos (by decide)]
  rw [List.getElem?_eq_getElem hzero, Mem.getElem_read, hone] at hbyte
  have h0 : device512.bytes.byte (a + 0) = 0 := rfl
  rw [h0] at hbyte
  exact absurd (Option.some.inj hbyte) (by decide)

/-- Block 0 is dequeued, and before its device write the producer appends `n` more. -/
theorem flood (junk : Nat → List UInt8) (n : Nat) (hn : n ≤ 32) :
    ∃ s, Reach device512 junk anyStep s ∧ s.handed = (List.range (n + 1)).map onesAt ∧ s.taken = 1 ∧
      s.pending = some (0, ones) ∧ s.device = device512 ∧ s.wc.activeBlks = n := by
  induction n with
  | zero =>
    have h1 : Reach device512 junk anyStep _ := .step .start trivial (.enqueue (start device512 junk) (onesAt 0)
      (show 0 < 32 by decide) length_ones (admits_onesAt (by decide)) (fun x hx => absurd hx List.not_mem_nil))
    have h2 := Reach.step h1 trivial (.dequeue _ rfl (show (0 + 1) % 256 ≠ 0 by decide))
    exact ⟨_, h2, rfl, rfl, rfl, rfl, show ((0 + 1) % 256 + 255) % 256 = 0 by decide⟩
  | succ n ih =>
    obtain ⟨s, hr, hh, ht, hp, hd, ha⟩ := ih (by omega)
    have hnew : ∀ x ∈ s.handed, x.blk ≠ (onesAt (n + 1)).blk := by
      intro x hx
      rw [hh] at hx
      obtain ⟨k, hk, rfl⟩ := List.mem_map.mp hx
      have := List.mem_range.mp hk
      simp only [onesAt]; omega
    have hstep := Reach.step hr trivial (.enqueue s (onesAt (n + 1)) (by omega) (by rw [hd]; exact length_ones)
      (by rw [hd]; exact admits_onesAt (by omega)) hnew)
    refine ⟨_, hstep, ?_, ht, hp, hd, ?_⟩
    · simp only [hh]
      rw [List.range_succ (n := n + 1), List.map_append]; rfl
    · simp only [enqueue, ha]; omega

/-- Block 0 waits for its device write, 32 more blocks fill the ring: block 0 is in no
    slot, and the device still has zeros where it belongs. -/
theorem a_block_is_unreadable :
    ¬ ∀ s, Reach device512 (fun _ => []) anyStep s → ∀ b ∈ s.handed, lookup s b.blk = .ok (some b.buf) := by
  intro hall
  obtain ⟨s, hr, hh, -, -, hd, -⟩ := flood (fun _ => []) 32 (by decide)
  have hi := writerInv hr
  have hlen : s.handed.length = 33 := by rw [hh]; simp
  have hpos : 0 < s.handed.length := by omega
  have h0 : s.handed[0] = onesAt 0 := by simp [hh]
  have hold := hi.fifo.check_old hi.placed.distinct (k := 0) (by omega)
  have := hall s hr (onesAt 0) (by rw [← h0]; exact List.getElem_mem _)
  rw [h0] at hold
  unfold lookup at this
  rw [hold, hd] at this
  simp only at this
  rw [deviceRead_ok (admits_onesAt (by decide))] at this
  exact read_ne_ones (onesAt 0).blk (Option.some.inj (Except.ok.inj this))

/-- The pending write of block 0 then goes to the place of block 32. -/
theorem a_block_is_misdirected :
    ¬ ∀ s s' i buf, Reach device512 (fun _ => []) anyStep s → s.pending = some (i, buf) → Step s .write s' →
      InPlace s i buf := by
  intro hall
  obtain ⟨s, hr, hh, ht, hp, hd, ha⟩ := flood (fun _ => []) 32 (by decide)
  have hi := writerInv hr
  have hlen : s.handed.length = 33 := by rw [hh]; simp
  have hslot := hi.fifo.slots.recent 32 (by omega) (by omega)
  have hlast : 32 < s.handed.length := by omega
  have h32 : s.handed[32] = onesAt 32 := by simp [hh]
  have hw : deviceWrite s.device ones (s.wc.slots 0).blk s.device.block = .ok _ :=
    deviceWrite_ok (by rw [show (0 : Nat) = 32 % 32 from rfl, hslot, h32, hd]; exact admits_onesAt (by decide))
  have := hall s _ 0 _ hr hp (.write s 0 _ _ hp hw)
  exact (hi.inPlace_iff hp).mp this ha

/-- Block 0 handed over and dequeued: its device write is pending. -/
theorem clear_run (junk : Nat → List UInt8) : ∃ s, Reach device512 junk Clear s ∧ s.handed = [onesAt 0] ∧
    s.pending = some (0, ones) ∧ s.device = device512 ∧ (s.wc.slots 0).blk = 0 := by
  have hclear : Clear (start device512 junk) (.enqueue (onesAt 0)) := Or.inl rfl
  have h1 : Reach device512 junk Clear _ := .step .start hclear (.enqueue (start device512 junk) (onesAt 0)
    (show 0 < 32 by decide) length_ones (admits_onesAt (by decide)) (fun x hx => absurd hx List.not_mem_nil))
  have h2 : Reach device512 junk Clear _ := .step h1 (show Clear _ .dequeue from trivial)
    (.dequeue _ rfl (show (0 + 1) % 256 ≠ 0 by decide))
  exact ⟨_, h2, rfl, rfl, rfl, rfl⟩

theorem readable_while_pending : ∃ s, s.pending = some (0, ones) ∧ lookup s 0 = .ok (some ones) := by
  obtain ⟨s, hr, hh, hp, -, -⟩ := clear_run fun _ => []
  exact ⟨s, hp, readable hr (onesAt 0) (by rw [hh]; exact List.mem_singleton.mpr rfl)⟩

theorem written_in_place_first : ∃ s, s.pending = some (0, ones) ∧ InPlace s 0 ones := by
  obtain ⟨s, hr, -, hp, hd, hb⟩ := clear_run fun _ => []
  have hw : deviceWrite s.device ones (s.wc.slots 0).blk s.device.block = .ok _ :=
    deviceWrite_ok (by rw [hb, hd]; exact admits_onesAt (k := 0) (by decide))
  exact ⟨s, hp, (written_in_place.2 s hr).1 _ 0 ones hp (.write s 0 ones _ hp hw)⟩

end Cs238p.Logfs
