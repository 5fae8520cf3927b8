/-
  Cs238p.Logfs.Wcache — the write cache of `project-4/logfs.c`: a ring of 32 blocks
  between `write_to_queue` (the producer) and `write_to_device` (the background writer).

  The three `uint8_t` of `wcache_utils` are naturals with their wrap written out.
  `enqueue` and `dequeue` are what the two functions do under the mutex.

  Proved: the ring is a FIFO (`Fifo`, kept by `Fifo.enqueue` and `Fifo.dequeue`), and what
  `check_in_wcache` answers for a block that was handed to the queue: its bytes as long
  as no block 32 later has taken its slot (`Fifo.check_recent`, `Fifo.check_old`).
-/
import Cs238p.Lib.Ring
import Cs238p.Logfs.Device

namespace Cs238p.Logfs

open ByteMemory

structure Block where
  blk : Nat
  buf : List UInt8
  deriving DecidableEq, Repr

/-- `wc_utils` and `wcache`. -/
structure Wcache where
  head : Nat
  tail : Nat
  activeBlks : Nat
  slots : Nat → Block

/-- The slots as `logfs_open` leaves them: block number 3, unaligned, and the bytes
    `malloc` returned. -/
def wcacheOpen (junk : Nat → List UInt8) : Wcache := ⟨0, 0, 0, fun i => ⟨3, junk i⟩⟩

/-- The critical section of `write_to_queue`. -/
def enqueue (w : Wcache) (b : Block) : Wcache :=
  { head := (w.head + 1) % 32
    tail := w.tail
    activeBlks := (w.activeBlks + 1) % 256
    slots := Function.update w.slots w.head b }

/-- The critical section of `write_to_device`: the slot taken (`wcache_unit`) with the
    copy of its bytes, and the ring without it. -/
def dequeue (w : Wcache) : (Nat × List UInt8) × Wcache :=
  ((w.tail, (w.slots w.tail).buf), { w with tail := (w.tail + 1) % 32, activeBlks := (w.activeBlks + 255) % 256 })

/-- `check_in_wcache`. -/
def checkInWcache (w : Wcache) (blkStart : Nat) : Option (List UInt8) :=
  ((List.range 32).find? fun i => (w.slots i).blk == blkStart).map fun i => (w.slots i).buf

/-! ## The ring is a FIFO -/

/-- The ring when `handed` are the blocks given to `write_to_queue` so far and `taken` of
    them have been dequeued. -/
structure Fifo (init : Nat → Block) (w : Wcache) (handed : List Block) (taken : Nat) : Prop where
  slots : RingBuffer.Holds 32 init handed w.slots
  head : w.head = handed.length % 32
  tail : w.tail = taken % 32
  active : taken + w.activeBlks = handed.length
  le : w.activeBlks ≤ 32

variable {init : Nat → Block} {w : Wcache} {handed : List Block} {taken : Nat}

theorem fifo_open (junk : Nat → List UInt8) : Fifo (fun i => ⟨3, junk i⟩) (wcacheOpen junk) [] 0 :=
  ⟨RingBuffer.holds_nil, rfl, rfl, rfl, Nat.zero_le _⟩

theorem Fifo.enqueue (h : Fifo init w handed taken) (hlt : w.activeBlks < 32) (b : Block) :
    Fifo init (enqueue w b) (handed ++ [b]) taken := by
  obtain ⟨hs, hh, ht, ha, hle⟩ := h
  refine ⟨?_, ?_, ht, ?_, ?_⟩
  · simp only [Logfs.enqueue, hh]; exact hs.put b
  · simp only [Logfs.enqueue, hh, List.length_append, List.length_singleton]; omega
  · simp only [Logfs.enqueue, List.length_append, List.length_singleton]; omega
  · simp only [Logfs.enqueue]; omega

theorem Fifo.dequeue (h : Fifo init w handed taken) (h0 : w.activeBlks ≠ 0) :
    Fifo init (dequeue w).2 handed (taken + 1) := by
  obtain ⟨hs, hh, ht, ha, hle⟩ := h
  refine ⟨hs, hh, ?_, ?_, ?_⟩
  · simp only [Logfs.dequeue, ht]; omega
  · simp only [Logfs.dequeue]; omega
  · simp only [Logfs.dequeue]; omega

/-- What the consumer takes is the oldest block not taken yet. -/
theorem Fifo.slot_tail (h : Fifo init w handed taken) (ht : taken < handed.length) :
    w.slots w.tail = handed[taken] := by
  have := h.active
  have := h.le
  rw [h.tail]
  exact h.slots.recent taken ht (by omega)

/-! ## Looking a block up -/

/-- No two blocks handed to the queue have one number: the log is append-only. -/
def Distinct (handed : List Block) : Prop :=
  ∀ j k (hj : j < handed.length) (hk : k < handed.length), handed[j].blk = handed[k].blk → j = k

theorem distinct_append {b : Block} (h : Distinct handed) (hb : ∀ x ∈ handed, x.blk ≠ b.blk) :
    Distinct (handed ++ [b]) := by
  intro j k hj hk he
  simp only [List.length_append, List.length_singleton] at hj hk
  by_cases ej : j < handed.length
  · rw [List.getElem_append_left ej] at he
    by_cases ek : k < handed.length
    · rw [List.getElem_append_left ek] at he; exact h j k ej ek he
    · rw [List.getElem_append_right (by omega)] at he
      exact absurd (by simpa using he) (hb _ (List.getElem_mem ej))
  · rw [List.getElem_append_right (by omega)] at he
    by_cases ek : k < handed.length
    · rw [List.getElem_append_left ek] at he
      exact absurd (by simpa using he.symm) (hb _ (List.getElem_mem ek))
    · omega

theorem find_range {p : Nat → Bool} {n i : Nat} (h : (List.range n).find? p = some i) :
    p i = true ∧ i < n ∧ ∀ j < i, p j = false := by
  rw [List.find?_range_eq_some] at h
  exact ⟨h.1, List.mem_range.mp h.2.1, fun j hj => by simpa using h.2.2 j hj⟩

/-- A block less than a turn old is found, with its bytes. -/
theorem Fifo.check_recent (h : Fifo init w handed taken) (hd : Distinct handed) {k : Nat} (hk : k < handed.length)
    (hr : handed.length ≤ k + 32) : checkInWcache w handed[k].blk = some handed[k].buf := by
  have hslot := h.slots.recent k hk hr
  unfold checkInWcache
  cases hf : (List.range 32).find? fun i => (w.slots i).blk == handed[k].blk with
  | none =>
    have := List.find?_eq_none.mp hf (k % 32) (List.mem_range.mpr (Nat.mod_lt _ (by decide)))
    simp [hslot] at this
  | some i =>
    obtain ⟨hp, hi, hfirst⟩ := find_range hf
    rw [beq_iff_eq] at hp
    rcases h.slots.slot_cases (by decide) hi with ⟨j, hj, -, -, he⟩ | ⟨hu, -⟩
    · rw [he] at hp
      have := hd j k hj hk hp
      subst this
      simp [he]
    · -- a slot never filled lies past every filled one, so the search stops before it
      have := hfirst (k % 32) (by omega)
      simp [hslot] at this

/-- A block that many others have been handed after is in no slot. -/
theorem Fifo.check_old (h : Fifo init w handed taken) (hd : Distinct handed) {k : Nat} (hk : k + 32 < handed.length) :
    checkInWcache w handed[k].blk = none := by
  unfold checkInWcache
  rw [Option.map_eq_none_iff, List.find?_eq_none]
  intro i hi hp
  rw [beq_iff_eq] at hp
  rcases h.slots.slot_cases (by decide) (List.mem_range.mp hi) with ⟨j, hj, -, hr, he⟩ | ⟨hu, -⟩
  · rw [he] at hp
    have := hd j k hj (by omega) hp
    omega
  · have := List.mem_range.mp hi; omega

/-! ## The blocks on the device -/

/-- Whole blocks at their own places inside the device, no two at one place. -/
structure Placed (d : Device) (handed : List Block) : Prop where
  length : ∀ b ∈ handed, b.buf.length = d.block
  aligned : ∀ b ∈ handed, b.blk % d.block = 0
  inside : ∀ b ∈ handed, b.blk + d.block ≤ d.size
  distinct : Distinct handed

theorem Placed.admits {d : Device} (h : Placed d handed) {b : Block} (hb : b ∈ handed) :
    d.Admits b.blk d.block :=
  ⟨h.aligned b hb, Nat.mod_self _, h.inside b hb⟩

theorem placed_nil (d : Device) : Placed d [] :=
  ⟨fun _ h => absurd h List.not_mem_nil, fun _ h => absurd h List.not_mem_nil,
    fun _ h => absurd h List.not_mem_nil, fun _ _ h => absurd h (Nat.not_lt_zero _)⟩

theorem Placed.append {d : Device} (h : Placed d handed) {b : Block} (hl : b.buf.length = d.block)
    (ha : d.Admits b.blk d.block) (hn : ∀ x ∈ handed, x.blk ≠ b.blk) : Placed d (handed ++ [b]) := by
  have all : ∀ {P : Block → Prop}, (∀ x ∈ handed, P x) → P b → ∀ x ∈ handed ++ [b], P x := by
    intro P h1 h2 x hx
    rcases List.mem_append.mp hx with hx | hx
    · exact h1 x hx
    · simp only [List.mem_singleton] at hx; subst hx; exact h2
  exact ⟨all h.length hl, all h.aligned ha.1, all h.inside ha.2.2, distinct_append h.distinct hn⟩

theorem Placed.of_geometry {d d' : Device} (h : Placed d handed) (hs : d'.size = d.size) (hb : d'.block = d.block) :
    Placed d' handed :=
  ⟨fun b hm => by rw [hb]; exact h.length b hm, fun b hm => by rw [hb]; exact h.aligned b hm,
    fun b hm => by rw [hb, hs]; exact h.inside b hm, h.distinct⟩

/-- Whole blocks at their own places, wherever the device ends. -/
structure Laid (B : Nat) (handed : List Block) : Prop where
  length : ∀ b ∈ handed, b.buf.length = B
  aligned : ∀ b ∈ handed, b.blk % B = 0
  distinct : Distinct handed

theorem Placed.laid {d : Device} (h : Placed d handed) : Laid d.block handed := ⟨h.length, h.aligned, h.distinct⟩

/-- The first `n` blocks are on the device, each at its own place. -/
def Stored (d : Device) (handed : List Block) (n : Nat) : Prop :=
  ∀ k (h : k < handed.length), k < n → d.bytes.read handed[k].blk d.block = handed[k].buf

theorem Stored.append {d : Device} {n : Nat} {new : List Block} (h : Stored d handed n) (hn : n ≤ handed.length) :
    Stored d (handed ++ new) n := by
  intro k hk hkn
  rw [List.getElem_append_left (by omega)]
  exact h k (by omega) hkn

/-- Writing the next block at its own place. -/
theorem Stored.write {d : Device} {n : Nat} (h : Stored d handed n) (hl : Laid d.block handed)
    (hn : n < handed.length) :
    Stored { d with bytes := d.bytes.write handed[n].blk handed[n].buf } handed (n + 1) := by
  intro k hk hkn
  have hlen : handed[n].buf.length = d.block := hl.length _ (List.getElem_mem hn)
  by_cases e : k = n
  · subst e
    have := (d.bytes).read_write handed[k].blk handed[k].buf
    rwa [hlen] at this
  · have hne : handed[k].blk ≠ handed[n].blk := fun he => e (hl.distinct k n hk hn he)
    have := Mem.aligned_disjoint (hl.aligned _ (List.getElem_mem hk)) (hl.aligned _ (List.getElem_mem hn)) hne
    show (d.bytes.write handed[n].blk handed[n].buf).read handed[k].blk d.block = _
    rw [Mem.read_write_of_disjoint (by rw [hlen]; exact this)]
    exact h k hk (by omega)

end Cs238p.Logfs
