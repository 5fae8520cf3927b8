/-
  Cs238p.Logfs.LogProofs — logfs is an append-only byte array.

  A byte of the log is in the current block, in one of the ring's slots, in the read cache
  or on the device. `Repr s log n` says that all four agree with `log`: the current block
  is the log's last one filled up with zeros; the whole blocks have been handed to the
  queue in order and those dequeued are on the device (`Queue`); a line of the read cache
  is unused or holds the block of one of the numbers below `n` that belongs there.
  `logfs_append` drops the current block from the read cache before it changes it, so
  while it runs `n` is the number of whole blocks; otherwise it is one more.

  Proved: a run of appends, reads and drains, whatever the schedule, answers what the byte
  array answers, and stops at no assertion of the device (`log_is_byte_array`).
-/
import Cs238p.Logfs.Log

namespace Cs238p.Logfs

open ByteMemory

/-! ## The log in blocks -/

/-- The block of the log at `a`, filled up with the zeros of `logfs_append`'s `memset`. -/
def padded (B : Nat) (log : List UInt8) (a : Nat) : List UInt8 := (log.drop a ++ List.replicate B 0).take B

/-- The whole blocks of the log. -/
def blocks (B : Nat) (log : List UInt8) : List Block :=
  (List.range (log.length / B)).map fun k => ⟨B * k, padded B log (B * k)⟩

variable {B : Nat} {log bs : List UInt8}

@[simp] theorem length_padded (a : Nat) : (padded B log a).length = B := by simp [padded]

theorem padded_append {a : Nat} (h : a + B ≤ log.length) : padded B (log ++ bs) a = padded B log a := by
  unfold padded
  rw [List.drop_append_of_le_length (by omega), List.append_assoc,
    List.take_append_of_le_length (by simp only [List.length_drop]; omega),
    List.take_append_of_le_length (by simp only [List.length_drop]; omega)]

/-- The block the log ends in. -/
theorem padded_last {a : Nat} (h : log.length ≤ a + B) :
    padded B log a = log.drop a ++ List.replicate (B - (log.length - a)) 0 := by
  unfold padded
  rw [List.take_append, List.take_of_length_le (by simp only [List.length_drop]; omega)]
  simp

theorem padded_end {a : Nat} (h : log.length ≤ a) : padded B log a = List.replicate B 0 := by
  rw [padded_last (by omega), List.drop_eq_nil_of_le h, List.nil_append]
  congr 1
  omega

/-- Bytes of the log read out of their block. -/
theorem take_drop_padded {a off len : Nat} (ha : a ≤ off) (hB : off + len ≤ a + B) (hl : off + len ≤ log.length) :
    ((padded B log a).drop (off - a)).take len = (log.drop off).take len := by
  unfold padded
  rw [List.drop_take, List.take_take, Nat.min_eq_left (by omega)]
  rw [List.drop_append_of_le_length (by simp only [List.length_drop]; omega), List.drop_drop,
    show a + (off - a) = off by omega]
  exact List.take_append_of_le_length (by simp only [List.length_drop]; omega)

/-- `memcpy` of what is appended into the last block. -/
theorem splice_padded {a : Nat} (ha : a ≤ log.length) (h : log.length + bs.length ≤ a + B) :
    splice (padded B log a) (log.length - a) bs = padded B (log ++ bs) a := by
  have hlen : (log.drop a).length = log.length - a := List.length_drop
  rw [padded_last (by omega), @padded_last _ (log ++ bs) _ (by simp only [List.length_append]; omega),
    List.drop_append_of_le_length ha]
  unfold splice
  rw [List.take_left' hlen, ← List.drop_drop, List.drop_left' hlen, List.drop_replicate]
  simp only [List.length_append]
  congr 2
  omega

@[simp] theorem length_blocks : (blocks B log).length = log.length / B := by simp [blocks]

theorem getElem_blocks {k : Nat} (h : k < (blocks B log).length) :
    (blocks B log)[k] = ⟨B * k, padded B log (B * k)⟩ := by
  simp [blocks]

/-- A whole block of the log lies inside it. -/
theorem block_le {k : Nat} (h : k < log.length / B) : B * k + B ≤ log.length := by
  have h1 : B * (k + 1) ≤ B * (log.length / B) := Nat.mul_le_mul_left B h
  have h2 := Nat.mul_div_le log.length B
  rw [Nat.mul_succ] at h1
  omega

/-- The whole blocks stay what they are. -/
theorem blocks_kept : (List.range (log.length / B)).map (fun k => Block.mk (B * k) (padded B (log ++ bs) (B * k))) =
    blocks B log := by
  apply List.map_congr_left
  intro k hk
  rw [padded_append (block_le (List.mem_range.mp hk))]

/-- Appending less than completes the last block. -/
theorem blocks_short (h : log.length % B + bs.length < B) : blocks B (log ++ bs) = blocks B log := by
  have hq : (log ++ bs).length / B = log.length / B := by
    have := Nat.div_add_mod log.length B
    rw [List.length_append]
    exact Nat.div_eq_of_lt_le (by rw [Nat.mul_comm]; omega) (by rw [Nat.succ_mul, Nat.mul_comm]; omega)
  have hkept := @blocks_kept B log bs
  rwa [← hq] at hkept

/-- Appending what completes the last block. -/
theorem blocks_full (hB : 0 < B) (h : log.length % B + bs.length = B) :
    blocks B (log ++ bs) = blocks B log ++ [⟨B * (log.length / B), padded B (log ++ bs) (B * (log.length / B))⟩] := by
  have hq : (log ++ bs).length / B = log.length / B + 1 := by
    have := Nat.div_add_mod log.length B
    rw [List.length_append, show log.length + bs.length = B * (log.length / B + 1) by rw [Nat.mul_succ]; omega]
    exact Nat.mul_div_cancel_left _ hB
  have hkept := @blocks_kept B log bs
  rw [← hkept, blocks, hq, List.range_succ, List.map_append]
  rfl

/-! ## The queue and the device -/

/-- The ring and the device after `handed` have been given to the queue. -/
structure Queue (d : Device) (wc : Wcache) (handed : List Block) : Prop where
  fifo : ∃ (junk : Nat → List UInt8) (taken : Nat), Fifo (fun i => ⟨3, junk i⟩) wc handed taken ∧ Stored d handed taken
  placed : Placed d handed

/-- `t` is `s` after some draining. -/
def Drained (handed : List Block) (s t : LogfsSt) : Prop :=
  ∃ wc d sched, t = { s with wc := wc, device := d, sched := sched } ∧ Queue d wc handed ∧
    d.size = s.device.size ∧ d.block = s.device.block

variable {s t u : LogfsSt} {handed : List Block}

theorem Drained.refl (h : Queue s.device s.wc handed) : Drained handed s s :=
  ⟨s.wc, s.device, s.sched, rfl, h, rfl, rfl⟩

theorem Drained.trans (h1 : Drained handed s t) (h2 : Drained handed t u) : Drained handed s u := by
  obtain ⟨wc, d, sched, rfl, -, hs, hb⟩ := h1
  obtain ⟨wc', d', sched', rfl, hq, hs', hb'⟩ := h2
  exact ⟨wc', d', sched', rfl, hq, hs'.trans hs, hb'.trans hb⟩

theorem Drained.blkSz (h : Drained handed s t) : t.blkSz = s.blkSz := by
  obtain ⟨wc, d, sched, rfl, -⟩ := h
  rfl

theorem Drained.queue (h : Drained handed s t) : Queue t.device t.wc handed := by
  obtain ⟨wc, d, sched, rfl, hq, -⟩ := h
  exact hq

/-- One block written at its own place, where the device admits it. -/
theorem drain_ok (hb : s.blkSz = s.device.block) (h : Queue s.device s.wc handed) :
    ∃ t, drain s = .ok t ∧ Drained handed s t ∧ t.wc.activeBlks = s.wc.activeBlks - 1 := by
  by_cases h0 : s.wc.activeBlks = 0
  · exact ⟨s, if_pos h0, Drained.refl h, by omega⟩
  obtain ⟨⟨junk, taken, hf, hst⟩, hp⟩ := h
  have ht : taken < handed.length := by have := hf.active; omega
  have hslot := hf.slot_tail ht
  let d : Device := { s.device with bytes := s.device.bytes.write handed[taken].blk handed[taken].buf }
  have hw : deviceWrite s.device handed[taken].buf handed[taken].blk s.device.block = .ok d :=
    deviceWrite_ok (hp.admits (List.getElem_mem ht))
  have hdrain : drain s = .ok { s with wc := (dequeue s.wc).2, device := d } := by
    unfold drain
    rw [if_neg h0]
    simp only [dequeue, hslot, hb, hw]
  refine ⟨_, hdrain,
    ⟨_, _, _, rfl, ⟨⟨junk, taken + 1, hf.dequeue h0, hst.write hp.laid ht⟩, hp.of_geometry rfl rfl⟩, rfl, rfl⟩, ?_⟩
  have := hf.active
  have := hf.le
  simp only [dequeue]; omega

theorem drainN_ok : ∀ (n : Nat) {s : LogfsSt}, s.blkSz = s.device.block → Queue s.device s.wc handed →
    ∃ t, drainN n s = .ok t ∧ Drained handed s t := by
  intro n
  induction n with
  | zero => exact fun _ h => ⟨_, rfl, Drained.refl h⟩
  | succ n ih =>
    intro s hb h
    obtain ⟨t, ht, hd, -⟩ := drain_ok hb h
    have hd' := hd
    obtain ⟨wc, d, sched, rfl, hq, -, hblk⟩ := hd
    obtain ⟨u, hu, hdu⟩ := ih (s := { s with wc := wc, device := d, sched := sched }) (hb.trans hblk.symm) hq
    refine ⟨u, ?_, hd'.trans hdu⟩
    simp only [drainN, ht, hu]

theorem background_ok (hb : s.blkSz = s.device.block) (h : Queue s.device s.wc handed) :
    ∃ t, background s = .ok t ∧ Drained handed s t := by
  unfold background
  cases s.sched with
  | nil => exact ⟨s, rfl, Drained.refl h⟩
  | cons n sched =>
    obtain ⟨t, ht, wc, d, sched', rfl, hq, hs, hb'⟩ := drainN_ok n (s := { s with sched := sched }) hb h
    exact ⟨_, ht, wc, d, sched', rfl, hq, hs, hb'⟩

/-- The block goes into the ring, wherever the writer runs in between. -/
theorem writeToQueue_ok {b : Block} (hb : s.blkSz = s.device.block) (h : Queue s.device s.wc handed)
    (hp : Placed s.device (handed ++ [b])) :
    ∃ t, writeToQueue s b.buf b.blk = .ok t ∧ Drained (handed ++ [b]) s t := by
  obtain ⟨t, ht, wc, d, sched, rfl, hq, hs, hblk⟩ := background_ok hb h
  have hw : ∃ u, waitForSpace { s with wc := wc, device := d, sched := sched } = .ok u ∧
      Drained handed s u ∧ u.wc.activeBlks < 32 := by
    unfold waitForSpace
    by_cases hfull : wc.activeBlks ≥ 32
    · obtain ⟨u, hu, hdu, ha⟩ := drain_ok (s := { s with wc := wc, device := d, sched := sched }) (hb.trans hblk.symm)
        hq
      refine ⟨u, by rw [if_pos hfull, hu], Drained.trans ⟨wc, d, sched, rfl, hq, hs, hblk⟩ hdu, ?_⟩
      obtain ⟨junk, taken, hf, -⟩ := hq.fifo
      have := hf.le
      simp only at ha; omega
    · exact ⟨_, if_neg hfull, ⟨wc, d, sched, rfl, hq, hs, hblk⟩, by simp only; omega⟩
  obtain ⟨u, hu, ⟨wc', d', sched', rfl, hq', hs', hblk'⟩, hlt⟩ := hw
  refine ⟨{ s with wc := enqueue wc' b, device := d', sched := sched' }, ?_, ⟨_, _, _, rfl, ⟨?_, ?_⟩, hs', hblk'⟩⟩
  · unfold writeToQueue
    simp only [ht, hu]
  · obtain ⟨⟨junk, taken, hf, hst⟩, hpl⟩ := hq'
    refine ⟨junk, taken, hf.enqueue hlt b, ?_⟩
    intro k hk hkt
    have hle : taken ≤ handed.length := by have := hf.active; omega
    simp only [List.getElem_append_left (show k < handed.length by omega)]
    exact hst k (by omega) hkt
  · exact hp.of_geometry hs' hblk'

theorem mem_blocks {b : Block} (hb : b ∈ blocks B log) : ∃ k < log.length / B, b = ⟨B * k, padded B log (B * k)⟩ := by
  obtain ⟨k, hk, rfl⟩ := List.mem_map.mp hb
  exact ⟨k, List.mem_range.mp hk, rfl⟩

theorem laid_blocks (hpos : 0 < B) : Laid B (blocks B log) := by
  refine ⟨?_, ?_, ?_⟩
  · intro b hb
    obtain ⟨k, -, rfl⟩ := mem_blocks hb; exact length_padded _
  · intro b hb
    obtain ⟨k, -, rfl⟩ := mem_blocks hb; exact Nat.mul_mod_right B k
  · intro j k hj hk he
    rw [getElem_blocks, getElem_blocks] at he
    exact Nat.eq_of_mul_eq_mul_left hpos he

/-- The last piece of the log need not fit: it is not handed over. -/
theorem placed_blocks {d : Device} (hB : d.block = B) (h : B * (log.length / B) ≤ d.size) :
    Placed d (blocks B log) := by
  subst hB
  have hl := @laid_blocks d.block log d.block_pos
  refine ⟨hl.length, hl.aligned, ?_, hl.distinct⟩
  intro b hb
  obtain ⟨k, hk, rfl⟩ := mem_blocks hb
  exact (Nat.mul_le_mul_left _ hk).trans h

/-! ## The state of the log -/

/-- Everything but the read cache. -/
structure Core (s : LogfsSt) (log : List UInt8) : Prop where
  blkSz : s.blkSz = s.device.block
  faults : s.faults = []
  off : s.off = log.length
  curOff : s.curOff = log.length % s.blkSz
  available : s.available = s.blkSz - log.length % s.blkSz
  curBlk : s.curBlk = padded s.blkSz log (s.blkSz * (log.length / s.blkSz))
  queue : Queue s.device s.wc (blocks s.blkSz log)

/-- Line `i` of the read cache is unused, or holds one of the first `n` blocks. -/
def Line (B : Nat) (log : List UInt8) (n i : Nat) (b : Block) : Prop :=
  b.blk = 3 ∨ ∃ k < n, k % 256 = i ∧ b = ⟨B * k, padded B log (B * k)⟩

structure Repr (s : LogfsSt) (log : List UInt8) (n : Nat) : Prop where
  core : Core s log
  rcache : ∀ i, Line s.blkSz log n i (s.rcache i)

/-- Between two calls the current block may be in the read cache too. -/
abbrev Idle (s : LogfsSt) (log : List UInt8) : Prop := Repr s log (log.length / s.blkSz + 1)

variable {n : Nat}

theorem Core.pos (h : Core s log) : 0 < s.blkSz := h.blkSz ▸ s.device.block_pos

theorem Core.drained (h : Core s log) (hd : Drained (blocks s.blkSz log) s t) : Core t log := by
  obtain ⟨wc, d, sched, rfl, hq, -, hb⟩ := hd
  exact ⟨h.blkSz.trans hb.symm, h.faults, h.off, h.curOff, h.available, h.curBlk, hq⟩

theorem Repr.drained (h : Repr s log n) (hd : Drained (blocks s.blkSz log) s t) : Repr t log n := by
  have hc := h.core.drained hd
  obtain ⟨wc, d, sched, rfl, -⟩ := hd
  exact ⟨hc, h.rcache⟩

theorem Line.mono {m i : Nat} {b : Block} (h : Line B log n i b) (hnm : n ≤ m) : Line B log m i b := by
  rcases h with h | ⟨k, hk, hi, he⟩
  · exact Or.inl h
  · exact Or.inr ⟨k, by omega, hi, he⟩

/-- Appending changes no block that is whole. -/
theorem Line.append {i : Nat} {b : Block} (h : Line B log n i b) (hn : n ≤ log.length / B) :
    Line B (log ++ bs) n i b := by
  rcases h with h | ⟨k, hk, hi, he⟩
  · exact Or.inl h
  · exact Or.inr ⟨k, hk, hi, by rw [padded_append (block_le (by omega))]; exact he⟩

theorem Repr.mono {m : Nat} (h : Repr s log n) (hnm : n ≤ m) : Repr s log m :=
  ⟨h.core, fun i => (h.rcache i).mono hnm⟩

theorem idle_open (d : Device) (junk : Nat → List UInt8) (sched : List Nat) :
    Idle (logfsOpen d junk sched []) [] := by
  show Repr _ _ (0 / d.block + 1)
  rw [Nat.zero_div]
  have hq : Queue d (wcacheOpen junk) (blocks d.block []) := by
    rw [show blocks d.block [] = [] by simp [blocks]]
    exact ⟨⟨junk, 0, fifo_open junk, fun k hk => absurd hk (Nat.not_lt_zero k)⟩, placed_nil d⟩
  refine ⟨⟨rfl, rfl, rfl, ?_, ?_, ?_, hq⟩, fun i => Or.inl rfl⟩
  · simp [logfsOpen]
  · simp [logfsOpen]
  · simp [logfsOpen, padded]

/-! ## Appending -/

theorem blockStart_eq (s : LogfsSt) (off : Nat) : blockStart s off = s.blkSz * (off / s.blkSz) := by
  have := Nat.div_add_mod off s.blkSz
  simp only [blockStart]; omega

theorem rcIdx_mul (h : 0 < s.blkSz) (k : Nat) : rcIdx s (s.blkSz * k) = k % 256 := by
  rw [rcIdx, Nat.mul_div_cancel_left _ h]

/-- After `invalidate` the read cache holds whole blocks only. -/
theorem Repr.invalidate (h : Idle s log) :
    Repr (invalidate s) log (log.length / s.blkSz) ∧ (Logfs.invalidate s).blkSz = s.blkSz ∧
      (Logfs.invalidate s).device = s.device := by
  obtain ⟨hc, hr⟩ := h
  have hpos := hc.pos
  have hidx := rcIdx_mul hpos (log.length / s.blkSz)
  unfold Logfs.invalidate
  simp only [blockStart_eq, hc.off, hidx]
  split
  · rename_i heq
    refine ⟨⟨⟨hc.blkSz, hc.faults, rfl, hc.curOff, hc.available, hc.curBlk, hc.queue⟩, ?_⟩, rfl, rfl⟩
    intro i
    by_cases hi : i = log.length / s.blkSz % 256
    · subst hi
      exact Or.inl (by simp)
    · rcases hr i with h3 | ⟨k, hk, hki, he⟩
      · exact Or.inl (by simp [Function.update_of_ne hi, h3])
      · refine Or.inr ⟨k, ?_, hki, by simpa [Function.update_of_ne hi] using he⟩
        rcases Nat.lt_succ_iff_lt_or_eq.mp hk with hk | rfl
        · exact hk
        · exact absurd hki.symm hi
  · rename_i hne
    refine ⟨⟨hc, ?_⟩, rfl, rfl⟩
    intro i
    rcases hr i with h3 | ⟨k, hk, hki, he⟩
    · exact Or.inl h3
    · rcases Nat.lt_succ_iff_lt_or_eq.mp hk with hk | rfl
      · exact Or.inr ⟨k, hk, hki, he⟩
      · rw [← hki] at he
        exact absurd (by rw [he]) hne

/-- One turn of the loop: the current block is completed and goes to the queue. -/
theorem Repr.fill {buf : List UInt8} (h : Repr s log n) (hn : n ≤ log.length / s.blkSz) (hle : s.available ≤ buf.length)
    (hfit : s.blkSz * ((log.length + buf.length) / s.blkSz) ≤ s.device.size) :
    let t : LogfsSt := { s with
      curBlk := splice s.curBlk s.curOff (buf.take s.available)
      off := s.off + s.available
      available := 0 }
    ∃ u, writeToQueue t t.curBlk (blockStart t (t.off - 1)) = .ok u ∧
      Repr { u with curBlk := List.replicate u.blkSz 0, available := u.blkSz, curOff := 0 }
        (log ++ buf.take s.available) n ∧
      u.device.size = s.device.size ∧ u.blkSz = s.blkSz := by
  intro t
  obtain ⟨hc, hr⟩ := h
  have hpos := hc.pos
  have hdm := Nat.div_add_mod log.length s.blkSz
  have hmod := Nat.mod_lt log.length hpos
  have hav := hc.available
  have hlen : (buf.take s.available).length = s.blkSz - log.length % s.blkSz := by
    rw [List.length_take]; omega
  have hblk : t.curBlk = padded s.blkSz (log ++ buf.take s.available) (s.blkSz * (log.length / s.blkSz)) := by
    show splice s.curBlk s.curOff (buf.take s.available) = _
    rw [hc.curBlk, hc.curOff, show log.length % s.blkSz = log.length - s.blkSz * (log.length / s.blkSz) by omega]
    exact splice_padded (by omega) (by omega)
  have hstart : blockStart t (t.off - 1) = s.blkSz * (log.length / s.blkSz) := by
    rw [blockStart_eq]
    show s.blkSz * ((s.off + s.available - 1) / s.blkSz) = _
    have hq : (s.off + s.available - 1) / s.blkSz = log.length / s.blkSz :=
      Nat.div_eq_of_lt_le (by rw [Nat.mul_comm, hc.off]; omega) (by rw [Nat.succ_mul, Nat.mul_comm, hc.off]; omega)
    rw [hq]
  have hfull := @blocks_full s.blkSz log (buf.take s.available) hpos (by omega)
  have hnew : (log ++ buf.take s.available).length = s.blkSz * (log.length / s.blkSz + 1) := by
    rw [List.length_append, Nat.mul_succ]; omega
  have hlen' : (log ++ buf.take s.available).length ≤ log.length + buf.length := by rw [List.length_append]; omega
  have hp : Placed s.device (blocks s.blkSz (log ++ buf.take s.available)) :=
    placed_blocks hc.blkSz.symm ((Nat.mul_le_mul_left _ (Nat.div_le_div_right hlen')).trans hfit)
  rw [hfull] at hp
  have hwrite : ∃ u, writeToQueue t t.curBlk (blockStart t (t.off - 1)) = .ok u ∧
      Drained (blocks s.blkSz (log ++ buf.take s.available)) t u := by
    rw [hstart, hblk, hfull]
    exact writeToQueue_ok (s := t) hc.blkSz hc.queue hp
  obtain ⟨u, hu, wc, d, sched, rfl, hq, hs, hb⟩ := hwrite
  refine ⟨_, hu, ⟨⟨hc.blkSz.trans hb.symm, hc.faults, ?_, ?_, ?_, ?_, ?_⟩, ?_⟩, hs, rfl⟩
  · show s.off + s.available = _
    rw [hnew, Nat.mul_succ, hc.off]; omega
  · show 0 = _
    rw [hnew, Nat.mul_mod_right]
  · show s.blkSz = s.blkSz - _
    rw [hnew, Nat.mul_mod_right]; rfl
  · show List.replicate s.blkSz 0 = _
    rw [padded_end]
    rw [hnew, Nat.mul_div_cancel_left _ hpos]
  · exact hq
  · exact fun i => (hr i).append hn

/-- The loop completes blocks until what is left does not fill one. -/
theorem appendLoop_ok : ∀ (fuel : Nat) {s : LogfsSt} {log buf : List UInt8}, buf.length < fuel → Repr s log n →
    n ≤ log.length / s.blkSz → s.blkSz * ((log.length + buf.length) / s.blkSz) ≤ s.device.size →
    ∃ t left done, appendLoop fuel s buf = .ok (t, left) ∧ buf = done ++ left ∧ Repr t (log ++ done) n ∧
      left.length < t.available ∧ t.device.size = s.device.size ∧ t.blkSz = s.blkSz := by
  intro fuel
  induction fuel with
  | zero => intro s log buf hf; exact absurd hf (Nat.not_lt_zero _)
  | succ fuel ih =>
    intro s log buf hf h hn hfit
    by_cases hle : s.available ≤ buf.length
    · obtain ⟨u, hu, hr, hsize, hblk⟩ := h.fill hn hle hfit
      have hav := h.core.available
      have hmod := Nat.mod_lt log.length h.core.pos
      have htotal : (log ++ buf.take s.available).length + (buf.drop s.available).length = log.length + buf.length := by
        rw [List.length_append, List.length_take_of_le hle, List.length_drop]; omega
      obtain ⟨t, left, done, ht, hsplit, hrt, hlt, hst, hbt⟩ := @ih _ _ (buf.drop s.available)
        (by rw [List.length_drop]; omega) hr
        (by rw [hblk]; exact hn.trans (Nat.div_le_div_right (by rw [List.length_append]; omega)))
        (by rw [htotal, hsize, hblk]; exact hfit)
      refine ⟨t, left, buf.take s.available ++ done, ?_, ?_, ?_, hlt, hst.trans hsize, hbt.trans hblk⟩
      · simp only [appendLoop, if_pos hle, hu, ht]
      · rw [List.append_assoc, ← hsplit, List.take_append_drop]
      · rw [← List.append_assoc]; exact hrt
    · exact ⟨s, buf, [], by simp only [appendLoop, if_neg hle], rfl, by simpa using h, by omega, rfl, rfl⟩

/-- The rest of an append stays in the current block. -/
theorem Repr.rest {left : List UInt8} (h : Repr s log n) (hn : n ≤ log.length / s.blkSz)
    (hlt : left.length < s.available) :
    Repr { s with
      curBlk := splice s.curBlk s.curOff left
      off := s.off + left.length
      curOff := s.curOff + left.length
      available := s.available - left.length } (log ++ left) n := by
  obtain ⟨hc, hr⟩ := h
  have hpos := hc.pos
  have hdm := Nat.div_add_mod log.length s.blkSz
  have hav := hc.available
  have hq : (log ++ left).length / s.blkSz = log.length / s.blkSz := by
    rw [List.length_append]
    exact Nat.div_eq_of_lt_le (by rw [Nat.mul_comm]; omega) (by rw [Nat.succ_mul, Nat.mul_comm]; omega)
  have hm : (log ++ left).length % s.blkSz = log.length % s.blkSz + left.length := by
    have := Nat.div_add_mod (log ++ left).length s.blkSz
    rw [hq, List.length_append] at this
    rw [List.length_append]; omega
  refine ⟨⟨hc.blkSz, hc.faults, ?_, ?_, ?_, ?_, ?_⟩, fun i => (hr i).append hn⟩
  · show s.off + _ = _
    rw [hc.off, List.length_append]
  · show s.curOff + _ = _
    rw [hc.curOff, hm]
  · show s.available - _ = s.blkSz - _
    rw [hm]; omega
  · show splice s.curBlk s.curOff left = _
    rw [hq, hc.curBlk, hc.curOff, show log.length % s.blkSz = log.length - s.blkSz * (log.length / s.blkSz) by omega]
    exact splice_padded (by omega) (by omega)
  · show Queue s.device s.wc (blocks s.blkSz _)
    rw [blocks_short (by omega)]; exact hc.queue

/-- `logfs_append` appends, when the whole blocks fit. -/
theorem logfsAppend_ok {buf : List UInt8} (h : Idle s log)
    (hfit : s.blkSz * ((log.length + buf.length) / s.blkSz) ≤ s.device.size) :
    ∃ t, logfsAppend s buf = .ok t ∧ Idle t (log ++ buf) ∧ t.device.size = s.device.size ∧ t.blkSz = s.blkSz := by
  obtain ⟨hi, hblk, hdev⟩ := h.invalidate
  obtain ⟨t, left, done, ht, rfl, hr, hlt, hsize, hbt⟩ := @appendLoop_ok _ (buf.length + 2) _ _ buf (by omega) hi
    (by rw [hblk]) (by rw [hdev, hblk]; exact hfit)
  have hn : log.length / s.blkSz ≤ (log ++ done).length / t.blkSz := by
    rw [hbt, hblk]; exact Nat.div_le_div_right (by rw [List.length_append]; omega)
  unfold logfsAppend
  simp only [ht]
  by_cases hl : 0 < left.length
  · rw [if_pos hl]
    refine ⟨_, rfl, ?_, hsize.trans (congrArg Device.size hdev), hbt.trans hblk⟩
    rw [← List.append_assoc]
    refine (hr.rest hn hlt).mono (Nat.le_succ_of_le (hn.trans ?_))
    exact Nat.div_le_div_right (by simp only [List.length_append]; omega)
  · rw [if_neg hl]
    have hnil : left = [] := List.length_eq_zero_iff.mp (by omega)
    subst hnil
    refine ⟨t, rfl, ?_, hsize.trans (congrArg Device.size hdev), hbt.trans hblk⟩
    rw [List.append_nil]
    exact hr.mono (Nat.le_succ_of_le hn)

/-! ## Reading -/

/-- A block that has left the ring was dequeued, so it is on the device. -/
theorem readDevice_ok {k : Nat} (h : Core s log) (hk : k + 32 < log.length / s.blkSz) :
    ∃ t, readDevice s (s.blkSz * k) = .ok (some (padded s.blkSz log (s.blkSz * k)), t) ∧
      Drained (blocks s.blkSz log) s t := by
  have hlt : k < (blocks s.blkSz log).length := by rw [length_blocks]; omega
  obtain ⟨t, ht, wc, d, sched, rfl, ⟨⟨junk, taken, hf, hst⟩, hp⟩, hs, hb⟩ := background_ok h.blkSz h.queue
  have htaken : k < taken := by
    have := hf.active
    have := hf.le
    have : (blocks s.blkSz log).length = log.length / s.blkSz := length_blocks
    omega
  have hread := hst k hlt htaken
  have hadm := hp.admits (List.getElem_mem hlt)
  rw [getElem_blocks hlt, hb, ← h.blkSz] at hread hadm
  unfold readDevice
  simp only [ht, h.faults, List.headD_nil, deviceRead_ok hadm, hread]
  exact ⟨_, rfl, wc, d, sched, by rw [h.faults]; rfl, ⟨⟨junk, taken, hf, hst⟩, hp⟩, hs, hb⟩

/-- A block that is not in the read cache is found in the current block, in the ring or on
    the device. -/
theorem fetchBlock_ok {k : Nat} (h : Core s log) (hk : k ≤ log.length / s.blkSz) :
    ∃ t, fetchBlock s (s.blkSz * k) = .ok (some (padded s.blkSz log (s.blkSz * k)), t) ∧
      Drained (blocks s.blkSz log) s t := by
  have hpos := h.pos
  unfold fetchBlock
  rw [blockStart_eq, h.off]
  by_cases hcur : k = log.length / s.blkSz
  · subst hcur
    rw [if_pos rfl, h.curBlk]
    exact ⟨s, rfl, Drained.refl h.queue⟩
  rw [if_neg fun e => hcur (Nat.eq_of_mul_eq_mul_left hpos e)]
  have hlt : k < (blocks s.blkSz log).length := by rw [length_blocks]; omega
  obtain ⟨t, ht, hd⟩ := background_ok h.blkSz h.queue
  have hc := h.drained hd
  have hB := hd.blkSz
  obtain ⟨⟨junk, taken, hf, -⟩, hp⟩ := hd.queue
  simp only [ht]
  by_cases hrecent : (blocks s.blkSz log).length ≤ k + 32
  · have hcheck := hf.check_recent hp.distinct hlt hrecent
    rw [getElem_blocks hlt] at hcheck
    rw [hcheck]
    exact ⟨t, rfl, hd⟩
  · have hold : k + 32 < log.length / s.blkSz := by rw [length_blocks] at hrecent; omega
    have hcheck := hf.check_old hp.distinct (show k + 32 < (blocks s.blkSz log).length by omega)
    rw [getElem_blocks hlt] at hcheck
    rw [hcheck]
    obtain ⟨u, hu, hdu⟩ := readDevice_ok hc (hB ▸ hold)
    rw [hB] at hu hdu
    exact ⟨u, hu, hd.trans hdu⟩

/-- `read_mem` answers the bytes of the log. Block 3 is out: an unused line of the read cache
    has its number. -/
theorem readMem_ok {k off len : Nat} (h : Idle s log) (h3 : s.blkSz * k ≠ 3) (hk : s.blkSz * k ≤ off)
    (hB : off + len ≤ s.blkSz * k + s.blkSz) (hl : off + len ≤ log.length) :
    ∃ t, readMem s (s.blkSz * k) off len = .ok (some ((log.drop off).take len), t) ∧
      Idle t log ∧ t.blkSz = s.blkSz ∧ t.device.size = s.device.size := by
  obtain ⟨hc, hr⟩ := h
  have hpos := hc.pos
  have hkn : k ≤ log.length / s.blkSz := (Nat.le_div_iff_mul_le hpos).mpr (by rw [Nat.mul_comm]; omega)
  have hread := take_drop_padded hk hB hl
  unfold readMem
  simp only [rcIdx_mul hpos]
  by_cases hhit : s.blkSz * k = (s.rcache (k % 256)).blk
  · rw [if_pos hhit]
    rcases hr (k % 256) with hunused | ⟨j, -, -, he⟩
    · exact absurd (hhit.trans hunused) h3
    · have hj : k = j := Nat.eq_of_mul_eq_mul_left hpos (by rw [hhit, he])
      subst hj
      exact ⟨s, by rw [he, hread], ⟨hc, hr⟩, rfl, rfl⟩
  · rw [if_neg hhit]
    let s' : LogfsSt := { s with
      rcache := Function.update s.rcache (k % 256) { s.rcache (k % 256) with blk := s.blkSz * k } }
    have hc' : Core s' log := ⟨hc.blkSz, hc.faults, hc.off, hc.curOff, hc.available, hc.curBlk, hc.queue⟩
    obtain ⟨t, ht, hd⟩ := fetchBlock_ok hc' hkn
    have hct := hc'.drained hd
    obtain ⟨wc, d, sched, rfl, hq, hs, hb⟩ := hd
    simp only [s'] at ht
    simp only [ht, hread]
    refine ⟨_, rfl, ⟨⟨hct.blkSz, hct.faults, hct.off, hct.curOff, hct.available, hct.curBlk, hct.queue⟩, ?_⟩,
      rfl, hs⟩
    intro i
    by_cases hi : i = k % 256
    · subst hi
      exact Or.inr ⟨k, Nat.lt_succ_of_le hkn, rfl, by simp⟩
    · simp only [Function.update_of_ne hi]
      exact hr i

/-- Two reads in a row. -/
theorem take_drop_add (off m k : Nat) :
    (log.drop off).take m ++ (log.drop (off + m)).take k = (log.drop off).take (m + k) := by
  rw [List.take_add, List.drop_drop]

/-- Block by block, from a block's start on. -/
theorem readLoop_ok : ∀ (fuel : Nat) {s : LogfsSt} {k off left : Nat}, left < fuel →
    Idle s log → (∀ j, k ≤ j → s.blkSz * j ≠ 3) → (left ≠ 0 → off = s.blkSz * k) → off + left ≤ log.length →
    ∃ t, readLoop fuel s (s.blkSz * k) off left = .ok (some ((log.drop off).take left), t) ∧
      Idle t log ∧ t.blkSz = s.blkSz ∧ t.device.size = s.device.size := by
  intro fuel
  induction fuel with
  | zero => intro s k off left hf; exact absurd hf (Nat.not_lt_zero _)
  | succ fuel ih =>
    intro s k off left hf h h3 hoff hl
    have hpos := h.core.pos
    unfold readLoop
    by_cases hbig : left > s.blkSz
    · have hk := hoff (by omega)
      obtain ⟨t, ht, hr, hbt, hst⟩ := @readMem_ok log s k off s.blkSz h (h3 k (Nat.le_refl k)) (by omega) (by omega)
        (by omega)
      obtain ⟨u, hu, hru, hbu, hsu⟩ := @ih t (k + 1) (off + s.blkSz) (left - s.blkSz) (by omega) hr
        (fun j hj => by rw [hbt]; exact h3 j (by omega)) (fun _ => by rw [hbt, Nat.mul_succ]; omega) (by omega)
      rw [hbt, Nat.mul_succ] at hu
      refine ⟨u, ?_, hru, hbu.trans hbt, hsu.trans hst⟩
      simp only [if_pos hbig, ht, hbt, hu, Option.map_some, take_drop_add]
      rw [show s.blkSz + (left - s.blkSz) = left by omega]
    · rw [if_neg hbig]
      by_cases h0 : left ≠ 0
      · rw [if_pos h0]
        exact readMem_ok h (h3 k (Nat.le_refl k)) (by rw [hoff h0]) (by rw [hoff h0]; omega) hl
      · rw [if_neg h0, show left = 0 by omega]
        exact ⟨s, rfl, h, rfl, rfl⟩

/-- No block from `off` on has number 3. -/
def PastThree (B off : Nat) : Prop := ¬ B ∣ 3 ∨ 6 ≤ off

theorem PastThree.ne {off j : Nat} (h : PastThree B off) (hB : 0 < B) (hj : off / B ≤ j) : B * j ≠ 3 := by
  intro he
  rcases h with h | h
  · exact h ⟨j, he.symm⟩
  · -- `j` is 3 or 1, and the block of `off` is farther on
    have h6 : 6 ≤ off / B * B + (B - 1) := by
      have := Nat.div_add_mod off B
      have := Nat.mod_lt off hB
      rw [Nat.mul_comm]; omega
    have hle : off / B * B ≤ 3 := by rw [← he, Nat.mul_comm B j]; exact Nat.mul_le_mul_right B hj
    have hB3 : B ≤ 3 := Nat.le_of_dvd (by decide) ⟨j, he.symm⟩
    obtain rfl | rfl | rfl : B = 1 ∨ B = 2 ∨ B = 3 := by omega
    · omega
    · omega
    · omega

/-- `logfs_read` answers the bytes of the log. -/
theorem logfsRead_ok {off len : Nat} (h : Idle s log) (h3 : PastThree s.blkSz off) (hl : off + len ≤ log.length) :
    ∃ t, logfsRead s off len = .ok (some ((log.drop off).take len), t) ∧
      Idle t log ∧ t.device.size = s.device.size ∧ t.blkSz = s.blkSz := by
  have hpos := h.core.pos
  have hdm := Nat.div_add_mod off s.blkSz
  have hmod := Nat.mod_lt off hpos
  unfold logfsRead
  simp only [blockStart_eq]
  generalize hm : min len (s.blkSz * (off / s.blkSz) + s.blkSz - off) = m
  obtain ⟨t, ht, hr, hbt, hst⟩ := @readMem_ok log s (off / s.blkSz) off m h (h3.ne hpos (Nat.le_refl _)) (by omega)
    (by omega) (by omega)
  obtain ⟨u, hu, hru, hbu, hsu⟩ := @readLoop_ok log (len + 1) t (off / s.blkSz + 1) (off + m) (len - m) (by omega)
    hr (fun j hj => by rw [hbt]; exact h3.ne hpos (by omega)) (fun _ => by rw [hbt, Nat.mul_succ]; omega) (by omega)
  rw [hbt, Nat.mul_succ] at hu
  refine ⟨u, ?_, hru, hsu.trans hst, hbu.trans hbt⟩
  simp only [ht, hbt, hu, Option.map_some, take_drop_add]
  rw [show m + (len - m) = len by omega]

/-! ## Runs -/

inductive Op where
  | append (buf : List UInt8)
  | read (off len : Nat)
  | drain (n : Nat)

/-- One call; the answer is `none` for -1, otherwise the bytes stored (none by an append). -/
def step (s : LogfsSt) : Op → Except Stop (Option (List UInt8) × LogfsSt)
  | .append buf =>
    match logfsAppend s buf with
    | .error e => .error e
    | .ok s => .ok (some [], s)
  | .read off len => logfsRead s off len
  | .drain n =>
    match drainN n s with
    | .error e => .error e
    | .ok s => .ok (some [], s)

def run (s : LogfsSt) : List Op → Except Stop (List (Option (List UInt8)) × LogfsSt)
  | [] => .ok ([], s)
  | op :: ops =>
    match step s op with
    | .error e => .error e
    | .ok (a, s) =>
      match run s ops with
      | .error e => .error e
      | .ok (as, s) => .ok (a :: as, s)

/-- What the byte array `log` becomes, and what it answers. -/
def appended (log : List UInt8) : Op → List UInt8
  | .append buf => log ++ buf
  | _ => log

def answer (log : List UInt8) : Op → List UInt8
  | .read off len => (log.drop off).take len
  | _ => []

def answers (log : List UInt8) : List Op → List (Option (List UInt8))
  | [] => []
  | op :: ops => some (answer log op) :: answers (appended log op) ops

/-- Reads stay inside what has been appended, appends inside the device. -/
def Allowed (size : Nat) (log : List UInt8) : Op → Prop
  | .append buf => log.length + buf.length ≤ size
  | .read off len => off + len ≤ log.length
  | .drain _ => True

def AllAllowed (size : Nat) (log : List UInt8) : List Op → Prop
  | [] => True
  | op :: ops => Allowed size log op ∧ AllAllowed size (appended log op) ops

theorem step_ok (h : Idle s log) (hodd : ¬ s.blkSz ∣ 3) (op : Op) (ha : Allowed s.device.size log op) :
    ∃ t, step s op = .ok (some (answer log op), t) ∧
      Idle t (appended log op) ∧ t.device.size = s.device.size ∧ t.blkSz = s.blkSz := by
  cases op with
  | append buf =>
    obtain ⟨t, ht, hr, hs⟩ := logfsAppend_ok h ((Nat.mul_div_le _ _).trans ha)
    exact ⟨t, by simp only [step, ht]; rfl, hr, hs⟩
  | read off len => exact logfsRead_ok h (Or.inl hodd) ha
  | drain n =>
    obtain ⟨t, ht, hd⟩ := drainN_ok n h.core.blkSz h.core.queue
    have hr := h.drained hd
    have hb := hd.blkSz
    rw [← hb] at hr
    obtain ⟨wc, d, sched, rfl, -, hs, -⟩ := hd
    exact ⟨_, by simp only [step, ht]; rfl, hr, hs, hb⟩

theorem run_ok : ∀ (ops : List Op) {s : LogfsSt} {log : List UInt8}, Idle s log → ¬ s.blkSz ∣ 3 →
    AllAllowed s.device.size log ops → ∃ t, run s ops = .ok (answers log ops, t) := by
  intro ops
  induction ops with
  | nil => exact fun _ _ _ => ⟨_, rfl⟩
  | cons op ops ih =>
    intro s log h hodd ha
    obtain ⟨t, ht, hr, hs, hb⟩ := step_ok h hodd op ha.1
    obtain ⟨u, hu⟩ := ih hr (by rw [hb]; exact hodd) (by rw [hs]; exact ha.2)
    exact ⟨u, by simp only [run, ht, hu]; rfl⟩

/-- From a freshly opened log, whatever `malloc` left in the caches and whenever the writer
    runs, every call answers what the byte array answers and no assertion fails. -/
theorem log_is_byte_array (d : Device) (junk : Nat → List UInt8) (sched : List Nat) (ops : List Op)
    (hd : ¬ d.block ∣ 3) (ha : AllAllowed d.size [] ops) :
    ∃ s, run (logfsOpen d junk sched []) ops = .ok (answers [] ops, s) := by
  exact run_ok ops (idle_open d junk sched) hd ha

theorem log_is_byte_array_two_byte_blocks :
    ∃ s, run (logfsOpen ⟨8, 2, ⟨fun _ => 0⟩, by decide, by decide, by decide⟩ (fun _ => []) [1, 0, 2] [])
      [.append [1, 2, 3], .read 1 2, .append [4], .read 0 4, .read 4 0] =
        .ok ([some [], some [2, 3], some [], some [1, 2, 3, 4], some []], s) :=
  log_is_byte_array ⟨8, 2, ⟨fun _ => 0⟩, by decide, by decide, by decide⟩ (fun _ => []) [1, 0, 2]
    [.append [1, 2, 3], .read 1 2, .append [4], .read 0 4, .read 4 0] (show ¬ 2 ∣ 3 by decide)
    (show AllAllowed 8 [] _ by simp [AllAllowed, Allowed, appended])

end Cs238p.Logfs
