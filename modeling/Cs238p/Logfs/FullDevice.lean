/-
  Cs238p.Logfs.FullDevice — appends to a log that its device may be too small for.

  `logfs_append` never looks at the size of the device: a block past the end goes into the
  queue like any other, and the background writer's `device_write` stops at its assertion.

  `Handing s n` is what a run knows that has not stopped so far, after `n` bytes: the blocks
  in the ring have the next numbers, and those taken out of it were inside the device.
-/
import Cs238p.Logfs.LogProofs

namespace Cs238p.Logfs

open ByteMemory

/-- `m` blocks have been handed over; those taken so far were inside the device. -/
def Ring (s : LogfsSt) (m : Nat) : Prop :=
  ∃ (junk : Nat → List UInt8) (handed : List Block) (taken : Nat), Fifo (fun i => ⟨3, junk i⟩) s.wc handed taken ∧
    handed.map Block.blk = (List.range m).map (s.blkSz * ·) ∧ s.blkSz * taken ≤ s.device.size

structure Handing (s : LogfsSt) (n : Nat) : Prop where
  blkSz : s.blkSz = s.device.block
  off : s.off = n
  available : s.available = s.blkSz - n % s.blkSz
  ring : Ring s (n / s.blkSz)

/-- `t` is `s` but for the ring and the bytes of the device. -/
def Moved (s t : LogfsSt) : Prop :=
  ∃ wc d sched, t = { s with wc := wc, device := d, sched := sched } ∧ d.size = s.device.size ∧
    d.block = s.device.block

variable {s t u : LogfsSt} {m n : Nat}

theorem Moved.refl (s : LogfsSt) : Moved s s := ⟨s.wc, s.device, s.sched, rfl, rfl, rfl⟩

theorem Moved.trans (h1 : Moved s t) (h2 : Moved t u) : Moved s u := by
  obtain ⟨wc, d, sched, rfl, hs, hb⟩ := h1
  obtain ⟨wc', d', sched', rfl, hs', hb'⟩ := h2
  exact ⟨wc', d', sched', rfl, hs'.trans hs, hb'.trans hb⟩

/-! ## The background writer -/

/-- The block taken next is one of those handed over. -/
theorem Ring.slot_tail (h : Ring s m) (h0 : s.wc.activeBlks ≠ 0) :
    ∃ taken < m, (s.wc.slots s.wc.tail).blk = s.blkSz * taken ∧ s.blkSz * taken ≤ s.device.size ∧
      (s.blkSz * taken + s.blkSz ≤ s.device.size → ∀ d : Device, d.size = s.device.size →
        Ring { s with wc := (dequeue s.wc).2, device := d } m) := by
  obtain ⟨junk, handed, taken, hf, hmap, hle⟩ := h
  have hact := hf.active
  have hlen : handed.length = m := by simpa using congrArg List.length hmap
  have ht : taken < handed.length := by omega
  have hblk : handed[taken].blk = s.blkSz * taken := by
    have hget := congrArg (·[taken]?) hmap
    simpa [ht, show taken < m by omega] using hget
  refine ⟨taken, by omega, by rw [hf.slot_tail ht, hblk], hle, ?_⟩
  intro hin d hd
  refine ⟨junk, handed, taken + 1, hf.dequeue h0, hmap, ?_⟩
  show s.blkSz * (taken + 1) ≤ d.size
  rw [hd, Nat.mul_succ]
  exact hin

theorem Ring.drain (h : Ring s m) (hd : drain s = .ok t) :
    Ring t m ∧ Moved s t ∧ t.wc.activeBlks = s.wc.activeBlks - 1 := by
  unfold Logfs.drain at hd
  by_cases h0 : s.wc.activeBlks = 0
  · rw [if_pos h0] at hd
    cases hd
    exact ⟨h, .refl s, by omega⟩
  · rw [if_neg h0] at hd
    obtain ⟨taken, -, hblk, -, hnext⟩ := h.slot_tail h0
    simp only [dequeue, hblk, deviceWrite] at hd
    split at hd
    · cases hd
    · rename_i d hw
      split at hw
      · rename_i hadm
        cases hw
        cases hd
        obtain ⟨junk, handed, k, hf, -⟩ := h
        have hle := hf.le
        refine ⟨hnext hadm.2.2 _ rfl, ⟨_, _, _, rfl, rfl, rfl⟩, ?_⟩
        simp only
        omega
      · cases hw

theorem Ring.drainN : ∀ (k : Nat) {s : LogfsSt}, Ring s m → drainN k s = .ok t →
    Ring t m ∧ Moved s t ∧ t.wc.activeBlks = s.wc.activeBlks - k := by
  intro k
  induction k with
  | zero =>
    intro s h hd
    cases hd
    exact ⟨h, .refl _, rfl⟩
  | succ k ih =>
    intro s h hd
    simp only [Logfs.drainN] at hd
    split at hd
    · cases hd
    · rename_i u hu
      obtain ⟨hr, hm, ha⟩ := h.drain hu
      obtain ⟨hr', hm', ha'⟩ := ih hr hd
      exact ⟨hr', hm.trans hm', by omega⟩

theorem Ring.background (h : Ring s m) (hd : background s = .ok t) :
    Ring t m ∧ Moved s t := by
  unfold Logfs.background at hd
  split at hd
  · cases hd
    exact ⟨h, .refl s⟩
  · rename_i k sched _
    obtain ⟨hr, hm, -⟩ := Ring.drainN k (s := { s with sched := sched }) h hd
    exact ⟨hr, Moved.trans ⟨s.wc, s.device, sched, rfl, rfl, rfl⟩ hm⟩

/-- The next block goes into the ring. -/
theorem Ring.writeToQueue {buf : List UInt8} (h : Ring s m) (hw : writeToQueue s buf (s.blkSz * m) = .ok t) :
    Ring t (m + 1) ∧ Moved s t := by
  unfold Logfs.writeToQueue at hw
  split at hw
  · cases hw
  · rename_i u hu
    obtain ⟨hr, hm⟩ := h.background hu
    split at hw
    · cases hw
    · rename_i v hv
      have hspace : Ring v m ∧ Moved u v ∧ v.wc.activeBlks < 32 := by
        unfold waitForSpace at hv
        by_cases hfull : u.wc.activeBlks ≥ 32
        · rw [if_pos hfull] at hv
          obtain ⟨hrv, hmv, hav⟩ := hr.drain hv
          obtain ⟨junk, handed, taken, hf, -⟩ := hr
          have hle := hf.le
          exact ⟨hrv, hmv, by omega⟩
        · rw [if_neg hfull] at hv
          cases hv
          exact ⟨hr, .refl u, by omega⟩
      cases hw
      obtain ⟨⟨junk, handed, taken, hf, hmap, hle⟩, hmv, hlt⟩ := hspace
      obtain ⟨wc, d, sched, rfl, hs, hbd⟩ := hm.trans hmv
      refine ⟨⟨junk, _, taken, hf.enqueue hlt ⟨s.blkSz * m, buf⟩, ?_, hle⟩, ⟨_, _, _, rfl, hs, hbd⟩⟩
      rw [List.map_append, hmap, List.range_succ, List.map_append]
      rfl

/-! ## Appending -/

theorem Handing.pos (h : Handing s n) : 0 < s.blkSz := h.blkSz ▸ s.device.block_pos

theorem Handing.appendLoop : ∀ (fuel : Nat) {s : LogfsSt} {n : Nat} {buf left : List UInt8}, Handing s n →
    appendLoop fuel s buf = .ok (t, left) →
    ∃ k, buf.length = k + left.length ∧ Handing t (n + k) ∧ left.length < t.available ∧ t.device.size = s.device.size ∧
      t.blkSz = s.blkSz := by
  intro fuel
  induction fuel with
  | zero => intro s n buf left _ ha; cases ha
  | succ fuel ih =>
    intro s n buf left h ha
    have hpos := h.pos
    have hmod := Nat.mod_lt n hpos
    have hdm := Nat.div_add_mod n s.blkSz
    have hav := h.available
    have hoff := h.off
    unfold Logfs.appendLoop at ha
    by_cases hle : s.available ≤ buf.length
    · rw [if_pos hle] at ha
      -- the block that is completed has the next number
      have hq : (s.off + s.available - 1) / s.blkSz = n / s.blkSz :=
        Nat.div_eq_of_lt_le (by rw [Nat.mul_comm]; omega) (by rw [Nat.succ_mul, Nat.mul_comm]; omega)
      simp only [blockStart_eq, hq] at ha
      split at ha
      · cases ha
      · rename_i u hu
        have hring : Ring { s with
            curBlk := splice s.curBlk s.curOff (buf.take s.available)
            off := s.off + s.available
            available := 0 } (n / s.blkSz) := h.ring
        obtain ⟨hr, wc, d, sched, rfl, hs, hb⟩ := hring.writeToQueue hu
        have hnew : n + s.available = s.blkSz * (n / s.blkSz + 1) := by rw [Nat.mul_succ]; omega
        have hdiv : (n + s.available) / s.blkSz = n / s.blkSz + 1 := by rw [hnew, Nat.mul_div_cancel_left _ hpos]
        have hmod' : (n + s.available) % s.blkSz = 0 := by rw [hnew, Nat.mul_mod_right]
        have hnext : Handing { s with
            curBlk := List.replicate s.blkSz 0
            curOff := 0
            off := s.off + s.available
            available := s.blkSz
            wc := wc
            device := d
            sched := sched } (n + s.available) := by
          refine ⟨h.blkSz.trans hb.symm, by rw [hoff], ?_, ?_⟩
          · show s.blkSz = s.blkSz - _
            rw [hmod', Nat.sub_zero]
          · show Ring _ (_ / s.blkSz)
            rw [hdiv]
            exact hr
        obtain ⟨k, hk, hh, hlt, hst, hbt⟩ := ih hnext ha
        rw [List.length_drop] at hk
        refine ⟨s.available + k, by omega, ?_, hlt, hst.trans hs, hbt⟩
        rw [← Nat.add_assoc]
        exact hh
    · rw [if_neg hle] at ha
      cases ha
      exact ⟨0, by omega, h, by omega, rfl, rfl⟩

/-- An append that returns has handed over the blocks it completed. -/
theorem Handing.append {buf : List UInt8} (h : Handing s n) (ha : logfsAppend s buf = .ok t) :
    Handing t (n + buf.length) ∧ t.device.size = s.device.size ∧ t.blkSz = s.blkSz := by
  have hinv : Handing (invalidate s) n ∧ (invalidate s).device.size = s.device.size ∧ (invalidate s).blkSz = s.blkSz := by
    unfold invalidate
    simp only
    split
    · exact ⟨⟨h.blkSz, h.off, h.available, h.ring⟩, rfl, rfl⟩
    · exact ⟨h, rfl, rfl⟩
  obtain ⟨hi, hsi, hbi⟩ := hinv
  unfold logfsAppend at ha
  split at ha
  · cases ha
  · rename_i u left hu
    obtain ⟨k, hk, hh, hlt, hs, hb⟩ := hi.appendLoop _ hu
    have hpos := hh.pos
    have hav := hh.available
    have hdm := Nat.div_add_mod (n + k) u.blkSz
    by_cases hl : 0 < left.length
    · rw [if_pos hl] at ha
      cases ha
      have hq : (n + buf.length) / u.blkSz = (n + k) / u.blkSz :=
        Nat.div_eq_of_lt_le (by rw [Nat.mul_comm]; omega) (by rw [Nat.succ_mul, Nat.mul_comm]; omega)
      have hm : (n + buf.length) % u.blkSz = (n + k) % u.blkSz + left.length := by
        have := Nat.div_add_mod (n + buf.length) u.blkSz
        rw [hq] at this
        omega
      refine ⟨⟨hh.blkSz, ?_, ?_, ?_⟩, hs.trans hsi, hb.trans hbi⟩
      · show u.off + left.length = _
        rw [hh.off]; omega
      · show u.available - left.length = u.blkSz - _
        rw [hm]; omega
      · show Ring _ (_ / u.blkSz)
        rw [hq]
        exact hh.ring
    · rw [if_neg hl] at ha
      cases ha
      rw [show n + buf.length = n + k by omega]
      exact ⟨hh, hs.trans hsi, hb.trans hbi⟩

theorem handing_open (d : Device) (junk : Nat → List UInt8) (sched : List Nat) (faults : List Bool) :
    Handing (logfsOpen d junk sched faults) 0 := by
  refine ⟨rfl, rfl, ?_, junk, [], 0, fifo_open junk, ?_, Nat.zero_le _⟩
  · simp [logfsOpen]
  · simp

/-- A log that has not stopped knows as much. -/
theorem Repr.handing {log : List UInt8} {k : Nat} (h : Repr s log k) : Handing s log.length := by
  obtain ⟨⟨junk, taken, hf, -⟩, hp⟩ := h.core.queue
  refine ⟨h.core.blkSz, h.core.off, h.core.available, junk, _, taken, hf, ?_, ?_⟩
  · rw [blocks, List.map_map]
    rfl
  · by_cases h0 : taken = 0
    · rw [h0]
      exact Nat.zero_le _
    · have hact := hf.active
      have hlt : taken - 1 < (blocks s.blkSz log).length := by omega
      have hadm := (hp.admits (List.getElem_mem hlt)).2.2
      rw [getElem_blocks hlt, ← h.core.blkSz] at hadm
      have hmul : s.blkSz * taken = s.blkSz * (taken - 1) + s.blkSz := by
        rw [← Nat.mul_succ]
        congr 1
        omega
      rw [hmul]
      exact hadm

/-- Once the ring has been emptied, all whole blocks are on the device. -/
theorem Handing.fits (h : Handing s n) (hd : drainN 32 s = .ok t) : s.blkSz * (n / s.blkSz) ≤ s.device.size := by
  obtain ⟨⟨junk, handed, taken, hf, hmap, hle⟩, ⟨wc, d, sched, rfl, hs, -⟩, ha⟩ := h.ring.drainN 32 hd
  have hlen : handed.length = n / s.blkSz := by simpa using congrArg List.length hmap
  obtain ⟨junk', handed', taken', hf', -⟩ := h.ring
  have h32 := hf'.le
  have hact := hf.active
  rw [← hs, show n / s.blkSz = taken by omega]
  exact hle

end Cs238p.Logfs
