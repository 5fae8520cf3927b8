/-
  Cs238p.Logfs.FailedRead — reads of the log when device reads fail.

  `read_mem` gives a line of the read cache the number of its new block before the read
  that brings its bytes. When that read fails, -1 is returned and the number stays: the
  next `logfs_read` of the block finds it in the cache and answers the bytes that the line
  had before (`a_failed_read_leaves_its_number`).

  `Stale` lines carry the number of a block and not its bytes. Proved: in a run whose reads
  find no such line on their way, a read returns -1 iff one of its device reads failed, and
  otherwise exactly the bytes appended (`reads_are_exact`); a line goes stale in a read that
  fails and nowhere else (`step_cases`).
-/
import Cs238p.Lib.Outcome
import Cs238p.Logfs.LogProofs

namespace Cs238p.Logfs

open ByteMemory

/-- Line `i` of the read cache has the number of a block and other bytes. -/
def Stale (s : LogfsSt) (log : List UInt8) (i : Nat) : Prop :=
  (s.rcache i).blk ≠ 3 ∧ (s.rcache i).buf ≠ padded s.blkSz log (s.rcache i).blk

/-- No block from `k` on, below `stop`, is found in a line that is stale. A line is looked
    at once in 256 blocks; after that it has another block. -/
def Clean (s : LogfsSt) (log : List UInt8) (k stop : Nat) : Prop :=
  ∀ j, k ≤ j → j < k + 256 → s.blkSz * j < stop → (s.rcache (j % 256)).blk = s.blkSz * j → ¬ Stale s log (j % 256)

/-- The reads of a call are clean. -/
def ReadsClean (s : LogfsSt) (log : List UInt8) : Op → Prop
  | .read off len => Clean s log (off / s.blkSz) (off + len)
  | _ => True

def AlwaysClean (s : LogfsSt) (log : List UInt8) : List Op → Prop
  | [] => True
  | op :: ops => ReadsClean s log op ∧ ∀ a t, step s op = .ok (a, t) → AlwaysClean t (appended log op) ops

/-- Device reads were made from `s` to `t`, and one of them failed iff `b`. -/
def Consumed (s t : LogfsSt) (b : Bool) : Prop := ∃ used, s.faults = used ++ t.faults ∧ (true ∈ used ↔ b = true)

/-- Every call answers -1 iff a device read failed in it, and what the byte array answers
    otherwise. -/
def Exact (s : LogfsSt) (log : List UInt8) : List Op → Prop
  | [] => True
  | op :: ops => ∃ a t, step s op = .ok (a, t) ∧ Consumed s t a.isNone ∧ (a.isSome = true → a = some (answer log op)) ∧
      Exact t (appended log op) ops

variable {s t u : LogfsSt} {log buf : List UInt8} {n k off len : Nat}

theorem Consumed.refl (s : LogfsSt) : Consumed s s false := ⟨[], rfl, by simp⟩

theorem Consumed.trans {b c : Bool} (h1 : Consumed s t b) (h2 : Consumed t u c) : Consumed s u (b || c) := by
  obtain ⟨used, he, hb⟩ := h1
  obtain ⟨used', he', hc⟩ := h2
  refine ⟨used ++ used', by rw [he, he', List.append_assoc], ?_⟩
  rw [List.mem_append, hb, hc, Bool.or_eq_true]

/-! ## Beside the read cache -/

/-- The same log with another read cache and other faults to come. -/
def beside (rcache : Nat → Block) (faults : List Bool) (s : LogfsSt) : LogfsSt := { s with rcache, faults }

variable {r : Nat → Block} {f : List Bool}

theorem drain_beside : drain (beside r f s) = (drain s).map (beside r f) := by
  by_cases h0 : s.wc.activeBlks = 0
  · have h0' : (beside r f s).wc.activeBlks = 0 := h0
    rw [drain, drain, if_pos h0, if_pos h0']
    rfl
  · have h0' : ¬ (beside r f s).wc.activeBlks = 0 := h0
    rw [drain, drain, if_neg h0, if_neg h0']
    simp only [beside, dequeue]
    generalize deviceWrite s.device _ _ _ = w
    cases w with
    | error e => rfl
    | ok d => rfl

theorem drainN_beside : ∀ (n : Nat) {s : LogfsSt}, drainN n (beside r f s) = (drainN n s).map (beside r f) := by
  intro n
  induction n with
  | zero => exact fun {s} => rfl
  | succ n ih =>
    intro s
    simp only [drainN, drain_beside]
    cases drain s with
    | error e => rfl
    | ok t => exact ih

theorem background_beside : background (beside r f s) = (background s).map (beside r f) := by
  cases hsched : s.sched with
  | nil =>
    have hsched' : (beside r f s).sched = [] := hsched
    simp only [background, hsched, hsched']
    rfl
  | cons n sched =>
    have hsched' : (beside r f s).sched = n :: sched := hsched
    simp only [background, hsched, hsched']
    exact @drainN_beside r f n { s with sched }

theorem waitForSpace_beside : waitForSpace (beside r f s) = (waitForSpace s).map (beside r f) := by
  unfold waitForSpace
  show (if s.wc.activeBlks ≥ 32 then drain (beside r f s) else _) = _
  split
  · exact drain_beside
  · rfl

theorem writeToQueue_beside {buf : List UInt8} {blk : Nat} :
    writeToQueue (beside r f s) buf blk = (writeToQueue s buf blk).map (beside r f) := by
  unfold writeToQueue
  rw [background_beside]
  cases background s with
  | error e => rfl
  | ok t =>
    simp only [Except.map]
    rw [waitForSpace_beside]
    cases waitForSpace t with
    | error e => rfl
    | ok u => rfl

theorem appendLoop_beside : ∀ (fuel : Nat) {s : LogfsSt} {buf : List UInt8},
    appendLoop fuel (beside r f s) buf = (appendLoop fuel s buf).map fun x => (beside r f x.1, x.2) := by
  intro fuel
  induction fuel with
  | zero => exact fun {s buf} => rfl
  | succ fuel ih =>
    intro s buf
    by_cases hle : s.available ≤ buf.length
    · have hle' : (beside r f s).available ≤ buf.length := hle
      rw [appendLoop, appendLoop, if_pos hle, if_pos hle']
      let t : LogfsSt := { s with
        curBlk := splice s.curBlk s.curOff (buf.take s.available)
        off := s.off + s.available
        available := 0 }
      have hqueue : writeToQueue (beside r f t) t.curBlk (blockStart t (t.off - 1)) =
          (writeToQueue t t.curBlk (blockStart t (t.off - 1))).map (beside r f) := writeToQueue_beside
      simp only [beside, t] at hqueue ⊢
      simp only [blockStart] at hqueue ⊢
      rw [hqueue]
      generalize writeToQueue _ _ _ = w
      cases w with
      | error e => rfl
      | ok u =>
        exact @ih { u with curBlk := List.replicate u.blkSz 0, available := u.blkSz, curOff := 0 } (buf.drop s.available)
    · have hle' : ¬ (beside r f s).available ≤ buf.length := hle
      rw [appendLoop, appendLoop, if_neg hle, if_neg hle']
      rfl

/-- `logfs_append` once it has looked at the read cache. -/
def appendFrom (s : LogfsSt) (buf : List UInt8) : Except Stop LogfsSt :=
  match appendLoop (buf.length + 2) s buf with
  | .error e => .error e
  | .ok (s, left) =>
    if 0 < left.length then
      .ok { s with
        curBlk := splice s.curBlk s.curOff left
        off := s.off + left.length
        curOff := s.curOff + left.length
        available := s.available - left.length }
    else .ok s

theorem logfsAppend_eq : logfsAppend s buf = appendFrom (invalidate s) buf := rfl

theorem appendFrom_beside : appendFrom (beside r f s) buf = (appendFrom s buf).map (beside r f) := by
  unfold appendFrom
  rw [appendLoop_beside]
  cases appendLoop (buf.length + 2) s buf with
  | error e => rfl
  | ok x =>
    simp only [Except.map]
    split
    · rfl
    · rfl

/-! ## The invariant -/

/-- The log but for what the lines of the read cache hold: `n` blocks may have their
    numbers in it, each in its own line. -/
structure Tagged (s : LogfsSt) (log : List UInt8) (n : Nat) : Prop where
  core : Core { s with faults := [] } log
  tags : ∀ i, (s.rcache i).blk = 3 ∨ ∃ k < n, k % 256 = i ∧ (s.rcache i).blk = s.blkSz * k

/-- Between two calls. -/
abbrev Rest (s : LogfsSt) (log : List UInt8) : Prop := Tagged s log (log.length / s.blkSz + 1)

theorem rest_open (d : Device) (junk : Nat → List UInt8) (sched : List Nat) (faults : List Bool) :
    Rest (logfsOpen d junk sched faults) [] :=
  ⟨(idle_open d junk sched).core, fun _ => Or.inl rfl⟩

/-- The block that is appended to leaves the read cache. -/
def dropped (s : LogfsSt) : Nat → Block := (invalidate s).rcache

theorem invalidate_eq (s : LogfsSt) : invalidate s = beside (dropped s) s.faults s := by
  unfold dropped invalidate
  simp only
  split
  · rfl
  · rfl

theorem dropped_apply (s : LogfsSt) (i : Nat) :
    dropped s i = if i = rcIdx s (blockStart s s.off) ∧ blockStart s s.off = (s.rcache i).blk then
      { s.rcache i with blk := 3 } else s.rcache i := by
  unfold dropped invalidate
  by_cases heq : blockStart s s.off = (s.rcache (rcIdx s (blockStart s s.off))).blk
  · rw [if_pos heq]
    show Function.update s.rcache _ _ i = _
    by_cases hi : i = rcIdx s (blockStart s s.off)
    · rw [hi, Function.update_self, if_pos ⟨rfl, heq⟩]
    · rw [Function.update_of_ne hi, if_neg fun h => hi h.1]
  · rw [if_neg heq, if_neg]
    rintro ⟨rfl, h⟩
    exact heq h

/-- A line that was not dropped is as it was, and not the block's that is appended to. -/
theorem dropped_cases (h : Rest s log) (i : Nat) : (dropped s i).blk = 3 ∨
    (dropped s i = s.rcache i ∧ ∃ k < log.length / s.blkSz, k % 256 = i ∧ (s.rcache i).blk = s.blkSz * k) := by
  have hoff : s.off = log.length := h.core.off
  rw [dropped_apply]
  split
  · exact Or.inl rfl
  · rename_i hkept
    rcases h.tags i with h3 | ⟨k, hk, hki, he⟩
    · exact Or.inl h3
    · refine Or.inr ⟨rfl, k, ?_, hki, he⟩
      rcases Nat.lt_succ_iff_lt_or_eq.mp hk with hk | rfl
      · exact hk
      · -- the last block's line is dropped
        rw [blockStart_eq, hoff, @rcIdx_mul s h.core.pos] at hkept
        exact absurd ⟨hki.symm, he.symm⟩ hkept

/-- An append makes no line stale. -/
theorem Tagged.append (h : Rest s log) (hfit : s.blkSz * ((log.length + buf.length) / s.blkSz) ≤ s.device.size) :
    ∃ t, logfsAppend s buf = .ok t ∧ Rest t (log ++ buf) ∧ t.faults = s.faults ∧ t.blkSz = s.blkSz ∧
      t.device.size = s.device.size ∧ ∀ i, Stale t (log ++ buf) i → Stale s log i := by
  -- with an empty read cache nothing is dropped from it
  let empty : Nat → Block := fun _ => ⟨3, []⟩
  have hidle : Idle (beside empty [] s) log :=
    ⟨⟨h.core.blkSz, rfl, h.core.off, h.core.curOff, h.core.available, h.core.curBlk, h.core.queue⟩, fun _ => Or.inl rfl⟩
  have hinv : invalidate (beside empty [] s) = beside empty [] s := by
    have hempty : dropped (beside empty [] s) = empty := by
      funext i
      rw [dropped_apply]
      split
      · rfl
      · rfl
    rw [invalidate_eq, hempty]
    rfl
  obtain ⟨t₀, ht₀, hi, hsize, hblk⟩ := @logfsAppend_ok _ _ buf hidle hfit
  rw [logfsAppend_eq, hinv, appendFrom_beside] at ht₀
  obtain ⟨t, ht, rfl⟩ := exists_ok_of_map ht₀
  have hblk : t.blkSz = s.blkSz := hblk
  have hle : log.length / s.blkSz ≤ (log ++ buf).length / s.blkSz :=
    Nat.div_le_div_right (by rw [List.length_append]; omega)
  refine ⟨beside (dropped s) s.faults t, ?_, ⟨?_, ?_⟩, rfl, hblk, hsize, ?_⟩
  · rw [logfsAppend_eq, invalidate_eq, appendFrom_beside, ht]
    rfl
  · exact ⟨hi.core.blkSz, rfl, hi.core.off, hi.core.curOff, hi.core.available, hi.core.curBlk, hi.core.queue⟩
  · intro i
    rcases dropped_cases h i with h3 | ⟨he, k, hk, hki, hb⟩
    · exact Or.inl h3
    · refine Or.inr ⟨k, ?_, hki, ?_⟩
      · show k < (log ++ buf).length / t.blkSz + 1
        rw [hblk]
        omega
      · show (dropped s i).blk = t.blkSz * k
        rw [he, hblk, hb]
  · intro i hstale
    rcases dropped_cases h i with h3 | ⟨he, k, hk, hki, hb⟩
    · exact absurd h3 hstale.1
    · obtain ⟨hne, hbuf⟩ := hstale
      have hne : (dropped s i).blk ≠ 3 := hne
      have hbuf : (dropped s i).buf ≠ padded t.blkSz (log ++ buf) (dropped s i).blk := hbuf
      rw [he, hblk, hb, padded_append (block_le hk), ← hb] at hbuf
      rw [he] at hne
      exact ⟨hne, hbuf⟩

/-! ## Reading -/

theorem Core.background (h : Core { s with faults := [] } log) :
    ∃ t, background s = .ok t ∧ Core { t with faults := [] } log ∧ t.faults = s.faults ∧ t.rcache = s.rcache ∧
      t.blkSz = s.blkSz ∧ t.device.size = s.device.size := by
  obtain ⟨t, ht, hd⟩ := @background_ok s _ h.blkSz h.queue
  obtain ⟨wc, d, sched, rfl, hq, hs, hb⟩ := hd
  exact ⟨_, ht, ⟨h.blkSz.trans hb.symm, rfl, h.off, h.curOff, h.available, h.curBlk, hq⟩, rfl, rfl, rfl, hs⟩

theorem background_calm (h : background s = .ok t) (hr : t.rcache = s.rcache) :
    background { s with faults := [] } = .ok { t with faults := [] } := by
  show Logfs.background (beside s.rcache [] s) = _
  rw [background_beside, h, ← hr]
  rfl

/-- What a read that cannot fail answers, one that takes the next fault answers or fails. -/
theorem readDevice_cases {blk : Nat} {bs : List UInt8} (h : Core { s with faults := [] } log)
    (hread : readDevice { s with faults := [] } blk = .ok (some bs, u)) :
    ∃ t b, readDevice s blk = .ok (if b then none else some bs, t) ∧ Consumed s t b ∧
      Core { t with faults := [] } log ∧ t.rcache = s.rcache ∧ t.blkSz = s.blkSz ∧
      t.device.size = s.device.size := by
  obtain ⟨t, ht, hc, hf, hr, hb, hs⟩ := h.background
  unfold readDevice at hread ⊢
  rw [background_calm ht hr] at hread
  rw [ht]
  simp only [deviceRead, List.headD_nil] at hread ⊢
  by_cases hadm : t.device.Admits blk t.blkSz
  · rw [if_pos hadm] at hread ⊢
    simp only [Bool.false_eq_true, if_false, Except.ok.injEq, Prod.mk.injEq, Option.some.injEq] at hread
    rw [hread.1]
    refine ⟨{ t with faults := t.faults.tail }, t.faults.headD false, rfl, ?_, hc, hr, hb, hs⟩
    rw [hf]
    unfold Consumed
    cases s.faults with
    | nil => exact ⟨[], rfl, by simp⟩
    | cons b rest => exact ⟨[b], rfl, by simp [eq_comm]⟩
  · rw [if_neg hadm] at hread
    cases hread

/-- Where a block comes from, its device read may fail. -/
theorem fetchBlock_cases (h : Core { s with faults := [] } log) (hk : k ≤ log.length / s.blkSz) :
    ∃ t b, fetchBlock s (s.blkSz * k) = .ok (if b then none else some (padded s.blkSz log (s.blkSz * k)), t) ∧
      Consumed s t b ∧ Core { t with faults := [] } log ∧ t.rcache = s.rcache ∧ t.blkSz = s.blkSz ∧
      t.device.size = s.device.size := by
  obtain ⟨u, hfetch, -⟩ := @fetchBlock_ok log { s with faults := [] } k h hk
  obtain ⟨t, ht, hc, hf, hr, hb, hs⟩ := h.background
  unfold fetchBlock at hfetch ⊢
  by_cases hcur : s.blkSz * k = blockStart s s.off
  · have hcur' : s.blkSz * k = blockStart { s with faults := [] } s.off := hcur
    rw [if_pos hcur'] at hfetch
    simp only [Except.ok.injEq, Prod.mk.injEq, Option.some.injEq] at hfetch
    rw [if_pos hcur, hfetch.1]
    exact ⟨s, false, rfl, Consumed.refl s, h, rfl, rfl, rfl⟩
  · have hcur' : ¬ s.blkSz * k = blockStart { s with faults := [] } s.off := hcur
    rw [if_neg hcur', background_calm ht hr] at hfetch
    rw [if_neg hcur, ht]
    simp only at hfetch ⊢
    have hconsumed : ∀ {v b}, Consumed t v b → Consumed s v b := by
      rintro v b ⟨used, he, hmem⟩
      exact ⟨used, hf ▸ he, hmem⟩
    cases hcheck : checkInWcache t.wc (s.blkSz * k) with
    | some bs =>
      rw [hcheck] at hfetch
      simp only [Except.ok.injEq, Prod.mk.injEq, Option.some.injEq] at hfetch
      rw [hfetch.1]
      exact ⟨t, false, rfl, hconsumed (Consumed.refl t), hc, hr, hb, hs⟩
    | none =>
      rw [hcheck] at hfetch
      obtain ⟨v, b, hv, hcon, hcore, hr', hb', hs'⟩ := readDevice_cases hc hfetch
      exact ⟨v, b, hv, hconsumed hcon, hcore, hr'.trans hr, hb'.trans hb, hs'.trans hs⟩

/-- `read_mem` answers the bytes of the log unless its device read fails; either way the
    line has the number of the block. -/
theorem readMem_cases (h : Rest s log) (h3 : s.blkSz * k ≠ 3) (hk : s.blkSz * k ≤ off)
    (hB : off + len ≤ s.blkSz * k + s.blkSz) (hl : off + len ≤ log.length)
    (hclean : len ≠ 0 → (s.rcache (k % 256)).blk = s.blkSz * k → ¬ Stale s log (k % 256)) :
    ∃ t b, readMem s (s.blkSz * k) off len = .ok (if b then none else some ((log.drop off).take len), t) ∧
      Consumed s t b ∧ Rest t log ∧ t.blkSz = s.blkSz ∧ t.device.size = s.device.size ∧
      (t.rcache (k % 256)).blk = s.blkSz * k ∧ (∀ i, i ≠ k % 256 → t.rcache i = s.rcache i) ∧
      ∀ i, Stale t log i → Stale s log i ∨ b = true := by
  have hpos : 0 < s.blkSz := h.core.pos
  have hkn : k ≤ log.length / s.blkSz := (Nat.le_div_iff_mul_le hpos).mpr (by rw [Nat.mul_comm]; omega)
  have hread := take_drop_padded hk hB hl
  unfold readMem
  simp only [@rcIdx_mul s hpos]
  by_cases hhit : s.blkSz * k = (s.rcache (k % 256)).blk
  · rw [if_pos hhit]
    refine ⟨s, false, ?_, Consumed.refl s, h, rfl, rfl, hhit.symm, fun _ _ => rfl, fun i hi => Or.inl hi⟩
    by_cases h0 : len = 0
    · subst h0
      rfl
    · -- the line is not stale, so it has the block
      have hbuf : (s.rcache (k % 256)).buf = padded s.blkSz log (s.blkSz * k) := by
        by_contra hne
        exact hclean h0 hhit.symm ⟨hhit ▸ h3, by rw [← hhit]; exact hne⟩
      rw [hbuf, hread]
      rfl
  · rw [if_neg hhit]
    let s' : LogfsSt := { s with
      rcache := Function.update s.rcache (k % 256) { s.rcache (k % 256) with blk := s.blkSz * k } }
    have hcore : Core { s' with faults := [] } log :=
      ⟨h.core.blkSz, rfl, h.core.off, h.core.curOff, h.core.available, h.core.curBlk, h.core.queue⟩
    obtain ⟨t, b, ht, hcon, hc, hr, hb, hs⟩ := @fetchBlock_cases s' log k hcore hkn
    simp only [s'] at ht hr hb
    have htags : ∀ i, (t.rcache i).blk = 3 ∨ ∃ j < log.length / t.blkSz + 1, j % 256 = i ∧ (t.rcache i).blk = t.blkSz * j := by
      intro i
      rw [hr, hb]
      by_cases hi : i = k % 256
      · subst hi
        exact Or.inr ⟨k, Nat.lt_succ_of_le hkn, rfl, by simp⟩
      · rw [Function.update_of_ne hi]
        exact h.tags i
    have hother : ∀ i, i ≠ k % 256 → t.rcache i = s.rcache i := by
      intro i hi
      rw [hr, Function.update_of_ne hi]
    have hline : (t.rcache (k % 256)).blk = s.blkSz * k := by rw [hr, Function.update_self]
    have hstale : ∀ i, i ≠ k % 256 → Stale t log i → Stale s log i := by
      intro i hi hst
      unfold Stale at hst ⊢
      rwa [hother i hi, hb] at hst
    simp only [ht]
    cases b with
    | true =>
      exact ⟨t, true, rfl, hcon, ⟨hc, htags⟩, hb, hs, hline, hother, fun _ _ => Or.inr rfl⟩
    | false =>
      simp only [Bool.false_eq_true, if_false, hread]
      refine ⟨_, false, rfl, hcon, ⟨⟨hc.blkSz, rfl, hc.off, hc.curOff, hc.available, hc.curBlk, hc.queue⟩, ?_⟩, hb, hs, ?_, ?_,
        ?_⟩
      · intro i
        by_cases hi : i = k % 256
        · subst hi
          simp only [Function.update_self]
          exact htags _
        · simp only [Function.update_of_ne hi]
          exact htags i
      · simp only [Function.update_self]
        exact hline
      · intro i hi
        simp only [Function.update_of_ne hi]
        exact hother i hi
      · intro i hst
        by_cases hi : i = k % 256
        · subst hi
          obtain ⟨-, hbuf⟩ := hst
          simp only [Function.update_self, hline, hb] at hbuf
          exact absurd rfl hbuf
        · refine Or.inl (hstale i hi ?_)
          unfold Stale at hst ⊢
          simp only [Function.update_of_ne hi] at hst
          exact hst

/-- The line of the block that was read has its number now. -/
theorem Clean.next {stop : Nat} (h : Clean s log k stop) (hpos : 0 < s.blkSz) (hb : t.blkSz = s.blkSz)
    (hline : (t.rcache (k % 256)).blk = s.blkSz * k) (hother : ∀ i, i ≠ k % 256 → t.rcache i = s.rcache i) :
    Clean t log (k + 1) stop := by
  intro j hj hlt hstop htag hstale
  rw [hb] at hstop htag
  by_cases e : j % 256 = k % 256
  · rw [e, hline] at htag
    have := Nat.eq_of_mul_eq_mul_left hpos htag
    omega
  · have hwithin : j < k + 256 := by
      rcases Nat.lt_or_ge j (k + 256) with hlt' | hge
      · exact hlt'
      · exact absurd (by rw [show j = k + 256 by omega, Nat.add_mod_right]) e
    unfold Stale at hstale
    rw [hother _ e, hb] at hstale
    rw [hother _ e] at htag
    exact h j (by omega) hwithin hstop htag hstale

/-- Block by block; a device read that fails ends the loop. -/
theorem readLoop_cases : ∀ (fuel : Nat) {s : LogfsSt} {k off left : Nat}, left < fuel →
    Rest s log → (∀ j, k ≤ j → s.blkSz * j ≠ 3) → (left ≠ 0 → off = s.blkSz * k) → off + left ≤ log.length →
    Clean s log k (off + left) →
    ∃ t b, readLoop fuel s (s.blkSz * k) off left = .ok (if b then none else some ((log.drop off).take left), t) ∧
      Consumed s t b ∧ Rest t log ∧ t.blkSz = s.blkSz ∧ t.device.size = s.device.size ∧
      ∀ i, Stale t log i → Stale s log i ∨ b = true := by
  intro fuel
  induction fuel with
  | zero => exact fun hf => absurd hf (Nat.not_lt_zero _)
  | succ fuel ih =>
    intro s k off left hf h h3 hoff hl hclean
    have hpos : 0 < s.blkSz := h.core.pos
    unfold readLoop
    by_cases hbig : left > s.blkSz
    · have hk := hoff (by omega)
      obtain ⟨t, b, ht, hcon, hr, hbt, hst, hline, hother, hstale⟩ := @readMem_cases s log k off s.blkSz h
        (h3 k (Nat.le_refl k)) (by omega) (by omega) (by omega)
        fun _ htag => hclean k (Nat.le_refl k) (by omega) (by omega) htag
      simp only [if_pos hbig, ht]
      cases b with
      | true => exact ⟨t, true, rfl, hcon, hr, hbt, hst, hstale⟩
      | false =>
        have hnext := hclean.next hpos hbt hline hother
        obtain ⟨u, c, hu, hcon', hru, hbu, hsu, hstale'⟩ := @ih t (k + 1) (off + s.blkSz) (left - s.blkSz) (by omega) hr
          (fun j hj => by rw [hbt]; exact h3 j (by omega)) (fun _ => by rw [hbt, Nat.mul_succ]; omega) (by omega)
          (by rw [show off + s.blkSz + (left - s.blkSz) = off + left by omega]; exact hnext)
        rw [hbt, Nat.mul_succ] at hu
        refine ⟨u, c, ?_, hcon.trans hcon', hru, hbu.trans hbt, hsu.trans hst, ?_⟩
        · simp only [Bool.false_eq_true, if_false, hbt, hu]
          cases c with
          | true => rfl
          | false =>
            simp only [Bool.false_eq_true, if_false, Option.map_some, take_drop_add]
            rw [show s.blkSz + (left - s.blkSz) = left by omega]
        · intro i hi
          rcases hstale' i hi with hi | hc
          · exact Or.inl ((hstale i hi).resolve_right Bool.false_ne_true)
          · exact Or.inr hc
    · rw [if_neg hbig]
      by_cases h0 : left ≠ 0
      · rw [if_pos h0]
        obtain ⟨t, b, ht, hcon, hr, hbt, hst, -, -, hstale⟩ := @readMem_cases s log k off left h (h3 k (Nat.le_refl k))
          (by rw [hoff h0]) (by rw [hoff h0]; omega) hl
          fun _ htag => hclean k (Nat.le_refl k) (by omega) (by rw [hoff h0]; omega) htag
        exact ⟨t, b, ht, hcon, hr, hbt, hst, hstale⟩
      · rw [if_neg h0, show left = 0 by omega]
        exact ⟨s, false, rfl, Consumed.refl s, h, rfl, rfl, fun i hi => Or.inl hi⟩

/-- `logfs_read` answers the bytes of the log unless one of its device reads fails. -/
theorem logfsRead_cases (h : Rest s log) (hodd : ¬ s.blkSz ∣ 3) (hl : off + len ≤ log.length)
    (hclean : Clean s log (off / s.blkSz) (off + len)) :
    ∃ t b, logfsRead s off len = .ok (if b then none else some ((log.drop off).take len), t) ∧
      Consumed s t b ∧ Rest t log ∧ t.blkSz = s.blkSz ∧ t.device.size = s.device.size ∧
      ∀ i, Stale t log i → Stale s log i ∨ b = true := by
  have hpos : 0 < s.blkSz := h.core.pos
  have hdm := Nat.div_add_mod off s.blkSz
  have hmod := Nat.mod_lt off hpos
  have h3 : ∀ j, s.blkSz * j ≠ 3 := fun j he => hodd ⟨j, he.symm⟩
  unfold logfsRead
  simp only [blockStart_eq]
  generalize hm : min len (s.blkSz * (off / s.blkSz) + s.blkSz - off) = m
  obtain ⟨t, b, ht, hcon, hr, hbt, hst, hline, hother, hstale⟩ := @readMem_cases s log (off / s.blkSz) off m h (h3 _)
    (by omega) (by omega) (by omega) fun hm0 htag => hclean _ (Nat.le_refl _) (by omega) (by omega) htag
  simp only [ht]
  cases b with
  | true => exact ⟨t, true, rfl, hcon, hr, hbt, hst, hstale⟩
  | false =>
    have hnext := hclean.next hpos hbt hline hother
    obtain ⟨u, c, hu, hcon', hru, hbu, hsu, hstale'⟩ := @readLoop_cases log (len + 1) t (off / s.blkSz + 1) (off + m)
      (len - m) (by omega) hr (fun j _ => by rw [hbt]; exact h3 j) (fun _ => by rw [hbt, Nat.mul_succ]; omega) (by omega)
      (by rw [show off + m + (len - m) = off + len by omega]; exact hnext)
    rw [hbt, Nat.mul_succ] at hu
    refine ⟨u, c, ?_, hcon.trans hcon', hru, hbu.trans hbt, hsu.trans hst, ?_⟩
    · simp only [Bool.false_eq_true, if_false, hbt, hu]
      cases c with
      | true => rfl
      | false =>
        simp only [Bool.false_eq_true, if_false, Option.map_some, take_drop_add]
        rw [show m + (len - m) = len by omega]
    · intro i hi
      rcases hstale' i hi with hi | hc
      · exact Or.inl ((hstale i hi).resolve_right Bool.false_ne_true)
      · exact Or.inr hc

/-! ## Runs -/

theorem Tagged.drain (h : Rest s log) (n : Nat) :
    ∃ t, drainN n s = .ok t ∧ Rest t log ∧ t.faults = s.faults ∧ t.rcache = s.rcache ∧ t.blkSz = s.blkSz ∧
      t.device.size = s.device.size := by
  obtain ⟨t, ht, wc, d, sched, rfl, hq, hs, hb⟩ := @drainN_ok _ n s h.core.blkSz h.core.queue
  exact ⟨_, ht, ⟨⟨h.core.blkSz.trans hb.symm, rfl, h.core.off, h.core.curOff, h.core.available, h.core.curBlk, hq⟩, h.tags⟩,
    rfl, rfl, rfl, hs⟩

/-- One call whose reads are clean; a line goes stale only when a device read fails. -/
theorem step_cases (h : Rest s log) (hodd : ¬ s.blkSz ∣ 3) (op : Op) (ha : Allowed s.device.size log op)
    (hclean : ReadsClean s log op) :
    ∃ t b, step s op = .ok (if b then none else some (answer log op), t) ∧ Consumed s t b ∧
      Rest t (appended log op) ∧ t.blkSz = s.blkSz ∧ t.device.size = s.device.size ∧
      ∀ i, Stale t (appended log op) i → Stale s log i ∨ b = true := by
  cases op with
  | append buf =>
    obtain ⟨t, ht, hr, hf, hb, hs, hstale⟩ := @Tagged.append s log buf h ((Nat.mul_div_le _ _).trans ha)
    refine ⟨t, false, by simp only [step, ht]; rfl, ?_, hr, hb, hs, fun i hi => Or.inl (hstale i hi)⟩
    exact ⟨[], hf.symm, by simp⟩
  | read off len => exact logfsRead_cases h hodd ha hclean
  | drain n =>
    obtain ⟨t, ht, hr, hf, hrc, hb, hs⟩ := h.drain n
    refine ⟨t, false, by simp only [step, ht]; rfl, ⟨[], hf.symm, by simp⟩, hr, hb, hs, ?_⟩
    intro i hi
    unfold Stale at hi ⊢
    rw [hrc, hb] at hi
    exact Or.inl hi

theorem run_exact : ∀ (ops : List Op) {s : LogfsSt} {log : List UInt8}, Rest s log → ¬ s.blkSz ∣ 3 →
    AllAllowed s.device.size log ops → AlwaysClean s log ops → Exact s log ops := by
  intro ops
  induction ops with
  | nil => exact fun _ _ _ _ => trivial
  | cons op ops ih =>
    intro s log h hodd ha hclean
    obtain ⟨t, b, ht, hcon, hr, hb, hs, -⟩ := step_cases h hodd op ha.1 hclean.1
    refine ⟨_, t, ht, ?_, ?_, ih hr (by rw [hb]; exact hodd) (by rw [hs]; exact ha.2) (hclean.2 _ t ht)⟩
    · cases b with
      | true => exact hcon
      | false => exact hcon
    · cases b with
      | true => exact fun h => by cases h
      | false => exact fun _ => rfl

/-- Without failures no line is stale, so every read is clean. -/
theorem run_clean : ∀ (ops : List Op) {s : LogfsSt} {log : List UInt8}, Rest s log → ¬ s.blkSz ∣ 3 →
    AllAllowed s.device.size log ops → true ∉ s.faults → (∀ i, ¬ Stale s log i) → AlwaysClean s log ops := by
  intro ops
  induction ops with
  | nil => exact fun _ _ _ _ _ => trivial
  | cons op ops ih =>
    intro s log h hodd ha hf hfresh
    have hclean : ReadsClean s log op := by
      cases op with
      | read off len => exact fun j _ _ _ _ => hfresh _
      | append buf => trivial
      | drain n => trivial
    refine ⟨hclean, ?_⟩
    intro a t' ht'
    obtain ⟨t, b, ht, ⟨used, hused, hmem⟩, hr, hb, hs, hstale⟩ := step_cases h hodd op ha.1 hclean
    rw [ht] at ht'
    cases ht'
    rw [hused, List.mem_append, not_or] at hf
    refine ih hr (by rw [hb]; exact hodd) (by rw [hs]; exact ha.2) hf.2 ?_
    intro i hi
    rcases hstale i hi with hi | rfl
    · exact hfresh i hi
    · exact hf.1 (hmem.mpr rfl)

/-- Whatever `malloc` left in the caches, whenever the writer runs and whichever device
    reads fail: in a run whose reads find no stale line, a read answers -1 iff one of its
    device reads failed and the bytes appended otherwise, and no assertion fails; with no
    failures there are no stale lines. -/
theorem reads_are_exact (d : Device) (junk : Nat → List UInt8) (sched : List Nat) (faults : List Bool) (ops : List Op)
    (hd : ¬ d.block ∣ 3) (ha : AllAllowed d.size [] ops) :
    (AlwaysClean (logfsOpen d junk sched faults) [] ops → Exact (logfsOpen d junk sched faults) [] ops) ∧
    (true ∉ faults → AlwaysClean (logfsOpen d junk sched faults) [] ops) := by
  have h := rest_open d junk sched faults
  refine ⟨run_exact ops h hd ha, ?_⟩
  intro hf
  exact run_clean ops h hd ha hf fun i hi => hi.1 rfl

/-- Two-byte blocks; the first of the 34 that are appended has left the ring. -/
def smallDevice : Device := ⟨80, 2, ⟨fun _ => 0⟩, by decide, by decide, by decide⟩

def filling : Op := .append (List.replicate 68 1)

theorem allowed_filling : Allowed 80 [] filling := show 0 + 68 ≤ 80 by decide

theorem allowed_first : Allowed 80 (List.replicate 68 1) (.read 0 2) := show 0 + 2 ≤ 68 by decide

/-- The first read fails. -/
theorem reads_are_exact_failed :
    Exact (logfsOpen smallDevice (fun _ => [9, 9]) [] [true]) [] [filling, .read 0 2] := by
  have hopen := rest_open smallDevice (fun _ => [9, 9]) [] [true]
  refine (reads_are_exact smallDevice (fun _ => [9, 9]) [] [true] [filling, .read 0 2] (by decide)
    ⟨allowed_filling, allowed_first, trivial⟩).1 ⟨trivial, ?_⟩
  intro a t ht
  refine ⟨?_, fun _ _ _ => trivial⟩
  intro j _ _ _ _ hstale
  obtain ⟨t', b, ht', -, -, -, -, hfresh⟩ := step_cases hopen (by decide) filling allowed_filling trivial
  rw [ht] at ht'
  cases ht'
  rcases hfresh _ hstale with hs | rfl
  · exact hs.1 rfl
  · have hsome : (step (logfsOpen smallDevice (fun _ => [9, 9]) [] [true]) filling).map (·.1) = .ok (some []) := rfl
    rw [ht] at hsome
    cases hsome

/-- The block whose read failed is read again: the bytes that `malloc` left are answered. -/
theorem a_failed_read_leaves_its_number :
    ¬ ∀ (d : Device) (junk : Nat → List UInt8) (sched : List Nat) (faults : List Bool) (ops : List Op),
      ¬ d.block ∣ 3 → AllAllowed d.size [] ops → Exact (logfsOpen d junk sched faults) [] ops := by
  intro hall
  obtain ⟨a₁, t₁, h₁, -, -, a₂, t₂, h₂, -, -, a₃, t₃, h₃, -, hexact, -⟩ := hall smallDevice (fun _ => [9, 9]) [] [true]
    [filling, .read 0 2, .read 0 2] (by decide) ⟨allowed_filling, allowed_first, allowed_first, trivial⟩
  have hrun : run (logfsOpen smallDevice (fun _ => [9, 9]) [] [true]) [filling, .read 0 2, .read 0 2] =
      .ok ([a₁, a₂, a₃], t₃) := by
    simp only [run, h₁, h₂, h₃]
  have hmap : (run (logfsOpen smallDevice (fun _ => [9, 9]) [] [true]) [filling, .read 0 2, .read 0 2]).map (·.1) =
      .ok [some [], none, some [9, 9]] := rfl
  rw [hrun] at hmap
  cases hmap
  have h := hexact rfl
  revert h
  decide

end Cs238p.Logfs
