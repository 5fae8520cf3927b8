/-
  Cs238p.Logfs.Shutdown — what is on the device when `logfs_close` returns.

  The two threads of `Threads`, with the device, the blocks of an appended log that the
  caller hands over in order (`todo`), and the block that the writer has copied and not yet
  written (`pending`). The caller may close after any of them.

  `thread` and `write_to_device` both look at `done` before they look at the queue, so what
  is queued when `logfs_close` sets `done` is never written (`a_queued_block_is_lost`),
  but for the block that the writer is already about to take. Proved: in a run that never
  closes like that, and never fills the slot of a block whose device write is still to
  come, every block handed over is on the device when `logfs_close` returns; and after
  closing like that a block stays in the queue (`close_loses_nothing_unless_queued`).
-/
import Mathlib.Logic.Relation
import Cs238p.Logfs.LogProofs
import Cs238p.Logfs.Threads
import Cs238p.Logfs.Writer

namespace Cs238p.Logfs

open ByteMemory

structure CloseSt where
  threads : ThreadSt
  device : Device
  /-- `wcache_unit` and the copied bytes, from the copy to the device write. -/
  pending : Option (Nat × List UInt8)
  /-- The blocks that `write_to_queue` has put into the ring, in order. -/
  handed : List Block
  /-- How many of them have been taken out of it. -/
  taken : Nat
  /-- The blocks still to be handed over. -/
  todo : List Block

/-- The whole blocks of `log`, to be handed over. -/
def closeOpen (d : Device) (junk : Nat → List UInt8) (log : List UInt8) : CloseSt :=
  ⟨threadsOpen junk, d, none, [], 0, blocks d.block log⟩

inductive CloseStep : CloseSt → CloseSt → Prop
  | call {s : CloseSt} {t : ThreadSt} {b : Block} {todo : List Block} : CallerStep s.threads t → s.todo = b :: todo →
      t.caller = .lock b → CloseStep s { s with threads := t, todo }
  | put {s : CloseSt} {t : ThreadSt} {b : Block} : CallerStep s.threads t → s.threads.caller = .put b →
      CloseStep s { s with threads := t, handed := s.handed ++ [b] }
  | caller {s : CloseSt} {t : ThreadSt} : CallerStep s.threads t → (∀ b, t.caller ≠ .lock b) →
      (∀ b, s.threads.caller ≠ .put b) → CloseStep s { s with threads := t }
  | take {s : CloseSt} {t : ThreadSt} : WriterStep s.threads t → s.threads.writer = .take →
      CloseStep s { s with threads := t, pending := some (dequeue s.threads.wc).1, taken := s.taken + 1 }
  | write {s : CloseSt} {t : ThreadSt} {i : Nat} {buf : List UInt8} {d : Device} : WriterStep s.threads t →
      s.threads.writer = .write → s.pending = some (i, buf) →
      deviceWrite s.device buf (s.threads.wc.slots i).blk s.device.block = .ok d →
      CloseStep s { s with threads := t, device := d, pending := none }
  | writer {s : CloseSt} {t : ThreadSt} : WriterStep s.threads t → s.threads.writer ≠ .take →
      s.threads.writer ≠ .write → CloseStep s { s with threads := t }
  | spurious {s : CloseSt} {t : ThreadSt} : Spurious s.threads t → CloseStep s { s with threads := t }

/-- The states of the runs whose steps all meet `ok`. -/
inductive CloseReach (d : Device) (junk : Nat → List UInt8) (log : List UInt8) (ok : CloseSt → CloseSt → Prop) :
    CloseSt → Prop
  | start : CloseReach d junk log ok (closeOpen d junk log)
  | step {s s' : CloseSt} : CloseReach d junk log ok s → ok s s' → CloseStep s s' → CloseReach d junk log ok s'

/-- The caller fills the slot of a block whose device write is still to come. -/
def Overruns (s s' : CloseSt) : Prop :=
  (∃ b, s.threads.caller = .put b) ∧ s'.threads.caller = .signalItem ∧ s.pending ≠ none ∧ s.threads.wc.activeBlks = 31

/-- How many blocks the writer takes once `done` is set: one, when it is about to. -/
def committed (w : WriterPc) : Nat := if w = .take then 1 else 0

/-- `logfs_close` sets `done` with a block in the queue that the writer is not about to
    take. -/
def Abandons (s s' : CloseSt) : Prop :=
  s.threads.caller = .setDone ∧ s'.threads.caller = .closeItem ∧ committed s.threads.writer < s.threads.wc.activeBlks

/-! ## Every run -/

/-- The block that a call of `write_to_queue` has not put into the ring yet. -/
def CallerPc.carries : CallerPc → List Block
  | .lock b | .test b | .block b | .asleep b | .woken b | .put b => [b]
  | _ => []

/-- The writer has taken a block and not written it yet. -/
def WriterPc.writes : WriterPc → Bool
  | .signalSpace | .unlock | .write => true
  | _ => false

structure CloseInv (d : Device) (junk : Nat → List UInt8) (log : List UInt8) (s : CloseSt) : Prop where
  threads : ThreadInv junk s.threads
  block_eq : s.device.block = d.block
  order : s.handed ++ s.threads.caller.carries ++ s.todo = blocks d.block log
  fifo : Fifo (fun i => ⟨3, junk i⟩) s.threads.wc s.handed s.taken
  writes : s.pending.isSome = s.threads.writer.writes
  pending : ∀ i buf, s.pending = some (i, buf) → 0 < s.taken ∧ i = (s.taken - 1) % 32 ∧
    ∃ b, s.handed[s.taken - 1]? = some b ∧ buf = b.buf
  joined : s.threads.caller = .joined → s.threads.writer = .exited

variable {d : Device} {junk : Nat → List UInt8} {log : List UInt8} {ok : CloseSt → CloseSt → Prop}
variable {s s' : CloseSt} {t t' : ThreadSt}

theorem CloseStep.threads (h : CloseStep s s') : ThreadStep s.threads s'.threads := by
  cases h with
  | call hs | put hs | caller hs => exact .caller hs
  | take hs | write hs | writer hs => exact .writer hs
  | spurious hs => exact .spurious hs

@[simp] theorem writes_signalItem (w : WriterPc) : (signalItem w).writes = w.writes := by cases w <;> rfl

@[simp] theorem carries_signalSpace (c : CallerPc) : (signalSpace c).carries = c.carries := by cases c <;> rfl

/-- A step of the caller that takes no block up and puts none down. -/
theorem CallerStep.frame (h : CallerStep t t') (hl : ∀ b, t'.caller ≠ .lock b) (hp : ∀ b, t.caller ≠ .put b) :
    t'.wc = t.wc ∧ t'.caller.carries = t.caller.carries ∧ t'.writer.writes = t.writer.writes ∧
      (t'.caller = .joined → t'.writer = .exited) := by
  cases h with
  | call b hc => exact absurd rfl (hl b)
  | put hc => exact absurd hc (hp _)
  | _ => simp_all [CallerPc.carries]

theorem CallerStep.call_eq {b : Block} (h : CallerStep t t') (hc : t'.caller = .lock b) :
    t'.wc = t.wc ∧ t.caller.carries = [] ∧ t'.writer = t.writer := by
  cases h <;> simp_all [CallerPc.carries]

theorem CallerStep.put_eq {b : Block} (h : CallerStep t t') (hc : t.caller = .put b) :
    t'.wc = enqueue t.wc b ∧ t'.caller = .signalItem ∧ t'.writer = t.writer := by
  cases h <;> simp_all

/-- A step of the writer that neither takes a block nor writes one. -/
theorem WriterStep.frame (h : WriterStep t t') (ht : t.writer ≠ .take) (hw : t.writer ≠ .write) :
    t'.wc = t.wc ∧ t'.caller.carries = t.caller.carries ∧ t'.writer.writes = t.writer.writes ∧
      (t'.caller = .joined → t.caller = .joined) ∧ t.writer ≠ .exited := by
  cases h with
  | signalSpace hpc =>
    refine ⟨rfl, carries_signalSpace _, by rw [hpc]; rfl, ?_, by rw [hpc]; decide⟩
    show Logfs.signalSpace t.caller = CallerPc.joined → _
    cases t.caller <;> simp [Logfs.signalSpace]
  | _ => simp_all [WriterPc.writes]

theorem WriterStep.take_eq (h : WriterStep t t') (hc : t.writer = .take) :
    t.wc.activeBlks ≠ 0 ∧ t'.wc = (dequeue t.wc).2 ∧ t'.caller = t.caller ∧ t'.writer = .signalSpace := by
  cases h with
  | take hpc htake =>
    unfold takeBlock at htake
    split at htake
    · cases htake
    · rename_i h0
      cases htake
      exact ⟨h0, rfl, rfl, rfl⟩
  | _ => simp_all

theorem WriterStep.write_eq (h : WriterStep t t') (hc : t.writer = .write) :
    t'.wc = t.wc ∧ t'.caller = t.caller ∧ t'.writer = .loop := by
  cases h <;> simp_all

theorem Spurious.frame (h : Spurious t t') : t'.wc = t.wc ∧ t'.caller.carries = t.caller.carries ∧
    t'.writer.writes = t.writer.writes ∧ (t'.caller = .joined → t.caller = .joined ∧ t.writer ≠ .exited) := by
  cases h <;> simp_all [CallerPc.carries, WriterPc.writes]

/-- The blocks handed over are the first ones of the log. -/
theorem CloseInv.laid (h : CloseInv d junk log s) : Laid s.device.block s.handed := by
  have hl := @laid_blocks d.block log d.block_pos
  rw [← h.order, List.append_assoc] at hl
  rw [h.block_eq]
  refine ⟨fun b hb => hl.length b (List.mem_append_left _ hb), fun b hb => hl.aligned b (List.mem_append_left _ hb), ?_⟩
  intro j k hj hk he
  refine hl.distinct j k (by rw [List.length_append]; omega) (by rw [List.length_append]; omega) ?_
  rwa [List.getElem_append_left hj, List.getElem_append_left hk]

theorem CloseInv.step (h : CloseInv d junk log s) (hs : CloseStep s s') : CloseInv d junk log s' := by
  have ht := h.threads.step hs.threads
  cases hs with
  | @call t b todo hc htodo hlock =>
    obtain ⟨hwc, hcarry, hw⟩ := hc.call_eq hlock
    refine ⟨ht, h.block_eq, ?_, ?_, by rw [h.writes, hw], h.pending, by simp [hlock]⟩
    · have horder := h.order
      rw [hcarry, htodo] at horder
      simpa [hlock, CallerPc.carries] using horder
    · rw [hwc]; exact h.fifo
  | @put t b hc hput =>
    obtain ⟨hwc, hpc, hw⟩ := hc.put_eq hput
    have hroom : s.threads.wc.activeBlks < 32 := by
      have hok := h.threads.caller
      rw [hput] at hok
      exact hok
    refine ⟨ht, h.block_eq, ?_, ?_, by rw [h.writes, hw], ?_, by simp [hpc]⟩
    · have horder := h.order
      rw [hput] at horder
      simpa [hpc, CallerPc.carries] using horder
    · rw [hwc]; exact h.fifo.enqueue hroom b
    · intro i buf hp
      obtain ⟨hpos, hi, x, hx, hbuf⟩ := h.pending i buf hp
      refine ⟨hpos, hi, x, ?_, hbuf⟩
      rw [List.getElem?_append_left (List.getElem?_eq_some_iff.mp hx).1]
      exact hx
  | @caller t hc hl hp =>
    obtain ⟨hwc, hcarry, hw, hj⟩ := hc.frame hl hp
    exact ⟨ht, h.block_eq, by rw [hcarry]; exact h.order, by rw [hwc]; exact h.fifo, by rw [h.writes, hw], h.pending, hj⟩
  | @take t hw htake =>
    obtain ⟨h0, hwc, hc, hpc⟩ := hw.take_eq htake
    have hlt : s.taken < s.handed.length := by have := h.fifo.active; omega
    refine ⟨ht, h.block_eq, by rw [hc]; exact h.order, by rw [hwc]; exact h.fifo.dequeue h0, by rw [hpc]; rfl, ?_, ?_⟩
    · intro i buf hp
      simp only [dequeue, Option.some.injEq, Prod.mk.injEq] at hp
      obtain ⟨rfl, rfl⟩ := hp
      refine ⟨Nat.succ_pos _, h.fifo.tail, s.handed[s.taken], ?_, ?_⟩
      · rw [Nat.add_sub_cancel]
        exact List.getElem?_eq_getElem hlt
      · rw [h.fifo.slot_tail hlt]
    · rw [hc]
      intro hj
      exact absurd (h.joined hj) (by rw [htake]; decide)
  | @write t i buf e hw hwrite hp hdev =>
    obtain ⟨hwc, hc, hpc⟩ := hw.write_eq hwrite
    refine ⟨ht, (deviceWrite_geometry hdev).2.trans h.block_eq, by rw [hc]; exact h.order, by rw [hwc]; exact h.fifo,
      by rw [hpc]; rfl, (fun _ _ h => by cases h), ?_⟩
    rw [hc]
    intro hj
    exact absurd (h.joined hj) (by rw [hwrite]; decide)
  | @writer t hw ht1 ht2 =>
    obtain ⟨hwc, hcarry, hwr, hj, hne⟩ := hw.frame ht1 ht2
    exact ⟨ht, h.block_eq, by rw [hcarry]; exact h.order, by rw [hwc]; exact h.fifo, by rw [h.writes, hwr], h.pending,
      fun hj' => absurd (h.joined (hj hj')) hne⟩
  | @spurious t hsp =>
    obtain ⟨hwc, hcarry, hwr, hj⟩ := hsp.frame
    exact ⟨ht, h.block_eq, by rw [hcarry]; exact h.order, by rw [hwc]; exact h.fifo, by rw [h.writes, hwr], h.pending,
      fun hj' => absurd (h.joined (hj hj').1) (hj hj').2⟩

theorem closeInv_open (d : Device) (junk : Nat → List UInt8) (log : List UInt8) :
    CloseInv d junk log (closeOpen d junk log) :=
  ⟨threadInv_open junk, rfl, rfl, fifo_open junk, rfl, (fun _ _ h => by cases h), (fun h => by cases h)⟩

theorem closeInv (h : CloseReach d junk log ok s) : CloseInv d junk log s := by
  induction h with
  | start => exact closeInv_open d junk log
  | step _ _ hs ih => exact ih.step hs

/-! ## What a step does to the device -/

/-- How many blocks are on the device: all that were taken but a pending one. -/
def flushed (s : CloseSt) : Nat := if s.pending = none then s.taken else s.taken - 1

theorem CloseInv.flushed_le (h : CloseInv d junk log s) : flushed s ≤ s.handed.length := by
  have hact := h.fifo.active
  unfold flushed
  split <;> omega

/-- Room for a pending write's slot is lost only when that slot is filled. -/
theorem CloseInv.room_step (h : CloseInv d junk log s) (hroom : s.pending ≠ none → s.threads.wc.activeBlks ≤ 31)
    (ho : ¬ Overruns s s') (hs : CloseStep s s') : s'.pending ≠ none → s'.threads.wc.activeBlks ≤ 31 := by
  have hle := h.fifo.le
  cases hs with
  | call hc _ hlock =>
    rw [(hc.call_eq hlock).1]
    exact hroom
  | put hc hput =>
    obtain ⟨hwc, hpc, -⟩ := hc.put_eq hput
    intro hp
    have hroom := hroom hp
    have hne : s.threads.wc.activeBlks ≠ 31 := fun he => ho ⟨⟨_, hput⟩, hpc, hp, he⟩
    rw [hwc]
    simp only [enqueue]
    omega
  | caller hc hl hp =>
    rw [(hc.frame hl hp).1]
    exact hroom
  | take hw htake =>
    obtain ⟨h0, hwc, -⟩ := hw.take_eq htake
    intro _
    rw [hwc]
    simp only [dequeue]
    omega
  | write => exact fun hn => absurd rfl hn
  | writer hw ht hwr =>
    rw [(hw.frame ht hwr).1]
    exact hroom
  | spurious hsp =>
    rw [hsp.frame.1]
    exact hroom

/-- A step leaves the device alone, or it is the device write of the next block. -/
theorem CloseInv.device_cases (h : CloseInv d junk log s) (hroom : s.pending ≠ none → s.threads.wc.activeBlks ≤ 31)
    (hs : CloseStep s s') :
    (s'.device = s.device ∧ flushed s' = flushed s ∧ ∃ new, s'.handed = s.handed ++ new) ∨
    ∃ hlt : flushed s < s.handed.length,
      deviceWrite s.device s.handed[flushed s].buf s.handed[flushed s].blk s.device.block = .ok s'.device ∧
        flushed s' = flushed s + 1 ∧ s'.handed = s.handed := by
  have hact := h.fifo.active
  cases hs with
  | call | caller | writer | spurious => exact Or.inl ⟨rfl, rfl, [], (List.append_nil _).symm⟩
  | put => exact Or.inl ⟨rfl, rfl, _, rfl⟩
  | take hw htake =>
    have hp : s.pending = none := by
      have hwrites := h.writes
      rw [htake] at hwrites
      exact Option.not_isSome_iff_eq_none.mp (by simp [hwrites, WriterPc.writes])
    refine Or.inl ⟨rfl, ?_, [], (List.append_nil _).symm⟩
    simp [flushed, hp]
  | @write t i buf e hw hwrite hp hdev =>
    obtain ⟨hpos, rfl, b, hb, rfl⟩ := h.pending i buf hp
    obtain ⟨hlt, rfl⟩ := List.getElem?_eq_some_iff.mp hb
    have hroom := hroom (by rw [hp]; simp)
    have hslot := h.fifo.slots.recent (s.taken - 1) hlt (by omega)
    have hf : flushed s = s.taken - 1 := by simp [flushed, hp]
    rw [hslot] at hdev
    refine Or.inr ⟨by omega, ?_, ?_, rfl⟩
    · simp only [hf]
      exact hdev
    · rw [hf]
      simp only [flushed, if_true]
      omega

/-! ## Runs that close with nothing queued -/

structure Flushing (s : CloseSt) : Prop where
  room : s.pending ≠ none → s.threads.wc.activeBlks ≤ 31
  stored : Stored s.device s.handed (flushed s)
  closed : s.threads.done = true → s.threads.wc.activeBlks ≤ committed s.threads.writer

/-- Only `logfs_close` sets `done`, and puts nothing after it. -/
theorem CallerStep.done_eq (h : CallerStep t t') :
    t'.done = true → t.done = true ∨ t.caller = .setDone ∧ t'.caller = .closeItem := by
  cases h <;> simp_all

theorem WriterStep.done_eq (h : WriterStep t t') : t'.done = t.done := by
  cases h <;> rfl

theorem Spurious.done_eq (h : Spurious t t') : t'.done = t.done ∧ committed t'.writer = committed t.writer := by
  cases h <;> simp_all [committed]

@[simp] theorem committed_signalItem (w : WriterPc) : committed (signalItem w) = committed w := by cases w <;> rfl

theorem CallerStep.committed_eq (h : CallerStep t t') : committed t'.writer = committed t.writer := by
  cases h <;> simp

/-- With `done` set the writer is not on its way to a block. -/
theorem WriterStep.committed_eq (h : WriterStep t t') (ht : t.writer ≠ .take) (hd : t.done = true) :
    committed t'.writer = committed t.writer := by
  cases h <;> simp_all [committed]

/-- A block is put while the log is open. -/
theorem CloseInv.open_of_put {b : Block} (h : CloseInv d junk log s) (hc : s.threads.caller = .put b) :
    s.threads.done = false := by
  rw [h.threads.done_eq, hc]
  rfl

theorem CloseInv.stored_step (h : CloseInv d junk log s) (hroom : s.pending ≠ none → s.threads.wc.activeBlks ≤ 31)
    (hst : Stored s.device s.handed (flushed s)) (hs : CloseStep s s') : Stored s'.device s'.handed (flushed s') := by
  rcases h.device_cases hroom hs with ⟨hd, hf, new, hh⟩ | ⟨hlt, hd, hf, hh⟩
  · rw [hd, hf, hh]
    exact hst.append h.flushed_le
  · rw [deviceWrite_eq hd, hf, hh]
    exact hst.write h.laid hlt

/-- Once `done` is set the queue holds no more than the writer is about to take. -/
theorem CloseInv.closed_step (h : CloseInv d junk log s) (ha : ¬ Abandons s s') (hs : CloseStep s s')
    (hcl : s.threads.done = true → s.threads.wc.activeBlks ≤ committed s.threads.writer) :
    s'.threads.done = true → s'.threads.wc.activeBlks ≤ committed s'.threads.writer := by
  cases hs with
  | call hc _ hlock =>
    obtain ⟨hwc, -, hw⟩ := hc.call_eq hlock
    intro hd
    rw [hwc, hw]
    rcases hc.done_eq hd with hd | ⟨-, hc'⟩
    · exact hcl hd
    · rw [hlock] at hc'
      cases hc'
  | put hc hput =>
    intro hd
    rcases hc.done_eq hd with hd | ⟨hc', -⟩
    · rw [h.open_of_put hput] at hd
      cases hd
    · rw [hput] at hc'
      cases hc'
  | caller hc hl hp =>
    obtain ⟨hwc, -⟩ := hc.frame hl hp
    intro hd
    rw [hwc, hc.committed_eq]
    rcases hc.done_eq hd with hd | ⟨h1, h2⟩
    · exact hcl hd
    · exact Nat.le_of_not_lt fun hlt => ha ⟨h1, h2, hlt⟩
  | take hw htake =>
    obtain ⟨h0, hwc, -, hpc⟩ := hw.take_eq htake
    intro hd
    have hclosed := hcl (by rw [← hw.done_eq]; exact hd)
    rw [htake] at hclosed
    rw [hwc, hpc]
    simp only [committed, if_true] at hclosed
    simp only [dequeue]
    omega
  | write hw hwrite _ _ =>
    obtain ⟨hwc, -, hpc⟩ := hw.write_eq hwrite
    intro hd
    have hclosed := hcl (by rw [← hw.done_eq]; exact hd)
    rw [hwrite] at hclosed
    rw [hwc, hpc]
    exact hclosed
  | writer hw ht1 ht2 =>
    obtain ⟨hwc, -⟩ := hw.frame ht1 ht2
    intro hd
    rw [hw.done_eq] at hd
    rw [hwc, hw.committed_eq ht1 hd]
    exact hcl hd
  | spurious hsp =>
    obtain ⟨hwc, -⟩ := hsp.frame
    obtain ⟨hd', hcm⟩ := hsp.done_eq
    rw [hd', hwc, hcm]
    exact hcl

theorem Flushing.step (h : Flushing s) (hi : CloseInv d junk log s) (ho : ¬ Overruns s s') (ha : ¬ Abandons s s')
    (hs : CloseStep s s') : Flushing s' :=
  ⟨hi.room_step h.room ho hs, hi.stored_step h.room h.stored hs, hi.closed_step ha hs h.closed⟩

theorem flushing (h : CloseReach d junk log (fun s s' => ¬ Overruns s s' ∧ ¬ Abandons s s') s) : Flushing s := by
  induction h with
  | start => exact ⟨fun h => absurd rfl h, fun k hk _ => absurd hk (Nat.not_lt_zero k), fun h => by cases h⟩
  | step hr hok hs ih => exact ih.step (closeInv hr) hok.1 hok.2 hs

/-! ## Runs that close with a block queued -/

/-- A block is queued that the writer will not take any more. -/
def Lost (s : CloseSt) : Prop := s.threads.done = true ∧ committed s.threads.writer < s.threads.wc.activeBlks

theorem lost_of_abandons (hs : CloseStep s s') (ha : Abandons s s') : Lost s' := by
  obtain ⟨h1, h2, hlt⟩ := ha
  cases hs with
  | call hc _ hl => exact absurd (h2.symm.trans hl) (by simp)
  | put hc hp => rw [h1] at hp; cases hp
  | @caller t hc hl hp =>
    obtain ⟨hwc, -⟩ := hc.frame hl hp
    refine ⟨?_, by rw [hwc, hc.committed_eq]; exact hlt⟩
    cases hc <;> simp_all
  | take hw _ | write hw _ _ _ | writer hw _ _ => cases hw <;> simp_all [signalSpace]
  | spurious hsp => cases hsp <;> simp_all

theorem Lost.step (h : Lost s) (hi : CloseInv d junk log s) (hs : CloseStep s s') : Lost s' := by
  obtain ⟨hd, hlt⟩ := h
  have hkeep : ∀ {t : ThreadSt}, CallerStep s.threads t → t.done = true := by
    intro t hc
    cases hc <;> first | exact hd | rfl
  cases hs with
  | call hc _ hl =>
    obtain ⟨hwc, -⟩ := hc.call_eq hl
    exact ⟨hkeep hc, by rw [hwc, hc.committed_eq]; exact hlt⟩
  | put hc hput => rw [hi.open_of_put hput] at hd; cases hd
  | caller hc hl hp =>
    obtain ⟨hwc, -⟩ := hc.frame hl hp
    exact ⟨hkeep hc, by rw [hwc, hc.committed_eq]; exact hlt⟩
  | take hw htake =>
    obtain ⟨h0, hwc, -, hpc⟩ := hw.take_eq htake
    have hle := hi.fifo.le
    refine ⟨by rw [hw.done_eq]; exact hd, ?_⟩
    rw [htake] at hlt
    rw [hwc, hpc]
    simp only [committed, if_true] at hlt
    simp only [committed, dequeue]
    rw [if_neg (by decide)]
    omega
  | write hw hwrite _ _ =>
    obtain ⟨hwc, -, hpc⟩ := hw.write_eq hwrite
    rw [hwrite] at hlt
    exact ⟨by rw [hw.done_eq]; exact hd, by rw [hwc, hpc]; exact hlt⟩
  | writer hw ht1 ht2 =>
    obtain ⟨hwc, -⟩ := hw.frame ht1 ht2
    exact ⟨by rw [hw.done_eq]; exact hd, by rw [hwc, hw.committed_eq ht1 hd]; exact hlt⟩
  | spurious hsp =>
    obtain ⟨hwc, -⟩ := hsp.frame
    obtain ⟨hd', hcm⟩ := hsp.done_eq
    exact ⟨by rw [hd']; exact hd, by rw [hwc, hcm]; exact hlt⟩

/-- Once lost, a block stays in the queue. -/
theorem Lost.run (h : Lost s) (hi : CloseInv d junk log s) (hs : Relation.ReflTransGen CloseStep s s') :
    CloseInv d junk log s' ∧ Lost s' := by
  induction hs with
  | refl => exact ⟨hi, h⟩
  | tail _ hs ih => exact ⟨ih.1.step hs, ih.2.step ih.1 hs⟩

/-! ## What is on the device -/

/-- What has been handed over is on the device when `logfs_close` returns, in every run that
    neither fills the slot of a pending write nor sets `done` with a block queued; after
    `done` was set with a block queued, a block is never taken out of the queue again. -/
theorem close_loses_nothing_unless_queued (d : Device) (junk : Nat → List UInt8) (log : List UInt8) :
    (∀ s, CloseReach d junk log (fun s s' => ¬ Overruns s s' ∧ ¬ Abandons s s') s → s.threads.caller = .joined →
      ∀ b ∈ s.handed, s.device.bytes.read b.blk s.device.block = b.buf) ∧
    (∀ s s' u, CloseReach d junk log (fun _ _ => True) s → CloseStep s s' → Abandons s s' →
      Relation.ReflTransGen CloseStep s' u → u.taken < u.handed.length) := by
  refine ⟨?_, ?_⟩
  · intro s h hj b hb
    have hi := closeInv h
    have hf := flushing h
    obtain ⟨k, hk, rfl⟩ := List.getElem_of_mem hb
    have hdone : s.threads.done = true := by rw [hi.threads.done_eq, hj]; rfl
    have hclosed := hf.closed hdone
    have hwrites := hi.writes
    rw [hi.joined hj] at hclosed hwrites
    have hnone : s.pending = none := Option.not_isSome_iff_eq_none.mp (by simp [hwrites, WriterPc.writes])
    have hzero : s.threads.wc.activeBlks = 0 := Nat.le_zero.mp hclosed
    have hact := hi.fifo.active
    refine hf.stored k hk ?_
    rw [flushed, if_pos hnone]
    omega
  · intro s s' u h hs ha hu
    have hi := (closeInv h).step hs
    obtain ⟨hiu, -, hlt⟩ := (lost_of_abandons hs ha).run hi hu
    have hact := hiu.fifo.active
    omega

/-! ## One block, and the log is closed -/

theorem blocks_ones : blocks 512 ones = [onesAt 0] := by
  have hpad : padded 512 ones 0 = ones := by
    rw [padded, List.drop_zero]
    exact List.take_left' length_ones
  rw [blocks, length_ones]
  show [Block.mk (512 * 0) (padded 512 ones 0)] = _
  rw [hpad]
  rfl

/-- The block is in the queue, and nothing else has happened. -/
def oneQueued : CloseSt :=
  { threads := ⟨enqueue (wcacheOpen fun _ => []) (onesAt 0), false, none, .idle, .loop⟩
    device := device512
    pending := none
    handed := [onesAt 0]
    taken := 0
    todo := [] }

theorem reach_oneQueued (hok : ∀ s s', s.pending = none → s.threads.caller ≠ .setDone → ok s s') :
    CloseReach device512 (fun _ => []) ones ok oneQueued := by
  have h0 := @CloseReach.start device512 (fun _ => []) ones ok
  have htodo : (closeOpen device512 (fun _ => []) ones).todo = [onesAt 0] := by
    simp only [closeOpen, device512, blocks_ones]
  have h1 := h0.step (hok _ _ rfl (fun h => by cases h)) (.call (.call (onesAt 0) rfl) htodo rfl)
  have h2 := h1.step (hok _ _ rfl (fun h => by cases h)) (.caller (.lock rfl rfl) (fun _ h => by cases h) fun _ h => by cases h)
  have h3 := h2.step (hok _ _ rfl (fun h => by cases h)) (.caller (.room rfl (show ¬ 0 ≥ 32 by decide)) (fun _ h => by cases h) fun _ h => by cases h)
  have h4 := h3.step (hok _ _ rfl (fun h => by cases h)) (.put (.put rfl) rfl)
  have h5 := h4.step (hok _ _ rfl (fun h => by cases h)) (.caller (.signalItem rfl) (fun _ h => by cases h) fun _ h => by cases h)
  exact h5.step (hok _ _ rfl (fun h => by cases h)) (.caller (.unlock rfl) (fun _ h => by cases h) fun _ h => by cases h)

/-- The writer has written it, and looks at `done` again. -/
def oneWritten : CloseSt :=
  { oneQueued with
    threads := { oneQueued.threads with wc := (dequeue oneQueued.threads.wc).2 }
    device := { device512 with bytes := device512.bytes.write (onesAt 0).blk (onesAt 0).buf }
    taken := 1 }

theorem reach_oneWritten (h : CloseReach device512 (fun _ => []) ones ok oneQueued)
    (hok : ∀ s s', s.threads.caller = .idle → ok s s') : CloseReach device512 (fun _ => []) ones ok oneWritten := by
  have h1 := h.step (hok _ _ rfl) (.writer (.again rfl rfl) (fun h => by cases h) (fun h => by cases h))
  have h2 := h1.step (hok _ _ rfl) (.writer (.lock rfl rfl) (fun h => by cases h) (fun h => by cases h))
  have h3 := h2.step (hok _ _ rfl) (.writer (.ended rfl (show ¬ (false = false ∧ 1 ≤ 0) by decide)) (fun h => by cases h) (fun h => by cases h))
  have h4 := h3.step (hok _ _ rfl) (.writer (.notDone rfl rfl) (fun h => by cases h) (fun h => by cases h))
  have h5 := h4.step (hok _ _ rfl) (.take (.take rfl (takeBlock_ok (show 1 ≠ 0 by decide))) rfl)
  have h6 := h5.step (hok _ _ rfl) (.writer (.signalSpace rfl) (fun h => by cases h) (fun h => by cases h))
  have h7 := h6.step (hok _ _ rfl) (.writer (.unlock rfl) (fun h => by cases h) (fun h => by cases h))
  exact h7.step (hok _ _ rfl) (.write (.write rfl) rfl rfl (deviceWrite_ok (admits_onesAt (k := 0) (by decide))))

/-- The writer writes it before the log is closed. -/
theorem close_loses_nothing_unless_queued_one : ∃ s,
    CloseReach device512 (fun _ => []) ones (fun s s' => ¬ Overruns s s' ∧ ¬ Abandons s s') s ∧
    s.threads.caller = .joined ∧ s.handed = [onesAt 0] ∧ ∀ b ∈ s.handed, s.device.bytes.read b.blk s.device.block = b.buf := by
  have idle : ∀ {s s' : CloseSt}, s.threads.caller = .idle → ¬ Overruns s s' ∧ ¬ Abandons s s' := by
    intro s s' hc
    refine ⟨?_, ?_⟩
    · rintro ⟨⟨b, hb⟩, -⟩
      rw [hc] at hb
      cases hb
    · rintro ⟨h, -⟩
      rw [hc] at h
      cases h
  have closing : ∀ {s s' : CloseSt}, s.threads.caller.closing = true → ¬ Overruns s s' ∧ ¬ Abandons s s' := by
    intro s s' hc
    refine ⟨?_, ?_⟩
    · rintro ⟨⟨b, hb⟩, -⟩
      rw [hb] at hc
      cases hc
    · rintro ⟨h, -⟩
      rw [h] at hc
      cases hc
  have h0 := @reach_oneQueued (fun s s' => ¬ Overruns s s' ∧ ¬ Abandons s s') fun s s' hp hc =>
    ⟨fun h => h.2.2.1 hp, fun h => hc h.1⟩
  have h8 := reach_oneWritten h0 fun _ _ => idle
  have h9 := h8.step (idle rfl) (.caller (.close rfl) (fun _ h => by cases h) fun _ h => by cases h)
  have h10 := h9.step ⟨(fun h => nomatch h.1.choose_spec), fun h => absurd h.2.2 (Nat.not_lt_zero 0)⟩
    (.caller (.setDone rfl) (fun _ h => by cases h) fun _ h => by cases h)
  have h11 := h10.step (closing rfl) (.caller (.closeItem rfl) (fun _ h => by cases h) fun _ h => by cases h)
  have h12 := h11.step (closing rfl) (.caller (.closeSpace rfl) (fun _ h => by cases h) fun _ h => by cases h)
  have h13 := h12.step (closing rfl) (.writer (.exit rfl rfl) (fun h => by cases h) (fun h => by cases h))
  have h14 := h13.step (closing rfl) (.caller (.join rfl rfl) (fun _ h => by cases h) fun _ h => by cases h)
  exact ⟨_, h14, rfl, rfl, (close_loses_nothing_unless_queued _ _ _).1 _ h14 rfl⟩

/-- The log is closed as soon as the block has been handed over: the writer finds `done` set
    before it has looked at the queue. -/
theorem a_queued_block_is_lost :
    ¬ ∀ (d : Device) (junk : Nat → List UInt8) (log : List UInt8) (s : CloseSt),
      CloseReach d junk log (fun _ _ => True) s → s.threads.caller = .joined →
      ∀ b ∈ s.handed, s.device.bytes.read b.blk s.device.block = b.buf := by
  intro hall
  have h0 := @reach_oneQueued (fun _ _ => True) fun _ _ _ _ => trivial
  have h1 := h0.step trivial (.caller (.close rfl) (fun _ h => by cases h) fun _ h => by cases h)
  have h2 := h1.step trivial (.caller (.setDone rfl) (fun _ h => by cases h) fun _ h => by cases h)
  have h3 := h2.step trivial (.caller (.closeItem rfl) (fun _ h => by cases h) fun _ h => by cases h)
  have h4 := h3.step trivial (.caller (.closeSpace rfl) (fun _ h => by cases h) fun _ h => by cases h)
  have h5 := h4.step trivial (.writer (.exit rfl rfl) (fun h => by cases h) (fun h => by cases h))
  have h6 := h5.step trivial (.caller (.join rfl rfl) (fun _ h => by cases h) fun _ h => by cases h)
  exact read_ne_ones 0 (hall _ _ _ _ h6 rfl (onesAt 0) List.mem_cons_self)

end Cs238p.Logfs
