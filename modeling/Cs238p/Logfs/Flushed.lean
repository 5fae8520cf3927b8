/-
  Cs238p.Logfs.Flushed — what the background writer of `project-4/logfs.c` gets onto the
  device.

  The runs are those of `Shutdown`, infinite and fair as in `Progress`: the caller hands over
  the blocks of a log in order, and a device write goes to the number that its slot has by
  then.

  Proved: until the caller fills the slot of a block whose device write is still to come
  (`Overruns`), the device is what the writes of the first blocks handed over, in their
  order, make of it (`Ordered`); and unless that happens or `done` is set, every block handed
  over comes to the device and stays there (`FairClose.queued_is_written`).
-/
import Cs238p.Logfs.Progress
import Cs238p.Logfs.Shutdown

namespace Cs238p.Logfs

open Fairness ByteMemory

/-- Device writes, each at the number of its block. -/
def writeBlocks (d : Device) (bs : List Block) : Except Stop Device := bs.foldlM (fun e b => deviceWrite e b.buf b.blk e.block) d

/-- A run that comes to a failed assertion of `device_write` ends there, and is none of
    these. -/
structure FairClose (d : Device) (junk : Nat → List UInt8) (log : List UInt8) where
  st : Nat → CloseSt
  start : st 0 = closeOpen d junk log
  next : ∀ i, CloseStep (st i) (st (i + 1)) ∨ st (i + 1) = st i
  callerFair : StronglyFair (fun i => ∃ t, GoesOn (st i).threads t) fun i => GoesOn (st i).threads (st (i + 1)).threads
  writerFair : StronglyFair (fun i => ∃ t, WriterStep (st i).threads t) fun i => WriterStep (st i).threads (st (i + 1)).threads

variable {d : Device} {junk : Nat → List UInt8} {log : List UInt8} {s s' : CloseSt} {b : Block}

/-! ## The device -/

theorem writeBlocks_append {e f : Device} {bs : List Block} (h : writeBlocks d bs = .ok e)
    (hw : deviceWrite e b.buf b.blk e.block = .ok f) : writeBlocks d (bs ++ [b]) = .ok f := by
  unfold writeBlocks at h ⊢
  rw [List.foldlM_append, h]
  change (deviceWrite e b.buf b.blk e.block >>= fun f => .ok f) = _
  rw [hw]
  rfl

/-- The first blocks handed over are written, in their order, and nothing else is. -/
structure Ordered (d : Device) (s : CloseSt) : Prop where
  room : s.pending ≠ none → s.threads.wc.activeBlks ≤ 31
  stored : Stored s.device s.handed (flushed s)
  device : writeBlocks d (s.handed.take (flushed s)) = .ok s.device

theorem ordered_open (d : Device) (junk : Nat → List UInt8) (log : List UInt8) : Ordered d (closeOpen d junk log) :=
  ⟨fun h => absurd rfl h, fun k hk _ => absurd hk (Nat.not_lt_zero k), rfl⟩

theorem Ordered.step (h : Ordered d s) (hi : CloseInv d junk log s) (ho : ¬ Overruns s s') (hs : CloseStep s s') :
    Ordered d s' := by
  refine ⟨hi.room_step h.room ho hs, hi.stored_step h.room h.stored hs, ?_⟩
  rcases hi.device_cases h.room hs with ⟨hd, hf, new, hh⟩ | ⟨hlt, hd, hf, hh⟩
  · rw [hd, hf, hh, List.take_append_of_le_length hi.flushed_le]
    exact h.device
  · rw [hf, hh, List.take_succ_eq_append_getElem hlt]
    exact writeBlocks_append h.device hd

/-! ## The ledger of the threads -/

/-- What the ledger notes of a step. -/
theorem CloseStep.noted (hs : CloseStep s s') :
    s'.handed = s.handed ++ putBy s.threads s'.threads ∧ s'.taken = s.taken + (takenBy s.threads s'.threads).length := by
  have kept : ∀ {t : ThreadSt}, t.wc = s.threads.wc →
      s.handed = s.handed ++ putBy s.threads t ∧ s.taken = s.taken + (takenBy s.threads t).length := by
    intro t hwc
    simp [putBy, takenBy, hwc]
  cases hs with
  | call hc _ hlock => exact kept (hc.call_eq hlock).1
  | put hc hput =>
    obtain ⟨hwc, -, -⟩ := hc.put_eq hput
    refine ⟨?_, ?_⟩
    · rw [putBy_enqueue hwc]
    · simp [takenBy, hwc, enqueue]
  | caller hc hl hp => exact kept (hc.frame hl hp).1
  | take hw htake =>
    obtain ⟨-, hwc, -, -⟩ := hw.take_eq htake
    refine ⟨?_, ?_⟩
    · simp [putBy, hwc, dequeue]
    · rw [takenBy_dequeue hwc]
      rfl
  | write hw hwrite _ _ => exact kept (hw.write_eq hwrite).1
  | writer hw ht hwr => exact kept (hw.frame ht hwr).1
  | spurious hsp => exact kept hsp.frame.1

theorem writes_eq_copied (w : WriterPc) : w.writes = w.copied := by cases w <;> rfl

namespace FairClose

variable (r : FairClose d junk log)

theorem inv (i : Nat) : CloseInv d junk log (r.st i) := by
  induction i with
  | zero =>
    rw [r.start]
    exact closeInv_open d junk log
  | succ i ih =>
    rcases r.next i with hs | hs
    · exact ih.step hs
    · rw [hs]
      exact ih

theorem ordered (i : Nat) (hno : ∀ j, j < i → ¬ Overruns (r.st j) (r.st (j + 1))) : Ordered d (r.st i) := by
  induction i with
  | zero =>
    rw [r.start]
    exact ordered_open d junk log
  | succ i ih =>
    have hi := ih fun j hj => hno j (Nat.lt_succ_of_lt hj)
    rcases r.next i with hs | hs
    · exact hi.step (r.inv i) (hno i (Nat.lt_succ_self i)) hs
    · rw [hs]
      exact hi

theorem threads_next (i : Nat) :
    CallerStep (r.st i).threads (r.st (i + 1)).threads ∨ WriterStep (r.st i).threads (r.st (i + 1)).threads ∨
      Quiet (r.st i).threads (r.st (i + 1)).threads := by
  rcases r.next i with hs | hs
  · cases hs.threads with
    | caller hs => exact Or.inl hs
    | writer hs => exact Or.inr (Or.inl hs)
    | spurious hs => exact Or.inr (Or.inr (Or.inr hs))
  · exact Or.inr (Or.inr (Or.inl (by rw [hs])))

def threads : FairRun junk :=
  ⟨fun i => (r.st i).threads, by rw [r.start]; rfl, r.threads_next, r.callerFair, r.writerFair⟩

theorem ledger_eq (i : Nat) : (r.threads.ledger i).put = (r.st i).handed ∧ (r.threads.ledger i).taken.length = (r.st i).taken := by
  induction i with
  | zero =>
    rw [r.start]
    exact ⟨rfl, rfl⟩
  | succ i ih =>
    obtain ⟨hput, htaken⟩ := ih
    have hnext : r.threads.ledger (i + 1) = (r.threads.ledger i).next (r.st i).threads (r.st (i + 1)).threads := rfl
    rw [hnext]
    simp only [Ledger.next, List.length_append, hput, htaken]
    rcases r.next i with hs | hs
    · obtain ⟨hh, ht⟩ := hs.noted
      exact ⟨hh.symm, ht.symm⟩
    · simp [hs, putBy, takenBy]

theorem through_length (i : Nat) : (r.threads.ledger i).through.length = flushed (r.st i) := by
  have hfits := r.threads.ledger_fits i
  have hwrites := (r.inv i).writes
  rw [writes_eq_copied] at hwrites
  have htaken := (r.ledger_eq i).2
  cases hc : (r.st i).threads.writer.copied with
  | true =>
    obtain ⟨b, hb⟩ := hfits.copied hc
    have hp : (r.st i).pending ≠ none := Option.isSome_iff_ne_none.mp (hwrites.trans hc)
    rw [flushed, if_neg hp, ← htaken, hb]
    simp
  | false =>
    have hp : (r.st i).pending = none := Option.not_isSome_iff_eq_none.mp (by rw [hwrites, hc]; decide)
    rw [flushed, if_pos hp, ← htaken, hfits.done hc]

/-- A block that is put is on the device as soon as the writer is through with it. -/
theorem on_device {i k : Nat} (hno : ∀ j, ¬ Overruns (r.st j) (r.st (j + 1))) (hik : i ≤ k)
    (hput : (r.threads.ledger i).put.length ≤ (r.threads.ledger k).through.length) (hb : b ∈ (r.st i).handed) :
    (r.st k).device.bytes.read b.blk d.block = b.buf := by
  obtain ⟨n, hn, rfl⟩ := List.getElem_of_mem hb
  have hprefix := r.threads.put_prefix hik
  rw [(r.ledger_eq i).1, (r.ledger_eq k).1] at hprefix
  rw [(r.ledger_eq i).1, r.through_length k] at hput
  have hstored := (r.ordered k fun j _ => hno j).stored n (Nat.lt_of_lt_of_le hn hprefix.length_le) (Nat.lt_of_lt_of_le hn hput)
  rw [(r.inv k).block_eq, ← hprefix.getElem hn] at hstored
  exact hstored

/-- Until the caller fills the slot of a block whose write is still to come, the device is
    what the writes of the first blocks handed over make of it; and unless that happens or
    `done` is set, every block handed over comes to its place on the device for good. -/
theorem queued_is_written (r : FairClose d junk log) :
    (∀ i, (∀ j, j < i → ¬ Overruns (r.st j) (r.st (j + 1))) →
      writeBlocks d ((r.st i).handed.take (flushed (r.st i))) = .ok (r.st i).device) ∧
    ((∃ i, Overruns (r.st i) (r.st (i + 1))) ∨ (∃ i, (r.st i).threads.done = true) ∨
      ∀ i, ∃ j, i ≤ j ∧ ∀ k, j ≤ k → ∀ b ∈ (r.st i).handed, (r.st k).device.bytes.read b.blk d.block = b.buf) := by
  refine ⟨fun i hno => (r.ordered i hno).device, ?_⟩
  by_cases hover : ∃ i, Overruns (r.st i) (r.st (i + 1))
  · exact Or.inl hover
  by_cases hdone : ∃ i, (r.st i).threads.done = true
  · exact Or.inr (Or.inl hdone)
  refine Or.inr (Or.inr fun i => ?_)
  have hopen : ∀ j, (r.st j).threads.done = false := fun j => by simpa using fun hj => hdone ⟨j, hj⟩
  obtain ⟨j, hij, hj⟩ := r.threads.all_through hopen i
  refine ⟨j, hij, fun k hjk b hb => ?_⟩
  have hle := hj.length_le.trans (r.threads.through_grows hjk).length_le
  exact r.on_device (fun j hj => hover ⟨j, hj⟩) (Nat.le_trans hij hjk) hle hb

end FairClose

/-! ## There are fair runs -/

variable {ok : CloseSt → CloseSt → Prop}

theorem CloseReach.steps (h : CloseReach d junk log ok s) :
    Relation.ReflTransGen (fun s s' => CloseStep s s' ∧ ok s s') (closeOpen d junk log) s := by
  induction h with
  | start => exact .refl
  | step _ hok hs ih => exact ih.tail ⟨hs, hok⟩

/-- A run to a state of rest is a fair run. -/
theorem exists_fairClose (h : CloseReach d junk log ok s) (hrest : AtRest s.threads) :
    ∃ r : FairClose d junk log, IsRun (fun s s' => CloseStep s s' ∧ ok s s') r.st ∧ ∃ n, ∀ i, r.st (n + i) = s := by
  have hconst : IsRun (fun s s' => CloseStep s s' ∧ ok s s') fun _ => s := isRun_const s
  obtain ⟨run, n, hrun, h0, hn⟩ := hconst.after h.steps
  have hrests : ∀ j, n ≤ j → run j = s := by
    intro j hj
    obtain ⟨i, rfl⟩ := Nat.exists_eq_add_of_le hj
    exact hn i
  refine ⟨⟨run, h0, fun i => (hrun i).imp_left And.left, .of_rest (n := n) ?_, .of_rest (n := n) ?_⟩, hrun, n, hn⟩
  · intro j hj h
    rw [hrests j hj] at h
    obtain ⟨t, ht⟩ := h
    exact hrest.1 t ht
  · intro j hj h
    rw [hrests j hj] at h
    obtain ⟨t, ht⟩ := h
    exact hrest.2 t ht

/-- `done` is set by `logfs_close` only. -/
theorem FairClose.stays_open (r : FairClose d junk log)
    (hno : ∀ i, (r.st i).threads.caller = .setDone → r.st (i + 1) = r.st i) (i : Nat) : (r.st i).threads.done = false := by
  induction i with
  | zero =>
    rw [r.start]
    rfl
  | succ i ih =>
    rcases r.threads_next i with hs | hs | hs | hs
    · by_cases hc : (r.st i).threads.caller = .setDone
      · rw [hno i hc]
        exact ih
      · refine Bool.eq_false_iff.mpr fun hd => ?_
        rcases hs.done_eq hd with hd | ⟨hc', -⟩
        · exact absurd (ih.symm.trans hd) (by decide)
        · exact hc hc'
    · rw [hs.done_eq]
      exact ih
    · rw [hs]
      exact ih
    · rw [hs.done_eq.1]
      exact ih

/-- A block is put and written; then the writer sleeps. -/
theorem queued_is_written_one : ∃ r : FairClose device512 (fun _ => []) ones, ∃ i j, i ≤ j ∧ (r.st i).handed = [onesAt 0] ∧
    writeBlocks device512 [onesAt 0] = .ok (r.st i).device ∧
    ∀ k, j ≤ k → ∀ b ∈ [onesAt 0], (r.st k).device.bytes.read b.blk 512 = b.buf := by
  let ok : CloseSt → CloseSt → Prop := fun s s' => ¬ Overruns s s' ∧ s.threads.caller ≠ .setDone
  have idle : ∀ s s' : CloseSt, s.threads.caller = .idle → ok s s' := by
    intro s s' hc
    refine ⟨fun ho => ?_, by rw [hc]; simp⟩
    obtain ⟨⟨b, hb⟩, -⟩ := ho
    rw [hc] at hb
    cases hb
  have h0 := reach_oneWritten (@reach_oneQueued ok fun s s' hp hc => ⟨fun h => h.2.2.1 hp, hc⟩) idle
  have h1 := h0.step (idle _ _ rfl) (.writer (.again rfl rfl) (fun h => by cases h) (fun h => by cases h))
  have h2 := h1.step (idle _ _ rfl) (.writer (.lock rfl rfl) (fun h => by cases h) (fun h => by cases h))
  have h3 := h2.step (idle _ _ rfl) (.writer (.empty rfl ⟨rfl, Nat.le_refl 0⟩) (fun h => by cases h) (fun h => by cases h))
  have h4 := h3.step (idle _ _ rfl) (.writer (.block rfl) (fun h => by cases h) (fun h => by cases h))
  obtain ⟨r, hrun, n, hn⟩ := exists_fairClose h4 (atRest (Or.inl rfl) (Or.inl rfl))
  have hover : ∀ i, ¬ Overruns (r.st i) (r.st (i + 1)) := by
    intro i ho
    rcases hrun i with hs | hs
    · exact hs.2.1 ho
    · obtain ⟨⟨b, hb⟩, hc, -⟩ := ho
      rw [hs, hb] at hc
      cases hc
  have hopen := r.stays_open fun i hc => (hrun i).resolve_left fun hs => hs.2.2 hc
  obtain ⟨hall, hend⟩ := r.queued_is_written
  have hend := (hend.resolve_left fun hex => hover _ hex.choose_spec).resolve_left fun hex => by
    obtain ⟨i, hi⟩ := hex
    rw [hopen i] at hi
    cases hi
  obtain ⟨j, hj, hread⟩ := hend (n + 0)
  have hdev := hall (n + 0) fun j _ => hover j
  rw [hn 0] at hdev hread
  refine ⟨r, n + 0, j, hj, by rw [hn 0]; rfl, by rw [hn 0]; exact hdev, hread⟩

end Cs238p.Logfs
