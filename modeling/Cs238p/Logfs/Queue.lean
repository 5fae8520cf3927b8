/-
  Cs238p.Logfs.Queue — the write queue as its two users see it.

  Steps: the critical section of `write_to_queue`, when fewer than 32 blocks are active,
  and the critical section of `write_to_device`, when one is; the waits are these guards.
  `enqueued` are the pairs put so far, `dequeued` those the tail slot held when they were
  taken.

  Proved: the queue is an exact bounded FIFO (`queue_is_fifo`): what was enqueued is what
  was dequeued and then the active slots, from `tail` on.
-/
import Cs238p.Logfs.Wcache

namespace Cs238p.Logfs

structure QueueSt where
  wc : Wcache
  enqueued : List Block
  dequeued : List Block

/-- The critical section of `write_to_device` with its assertion. -/
def takeBlock (w : Wcache) : Except Stop (Block × Wcache) :=
  if w.activeBlks = 0 then .error .assert else .ok (w.slots w.tail, (dequeue w).2)

inductive QueueStep : QueueSt → QueueSt → Prop
  | enqueue (s : QueueSt) (b : Block) : ¬ s.wc.activeBlks ≥ 32 →
      QueueStep s { s with wc := enqueue s.wc b, enqueued := s.enqueued ++ [b] }
  | dequeue (s : QueueSt) (b : Block) (wc : Wcache) : ¬ s.wc.activeBlks ≤ 0 → takeBlock s.wc = .ok (b, wc) →
      QueueStep s { s with wc, dequeued := s.dequeued ++ [b] }

inductive QueueReach (junk : Nat → List UInt8) : QueueSt → Prop
  | start : QueueReach junk ⟨wcacheOpen junk, [], []⟩
  | step {s s' : QueueSt} : QueueReach junk s → QueueStep s s' → QueueReach junk s'

/-- The active slots in ring order. -/
def active (w : Wcache) : List Block := (List.range w.activeBlks).map fun i => w.slots ((w.tail + i) % 32)

structure QueueInv (junk : Nat → List UInt8) (s : QueueSt) : Prop where
  fifo : Fifo (fun i => ⟨3, junk i⟩) s.wc s.enqueued s.dequeued.length
  taken : s.dequeued = s.enqueued.take s.dequeued.length

variable {junk : Nat → List UInt8} {s s' : QueueSt}

theorem takeBlock_ok {w : Wcache} (h : w.activeBlks ≠ 0) : takeBlock w = .ok (w.slots w.tail, (dequeue w).2) := if_neg h

theorem QueueInv.step (h : QueueInv junk s) (hs : QueueStep s s') : QueueInv junk s' := by
  have hact := h.fifo.active
  cases hs with
  | enqueue b hroom =>
    refine ⟨h.fifo.enqueue (by omega) b, ?_⟩
    show s.dequeued = (s.enqueued ++ [b]).take s.dequeued.length
    rw [List.take_append_of_le_length (by omega)]
    exact h.taken
  | dequeue b wc hsome htake =>
    have h0 : s.wc.activeBlks ≠ 0 := by omega
    rw [takeBlock_ok h0] at htake
    cases htake
    have ht : s.dequeued.length < s.enqueued.length := by omega
    have hfifo := h.fifo.dequeue h0
    refine ⟨by rw [List.length_append]; exact hfifo, ?_⟩
    show s.dequeued ++ [s.wc.slots s.wc.tail] = s.enqueued.take (s.dequeued ++ [s.wc.slots s.wc.tail]).length
    rw [h.fifo.slot_tail ht, List.length_append, List.length_singleton, List.take_add_one,
      List.getElem?_eq_getElem ht, Option.toList_some, ← h.taken]

theorem queueInv (h : QueueReach junk s) : QueueInv junk s := by
  induction h with
  | start => exact ⟨fifo_open junk, rfl⟩
  | step _ hs ih => exact ih.step hs

/-- The active slots are the blocks that were enqueued and not yet dequeued. -/
theorem Fifo.active_eq {init : Nat → Block} {w : Wcache} {handed : List Block} {taken : Nat}
    (h : Fifo init w handed taken) : Logfs.active w = handed.drop taken := by
  have hact := h.active
  have hle := h.le
  refine List.ext_getElem ?_ ?_
  · simp only [Logfs.active, List.length_map, List.length_range, List.length_drop]; omega
  · intro i hi _
    simp only [Logfs.active, List.length_map, List.length_range] at hi
    have hslot := h.slots.recent (taken + i) (by omega) (by omega)
    simp only [Logfs.active, List.getElem_map, List.getElem_range, List.getElem_drop, h.tail, Nat.mod_add_mod]
    exact hslot

/-- In every interleaving: 0 to 32 blocks are active, `head` follows `tail` by them, no
    counter wraps, the assertion of `write_to_device` holds whenever its wait is over, and
    the blocks dequeued are a prefix of those enqueued, the active slots the rest. -/
theorem queue_is_fifo (h : QueueReach junk s) :
    s.wc.activeBlks ≤ 32 ∧ s.wc.head = (s.wc.tail + s.wc.activeBlks) % 32 ∧ s.wc.tail < 32 ∧
    (∀ b, ¬ s.wc.activeBlks ≥ 32 → (enqueue s.wc b).activeBlks = s.wc.activeBlks + 1) ∧
    (¬ s.wc.activeBlks ≤ 0 → ∃ b wc, takeBlock s.wc = .ok (b, wc) ∧ wc.activeBlks + 1 = s.wc.activeBlks) ∧
    s.enqueued = s.dequeued ++ active s.wc := by
  have hi := queueInv h
  have hact := hi.fifo.active
  have hle := hi.fifo.le
  have hhead := hi.fifo.head
  have htail := hi.fifo.tail
  refine ⟨hle, by omega, by omega, ?_, ?_, ?_⟩
  · intro b hroom
    simp only [enqueue]; omega
  · intro hsome
    refine ⟨_, _, takeBlock_ok (by omega), ?_⟩
    simp only [dequeue]; omega
  · have htaken := hi.taken
    rw [hi.fifo.active_eq]
    nth_rewrite 1 [← List.take_append_drop s.dequeued.length s.enqueued]
    rw [← htaken]

/-- Two blocks enqueued, one dequeued. -/
theorem queue_is_fifo_two_blocks :
    ∃ s, QueueReach (fun _ => []) s ∧ s.dequeued = [⟨0, [1]⟩] ∧ [⟨0, [1]⟩, ⟨512, [2]⟩] = s.dequeued ++ active s.wc := by
  have h1 := QueueReach.start.step (.enqueue ⟨wcacheOpen fun _ => [], [], []⟩ ⟨0, [1]⟩ (show ¬ 0 ≥ 32 by decide))
  have h2 := h1.step (.enqueue _ ⟨512, [2]⟩ (show ¬ 1 ≥ 32 by decide))
  have h3 := h2.step (.dequeue _ _ _ (show ¬ 2 ≤ 0 by decide) (takeBlock_ok (show 2 ≠ 0 by decide)))
  exact ⟨_, h3, rfl, (queue_is_fifo h3).2.2.2.2.2⟩

end Cs238p.Logfs
