/-
  Cs238p.Kvdb.FullDevice — a device that fills up under `logfs_append` and `kvraw_append`.

  Neither of them compares anything with the size of the device, and both return 0 for
  blocks that have no place on it; the background writer's `device_write` then fails its
  assertion (`a_full_device_stops_the_writer`).

  Proved: of a run of appends, records and drains, emptied at the end, every device write is
  inside the device and every append that does not fit is refused iff the whole blocks of
  all bytes fit (`full_device_iff`).
-/
import Cs238p.Kvdb.Raw
import Cs238p.Logfs.FullDevice

namespace Cs238p.Kvdb

open Cs238p.Logfs

/-- Calls on the log, and steps of the background writer. -/
inductive LogCall where
  | append (buf : List UInt8)
  | record (key val : List UInt8) (prev : Nat)
  | drain (n : Nat)

/-- What the call adds to the log. -/
def LogCall.bytes : LogCall → List UInt8
  | .append buf => buf
  | .record key val prev => (Meta.mk [75, 86] prev key.length val.length).bytes ++ (key ++ val)
  | .drain _ => []

/-- The assertions of `kvraw_append`. -/
def LogCall.Valid : LogCall → Prop
  | .record key val _ => key.length ≠ 0 ∧ key.length ≤ 0xffff ∧ val.length ≤ 0xffffffff
  | _ => True

/-- One call; `false` is a return value that is not 0. -/
def makeCall (k : Kvraw) : LogCall → Except Stop (Bool × Kvraw)
  | .append buf => appendLog k buf
  | .record key val prev =>
    match kvrawAppend k key val prev with
    | .error e => .error e
    | .ok (r, k) => .ok (r.isSome, k)
  | .drain n =>
    match drainN n k.logfs with
    | .error e => .error e
    | .ok logfs => .ok (true, { k with logfs })

def makeCalls (k : Kvraw) : List LogCall → Except Stop (List Bool × Kvraw)
  | [] => .ok ([], k)
  | op :: ops =>
    match makeCall k op with
    | .error e => .error e
    | .ok (a, k) =>
      match makeCalls k ops with
      | .error e => .error e
      | .ok (as, k) => .ok (a :: as, k)

/-- The whole blocks of `n` bytes fit the device. -/
def FitsDevice (d : Device) (n : Nat) : Prop := d.block * (n / d.block) ≤ d.size

/-- What does not fit after the `n` bytes stored so far is refused. -/
def Reported (d : Device) : Nat → List LogCall → List Bool → Prop
  | n, op :: ops, a :: as =>
    (¬ FitsDevice d (n + op.bytes.length) → a = false) ∧ Reported d (if a then n + op.bytes.length else n) ops as
  | _, _, _ => True

def totalBytes (ops : List LogCall) : Nat := (ops.map fun op => op.bytes.length).sum

variable {k k' : Kvraw} {log buf : List UInt8} {n : Nat} {a : Bool} {op : LogCall} {d : Device}

theorem FitsDevice.mono {m : Nat} (h : FitsDevice d n) (hmn : m ≤ n) : FitsDevice d m :=
  (Nat.mul_le_mul_left _ (Nat.div_le_div_right hmn)).trans h

/-- A record is its header, its key and its value. -/
theorem kvrawAppend_eq {key val : List UInt8} {prev : Nat} (hv : (LogCall.record key val prev).Valid) :
    makeCall k (.record key val prev) =
      match appendLog k (Meta.mk [75, 86] prev key.length val.length).bytes with
      | .error e => .error e
      | .ok (false, k) => .ok (false, k)
      | .ok (true, k) =>
        match appendLog k key with
        | .error e => .error e
        | .ok (false, k) => .ok (false, k)
        | .ok (true, k) =>
          match appendLog k val with
          | .error e => .error e
          | .ok (false, k) => .ok (false, k)
          | .ok (true, k) => .ok (true, { k with size := k.size + (16 + key.length + val.length) }) := by
  obtain ⟨h0, hk, hval⟩ := hv
  simp only [makeCall, kvrawAppend]
  rw [if_neg (by omega)]
  rcases appendLog k _ with e | ⟨_ | _, k₁⟩
  · rfl
  · rfl
  rcases h2 : appendLog k₁ key with e | ⟨_ | _, k₂⟩
  · simp only [h2]
  · simp only [h2]; rfl
  rcases h3 : appendLog k₂ val with e | ⟨_ | _, k₃⟩
  · simp only [h2, h3]
  · simp only [h2, h3]; rfl
  · simp only [h2, h3]; rfl

/-! ## What fits is stored -/

/-- The log on the device `d`, whose appends do not fail, stands for `log`. -/
structure Holding (d : Device) (k : Kvraw) (log : List UInt8) : Prop where
  log : Idle k.logfs log
  size : k.logfs.device.size = d.size
  block : k.logfs.blkSz = d.block
  appendFails : k.appendFails = []

theorem Holding.append (h : Holding d k log) (buf : List UInt8) (hf : FitsDevice d (log.length + buf.length)) :
    ∃ k', appendLog k buf = .ok (true, k') ∧ Holding d k' (log ++ buf) := by
  obtain ⟨t, ht, hi, hs, hb⟩ := @logfsAppend_ok _ _ buf h.log (by rw [h.block, h.size]; exact hf)
  refine ⟨⟨k.size, t, []⟩, ?_, ⟨hi, hs.trans h.size, hb.trans h.block, rfl⟩⟩
  simp [appendLog, h.appendFails, ht]

theorem Holding.step (h : Holding d k log) (op : LogCall) (hv : op.Valid) (hf : FitsDevice d (log.length + op.bytes.length)) :
    ∃ k', makeCall k op = .ok (true, k') ∧ Holding d k' (log ++ op.bytes) := by
  cases op with
  | append buf => exact h.append buf hf
  | record key val prev =>
    simp only [LogCall.bytes, List.length_append] at hf
    obtain ⟨k₁, h₁, hh₁⟩ := h.append (Meta.mk [75, 86] prev key.length val.length).bytes (hf.mono (by omega))
    obtain ⟨k₂, h₂, hh₂⟩ := hh₁.append key (hf.mono (by simp only [List.length_append]; omega))
    obtain ⟨k₃, h₃, hh₃⟩ := hh₂.append val (hf.mono (by simp only [List.length_append]; omega))
    refine ⟨{ k₃ with size := k₃.size + (16 + key.length + val.length) }, ?_, ?_⟩
    · rw [kvrawAppend_eq hv]
      simp only [h₁, h₂, h₃]
    · rw [LogCall.bytes, ← List.append_assoc, ← List.append_assoc]
      exact ⟨hh₃.log, hh₃.size, hh₃.block, hh₃.appendFails⟩
  | drain n =>
    obtain ⟨t, ht, hd⟩ := drainN_ok n h.log.core.blkSz h.log.core.queue
    have hi := h.log.drained hd
    have hb := hd.blkSz
    rw [← hb] at hi
    obtain ⟨wc, dev, sched, rfl, -, hs, -⟩ := hd
    refine ⟨_, by simp only [makeCall, ht]; rfl, ?_⟩
    rw [LogCall.bytes, List.append_nil]
    exact ⟨hi, hs.trans h.size, h.block, h.appendFails⟩

theorem Holding.run : ∀ (ops : List LogCall) {k : Kvraw} {log : List UInt8}, Holding d k log → (∀ op ∈ ops, op.Valid) →
    FitsDevice d (log.length + totalBytes ops) →
    ∃ as k', makeCalls k (ops ++ [.drain 32]) = .ok (as, k') ∧ Reported d log.length ops as := by
  intro ops
  induction ops with
  | nil =>
    intro k log h _ hf
    obtain ⟨k', hk, -⟩ := h.step (.drain 32) trivial hf
    exact ⟨[true], k', by simp only [List.nil_append, makeCalls, hk], trivial⟩
  | cons op ops ih =>
    intro k log h hv hf
    simp only [totalBytes, List.map_cons, List.sum_cons] at hf
    have hop : FitsDevice d (log.length + op.bytes.length) := hf.mono (by omega)
    obtain ⟨k₁, h₁, hh⟩ := h.step op (hv op List.mem_cons_self) hop
    obtain ⟨as, k₂, h₂, hr⟩ := ih hh (fun o ho => hv o (List.mem_cons_of_mem _ ho))
      (by rw [List.length_append, Nat.add_assoc]; exact hf)
    rw [List.length_append] at hr
    exact ⟨true :: as, k₂, by simp only [List.cons_append, makeCalls, h₁, h₂], fun hn => absurd hop hn, hr⟩

/-! ## What was stored fits -/

theorem appendLog_handing (h : Handing k.logfs n) (ha : k.appendFails = []) (hk : appendLog k buf = .ok (a, k')) :
    a = true ∧ Handing k'.logfs (n + buf.length) ∧ k'.appendFails = [] ∧
      k'.logfs.device.size = k.logfs.device.size ∧ k'.logfs.blkSz = k.logfs.blkSz := by
  unfold appendLog at hk
  rw [ha] at hk
  simp only [List.headD_nil, Bool.false_eq_true, if_false] at hk
  split at hk
  · cases hk
  · rename_i t ht
    cases hk
    obtain ⟨hh, hs, hb⟩ := h.append ht
    exact ⟨rfl, hh, rfl, hs, hb⟩

/-- A call that returns has returned 0, whether its blocks have a place on the device or
    not. -/
theorem makeCall_handing (h : Handing k.logfs n) (ha : k.appendFails = []) (hv : op.Valid)
    (hk : makeCall k op = .ok (a, k')) :
    a = true ∧ Handing k'.logfs (n + op.bytes.length) ∧ k'.appendFails = [] ∧
      k'.logfs.device.size = k.logfs.device.size ∧ k'.logfs.blkSz = k.logfs.blkSz := by
  cases op with
  | append buf => exact appendLog_handing h ha hk
  | record key val prev =>
    rw [kvrawAppend_eq hv] at hk
    rcases h₁ : appendLog k (Meta.mk [75, 86] prev key.length val.length).bytes with e | ⟨a₁, k₁⟩
    · rw [h₁] at hk; cases hk
    obtain ⟨rfl, hh₁, hf₁, hs₁, hb₁⟩ := appendLog_handing h ha h₁
    simp only [h₁] at hk
    rcases h₂ : appendLog k₁ key with e | ⟨a₂, k₂⟩
    · rw [h₂] at hk; cases hk
    obtain ⟨rfl, hh₂, hf₂, hs₂, hb₂⟩ := appendLog_handing hh₁ hf₁ h₂
    simp only [h₂] at hk
    rcases h₃ : appendLog k₂ val with e | ⟨a₃, k₃⟩
    · rw [h₃] at hk; cases hk
    obtain ⟨rfl, hh₃, hf₃, hs₃, hb₃⟩ := appendLog_handing hh₂ hf₂ h₃
    simp only [h₃] at hk
    cases hk
    refine ⟨rfl, ?_, hf₃, hs₃.trans (hs₂.trans hs₁), hb₃.trans (hb₂.trans hb₁)⟩
    simp only [LogCall.bytes, List.length_append]
    rw [← Nat.add_assoc n, ← Nat.add_assoc (n + _)]
    exact hh₃
  | drain m =>
    simp only [makeCall] at hk
    split at hk
    · cases hk
    · rename_i t ht
      cases hk
      obtain ⟨hr, ⟨wc, dev, sched, rfl, hs, hb⟩, -⟩ := h.ring.drainN m ht
      exact ⟨rfl, ⟨h.blkSz.trans hb.symm, h.off, h.available, hr⟩, ha, hs, rfl⟩

theorem makeCalls_handing : ∀ (ops : List LogCall) {k k' : Kvraw} {n : Nat} {as : List Bool}, Handing k.logfs n →
    k.appendFails = [] → (∀ op ∈ ops, op.Valid) → makeCalls k (ops ++ [.drain 32]) = .ok (as, k') →
    k.logfs.blkSz * ((n + totalBytes ops) / k.logfs.blkSz) ≤ k.logfs.device.size := by
  intro ops
  induction ops with
  | nil =>
    intro k k' n as h _ _ hk
    simp only [List.nil_append, makeCalls, makeCall] at hk
    cases hd : drainN 32 k.logfs with
    | error e => rw [hd] at hk; cases hk
    | ok t => exact h.fits hd
  | cons op ops ih =>
    intro k k' n as h ha hv hk
    simp only [List.cons_append, makeCalls] at hk
    rcases h₁ : makeCall k op with e | ⟨a, k₁⟩
    · rw [h₁] at hk; cases hk
    obtain ⟨-, hh, hf, hs, hb⟩ := makeCall_handing h ha (hv op List.mem_cons_self) h₁
    simp only [h₁] at hk
    rcases h₂ : makeCalls k₁ (ops ++ [.drain 32]) with e | ⟨as', k₂⟩
    · rw [h₂] at hk; cases hk
    have hfit := ih hh hf (fun o ho => hv o (List.mem_cons_of_mem _ ho)) h₂
    rw [hs, hb, Nat.add_assoc] at hfit
    exact hfit

/-- A log that has just been opened, under records. -/
def logOpen (d : Device) (junk : Nat → List UInt8) (sched : List Nat) : Kvraw := ⟨0, logfsOpen d junk sched [], []⟩

/-- Of any appends and records, on any device and under any schedule of the writer: every
    device write is inside the device, and what does not fit is refused, iff all whole
    blocks fit. -/
theorem full_device_iff (d : Device) (junk : Nat → List UInt8) (sched : List Nat) (ops : List LogCall)
    (hv : ∀ op ∈ ops, op.Valid) :
    (∃ as k, makeCalls (logOpen d junk sched) (ops ++ [.drain 32]) = .ok (as, k) ∧ Reported d 0 ops as) ↔
      FitsDevice d (totalBytes ops) := by
  constructor
  · rintro ⟨as, k, hk, -⟩
    have hfit := makeCalls_handing ops (handing_open d junk sched []) rfl hv hk
    rw [Nat.zero_add] at hfit
    exact hfit
  · intro hf
    have hopen : Holding d (logOpen d junk sched) [] := ⟨idle_open d junk sched, rfl, rfl, rfl⟩
    exact hopen.run ops hv (by rw [List.length_nil, Nat.zero_add]; exact hf)

/-- Three blocks of four bytes. -/
def device12 : Device := ⟨12, 4, ⟨fun _ => 0⟩, by decide, by decide, by decide⟩

/-- All three blocks are filled, and three more bytes wait for their block's last. -/
theorem full_device_iff_filled :
    ∃ as k, makeCalls (logOpen device12 (fun _ => []) [1, 0]) [.append (List.replicate 15 1), .drain 32] = .ok (as, k) ∧
      Reported device12 0 [.append (List.replicate 15 1)] as := by
  refine (full_device_iff device12 (fun _ => []) [1, 0] [.append (List.replicate 15 1)] ?_).mpr ?_
  · simp [LogCall.Valid]
  · simp [FitsDevice, totalBytes, LogCall.bytes, device12]

/-- A fourth block is accepted, and the writer stops at it. -/
theorem a_full_device_stops_the_writer :
    ¬ ∀ (d : Device) (junk : Nat → List UInt8) (sched : List Nat) (ops : List LogCall), (∀ op ∈ ops, op.Valid) →
      ∃ as k, makeCalls (logOpen d junk sched) (ops ++ [.drain 32]) = .ok (as, k) ∧ Reported d 0 ops as := by
  intro hall
  obtain ⟨as, k, hk, -⟩ := hall device12 (fun _ => []) [] [.append (List.replicate 16 1)] (by simp [LogCall.Valid])
  have hfit := makeCalls_handing [.append (List.replicate 16 1)] (handing_open device12 (fun _ => []) [] []) rfl
    (by simp [LogCall.Valid]) hk
  simp [totalBytes, LogCall.bytes, logfsOpen, logOpen, device12] at hfit

end Cs238p.Kvdb
