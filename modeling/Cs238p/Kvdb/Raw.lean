/-
  Cs238p.Kvdb.Raw — records over the log (`project-4/kvraw.c`). A record is 16 bytes of
  `struct meta` (packed: 'K', 'V', the offset of the previous record of the same hash, the
  two lengths, little endian), then the key, then the value.

  `logfs_append` never fails; `appendFails` lets it, as `kvraw_append` provides for.
  Pointers: the key buffer is never `NULL`, the value buffer is when `valNull` says so.

  Proved: over a log that reads back what was appended (`ReadsBack`) a record written is
  read back by `kvraw_lookup` at the offset its append answered (`Written.lookup`,
  `Written.append`); logfs on a device is such a log (`readsBack_onDevice`).
-/
import Cs238p.Logfs.LogProofs

namespace Cs238p.Kvdb

open ByteMemory
open Cs238p.Logfs (Stop Device LogfsSt logfsOpen logfsAppend logfsRead Idle logfsAppend_ok logfsRead_ok idle_open)

structure Kvraw where
  size : Nat
  logfs : LogfsSt
  /-- Which of the next appends to the log fail. -/
  appendFails : List Bool

structure Meta where
  mark : List UInt8
  off : Nat
  keyLen : Nat
  valLen : Nat
  deriving DecidableEq, Repr

/-- The packed `struct meta` in 16 bytes. -/
def Meta.ofBytes (bs : List UInt8) : Meta :=
  { mark := bs.take 2
    off := decode ((bs.drop 2).take 8)
    keyLen := decode ((bs.drop 10).take 2)
    valLen := decode ((bs.drop 12).take 4) }

def Meta.bytes (m : Meta) : List UInt8 := m.mark ++ (encode 8 m.off ++ (encode 2 m.keyLen ++ encode 4 m.valLen))

/-- `logfs_read` on the store's log. -/
def readLog (k : Kvraw) (off len : Nat) : Except Stop (Option (List UInt8) × Kvraw) :=
  match logfsRead k.logfs off len with
  | .error e => .error e
  | .ok (r, logfs) => .ok (r, { k with logfs })

/-- `logfs_append` on the store's log; `false` is a failure. -/
def appendLog (k : Kvraw) (buf : List UInt8) : Except Stop (Bool × Kvraw) :=
  if k.appendFails.headD false then .ok (false, { k with appendFails := k.appendFails.tail })
  else
    match logfsAppend k.logfs buf with
    | .error e => .error e
    | .ok logfs => .ok (true, { k with logfs, appendFails := k.appendFails.tail })

/-- `read_meta`; `none` is its return value -1. -/
def readMeta (k : Kvraw) (off : Nat) : Except Stop (Option Meta × Kvraw) :=
  -- the sum wraps for the last 16 offsets of `uint64_t`, which `pread` refuses: -1 as well
  if off + 16 > k.size then .ok (none, k)
  else
    match readLog k off 16 with
    | .error e => .error e
    | .ok (none, k) => .ok (none, k)
    | .ok (some bs, k) =>
      let m := Meta.ofBytes bs
      if m.mark ≠ [75, 86] ∨ off + 16 + m.keyLen + m.valLen > k.size then .ok (none, k) else .ok (some m, k)

/-- What `kvraw_lookup` stores: the bytes put into the two buffers, `*key_len`, `*val_len`
    and `*off`. -/
structure Found where
  key : List UInt8
  keyLen : Nat
  val : List UInt8
  valLen : Nat
  off : Nat
  deriving DecidableEq, Repr

/-- `kvraw_lookup`; `none` is its return value -1. -/
def kvrawLookup (k : Kvraw) (keyLen : Nat) (valNull : Bool) (valLen off : Nat) : Except Stop (Option Found × Kvraw) :=
  if (valLen ≠ 0 ∧ valNull = true) ∨ off = 0 then .error .assert
  else
    match readMeta k off with
    | .error e => .error e
    | .ok (none, k) => .ok (none, k)
    | .ok (some m, k) =>
      match readLog k (off + 16) (min m.keyLen keyLen) with
      | .error e => .error e
      | .ok (none, k) => .ok (none, k)
      | .ok (some key, k) =>
        match readLog k (off + 16 + m.keyLen) (min m.valLen valLen) with
        | .error e => .error e
        | .ok (none, k) => .ok (none, k)
        | .ok (some val, k) => .ok (some ⟨key, m.keyLen, val, m.valLen, m.off⟩, k)

/-- `kvraw_append`, with `prev` in `*off`; it answers the new `*off`, `none` for -1. -/
def kvrawAppend (k : Kvraw) (key val : List UInt8) (prev : Nat) : Except Stop (Option Nat × Kvraw) :=
  if key.length = 0 ∨ 0xffff < key.length ∨ 0xffffffff < val.length then .error .assert
  else
    let m : Meta := ⟨[75, 86], prev, key.length, val.length⟩
    match appendLog k m.bytes with
    | .error e => .error e
    | .ok (false, k) => .ok (none, k)
    | .ok (true, k) =>
      match appendLog k key with
      | .error e => .error e
      | .ok (false, k) => .ok (none, k)
      | .ok (true, k) =>
        match appendLog k val with
        | .error e => .error e
        | .ok (false, k) => .ok (none, k)
        | .ok (true, k) => .ok (some k.size, { k with size := k.size + (16 + key.length + val.length) })

/-- `kvraw_open` with a log whose calls do not fail: the record of an empty string at
    offset 0 keeps 0 free as the end of every chain. -/
def kvrawOpen (device : Device) (junk : Nat → List UInt8) (sched : List Nat) (faults appendFails : List Bool) :
    Except Stop (Option Kvraw) :=
  match kvrawAppend ⟨0, logfsOpen device junk sched faults, appendFails⟩ [0] [0] 0 with
  | .error e => .error e
  | .ok (none, _) => .ok none
  | .ok (some _, k) => .ok (some k)

/-! ## Records -/

/-- A record that `kvraw_append` admits. -/
structure Rec where
  prev : Nat
  key : List UInt8
  val : List UInt8
  prev_lt : prev < 2 ^ 64
  key_pos : 0 < key.length
  key_le : key.length ≤ 0xffff
  val_le : val.length ≤ 0xffffffff

/-- The record that `kvraw_open` writes. -/
def opening : Rec := ⟨0, [0], [0], by decide, by decide, by decide, by decide⟩

def Rec.meta (r : Rec) : Meta := ⟨[75, 86], r.prev, r.key.length, r.val.length⟩

def Rec.bytes (r : Rec) : List UInt8 := r.meta.bytes ++ (r.key ++ r.val)

/-- The log after these records. -/
def image (recs : List Rec) : List UInt8 := recs.flatMap Rec.bytes

/-- The record at an offset of the log. -/
def At (recs : List Rec) (off : Nat) (r : Rec) : Prop := ∃ l₁ l₂, recs = l₁ ++ r :: l₂ ∧ off = (image l₁).length

variable {r r' : Rec} {recs : List Rec} {off : Nat}

@[simp] theorem Rec.length_meta (r : Rec) : r.meta.bytes.length = 16 := by
  simp [Rec.meta, Meta.bytes]

@[simp] theorem Rec.length_bytes (r : Rec) : r.bytes.length = 16 + r.key.length + r.val.length := by
  simp only [Rec.bytes, List.length_append, Rec.length_meta]; omega

@[simp] theorem image_append (l₁ l₂ : List Rec) : image (l₁ ++ l₂) = image l₁ ++ image l₂ := List.flatMap_append

@[simp] theorem image_cons (r : Rec) (l : List Rec) : image (r :: l) = r.bytes ++ image l := List.flatMap_cons

/-- Packing and unpacking the header. -/
theorem Rec.ofBytes_meta (r : Rec) : Meta.ofBytes r.meta.bytes = r.meta := by
  have h1 := decode_encode (n := 8) (v := r.prev) r.prev_lt
  have h2 := decode_encode (n := 2) (v := r.key.length) (by have := r.key_le; omega)
  have h3 := decode_encode (n := 4) (v := r.val.length) (by have := r.val_le; omega)
  have d2 : r.meta.bytes.drop 2 = encode 8 r.prev ++ (encode 2 r.key.length ++ encode 4 r.val.length) := rfl
  have d10 : r.meta.bytes.drop 10 = encode 2 r.key.length ++ encode 4 r.val.length := by
    rw [show (10 : Nat) = 2 + 8 from rfl, ← List.drop_drop, d2]
    exact List.drop_left' (length_encode _ _)
  have d12 : r.meta.bytes.drop 12 = encode 4 r.val.length := by
    rw [show (12 : Nat) = 10 + 2 from rfl, ← List.drop_drop, d10]
    exact List.drop_left' (length_encode _ _)
  unfold Meta.ofBytes
  rw [d2, d10, d12, List.take_left' (length_encode _ _), List.take_left' (length_encode _ _),
    List.take_of_length_le (length_encode _ _).le, h1, h2, h3]
  rfl

theorem At.append (h : At recs off r) (l : List Rec) : At (recs ++ l) off r := by
  obtain ⟨l₁, l₂, rfl, rfl⟩ := h
  exact ⟨l₁, l₂ ++ l, by simp, rfl⟩

theorem at_last (recs : List Rec) (r : Rec) : At (recs ++ [r]) (image recs).length r := ⟨recs, [], rfl, rfl⟩

/-- A record lies inside the log. -/
theorem At.le (h : At recs off r) : off + 16 + r.key.length + r.val.length ≤ (image recs).length := by
  obtain ⟨l₁, l₂, rfl, rfl⟩ := h
  simp only [image_append, image_cons, List.length_append, Rec.length_bytes]
  omega

/-- The log from a record on. -/
theorem At.drop (h : At recs off r) : ∃ rest, (image recs).drop off = r.meta.bytes ++ (r.key ++ (r.val ++ rest)) := by
  obtain ⟨l₁, l₂, rfl, rfl⟩ := h
  refine ⟨image l₂, ?_⟩
  rw [image_append, List.drop_left' rfl, image_cons, Rec.bytes]
  simp only [List.append_assoc]

theorem At.read_meta (h : At recs off r) : ((image recs).drop off).take 16 = r.meta.bytes := by
  obtain ⟨rest, hd⟩ := h.drop
  rw [hd]
  exact List.take_left' r.length_meta

theorem At.read_key (h : At recs off r) {n : Nat} (hn : n ≤ r.key.length) :
    ((image recs).drop (off + 16)).take n = r.key.take n := by
  obtain ⟨rest, hd⟩ := h.drop
  rw [← List.drop_drop, hd, List.drop_left' r.length_meta]
  exact List.take_append_of_le_length hn

theorem At.read_val (h : At recs off r) {n : Nat} (hn : n ≤ r.val.length) :
    ((image recs).drop (off + 16 + r.key.length)).take n = r.val.take n := by
  obtain ⟨rest, hd⟩ := h.drop
  rw [← List.drop_drop, ← List.drop_drop, hd, List.drop_left' r.length_meta, List.drop_left' rfl]
  exact List.take_append_of_le_length hn

/-! ## A log that reads back -/

/-- What the records need of the log below: a state of the log that stands for `log` (`P`)
    reads it back, and appending appends, up to `N` bytes. The first header is never read. -/
structure ReadsBack (N : Nat) (P : LogfsSt → List UInt8 → Prop) : Prop where
  append : ∀ {s : LogfsSt} {log : List UInt8} (buf : List UInt8), P s log → log.length + buf.length ≤ N →
    ∃ t, logfsAppend s buf = .ok t ∧ P t (log ++ buf)
  read : ∀ {s : LogfsSt} {log : List UInt8} (off len : Nat), P s log → 16 ≤ off → off + len ≤ log.length →
    ∃ t, logfsRead s off len = .ok (some ((log.drop off).take len), t) ∧ P t log

/-- The log is the image of the records. -/
structure Written (P : LogfsSt → List UInt8 → Prop) (k : Kvraw) (recs : List Rec) : Prop where
  log : P k.logfs (image recs)
  size : k.size = (image recs).length
  appendFails : k.appendFails = []

variable {k : Kvraw} {N : Nat} {P : LogfsSt → List UInt8 → Prop}

theorem ReadsBack.readLog {bs : List UInt8} (hP : ReadsBack N P) {off : Nat} (len : Nat) (h : P k.logfs bs)
    (h0 : 16 ≤ off) (hl : off + len ≤ bs.length) :
    ∃ logfs, readLog k off len = .ok (some ((bs.drop off).take len), { k with logfs }) ∧ P logfs bs := by
  obtain ⟨t, ht, hr⟩ := hP.read off len h h0 hl
  exact ⟨t, by simp only [Kvdb.readLog, ht], hr⟩

theorem ReadsBack.appendLog {bs : List UInt8} (hP : ReadsBack N P) (buf : List UInt8) (h : P k.logfs bs)
    (hf : bs.length + buf.length ≤ N) (ha : k.appendFails = []) :
    ∃ logfs, appendLog k buf = .ok (true, { k with logfs }) ∧ P logfs (bs ++ buf) := by
  obtain ⟨t, ht, hr⟩ := hP.append buf h hf
  refine ⟨t, ?_, hr⟩
  simp [Kvdb.appendLog, ha, ht]

/-- A record that is not the first lies past the first header. -/
theorem At.le_off (h : At recs off r) (h0 : off ≠ 0) : 16 ≤ off := by
  obtain ⟨l₁, l₂, rfl, rfl⟩ := h
  cases l₁ with
  | nil => exact absurd rfl h0
  | cons r l => simp only [image_cons, List.length_append, Rec.length_bytes]; omega

theorem Written.readMeta (hP : ReadsBack N P) (h : Written P k recs) (hr : At recs off r) (h0 : off ≠ 0) :
    ∃ k', readMeta k off = .ok (some r.meta, k') ∧ Written P k' recs := by
  have hle := hr.le
  obtain ⟨logfs, hl, hlog⟩ := hP.readLog 16 h.log (hr.le_off h0) (by omega)
  rw [hr.read_meta] at hl
  have hsize : ¬ (r.meta.mark ≠ [75, 86] ∨ off + 16 + r.meta.keyLen + r.meta.valLen > k.size) := by
    rw [h.size]
    intro h
    rcases h with hm | hm
    · exact hm rfl
    · simp only [Rec.meta] at hm; omega
  refine ⟨{ k with logfs }, ?_, ⟨hlog, h.size, h.appendFails⟩⟩
  unfold Kvdb.readMeta
  rw [if_neg (by rw [h.size]; omega), hl]
  simp only [r.ofBytes_meta, if_neg hsize]

/-- What `kvraw_lookup` stores for a record, with buffers of these sizes. -/
def Rec.found (r : Rec) (keyLen valLen : Nat) : Found :=
  ⟨r.key.take (min r.key.length keyLen), r.key.length, r.val.take (min r.val.length valLen), r.val.length, r.prev⟩

/-- `kvraw_lookup` at a record answers it. -/
theorem Written.lookup (hP : ReadsBack N P) (h : Written P k recs) (hr : At recs off r) (h0 : off ≠ 0) (keyLen : Nat)
    {valLen : Nat} {valNull : Bool} (hv : valLen ≠ 0 → valNull = false) :
    ∃ k', kvrawLookup k keyLen valNull valLen off = .ok (some (r.found keyLen valLen), k') ∧ Written P k' recs := by
  have hle := hr.le
  have h16 := hr.le_off h0
  have hassert : ¬ ((valLen ≠ 0 ∧ valNull = true) ∨ off = 0) := by
    intro h
    rcases h with ⟨h1, h2⟩ | h1
    · rw [hv h1] at h2; cases h2
    · exact h0 h1
  obtain ⟨k₁, hk₁, hr₁⟩ := h.readMeta hP hr h0
  obtain ⟨l₂, hl₂, hlog₂⟩ := hP.readLog (min r.key.length keyLen) hr₁.log (show 16 ≤ off + 16 by omega) (by omega)
  obtain ⟨l₃, hl₃, hlog₃⟩ := hP.readLog (k := { k₁ with logfs := l₂ }) (min r.val.length valLen) hlog₂
    (show 16 ≤ off + 16 + r.key.length by omega) (by omega)
  rw [hr.read_key (Nat.min_le_left _ _)] at hl₂
  rw [hr.read_val (Nat.min_le_left _ _)] at hl₃
  refine ⟨{ k₁ with logfs := l₃ }, ?_, ⟨hlog₃, hr₁.size, hr₁.appendFails⟩⟩
  unfold kvrawLookup
  rw [if_neg hassert, hk₁]
  simp only [Rec.meta, hl₂, hl₃, Rec.found]

/-- `kvraw_append` adds its record and answers where it starts. -/
theorem Written.append (hP : ReadsBack N P) (h : Written P k recs) (r : Rec)
    (hf : (image recs).length + r.bytes.length ≤ N) :
    ∃ k', kvrawAppend k r.key r.val r.prev = .ok (some (image recs).length, k') ∧ Written P k' (recs ++ [r]) := by
  have hlen := r.length_bytes
  have hassert : ¬ (r.key.length = 0 ∨ 0xffff < r.key.length ∨ 0xffffffff < r.val.length) := by
    have := r.key_pos
    have := r.key_le
    have := r.val_le
    omega
  obtain ⟨l₁, hl₁, hlog₁⟩ := hP.appendLog r.meta.bytes h.log (by rw [r.length_meta]; omega) h.appendFails
  obtain ⟨l₂, hl₂, hlog₂⟩ := hP.appendLog (k := { k with logfs := l₁ }) r.key hlog₁
    (by rw [List.length_append, r.length_meta]; omega) h.appendFails
  obtain ⟨l₃, hl₃, hlog₃⟩ := hP.appendLog (k := { k with logfs := l₂ }) r.val hlog₂
    (by rw [List.length_append, List.length_append, r.length_meta]; omega) h.appendFails
  have himage : image (recs ++ [r]) = image recs ++ r.meta.bytes ++ r.key ++ r.val := by
    simp [Rec.bytes, image]
  refine ⟨⟨k.size + (16 + r.key.length + r.val.length), l₃, k.appendFails⟩, ?_,
    ⟨by rw [himage]; exact hlog₃, ?_, h.appendFails⟩⟩
  · unfold kvrawAppend
    rw [if_neg hassert]
    simp only [Rec.meta] at hl₁
    simp only [hl₁, hl₂, hl₃]
    rw [← h.size]
  · show k.size + _ = _
    rw [image_append, List.length_append, image_cons, List.length_append, h.size, hlen]
    rfl

/-! ## The store's log -/

/-- A log on a device of `N` bytes. -/
def OnDevice (N : Nat) (s : LogfsSt) (log : List UInt8) : Prop := Idle s log ∧ s.device.size = N

/-- Block 3, which the caches cannot hold, lies in the first header. -/
theorem readsBack_onDevice (N : Nat) : ReadsBack N (OnDevice N) := by
  refine ⟨fun buf h hf => ?_, fun off len h h16 hl => ?_⟩
  · obtain ⟨t, ht, hr, hs, -⟩ := logfsAppend_ok h.1 (by rw [h.2]; exact (Nat.mul_div_le _ _).trans hf)
    exact ⟨t, ht, hr, hs.trans h.2⟩
  · obtain ⟨t, ht, hr, hs, -⟩ := logfsRead_ok h.1 (Or.inr (by omega)) hl
    exact ⟨t, ht, hr, hs.trans h.2⟩

/-- The log of the store, on a device of `N` bytes, is the image of its records. -/
structure RawRepr (N : Nat) (k : Kvraw) (recs : List Rec) : Prop where
  log : Idle k.logfs (image recs)
  size : k.size = (image recs).length
  device : k.logfs.device.size = N
  fits : (image recs).length ≤ N
  appendFails : k.appendFails = []

theorem RawRepr.written (h : RawRepr N k recs) : Written (OnDevice N) k recs :=
    ⟨⟨h.log, h.device⟩, h.size, h.appendFails⟩

theorem Written.repr (h : Written (OnDevice N) k recs) (hf : (image recs).length ≤ N) : RawRepr N k recs :=
  ⟨h.log.1, h.size, h.log.2, hf, h.appendFails⟩

theorem kvrawLookup_ok (keyLen : Nat) {valLen : Nat} {valNull : Bool} (h : RawRepr N k recs) (hr : At recs off r)
    (h0 : off ≠ 0) (hv : valLen ≠ 0 → valNull = false) :
    ∃ k', kvrawLookup k keyLen valNull valLen off = .ok (some (r.found keyLen valLen), k') ∧ RawRepr N k' recs := by
  obtain ⟨k', hk, hw⟩ := h.written.lookup (readsBack_onDevice N) hr h0 keyLen hv
  exact ⟨k', hk, hw.repr h.fits⟩

theorem kvrawAppend_ok (h : RawRepr N k recs) (r : Rec) (hf : (image recs).length + r.bytes.length ≤ N) :
    ∃ k', kvrawAppend k r.key r.val r.prev = .ok (some (image recs).length, k') ∧ RawRepr N k' (recs ++ [r]) := by
  obtain ⟨k', hk, hw⟩ := h.written.append (readsBack_onDevice N) r hf
  refine ⟨k', hk, hw.repr ?_⟩
  simpa [image] using hf

end Cs238p.Kvdb
