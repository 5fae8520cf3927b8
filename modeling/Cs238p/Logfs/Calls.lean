/-
  Cs238p.Logfs.Calls — the caller's side of `project-4/logfs.c` as programs that call the
  write queue and the device.

  `logfs_append` and `logfs_read` leave the queue and the device to `write_to_queue`,
  `check_in_wcache` and `device_read`; all else that they touch is theirs alone (`Front`).

  Proved: on the queue whose writer drains whole blocks they are the functions of
  `Log.lean` (`append_run`, `read_run`).
-/
import Cs238p.Lib.Calls
import Cs238p.Logfs.FailedRead

namespace Cs238p.Logfs

open Calls

/-! ## Programs -/

/-- What only the caller touches. -/
structure Front where
  curBlk : List UInt8
  curOff : Nat
  off : Nat
  available : Nat
  rcache : Nat → Block

inductive QueueCall where
  /-- `write_to_queue`. -/
  | put (b : Block)
  /-- `check_in_wcache`, and `device_read` where it finds nothing; `none` is a failed read. -/
  | fetch (blk : Nat)

abbrev QueueCall.Answer : QueueCall → Type
  | .put _ => Unit
  | .fetch _ => Option (List UInt8)

abbrev Caller := Prog QueueCall QueueCall.Answer Stop

namespace Front

-- `blk_sz`
variable (B : Nat)

def blockStart (off : Nat) : Nat := off - off % B

def rcIdx (blk : Nat) : Nat := blk / B % 256

def invalidate (f : Front) : Front :=
  let blk := blockStart B f.off
  if blk = (f.rcache (rcIdx B blk)).blk then
    { f with rcache := Function.update f.rcache (rcIdx B blk) { f.rcache (rcIdx B blk) with blk := 3 } }
  else f

/-- The `while` of `logfs_append`. -/
def appendLoop : Nat → Front → List UInt8 → Caller (Front × List UInt8)
  | 0, _, _ => .stop .fuel
  | fuel + 1, f, buf =>
    if f.available ≤ buf.length then do
      let curBlk := splice f.curBlk f.curOff (buf.take f.available)
      let off := f.off + f.available
      let _ ← Prog.call (QueueCall.put ⟨blockStart B (off - 1), curBlk⟩)
      appendLoop fuel { f with curBlk := List.replicate B 0, curOff := 0, off, available := B } (buf.drop f.available)
    else return (f, buf)

/-- What is left over goes into the current block. -/
def keep (f : Front) (left : List UInt8) : Front :=
  if 0 < left.length then
    { f with
      curBlk := splice f.curBlk f.curOff left
      off := f.off + left.length
      curOff := f.curOff + left.length
      available := f.available - left.length }
  else f

/-- `logfs_append`. -/
def append (f : Front) (buf : List UInt8) : Caller Front := do
  let (f, left) ← appendLoop B (buf.length + 2) (f.invalidate B) buf
  return f.keep left

/-- The end of `read_mem`: the block's bytes into the cache, and a part of them to the caller. -/
def fill (f : Front) (blkStart off len : Nat) : Option (List UInt8) → Option (List UInt8) × Front
  | none => (none, f)
  | some buf =>
    let i := rcIdx B blkStart
    (some ((buf.drop (off - blkStart)).take len), { f with rcache := Function.update f.rcache i ⟨(f.rcache i).blk, buf⟩ })

def readMem (f : Front) (blkStart off len : Nat) : Caller (Option (List UInt8) × Front) :=
  let i := rcIdx B blkStart
  if blkStart = (f.rcache i).blk then return (some (((f.rcache i).buf.drop (off - blkStart)).take len), f)
  else
    let f := { f with rcache := Function.update f.rcache i { f.rcache i with blk := blkStart } }
    if blkStart = blockStart B f.off then return f.fill B blkStart off len (some f.curBlk)
    else do
      let r ← Prog.call (QueueCall.fetch blkStart)
      return f.fill B blkStart off len r

def readLoop : Nat → Front → Nat → Nat → Nat → Caller (Option (List UInt8) × Front)
  | 0, _, _, _, _ => .stop .fuel
  | fuel + 1, f, blkStart, off, left =>
    if left > B then do
      match ← f.readMem B blkStart off B with
      | (none, f) => return (none, f)
      | (some bs, f) =>
        let (r, f) ← readLoop fuel f (blkStart + B) (off + B) (left - B)
        return (r.map (bs ++ ·), f)
    else if left ≠ 0 then f.readMem B blkStart off left
    else return (some [], f)

/-- `logfs_read`. -/
def read (f : Front) (off len : Nat) : Caller (Option (List UInt8) × Front) := do
  let blkStart := blockStart B off
  let readLen := min len (blkStart + B - off)
  match ← f.readMem B blkStart off readLen with
  | (none, f) => return (none, f)
  | (some bs, f) =>
    let (r, f) ← readLoop B (len + 1) f (blkStart + B) (off + readLen) (len - readLen)
    return (r.map (bs ++ ·), f)

end Front

/-! ## The draining writer as a server -/

def LogfsSt.front (s : LogfsSt) : Front := ⟨s.curBlk, s.curOff, s.off, s.available, s.rcache⟩

def LogfsSt.putFront (s : LogfsSt) (f : Front) : LogfsSt :=
  { s with curBlk := f.curBlk, curOff := f.curOff, off := f.off, available := f.available, rcache := f.rcache }

def fetch (s : LogfsSt) (blk : Nat) : Except Stop (Option (List UInt8) × LogfsSt) :=
  match background s with
  | .error e => .error e
  | .ok s =>
    match checkInWcache s.wc blk with
    | some buf => .ok (some buf, s)
    | none => readDevice s blk

def serveQueue : (q : QueueCall) → LogfsSt → Except Stop (q.Answer × LogfsSt)
  | .put b, s => (writeToQueue s b.buf b.blk).map fun s => ((), s)
  | .fetch blk, s => fetch s blk

variable {s t : LogfsSt} {f : Front} {blk : Nat}

@[simp] theorem putFront_front (s : LogfsSt) : s.putFront s.front = s := rfl

@[simp] theorem front_putFront (s : LogfsSt) (f : Front) : (s.putFront f).front = f := rfl

@[simp] theorem blkSz_putFront (s : LogfsSt) (f : Front) : (s.putFront f).blkSz = s.blkSz := rfl

theorem drain_putFront : drain (s.putFront f) = (drain s).map (·.putFront f) := by
  by_cases h0 : s.wc.activeBlks = 0
  · rw [drain, drain, if_pos h0, if_pos (show (s.putFront f).wc.activeBlks = 0 from h0)]
    rfl
  · rw [drain, drain, if_neg h0, if_neg (show ¬ (s.putFront f).wc.activeBlks = 0 from h0)]
    simp only [LogfsSt.putFront, dequeue]
    generalize deviceWrite s.device _ _ _ = w
    cases w with
    | error e => rfl
    | ok d => rfl

theorem drainN_putFront : ∀ (n : Nat) {s : LogfsSt}, drainN n (s.putFront f) = (drainN n s).map (·.putFront f) := by
  intro n
  induction n with
  | zero => exact fun {s} => rfl
  | succ n ih =>
    intro s
    simp only [drainN, drain_putFront]
    cases drain s with
    | error e => rfl
    | ok t => exact ih

theorem background_putFront : background (s.putFront f) = (background s).map (·.putFront f) := by
  cases hsched : s.sched with
  | nil =>
    have hsched' : (s.putFront f).sched = [] := hsched
    simp only [background, hsched, hsched']
    rfl
  | cons n sched =>
    have hsched' : (s.putFront f).sched = n :: sched := hsched
    simp only [background, hsched, hsched']
    exact @drainN_putFront f n { s with sched }

theorem waitForSpace_putFront : waitForSpace (s.putFront f) = (waitForSpace s).map (·.putFront f) := by
  unfold waitForSpace
  show (if s.wc.activeBlks ≥ 32 then drain (s.putFront f) else _) = _
  split
  · exact drain_putFront
  · rfl

theorem writeToQueue_putFront {buf : List UInt8} {blk : Nat} :
    writeToQueue (s.putFront f) buf blk = (writeToQueue s buf blk).map (·.putFront f) := by
  unfold writeToQueue
  rw [background_putFront]
  cases background s with
  | error e => rfl
  | ok t =>
    simp only [Except.map]
    rw [waitForSpace_putFront]
    cases waitForSpace t with
    | error e => rfl
    | ok u => rfl

theorem readDevice_putFront : readDevice (s.putFront f) blk = (readDevice s blk).map fun r => (r.1, r.2.putFront f) := by
  unfold readDevice
  rw [background_putFront]
  cases background s with
  | error e => rfl
  | ok t =>
    simp only [Except.map, LogfsSt.putFront]
    generalize deviceRead t.device _ _ _ = w
    cases w with
    | error e => rfl
    | ok r => rfl

theorem fetch_putFront : fetch (s.putFront f) blk = (fetch s blk).map fun r => (r.1, r.2.putFront f) := by
  unfold fetch
  rw [background_putFront]
  cases background s with
  | error e => rfl
  | ok t =>
    simp only [Except.map]
    change (match checkInWcache t.wc blk with
      | some buf => Except.ok (some buf, t.putFront f)
      | none => readDevice (t.putFront f) blk) = _
    cases checkInWcache t.wc blk with
    | some buf => rfl
    | none => exact readDevice_putFront

/-! ## The block size stays -/

theorem drain_blkSz (h : drain s = .ok t) : t.blkSz = s.blkSz := by
  unfold drain at h
  split at h
  · cases h; rfl
  · simp only [dequeue] at h
    split at h
    · cases h
    · cases h; rfl

theorem drainN_blkSz (n : Nat) : ∀ {s : LogfsSt}, drainN n s = .ok t → t.blkSz = s.blkSz := by
  induction n with
  | zero =>
    intro s h
    cases h
    rfl
  | succ n ih =>
    intro s h
    rw [drainN] at h
    cases hd : drain s with
    | error e =>
      rw [hd] at h
      cases h
    | ok u =>
      rw [hd] at h
      exact (ih h).trans (drain_blkSz hd)

theorem background_blkSz (h : background s = .ok t) : t.blkSz = s.blkSz := by
  unfold background at h
  split at h
  · cases h; rfl
  · exact (drainN_blkSz _ h).trans rfl

theorem writeToQueue_blkSz {buf : List UInt8} (h : writeToQueue s buf blk = .ok t) : t.blkSz = s.blkSz := by
  unfold writeToQueue at h
  cases hb : background s with
  | error e => rw [hb] at h; cases h
  | ok u =>
    rw [hb] at h
    simp only at h
    cases hw : waitForSpace u with
    | error e => rw [hw] at h; cases h
    | ok v =>
      rw [hw] at h
      cases h
      have hv : v.blkSz = u.blkSz := by
        unfold waitForSpace at hw
        split at hw
        · exact drain_blkSz hw
        · cases hw; rfl
      exact hv.trans (background_blkSz hb)

theorem fetch_blkSz {r : Option (List UInt8)} (h : fetch s blk = .ok (r, t)) : t.blkSz = s.blkSz := by
  unfold fetch at h
  cases hb : background s with
  | error e => rw [hb] at h; cases h
  | ok u =>
    rw [hb] at h
    have hu := background_blkSz hb
    simp only at h
    split at h
    · cases h; exact hu
    · unfold readDevice at h
      cases hb' : background u with
      | error e => rw [hb'] at h; cases h
      | ok v =>
        rw [hb'] at h
        simp only at h
        split at h
        · cases h
        · cases h
          exact (background_blkSz hb').trans hu

/-! ## The functions of the log -/

theorem invalidate_putFront : invalidate (s.putFront f) = s.putFront (f.invalidate s.blkSz) := by
  unfold invalidate Front.invalidate
  change (if Front.blockStart s.blkSz f.off = (f.rcache (Front.rcIdx s.blkSz (Front.blockStart s.blkSz f.off))).blk then _ else _) = _
  simp only
  split
  · rfl
  · rfl

theorem appendLoop_run : ∀ (fuel : Nat) {s : LogfsSt} {f : Front} {buf : List UInt8},
    appendLoop fuel (s.putFront f) buf =
      ((f.appendLoop s.blkSz fuel buf).run serveQueue id s).map fun r => (r.2.putFront r.1.1, r.1.2) := by
  intro fuel
  induction fuel with
  | zero => exact fun {s f buf} => rfl
  | succ fuel ih =>
    intro s f buf
    by_cases hle : f.available ≤ buf.length
    · have hle' : (s.putFront f).available ≤ buf.length := hle
      rw [appendLoop, Front.appendLoop, if_pos hle, if_pos hle']
      simp only [Prog.bind_eq, Prog.call, Prog.bind, Prog.run_ask]
      let g : Front :=
        ⟨splice f.curBlk f.curOff (buf.take f.available), f.curOff, f.off + f.available, 0, f.rcache⟩
      change (match writeToQueue (s.putFront g) g.curBlk (Front.blockStart s.blkSz (g.off - 1)) with
        | .error e => Except.error e
        | .ok t => appendLoop fuel { t with curBlk := List.replicate t.blkSz 0, available := t.blkSz, curOff := 0 }
          (buf.drop f.available)) = _
      rw [writeToQueue_putFront]
      change _ = Except.map _ ((writeToQueue s g.curBlk (Front.blockStart s.blkSz (g.off - 1))).map _ >>= _)
      cases hw : writeToQueue s g.curBlk (Front.blockStart s.blkSz (g.off - 1)) with
      | error e => rfl
      | ok t =>
        change appendLoop fuel (t.putFront ⟨List.replicate t.blkSz 0, 0, g.off, t.blkSz, f.rcache⟩) (buf.drop f.available) =
          (((⟨List.replicate s.blkSz 0, 0, g.off, s.blkSz, f.rcache⟩ : Front).appendLoop s.blkSz fuel
            (buf.drop f.available)).run serveQueue id t).map fun r => (r.2.putFront r.1.1, r.1.2)
        rw [← writeToQueue_blkSz hw]
        exact ih
    · have hle' : ¬ (s.putFront f).available ≤ buf.length := hle
      rw [appendLoop, Front.appendLoop, if_neg hle, if_neg hle']
      rfl

theorem append_run (s : LogfsSt) (buf : List UInt8) :
    logfsAppend s buf = ((s.front.append s.blkSz buf).run serveQueue id s).map fun r => r.2.putFront r.1 := by
  have hinv : invalidate s = s.putFront (s.front.invalidate s.blkSz) := @invalidate_putFront s s.front
  rw [logfsAppend, hinv, appendLoop_run, Front.append, Prog.bind_eq, Prog.run_bind]
  cases ((s.front.invalidate s.blkSz).appendLoop s.blkSz (buf.length + 2) buf).run serveQueue id s with
  | error e => rfl
  | ok r =>
    obtain ⟨⟨f, left⟩, t⟩ := r
    simp only [Except.map, ok_bind, Prog.pure_eq, Prog.run_ret, Front.keep]
    split
    · rfl
    · rfl

theorem readMem_run {off len : Nat} : readMem (s.putFront f) blk off len =
    ((f.readMem s.blkSz blk off len).run serveQueue id s).map fun r => (r.1.1, r.2.putFront r.1.2) := by
  unfold readMem Front.readMem
  change (if blk = (f.rcache (Front.rcIdx s.blkSz blk)).blk then _ else _) = _
  simp only
  by_cases hhit : blk = (f.rcache (Front.rcIdx s.blkSz blk)).blk
  · rw [if_pos hhit, if_pos hhit]
    rfl
  · rw [if_neg hhit, if_neg hhit]
    let g : Front := { f with
      rcache := Function.update f.rcache (Front.rcIdx s.blkSz blk) { f.rcache (Front.rcIdx s.blkSz blk) with blk } }
    have hline : { s.putFront f with
        rcache := Function.update (s.putFront f).rcache (rcIdx (s.putFront f) blk)
          { (s.putFront f).rcache (rcIdx (s.putFront f) blk) with blk } } = s.putFront g := rfl
    rw [hline]
    by_cases hcur : blk = Front.blockStart s.blkSz f.off
    · have hcur' : blk = blockStart (s.putFront g) (s.putFront g).off := hcur
      rw [if_pos hcur, fetchBlock, if_pos hcur']
      rfl
    · have hcur' : ¬ blk = blockStart (s.putFront g) (s.putFront g).off := hcur
      have hfetch : fetchBlock (s.putFront g) blk = fetch (s.putFront g) blk := if_neg hcur'
      rw [if_neg hcur, hfetch, fetch_putFront]
      change _ = Except.map _ (fetch s blk >>= _)
      cases fetch s blk with
      | error e => rfl
      | ok r =>
        obtain ⟨r, t⟩ := r
        cases r with
        | none => rfl
        | some buf => rfl

theorem readMem_blkSz {B off len : Nat} {r : Option (List UInt8) × Front}
    (h : (f.readMem B blk off len).run serveQueue id s = .ok (r, t)) : t.blkSz = s.blkSz := by
  unfold Front.readMem at h
  simp only at h
  split at h
  · cases h
    rfl
  · split at h
    · cases h
      rfl
    · change fetch s blk >>= _ = _ at h
      cases hf : fetch s blk with
      | error e =>
        rw [hf] at h
        cases h
      | ok q =>
        rw [hf] at h
        cases h
        exact fetch_blkSz hf

theorem readLoop_run : ∀ (fuel : Nat) {s : LogfsSt} {f : Front} {blk off left : Nat},
    readLoop fuel (s.putFront f) blk off left =
      ((f.readLoop s.blkSz fuel blk off left).run serveQueue id s).map fun r => (r.1.1, r.2.putFront r.1.2) := by
  intro fuel
  induction fuel with
  | zero => exact fun {s f blk off left} => rfl
  | succ fuel ih =>
    intro s f blk off left
    rw [readLoop, Front.readLoop]
    by_cases hgt : left > s.blkSz
    · rw [if_pos hgt, if_pos (show left > (s.putFront f).blkSz from hgt), blkSz_putFront, readMem_run, Prog.bind_eq, Prog.run_bind]
      cases hm : (f.readMem s.blkSz blk off s.blkSz).run serveQueue id s with
      | error e => rfl
      | ok r =>
        obtain ⟨⟨r, f'⟩, t⟩ := r
        cases r with
        | none => rfl
        | some bs =>
          simp only [Except.map, ok_bind, Prog.bind_eq, Prog.run_bind, blkSz_putFront]
          rw [ih, readMem_blkSz hm]
          cases (f'.readLoop s.blkSz fuel (blk + s.blkSz) (off + s.blkSz) (left - s.blkSz)).run serveQueue id t with
          | error e => rfl
          | ok q => rfl
    · rw [if_neg hgt, if_neg (show ¬ left > (s.putFront f).blkSz from hgt)]
      by_cases h0 : left ≠ 0
      · rw [if_pos h0, if_pos h0]
        exact readMem_run
      · rw [if_neg h0, if_neg h0]
        rfl

theorem read_run (s : LogfsSt) (off len : Nat) :
    logfsRead s off len = ((s.front.read s.blkSz off len).run serveQueue id s).map fun r => (r.1.1, r.2.putFront r.1.2) := by
  rw [logfsRead, Front.read]
  have hmem := @readMem_run s s.front (blockStart s off) off (min len (blockStart s off + s.blkSz - off))
  rw [putFront_front] at hmem
  simp only [hmem]
  rw [Prog.bind_eq, Prog.run_bind]
  change _ = Except.map _ ((s.front.readMem s.blkSz (blockStart s off) off (min len (blockStart s off + s.blkSz - off))).run
    serveQueue id s >>= _)
  cases hm : (s.front.readMem s.blkSz (blockStart s off) off (min len (blockStart s off + s.blkSz - off))).run serveQueue id s with
  | error e => rfl
  | ok r =>
    obtain ⟨⟨r, f⟩, t⟩ := r
    cases r with
    | none => rfl
    | some bs =>
      simp only [Except.map, ok_bind, Prog.bind_eq, Prog.run_bind, blkSz_putFront]
      rw [readLoop_run, readMem_blkSz hm]
      change _ = Except.map _ ((f.readLoop s.blkSz (len + 1) (blockStart s off + s.blkSz)
        (off + min len (blockStart s off + s.blkSz - off)) (len - min len (blockStart s off + s.blkSz - off))).run
          serveQueue id t >>= _)
      cases (f.readLoop s.blkSz (len + 1) (blockStart s off + s.blkSz) (off + min len (blockStart s off + s.blkSz - off))
          (len - min len (blockStart s off + s.blkSz - off))).run serveQueue id t with
      | error e => rfl
      | ok q => rfl

end Cs238p.Logfs
