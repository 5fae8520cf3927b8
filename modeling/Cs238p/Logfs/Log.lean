/-
  Cs238p.Logfs.Log — the log itself (`logfs_open`, `logfs_append`, `read_mem` and
  `logfs_read` of `project-4/logfs.c`).

  The background writer runs between the steps of the producer: before each of the
  producer's accesses to the queue or the device it dequeues and writes as many blocks as
  the schedule says (`background`), each dequeue with its device write in one step
  (`drain`). A producer that waits for space goes on once a block has been drained.
  `faults` says which of the coming device reads fail.

  `cur_blk` and the cache buffers are the lists of their `blk_sz` bytes, `cur_off` is
  counted from `cur_blk`. Offsets are below the device's size, so `uint64_t` does not wrap.
-/
import Cs238p.Logfs.Wcache

namespace Cs238p.Logfs

open ByteMemory

structure LogfsSt where
  device : Device
  curBlk : List UInt8
  curOff : Nat
  off : Nat
  blkSz : Nat
  available : Nat
  wc : Wcache
  rcache : Nat → Block
  /-- How many blocks are drained before each of the producer's next steps. -/
  sched : List Nat
  /-- Which of the next device reads fail. -/
  faults : List Bool

/-- `logfs_open`; `junk` is what `malloc` left in the cache buffers. -/
def logfsOpen (device : Device) (junk : Nat → List UInt8) (sched : List Nat) (faults : List Bool) : LogfsSt :=
  { device
    curBlk := List.replicate device.block 0
    curOff := 0
    off := 0
    blkSz := device.block
    available := device.block
    wc := wcacheOpen junk
    rcache := fun i => ⟨3, junk (32 + i)⟩
    sched
    faults }

def blockStart (s : LogfsSt) (off : Nat) : Nat := off - off % s.blkSz

/-- `memcpy` of `bs` into the buffer `buf` at offset `i`. -/
def splice (buf : List UInt8) (i : Nat) (bs : List UInt8) : List UInt8 :=
  buf.take i ++ bs ++ buf.drop (i + bs.length)

/-! ## The background writer -/

/-- `write_to_device` in one step; with nothing queued the writer waits. -/
def drain (s : LogfsSt) : Except Stop LogfsSt :=
  if s.wc.activeBlks = 0 then .ok s
  else
    let ((i, buf), wc) := dequeue s.wc
    match deviceWrite s.device buf (wc.slots i).blk s.blkSz with
    | .error e => .error e
    | .ok device => .ok { s with wc, device }

def drainN : Nat → LogfsSt → Except Stop LogfsSt
  | 0, s => .ok s
  | n + 1, s =>
    match drain s with
    | .error e => .error e
    | .ok s => drainN n s

def background (s : LogfsSt) : Except Stop LogfsSt :=
  match s.sched with
  | [] => .ok s
  | n :: sched => drainN n { s with sched }

/-! ## Appending -/

/-- The wait for space: the producer goes on when fewer than 32 blocks are active. -/
def waitForSpace (s : LogfsSt) : Except Stop LogfsSt := if s.wc.activeBlks ≥ 32 then drain s else .ok s

/-- `write_to_queue`. -/
def writeToQueue (s : LogfsSt) (buf : List UInt8) (blk : Nat) : Except Stop LogfsSt :=
  match background s with
  | .error e => .error e
  | .ok s =>
    match waitForSpace s with
    | .error e => .error e
    | .ok s => .ok { s with wc := enqueue s.wc ⟨blk, buf⟩ }

/-- The cache index of a block. -/
def rcIdx (s : LogfsSt) (blk : Nat) : Nat := blk / s.blkSz % 256

/-- The start of `logfs_append`: the current block is no longer what the read cache holds. -/
def invalidate (s : LogfsSt) : LogfsSt :=
  let blk := blockStart s s.off
  if blk = (s.rcache (rcIdx s blk)).blk then
    { s with rcache := Function.update s.rcache (rcIdx s blk) { s.rcache (rcIdx s blk) with blk := 3 } }
  else s

/-- The `while (left_to_write >= available)` of `logfs_append`, answering what is left. -/
def appendLoop : Nat → LogfsSt → List UInt8 → Except Stop (LogfsSt × List UInt8)
  | 0, _, _ => .error .fuel
  | fuel + 1, s, buf =>
    if s.available ≤ buf.length then
      let t := { s with
        curBlk := splice s.curBlk s.curOff (buf.take s.available)
        off := s.off + s.available
        available := 0 }
      match writeToQueue t t.curBlk (blockStart t (t.off - 1)) with
      | .error e => .error e
      | .ok t =>
        appendLoop fuel { t with curBlk := List.replicate t.blkSz 0, available := t.blkSz, curOff := 0 }
          (buf.drop s.available)
    else .ok (s, buf)

/-- `logfs_append`; it always returns 0. -/
def logfsAppend (s : LogfsSt) (buf : List UInt8) : Except Stop LogfsSt :=
  match appendLoop (buf.length + 2) (invalidate s) buf with
  | .error e => .error e
  | .ok (s, left) =>
    if 0 < left.length then
      .ok { s with
        curBlk := splice s.curBlk s.curOff left
        off := s.off + left.length
        curOff := s.curOff + left.length
        available := s.available - left.length }
    else .ok s

/-! ## Reading -/

/-- The next device read of the log, which may fail. -/
def readDevice (s : LogfsSt) (blkStart : Nat) : Except Stop (Option (List UInt8) × LogfsSt) :=
  match background s with
  | .error e => .error e
  | .ok s =>
    match deviceRead s.device (s.faults.headD false) blkStart s.blkSz with
    | .error e => .error e
    | .ok r => .ok (r, { s with faults := s.faults.tail })

/-- Where `read_mem` gets a block that is not in the read cache. -/
def fetchBlock (s : LogfsSt) (blkStart : Nat) : Except Stop (Option (List UInt8) × LogfsSt) :=
  if blkStart = blockStart s s.off then .ok (some s.curBlk, s)
  else
    match background s with
    | .error e => .error e
    | .ok s =>
      match checkInWcache s.wc blkStart with
      | some buf => .ok (some buf, s)
      | none => readDevice s blkStart

/-- `read_mem`; `none` is its return value -1. -/
def readMem (s : LogfsSt) (blkStart off len : Nat) : Except Stop (Option (List UInt8) × LogfsSt) :=
  let i := rcIdx s blkStart
  if blkStart = (s.rcache i).blk then .ok (some (((s.rcache i).buf.drop (off - blkStart)).take len), s)
  else
    -- the cache line gets its number before its bytes
    match fetchBlock { s with rcache := Function.update s.rcache i { s.rcache i with blk := blkStart } } blkStart with
    | .error e => .error e
    | .ok (none, s) => .ok (none, s)
    | .ok (some buf, s) =>
      .ok (some ((buf.drop (off - blkStart)).take len),
        { s with rcache := Function.update s.rcache i ⟨(s.rcache i).blk, buf⟩ })

/-- The rest of `logfs_read` after its first block: whole blocks, then the last piece. -/
def readLoop : Nat → LogfsSt → Nat → Nat → Nat → Except Stop (Option (List UInt8) × LogfsSt)
  | 0, _, _, _, _ => .error .fuel
  | fuel + 1, s, blkStart, off, left =>
    if left > s.blkSz then
      match readMem s blkStart off s.blkSz with
      | .error e => .error e
      | .ok (none, s) => .ok (none, s)
      | .ok (some bs, s) =>
        match readLoop fuel s (blkStart + s.blkSz) (off + s.blkSz) (left - s.blkSz) with
        | .error e => .error e
        | .ok (r, s) => .ok (r.map (bs ++ ·), s)
    else if left ≠ 0 then readMem s blkStart off left
    else .ok (some [], s)

/-- `logfs_read`; `none` is its return value -1, otherwise the bytes stored in `buf`. -/
def logfsRead (s : LogfsSt) (off len : Nat) : Except Stop (Option (List UInt8) × LogfsSt) :=
  let blkStart := blockStart s off
  let readLen := min len (blkStart + s.blkSz - off)
  match readMem s blkStart off readLen with
  | .error e => .error e
  | .ok (none, s) => .ok (none, s)
  | .ok (some bs, s) =>
    match readLoop (len + 1) s (blkStart + s.blkSz) (off + readLen) (len - readLen) with
    | .error e => .error e
    | .ok (r, s) => .ok (r.map (bs ++ ·), s)

end Cs238p.Logfs
