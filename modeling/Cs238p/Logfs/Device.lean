/-
  Cs238p.Logfs.Device — the block device (`project-4/device.c`): its geometry, and reads
  and writes of whole blocks, which assert that they are aligned and inside the device.

  `pread` may fail (`fails`, -1 from `device_read`); `pwrite` succeeds. `off + len` is
  taken without the wrap of `uint64_t`: device offsets are far below 2^63 (`off_t`).
-/
import Cs238p.Lib.Memory

namespace Cs238p.Logfs

open ByteMemory

/-- How the process can end other than by returning from a call. -/
inductive Stop where
  /-- A failed `assert`. -/
  | assert
  /-- The `EXIT` of the index's `update`. -/
  | exitIndex
  /-- The model's bound on the iterations of a loop. -/
  | fuel
  deriving DecidableEq, Repr

/-- `struct device`; `geometry` fails on a size or a block size of 0, and rounds the size down
    to whole blocks. -/
structure Device where
  size : Nat
  block : Nat
  bytes : Mem
  block_pos : 0 < block
  size_dvd : block ∣ size
  size_lt : size < 2 ^ 64

/-- The assertions of `device_read` and `device_write`. -/
def Device.Admits (d : Device) (off len : Nat) : Prop := off % d.block = 0 ∧ len % d.block = 0 ∧ off + len ≤ d.size

instance (d : Device) (off len : Nat) : Decidable (d.Admits off len) :=
  inferInstanceAs (Decidable (_ ∧ _ ∧ _))

/-- `device_read`; `none` is its return value -1. -/
def deviceRead (d : Device) (fails : Bool) (off len : Nat) : Except Stop (Option (List UInt8)) :=
  if d.Admits off len then .ok (if fails then none else some (d.bytes.read off len)) else .error .assert

/-- `device_write`. -/
def deviceWrite (d : Device) (buf : List UInt8) (off len : Nat) : Except Stop Device :=
  if d.Admits off len then .ok { d with bytes := d.bytes.write off buf } else .error .assert

theorem deviceWrite_ok {d : Device} {buf : List UInt8} {off len : Nat} (h : d.Admits off len) :
    deviceWrite d buf off len = .ok { d with bytes := d.bytes.write off buf } := if_pos h

theorem deviceWrite_eq {d e : Device} {buf : List UInt8} {off len : Nat} (h : deviceWrite d buf off len = .ok e) :
    e = { d with bytes := d.bytes.write off buf } := by
  unfold deviceWrite at h
  split at h
  · cases h; rfl
  · cases h

theorem deviceRead_ok {d : Device} {off len : Nat} (h : d.Admits off len) :
    deviceRead d false off len = .ok (some (d.bytes.read off len)) := if_pos h

end Cs238p.Logfs
