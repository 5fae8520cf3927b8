/-
  Cs238p.Scm.Scm — the storage class memory manager (`project-3/scm.c`): a file mapped at a
  fixed address, whose bytes hold a header of 24 bytes (an id, `used_bytes`, `user_bytes`)
  and then the blocks, each after a header of 16 (in use or not, size).

  Addresses are absolute. `size_t` and pointers are naturals; sums of them that may pass
  2^64 are written out with their wrap. The mapping ends below 2^64 (`size_lt`); the model
  does not fault on an access outside it. The loops run on `fuel`: a step of the walk
  passes a header, so one more than `used_bytes` is enough.
-/
import Cs238p.Lib.Memory

namespace Cs238p.Scm

open ByteMemory

/-- How the process can end other than by returning from a call. -/
inductive Stop where
  /-- A failed `assert`. -/
  | assert
  /-- The `EXIT` of `scm_malloc`. -/
  | exit
  /-- A `NULL` pointer is dereferenced. -/
  | null
  /-- A block that ends outside the mapping is written. -/
  | fault
  /-- The model's bound on a loop or a recursion. -/
  | fuel
  deriving DecidableEq, Repr

/-- `VM_START_ADDR`. -/
def vmStart : Nat := 0x700000000000

/-- `SIZE_INFO_ID`. -/
def sizeInfoId : Nat := 2 ^ 64 - 2

structure ScmSt where
  size : Nat
  usedBytes : Nat
  userBytes : Nat
  mem : Mem
  size_lt : vmStart + size < 2 ^ 64

/-- `base_addr`. -/
def base : Nat := vmStart + 24

/-- `scm_mbase`. -/
def scmMbase (s : ScmSt) : Nat := if s.usedBytes ≠ 0 then base + 16 else base

/-- The two words before a block. -/
def inUseAt (m : Mem) (addr : Nat) : Nat := m.load (addr - 16) 8

def sizeAt (m : Mem) (addr : Nat) : Nat := m.load (addr - 8) 8

/-- `scm_open` on a file of `size` bytes. -/
def scmOpen (size : Nat) (h : vmStart + size < 2 ^ 64) (file : Mem) (truncate : Bool) : ScmSt :=
  let mem :=
    if file.load vmStart 8 ≠ sizeInfoId ∨ truncate = true then
      ((file.store vmStart 8 sizeInfoId).store (vmStart + 8) 8 0).store (vmStart + 16) 8 0
    else file
  ⟨size, mem.load (vmStart + 8) 8, mem.load (vmStart + 16) 8, mem, h⟩

/-- The counters, in the handle and in the region's header. -/
def setInfo (s : ScmSt) (used user : Nat) (mem : Mem) : ScmSt :=
  { s with
    usedBytes := used
    userBytes := user
    mem := (mem.store (vmStart + 8) 8 used).store (vmStart + 16) 8 user }

/-- `scm_close`, answering the file. -/
def scmClose (s : ScmSt) : Mem :=
  ((s.mem.store vmStart 8 sizeInfoId).store (vmStart + 8) 8 s.usedBytes).store (vmStart + 16) 8 s.userBytes

/-- The loop of `scm_malloc`: the first free block of at least `n` bytes. -/
def findFree (m : Mem) (n stop : Nat) : Nat → Nat → Except Stop (Option Nat)
  | 0, _ => .error .fuel
  | fuel + 1, addr =>
    if addr < stop then
      if inUseAt m addr = 0 ∧ n ≤ sizeAt m addr then .ok (some addr)
      else findFree m n stop fuel (addr + sizeAt m addr + 16)
    else .ok none

/-- A new block after the last one: its header and the counters. -/
def extend (s : ScmSt) (n : Nat) (mem : Mem) : ScmSt :=
  setInfo s ((s.usedBytes + (n + 16)) % 2 ^ 64) ((s.userBytes + n) % 2 ^ 64) mem

def scmMalloc (s : ScmSt) (n : Nat) : Except Stop (Nat × ScmSt) :=
  match findFree s.mem n (scmMbase s + s.usedBytes) (s.usedBytes + 1) (scmMbase s) with
  | .error e => .error e
  | .ok (some addr) => .ok (addr, { s with mem := s.mem.store (addr - 16) 8 1 })
  | .ok none =>
    if (s.usedBytes + n + 16) % 2 ^ 64 > s.size then .error .exit
    else
      let info := base + s.usedBytes
      .ok (info + 16, extend s n ((s.mem.store info 8 1).store (info + 8) 8 n))

/-- `scm_strdup` of a string of these bytes: always a new block, and no check. -/
def scmStrdup (s : ScmSt) (str : List UInt8) : Nat × ScmSt :=
  let info := base + s.usedBytes
  let mem := ((s.mem.store info 8 1).store (info + 8) 8 (str.length + 1)).write (info + 16) (str ++ [0])
  (info + 16, extend s (str.length + 1) mem)

/-- The loop of `scm_allocated_addr`. -/
def findAddr (m : Mem) (p stop : Nat) : Nat → Nat → Except Stop Bool
  | 0, _ => .error .fuel
  | fuel + 1, addr =>
    if addr < stop then if addr = p then .ok true else findAddr m p stop fuel (addr + sizeAt m addr + 16)
    else .ok false

def scmAllocatedAddr (s : ScmSt) (p : Nat) : Except Stop Bool :=
  findAddr s.mem p (scmMbase s + s.usedBytes) (s.usedBytes + 1) (scmMbase s)

def scmFree (s : ScmSt) (p : Nat) : Except Stop ScmSt :=
  match scmAllocatedAddr s p with
  | .error e => .error e
  | .ok false => .ok s
  | .ok true =>
    let user := (s.userBytes + (2 ^ 64 - sizeAt s.mem p)) % 2 ^ 64
    .ok { s with userBytes := user, mem := (s.mem.store (p - 16) 8 0).store (vmStart + 16) 8 user }

/-- `scm_utilized` and `scm_capacity`. -/
def scmUtilized (s : ScmSt) : Nat := s.userBytes

def scmCapacity (s : ScmSt) : Nat := s.size

/-! ## C strings -/

/-- The bytes before the first NUL, at most `n` of them. -/
def cstrN (m : Mem) : Nat → Nat → List UInt8
  | 0, _ => []
  | n + 1, p => if m.byte p = 0 then [] else m.byte p :: cstrN m n (p + 1)

/-- The string at `p`, which ends inside the region. -/
def cstr (s : ScmSt) (p : Nat) : List UInt8 := cstrN s.mem (vmStart + s.size - p) p

/-- A string has no NUL in it. -/
def IsStr (str : List UInt8) : Prop := ∀ b ∈ str, b ≠ 0

end Cs238p.Scm
