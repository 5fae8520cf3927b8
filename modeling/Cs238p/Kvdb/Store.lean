/-
  Cs238p.Kvdb.Store — the key-value store (`project-4/kvdb.c`): a log of records, and an
  index from a key's hash to the newest record of that hash. Each record names the one
  before it of the same hash; a record without a value removes its key.

  A caller's value buffer is `none` for `NULL`, otherwise its bytes; a length pointer is
  `none` for `NULL`, otherwise what it points to. Keys, and the values stored, come with
  their lengths. `chain_lookup` runs on `fuel`; on a log that only `kvdb` wrote every
  record lies after the one it names, so the size of the log is enough. Allocation
  succeeds.
-/
import Cs238p.Kvdb.Index
import Cs238p.Kvdb.Raw

namespace Cs238p.Kvdb

open Cs238p.Logfs (Stop Device)

structure KvdbSt where
  size : UInt64
  waste : UInt64
  kvraw : Kvraw
  index : Index

/-- The return values -1, 0 and +1. -/
inductive Ret where
  | fail
  | done
  | invalid
  deriving DecidableEq, Repr

inductive Mode where
  | remove
  | insert
  | update
  | replace
  deriving DecidableEq, Repr

/-- `memcpy` to the start of a caller's buffer. -/
def putPrefix (val : Option (List UInt8)) (bs : List UInt8) : Option (List UInt8) :=
  val.map fun buf => bs ++ buf.drop bs.length

/-- `*val`, `*val_len` and `*off` after `chain_lookup`. -/
structure Chained where
  val : Option (List UInt8)
  valLen : Nat
  off : Nat
  deriving DecidableEq, Repr

/-- `chain_lookup`, given the address of a length; `none` is its return value -1. -/
def chainLookup : Nat → Kvraw → List UInt8 → Option (List UInt8) → Nat → Nat → Except Stop (Option Chained × Kvraw)
  | 0, _, _, _, _, _ => .error .fuel
  | fuel + 1, k, key, val, valLen, off =>
    if off = 0 then .ok (some ⟨val, valLen, 0⟩, k)
    else
      match kvrawLookup k (min key.length 256) val.isNone valLen off with
      | .error e => .error e
      | .ok (none, k) => .ok (none, k)
      | .ok (some f, k) =>
        let val := putPrefix val f.val
        -- the partial comparison is over `sizeof (key_)`, the 8 bytes of a pointer
        if f.keyLen ≠ key.length ∨ f.key.take (min key.length 8) ≠ key.take (min key.length 8) then
          chainLookup fuel k key val valLen f.off
        else if f.keyLen > 8 then
          match kvrawLookup k f.keyLen val.isNone 0 off with
          | .error e => .error e
          | .ok (none, k) => .ok (none, k)
          | .ok (some g, k) =>
            if g.key.take key.length = key then .ok (some ⟨val, g.valLen, off⟩, k)
            else chainLookup fuel k key val valLen g.off
        else if f.key.take key.length = key then .ok (some ⟨val, f.valLen, off⟩, k)
        else chainLookup fuel k key val valLen f.off

/-- What a call returns and, when it returns 0 or +1, leaves in the caller's value buffer
    and length. -/
structure Out where
  ret : Ret
  val : Option (List UInt8)
  valLen : Option Nat
  deriving DecidableEq, Repr

/-- `kvraw_append` with `ref` for its `off`; `false` is a failure. -/
def appendRef (s : KvdbSt) (ref : Nat) (key val : List UInt8) : Except Stop (Bool × KvdbSt) :=
  match kvrawAppend s.kvraw key val (s.index.maps ref).off with
  | .error e => .error e
  | .ok (none, kvraw) => .ok (false, { s with kvraw })
  | .ok (some off, kvraw) => .ok (true, { s with kvraw, index := setOff s.index ref off })

/-- The second half of `mutate`, once `chain_lookup` has answered `c`. -/
def mutateAt (s : KvdbSt) (ref : Nat) (key : List UInt8) (val : Option (List UInt8)) (valLen : Option Nat) (mode : Mode)
    (c : Chained) : Except Stop (Out × KvdbSt) :=
  let found := c.off ≠ 0 ∧ c.valLen ≠ 0
  let stored := (val.getD []).take (valLen.getD 0)
  match mode with
  | .remove =>
    let val := if valLen.isSome then c.val else val
    if ¬ found then .ok (⟨.invalid, val, valLen⟩, s)
    else
      match appendRef s ref key [] with
      | .error e => .error e
      | .ok (false, s) => .ok (⟨.fail, val, valLen⟩, s)
      | .ok (true, s) =>
        .ok (⟨.done, val, valLen.map fun _ => c.valLen⟩, { s with size := s.size - 1, waste := s.waste + 1 })
  | .insert =>
    if found then .ok (⟨.invalid, val, valLen⟩, s)
    else
      match appendRef s ref key stored with
      | .error e => .error e
      | .ok (false, s) => .ok (⟨.fail, val, valLen⟩, s)
      | .ok (true, s) => .ok (⟨.done, val, valLen⟩, { s with size := s.size + 1 })
  | .update =>
    let s := if ¬ found then { s with size := s.size + 1 } else { s with waste := s.waste + 1 }
    match appendRef s ref key stored with
    | .error e => .error e
    | .ok (false, s) => .ok (⟨.fail, val, valLen⟩, s)
    | .ok (true, s) => .ok (⟨.done, val, valLen⟩, s)
  | .replace =>
    if ¬ found then .ok (⟨.invalid, val, valLen⟩, s)
    else
      match appendRef s ref key stored with
      | .error e => .error e
      | .ok (false, s) => .ok (⟨.fail, val, valLen⟩, s)
      | .ok (true, s) => .ok (⟨.done, val, valLen⟩, { s with waste := s.waste + 1 })

def mutate (hash : List UInt8 → UInt64) (s : KvdbSt) (key : List UInt8) (val : Option (List UInt8))
    (valLen : Option Nat) (mode : Mode) : Except Stop (Out × KvdbSt) :=
  match indexUpdate hash s.index key with
  | .error e => .error e
  | .ok (ref, index) =>
    let val' := if mode = .remove ∧ valLen.isSome then val else none
    let valLen' := if mode = .remove then valLen.getD 0 else 0
    match chainLookup (s.kvraw.size + 1) s.kvraw key val' valLen' (index.maps ref).off with
    | .error e => .error e
    | .ok (none, kvraw) => .ok (⟨.fail, val, valLen⟩, { s with kvraw, index })
    | .ok (some c, kvraw) => mutateAt { s with kvraw, index } ref key val valLen mode c

/-! ## The entry points -/

/-- What all of them assert of the key. -/
def KeyOk (key : List UInt8) : Prop := key.length ≠ 0 ∧ key.length ≤ 0xffff

/-- What the storing ones assert of the value. -/
def ValOk (val : List UInt8) : Prop := val.length ≠ 0 ∧ val.length ≤ 0xffffffff

instance (key : List UInt8) : Decidable (KeyOk key) := inferInstanceAs (Decidable (_ ∧ _))

instance (val : List UInt8) : Decidable (ValOk val) := inferInstanceAs (Decidable (_ ∧ _))

/-- `kvdb_open`; `none` is `NULL`. -/
def kvdbOpen (device : Device) (junk : Nat → List UInt8) (sched : List Nat) (faults appendFails : List Bool) :
    Except Stop (Option KvdbSt) :=
  match kvrawOpen device junk sched faults appendFails with
  | .error e => .error e
  | .ok none => .ok none
  | .ok (some kvraw) => .ok (some ⟨0, 0, kvraw, indexOpen⟩)

def kvdbRemove (hash : List UInt8 → UInt64) (s : KvdbSt) (key : List UInt8) (val : Option (List UInt8))
    (valLen : Option Nat) : Except Stop (Out × KvdbSt) :=
  -- `!val_len || !!(*val_len) || val`
  if KeyOk key ∧ (valLen = none ∨ valLen ≠ some 0 ∨ val.isSome = true) then mutate hash s key val valLen .remove
  else .error .assert

/-- `kvdb_insert`, `kvdb_update` and `kvdb_replace` differ in the mode. -/
def kvdbStore (mode : Mode) (hash : List UInt8 → UInt64) (s : KvdbSt) (key val : List UInt8) :
    Except Stop (Out × KvdbSt) :=
  if KeyOk key ∧ ValOk val then mutate hash s key (some val) (some val.length) mode else .error .assert

def kvdbInsert : (List UInt8 → UInt64) → KvdbSt → List UInt8 → List UInt8 →
    Except Stop (Out × KvdbSt) := kvdbStore .insert

def kvdbUpdate : (List UInt8 → UInt64) → KvdbSt → List UInt8 → List UInt8 →
    Except Stop (Out × KvdbSt) := kvdbStore .update

def kvdbReplace : (List UInt8 → UInt64) → KvdbSt → List UInt8 → List UInt8 →
    Except Stop (Out × KvdbSt) := kvdbStore .replace

def kvdbLookup (hash : List UInt8 → UInt64) (s : KvdbSt) (key : List UInt8) (val : Option (List UInt8))
    (valLen : Option Nat) : Except Stop (Out × KvdbSt) :=
  -- `!val_len || !(*val_len) || val`
  if KeyOk key ∧ (valLen = none ∨ valLen = some 0 ∨ val.isSome = true) then
    match indexLookup hash s.index key with
    | .error e => .error e
    | .ok none => .ok (⟨.invalid, val, valLen⟩, s)
    | .ok (some ref) =>
      if (s.index.maps ref).off = 0 then .ok (⟨.invalid, val, valLen⟩, s)
      else
        let val' := if valLen.isSome then val else none
        match chainLookup (s.kvraw.size + 1) s.kvraw key val' (valLen.getD 0) (s.index.maps ref).off with
        | .error e => .error e
        | .ok (none, kvraw) => .ok (⟨.fail, val, valLen⟩, { s with kvraw })
        | .ok (some c, kvraw) =>
          let val := if valLen.isSome then c.val else val
          if c.off = 0 ∨ c.valLen = 0 then .ok (⟨.invalid, val, valLen⟩, { s with kvraw })
          else .ok (⟨.done, val, valLen.map fun _ => c.valLen⟩, { s with kvraw })
  else .error .assert

/-- `kvdb_size` and `kvdb_waste`. -/
def kvdbSize (s : KvdbSt) : UInt64 := s.size

def kvdbWaste (s : KvdbSt) : UInt64 := s.waste

end Cs238p.Kvdb
