/-
  Cs238p.Kvdb.Calls — `project-4/kvraw.c` and `project-4/kvdb.c` as programs that call the
  log.

  The store reaches its log through `logfs_append` and `logfs_read` only; all else that it
  touches is its own (`StoreFront`).

  Proved: on the log of `Log.lean` the programs are the functions of `Raw.lean` and
  `Store.lean` (`call_run`).
-/
import Cs238p.Lib.Calls
import Cs238p.Kvdb.StoreProofs

namespace Cs238p.Kvdb

open Calls
open Cs238p.Logfs (Stop LogfsSt)

/-! ## Programs -/

inductive LogAccess where
  | append (buf : List UInt8)
  | read (off len : Nat)

/-- Whether the append succeeded; the bytes, or `none` for a failed read. -/
abbrev LogAccess.Answer : LogAccess → Type
  | .append _ => Bool
  | .read _ _ => Option (List UInt8)

abbrev Keeper := Prog LogAccess LogAccess.Answer Stop

namespace Keeper

def readLog (off len : Nat) : Keeper (Option (List UInt8)) := Prog.call (LogAccess.read off len)

def appendLog (buf : List UInt8) : Keeper Bool := Prog.call (LogAccess.append buf)

-- `size` of the `kvraw`
variable (n : Nat)

/-- `read_meta`. -/
def readMeta (off : Nat) : Keeper (Option Meta) :=
  if off + 16 > n then return none
  else do
    match ← readLog off 16 with
    | none => return none
    | some bs =>
      let m := Meta.ofBytes bs
      if m.mark ≠ [75, 86] ∨ off + 16 + m.keyLen + m.valLen > n then return none else return some m

/-- `kvraw_lookup`. -/
def kvrawLookup (keyLen : Nat) (valNull : Bool) (valLen off : Nat) : Keeper (Option Found) :=
  if (valLen ≠ 0 ∧ valNull = true) ∨ off = 0 then .stop .assert
  else do
    match ← readMeta n off with
    | none => return none
    | some m =>
      match ← readLog (off + 16) (min m.keyLen keyLen) with
      | none => return none
      | some key =>
        match ← readLog (off + 16 + m.keyLen) (min m.valLen valLen) with
        | none => return none
        | some val => return some ⟨key, m.keyLen, val, m.valLen, m.off⟩

/-- `kvraw_append`, which answers whether it succeeded. -/
def kvrawAppend (key val : List UInt8) (prev : Nat) : Keeper Bool :=
  if key.length = 0 ∨ 0xffff < key.length ∨ 0xffffffff < val.length then .stop .assert
  else do
    if !(← appendLog (⟨[75, 86], prev, key.length, val.length⟩ : Meta).bytes) then return false
    if !(← appendLog key) then return false
    appendLog val

def chainLookup : Nat → List UInt8 → Option (List UInt8) → Nat → Nat → Keeper (Option Chained)
  | 0, _, _, _, _ => .stop .fuel
  | fuel + 1, key, val, valLen, off =>
    if off = 0 then return some ⟨val, valLen, 0⟩
    else do
      match ← kvrawLookup n (min key.length 256) val.isNone valLen off with
      | none => return none
      | some f =>
        let val := putPrefix val f.val
        if f.keyLen ≠ key.length ∨ f.key.take (min key.length 8) ≠ key.take (min key.length 8) then
          chainLookup fuel key val valLen f.off
        else if f.keyLen > 8 then
          match ← kvrawLookup n f.keyLen val.isNone 0 off with
          | none => return none
          | some g =>
            if g.key.take key.length = key then return some ⟨val, g.valLen, off⟩
            else chainLookup fuel key val valLen g.off
        else if f.key.take key.length = key then return some ⟨val, f.valLen, off⟩
        else chainLookup fuel key val valLen f.off

end Keeper

/-- The store without its log. -/
structure StoreFront where
  size : UInt64
  waste : UInt64
  rawSize : Nat
  index : Index

namespace StoreFront

/-- `kvraw_append` with `ref` for its `off`. -/
def appendRef (f : StoreFront) (ref : Nat) (key val : List UInt8) : Keeper (Bool × StoreFront) := do
  if ← Keeper.kvrawAppend key val (f.index.maps ref).off then
    return (true, { f with rawSize := f.rawSize + (16 + key.length + val.length), index := setOff f.index ref f.rawSize })
  else return (false, f)

/-- An append that ends a call: what it answers, and the counters after it. -/
def finishWith (f : StoreFront) (ref : Nat) (key stored : List UInt8) (failed done : Out) (size waste : UInt64) :
    Keeper (Out × StoreFront) := do
  let (ok, f) ← f.appendRef ref key stored
  if ok then return (done, { f with size, waste }) else return (failed, f)

def mutateAt (f : StoreFront) (ref : Nat) (key : List UInt8) (val : Option (List UInt8)) (valLen : Option Nat) (mode : Mode)
    (c : Chained) : Keeper (Out × StoreFront) :=
  let found := c.off ≠ 0 ∧ c.valLen ≠ 0
  let stored := (val.getD []).take (valLen.getD 0)
  match mode with
  | .remove =>
    let val := if valLen.isSome then c.val else val
    if ¬ found then return (⟨.invalid, val, valLen⟩, f)
    else
      f.finishWith ref key [] ⟨.fail, val, valLen⟩ ⟨.done, val, valLen.map fun _ => c.valLen⟩ (f.size - 1) (f.waste + 1)
  | .insert =>
    if found then return (⟨.invalid, val, valLen⟩, f)
    else f.finishWith ref key stored ⟨.fail, val, valLen⟩ ⟨.done, val, valLen⟩ (f.size + 1) f.waste
  | .update =>
    let f := if ¬ found then { f with size := f.size + 1 } else { f with waste := f.waste + 1 }
    f.finishWith ref key stored ⟨.fail, val, valLen⟩ ⟨.done, val, valLen⟩ f.size f.waste
  | .replace =>
    if ¬ found then return (⟨.invalid, val, valLen⟩, f)
    else f.finishWith ref key stored ⟨.fail, val, valLen⟩ ⟨.done, val, valLen⟩ f.size (f.waste + 1)

section

variable (hash : List UInt8 → UInt64) (f : StoreFront)

def mutate (key : List UInt8) (val : Option (List UInt8)) (valLen : Option Nat) (mode : Mode) : Keeper (Out × StoreFront) :=
  match indexUpdate hash f.index key with
  | .error e => .stop e
  | .ok (ref, index) => do
    let val' := if mode = .remove ∧ valLen.isSome then val else none
    let valLen' := if mode = .remove then valLen.getD 0 else 0
    match ← Keeper.chainLookup f.rawSize (f.rawSize + 1) key val' valLen' (index.maps ref).off with
    | none => return (⟨.fail, val, valLen⟩, { f with index })
    | some c => mutateAt { f with index } ref key val valLen mode c

/-- `kvdb_remove`. -/
def remove (key : List UInt8) (val : Option (List UInt8)) (valLen : Option Nat) : Keeper (Out × StoreFront) :=
  if KeyOk key ∧ (valLen = none ∨ valLen ≠ some 0 ∨ val.isSome = true) then mutate hash f key val valLen .remove
  else .stop .assert

/-- `kvdb_insert`, `kvdb_update` and `kvdb_replace`. -/
def store (mode : Mode) (key val : List UInt8) : Keeper (Out × StoreFront) :=
  if KeyOk key ∧ ValOk val then mutate hash f key (some val) (some val.length) mode else .stop .assert

/-- `kvdb_lookup`. -/
def lookup (key : List UInt8) (val : Option (List UInt8)) (valLen : Option Nat) : Keeper (Out × StoreFront) :=
  if KeyOk key ∧ (valLen = none ∨ valLen = some 0 ∨ val.isSome = true) then
    match indexLookup hash f.index key with
    | .error e => .stop e
    | .ok none => return (⟨.invalid, val, valLen⟩, f)
    | .ok (some ref) =>
      if (f.index.maps ref).off = 0 then return (⟨.invalid, val, valLen⟩, f)
      else do
        let val' := if valLen.isSome then val else none
        match ← Keeper.chainLookup f.rawSize (f.rawSize + 1) key val' (valLen.getD 0) (f.index.maps ref).off with
        | none => return (⟨.fail, val, valLen⟩, f)
        | some c =>
          let val := if valLen.isSome then c.val else val
          if c.off = 0 ∨ c.valLen = 0 then return (⟨.invalid, val, valLen⟩, f)
          else return (⟨.done, val, valLen.map fun _ => c.valLen⟩, f)
  else .stop .assert

/-- One call and its answer. -/
def call : Op → Keeper (Answer × StoreFront)
  | .insert key val => do
    let (o, f) ← store hash f .insert key val
    return (⟨o.ret, none, []⟩, f)
  | .update key val => do
    let (o, f) ← store hash f .update key val
    return (⟨o.ret, none, []⟩, f)
  | .replace key val => do
    let (o, f) ← store hash f .replace key val
    return (⟨o.ret, none, []⟩, f)
  | .remove key val valLen => do
    let (o, f) ← remove hash f key val valLen
    return (o.answer (valLen.getD 0), f)
  | .lookup key val valLen => do
    let (o, f) ← lookup hash f key val valLen
    return (o.answer (valLen.getD 0), f)

end

end StoreFront

/-! ## The log as a server -/

/-- The log, and which of the next appends to it fail. -/
structure LogSide where
  logfs : LogfsSt
  appendFails : List Bool

def LogSide.kvraw (l : LogSide) (size : Nat) : Kvraw := ⟨size, l.logfs, l.appendFails⟩

def Kvraw.side (k : Kvraw) : LogSide := ⟨k.logfs, k.appendFails⟩

def serveLog : (q : LogAccess) → LogSide → Except Stop (q.Answer × LogSide)
  | .append buf, l => (appendLog (l.kvraw 0) buf).map fun r => (r.1, r.2.side)
  | .read off len, l => (readLog (l.kvraw 0) off len).map fun r => (r.1, r.2.side)

/-- The store with its log. -/
def StoreFront.withLog (f : StoreFront) (l : LogSide) : KvdbSt := ⟨f.size, f.waste, l.kvraw f.rawSize, f.index⟩

variable {l : LogSide} {n : Nat}

/-! ## Records -/

theorem readLog_run (off len : Nat) :
    readLog (l.kvraw n) off len = ((Keeper.readLog off len).run serveLog id l).map fun r => (r.1, r.2.kvraw n) := by
  change _ = Except.map _ ((readLog (l.kvraw 0) off len).map _ >>= _)
  unfold readLog LogSide.kvraw
  simp only
  generalize Logfs.logfsRead l.logfs off len = w
  cases w with
  | error e => rfl
  | ok r => rfl

theorem appendLog_run (buf : List UInt8) :
    appendLog (l.kvraw n) buf = ((Keeper.appendLog buf).run serveLog id l).map fun r => (r.1, r.2.kvraw n) := by
  change _ = Except.map _ ((appendLog (l.kvraw 0) buf).map _ >>= _)
  unfold appendLog LogSide.kvraw
  simp only
  split
  · rfl
  · generalize Logfs.logfsAppend l.logfs buf = w
    cases w with
    | error e => rfl
    | ok r => rfl

theorem readMeta_run (off : Nat) :
    readMeta (l.kvraw n) off = ((Keeper.readMeta n off).run serveLog id l).map fun r => (r.1, r.2.kvraw n) := by
  rw [readMeta, Keeper.readMeta]
  by_cases hend : off + 16 > n
  · rw [if_pos hend, if_pos (show off + 16 > (l.kvraw n).size from hend)]
    rfl
  rw [if_neg hend, if_neg (show ¬ off + 16 > (l.kvraw n).size from hend), readLog_run, Prog.bind_eq, Prog.run_bind]
  cases (Keeper.readLog off 16).run serveLog id l with
  | error e => rfl
  | ok r =>
    obtain ⟨r, l⟩ := r
    cases r with
    | none => rfl
    | some bs =>
      simp only [Except.map, ok_bind]
      change (if (Meta.ofBytes bs).mark ≠ [75, 86] ∨ off + 16 + (Meta.ofBytes bs).keyLen + (Meta.ofBytes bs).valLen > n then _ else _) = _
      split
      · rfl
      · rfl

theorem kvrawLookup_run (keyLen : Nat) (valNull : Bool) (valLen off : Nat) :
    kvrawLookup (l.kvraw n) keyLen valNull valLen off =
      ((Keeper.kvrawLookup n keyLen valNull valLen off).run serveLog id l).map fun r => (r.1, r.2.kvraw n) := by
  rw [kvrawLookup, Keeper.kvrawLookup]
  split
  · rfl
  rw [readMeta_run, Prog.bind_eq, Prog.run_bind]
  cases (Keeper.readMeta n off).run serveLog id l with
  | error e => rfl
  | ok r =>
    obtain ⟨r, l⟩ := r
    cases r with
    | none => rfl
    | some m =>
      simp only [Except.map, ok_bind]
      rw [readLog_run, Prog.bind_eq, Prog.run_bind]
      cases (Keeper.readLog (off + 16) (min m.keyLen keyLen)).run serveLog id l with
      | error e => rfl
      | ok r =>
        obtain ⟨r, l⟩ := r
        cases r with
        | none => rfl
        | some key =>
          simp only [Except.map, ok_bind]
          rw [readLog_run, Prog.bind_eq, Prog.run_bind]
          cases (Keeper.readLog (off + 16 + m.keyLen) (min m.valLen valLen)).run serveLog id l with
          | error e => rfl
          | ok r =>
            obtain ⟨r, l⟩ := r
            cases r with
            | none => rfl
            | some val => rfl

theorem kvrawAppend_run (key val : List UInt8) (prev : Nat) :
    kvrawAppend (l.kvraw n) key val prev = ((Keeper.kvrawAppend key val prev).run serveLog id l).map fun r =>
      if r.1 then (some n, r.2.kvraw (n + (16 + key.length + val.length))) else (none, r.2.kvraw n) := by
  rw [kvrawAppend, Keeper.kvrawAppend]
  split
  · rfl
  simp only
  rw [appendLog_run, Prog.bind_eq, Prog.run_bind]
  cases (Keeper.appendLog (⟨[75, 86], prev, key.length, val.length⟩ : Meta).bytes).run serveLog id l with
  | error e => rfl
  | ok r =>
    obtain ⟨r, l⟩ := r
    cases r with
    | false => rfl
    | true =>
      simp only [Except.map, ok_bind]
      rw [appendLog_run]
      change _ = Except.map _ (((Keeper.appendLog key).bind _).run serveLog id l)
      rw [Prog.run_bind]
      cases (Keeper.appendLog key).run serveLog id l with
      | error e => rfl
      | ok r =>
        obtain ⟨r, l⟩ := r
        cases r with
        | false => rfl
        | true =>
          simp only [Except.map, ok_bind]
          rw [appendLog_run]
          change _ = Except.map _ ((Keeper.appendLog val).run serveLog id l)
          cases (Keeper.appendLog val).run serveLog id l with
          | error e => rfl
          | ok r =>
            obtain ⟨r, l⟩ := r
            cases r with
            | false => rfl
            | true => rfl

theorem chainLookup_run : ∀ (fuel : Nat) {l : LogSide} {key : List UInt8} {val : Option (List UInt8)} {valLen off : Nat},
    chainLookup fuel (l.kvraw n) key val valLen off =
      ((Keeper.chainLookup n fuel key val valLen off).run serveLog id l).map fun r => (r.1, r.2.kvraw n) := by
  intro fuel
  induction fuel with
  | zero => exact fun {l key val valLen off} => rfl
  | succ fuel ih =>
    intro l key val valLen off
    rw [chainLookup, Keeper.chainLookup]
    split
    · rfl
    rw [kvrawLookup_run, Prog.bind_eq, Prog.run_bind]
    cases (Keeper.kvrawLookup n (min key.length 256) val.isNone valLen off).run serveLog id l with
    | error e => rfl
    | ok r =>
      obtain ⟨r, l⟩ := r
      cases r with
      | none => rfl
      | some f =>
        simp only [Except.map, ok_bind]
        split
        · exact ih
        split
        · rw [kvrawLookup_run]
          simp only [Prog.bind_eq, Prog.run_bind]
          cases (Keeper.kvrawLookup n f.keyLen (putPrefix val f.val).isNone 0 off).run serveLog id l with
          | error e => rfl
          | ok r =>
            obtain ⟨r, l⟩ := r
            cases r with
            | none => rfl
            | some g =>
              simp only [Except.map, ok_bind]
              split
              · rfl
              · exact ih
        split
        · rfl
        · exact ih

/-! ## Calls of the store -/

variable {f : StoreFront} {key : List UInt8} {val : Option (List UInt8)} {valLen : Option Nat}

/-- A call of the store, and the program that makes it. -/
def Runs {α : Type} (x : Except Stop (α × KvdbSt)) (p : Keeper (α × StoreFront)) (l : LogSide) : Prop :=
  x = (p.run serveLog id l).map fun r => (r.1.1, r.1.2.withLog r.2)

theorem finish_run (ref : Nat) (key v : List UInt8) (failed done : Out) (g h : UInt64 → UInt64) :
    Runs (finish (f.withLog l) ref key v failed done g h) (f.finishWith ref key v failed done (g f.size) (h f.waste)) l := by
  have hraw : (f.withLog l).kvraw = l.kvraw f.rawSize := rfl
  have hindex : (f.withLog l).index = f.index := rfl
  unfold Runs
  simp only [finish, appendRef, hraw, hindex, kvrawAppend_run, StoreFront.finishWith, StoreFront.appendRef, Prog.bind_eq,
    Prog.run_bind]
  generalize (Keeper.kvrawAppend key v (f.index.maps ref).off).run serveLog id l = x
  cases x with
  | error e => rfl
  | ok r =>
    obtain ⟨r, l⟩ := r
    cases r with
    | false => rfl
    | true => rfl

theorem mutateAt_run (ref : Nat) (mode : Mode) (c : Chained) :
    Runs (mutateAt (f.withLog l) ref key val valLen mode c) (f.mutateAt ref key val valLen mode c) l := by
  by_cases hfound : c.off ≠ 0 ∧ c.valLen ≠ 0
  · cases mode with
    | remove =>
      simp only [mutateAt, StoreFront.mutateAt, if_neg (not_not_intro hfound)]
      exact finish_run ref key [] _ _ (· - 1) (· + 1)
    | insert =>
      simp only [mutateAt, StoreFront.mutateAt, if_pos hfound]
      rfl
    | update =>
      simp only [mutateAt, StoreFront.mutateAt, if_neg (not_not_intro hfound)]
      exact @finish_run l { f with waste := f.waste + 1 } ref key _ _ _ id id
    | replace =>
      simp only [mutateAt, StoreFront.mutateAt, if_neg (not_not_intro hfound)]
      exact finish_run ref key _ _ _ id (· + 1)
  · cases mode with
    | remove =>
      simp only [mutateAt, StoreFront.mutateAt, if_pos hfound]
      rfl
    | insert =>
      simp only [mutateAt, StoreFront.mutateAt, if_neg hfound]
      exact finish_run ref key _ _ _ (· + 1) id
    | update =>
      simp only [mutateAt, StoreFront.mutateAt, if_pos hfound]
      exact @finish_run l { f with size := f.size + 1 } ref key _ _ _ id id
    | replace =>
      simp only [mutateAt, StoreFront.mutateAt, if_pos hfound]
      rfl

variable {hash : List UInt8 → UInt64}

theorem mutate_run (mode : Mode) :
    Runs (mutate hash (f.withLog l) key val valLen mode) (f.mutate hash key val valLen mode) l := by
  have hindex : (f.withLog l).index = f.index := rfl
  have hraw : (f.withLog l).kvraw = l.kvraw f.rawSize := rfl
  have hsize : (l.kvraw f.rawSize).size = f.rawSize := rfl
  rw [mutate, StoreFront.mutate, hindex]
  cases indexUpdate hash f.index key with
  | error e => rfl
  | ok r =>
    obtain ⟨ref, index⟩ := r
    unfold Runs
    simp only [hraw, hsize, chainLookup_run, Prog.bind_eq, Prog.run_bind]
    generalize (Keeper.chainLookup f.rawSize (f.rawSize + 1) key _ _ (index.maps ref).off).run serveLog id l = x
    cases x with
    | error e => rfl
    | ok r =>
      obtain ⟨r, l⟩ := r
      cases r with
      | none => rfl
      | some c => exact @mutateAt_run l { f with index } key val valLen ref mode c

theorem store_run (mode : Mode) (key val : List UInt8) :
    Runs (kvdbStore mode hash (f.withLog l) key val) (f.store hash mode key val) l := by
  rw [kvdbStore, StoreFront.store]
  split
  · exact mutate_run mode
  · rfl

theorem remove_run : Runs (kvdbRemove hash (f.withLog l) key val valLen) (f.remove hash key val valLen) l := by
  rw [kvdbRemove, StoreFront.remove]
  split
  · exact mutate_run .remove
  · rfl

theorem lookup_run : Runs (kvdbLookup hash (f.withLog l) key val valLen) (f.lookup hash key val valLen) l := by
  have hindex : (f.withLog l).index = f.index := rfl
  have hraw : (f.withLog l).kvraw = l.kvraw f.rawSize := rfl
  have hsize : (l.kvraw f.rawSize).size = f.rawSize := rfl
  rw [kvdbLookup, StoreFront.lookup, hindex]
  split
  · cases indexLookup hash f.index key with
    | error e => rfl
    | ok r =>
      cases r with
      | none => rfl
      | some ref =>
        simp only
        split
        · rfl
        · unfold Runs
          simp only [hraw, hsize, chainLookup_run, Prog.bind_eq, Prog.run_bind]
          generalize (Keeper.chainLookup f.rawSize (f.rawSize + 1) key _ _ (f.index.maps ref).off).run serveLog id l = x
          cases x with
          | error e => rfl
          | ok r =>
            obtain ⟨r, l⟩ := r
            cases r with
            | none => rfl
            | some c =>
              simp only [Except.map, ok_bind]
              generalize (if valLen.isSome = true then c.val else val) = val
              split
              · rfl
              · rfl
  · rfl

/-- The store's calls on the log are what the programs do on it. -/
theorem call_run (op : Op) : Runs (call hash (f.withLog l) op) (f.call hash op) l := by
  have put : ∀ {x : Except Stop (Out × KvdbSt)} {p : Keeper (Out × StoreFront)} (g : Out → Answer), Runs x p l →
      Runs (x.map fun r => (g r.1, r.2)) (p.bind fun r => .ret (g r.1, r.2)) l := by
    intro x p g h
    unfold Runs at h ⊢
    rw [h, Prog.run_bind]
    cases p.run serveLog id l with
    | error e => rfl
    | ok r => rfl
  cases op with
  | insert key val => exact put (fun o => ⟨o.ret, none, []⟩) (store_run .insert key val)
  | update key val => exact put (fun o => ⟨o.ret, none, []⟩) (store_run .update key val)
  | replace key val => exact put (fun o => ⟨o.ret, none, []⟩) (store_run .replace key val)
  | remove key val valLen => exact put (·.answer (valLen.getD 0)) remove_run
  | lookup key val valLen => exact put (·.answer (valLen.getD 0)) lookup_run

end Cs238p.Kvdb
