/-
  Cs238p.Shell.ReadLine — `read_line` (`project-3/shell.c`): a line is edited in its slot of
  the history.

  The text is a string in memory, `i` the cursor and `n` the length, and every key keeps the
  three by itself. What goes to the terminal is left out.
-/
import Cs238p.Shell.Strtrim

namespace Cs238p.Shell

open ByteMemory

/-- History slots. -/
def H : Nat := 96

/-- Bytes per slot. -/
def N : Nat := 160

/-- `state.history[j]`. -/
def slot (base : Nat) (j : Int) : Nat := ((base : Int) + N * j).toNat

/-- `p + i`. -/
def addr (p : Nat) (i : Int) : Nat := ((p : Int) + i).toNat

/-- `(int)safe_strlen(p)`. -/
@[irreducible] def intStrlen (m : Mem) (p : Nat) : Int := (safeStrlen m p : Int).bmod (2 ^ 32)

/-- The variables of `read_line`; `written` is where bytes were stored, and how many. -/
structure Ed where
  mem : Mem
  i : Int
  n : Int
  j : Int
  written : List (Nat × Nat)

/-- One pass of the loop. The end of the input, and any other character after an escape, are
    ignored like a control character. -/
inductive Key where
  /-- 27, a character that is not looked at, and `c`. -/
  | escape (c : UInt8)
  | plain (k : UInt8) (h : k ≠ 27 ∧ k ≠ 10)
  deriving DecidableEq

/-- `isprint`, in the C locale. -/
def isprint (k : UInt8) : Bool := decide (32 ≤ k) && decide (k ≤ 126)

namespace Ed

def put (e : Ed) (p : Nat) (bs : List UInt8) : Ed :=
  { e with mem := e.mem.write p bs, written := (p, bs.length) :: e.written }

def memmove (e : Ed) (d s n : Nat) : Ed := e.put d (e.mem.read s n)

/-- Up to the NUL, which is repeated to the `n`-th byte. -/
def strncpy (e : Ed) (d s n : Nat) : Ed :=
  e.put d (e.mem.read s (strlen e.mem n s) ++ List.replicate (n - strlen e.mem n s) 0)

variable (base buf : Nat)

/-- `i = n = (int)safe_strlen(buf)` -/
def toEnd (e : Ed) : Ed := { e with i := intStrlen e.mem buf, n := intStrlen e.mem buf }

/-- The line is that of slot `j`, or empty in the slot of the line itself. -/
def browse (e : Ed) (j : Int) : Ed :=
  let e := { e.put buf [0] with j := j }
  (if buf ≠ slot base j then e.strncpy buf (slot base j) N else e).toEnd buf

def up (e : Ed) : Ed := if 0 < e.j then e.browse base buf (e.j - 1) else e

def down (sn : Int) (e : Ed) : Ed := if sn > e.j then e.browse base buf (e.j + 1) else e

def right (e : Ed) : Ed := { e with i := if e.i < e.n then e.i + 1 else e.n }

def left (e : Ed) : Ed := { e with i := if e.i > 0 then e.i - 1 else 0 }

def kill (e : Ed) : Ed := (e.put (addr buf e.i) [0]).toEnd buf

def deleteHere (e : Ed) : Ed :=
  if e.n > e.i then
    { e.memmove (addr buf e.i) (addr buf (e.i + 1)) (safeStrlen e.mem (addr buf (e.i + 1)) + 1) with n := e.n - 1 }
  else e

def deleteBack (e : Ed) : Ed :=
  if 0 < e.i then
    { e.memmove (addr buf (e.i - 1)) (addr buf e.i) (safeStrlen e.mem (addr buf e.i) + 1) with
      i := e.i - 1, n := e.n - 1 }
  else e

/-- The NUL moves with the text. -/
def blank (e : Ed) : Ed :=
  if (N : Int) > e.n then
    { (e.memmove (addr buf (e.i + 1)) (addr buf e.i) (safeStrlen e.mem (addr buf e.i) + 1)).put (addr buf e.i) [32] with
      i := e.i + 1, n := e.n + 1 }
  else e

/-- The characters from the cursor on are moved, without the NUL. -/
def moveRest (e : Ed) : Ed :=
  if e.i < e.n then e.memmove (addr buf (e.i + 1)) (addr buf e.i) (safeStrlen e.mem (addr buf e.i)) else e

/-- The NUL is written anew. -/
def type (k : UInt8) (e : Ed) : Ed :=
  if e.n + 1 < (N : Int) then
    let e := e.moveRest buf
    let e := { e.put (addr buf e.i) [k] with i := e.i + 1, n := e.n + 1 }
    e.put (addr buf e.n) [0]
  else e

/-- What `read_line` does with a key; `sn` is `state.n`. -/
def press (sn : Int) (e : Ed) : Key → Ed
  | .escape c =>
    if c = 65 then e.up base buf else if c = 66 then e.down base buf sn else if c = 67 then e.right
    else if c = 68 then e.left else e
  | .plain k _ =>
    if k = 11 then e.kill buf else if k = 12 then e else if k = 4 then e.deleteHere buf
    else if k = 8 ∨ k = 127 then e.deleteBack buf else if k = 32 ∨ k = 9 then e.blank buf
    else if isprint k then e.type buf k else e

/-- Before the first key. -/
def start (sn : Int) (m : Mem) : Ed := ⟨m, intStrlen m (slot base sn), intStrlen m (slot base sn), sn, []⟩

def run (sn : Int) (e : Ed) (keys : List Key) : Ed := keys.foldl (press base (slot base sn) sn) e

end Ed

/-! ## Sessions -/

/-- `state.i`, `state.n`, and the line that is edited. -/
structure Session where
  i : Int
  n : Int
  ed : Ed

/-- A key, or the newline; the callback may then change the line, and anything else that is
    in memory. -/
inductive Event where
  | key (k : Key)
  | enter (fnc : Mem → Mem)

namespace Session

variable (base : Nat)

/-- `read_line` is called. -/
def edit (n : Int) (m : Mem) : Session := ⟨n, n, Ed.start base n m⟩

/-- `read_line` returns; a line without text is not given to the callback. -/
def enter (s : Session) (fnc : Mem → Mem) : Session :=
  let buf := slot base s.i
  let m := shellStrtrim s.ed.mem buf
  if safeStrlen m buf ≠ 0 then
    if s.i = s.n then
      let n := s.n + 1
      let n := if (H : Int) > n then n else H
      edit base n (fnc (m.write (slot base n) [0]))
    else edit base s.n (fnc m)
  else edit base s.n m

def step (s : Session) : Event → Session
  | .key k => { s with ed := s.ed.press base (slot base s.i) s.n k }
  | .enter fnc => s.enter base fnc

def run (s : Session) (events : List Event) : Session := events.foldl (step base) s

end Session

/-- What holds of every prefix. -/
theorem forall_prefix_cons {α : Type} {a : α} {l : List α} {P : List α → Prop} :
    (∀ pre, pre <+: a :: l → P pre) ↔ P [] ∧ ∀ pre, pre <+: l → P (a :: pre) := by
  constructor
  · intro h
    exact ⟨h [] List.nil_prefix, fun pre hp => h (a :: pre) (List.cons_prefix_cons.mpr ⟨rfl, hp⟩)⟩
  · rintro ⟨h0, h⟩ pre hp
    rcases List.prefix_cons_iff.mp hp with rfl | ⟨t, rfl, ht⟩
    · exact h0
    · exact h t ht

end Cs238p.Shell
