/-
  Cs238p.Shell.Editor — the line that `read_line` edits is that of an editor of one string.

  A blank is accepted when the line has `N` - 1 characters, where a printable character is
  not: it goes into the slot's last byte, and the NUL into the next slot
  (`a_blank_leaves_the_slot`).

  Proved, of all keys: cursor, length and text are those of the reference editor and all
  writes are inside the slot, iff no blank comes when the line is full (`stays_in_slot_iff`).
-/
import Cs238p.Shell.ReadLine

namespace Cs238p.Shell

open ByteMemory

/-! ## The reference editor -/

/-- A string with a cursor; `j` is the line of the history that it came from. -/
structure Line where
  text : List UInt8
  cursor : Nat
  j : Nat
  deriving DecidableEq

def blankKey (k : UInt8) : Bool := k == 32 || k == 9

namespace Line

variable (saved : List (List UInt8))

/-- A line of the history, or a new one. -/
def browse (j : Nat) : Line := ⟨saved.getD j [], (saved.getD j []).length, j⟩

/-- The characters before the cursor and after it are replaced. -/
def edit (l : Line) (front back : List UInt8) : Line := ⟨front ++ back, front.length, l.j⟩

/-- Refused when there are `N` - 1 characters. -/
def insert (l : Line) (c : UInt8) : Line :=
  if l.text.length + 1 < N then l.edit (l.text.take l.cursor ++ [c]) (l.text.drop l.cursor) else l

def press (l : Line) : Key → Line
  | .escape c =>
    if c = 65 then if 0 < l.j then browse saved (l.j - 1) else l
    else if c = 66 then if l.j < saved.length then browse saved (l.j + 1) else l
    else if c = 67 then { l with cursor := min (l.cursor + 1) l.text.length }
    else if c = 68 then { l with cursor := l.cursor - 1 }
    else l
  | .plain k _ =>
    if k = 11 then l.edit (l.text.take l.cursor) []
    else if k = 4 then l.edit (l.text.take l.cursor) (l.text.drop (l.cursor + 1))
    else if k = 8 ∨ k = 127 then l.edit (l.text.take (l.cursor - 1)) (l.text.drop l.cursor)
    else if blankKey k then l.insert 32
    else if isprint k then l.insert k
    else l

/-- Before the first key: the text in the new line's slot, cursor at its end. -/
def start (text : List UInt8) : Line := ⟨text, text.length, saved.length⟩

def run (l : Line) (keys : List Key) : Line := keys.foldl (press saved) l

end Line

/-- No blank when the line is full. -/
def Fits (l : Line) : Key → Prop
  | .escape _ => True
  | .plain k _ => blankKey k = true → l.text.length + 1 < N

instance (l : Line) : (k : Key) → Decidable (Fits l k)
  | .escape _ => .isTrue trivial
  | .plain k _ => inferInstanceAs (Decidable (blankKey k = true → l.text.length + 1 < N))

/-- The editor is where the reference is, and has not left its slot. -/
structure InSlot (buf : Nat) (e : Ed) (l : Line) : Prop where
  nonneg : 0 ≤ e.i
  cursor_le : e.i ≤ e.n
  length_eq : e.n = intStrlen e.mem buf
  length_le : e.n ≤ N - 1
  inside : ∀ w ∈ e.written, buf ≤ w.1 ∧ w.1 + w.2 ≤ buf + N
  text : StrAt e.mem buf l.text
  cursor : e.i = l.cursor

/-! ## The invariant -/

/-- The lines of the history are in their slots. -/
structure Saved (base : Nat) (m : Mem) (saved : List (List UInt8)) : Prop where
  strs : ∀ (j : Nat) (hj : j < saved.length), StrAt m (base + N * j) saved[j]
  short : ∀ s ∈ saved, s.length < N

structure Good (base : Nat) (saved : List (List UInt8)) (e : Ed) (l : Line) : Prop where
  history : Saved base e.mem saved
  text : StrAt e.mem (base + N * saved.length) l.text
  i : e.i = l.cursor
  n : e.n = l.text.length
  j : e.j = l.j
  cursor_le : l.cursor ≤ l.text.length
  full : l.text.length < N
  j_le : l.j ≤ saved.length
  inside : ∀ w ∈ e.written, base + N * saved.length ≤ w.1 ∧ w.1 + w.2 ≤ base + N * saved.length + N

variable {base p i : Nat} {saved : List (List UInt8)} {e : Ed} {l : Line} {m m' : Mem} {s u : List UInt8} {c : UInt8}

@[simp] theorem slot_natCast (base j : Nat) : slot base (j : Int) = base + N * j := by
  rw [slot]
  omega

@[simp] theorem addr_natCast (p i : Nat) : addr p (i : Int) = p + i := by
  rw [addr]
  omega

@[simp] theorem addr_succ (p i : Nat) : addr p ((i : Int) + 1) = p + (i + 1) := by
  rw [addr]
  omega

theorem safeStrlen_eq (h : StrAt m p s) (hs : s.length < N) : safeStrlen m p = s.length := by
  have hN : N = 160 := rfl
  have hlt : s.length < 2 ^ 64 := by omega
  exact h.strlen hlt

theorem intStrlen_eq (h : StrAt m p s) (hs : s.length < N) : intStrlen m p = s.length := by
  have hN : N = 160 := rfl
  have hsmall : (s.length : Int).bmod (2 ^ 32) = s.length := by
    apply Int.bmod_eq_of_le
    · omega
    · omega
  unfold intStrlen
  exact (congrArg (fun n : Nat => (n : Int).bmod (2 ^ 32)) (safeStrlen_eq h hs)).trans hsmall

theorem Good.inSlot (h : Good base saved e l) : InSlot (base + N * saved.length) e l := by
  have hfull := h.full
  have hle := h.cursor_le
  refine ⟨?_, ?_, ?_, ?_, h.inside, h.text, h.i⟩
  · rw [h.i]
    omega
  · rw [h.i, h.n]
    omega
  · rw [h.n, intStrlen_eq h.text hfull]
  · rw [h.n]
    omega

/-- What is written in the line's slot leaves the history alone. -/
theorem Saved.congr (h : Saved base m saved) (hm : ∀ x, x < base + N * saved.length → m'.byte x = m.byte x) :
    Saved base m' saved := by
  refine ⟨fun j hj => ?_, h.short⟩
  have hlen := h.short _ (List.getElem_mem hj)
  have hslot : N * j + N ≤ N * saved.length := by
    rw [← Nat.mul_succ]
    exact Nat.mul_le_mul_left N hj
  apply (h.strs j hj).congr
  intro x _ hx
  exact hm x (by omega)

/-! ## What one key does -/

@[simp] theorem put_mem (e : Ed) (p : Nat) (bs : List UInt8) : (e.put p bs).mem = e.mem.write p bs := rfl
@[simp] theorem put_written (e : Ed) (p : Nat) (bs : List UInt8) :
    (e.put p bs).written = (p, bs.length) :: e.written := rfl

theorem byte_put_same (e : Ed) (p : Nat) (c : UInt8) : (e.put p [c]).mem.byte p = c := by
  rw [put_mem, Mem.byte_write_in (Nat.le_refl _) (by simp)]
  simp

/-- A move of a string's end, with its NUL. -/
theorem memmove_tail (h : StrAt e.mem p s) (hs : s.length < N) (hi : i ≤ s.length) (d : Nat) :
    e.memmove d (p + i) (safeStrlen e.mem (p + i) + 1) = e.put d (s.drop i ++ [0]) := by
  have htail := h.drop hi
  have hlen : (s.drop i).length < N := by
    rw [List.length_drop]
    omega
  rw [Ed.memmove, safeStrlen_eq htail hlen, htail.read]

/-- The text's end is replaced. -/
theorem Good.splice (h : Good base saved e l) {e' : Ed} (hi : i ≤ l.text.length) (hu : ∀ b ∈ u, b ≠ 0)
    (hfull : i + u.length < N) (hm : e'.mem = e.mem.write (base + N * saved.length + i) (u ++ [0])) (hi' : e'.i = i)
    (hn : e'.n = ((i + u.length : Nat) : Int)) (hj : e'.j = e.j)
    (hw : e'.written = (base + N * saved.length + i, (u ++ [0]).length) :: e.written) :
    Good base saved e' (l.edit (l.text.take i) u) := by
  have hlen : (l.text.take i).length = i := List.length_take_of_le hi
  rw [Line.edit, hlen]
  constructor
  · apply h.history.congr
    intro x hx
    rw [hm]
    exact Mem.byte_write_out (by omega)
  · rw [hm]
    exact h.text.splice hi hu
  · exact hi'
  · rw [hn, List.length_append, hlen]
  · rw [hj, h.j]
  · rw [List.length_append, hlen]
    exact Nat.le_add_right _ _
  · rw [List.length_append, hlen]
    exact hfull
  · exact h.j_le
  · intro w hmem
    rw [hw] at hmem
    rcases List.mem_cons.mp hmem with rfl | hmem
    · rw [List.length_append, List.length_singleton]
      omega
    · exact h.inside w hmem

/-- A character is put before the cursor, by writes inside the slot. -/
theorem Good.insert (h : Good base saved e l) {e' : Ed} (hc : c ≠ 0) (hfull : l.text.length + 1 < N)
    (front : ∀ x, x < base + N * saved.length + l.cursor → e'.mem.byte x = e.mem.byte x)
    (here : e'.mem.byte (base + N * saved.length + l.cursor) = c)
    (back : ∀ (k : Nat) (hk : k < l.text.length), l.cursor ≤ k →
      e'.mem.byte (base + N * saved.length + k + 1) = l.text[k])
    (stop : e'.mem.byte (base + N * saved.length + l.text.length + 1) = 0)
    (hi : e'.i = e.i + 1) (hn : e'.n = e.n + 1) (hj : e'.j = e.j)
    (hw : ∀ w ∈ e'.written, w ∈ e.written ∨
      base + N * saved.length ≤ w.1 ∧ w.1 + w.2 ≤ base + N * saved.length + l.text.length + 2) :
    Good base saved e' (l.insert c) := by
  have hle := h.cursor_le
  have hlen : (l.text.take l.cursor).length = l.cursor := List.length_take_of_le hle
  have hall : (l.text.take l.cursor ++ [c] ++ l.text.drop l.cursor).length = l.text.length + 1 := by
    rw [List.length_append, List.length_append, List.length_singleton, hlen, List.length_drop]
    omega
  rw [Line.insert, if_pos hfull, Line.edit]
  constructor
  · exact h.history.congr fun x hx => front x (by omega)
  · rw [List.append_assoc]
    apply strAt_insert h.text.noNul hc hle
    · intro k hk hlt
      rw [front _ (by omega)]
      exact h.text.byte hk
    · exact here
    · exact back
    · exact stop
  · rw [hi, h.i, List.length_append, hlen]
    rfl
  · rw [hn, h.n, hall]
    rfl
  · rw [hj, h.j]
  · rw [hall, List.length_append, hlen, List.length_singleton]
    exact Nat.succ_le_succ hle
  · rw [hall]
    exact hfull
  · exact h.j_le
  · intro w hmem
    rcases hw w hmem with hold | hnew
    · exact h.inside w hold
    · omega

theorem Good.kill (h : Good base saved e l) :
    Good base saved (e.kill (base + N * saved.length)) (l.edit (l.text.take l.cursor) []) := by
  have hle := h.cursor_le
  have hfull := h.full
  have hlen : (l.text.take l.cursor).length = l.cursor := List.length_take_of_le hle
  -- where the text now ends
  have hcut := h.text.splice hle (u := []) (by simp)
  rw [List.append_nil] at hcut
  have hstr := intStrlen_eq hcut (by omega)
  rw [hlen] at hstr
  rw [Ed.kill, h.i, addr_natCast]
  exact h.splice hle (by simp) (by simp; omega) rfl hstr hstr rfl rfl

theorem Good.deleteHere (h : Good base saved e l) :
    Good base saved (e.deleteHere (base + N * saved.length))
      (l.edit (l.text.take l.cursor) (l.text.drop (l.cursor + 1))) := by
  have hle := h.cursor_le
  have hfull := h.full
  rw [Ed.deleteHere]
  by_cases hlt : l.cursor < l.text.length
  · rw [if_pos (by rw [h.i, h.n]; omega), h.i, addr_natCast, addr_succ, memmove_tail h.text hfull (by omega)]
    apply h.splice hle
    · exact fun b hb => h.text.noNul b (List.mem_of_mem_drop hb)
    · rw [List.length_drop]
      omega
    · rfl
    · exact h.i
    · rw [List.length_drop]
      simp only [h.n]
      omega
    · rfl
    · rfl
  · rw [if_neg (by rw [h.i, h.n]; omega), Line.edit, List.take_of_length_le (by omega),
      List.drop_of_length_le (by omega), List.append_nil, Nat.le_antisymm (by omega) hle]
    exact h

theorem Good.deleteBack (h : Good base saved e l) :
    Good base saved (e.deleteBack (base + N * saved.length))
      (l.edit (l.text.take (l.cursor - 1)) (l.text.drop l.cursor)) := by
  have hle := h.cursor_le
  have hfull := h.full
  rw [Ed.deleteBack]
  by_cases h0 : 0 < l.cursor
  · have hprev : (l.cursor : Int) - 1 = ((l.cursor - 1 : Nat) : Int) := by omega
    rw [if_pos (by rw [h.i]; omega), h.i, hprev, addr_natCast, addr_natCast, memmove_tail h.text hfull hle]
    apply h.splice (by omega)
    · exact fun b hb => h.text.noNul b (List.mem_of_mem_drop hb)
    · rw [List.length_drop]
      omega
    · rfl
    · rfl
    · rw [List.length_drop]
      simp only [h.n]
      omega
    · rfl
    · rfl
  · have hzero : l.cursor = 0 := by omega
    rw [if_neg (by rw [h.i]; omega), Line.edit, hzero]
    have hsame : (⟨[] ++ l.text, 0, l.j⟩ : Line) = l := by rw [List.nil_append, ← hzero]
    exact hsame.symm ▸ h

theorem Good.moveTo (h : Good base saved e l) {k : Nat} (hk : k ≤ l.text.length) :
    Good base saved { e with i := k } { l with cursor := k } :=
  ⟨h.history, h.text, rfl, h.n, h.j, hk, h.full, h.j_le, h.inside⟩

theorem Good.right (h : Good base saved e l) :
    Good base saved e.right { l with cursor := min (l.cursor + 1) l.text.length } := by
  have hle := h.cursor_le
  have hi : (if e.i < e.n then e.i + 1 else e.n) = ((min (l.cursor + 1) l.text.length : Nat) : Int) := by
    rw [h.i, h.n]
    split <;> omega
  rw [Ed.right, hi]
  exact h.moveTo (by omega)

theorem Good.left (h : Good base saved e l) : Good base saved e.left { l with cursor := l.cursor - 1 } := by
  have hle := h.cursor_le
  have hi : (if e.i > 0 then e.i - 1 else 0) = ((l.cursor - 1 : Nat) : Int) := by
    rw [h.i]
    split <;> omega
  rw [Ed.left, hi]
  exact h.moveTo (by omega)

/-! ### The history -/

/-- A short string, copied to a slot with the padding. -/
theorem strAt_padded (m : Mem) (p : Nat) (hs : ∀ b ∈ s, b ≠ 0) {n : Nat} (hlt : s.length < n) :
    StrAt (m.write p (s ++ List.replicate (n - s.length) 0)) p s := by
  apply strAt_of_bytes
  · intro k hk
    rw [Mem.byte_write_in (by omega) (by rw [List.length_append]; omega)]
    simp [List.getElem_append_left, hk]
  · rw [Mem.byte_write_in (by omega) (by simp; omega)]
    simp
  · exact hs

/-- A line is opened: the slot of the line holds it, or the line is empty. -/
theorem Good.opened (h : Good base saved e l) {e' : Ed} {j : Nat} (hj : j ≤ saved.length)
    (hm : ∀ x, x < base + N * saved.length → e'.mem.byte x = e.mem.byte x)
    (ht : StrAt e'.mem (base + N * saved.length) (saved.getD j [])) (hj' : e'.j = j)
    (hw : ∀ w ∈ e'.written, w ∈ e.written ∨
      base + N * saved.length ≤ w.1 ∧ w.1 + w.2 ≤ base + N * saved.length + N) :
    Good base saved (e'.toEnd (base + N * saved.length)) (Line.browse saved j) := by
  have hshort : (saved.getD j []).length < N := by
    by_cases hlt : j < saved.length
    · rw [List.getD_eq_getElem _ _ hlt]
      exact h.history.short _ (List.getElem_mem hlt)
    · rw [List.getD_eq_default _ _ (by omega)]
      decide
  have hend := intStrlen_eq ht hshort
  rw [Ed.toEnd, hend, Line.browse]
  refine ⟨h.history.congr hm, ht, rfl, rfl, hj', Nat.le_refl _, hshort, hj, ?_⟩
  intro w hmem
  rcases hw w hmem with hold | hnew
  · exact h.inside w hold
  · exact hnew

theorem Good.browse (h : Good base saved e l) {j : Nat} (hj : j ≤ saved.length) :
    Good base saved (e.browse base (base + N * saved.length) j) (Line.browse saved j) := by
  have hempty : StrAt (e.mem.write (base + N * saved.length) [0]) (base + N * saved.length) [] :=
    strAt_write (s := []) _ _ (by simp)
  have hout : ∀ x, x < base + N * saved.length → (e.mem.write (base + N * saved.length) [0]).byte x = e.mem.byte x :=
    fun x hx => Mem.byte_write_out (Or.inl hx)
  rw [Ed.browse, slot_natCast]
  by_cases hlt : j < saved.length
  · have hslot : N * j + N ≤ N * saved.length := by
      rw [← Nat.mul_succ]
      exact Nat.mul_le_mul_left N hlt
    have hN : N = 160 := rfl
    rw [if_pos (by omega)]
    have hsrc := (h.history.congr hout).strs j hlt
    have hshort := h.history.short _ (List.getElem_mem hlt)
    have hcopy : ((e.mem.write (base + N * saved.length) [0]).read (base + N * j)
        (strlen (e.mem.write (base + N * saved.length) [0]) N (base + N * j)) ++
          List.replicate (N - strlen (e.mem.write (base + N * saved.length) [0]) N (base + N * j)) 0) =
        saved[j] ++ List.replicate (N - saved[j].length) 0 := by
      rw [hsrc.strlen hshort, hsrc.text]
    apply h.opened hj
    · intro x hx
      exact (Mem.byte_write_out (Or.inl hx)).trans (hout x hx)
    · rw [List.getD_eq_getElem _ _ hlt]
      simp only [Ed.strncpy, put_mem, hcopy]
      exact strAt_padded _ _ hsrc.noNul hshort
    · rfl
    · intro w hmem
      simp only [Ed.strncpy, put_written, put_mem, hcopy, List.mem_cons] at hmem
      rcases hmem with rfl | rfl | hmem
      · right
        simp
        omega
      · right
        simp
        omega
      · exact Or.inl hmem
  · obtain rfl : j = saved.length := by omega
    rw [if_neg (not_not_intro rfl)]
    apply h.opened hj hout
    · rw [List.getD_eq_default _ _ (Nat.le_refl _)]
      exact hempty
    · rfl
    · intro w hmem
      rcases List.mem_cons.mp hmem with rfl | hmem
      · right
        exact ⟨Nat.le_refl _, Nat.add_le_add_left (show 1 ≤ N by decide) _⟩
      · exact Or.inl hmem

/-! ### Characters -/

theorem blank_eq (h : Good base saved e l) : e.blank (base + N * saved.length) =
    { (e.put (base + N * saved.length + (l.cursor + 1)) (l.text.drop l.cursor ++ [0])).put
        (base + N * saved.length + l.cursor) [32] with i := e.i + 1, n := e.n + 1 } := by
  have hfull := h.full
  rw [Ed.blank, if_pos (by rw [h.n]; omega), h.i, addr_natCast, addr_succ,
    memmove_tail h.text hfull h.cursor_le]

theorem Good.blank (h : Good base saved e l) (hroom : l.text.length + 1 < N) :
    Good base saved (e.blank (base + N * saved.length)) (l.insert 32) := by
  have hle := h.cursor_le
  have hlen : (l.text.drop l.cursor ++ [0]).length = l.text.length - l.cursor + 1 := by
    rw [List.length_append, List.length_singleton, List.length_drop]
  rw [blank_eq h]
  apply h.insert (by decide) hroom
  · intro x hx
    exact (Mem.byte_write_out (by omega)).trans (Mem.byte_write_out (by omega))
  · exact byte_put_same _ _ _
  · intro k hk hge
    refine (Mem.byte_write_out (by simp; omega)).trans ?_
    rw [put_mem, Mem.byte_write_in (by omega) (by omega)]
    rw [List.getElem_append_left (by rw [List.length_drop]; omega), List.getElem_drop]
    congr 1
    omega
  · refine (Mem.byte_write_out (by simp; omega)).trans ?_
    rw [put_mem, Mem.byte_write_in (by omega) (by omega)]
    rw [List.getElem_append_right (by rw [List.length_drop]; omega)]
    exact List.getElem_singleton _
  · rfl
  · rfl
  · rfl
  · intro w hw
    simp only [put_written, List.mem_cons] at hw
    rcases hw with rfl | rfl | hw
    · right
      simp only [List.length_singleton]
      omega
    · right
      simp only [hlen]
      omega
    · exact Or.inl hw

/-- A blank in a full line: the NUL goes one past the slot. -/
theorem blank_outside (h : Good base saved e l) (hfull : ¬ l.text.length + 1 < N) :
    ¬ InSlot (base + N * saved.length) (e.blank (base + N * saved.length)) (l.insert 32) := by
  intro hin
  have hle := h.cursor_le
  have hlen : (l.text.drop l.cursor ++ [0]).length = l.text.length - l.cursor + 1 := by
    rw [List.length_append, List.length_singleton, List.length_drop]
  rw [blank_eq h] at hin
  have hmove := (hin.inside (base + N * saved.length + (l.cursor + 1), (l.text.drop l.cursor ++ [0]).length)
    (by simp)).2
  simp only [hlen] at hmove
  omega

/-- With the cursor at the end nothing is moved. -/
theorem moveRest_spec (h : Good base saved e l) : ∃ written, e.moveRest (base + N * saved.length) =
    ⟨e.mem.write (base + N * saved.length + (l.cursor + 1)) (l.text.drop l.cursor), e.i, e.n, e.j, written⟩ ∧
      ∀ w ∈ written, w ∈ e.written ∨
        w = (base + N * saved.length + (l.cursor + 1), (l.text.drop l.cursor).length) := by
  have hle := h.cursor_le
  have hfull := h.full
  rw [Ed.moveRest]
  by_cases hlt : l.cursor < l.text.length
  · have htail := h.text.drop hle
    have hmove : e.memmove (base + N * saved.length + (l.cursor + 1)) (base + N * saved.length + l.cursor)
        (safeStrlen e.mem (base + N * saved.length + l.cursor)) =
          e.put (base + N * saved.length + (l.cursor + 1)) (l.text.drop l.cursor) := by
      rw [Ed.memmove, safeStrlen_eq htail (by rw [List.length_drop]; omega), htail.text]
    rw [if_pos (by rw [h.i, h.n]; omega), h.i, addr_natCast, addr_succ, hmove]
    refine ⟨_, congrArg (fun i => (⟨_, i, _, _, _⟩ : Ed)) h.i, fun w hw => ?_⟩
    exact (List.mem_cons.mp hw).symm
  · have hnone : e.mem.write (base + N * saved.length + (l.cursor + 1)) (l.text.drop l.cursor) = e.mem := by
      rw [List.drop_of_length_le (by omega)]
      ext x
      rw [Mem.byte_write_out (by rw [List.length_nil]; omega)]
    rw [if_neg (by rw [h.i, h.n]; omega), hnone]
    exact ⟨e.written, rfl, fun w hw => Or.inl hw⟩

theorem Good.type (h : Good base saved e l) (hc : c ≠ 0) :
    Good base saved (e.type (base + N * saved.length) c) (l.insert c) := by
  have hle := h.cursor_le
  have hfull := h.full
  by_cases hroom : l.text.length + 1 < N
  · obtain ⟨written, hmoved, hw⟩ := moveRest_spec h
    have hend : e.n + 1 = ((l.text.length + 1 : Nat) : Int) := by
      rw [h.n]
      omega
    have hlen : (l.text.drop l.cursor).length = l.text.length - l.cursor := List.length_drop
    rw [Ed.type, if_pos (by rw [h.n]; omega), hmoved]
    simp only [h.i, addr_natCast, hend]
    apply h.insert hc hroom
    · intro x hx
      refine (Mem.byte_write_out (by omega)).trans ?_
      exact (Mem.byte_write_out (by omega)).trans (Mem.byte_write_out (by omega))
    · refine (Mem.byte_write_out (by omega)).trans ?_
      exact byte_put_same _ _ _
    · intro k hk hge
      refine (Mem.byte_write_out (by omega)).trans ?_
      refine (Mem.byte_write_out (by rw [List.length_singleton]; omega)).trans ?_
      simp only
      rw [Mem.byte_write_in (by omega) (by omega), List.getElem_drop]
      congr 1
      omega
    · exact byte_put_same _ _ _
    · rw [h.i]
      rfl
    · exact hend.symm
    · rfl
    · intro w hmem
      simp only [put_written, List.mem_cons] at hmem
      rcases hmem with rfl | rfl | hmem
      · right
        simp only [List.length_singleton]
        omega
      · right
        simp only [List.length_singleton]
        omega
      · rcases hw w hmem with hold | rfl
        · exact Or.inl hold
        · right
          simp only [hlen]
          omega
  · rw [Ed.type, if_neg (by rw [h.n]; omega), Line.insert, if_neg hroom]
    exact h

/-! ## Runs -/

/-- A key leaves the editor where the reference is. -/
theorem Good.press (h : Good base saved e l) {k : Key} (hfit : Fits l k) :
    Good base saved (e.press base (base + N * saved.length) saved.length k) (l.press saved k) := by
  cases k with
  | escape c =>
    rw [Ed.press, Line.press]
    split_ifs with hA hup hB hdown hC hD
    · rw [Ed.up, if_pos (by rw [h.j]; omega), h.j, show (l.j : Int) - 1 = ((l.j - 1 : Nat) : Int) by omega]
      exact h.browse (by have := h.j_le; omega)
    · rw [Ed.up, if_neg (by rw [h.j]; omega)]
      exact h
    · rw [Ed.down, if_pos (by rw [h.j]; omega), h.j]
      exact h.browse hdown
    · rw [Ed.down, if_neg (by rw [h.j]; omega)]
      exact h
    · exact h.right
    · exact h.left
    · exact h
  | plain k hk =>
    rw [Ed.press, Line.press]
    have hblank : (k = 32 ∨ k = 9) ↔ blankKey k = true := by simp [blankKey]
    by_cases hkill : k = 11
    · rw [if_pos hkill, if_pos hkill]
      exact h.kill
    by_cases hredraw : k = 12
    · subst hredraw
      exact h
    by_cases hdel : k = 4
    · rw [if_neg hkill, if_neg hredraw, if_pos hdel, if_neg hkill, if_pos hdel]
      exact h.deleteHere
    by_cases hback : k = 8 ∨ k = 127
    · rw [if_neg hkill, if_neg hredraw, if_neg hdel, if_pos hback, if_neg hkill, if_neg hdel, if_pos hback]
      exact h.deleteBack
    rw [if_neg hkill, if_neg hredraw, if_neg hdel, if_neg hback, if_neg hkill, if_neg hdel, if_neg hback]
    by_cases hb : blankKey k = true
    · rw [if_pos (hblank.mpr hb), if_pos hb]
      exact h.blank (hfit hb)
    rw [if_neg (fun hor => hb (hblank.mp hor)), if_neg hb]
    by_cases hp : isprint k = true
    · rw [if_pos hp, if_pos hp]
      apply h.type
      rintro rfl
      exact absurd hp (by decide)
    · rw [if_neg hp, if_neg hp]
      exact h

theorem press_outside (h : Good base saved e l) {k : Key} (hfit : ¬ Fits l k) :
    ¬ InSlot (base + N * saved.length) (e.press base (base + N * saved.length) saved.length k) (l.press saved k) := by
  cases k with
  | escape c => exact absurd trivial hfit
  | plain k hk =>
    obtain ⟨hb, hfull⟩ := Classical.not_imp.mp hfit
    have hblank : k = 32 ∨ k = 9 := by simpa [blankKey] using hb
    have hkey : e.press base (base + N * saved.length) saved.length (.plain k hk) = e.blank (base + N * saved.length) ∧
        l.press saved (.plain k hk) = l.insert 32 := by
      rcases hblank with rfl | rfl
      · exact ⟨rfl, rfl⟩
      · exact ⟨rfl, rfl⟩
    rw [hkey.1, hkey.2]
    exact blank_outside h hfull

theorem fits_cons {k : Key} {keys : List Key} :
    (∀ pre k', pre ++ [k'] <+: k :: keys → Fits (l.run saved pre) k') ↔
      Fits l k ∧ ∀ pre k', pre ++ [k'] <+: keys → Fits ((l.press saved k).run saved pre) k' := by
  constructor
  · intro h
    refine ⟨h [] k (List.cons_prefix_cons.mpr ⟨rfl, List.nil_prefix⟩), fun pre k' hp => ?_⟩
    exact h (k :: pre) k' (List.cons_prefix_cons.mpr ⟨rfl, hp⟩)
  · rintro ⟨h0, h⟩ pre k' hp
    cases pre with
    | nil =>
      obtain ⟨rfl, -⟩ := List.cons_prefix_cons.mp hp
      exact h0
    | cons a pre =>
      obtain ⟨rfl, hrest⟩ := List.cons_prefix_cons.mp hp
      exact h pre k' hrest

/-- From a state where the editors agree. -/
theorem Good.run_iff {keys : List Key} (h : Good base saved e l) :
    (∀ pre, pre <+: keys → InSlot (base + N * saved.length) (e.run base saved.length pre) (l.run saved pre)) ↔
      ∀ pre k, pre ++ [k] <+: keys → Fits (l.run saved pre) k := by
  induction keys generalizing e l with
  | nil =>
    constructor
    · intro _ pre k hp
      have hnil := List.append_eq_nil_iff.mp (List.prefix_nil.mp hp)
      exact absurd hnil.2 (List.cons_ne_nil _ _)
    · intro _ pre hp
      obtain rfl := List.prefix_nil.mp hp
      exact h.inSlot
  | cons k keys ih =>
    have hrun : ∀ pre, e.run base saved.length (k :: pre) =
        (e.press base (base + N * saved.length) saved.length k).run base saved.length pre := fun pre => by
      rw [Ed.run, List.foldl_cons, slot_natCast, Ed.run, slot_natCast]
    rw [forall_prefix_cons, fits_cons]
    simp only [hrun]
    by_cases hfit : Fits l k
    · have hnext := ih (h.press hfit)
      exact ⟨fun hall => ⟨hfit, hnext.mp hall.2⟩, fun hall => ⟨h.inSlot, hnext.mpr hall.2⟩⟩
    · exact ⟨fun hall => absurd (hall.2 [] List.nil_prefix) (press_outside h hfit), fun hall => absurd hall.1 hfit⟩

theorem good_start (hsaved : Saved base m saved) (htext : StrAt m (base + N * saved.length) s) (hs : s.length < N) :
    Good base saved (Ed.start base saved.length m) (Line.start saved s) := by
  have hlen := intStrlen_eq htext hs
  rw [Ed.start, slot_natCast, hlen, Line.start]
  exact ⟨hsaved, htext, rfl, rfl, rfl, Nat.le_refl _, hs, Nat.le_refl _, by simp⟩

/-- From any history of lines shorter than `N`, and a text that is, after every key the editor
    is in its slot and its line is the reference's iff no blank comes when the line is full. -/
theorem stays_in_slot_iff (base : Nat) (m : Mem) (saved : List (List UInt8)) (text : List UInt8)
    (hsaved : Saved base m saved) (htext : StrAt m (base + N * saved.length) text) (hshort : text.length < N)
    (keys : List Key) :
    (∀ pre, pre <+: keys → InSlot (base + N * saved.length) ((Ed.start base saved.length m).run base saved.length pre)
        ((Line.start saved text).run saved pre)) ↔
      ∀ pre k, pre ++ [k] <+: keys → Fits ((Line.start saved text).run saved pre) k := by
  exact (good_start hsaved htext hshort).run_iff

/-- A history of one line, "a". -/
def oneLine : Mem := (⟨fun _ => 0⟩ : Mem).write 0 ([97] ++ [0])

theorem saved_oneLine : Saved 0 oneLine [[97]] := by
  refine ⟨fun j hj => ?_, by decide⟩
  obtain rfl : j = 0 := by simpa using hj
  exact strAt_write _ 0 (noNul_of_all (by decide))

theorem empty_oneLine : StrAt oneLine 160 [] := strAt_of_bytes (fun _ hi => absurd hi (Nat.not_lt_zero _)) rfl (by simp)

/-- The line is recalled, and a character is put before it. -/
def browseAndType : List Key := [.escape 65, .escape 68, .plain 98 (by decide)]

theorem stays_in_slot_iff_oneLine :
    (∀ pre, pre <+: browseAndType → InSlot 160 ((Ed.start 0 1 oneLine).run 0 1 pre) ((Line.start [[97]] []).run [[97]] pre)) ↔
      ∀ pre k, pre ++ [k] <+: browseAndType → Fits ((Line.start [[97]] []).run [[97]] pre) k :=
  stays_in_slot_iff 0 oneLine [[97]] [] saved_oneLine empty_oneLine (by decide) browseAndType

example : (Line.start [[97]] []).run [[97]] browseAndType = ⟨[98, 97], 1, 0⟩ := by decide

/-- A line of 159 characters, and no history. -/
def fullLine : Mem := (⟨fun _ => 0⟩ : Mem).write 0 (List.replicate 159 97 ++ [0])

theorem saved_none (m : Mem) : Saved 0 m [] := ⟨fun _ hj => absurd hj (Nat.not_lt_zero _), by simp⟩

/-- A blank at the end of the full line is written to its last byte, and the NUL past it. -/
theorem a_blank_leaves_the_slot :
    ¬ ∀ (base : Nat) (m : Mem) (saved : List (List UInt8)) (text : List UInt8) (keys : List Key), Saved base m saved →
      StrAt m (base + N * saved.length) text → text.length < N → ∀ pre, pre <+: keys →
        InSlot (base + N * saved.length) ((Ed.start base saved.length m).run base saved.length pre)
          ((Line.start saved text).run saved pre) := by
  intro hall
  have htext : StrAt fullLine (0 + N * ([] : List (List UInt8)).length) (List.replicate 159 97) :=
    strAt_write _ 0 fun b hb => by
      rw [List.eq_of_mem_replicate hb]
      decide
  have hshort : (List.replicate 159 (97 : UInt8)).length < N := by
    rw [List.length_replicate]
    decide
  have hgood := good_start (saved_none fullLine) htext hshort
  have hfits := hgood.run_iff.mp (hall 0 fullLine [] _ [.plain 32 (by decide)] (saved_none _) htext hshort) [] _
    (List.prefix_refl _) (by decide)
  rw [Line.run, List.foldl_nil, Line.start, List.length_replicate] at hfits
  exact absurd hfits (by decide)

end Cs238p.Shell
