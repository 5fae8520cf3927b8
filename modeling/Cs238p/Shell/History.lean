/-
  Cs238p.Shell.History — the history of a session: which slot a line is edited in, and which
  one is recalled.

  `state.n` goes up to `H`, and `H` slots are there: after 96 lines the next one is edited
  past the array (`the_history_overflows`).

  Proved, of every session: `j` and `state.n` index slots of the array for ever iff fewer
  than `H` lines with a text are entered (`history_in_range_iff`).
-/
import Cs238p.Shell.Editor

namespace Cs238p.Shell

open ByteMemory Trimming

/-- All of the slot is in `state.history`. -/
def InArray (base p : Nat) : Prop := base ≤ p ∧ p + N ≤ base + N * H

/-- `state.n` and `j` index slots of the history, and so the line is edited, and lines are
    recalled, inside it. -/
structure InHistory (base : Nat) (s : Session) : Prop where
  nonneg : 0 ≤ s.ed.j
  le : s.ed.j ≤ s.n
  lt : s.n < H
  edited : InArray base (slot base s.i)
  recalled : InArray base (slot base s.ed.j)

/-- The line has a character that is not blank. -/
def HasText (m : Mem) (p : Nat) : Prop := ¬ Blank isspace (m.read p (safeStrlen m p))

instance (m : Mem) (p : Nat) : Decidable (HasText m p) := inferInstanceAs (Decidable (¬ _))

/-- How many lines with a text are entered. -/
def entered (base : Nat) : Session → List Event → Nat
  | _, [] => 0
  | s, .key k :: events => entered base (s.step base (.key k)) events
  | s, .enter fnc :: events =>
    (if HasText s.ed.mem (slot base s.i) then 1 else 0) + entered base (s.step base (.enter fnc)) events

/-! ## The invariant -/

structure Ranged (s : Session) : Prop where
  i_eq : s.i = s.n
  nonneg : 0 ≤ s.ed.j
  le : s.ed.j ≤ s.n
  n_le : s.n ≤ H

variable {base buf : Nat} {s : Session} {e : Ed} {m : Mem} {sn n j : Int} {k : Key} {fnc : Mem → Mem} {events : List Event}

theorem inArray_slot (h0 : 0 ≤ j) (h : j < H) : InArray base (slot base j) := by
  unfold H at h
  unfold InArray slot N H
  omega

theorem Ranged.inHistory (h : Ranged s) (hlt : s.n < H) : InHistory base s := by
  have hj := h.nonneg
  have hle := h.le
  refine ⟨hj, hle, hlt, ?_, inArray_slot hj (by omega)⟩
  rw [h.i_eq]
  exact inArray_slot (by omega) hlt

theorem browse_j (e : Ed) (j : Int) : (e.browse base buf j).j = j := by
  rw [Ed.browse]
  split
  · rfl
  · rfl

/-- Only the history keys change `j`. -/
theorem press_range (base buf : Nat) (h0 : 0 ≤ e.j) (h : e.j ≤ sn) (k : Key) :
    0 ≤ (e.press base buf sn k).j ∧ (e.press base buf sn k).j ≤ sn := by
  cases k with
  | escape c =>
    rw [Ed.press]
    split_ifs
    · rw [Ed.up]
      split
      · rw [browse_j]
        omega
      · exact ⟨h0, h⟩
    · rw [Ed.down]
      split
      · rw [browse_j]
        omega
      · exact ⟨h0, h⟩
    · exact ⟨h0, h⟩
    · exact ⟨h0, h⟩
    · exact ⟨h0, h⟩
  | plain k hk =>
    have hsame : (e.press base buf sn (.plain k hk)).j = e.j := by
      rw [Ed.press]
      split_ifs
      · rfl
      · rfl
      · rw [Ed.deleteHere]
        split <;> rfl
      · rw [Ed.deleteBack]
        split <;> rfl
      · rw [Ed.blank]
        split <;> rfl
      · rw [Ed.type]
        split
        · change (e.moveRest buf).j = e.j
          rw [Ed.moveRest]
          split <;> rfl
        · rfl
      · rfl
    rw [hsame]
    exact ⟨h0, h⟩

theorem Ranged.key (h : Ranged s) (base : Nat) (k : Key) : Ranged (s.step base (.key k)) := by
  obtain ⟨h0, hle⟩ := press_range base (slot base s.i) h.nonneg h.le k
  exact ⟨h.i_eq, h0, hle, h.n_le⟩

theorem ranged_edit (base : Nat) (h0 : 0 ≤ n) (h : n ≤ H) (m : Mem) : Ranged (Session.edit base n m) :=
  ⟨rfl, h0, Int.le_refl _, h⟩

/-- A line with a text takes a slot, as far as there are slots and one more. -/
theorem Ranged.enter (h : Ranged s) (base : Nat) (fnc : Mem → Mem) : Ranged (s.step base (.enter fnc)) ∧
    (s.step base (.enter fnc)).n = min (s.n + if HasText s.ed.mem (slot base s.i) then 1 else 0) H := by
  have h0 := h.nonneg
  have hle := h.le
  have hn := h.n_le
  have hblank := shellStrtrim_blank s.ed.mem (slot base s.i)
  rw [Session.step, Session.enter]
  by_cases htext : HasText s.ed.mem (slot base s.i)
  · rw [if_pos (fun hz => htext (hblank.mp hz)), if_pos h.i_eq, if_pos htext]
    have hmin : (if (H : Int) > s.n + 1 then s.n + 1 else H) = min (s.n + 1) H := by
      split <;> omega
    simp only [hmin]
    exact ⟨ranged_edit base (by omega) (by omega) _, rfl⟩
  · rw [if_neg (not_not_intro (hblank.mpr (not_not.mp htext))), if_neg htext]
    refine ⟨ranged_edit base (by omega) hn _, ?_⟩
    change s.n = min (s.n + 0) H
    omega

/-! ## Runs -/

theorem Session.run_cons (base : Nat) (s : Session) (ev : Event) (events : List Event) :
    s.run base (ev :: events) = (s.step base ev).run base events := rfl

theorem Ranged.run_iff (h : Ranged s) :
    (∀ pre, pre <+: events → InHistory base (s.run base pre)) ↔ s.n + entered base s events < H := by
  induction events generalizing s with
  | nil =>
    have hzero : entered base s [] = 0 := rfl
    rw [hzero]
    constructor
    · intro hall
      have := (hall [] (List.prefix_refl _)).lt
      rw [Session.run, List.foldl_nil] at this
      omega
    · intro hlt pre hp
      rw [List.prefix_nil.mp hp]
      exact h.inHistory (by omega)
  | cons ev events ih =>
    rw [forall_prefix_cons]
    simp only [Session.run_cons]
    have hhead : s.n < H → InHistory base (s.run base []) := fun hlt => h.inHistory hlt
    cases ev with
    | key k =>
      have hnext := ih (h.key base k)
      have hn : (s.step base (.key k)).n = s.n := rfl
      rw [hn] at hnext
      rw [entered, ← hnext]
      refine ⟨fun hall => hall.2, fun hall => ⟨hhead ?_, hall⟩⟩
      have := hnext.mp hall
      omega
    | enter fnc =>
      obtain ⟨hranged, hn⟩ := h.enter base fnc
      have hnext := ih hranged
      have hle := h.n_le
      rw [hn] at hnext
      rw [entered]
      -- at `H` the number of lines does not go up any more
      have hsum : min (s.n + if HasText s.ed.mem (slot base s.i) then 1 else 0) H +
            (entered base (s.step base (.enter fnc)) events : Int) < H ↔
          s.n + (((if HasText s.ed.mem (slot base s.i) then 1 else 0) +
            entered base (s.step base (.enter fnc)) events : Nat) : Int) < H := by
        split <;> omega
      rw [← hsum, ← hnext]
      refine ⟨fun hall => hall.2, fun hall => ⟨hhead ?_, hall⟩⟩
      have := hsum.mp (hnext.mp hall)
      omega

/-- In every session, whatever the callback does and whatever is in memory at first, `j` and
    `state.n` stay in range iff fewer than `H` lines with a text are entered. -/
theorem history_in_range_iff (base : Nat) (m : Mem) (events : List Event) :
    (∀ pre, pre <+: events → InHistory base ((Session.edit base 0 m).run base pre)) ↔
      entered base (Session.edit base 0 m) events < H := by
  have hranged : Ranged (Session.edit base 0 m) := ranged_edit base (Int.le_refl 0) (by omega) m
  rw [hranged.run_iff]
  change (0 : Int) + _ < _ ↔ _
  omega

/-! ## 96 lines -/

/-- The line "a", and a callback that does nothing. -/
def lineA : List Event := [.key (.plain 97 (by decide)), .enter id]

/-- The line in memory. -/
theorem strAt_typed (m : Mem) (p : Nat) : StrAt ((m.write p [97]).write (p + 1) [0]) p [97] := by
  have hlast : (m.write p [97]).byte p = 97 := by
    rw [Mem.byte_write_in (Nat.le_refl _) (by rw [List.length_singleton]; omega)]
    simp
  apply strAt_of_bytes
  · intro i hi
    obtain rfl : i = 0 := by simpa using hi
    rw [Mem.byte_write_out (by omega)]
    exact hlast
  · rw [List.length_singleton, Mem.byte_write_in (Nat.le_refl _) (by rw [List.length_singleton]; omega)]
    simp
  · exact noNul_of_all (by decide)

theorem type_empty (hi : e.i = 0) (hn : e.n = 0) : (e.type buf 97).mem = (e.mem.write buf [97]).write (buf + 1) [0] := by
  rw [Ed.type, if_pos (by rw [hn]; decide), Ed.moveRest, if_neg (by rw [hi, hn]; decide)]
  simp only [put_mem, hi, hn]
  rw [show addr buf 0 = buf from addr_natCast buf 0, show addr buf (0 + 1) = buf + 1 from addr_natCast buf 1]

theorem edit_empty (h : StrAt m (slot base n) []) : Session.edit base n m = ⟨n, n, ⟨m, 0, 0, n, []⟩⟩ := by
  have hend : intStrlen m (slot base n) = 0 := intStrlen_eq h (by decide)
  rw [Session.edit, Ed.start, hend]

/-- In an empty slot the line is entered, and the next slot is empty. -/
theorem enter_lineA (h : StrAt m (slot base n) []) :
    ∃ n' m', StrAt m' (slot base n') [] ∧ ∀ events, entered base (Session.edit base n m) (lineA ++ events) =
      1 + entered base (Session.edit base n' m') events := by
  rw [edit_empty h]
  obtain ⟨s, hs⟩ : ∃ s, s = Session.step base ⟨n, n, ⟨m, 0, 0, n, []⟩⟩ (.key (.plain 97 (by decide))) := ⟨_, rfl⟩
  have hmem : s.ed.mem = (m.write (slot base n) [97]).write (slot base n + 1) [0] := by
    rw [hs]
    exact type_empty (e := ⟨m, 0, 0, n, []⟩) rfl rfl
  have hi : s.i = n := by rw [hs]; rfl
  have hn : s.n = n := by rw [hs]; rfl
  have hstr : StrAt s.ed.mem (slot base s.i) [97] := by
    rw [hmem, hi]
    exact strAt_typed m (slot base n)
  have htext : HasText s.ed.mem (slot base s.i) := by
    rw [HasText, safeStrlen_eq hstr (by decide), hstr.text]
    decide
  have hleft : safeStrlen (shellStrtrim s.ed.mem (slot base s.i)) (slot base s.i) ≠ 0 := fun hz =>
    htext ((shellStrtrim_blank _ _).mp hz)
  obtain ⟨n', henter⟩ : ∃ n', s.step base (.enter id) =
      Session.edit base n' ((shellStrtrim s.ed.mem (slot base s.i)).write (slot base n') [0]) := by
    rw [Session.step, Session.enter, if_pos hleft, if_pos (hi.trans hn.symm)]
    exact ⟨_, rfl⟩
  refine ⟨n', (shellStrtrim s.ed.mem (slot base s.i)).write (slot base n') ([] ++ [0]), strAt_write _ _ (by simp), ?_⟩
  intro events
  rw [lineA, List.cons_append, entered, ← hs, List.cons_append, entered, if_pos htext, henter, List.nil_append,
    List.nil_append]

/-- Every such line counts. -/
theorem entered_lines (h : StrAt m (slot base n) []) (k : Nat) :
    entered base (Session.edit base n m) (List.replicate k lineA).flatten = k := by
  induction k generalizing n m with
  | zero => rfl
  | succ k ih =>
    obtain ⟨n', m', hnext, hcount⟩ := enter_lineA h
    rw [List.replicate_succ, List.flatten_cons, hcount, ih hnext, Nat.add_comm]

/-- After 96 lines the next line is edited past the array. -/
theorem the_history_overflows : ¬ ∀ (base : Nat) (m : Mem) (events pre : List Event), pre <+: events →
    InHistory base ((Session.edit base 0 m).run base pre) := by
  intro hall
  have hempty : StrAt (⟨fun _ => 0⟩ : Mem) (slot 0 0) [] :=
    strAt_of_bytes (fun _ hi => absurd hi (Nat.not_lt_zero _)) rfl (by simp)
  have hlt := (ranged_edit 0 (Int.le_refl 0) (by omega) (⟨fun _ => 0⟩ : Mem)).run_iff.mp
    (hall 0 _ (List.replicate H lineA).flatten)
  rw [entered_lines hempty] at hlt
  exact Int.lt_irrefl _ hlt

end Cs238p.Shell
