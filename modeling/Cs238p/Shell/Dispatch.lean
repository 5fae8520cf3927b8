/-
  Cs238p.Shell.Dispatch — `shell_fnc` (`project-3/main.c`) chooses the command of a line.

  The name of a command is looked for as a prefix of the line, and the rest is trimmed in
  place, inside the line: "insert  a " becomes "inserta" in the history.

  Proved, of every line: what is left of it is chosen the same way, with the same argument or
  the same error, and is not changed again (`rerun_same`). No name is a prefix of another
  one (`names_prefixFree`).
-/
import Cs238p.Shell.Strtrim

namespace Cs238p.Shell

open ByteMemory Trimming

/-- The functions of the commands. -/
inductive Command where
  | quit | help | info | list | print | load | insert | exists_ | delete
  deriving DecidableEq, Repr

/-- A line of `CMDS`. -/
structure Entry where
  argc : Nat
  face : List UInt8
  fnc : Command
  deriving DecidableEq, Repr

def face (s : String) : List UInt8 := s.toList.map fun c => UInt8.ofNat c.toNat

/-- `CMDS`. -/
def cmds : List Entry :=
  [⟨0, face "quit", .quit⟩, ⟨0, face "help", .help⟩, ⟨0, face "info", .info⟩, ⟨0, face "list", .list⟩,
    ⟨0, face "print", .print⟩, ⟨1, face "load", .load⟩, ⟨1, face "insert", .insert⟩, ⟨1, face "exists", .exists_⟩,
    ⟨1, face "delete", .delete⟩]

/-- What `shell_fnc` does with a line. -/
inductive Selected where
  | run (fnc : Command) (arg : List UInt8)
  /-- `error: bad command/argument (%s)` -/
  | bad (s : List UInt8)
  deriving DecidableEq, Repr

/-- `!strncmp(face, s, safe_strlen(face))`. -/
def isFace (m : Mem) : List UInt8 → Nat → Bool
  | [], _ => true
  | c :: face, s => c == m.byte s && isFace m face (s + 1)

/-- The string that is printed, or passed on. -/
def textAt (m : Mem) (s : Nat) : List UInt8 := m.read s (safeStrlen m s)

def badText (s : List UInt8) : List UInt8 := if s ≠ [] then s else face "missing argument"

/-- The loop of `shell_fnc`. -/
def dispatch (m : Mem) : List Entry → Nat → Selected × Mem
  | [], s => (.bad (badText (textAt m s)), m)
  | e :: es, s =>
    if isFace m e.face s then
      let s := s + e.face.length
      let m := shellStrtrim m s
      if (e.argc ≠ 0 ∧ safeStrlen m s = 0) ∨ (e.argc = 0 ∧ safeStrlen m s ≠ 0) then (.bad (badText (textAt m s)), m)
      else (.run e.fnc (textAt m s), m)
    else dispatch m es s

def shellFnc (m : Mem) (s : Nat) : Selected × Mem := dispatch m cmds s

/-! ## A line -/

/-- The entry's function, or the error, on an argument. -/
def choose (e : Entry) (arg : List UInt8) : Selected :=
  if (e.argc ≠ 0 ∧ arg = []) ∨ (e.argc = 0 ∧ arg ≠ []) then .bad (badText arg) else .run e.fnc arg

def PrefixFree (es : List Entry) : Prop := ∀ e ∈ es, ∀ f ∈ es, e.face <+: f.face → e = f

instance (es : List Entry) : Decidable (PrefixFree es) :=
  inferInstanceAs (Decidable (∀ e ∈ es, ∀ f ∈ es, e.face <+: f.face → e = f))

theorem names_prefixFree : PrefixFree cmds := by decide

variable {m : Mem} {p : Nat} {s rest name : List UInt8} {e f : Entry} {es : List Entry}

theorem textAt_eq (h : StrAt m p s) (hlen : s.length < 2 ^ 64) : textAt m p = s := by
  rw [textAt, safeStrlen, h.strlen hlen, h.text]

theorem StrAt.tail {c : UInt8} (h : StrAt m p (c :: s)) : StrAt m (p + 1) s := StrAt.drop h (Nat.succ_le_succ (Nat.zero_le _))

/-- Names have no NUL, so that a line that ends early does not match. -/
theorem isFace_iff (h : StrAt m p s) (hn : ∀ c ∈ name, c ≠ 0) : isFace m name p = true ↔ name <+: s := by
  induction name generalizing p s with
  | nil => simp [isFace]
  | cons c name ih =>
    rw [isFace, Bool.and_eq_true, beq_iff_eq]
    have hc := hn c List.mem_cons_self
    cases s with
    | nil =>
      have h0 : m.byte p = 0 := h.stop
      rw [h0]
      exact iff_of_false (fun hh => hc hh.1) (by simp)
    | cons b s =>
      have hb : m.byte p = b := h.byte (i := 0) (Nat.zero_lt_succ _)
      rw [hb, ih (StrAt.tail h) fun d hd => hn d (List.mem_cons_of_mem _ hd), List.cons_prefix_cons]

/-- No name: the line is the error. -/
theorem dispatch_none (h : StrAt m p s) (hlen : s.length < 2 ^ 64) (hn : ∀ e ∈ es, ∀ c ∈ e.face, c ≠ 0)
    (hno : ∀ e ∈ es, ¬ e.face <+: s) : dispatch m es p = (.bad (badText s), m) := by
  induction es with
  | nil => rw [dispatch, textAt_eq h hlen]
  | cons e es ih =>
    have hne : ¬ isFace m e.face p = true := fun hf =>
      hno e List.mem_cons_self ((isFace_iff h (hn e List.mem_cons_self)).mp hf)
    rw [dispatch, if_neg hne]
    exact ih (fun f hf => hn f (List.mem_cons_of_mem _ hf)) fun f hf => hno f (List.mem_cons_of_mem _ hf)

/-- The rest of the line is trimmed where it is. -/
theorem strAt_trimmed (h : StrAt m p (name ++ rest)) (hlen : (name ++ rest).length < 2 ^ 64) :
    StrAt (shellStrtrim m (p + name.length)) p (name ++ strtrim rest) ∧
      StrAt (shellStrtrim m (p + name.length)) (p + name.length) (strtrim rest) := by
  rw [List.length_append] at hlen
  have hrest : StrAt m (p + name.length) rest := by
    have hdrop := StrAt.drop h (i := name.length) (by simp)
    rwa [List.drop_left] at hdrop
  obtain ⟨hst, hout⟩ := shellStrtrim_spec hrest (by omega)
  refine ⟨strAt_of_bytes ?_ ?_ ?_, hst⟩
  · intro i hi
    rw [List.length_append] at hi
    by_cases hin : i < name.length
    · rw [hout _ (Or.inl (by omega)), h.byte (by rw [List.length_append]; omega), List.getElem_append_left hin,
        List.getElem_append_left hin]
    · rw [List.getElem_append_right (by omega), show p + i = p + name.length + (i - name.length) by omega]
      exact hst.byte (by omega)
  · rw [List.length_append, ← Nat.add_assoc]
    exact hst.stop
  · intro b hb
    rcases List.mem_append.mp hb with hb | hb
    · exact h.noNul b (List.mem_append_left _ hb)
    · exact hst.noNul b hb

/-- The first name that the line begins with is chosen; prefix-free names leave no choice. -/
theorem dispatch_some (h : StrAt m p (e.face ++ rest)) (hlen : (e.face ++ rest).length < 2 ^ 64)
    (hn : ∀ f ∈ es, ∀ c ∈ f.face, c ≠ 0) (he : e ∈ es) (hfree : ∀ f ∈ es, f.face <+: e.face ++ rest → f = e) :
    (dispatch m es p).1 = choose e (strtrim rest) ∧ StrAt (dispatch m es p).2 p (e.face ++ strtrim rest) := by
  induction es with
  | nil => cases he
  | cons f es ih =>
    rw [dispatch]
    have hface := isFace_iff h (hn f List.mem_cons_self)
    by_cases hf : isFace m f.face p = true
    · obtain rfl := hfree f List.mem_cons_self (hface.mp hf)
      obtain ⟨hline, harg⟩ := strAt_trimmed h hlen
      have hle : (strtrim rest).length ≤ rest.length := trim_length_le rest
      have hlt : (strtrim rest).length < 2 ^ 64 := by
        rw [List.length_append] at hlen
        omega
      have htext := textAt_eq harg hlt
      have hsafe : safeStrlen (shellStrtrim m (p + f.face.length)) (p + f.face.length) = (strtrim rest).length :=
        harg.strlen hlt
      rw [if_pos hf]
      simp only [htext, hsafe, ne_eq, List.length_eq_zero_iff, choose]
      split
      · exact ⟨rfl, hline⟩
      · exact ⟨rfl, hline⟩
    · rw [if_neg hf]
      have he' : e ∈ es := (List.mem_cons.mp he).resolve_left fun heq => by
        subst heq
        exact hf (hface.mpr (List.prefix_append _ _))
      exact ih (fun g hg => hn g (List.mem_cons_of_mem _ hg)) he' fun g hg => hfree g (List.mem_cons_of_mem _ hg)

/-- In a prefix-free table one name at most begins a line. -/
theorem PrefixFree.unique (hfree : PrefixFree es) (he : e ∈ es) (hf : f ∈ es) (h1 : e.face <+: s) (h2 : f.face <+: s) :
    f = e := by
  rcases List.prefix_or_prefix_of_prefix h1 h2 with h | h
  · exact (hfree e he f hf h).symm
  · exact hfree f hf e he h

theorem names_noNul : ∀ e ∈ cmds, ∀ c ∈ e.face, c ≠ 0 := fun e he =>
  noNul_of_all (List.all_eq_true.mp (show (cmds.all fun e => e.face.all fun b => b != 0) = true by decide) e he)

theorem names_trimmed : ∀ e ∈ cmds, e.face ≠ [] ∧ trim isspace e.face = e.face := by decide

/-! ## The line again -/

/-- What `shell_fnc` leaves of a line, wherever that is the line again: the same command with
    the same argument is chosen, or there is the same error, and the line stays. If there
    were no blanks at its ends, there are none. -/
theorem rerun_same (m : Mem) (p : Nat) (s : List UInt8) (h : StrAt m p s) (hlen : s.length < 2 ^ 64) :
    ∃ s', StrAt (shellFnc m p).2 p s' ∧ (strtrim s = s → strtrim s' = s') ∧
      ∀ (m' : Mem) (p' : Nat), StrAt m' p' s' →
        (shellFnc m' p').1 = (shellFnc m p).1 ∧ StrAt (shellFnc m' p').2 p' s' := by
  by_cases hex : ∃ e ∈ cmds, e.face <+: s
  · obtain ⟨e, he, rest, rfl⟩ := hex
    have hle : (strtrim rest).length ≤ rest.length := trim_length_le rest
    have hone : ∀ rest, ∀ f ∈ cmds, f.face <+: e.face ++ rest → f = e := fun rest f hf h2 =>
      names_prefixFree.unique he hf (List.prefix_append _ _) h2
    obtain ⟨hsel, hline⟩ := dispatch_some h hlen names_noNul he (hone rest)
    have htrimmed : Trimmed isspace (e.face ++ strtrim rest) := by
      obtain ⟨hne, hface⟩ := names_trimmed e he
      exact trimmed_append (hface ▸ trimmed_trim e.face) hne (trimmed_trim rest)
    refine ⟨e.face ++ strtrim rest, hline, fun _ => trim_of_trimmed htrimmed, ?_⟩
    intro m' p' h'
    rw [List.length_append] at hlen
    obtain ⟨hsel', hline'⟩ := dispatch_some h' (by rw [List.length_append]; omega) names_noNul he (hone _)
    rw [show strtrim (strtrim rest) = strtrim rest from trim_trim rest] at hsel' hline'
    exact ⟨hsel'.trans hsel.symm, hline'⟩
  · have hno : ∀ e ∈ cmds, ¬ e.face <+: s := fun e he hp => hex ⟨e, he, hp⟩
    have hsame := dispatch_none h hlen names_noNul hno
    refine ⟨s, ?_, fun ht => ht, fun m' p' h' => ?_⟩
    · rw [shellFnc, hsame]
      exact h
    · rw [shellFnc, shellFnc, hsame, dispatch_none h' hlen names_noNul hno]
      exact ⟨rfl, h'⟩

/-- A slot with the line "insert  a ". -/
def insertLine : Mem := (⟨fun _ => 0⟩ : Mem).write 16 (face "insert  a " ++ [0])

theorem rerun_same_insert : ∃ s', StrAt (shellFnc insertLine 16).2 16 s' ∧
    ∀ (m' : Mem) (p' : Nat), StrAt m' p' s' →
      (shellFnc m' p').1 = (shellFnc insertLine 16).1 ∧ StrAt (shellFnc m' p').2 p' s' := by
  obtain ⟨s', hs', -, hagain⟩ := rerun_same insertLine 16 (face "insert  a ") (strAt_write _ 16 (noNul_of_all (by decide))) (by decide)
  exact ⟨s', hs', hagain⟩

example : (shellFnc insertLine 16).1 = .run .insert [97] ∧ (shellFnc insertLine 16).2.read 16 8 = face "inserta" ++ [0] := by
  decide +kernel

end Cs238p.Shell
