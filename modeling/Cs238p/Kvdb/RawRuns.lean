/-
  Cs238p.Kvdb.RawRuns — records over whole runs.

  A run opens a kvraw and then appends records and looks up, at the offset its append
  answered, any record written so far. Nothing is asked of the log below but that it reads
  back what was appended (`ReadsBack`).

  Proved: every lookup answers its record, the offsets are those of the records laid one
  after the other behind the opening one, and the last record ends where the log does
  (`records_round_trip`).
-/
import Cs238p.Kvdb.Raw

namespace Cs238p.Kvdb

open Cs238p.Logfs (Stop Device LogfsSt logfsOpen idle_open)

inductive RawOp where
  | append (r : Rec)
  /-- `kvraw_lookup` where the `i`-th append said, with buffers of these sizes. -/
  | lookup (i keyLen : Nat) (valNull : Bool) (valLen : Nat)

inductive RawAns where
  | offset (off : Nat)
  | found (f : Found)
  /-- There was no such append. -/
  | noRecord
  deriving DecidableEq, Repr

/-- One call, with the offsets answered so far; `none` when it returns -1. -/
def rawStep (k : Kvraw) (offs : List Nat) : RawOp → Except Stop (Option (RawAns × Kvraw × List Nat))
  | .append r =>
    match kvrawAppend k r.key r.val r.prev with
    | .error e => .error e
    | .ok (none, _) => .ok none
    | .ok (some off, k) => .ok (some (.offset off, k, offs ++ [off]))
  | .lookup i keyLen valNull valLen =>
    match offs[i]? with
    | none => .ok (some (.noRecord, k, offs))
    | some off =>
      match kvrawLookup k keyLen valNull valLen off with
      | .error e => .error e
      | .ok (none, _) => .ok none
      | .ok (some f, k) => .ok (some (.found f, k, offs))

def rawRun (k : Kvraw) (offs : List Nat) : List RawOp → Except Stop (Option (List RawAns × Kvraw × List Nat))
  | [] => .ok (some ([], k, offs))
  | op :: ops =>
    match rawStep k offs op with
    | .error e => .error e
    | .ok none => .ok none
    | .ok (some (a, k, offs)) => (rawRun k offs ops).map fun r => r.map fun (as, s) => (a :: as, s)

/-- The value buffer is `NULL` only when it has no bytes. -/
def RawOp.Valid : RawOp → Prop
  | .append _ => True
  | .lookup _ _ valNull valLen => valLen ≠ 0 → valNull = false

/-! ## What the records say -/

def added (recs : List Rec) : RawOp → List Rec
  | .append r => recs ++ [r]
  | .lookup _ _ _ _ => recs

def rawAnswer (recs : List Rec) : RawOp → RawAns
  | .append _ => .offset (image (opening :: recs)).length
  | .lookup i keyLen _ valLen =>
    match recs[i]? with
    | none => .noRecord
    | some r => .found (r.found keyLen valLen)

def rawAnswers (recs : List Rec) : List RawOp → List RawAns
  | [] => []
  | op :: ops => rawAnswer recs op :: rawAnswers (added recs op) ops

/-- Records one right after the other, from `p` to `q`. -/
inductive Laid : Nat → List (Nat × Rec) → Nat → Prop
  | nil (p : Nat) : Laid p [] p
  | cons {p q : Nat} {r : Rec} {l : List (Nat × Rec)} : Laid (p + (16 + r.key.length + r.val.length)) l q →
      Laid p ((p, r) :: l) q

/-- Where the records after the opening one start. -/
def starts (recs : List Rec) : List Nat := (List.range recs.length).map fun i => (image (opening :: recs.take i)).length

variable {recs : List Rec} {r : Rec} {k : Kvraw} {N : Nat} {P : LogfsSt → List UInt8 → Prop}

theorem Laid.append {p q : Nat} {l : List (Nat × Rec)} (h : Laid p l q) (r : Rec) :
    Laid p (l ++ [(q, r)]) (q + (16 + r.key.length + r.val.length)) := by
  induction h with
  | nil p => exact .cons (.nil _)
  | cons _ ih => exact .cons ih

/-- Whatever is laid from `p` on starts at `p` or later, in order. -/
theorem Laid.increasing {p q : Nat} {l : List (Nat × Rec)} (h : Laid p l q) :
    (∀ x ∈ l, p ≤ x.1) ∧ (l.map Prod.fst).Pairwise (· < ·) := by
  induction h with
  | nil p => exact ⟨fun _ hx => absurd hx List.not_mem_nil, .nil⟩
  | @cons p q r l _ ih =>
    obtain ⟨hge, hlt⟩ := ih
    refine ⟨?_, .cons ?_ hlt⟩
    · intro x hx
      rcases List.mem_cons.mp hx with rfl | hx
      · exact Nat.le_refl _
      · have := hge x hx; omega
    · intro o ho
      obtain ⟨x, hx, rfl⟩ := List.mem_map.mp ho
      have := hge x hx
      have := r.key_pos
      show p < x.1
      omega

@[simp] theorem length_starts (recs : List Rec) : (starts recs).length = recs.length := by simp [starts]

theorem starts_append (recs : List Rec) (r : Rec) :
    starts (recs ++ [r]) = starts recs ++ [(image (opening :: recs)).length] := by
  unfold starts
  rw [List.length_append, List.length_singleton, List.range_succ, List.map_append, List.map_singleton,
    List.take_left']
  · congr 1
    apply List.map_congr_left
    intro i hi
    rw [List.take_append_of_le_length (List.mem_range.mp hi).le]
  · rfl

theorem at_starts {i off : Nat} (ho : (starts recs)[i]? = some off) (hr : recs[i]? = some r) :
    At (opening :: recs) off r ∧ off ≠ 0 := by
  obtain ⟨hi, rfl⟩ := List.getElem?_eq_some_iff.mp hr
  rw [List.getElem?_eq_getElem (by rw [length_starts]; exact hi)] at ho
  cases ho
  simp only [starts, List.getElem_map, List.getElem_range]
  refine ⟨⟨opening :: recs.take i, recs.drop (i + 1), ?_, rfl⟩, ?_⟩
  · rw [List.cons_append, ← List.drop_eq_getElem_cons hi, List.take_append_drop]
  · rw [image_cons, List.length_append, Rec.length_bytes]; omega

theorem laid_starts (recs : List Rec) :
    Laid 0 ((0, opening) :: (starts recs).zip recs) (image (opening :: recs)).length := by
  induction recs using List.reverseRecOn with
  | nil => exact .cons (.nil _)
  | append_singleton recs r ih =>
    have h := ih.append r
    rw [starts_append, List.zip_append (length_starts recs), List.zip_cons_cons, List.zip_nil_left]
    rw [List.cons_append] at h
    have hlen : (image (opening :: (recs ++ [r]))).length =
        (image (opening :: recs)).length + (16 + r.key.length + r.val.length) := by
      rw [← List.cons_append, image_append, List.length_append, image_cons r, List.length_append, Rec.length_bytes]
      rfl
    rw [hlen]
    exact h

/-! ## Runs -/

theorem rawStep_ok (hP : ReadsBack N P) (h : Written P k (opening :: recs)) {op : RawOp} (hv : op.Valid)
    (hf : (image (opening :: added recs op)).length ≤ N) :
    ∃ k', rawStep k (starts recs) op = .ok (some (rawAnswer recs op, k', starts (added recs op))) ∧
      Written P k' (opening :: added recs op) := by
  cases op with
  | append r =>
    have hlen : (image (opening :: (recs ++ [r]))).length = (image (opening :: recs)).length + r.bytes.length := by
      rw [← List.cons_append, image_append, List.length_append, image_cons r, List.length_append]
      rfl
    obtain ⟨k', hk, hw⟩ := h.append hP r (by rw [← hlen]; exact hf)
    refine ⟨k', ?_, hw⟩
    simp only [rawStep, hk, rawAnswer, added, starts_append]
  | lookup i keyLen valNull valLen =>
    cases hr : recs[i]? with
    | none =>
      have ho : (starts recs)[i]? = none := by
        rw [List.getElem?_eq_none_iff, length_starts]
        exact List.getElem?_eq_none_iff.mp hr
      exact ⟨k, by simp only [rawStep, ho, rawAnswer, hr, added], h⟩
    | some r =>
      obtain ⟨off, ho⟩ : ∃ off, (starts recs)[i]? = some off := by
        have hi := (List.getElem?_eq_some_iff.mp hr).1
        exact ⟨_, List.getElem?_eq_getElem (by rw [length_starts]; exact hi)⟩
      obtain ⟨hat, h0⟩ := at_starts ho hr
      obtain ⟨k', hk, hw⟩ := h.lookup hP hat h0 keyLen hv
      exact ⟨k', by simp only [rawStep, ho, hk, rawAnswer, hr, added], hw⟩

theorem length_le_foldl_added : ∀ (ops : List RawOp) (recs : List Rec),
    (image (opening :: recs)).length ≤ (image (opening :: ops.foldl added recs)).length := by
  intro ops
  induction ops with
  | nil => exact fun _ => Nat.le_refl _
  | cons op ops ih =>
    intro recs
    refine Nat.le_trans ?_ (ih (added recs op))
    cases op with
    | append r => simp only [added, image_cons, image_append, List.length_append]; omega
    | lookup => exact Nat.le_refl _

theorem rawRun_ok (hP : ReadsBack N P) : ∀ (ops : List RawOp) {k : Kvraw} {recs : List Rec},
    Written P k (opening :: recs) → (∀ op ∈ ops, op.Valid) → (image (opening :: ops.foldl added recs)).length ≤ N →
    ∃ k', rawRun k (starts recs) ops = .ok (some (rawAnswers recs ops, k', starts (ops.foldl added recs))) ∧
      Written P k' (opening :: ops.foldl added recs) := by
  intro ops
  induction ops with
  | nil => exact fun h _ _ => ⟨_, rfl, h⟩
  | cons op ops ih =>
    intro k recs h hv hf
    obtain ⟨k₁, hk, hw⟩ := rawStep_ok hP h (hv op List.mem_cons_self) ((length_le_foldl_added ops _).trans hf)
    obtain ⟨k₂, hk₂, hw₂⟩ := ih hw (fun op hop => hv op (List.mem_cons_of_mem _ hop)) hf
    refine ⟨k₂, ?_, hw₂⟩
    simp only [rawRun, hk, hk₂]
    rfl

/-- Over any log that reads back what was appended, as long as everything fits: opening
    writes the opening record, every append answers an offset and every lookup of a record
    written so far, with any buffer sizes, its lengths, its previous offset and as much of
    its key and its value as the buffers hold. The offsets are not 0, strictly increase, and
    the records lie one right after the other from 0 to the size. -/
theorem records_round_trip (hP : ReadsBack N P) (d : Device) (junk : Nat → List UInt8) (sched : List Nat)
    (faults : List Bool) (hopen : P (logfsOpen d junk sched faults) []) (ops : List RawOp) (hv : ∀ op ∈ ops, op.Valid)
    (hf : (image (opening :: ops.foldl added [])).length ≤ N) :
    ∃ k k' offs, kvrawOpen d junk sched faults [] = .ok (some k) ∧
      rawRun k [] ops = .ok (some (rawAnswers [] ops, k', offs)) ∧
      offs.length = (ops.foldl added []).length ∧ (∀ off ∈ offs, off ≠ 0) ∧ offs.Pairwise (· < ·) ∧
      Laid 0 ((0, opening) :: offs.zip (ops.foldl added [])) k'.size ∧
      P k'.logfs (image (opening :: ops.foldl added [])) := by
  have hw : Written P ⟨0, logfsOpen d junk sched faults, []⟩ [] := ⟨hopen, rfl, rfl⟩
  obtain ⟨k, hk, hw⟩ := hw.append hP opening ((length_le_foldl_added ops []).trans hf)
  obtain ⟨k', hrun, hw'⟩ := rawRun_ok hP ops hw hv hf
  have hlaid := laid_starts (ops.foldl added [])
  have hfst : ((starts (ops.foldl added [])).zip (ops.foldl added [])).map Prod.fst = starts (ops.foldl added []) :=
    List.map_fst_zip (length_starts _).le
  obtain ⟨-, hpair⟩ := hlaid.increasing
  rw [List.map_cons, hfst, List.pairwise_cons] at hpair
  refine ⟨k, k', _, ?_, hrun, length_starts _, fun off ho => (hpair.1 off ho).ne', hpair.2, ?_, hw'.log⟩
  · simp only [kvrawOpen, show kvrawAppend _ [0] [0] 0 = _ from hk]
  · rw [hw'.size]
    exact hlaid

/-- Two records on a device of 96 bytes, the second without a value, and both read back. -/
theorem records_round_trip_two_records : ∃ k k' offs,
    kvrawOpen ⟨96, 16, ⟨fun _ => 0⟩, by decide, by decide, by decide⟩ (fun _ => []) [1] [] [] = .ok (some k) ∧
    rawRun k [] [.append ⟨0, [107], [1, 2, 3], by decide, by decide, by decide, by decide⟩,
      .append ⟨18, [108, 109], [], by decide, by decide, by decide, by decide⟩, .lookup 1 1 true 0,
        .lookup 0 4 false 2] =
      .ok (some ([.offset 18, .offset 38, .found ⟨[108], 2, [], 0, 18⟩, .found ⟨[107], 1, [1, 2], 3, 0⟩], k',
        offs)) := by
  obtain ⟨k, k', offs, hk, hrun, -⟩ := records_round_trip (readsBack_onDevice 96)
    ⟨96, 16, ⟨fun _ => 0⟩, by decide, by decide, by decide⟩ (fun _ => []) [1] [] ⟨idle_open _ _ _, rfl⟩
    [.append ⟨0, [107], [1, 2, 3], by decide, by decide, by decide, by decide⟩,
      .append ⟨18, [108, 109], [], by decide, by decide, by decide, by decide⟩, .lookup 1 1 true 0, .lookup 0 4 false 2]
    (by simp [RawOp.Valid]) (by decide)
  exact ⟨k, k', offs, hk, hrun⟩

end Cs238p.Kvdb
