/-
  Cs238p.Kvdb.Sessions — kvdb is a finite map.

  Proved: a session answers what the map answers exactly when no `kvdb_remove` asks for
  the length alone (`answers_iff`). Its assertion refuses the query (no buffer, length 0)
  that the one of `kvdb_lookup` admits (`a_length_query_aborts`).
-/
import Cs238p.Kvdb.StoreProofs

namespace Cs238p.Kvdb

open Cs238p.Logfs (Stop Device idle_open logfsOpen)

variable {hash : List UInt8 → UInt64} {N : Nat}

/-! ## Sessions -/

def run (hash : List UInt8 → UInt64) (s : KvdbSt) : List Op → Except Stop (List Answer × KvdbSt)
  | [] => .ok ([], s)
  | op :: ops =>
    match call hash s op with
    | .error e => .error e
    | .ok (a, s) =>
      match run hash s ops with
      | .error e => .error e
      | .ok (as, s) => .ok (a :: as, s)

/-- A store is opened and called; `none` when `kvdb_open` returns `NULL`. No read or append
    fails. -/
def session (hash : List UInt8 → UInt64) (device : Device) (junk : Nat → List UInt8) (sched : List Nat) (ops : List Op)
    :
    Except Stop (Option (List Answer)) :=
  match kvdbOpen device junk sched [] [] with
  | .error e => .error e
  | .ok none => .ok none
  | .ok (some s) => (run hash s ops).map fun r => some r.1

def answers (m : Map) : List Op → List Answer
  | [] => []
  | op :: ops => expected m op :: answers (rebind m op) ops

/-- The log, `used` bytes long at first, stays inside `size` bytes. -/
def Fits (size : Nat) : Nat → Map → List Op → Prop
  | used, _, [] => used ≤ size
  | used, m, op :: ops => used + written m op ≤ size ∧ Fits size (used + written m op) (rebind m op) ops

theorem Fits.le {m : Map} {used : Nat} {ops : List Op} (h : Fits N used m ops) : used ≤ N := by
  cases ops with
  | nil => exact h
  | cons op ops => have := h.1; omega

/-- Opening writes the first record. -/
theorem kvdbOpen_ok (hash : List UInt8 → UInt64) (d : Device) (junk : Nat → List UInt8) (sched : List Nat)
    (hfit : 18 ≤ d.size) :
    ∃ s, kvdbOpen d junk sched [] [] = .ok (some s) ∧ Inv hash d.size s [] := by
  have hraw : RawRepr d.size ⟨0, logfsOpen d junk sched [], []⟩ [] :=
    ⟨idle_open d junk sched, rfl, rfl, Nat.zero_le _, rfl⟩
  obtain ⟨k, hk, hr⟩ := kvrawAppend_ok hraw opening
    (show 0 + opening.bytes.length ≤ _ by rw [Rec.length_bytes]; exact hfit)
  refine ⟨⟨0, 0, k, indexOpen⟩, ?_, ⟨hr, ok_create 0, fun h off hh => absurd hh (not_holds_create 0), fun _ _ => rfl⟩⟩
  simp only [kvdbOpen, kvrawOpen, show kvrawAppend _ [0] [0] 0 = _ from hk]

theorem run_iff : ∀ (ops : List Op) {s : KvdbSt} {recs : List Rec}, Inv hash N s recs → (∀ op ∈ ops, op.Valid) →
    Fits N (image (opening :: recs)).length (bindings recs) ops → run hash s ops ≠ .error .exitIndex →
    ((∃ s', run hash s ops = .ok (answers (bindings recs) ops, s')) ↔ ∀ op ∈ ops, ¬ op.LengthQuery) := by
  intro ops
  induction ops with
  | nil => exact fun _ _ _ _ => ⟨fun _ op hop => absurd hop List.not_mem_nil, fun _ => ⟨_, rfl⟩⟩
  | cons op ops ih =>
    intro s recs h hv hf hexit
    by_cases hq : op.LengthQuery
    · have hcall : call hash s op = .error .assert := call_lengthQuery hq
      refine ⟨?_, fun hall => absurd hq (hall op List.mem_cons_self)⟩
      intro h
      obtain ⟨s', hrun⟩ := h
      simp only [run, hcall] at hrun
      cases hrun
    · obtain ⟨s', hcall, recs', hi, hm, hu⟩ := call_ok h (hv op List.mem_cons_self) hq hf.1
        fun e => hexit (by simp only [run, e])
      have hrun : run hash s (op :: ops) = (run hash s' ops).map fun r =>
        (expected (bindings recs) op :: r.1, r.2) := by
        simp only [run, hcall]
        cases run hash s' ops <;> rfl
      have hih := ih hi (fun op hop => hv op (List.mem_cons_of_mem _ hop)) (by rw [hm, hu]; exact hf.2)
        fun e => hexit (by rw [hrun, e]; rfl)
      rw [hm] at hih
      rw [hrun, List.forall_mem_cons, ← hih]
      constructor
      · intro h
        obtain ⟨t, ht⟩ := h
        refine ⟨hq, ?_⟩
        cases hr : run hash s' ops with
        | error e => rw [hr] at ht; cases ht
        | ok r =>
          rw [hr] at ht
          simp only [Except.map, answers, Except.ok.injEq, Prod.mk.injEq, List.cons.injEq, true_and] at ht
          exact ⟨r.2, by rw [← ht.1]⟩
      · intro h
        obtain ⟨-, t, ht⟩ := h
        exact ⟨t, by rw [ht]; rfl⟩

/-- For any hash, any keys and values, any buffers and any schedule of the background
    writer: as long as the log fits the device and the index does not give up, a session
    answers what the map answers iff it has no remove that asks for the length alone. (Block
    3, which the caches of the log cannot hold when it exists, lies in the opening record.) -/
theorem answers_iff (hash : List UInt8 → UInt64) (d : Device) (junk : Nat → List UInt8) (sched : List Nat)
    (ops : List Op) (hv : ∀ op ∈ ops, op.Valid) (hf : Fits d.size 18 (fun _ => none) ops)
    (hexit : session hash d junk sched ops ≠ .error .exitIndex) :
    session hash d junk sched ops = .ok (some (answers (fun _ => none) ops)) ↔ ∀ op ∈ ops, ¬ op.LengthQuery := by
  obtain ⟨s, hs, hi⟩ := kvdbOpen_ok hash d junk sched hf.le
  unfold session at hexit ⊢
  simp only [hs] at hexit ⊢
  rw [← run_iff ops hi hv hf fun e => hexit (by rw [e]; rfl)]
  cases run hash s ops with
  | error e =>
    constructor
    · intro h; cases h
    · intro hh
      obtain ⟨_, h⟩ := hh
      cases h
  | ok r =>
    constructor
    · intro h
      simp only [Except.map, Except.ok.injEq, Option.some.injEq] at h
      exact ⟨r.2, by rw [show bindings [] = fun _ => none from rfl, ← h]⟩
    · intro h
      obtain ⟨t, ht⟩ := h
      cases ht
      rfl

def device128 : Device := ⟨128, 16, ⟨fun _ => 0⟩, by decide, by decide, by decide⟩

/-- Two keys of one hash, of which one is removed. -/
def colliding : List Op :=
  [.insert [107] [1, 2, 3], .insert [108] [9], .lookup [107] (some [0, 0]) (some 2), .remove [107] (some [0]) (some 1),
    .lookup [107] none none]

theorem answers_colliding : session (fun _ => 7) device128 (fun _ => []) [1] colliding =
    .ok (some [⟨.done, none, []⟩, ⟨.done, none, []⟩, ⟨.done, some 3, [1, 2]⟩, ⟨.done, some 3, [1]⟩,
      ⟨.invalid, none, []⟩]) := by
  refine (answers_iff (fun _ => 7) device128 (fun _ => []) [1] colliding ?_ ?_ ?_).mpr ?_
  · simp [colliding, Op.Valid, KeyOk, ValOk, BufOk]
  · simp [colliding, Fits, written, rebind, device128]
  · intro h
    have hok : (session (fun _ => 7) device128 (fun _ => []) [1] colliding).toBool = true := by decide +kernel
    rw [h] at hok
    cases hok
  · simp [colliding, Op.LengthQuery]

/-- A key is inserted, then removed with no buffer and a length of 0. -/
theorem a_length_query_aborts :
    ¬ ∀ (hash : List UInt8 → UInt64) (d : Device) (junk : Nat → List UInt8) (sched : List Nat) (ops : List Op),
      ¬ d.block ∣ 3 → (∀ op ∈ ops, op.Valid) → Fits d.size 18 (fun _ => none) ops →
      session hash d junk sched ops ≠ .error .exitIndex →
      session hash d junk sched ops = .ok (some (answers (fun _ => none) ops)) := by
  intro hall
  have habort : session (fun _ => 7) device128 (fun _ => []) [] [.insert [107] [1], .remove [107] none (some 0)] =
      .error .assert := rfl
  have h := hall (fun _ => 7) device128 (fun _ => []) [] [.insert [107] [1], .remove [107] none (some 0)] (by decide)
    (by simp [Op.Valid, KeyOk, ValOk, BufOk]) (by simp [Fits, written, rebind, device128]) (by rw [habort]; decide)
  rw [habort] at h
  cases h

end Cs238p.Kvdb
