/-
  Cs238p.Kvdb.IndexRuns — the index over whole runs.

  A run is a list of calls: `index_update`, followed by a store through the slot it
  returned, and `index_lookup`. The reference is a partial map from hashes to offsets.

  Proved: as long as `update` does not reach its `EXIT` the index answers what the map
  answers, across every growth; `size` counts the occupied slots, one for each hash, and a
  table that has been allocated has an empty slot (`index_is_map`).
-/
import Mathlib.Data.Finset.Card
import Mathlib.Data.Finset.Image
import Cs238p.Kvdb.Index

namespace Cs238p.Kvdb

open OpenAddressing
open Cs238p.Logfs (Stop)

/-! ## Counting the slots -/

/-- The slots that are not empty. -/
def Index.occupied (index : Index) : Finset Nat := (Finset.range index.capacity).filter fun j => (index.keyAt j).isSome

/-- The hashes that have a slot. -/
def Index.hashes (index : Index) : Finset UInt64 := index.occupied.image fun j => (index.maps j).key

structure Index.Sized (index : Index) : Prop where
  linked : index.Ok
  size : index.size = index.occupied.card

variable {index t : Index} {k g : UInt64} {j off o : Nat}

theorem keyAt_eq_some : index.keyAt j = some k ↔ (index.maps j).key = k ∧ k ≠ 0 := by
  unfold Index.keyAt
  split
  · rename_i h0
    constructor
    · intro h; cases h
    · intro h
      obtain ⟨hk, hne⟩ := h
      exact absurd (hk.symm.trans h0) hne
  · rename_i hne
    constructor
    · intro h
      cases h
      exact ⟨rfl, hne⟩
    · intro h
      obtain ⟨rfl, -⟩ := h
      rfl

theorem mem_occupied (h : index.Ok) : j ∈ index.occupied ↔ ∃ k, index.keyAt j = some k := by
  rw [Index.occupied, Finset.mem_filter, Finset.mem_range, Option.isSome_iff_exists]
  exact ⟨And.right, fun ⟨k, hk⟩ => ⟨h.lt_capacity hk, k, hk⟩⟩

theorem mem_hashes (h : index.Ok) : k ∈ index.hashes ↔ ∃ off, Holds index k off := by
  rw [Index.hashes, Finset.mem_image]
  constructor
  · intro h
    obtain ⟨j, hj, rfl⟩ := h
    obtain ⟨k, hk⟩ := (mem_occupied h).mp hj
    exact ⟨_, j, by rw [hk, (keyAt_eq_some.mp hk).1], rfl⟩
  · intro h
    obtain ⟨off, j, hj, -⟩ := h
    exact ⟨j, (mem_occupied h).mpr ⟨k, hj⟩, (keyAt_eq_some.mp hj).1⟩

/-- No hash has two slots. -/
theorem card_hashes (h : index.Ok) : index.hashes.card = index.occupied.card := by
  apply Finset.card_image_of_injOn
  intro i hi j hj he
  obtain ⟨k, hk⟩ := (mem_occupied h).mp hi
  obtain ⟨k', hk'⟩ := (mem_occupied h).mp hj
  have hkk : k = k' := by rw [← (keyAt_eq_some.mp hk).1, ← (keyAt_eq_some.mp hk').1]; exact he
  subst hkk
  exact h.unique hk hk'

/-- Tables with the same hashes have the same size. -/
theorem Index.Sized.size_congr (h : index.Sized) (ht : t.Sized) (hh : ∀ k, (∃ o, Holds t k o) ↔ ∃ o, Holds index k o) :
    t.size = index.size := by
  have heq : t.hashes = index.hashes := by
    ext k
    rw [mem_hashes ht.linked, mem_hashes h.linked, hh]
  rw [ht.size, h.size, ← card_hashes ht.linked, ← card_hashes h.linked, heq]

theorem sized_create (capacity : Nat) : (create capacity).Sized := by
  refine ⟨ok_create _, ?_⟩
  have hempty : (create capacity).occupied = ∅ := by
    rw [Finset.eq_empty_iff_forall_notMem]
    intro j hj
    obtain ⟨k, hk⟩ := (mem_occupied (ok_create _)).mp hj
    cases hk
  rw [hempty]
  rfl

theorem Index.Sized.setOff (h : index.Sized) (j off : Nat) : (setOff index j off).Sized := by
  refine ⟨h.linked.setOff j off, h.size.trans ?_⟩
  simp only [Index.occupied, keyAt_setOff]
  rfl

/-- `update` fills the slot it stops at, and counts it. -/
theorem Index.Sized.update (h : index.Sized) (hk : k ≠ 0) (hu : update index k = .ok (j, t)) :
    t.Sized ∧ t.size ≤ index.size + 1 := by
  rcases update_cases h.linked hk hu with ⟨ht, hj, -, rfl | ⟨-, hins, hn⟩⟩
  · exact ⟨h, Nat.le_succ _⟩
  · have hocc : t.occupied = insert j index.occupied := by
      ext m
      rw [Finset.mem_insert, mem_occupied ht, mem_occupied h.linked]
      by_cases e : m = j
      · subst e
        simp [hj]
      · have hm : t.keyAt m = index.keyAt m := by
          rw [hins]
          simp only [Index.keyAt, Function.update_of_ne e]
        simp [e, hm]
    have hnew : j ∉ index.occupied := by
      rw [mem_occupied h.linked, hn]
      simp
    have hsize : t.size = index.size + 1 := by rw [hins]
    refine ⟨⟨ht, ?_⟩, hsize.le⟩
    rw [hocc, Finset.card_insert_of_notMem hnew, hsize, h.size]

theorem Index.Sized.moveAll {old new : Index} (h : new.Sized) : ∀ (n : Nat) {t : Index}, moveAll old n new = .ok t →
    t.Sized ∧ t.capacity = new.capacity := by
  intro n
  induction n with
  | zero => intro t ht; cases ht; exact ⟨h, rfl⟩
  | succ n ih =>
    intro t ht
    unfold Kvdb.moveAll at ht
    cases hm : Kvdb.moveAll old n new with
    | error e => rw [hm] at ht; cases ht
    | ok u =>
      rw [hm] at ht
      simp only [move] at ht
      cases hkey : old.keyAt n with
      | none => rw [hkey] at ht; cases ht; exact ih hm
      | some key =>
        rw [hkey] at ht
        simp only at ht
        cases hup : Kvdb.update u key with
        | error e => rw [hup] at ht; cases ht
        | ok r =>
          rw [hup] at ht
          cases ht
          obtain ⟨hu, hcap⟩ := ih hm
          have hk := keyAt_ne_zero hkey
          obtain ⟨-, -, hcap', -⟩ := update_cases hu.linked hk hup
          exact ⟨(hu.update hk hup).1.setOff _ _, hcap'.trans hcap⟩

/-! ## An empty slot -/

/-- Nothing has been allocated yet, or the table has an empty slot. The first table has
    145 slots, and a table is left behind once more than 70% of it is full. -/
def Index.Roomy (index : Index) : Prop :=
  (index.capacity = 0 ∧ index.size = 0) ∨ (145 ≤ index.capacity ∧ index.size < index.capacity)

theorem Index.Sized.grow (h : index.Sized) (hg : grow index = .ok t) : t.Sized ∧ t.size = index.size := by
  obtain ⟨hok, hholds⟩ := grow_ok h.linked hg
  have ht : t.Sized := by
    unfold Kvdb.grow at hg
    split at hg
    · exact ((sized_create _).moveAll _ hg).1
    · cases hg; exact h
  exact ⟨ht, h.size_congr ht fun k => exists_congr fun o => hholds k o⟩

/-- After `grow` two slots are empty. -/
theorem Index.Roomy.grow (h : index.Roomy) (hs : index.Sized) (hg : grow index = .ok t) :
    145 ≤ t.capacity ∧ t.size + 1 < t.capacity := by
  obtain ⟨-, hsize⟩ := hs.grow hg
  unfold Kvdb.grow at hg
  split at hg
  · obtain ⟨-, hcap⟩ := (sized_create _).moveAll _ hg
    have hcap : t.capacity = (index.capacity + 97) * 3 / 2 := hcap
    rcases h with ⟨h0, h0'⟩ | ⟨h145, hlt⟩
    · omega
    · omega
  · rename_i hload
    cases hg
    simp only [overLoad, Bool.or_eq_true, beq_iff_eq, decide_eq_true_eq, not_or] at hload
    rcases h with ⟨h0, h0'⟩ | ⟨h145, hlt⟩
    · omega
    · omega

/-- `index_update` as a whole: the size it keeps, and the slots it leaves empty. -/
theorem indexUpdate_sized {hash : List UInt8 → UInt64} {bs : List UInt8} (h : index.Sized) (hr : index.Roomy)
    (hu : indexUpdate hash index bs = .ok (j, t)) : t.Sized ∧ t.Roomy := by
  unfold indexUpdate at hu
  split at hu
  · cases hu
  · cases hg : Kvdb.grow index with
    | error e => rw [hg] at hu; cases hu
    | ok u =>
      rw [hg] at hu
      have hk := normalised_ne_zero hash bs
      obtain ⟨h145, hroom⟩ := hr.grow h hg
      obtain ⟨hus, -⟩ := h.grow hg
      obtain ⟨ht, hle⟩ := hus.update hk hu
      obtain ⟨-, -, hcap, -⟩ := update_cases hus.linked hk hu
      exact ⟨ht, Or.inr ⟨by omega, by omega⟩⟩

/-! ## Runs -/

inductive IndexOp where
  /-- `index_update`, and `off` stored through the slot. -/
  | update (key : List UInt8) (off : Nat)
  | lookup (key : List UInt8)

def IndexOp.key : IndexOp → List UInt8
  | .update key _ => key
  | .lookup key => key

/-- One call; the answer is what the slot returned holds, `none` for `NULL`. -/
def indexStep (hash : List UInt8 → UInt64) (index : Index) : IndexOp → Except Stop (Option Nat × Index)
  | .update key off =>
    match indexUpdate hash index key with
    | .error e => .error e
    | .ok (j, index) => .ok (some (index.maps j).off, setOff index j off)
  | .lookup key =>
    match indexLookup hash index key with
    | .error e => .error e
    | .ok r => .ok (r.map fun j => (index.maps j).off, index)

def indexRun (hash : List UInt8 → UInt64) (index : Index) : List IndexOp → Except Stop (List (Option Nat) × Index)
  | [] => .ok ([], index)
  | op :: ops =>
    match indexStep hash index op with
    | .error e => .error e
    | .ok (a, index) =>
      match indexRun hash index ops with
      | .error e => .error e
      | .ok (as, index) => .ok (a :: as, index)

/-- The offset last stored for each hash. -/
abbrev OffMap := UInt64 → Option Nat

def storeOff (hash : List UInt8 → UInt64) (m : OffMap) : IndexOp → OffMap
  | .update key off => Function.update m (normalised hash key) (some off)
  | .lookup _ => m

/-- A fresh slot holds 0. -/
def offAnswer (hash : List UInt8 → UInt64) (m : OffMap) : IndexOp → Option Nat
  | .update key _ => some ((m (normalised hash key)).getD 0)
  | .lookup key => m (normalised hash key)

def offAnswers (hash : List UInt8 → UInt64) (m : OffMap) : List IndexOp → List (Option Nat)
  | [] => []
  | op :: ops => offAnswer hash m op :: offAnswers hash (storeOff hash m op) ops

/-- The hashes that have been updated. -/
def updated (hash : List UInt8 → UInt64) : List IndexOp → Finset UInt64
  | [] => ∅
  | .update key _ :: ops => insert (normalised hash key) (updated hash ops)
  | .lookup _ :: ops => updated hash ops

/-- The index holds the map `m`. -/
structure Maps (index : Index) (m : OffMap) : Prop where
  sized : index.Sized
  roomy : index.Roomy
  holds : ∀ h off, Holds index h off ↔ m h = some off

variable {hash : List UInt8 → UInt64} {m : OffMap} {bs : List UInt8}

theorem maps_open : Maps indexOpen fun _ => none :=
  ⟨sized_create 0, Or.inl ⟨rfl, rfl⟩, fun _ _ => ⟨fun h => absurd h (not_holds_create 0), fun h => by cases h⟩⟩

/-- `index_update` answers the slot of the hash's entry, which holds the offset last stored
    or, when it is fresh, 0; `index_lookup` then answers the same slot. -/
theorem Maps.update (h : Maps index m) (hb : bs.length ≠ 0) (hu : indexUpdate hash index bs = .ok (j, t)) :
    t.keyAt j = some (normalised hash bs) ∧ (t.maps j).off = (m (normalised hash bs)).getD 0 ∧
      indexLookup hash t bs = .ok (some j) ∧
      ∀ off, Maps (setOff t j off) (Function.update m (normalised hash bs) (some off)) := by
  obtain ⟨hok, hj, hholds⟩ := indexUpdate_ok h.sized.linked hb hu
  obtain ⟨hsized, hroomy⟩ := indexUpdate_sized h.sized h.roomy hu
  refine ⟨hj, ?_, ?_, fun off => ⟨hsized.setOff j off, hroomy, ?_⟩⟩
  · rcases (hholds _ _).mp ⟨j, hj, rfl⟩ with hold | ⟨-, h0, hno⟩
    · rw [(h.holds _ _).mp hold, Option.getD_some]
    · have hnone : m (normalised hash bs) = none := by
        cases hm : m (normalised hash bs) with
        | none => rfl
        | some o => exact absurd ((h.holds _ _).mpr hm) (hno o)
      rw [hnone, h0, Option.getD_none]
  · rcases @indexLookup_ok t hash bs hok hb with ⟨j', hl, hj'⟩ | ⟨-, hno⟩
    · rw [hl, hok.unique hj' hj]
    · exact absurd ⟨j, hj, rfl⟩ (hno _)
  · intro g o
    rw [hok.holds_setOff hj]
    by_cases e : g = normalised hash bs
    · subst e
      simp [eq_comm]
    · rw [Function.update_of_ne e, ← h.holds g o, hholds]
      simp [e]

/-- `index_lookup` answers what the map has. -/
theorem Maps.lookup (h : Maps index m) (hash : List UInt8 → UInt64) (hb : bs.length ≠ 0) :
    ∃ r, indexLookup hash index bs = .ok r ∧ r.map (fun j => (index.maps j).off) = m (normalised hash bs) := by
  rcases @indexLookup_ok index hash bs h.sized.linked hb with ⟨j, hl, hj⟩ | ⟨hl, hno⟩
  · exact ⟨_, hl, ((h.holds _ _).mp ⟨j, hj, rfl⟩).symm⟩
  · refine ⟨_, hl, ?_⟩
    cases hm : m (normalised hash bs) with
    | none => rfl
    | some o => exact absurd ((h.holds _ _).mpr hm) (hno o)

theorem Maps.step (h : Maps index m) {op : IndexOp} (hb : op.key.length ≠ 0)
    (hexit : indexStep hash index op ≠ .error .exitIndex) :
    ∃ t, indexStep hash index op = .ok (offAnswer hash m op, t) ∧ Maps t (storeOff hash m op) := by
  cases op with
  | update key off =>
    simp only [indexStep] at hexit ⊢
    cases hu : indexUpdate hash index key with
    | error e =>
      rw [hu, indexUpdate_error hb hu] at hexit
      exact absurd rfl hexit
    | ok r =>
      obtain ⟨j, t⟩ := r
      obtain ⟨-, hoff, -, hmaps⟩ := h.update hb hu
      exact ⟨_, by simp only [hoff]; rfl, hmaps off⟩
  | lookup key =>
    obtain ⟨r, hl, hr⟩ := h.lookup hash hb
    simp only [IndexOp.key] at hl hr
    exact ⟨index, by simp only [indexStep, hl, hr]; rfl, h⟩

theorem Maps.run : ∀ (ops : List IndexOp) {index : Index} {m : OffMap}, Maps index m →
    (∀ op ∈ ops, op.key.length ≠ 0) → indexRun hash index ops ≠ .error .exitIndex →
    ∃ t, indexRun hash index ops = .ok (offAnswers hash m ops, t) ∧ Maps t (ops.foldl (storeOff hash) m) := by
  intro ops
  induction ops with
  | nil => exact fun h _ _ => ⟨_, rfl, h⟩
  | cons op ops ih =>
    intro index m h hb hexit
    have hfirst : indexStep hash index op ≠ .error .exitIndex := fun e => hexit (by simp only [indexRun, e])
    obtain ⟨t, ht, hm⟩ := h.step (hb op List.mem_cons_self) hfirst
    have hrest : indexRun hash index (op :: ops) = (indexRun hash t ops).map fun r =>
      (offAnswer hash m op :: r.1, r.2) := by
      simp only [indexRun, ht]
      cases indexRun hash t ops <;> rfl
    obtain ⟨u, hu, hmu⟩ := ih hm (fun op hop => hb op (List.mem_cons_of_mem _ hop))
      fun e => hexit (by rw [hrest, e]; rfl)
    exact ⟨u, by rw [hrest, hu]; rfl, hmu⟩

/-- The map is defined on the hashes that have been updated. -/
theorem foldl_storeOff_isSome : ∀ (ops : List IndexOp) (m : OffMap) (g : UInt64),
    (ops.foldl (storeOff hash) m g).isSome = true ↔ (m g).isSome = true ∨ g ∈ updated hash ops := by
  intro ops
  induction ops with
  | nil => intro m g; simp [updated]
  | cons op ops ih =>
    intro m g
    rw [List.foldl_cons, ih]
    cases op with
    | lookup key => rfl
    | update key off =>
      by_cases e : g = normalised hash key
      · subst e
        simp [storeOff, updated]
      · simp [storeOff, updated, e]

theorem Maps.hashes (h : Maps index m) : k ∈ index.hashes ↔ (m k).isSome = true := by
  rw [mem_hashes h.sized.linked, Option.isSome_iff_exists]
  exact exists_congr fun o => h.holds k o

/-- For any hash, a run of the index that does not reach the `EXIT` answers what the map of
    the offsets last stored answers. In the index it leaves, `size` counts the occupied
    slots and the hashes updated so far, no hash has two slots, there is an empty slot
    unless nothing has been allocated, and a further `index_update` returns the slot of the
    hash's own entry, or a fresh one holding 0, which `index_lookup` finds again. -/
theorem index_is_map (hash : List UInt8 → UInt64) (ops : List IndexOp) (hb : ∀ op ∈ ops, op.key.length ≠ 0)
    (hexit : indexRun hash indexOpen ops ≠ .error .exitIndex) :
    ∃ index, indexRun hash indexOpen ops = .ok (offAnswers hash (fun _ => none) ops, index) ∧
      index.size = index.occupied.card ∧ index.size = (updated hash ops).card ∧
      (∀ i j g, index.keyAt i = some g → index.keyAt j = some g → i = j) ∧
      (index.capacity ≠ 0 → index.size < index.capacity ∧ ∃ j < index.capacity, index.keyAt j = none) ∧
      ∀ key j t, key.length ≠ 0 → indexUpdate hash index key = .ok (j, t) →
        t.keyAt j = some (normalised hash key) ∧
        (t.maps j).off = ((ops.foldl (storeOff hash) fun _ => none) (normalised hash key)).getD 0 ∧
        indexLookup hash t key = .ok (some j) := by
  obtain ⟨index, hrun, h⟩ := maps_open.run ops hb hexit
  have hhashes : index.hashes = updated hash ops := by
    ext g
    rw [h.hashes, foldl_storeOff_isSome]
    simp
  refine ⟨index, hrun, h.sized.size, ?_, fun i j g hi hj => h.sized.linked.unique hi hj, ?_,
    ?_⟩
  · rw [h.sized.size, ← card_hashes h.sized.linked, hhashes]
  · intro hcap
    have hlt : index.size < index.capacity := by
      rcases h.roomy with ⟨h0, -⟩ | ⟨-, hlt⟩
      · exact absurd h0 hcap
      · exact hlt
    refine ⟨hlt, ?_⟩
    -- otherwise every slot would be occupied
    by_contra hfull
    have hall : index.occupied = Finset.range index.capacity := by
      apply Finset.filter_true_of_mem
      intro j hj
      rw [Option.isSome_iff_ne_none]
      exact fun hn => hfull ⟨j, Finset.mem_range.mp hj, hn⟩
    rw [h.sized.size, hall, Finset.card_range] at hlt
    exact absurd hlt (Nat.lt_irrefl _)
  · intro key j t hkey hu
    obtain ⟨hj, hoff, hl, -⟩ := h.update hkey hu
    exact ⟨hj, hoff, hl⟩

/-- Two keys of one hash: the second update finds the first one's entry. -/
theorem index_is_map_colliding : ∃ index, indexRun (fun _ => 7) indexOpen
    [.lookup [107], .update [107] 18, .update [108] 36, .lookup [107]] = .ok ([none, some 0, some 18, some 36], index) ∧
    index.size = 1 := by
  obtain ⟨index, hrun, -, hsize, -⟩ := index_is_map (fun _ => 7)
    [.lookup [107], .update [107] 18, .update [108] 36, .lookup [107]] (by simp [IndexOp.key]) fun h => by
      cases (show indexRun (fun _ => 7) indexOpen [.lookup [107], .update [107] 18, .update [108] 36, .lookup [107]] =
        .ok _ from rfl).symm.trans h
  exact ⟨index, hrun, hsize⟩

end Cs238p.Kvdb
