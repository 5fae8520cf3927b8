/-
  Cs238p.Kvdb.Index — the hash index (`project-4/index.c`): from the hash of a key to the
  offset of the newest record of that hash. Linear probing over `capacity` slots, an entry
  with key 0 being an empty one; nothing is ever removed.

  `hash` is a parameter. The probe `(key + i) % capacity` is taken in 64 bits, so it may
  wrap before the remainder is taken. The load test is `size / capacity` against 0.70 in
  `double`; the model compares `7 * capacity` with `10 * size`, which is the same below
  2^48 entries. Allocation succeeds.

  Proved: `index_update` and `index_lookup` are a map from hashes to offsets (`Holds`),
  which growing keeps, as long as `update` does not reach its `EXIT`.
-/
import Cs238p.Lib.OpenAddressing
import Cs238p.Logfs.Device

namespace Cs238p.Kvdb

open OpenAddressing
open Cs238p.Logfs (Stop)

structure Entry where
  key : UInt64
  off : Nat
  deriving DecidableEq, Repr

structure Index where
  size : Nat
  capacity : Nat
  maps : Nat → Entry

/-- `create`: the slots are zeroed. -/
def create (capacity : Nat) : Index := ⟨0, capacity, fun _ => ⟨0, 0⟩⟩

/-- `index_open`. -/
def indexOpen : Index := create 0

def probe (capacity : Nat) (key : UInt64) (i : Nat) : Nat := (key.toNat + i) % 2 ^ 64 % capacity

/-- The key in a slot, if it is not empty. -/
def Index.keyAt (index : Index) (j : Nat) : Option UInt64 :=
  if (index.maps j).key = 0 then none else some (index.maps j).key

/-- The loop of `update` and of `index_lookup`: the first slot on `key`'s way that is empty
    or has `key`. -/
def seek (index : Index) (key : UInt64) : Option Nat :=
  (search (probe index.capacity) index.capacity index.keyAt key).map (probe index.capacity key)

/-- `update`: the slot of `key`, a fresh one holding 0 if it had none. -/
def update (index : Index) (key : UInt64) : Except Stop (Nat × Index) :=
  match seek index key with
  | none => .error .exitIndex
  | some j =>
    match index.keyAt j with
    | none => .ok (j, { index with maps := Function.update index.maps j ⟨key, 0⟩, size := index.size + 1 })
    | some _ => .ok (j, index)

/-- A store through the pointer that `update` returned. -/
def setOff (index : Index) (j off : Nat) : Index :=
  { index with maps := Function.update index.maps j ⟨(index.maps j).key, off⟩ }

/-- One turn of the loop of `grow`: the entry of a slot moves to the new table. -/
def move (old : Index) (new : Index) (i : Nat) : Except Stop Index :=
  match old.keyAt i with
  | none => .ok new
  | some key =>
    match update new key with
    | .error e => .error e
    | .ok (j, new) => .ok (setOff new j (old.maps i).off)

def moveAll (old : Index) : Nat → Index → Except Stop Index
  | 0, new => .ok new
  | n + 1, new =>
    match moveAll old n new with
    | .error e => .error e
    | .ok new => move old new n

/-- `LOAD < load`. -/
def overLoad (index : Index) : Bool := index.capacity == 0 || 7 * index.capacity < 10 * index.size

def grow (index : Index) : Except Stop Index :=
  if overLoad index then moveAll index index.capacity (create ((index.capacity + 97) * 3 / 2)) else .ok index

/-- `key ? key : (key + 1)` of a key's hash: 0 marks an empty slot. -/
def normalised (hash : List UInt8 → UInt64) (key : List UInt8) : UInt64 :=
  if hash key = 0 then 1 else hash key

/-- `index_update`. -/
def indexUpdate (hash : List UInt8 → UInt64) (index : Index) (key : List UInt8) : Except Stop (Nat × Index) :=
  if key.length = 0 then .error .assert
  else
    match grow index with
    | .error e => .error e
    | .ok index => update index (normalised hash key)

/-- `index_lookup`; `none` is `NULL`. -/
def indexLookup (hash : List UInt8 → UInt64) (index : Index) (key : List UInt8) : Except Stop (Option Nat) :=
  if key.length = 0 then .error .assert
  else
    match seek index (normalised hash key) with
    | none => .ok none
    | some j => .ok ((index.keyAt j).map fun _ => j)

/-! ## What an index holds -/

/-- Every key sits where its search stops. -/
def Index.Ok (index : Index) : Prop := Linked (probe index.capacity) index.capacity index.keyAt

/-- The index has an entry for `key`, with `off`. -/
def Holds (index : Index) (key : UInt64) (off : Nat) : Prop :=
  ∃ j, index.keyAt j = some key ∧ (index.maps j).off = off

variable {index t : Index} {key k : UInt64} {i j off o : Nat}

theorem normalised_ne_zero (hash : List UInt8 → UInt64) (k : List UInt8) : normalised hash k ≠ 0 := by
  unfold normalised
  split
  · decide
  · assumption

theorem ok_create (capacity : Nat) : (create capacity).Ok := linked_empty

theorem not_holds_create (capacity : Nat) : ¬ Holds (create capacity) k o := by
  intro hh
  obtain ⟨j, h, -⟩ := hh
  cases h

theorem Index.Ok.holds_unique (h : index.Ok) (h1 : Holds index k off) (h2 : Holds index k o) : off = o := by
  obtain ⟨j, hj, rfl⟩ := h1
  obtain ⟨j', hj', rfl⟩ := h2
  rw [h.unique hj hj']

/-- `seek` stops at an empty slot or at the key's own. -/
theorem seek_eq_some (h : seek index key = some j) :
    ∃ i, search (probe index.capacity) index.capacity index.keyAt key = some i ∧
    probe index.capacity key i = j ∧ (index.keyAt j = none ∨ index.keyAt j = some key) := by
  obtain ⟨i, hi, rfl⟩ := Option.map_eq_some_iff.mp h
  exact ⟨i, hi, rfl, (search_eq_some.mp hi).2.1⟩

theorem Index.Ok.seek_of_mem (h : index.Ok) (hj : index.keyAt j = some key) : seek index key = some j := by
  obtain ⟨i, hs, rfl⟩ := h.search_of_mem hj
  simp only [seek, hs, Option.map_some]

/-- What `update` answers: the slot of the key, which was there already or is new. -/
theorem update_cases (h : index.Ok) (hk : key ≠ 0) (hu : update index key = .ok (j, t)) :
    t.Ok ∧ t.keyAt j = some key ∧ t.capacity = index.capacity ∧
      (t = index ∨ (∀ o, ¬ Holds index key o) ∧
        t = { index with maps := Function.update index.maps j ⟨key, 0⟩, size := index.size + 1 } ∧
          index.keyAt j = none) := by
  unfold update at hu
  cases hs : seek index key with
  | none => rw [hs] at hu; cases hu
  | some j' =>
    rw [hs] at hu
    obtain ⟨i, hi, hp, hstop⟩ := seek_eq_some hs
    rcases hstop with hn | hsome
    · simp only [hn] at hu
      cases hu
      have hkey : (Index.mk (index.size + 1) index.capacity (Function.update index.maps j ⟨key, 0⟩)).keyAt =
          Function.update index.keyAt j (some key) := by
        funext m
        by_cases e : m = j
        · subst e; simp [Index.keyAt, hk]
        · simp [Index.keyAt, Function.update_of_ne e]
      obtain ⟨hlt, -, hfirst⟩ := search_eq_some.mp hi
      refine ⟨?_, by rw [hkey, Function.update_self], rfl, Or.inr ⟨?_, rfl, hn⟩⟩
      · unfold Index.Ok
        rw [hkey, ← hp]
        exact h.put hlt (by rw [hp]; exact hn) hfirst
      · intro o h
        obtain ⟨m, hm, -⟩ := h
        exact h.not_mem_of_stop hi (by rw [hp]; exact hn) m hm
    · simp only [hsome] at hu
      cases hu
      exact ⟨h, hsome, rfl, Or.inl rfl⟩

theorem update_error {e : Stop} (hu : update index key = .error e) : e = .exitIndex := by
  unfold update at hu
  cases hs : seek index key with
  | none => rw [hs] at hu; cases hu; rfl
  | some j =>
    rw [hs] at hu
    cases hn : index.keyAt j with
    | none => simp only [hn] at hu; cases hu
    | some _ => simp only [hn] at hu; cases hu

@[simp] theorem keyAt_setOff (index : Index) (j off : Nat) : (setOff index j off).keyAt = index.keyAt := by
  funext m
  by_cases e : m = j
  · subst e; simp [Index.keyAt, setOff]
  · simp [Index.keyAt, setOff, Function.update_of_ne e]

theorem Index.Ok.setOff (h : index.Ok) (j off : Nat) : (setOff index j off).Ok := by
  unfold Index.Ok
  rw [keyAt_setOff]
  exact h

/-- Storing an offset through a key's slot. -/
theorem Index.Ok.holds_setOff (h : index.Ok) (hj : index.keyAt j = some key) :
    Holds (Kvdb.setOff index j off) k o ↔ (k = key ∧ o = off) ∨ (k ≠ key ∧ Holds index k o) := by
  unfold Holds
  rw [keyAt_setOff]
  constructor
  · intro h
    obtain ⟨m, hm, ho⟩ := h
    by_cases e : m = j
    · subst e
      rw [hj] at hm
      cases hm
      exact Or.inl ⟨rfl, by simpa [Kvdb.setOff] using ho.symm⟩
    · refine Or.inr ⟨fun hk => e ?_, m, hm, by simpa [Kvdb.setOff, Function.update_of_ne e] using ho⟩
      subst hk
      exact h.unique hm hj
  · intro h
    rcases h with ⟨rfl, rfl⟩ | ⟨hk, m, hm, ho⟩
    · exact ⟨j, hj, by simp [Kvdb.setOff]⟩
    · have e : m ≠ j := by
        intro e
        subst e
        rw [hj] at hm
        cases hm
        exact hk rfl
      exact ⟨m, hm, by simpa [Kvdb.setOff, Function.update_of_ne e] using ho⟩

/-- `update` makes an entry with offset 0 for a key that has none and changes no other. -/
theorem holds_update (h : index.Ok) (hk : key ≠ 0) (hu : update index key = .ok (j, t)) :
    Holds t k o ↔ Holds index k o ∨ (k = key ∧ o = 0 ∧ ∀ o', ¬ Holds index key o') := by
  rcases update_cases h hk hu with ⟨-, hj, -, rfl | ⟨hno, rfl, hn⟩⟩
  · constructor
    · exact Or.inl
    · intro h
      rcases h with hh | ⟨-, -, hno⟩
      · exact hh
      · exact absurd ⟨j, hj, rfl⟩ (hno (t.maps j).off)
  · constructor
    · intro h
      obtain ⟨m, hm, ho⟩ := h
      by_cases e : m = j
      · subst e
        rw [hj] at hm
        cases hm
        exact Or.inr ⟨rfl, by simpa using ho.symm, hno⟩
      · simp only [Index.keyAt, Function.update_of_ne e] at hm ho
        exact Or.inl ⟨m, hm, ho⟩
    · intro h
      rcases h with ⟨m, hm, ho⟩ | ⟨rfl, rfl, -⟩
      · have e : m ≠ j := by
          intro e
          subst e
          rw [hn] at hm
          cases hm
        exact ⟨m, by simpa only [Index.keyAt, Function.update_of_ne e] using hm,
          by simpa only [Function.update_of_ne e] using ho⟩
      · exact ⟨j, hj, by simp⟩

/-- `update` and a store through its slot: the key gets the offset, the others keep theirs. -/
theorem holds_update_setOff (h : index.Ok) (hk : key ≠ 0) (hu : update index key = .ok (j, t)) :
    Holds (setOff t j off) k o ↔ (k = key ∧ o = off) ∨ (k ≠ key ∧ Holds index k o) := by
  obtain ⟨ht, hj, -, -⟩ := update_cases h hk hu
  rw [ht.holds_setOff hj, holds_update h hk hu]
  constructor
  · intro h
    rcases h with he | ⟨hne, hh | ⟨rfl, -, -⟩⟩
    · exact Or.inl he
    · exact Or.inr ⟨hne, hh⟩
    · exact absurd rfl hne
  · intro h
    rcases h with he | ⟨hne, hh⟩
    · exact Or.inl he
    · exact Or.inr ⟨hne, Or.inl hh⟩

/-! ## Growing -/

theorem keyAt_ne_zero (h : index.keyAt j = some key) : key ≠ 0 := by
  unfold Index.keyAt at h
  split at h
  · cases h
  · rename_i hne
    cases h
    exact hne

/-- The new table has what the slots moved so far had. -/
theorem moveAll_ok {old new : Index} (ho : old.Ok) (hnew : new.Ok) (hempty : ∀ k o, ¬ Holds new k o) :
    ∀ (n : Nat) {t : Index}, moveAll old n new = .ok t →
      t.Ok ∧ ∀ k o, Holds t k o ↔ ∃ j < n, old.keyAt j = some k ∧ (old.maps j).off = o := by
  intro n
  induction n with
  | zero =>
    intro t ht
    cases ht
    exact ⟨hnew, fun k o => ⟨fun h => absurd h (hempty k o), fun ⟨j, hj, _⟩ => absurd hj (Nat.not_lt_zero j)⟩⟩
  | succ n ih =>
    intro t ht
    unfold moveAll at ht
    cases hm : moveAll old n new with
    | error e => rw [hm] at ht; cases ht
    | ok u =>
      rw [hm] at ht
      obtain ⟨hu, hholds⟩ := ih hm
      simp only [move] at ht
      cases hkey : old.keyAt n with
      | none =>
        rw [hkey] at ht
        cases ht
        refine ⟨hu, fun k o => (hholds k o).trans ⟨fun ⟨j, hj, h⟩ => ⟨j, by omega, h⟩, fun ⟨j, hj, h⟩ => ⟨j, ?_, h⟩⟩⟩
        have hne : j ≠ n := by
          intro e
          subst e
          rw [hkey] at h
          cases h.1
        omega
      | some key =>
        have hk := keyAt_ne_zero hkey
        rw [hkey] at ht
        simp only at ht
        cases hup : update u key with
        | error e => rw [hup] at ht; cases ht
        | ok r =>
          obtain ⟨j', v⟩ := r
          rw [hup] at ht
          cases ht
          refine ⟨(update_cases hu hk hup).1.setOff _ _, ?_⟩
          intro k o
          rw [holds_update_setOff hu hk hup, hholds]
          constructor
          · intro hh
            rcases hh with ⟨rfl, rfl⟩ | ⟨hne, j, hj, h⟩
            · exact ⟨n, by omega, hkey, rfl⟩
            · exact ⟨j, by omega, h⟩
          · intro h
            obtain ⟨j, hj, hjk, hjo⟩ := h
            by_cases e : j = n
            · subst e
              rw [hkey] at hjk
              cases hjk
              exact Or.inl ⟨rfl, hjo.symm⟩
            · refine Or.inr ⟨fun hkk => e ?_, j, by omega, hjk, hjo⟩
              subst hkk
              exact ho.unique hjk hkey

theorem Index.Ok.lt_capacity (h : index.Ok) (hj : index.keyAt j = some key) : j < index.capacity := by
  obtain ⟨i, hi, rfl, -⟩ := h j key hj
  exact Nat.mod_lt _ (by omega)

/-- Growing keeps every entry. -/
theorem grow_ok (h : index.Ok) (hg : grow index = .ok t) : t.Ok ∧ ∀ k o, Holds t k o ↔ Holds index k o := by
  unfold grow at hg
  split at hg
  · obtain ⟨ht, hholds⟩ := moveAll_ok h (ok_create _) (fun _ _ => not_holds_create _) _ hg
    refine ⟨ht, fun k o => (hholds k o).trans ⟨fun ⟨j, _, hj⟩ => ⟨j, hj⟩, fun ⟨j, hj⟩ => ⟨j, h.lt_capacity hj.1, hj⟩⟩⟩
  · cases hg
    exact ⟨h, fun _ _ => Iff.rfl⟩

theorem moveAll_error {old new : Index} {e : Stop} : ∀ (n : Nat), moveAll old n new = .error e → e = .exitIndex := by
  intro n
  induction n with
  | zero => intro h; cases h
  | succ n ih =>
    intro h
    unfold moveAll at h
    cases hm : moveAll old n new with
    | error e' => rw [hm] at h; cases h; exact ih hm
    | ok u =>
      rw [hm] at h
      simp only [move] at h
      cases hkey : old.keyAt n with
      | none => rw [hkey] at h; cases h
      | some key =>
        rw [hkey] at h
        simp only at h
        cases hup : update u key with
        | error e' => rw [hup] at h; cases h; exact update_error hup
        | ok r => rw [hup] at h; cases h

/-! ## The two entry points -/

variable {hash : List UInt8 → UInt64} {bs : List UInt8}

/-- With a key that is not empty only the `EXIT` can stop `index_update`. -/
theorem indexUpdate_error {e : Stop} (hb : bs.length ≠ 0) (hu : indexUpdate hash index bs = .error e) :
    e = .exitIndex := by
  unfold indexUpdate at hu
  rw [if_neg hb] at hu
  cases hg : grow index with
  | error e' =>
    rw [hg] at hu
    cases hu
    unfold grow at hg
    split at hg
    · exact moveAll_error _ hg
    · cases hg
  | ok t => rw [hg] at hu; exact update_error hu

/-- The slot `index_update` answers is the key's own; a new one holds 0. -/
theorem indexUpdate_ok (h : index.Ok) (hb : bs.length ≠ 0) (hu : indexUpdate hash index bs = .ok (j, t)) :
    t.Ok ∧ t.keyAt j = some (normalised hash bs) ∧ (∀ k o, Holds t k o ↔
      Holds index k o ∨ (k = normalised hash bs ∧ o = 0 ∧ ∀ o', ¬ Holds index (normalised hash bs) o')) := by
  have hk := normalised_ne_zero hash bs
  unfold indexUpdate at hu
  rw [if_neg hb] at hu
  cases hg : grow index with
  | error e => rw [hg] at hu; cases hu
  | ok u =>
    rw [hg] at hu
    obtain ⟨hok, hholds⟩ := grow_ok h hg
    obtain ⟨ht, hj, -, -⟩ := update_cases hok hk hu
    refine ⟨ht, hj, ?_⟩
    intro k o
    rw [holds_update hok hk hu, hholds]
    simp only [hholds]

/-- `index_lookup` answers the slot of the key, `NULL` when it has none. -/
theorem indexLookup_ok (h : index.Ok) (hb : bs.length ≠ 0) :
    (∃ j, indexLookup hash index bs = .ok (some j) ∧ index.keyAt j = some (normalised hash bs)) ∨
      (indexLookup hash index bs = .ok none ∧ ∀ o, ¬ Holds index (normalised hash bs) o) := by
  unfold indexLookup
  rw [if_neg hb]
  cases hs : seek index (normalised hash bs) with
  | none =>
    refine Or.inr ⟨rfl, ?_⟩
    intro o h
    obtain ⟨j, hj, -⟩ := h
    rw [h.seek_of_mem hj] at hs
    cases hs
  | some j =>
    rcases seek_eq_some hs with ⟨i, hi, rfl, hn | hsome⟩
    · refine Or.inr ⟨by simp only [hn, Option.map_none], ?_⟩
      intro o h
      obtain ⟨m, hm, -⟩ := h
      exact h.not_mem_of_stop hi hn m hm
    · exact Or.inl ⟨_, by simp only [hsome, Option.map_some], hsome⟩

end Cs238p.Kvdb
