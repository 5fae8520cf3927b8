/-
  Cs238p.Kvdb.IndexFull — when the index gives up (`EXIT("software")` in `update`).

  The probes `(key + i) % capacity` wrap at 2^64 and go on from slot 0. The capacities are
  no powers of two, so a key close to 2^64 visits some slots twice and passes over others
  (`Skips`); when only those are empty, `update` gives up with room in the table
  (`a_roomy_index_gives_up`).

  Proved: a run of the index gives up exactly when a new key skips all empty slots
  (`index_gives_up_iff`). The re-insertions of `grow` never do: a key visits half of the
  slots at least, and less than half of the new table is filled.
-/
import Cs238p.Kvdb.IndexRuns
import Cs238p.Lib.WrappedProbe

namespace Cs238p.Kvdb

open OpenAddressing WrappedProbe
open Cs238p.Logfs (Stop)

/-- `key` has an entry, or an empty slot that it does not skip. -/
def Index.Admits (index : Index) (key : UInt64) : Prop :=
  (∃ off, Holds index key off) ∨
    ∃ j < index.capacity, ¬ Skips (2 ^ 64) index.capacity key.toNat j ∧ index.keyAt j = none

variable {index t : Index} {key : UInt64} {j off : Nat}

theorem probe_eq (capacity : Nat) (key : UInt64) (i : Nat) :
    probe capacity key i = (key.toNat + i) % 2 ^ 64 % capacity := rfl

theorem seek_eq_none : seek index key = none ↔ ∀ i < index.capacity, ¬ Stops (probe index.capacity) index.keyAt key i := by
  unfold seek search
  rw [Option.map_eq_none_iff, List.find?_eq_none]
  simp only [List.mem_range, decide_eq_true_eq]

theorem update_ok_of_seek (h : seek index key = some j) : ∃ r, update index key = .ok r := by
  unfold update
  rw [h]
  cases hn : index.keyAt j with
  | none => exact ⟨_, by simp only [hn]; rfl⟩
  | some _ => exact ⟨_, by simp only [hn]; rfl⟩

/-- When `update` does not give up. -/
theorem update_ok_iff (h : index.Ok) : (∃ r, update index key = .ok r) ↔ index.Admits key := by
  constructor
  · rintro ⟨r, hr⟩
    cases hs : seek index key with
    | none =>
      unfold update at hr
      rw [hs] at hr
      cases hr
    | some j =>
      obtain ⟨i, hi, rfl, hn | hsome⟩ := seek_eq_some hs
      · have hlt := (search_eq_some.mp hi).1
        have hslot : probe index.capacity key i < index.capacity := Nat.mod_lt _ (by omega)
        exact Or.inr ⟨_, hslot, (exists_wrapped_iff key.toNat_lt hslot).mp ⟨i, hlt, rfl⟩, hn⟩
      · exact Or.inl ⟨_, _, hsome, rfl⟩
  · rintro (⟨off, j, hj, -⟩ | ⟨j, hlt, hskip, hn⟩)
    · exact update_ok_of_seek (h.seek_of_mem hj)
    · obtain ⟨i, hi, hp⟩ := (exists_wrapped_iff key.toNat_lt hlt).mpr hskip
      rw [← probe_eq] at hp
      cases hs : seek index key with
      | none => exact absurd (Or.inl (by rw [hp]; exact hn)) (seek_eq_none.mp hs i hi)
      | some j' => exact update_ok_of_seek hs

/-! ## A table that is less than half full -/

/-- All keys fit below 2^64, and 0 is none. -/
theorem Index.Sized.size_lt (h : index.Sized) : index.size < 2 ^ 64 := by
  have hsub : index.hashes.image UInt64.toNat ⊆ Finset.Ico 1 (2 ^ 64) := by
    intro n hn
    obtain ⟨k, hk, rfl⟩ := Finset.mem_image.mp hn
    obtain ⟨off, j, hj, -⟩ := (mem_hashes h.linked).mp hk
    have hne := keyAt_ne_zero hj
    have hpos : k.toNat ≠ 0 := fun e => hne (UInt64.toNat_inj.mp e)
    have hlt := k.toNat_lt
    rw [Finset.mem_Ico]
    omega
  have hcard := Finset.card_le_card hsub
  rw [Finset.card_image_of_injective _ fun a b e => UInt64.toNat_inj.mp e, Nat.card_Ico] at hcard
  rw [h.size, ← card_hashes h.linked]
  omega

/-- A key that is not admitted has found half of the table full. -/
theorem Index.Sized.half_full (h : index.Sized) (hno : ¬ index.Admits key) : index.capacity ≤ 2 * index.size := by
  have hfull : ∀ j < index.capacity, ¬ Skips (2 ^ 64) index.capacity key.toNat j → j ∈ index.occupied := by
    intro j hj hskip
    rw [mem_occupied h.linked, ← Option.ne_none_iff_exists']
    exact fun hn => hno (Or.inr ⟨j, hj, hskip, hn⟩)
  by_cases hc : index.capacity ≤ 2 ^ 64
  · have hhalf := @skipped_le_half (2 ^ 64) index.capacity key.toNat hc
    have hsub : Finset.range index.capacity \ (Finset.range index.capacity).filter (Skips (2 ^ 64) index.capacity key.toNat) ⊆
        index.occupied := by
      intro j hj
      rw [Finset.mem_sdiff, Finset.mem_filter, Finset.mem_range] at hj
      exact hfull j hj.1 fun hs => hj.2 ⟨hj.1, hs⟩
    have hcard := Finset.card_le_card hsub
    rw [Finset.card_sdiff_of_subset (Finset.filter_subset _ _), Finset.card_range, ← h.size] at hcard
    omega
  · -- a larger table has a slot for every key
    have hsub : Finset.range (2 ^ 64) ⊆ index.occupied := by
      intro j hj
      rw [Finset.mem_range] at hj
      refine hfull j (by omega) fun hs => ?_
      have hr := hs.2.1
      rw [Nat.mod_eq_of_lt (by omega)] at hr
      omega
    have hcard := Finset.card_le_card hsub
    have hlt := h.size_lt
    rw [Finset.card_range, ← h.size] at hcard
    omega

/-- What the load test leaves: one entry over 70% at most. -/
def Index.Light (index : Index) : Prop := 10 * index.size ≤ 7 * index.capacity + 10

theorem light_open : indexOpen.Light := Nat.zero_le _

/-- The re-insertions of `grow` find their slots. -/
theorem Index.Sized.moveAll_ok (h : index.Sized) (hl : index.Light) : ∀ n,
    ∃ t, Kvdb.moveAll index n (create ((index.capacity + 97) * 3 / 2)) = .ok t := by
  intro n
  induction n with
  | zero => exact ⟨_, rfl⟩
  | succ n ih =>
    obtain ⟨t, ht⟩ := ih
    obtain ⟨hsized, hcap⟩ := (sized_create _).moveAll n ht
    obtain ⟨-, hholds⟩ := Kvdb.moveAll_ok h.linked (ok_create _) (fun _ _ => not_holds_create _) n ht
    simp only [Kvdb.moveAll, ht, move]
    cases hkey : index.keyAt n with
    | none => exact ⟨t, rfl⟩
    | some key =>
      -- the new table has no more entries than the old one
      have hsub : t.hashes ⊆ index.hashes := by
        intro k hk
        obtain ⟨off, hk⟩ := (mem_hashes hsized.linked).mp hk
        obtain ⟨j, -, hj, hoff⟩ := (hholds k off).mp hk
        exact (mem_hashes h.linked).mpr ⟨off, j, hj, hoff⟩
      have hle : t.size ≤ index.size := by
        rw [hsized.size, h.size, ← card_hashes hsized.linked, ← card_hashes h.linked]
        exact Finset.card_le_card hsub
      have hadm : t.Admits key := by
        by_contra hno
        have hhalf := hsized.half_full hno
        have hcap : t.capacity = (index.capacity + 97) * 3 / 2 := hcap
        unfold Index.Light at hl
        omega
      obtain ⟨⟨j, u⟩, hu⟩ := (update_ok_iff hsized.linked).mpr hadm
      exact ⟨_, by simp only [hu]; rfl⟩

theorem Index.Sized.grow_ok (h : index.Sized) (hl : index.Light) : ∃ t, Kvdb.grow index = .ok t := by
  unfold Kvdb.grow
  by_cases hload : overLoad index = true
  · rw [if_pos hload]
    exact h.moveAll_ok hl _
  · rw [if_neg hload]
    exact ⟨index, rfl⟩

/-- After `grow` at most 70% of the table is full. -/
theorem Index.Light.grow (hl : index.Light) (h : index.Sized) (hg : Kvdb.grow index = .ok t) :
    10 * t.size ≤ 7 * t.capacity ∧ 0 < t.capacity := by
  obtain ⟨-, hsize⟩ := h.grow hg
  unfold Index.Light at hl
  unfold Kvdb.grow at hg
  split at hg
  · obtain ⟨-, hcap⟩ := (sized_create _).moveAll _ hg
    have hcap : t.capacity = (index.capacity + 97) * 3 / 2 := hcap
    omega
  · rename_i hload
    cases hg
    simp only [overLoad, Bool.or_eq_true, beq_iff_eq, decide_eq_true_eq, not_or] at hload
    omega

/-! ## Runs -/

/-- A call of `index_update` admits its key, once the table has been grown. -/
def Admitted (hash : List UInt8 → UInt64) (index : Index) : IndexOp → Prop
  | .update key _ => ∀ t, grow index = .ok t → t.Admits (normalised hash key)
  | .lookup _ => True

def AlwaysAdmitted (hash : List UInt8 → UInt64) (index : Index) : List IndexOp → Prop
  | [] => True
  | op :: ops => Admitted hash index op ∧ ∀ a t, indexStep hash index op = .ok (a, t) → AlwaysAdmitted hash t ops

variable {hash : List UInt8 → UInt64} {op : IndexOp} {a : Option Nat}

/-- One call on a table that the load test has kept light. -/
theorem indexStep_ok_iff (h : index.Sized) (hl : index.Light) (hb : op.key.length ≠ 0) :
    (∃ a t, indexStep hash index op = .ok (a, t)) ↔ Admitted hash index op := by
  cases op with
  | update key off =>
    obtain ⟨u, hu⟩ := h.grow_ok hl
    obtain ⟨hsized, -⟩ := h.grow hu
    have hiff := @update_ok_iff u (normalised hash key) hsized.linked
    have hstep : indexUpdate hash index key = update u (normalised hash key) := by
      simp only [IndexOp.key] at hb
      unfold indexUpdate
      rw [if_neg hb, hu]
    simp only [indexStep, hstep]
    constructor
    · rintro ⟨a, t, hs⟩ v hv
      rw [hu] at hv
      cases hv
      refine hiff.mp ?_
      cases hr : update u (normalised hash key) with
      | error e => rw [hr] at hs; cases hs
      | ok r => exact ⟨r, rfl⟩
    · intro hadm
      obtain ⟨⟨j, v⟩, hv⟩ := hiff.mpr (hadm u hu)
      exact ⟨_, _, by simp only [hv]; rfl⟩
  | lookup key =>
    refine iff_of_true ?_ trivial
    simp only [indexStep]
    rcases @indexLookup_ok index hash key h.linked hb with ⟨j, hj, -⟩ | ⟨hn, -⟩
    · exact ⟨_, _, by simp only [hj]; rfl⟩
    · exact ⟨_, _, by simp only [hn]; rfl⟩

/-- `index_update` leaves one entry over 70% at most. -/
theorem indexUpdate_light {bs : List UInt8} (h : index.Sized) (hl : index.Light)
    (hr : indexUpdate hash index bs = .ok (j, t)) : t.Sized ∧ t.Light := by
  unfold indexUpdate at hr
  split at hr
  · cases hr
  · cases hu : grow index with
    | error e => rw [hu] at hr; cases hr
    | ok u =>
      rw [hu] at hr
      have hk := normalised_ne_zero hash bs
      obtain ⟨hsized, -⟩ := h.grow hu
      obtain ⟨hload, -⟩ := hl.grow h hu
      obtain ⟨ht, hle⟩ := hsized.update hk hr
      obtain ⟨-, -, hcap, -⟩ := update_cases hsized.linked hk hr
      refine ⟨ht, ?_⟩
      show 10 * t.size ≤ 7 * t.capacity + 10
      omega

theorem indexStep_light (h : index.Sized) (hl : index.Light) (hs : indexStep hash index op = .ok (a, t)) :
    t.Sized ∧ t.Light := by
  cases op with
  | update key off =>
    simp only [indexStep] at hs
    rcases hr : indexUpdate hash index key with e | ⟨j, v⟩
    · rw [hr] at hs; cases hs
    · rw [hr] at hs
      cases hs
      obtain ⟨hv, hlv⟩ := indexUpdate_light h hl hr
      exact ⟨hv.setOff _ _, hlv⟩
  | lookup key =>
    simp only [indexStep] at hs
    split at hs
    · cases hs
    · cases hs
      exact ⟨h, hl⟩

theorem indexRun_light : ∀ (ops : List IndexOp) {index t : Index} {as : List (Option Nat)}, index.Sized → index.Light →
    indexRun hash index ops = .ok (as, t) → t.Sized ∧ t.Light := by
  intro ops
  induction ops with
  | nil =>
    intro index t as h hl hr
    cases hr
    exact ⟨h, hl⟩
  | cons op ops ih =>
    intro index t as h hl hr
    simp only [indexRun] at hr
    split at hr
    · cases hr
    · rename_i a u hs
      obtain ⟨hu, hlu⟩ := indexStep_light h hl hs
      split at hr
      · cases hr
      · rename_i as' v hv
        cases hr
        exact ih hu hlu hv

theorem indexRun_ok_iff : ∀ (ops : List IndexOp) {index : Index}, index.Sized → index.Light →
    (∀ op ∈ ops, op.key.length ≠ 0) →
    ((∃ as t, indexRun hash index ops = .ok (as, t)) ↔ AlwaysAdmitted hash index ops) := by
  intro ops
  induction ops with
  | nil => exact fun _ _ _ => iff_of_true ⟨_, _, rfl⟩ trivial
  | cons op ops ih =>
    intro index h hl hb
    have hstep := @indexStep_ok_iff index hash op h hl (hb op List.mem_cons_self)
    have hrest : ∀ {a t}, indexStep hash index op = .ok (a, t) →
        ((∃ as u, indexRun hash t ops = .ok (as, u)) ↔ AlwaysAdmitted hash t ops) := by
      intro a t hs
      obtain ⟨ht, hlt⟩ := indexStep_light h hl hs
      exact ih ht hlt fun o ho => hb o (List.mem_cons_of_mem _ ho)
    constructor
    · rintro ⟨as, u, hr⟩
      simp only [indexRun] at hr
      split at hr
      · cases hr
      · rename_i a t hs
        refine ⟨hstep.mp ⟨a, t, hs⟩, ?_⟩
        intro a' t' hs'
        rw [hs] at hs'
        cases hs'
        refine (hrest hs).mp ?_
        split at hr
        · cases hr
        · rename_i as' v hv
          exact ⟨_, _, hv⟩
    · rintro ⟨hadm, hall⟩
      obtain ⟨a, t, hs⟩ := hstep.mpr hadm
      obtain ⟨as, u, hu⟩ := (hrest hs).mpr (hall a t hs)
      exact ⟨_, _, by simp only [indexRun, hs, hu]; rfl⟩

/-- A table that is not full has an empty slot. -/
theorem Index.Sized.exists_empty (h : index.Sized) (hlt : index.size < index.capacity) :
    ∃ j < index.capacity, index.keyAt j = none := by
  by_contra hfull
  have hall : Finset.range index.capacity ⊆ index.occupied := by
    intro j hj
    rw [mem_occupied h.linked, ← Option.ne_none_iff_exists']
    exact fun hn => hfull ⟨j, Finset.mem_range.mp hj, hn⟩
  have hcard := Finset.card_le_card hall
  rw [Finset.card_range, ← h.size] at hcard
  omega

/-- Whatever the hashes are: a run returns iff no `index_update` skips every empty slot of
    the grown table; keys whose probes do not pass 2^64 skip none; and no re-insertion of
    `grow` gives up. -/
theorem index_gives_up_iff (hash : List UInt8 → UInt64) (ops : List IndexOp) (hb : ∀ op ∈ ops, op.key.length ≠ 0) :
    ((∃ as t, indexRun hash indexOpen ops = .ok (as, t)) ↔ AlwaysAdmitted hash indexOpen ops) ∧
    (∀ as t, indexRun hash indexOpen ops = .ok (as, t) → ∃ u, grow t = .ok u ∧
      ∀ key : UInt64, key.toNat + u.capacity ≤ 2 ^ 64 → u.Admits key) := by
  have hsized := sized_create 0
  refine ⟨indexRun_ok_iff ops hsized light_open hb, ?_⟩
  intro as t hr
  obtain ⟨ht, hl⟩ := indexRun_light ops hsized light_open hr
  obtain ⟨u, hu⟩ := ht.grow_ok hl
  refine ⟨u, hu, ?_⟩
  intro key hkey
  obtain ⟨husized, -⟩ := ht.grow hu
  obtain ⟨hload, hpos⟩ := hl.grow ht hu
  obtain ⟨j, hj, hn⟩ := husized.exists_empty (by omega)
  exact Or.inr ⟨j, hj, not_skips_of_le hkey, hn⟩

/-- One key: the next one is admitted. -/
theorem index_gives_up_iff_one_key : ∃ as t, indexRun (fun _ => 7) indexOpen [.update [107] 18] = .ok (as, t) ∧
    ∃ u, grow t = .ok u ∧ u.Admits 8 := by
  obtain ⟨-, hgrow⟩ := index_gives_up_iff (fun _ => 7) [.update [107] 18] (by simp [IndexOp.key])
  refine ⟨_, _, rfl, ?_⟩
  obtain ⟨u, hu, hadm⟩ := hgrow _ _ rfl
  refine ⟨u, hu, hadm 8 ?_⟩
  cases (show grow _ = .ok _ from rfl).symm.trans hu
  show 8 + 145 ≤ 2 ^ 64
  decide

/-! ## A table that is full where it is looked at -/

/-- The capacities up to 363 slots, and how full a table must have been for more. -/
def Index.Small (index : Index) : Prop :=
  index.capacity = 0 ∨ index.capacity = 145 ∨ index.capacity = 363 ∨ 254 < index.size

theorem Index.Small.step (h : index.Small) (hs : index.Sized) (hr : indexStep hash index op = .ok (a, t)) : t.Small := by
  cases op with
  | update key off =>
    simp only [indexStep] at hr
    rcases hu : indexUpdate hash index key with e | ⟨j, v⟩
    · rw [hu] at hr; cases hr
    rw [hu] at hr
    cases hr
    show v.Small
    unfold indexUpdate at hu
    split at hu
    · cases hu
    · cases hg : grow index with
      | error e => rw [hg] at hu; cases hu
      | ok u =>
        rw [hg] at hu
        obtain ⟨husized, husize⟩ := hs.grow hg
        have hu' : u.Small := by
          unfold grow at hg
          split at hg
          · rename_i hload
            obtain ⟨-, hcap⟩ := (sized_create _).moveAll _ hg
            have hcap : u.capacity = (index.capacity + 97) * 3 / 2 := hcap
            simp only [overLoad, Bool.or_eq_true, beq_iff_eq, decide_eq_true_eq] at hload
            unfold Index.Small at h ⊢
            omega
          · cases hg
            exact h
        obtain ⟨-, -, hcap, rfl | ⟨-, rfl, -⟩⟩ := update_cases husized.linked (normalised_ne_zero hash key) hu
        · exact hu'
        · unfold Index.Small at hu' ⊢
          simp only
          omega
  | lookup key =>
    simp only [indexStep] at hr
    split at hr
    · cases hr
    · cases hr
      exact h

theorem Index.Small.run : ∀ (ops : List IndexOp) {index t : Index} {as : List (Option Nat)}, index.Small → index.Sized →
    index.Light → indexRun hash index ops = .ok (as, t) → t.Small := by
  intro ops
  induction ops with
  | nil =>
    intro index t as h _ _ hr
    cases hr
    exact h
  | cons op ops ih =>
    intro index t as h hs hl hr
    simp only [indexRun] at hr
    split at hr
    · cases hr
    · rename_i a u hu
      obtain ⟨hus, hul⟩ := indexStep_light hs hl hu
      split at hr
      · cases hr
      · rename_i as' v hv
        cases hr
        exact ih (h.step hs hu) hus hul hv

/-- The hashes 1 to 213, 363 and 2^64 - 200. -/
def lowHash (bs : List UInt8) : UInt64 :=
  let i := (bs.headD 0).toNat
  if i < 213 then UInt64.ofNat (i + 1) else if i = 213 then 363 else UInt64.ofNat (2 ^ 64 - 200)

/-- One update for each of the first `n`. -/
def lowKeys (n : Nat) : List IndexOp := (List.range n).map fun i => .update [UInt8.ofNat i] 0

theorem lowHash_toNat {i : Nat} (h : i < 215) : (lowHash [UInt8.ofNat i]).toNat =
    if i < 213 then i + 1 else if i = 213 then 363 else 2 ^ 64 - 200 := by
  have hi : (UInt8.ofNat i).toNat = i := by rw [UInt8.toNat_ofNat']; omega
  simp only [lowHash, List.headD_cons, hi]
  by_cases h1 : i < 213
  · rw [if_pos h1, if_pos h1, UInt64.toNat_ofNat']
    omega
  · rw [if_neg h1, if_neg h1]
    by_cases h2 : i = 213
    · rw [if_pos h2, if_pos h2]
      rfl
    · rw [if_neg h2, if_neg h2]
      rfl

theorem normalised_lowHash {i : Nat} (h : i < 215) :
    (normalised lowHash [UInt8.ofNat i]).toNat = if i < 213 then i + 1 else if i = 213 then 363 else 2 ^ 64 - 200 := by
  have hlow := lowHash_toNat h
  have hne : lowHash [UInt8.ofNat i] ≠ 0 := by
    intro h0
    rw [h0] at hlow
    have : (0 : UInt64).toNat = 0 := rfl
    split at hlow
    · omega
    · split at hlow <;> omega
  rw [normalised, if_neg hne, hlow]

theorem normalised_low {i : Nat} (h : i < 214) :
    (normalised lowHash [UInt8.ofNat i]).toNat = if i < 213 then i + 1 else 363 := by
  rw [normalised_lowHash (by omega)]
  by_cases h1 : i < 213
  · rw [if_pos h1, if_pos h1]
  · rw [if_neg h1, if_neg h1, if_pos (by omega)]

theorem mem_updated_map {hash : List UInt8 → UInt64} {f : Nat → List UInt8} {g : UInt64} : ∀ l : List Nat,
    g ∈ updated hash (l.map fun i => .update (f i) 0) ↔ ∃ i ∈ l, normalised hash (f i) = g := by
  intro l
  induction l with
  | nil => simp [updated]
  | cons i l ih => simp [updated, ih, eq_comm]

theorem indexRun_concat {u : Index} : ∀ (ops : List IndexOp) {index : Index} {as : List (Option Nat)},
    indexRun hash index (ops ++ [op]) = .ok (as, u) →
    ∃ as' a t, indexRun hash index ops = .ok (as', t) ∧ indexStep hash t op = .ok (a, u) := by
  intro ops
  induction ops with
  | nil =>
    intro index as hr
    simp only [List.nil_append, indexRun] at hr
    split at hr
    · cases hr
    · rename_i a t ht
      cases hr
      exact ⟨[], a, index, rfl, ht⟩
  | cons o ops ih =>
    intro index as hr
    simp only [List.cons_append, indexRun] at hr
    split at hr
    · cases hr
    · rename_i a t ht
      split at hr
      · cases hr
      · rename_i as' v hv
        cases hr
        obtain ⟨as'', a', t', hrun, hlast⟩ := ih hv
        exact ⟨a :: as'', a', t', by simp only [indexRun, ht, hrun], hlast⟩

/-- After 214 updates the table has 363 slots, and the first 214 of them are full. -/
theorem lowKeys_full {as : List (Option Nat)} (hr : indexRun lowHash indexOpen (lowKeys 214) = .ok (as, t)) :
    t.Sized ∧ t.capacity = 363 ∧ t.size = 214 ∧
      (∀ k : UInt64, k ∈ t.hashes ↔ ∃ i < 214, normalised lowHash [UInt8.ofNat i] = k) ∧
      ∀ j < 214, t.keyAt j ≠ none := by
  have hb : ∀ op ∈ lowKeys 214, op.key.length ≠ 0 := by simp [lowKeys, IndexOp.key]
  obtain ⟨t', hr', hmaps⟩ := @Maps.run lowHash (lowKeys 214) _ _ maps_open hb (by rw [hr]; exact fun h => by cases h)
  rw [hr] at hr'
  cases hr'
  have hlinked := hmaps.sized.linked
  have hmem : ∀ k : UInt64, k ∈ t.hashes ↔ ∃ i < 214, normalised lowHash [UInt8.ofNat i] = k := by
    intro k
    rw [hmaps.hashes, foldl_storeOff_isSome, lowKeys, mem_updated_map]
    simp [List.mem_range]
  have hsize : t.size = 214 := by
    have himage : t.hashes = (Finset.range 214).image fun i => normalised lowHash [UInt8.ofNat i] := by
      ext k
      rw [hmem, Finset.mem_image]
      simp [Finset.mem_range]
    rw [hmaps.sized.size, ← card_hashes hlinked, himage, Finset.card_image_of_injOn, Finset.card_range]
    intro i hi i' hi' he
    simp only [Finset.coe_range, Set.mem_Iio] at hi hi'
    have hn := congrArg UInt64.toNat he
    rw [normalised_low hi, normalised_low hi'] at hn
    split at hn <;> split at hn <;> omega
  obtain ⟨hsized, hlight⟩ := indexRun_light _ (sized_create 0) light_open hr
  have hsmall := Index.Small.run _ (Or.inl rfl) (sized_create 0) light_open hr
  have hcap : t.capacity = 363 := by
    unfold Index.Small at hsmall
    unfold Index.Light at hlight
    omega
  refine ⟨hsized, hcap, hsize, hmem, ?_⟩
  intro j hj
  -- slot `j` is the first one of a key that is there
  have hkey : ∃ i < 214, (normalised lowHash [UInt8.ofNat i]).toNat % 363 = j := by
    by_cases h0 : j = 0
    · exact ⟨213, by omega, by rw [normalised_low (by omega), h0]; rfl⟩
    · refine ⟨j - 1, by omega, ?_⟩
      rw [normalised_low (by omega), if_pos (by omega)]
      omega
  obtain ⟨i, hi, hslot⟩ := hkey
  obtain ⟨off, s, hs, -⟩ := (mem_hashes hlinked).mp ((hmem _).mpr ⟨i, hi, rfl⟩)
  have hhome := hlinked.home hs
  have hprobe : probe t.capacity (normalised lowHash [UInt8.ofNat i]) 0 = j := by
    rw [probe_eq, hcap, Nat.add_zero, Nat.mod_eq_of_lt (UInt64.toNat_lt _), hslot]
  rwa [hprobe] at hhome

/-- The last key finds the 214 full slots only, with 149 slots empty. -/
theorem a_roomy_index_gives_up :
    ¬ ∀ (hash : List UInt8 → UInt64) (ops : List IndexOp), (∀ op ∈ ops, op.key.length ≠ 0) →
      ∃ as t, indexRun hash indexOpen ops = .ok (as, t) := by
  intro hall
  have hsplit : lowKeys 215 = lowKeys 214 ++ [.update [UInt8.ofNat 214] 0] := by
    rw [lowKeys, List.range_succ, List.map_append]
    rfl
  obtain ⟨as, u, hr⟩ := hall lowHash (lowKeys 215) (by simp [lowKeys, IndexOp.key])
  rw [hsplit] at hr
  obtain ⟨as', a, t, hrun, hlast⟩ := indexRun_concat _ hr
  obtain ⟨hsized, hcap, hsize, hmem, hfull⟩ := lowKeys_full hrun
  obtain ⟨-, hlight⟩ := indexRun_light _ (sized_create 0) light_open hrun
  have hgrow : grow t = .ok t := by
    unfold grow
    rw [if_neg]
    simp only [overLoad, hcap, hsize]
    decide
  have hkey : (normalised lowHash [UInt8.ofNat 214]).toNat = 2 ^ 64 - 200 := normalised_lowHash (by decide)
  have hadm : t.Admits (normalised lowHash [UInt8.ofNat 214]) :=
    (indexStep_ok_iff hsized hlight (by simp [IndexOp.key])).mp ⟨a, u, hlast⟩ t hgrow
  rcases hadm with hold | ⟨j, hj, hskip, hn⟩
  · obtain ⟨i, hi, he⟩ := (hmem _).mp ((mem_hashes hsized.linked).mpr hold)
    rw [← he, normalised_low hi] at hkey
    split at hkey <;> omega
  · refine hfull j ?_ hn
    by_contra hge
    refine hskip ?_
    rw [hkey, hcap] at *
    refine ⟨by decide, ?_, fun _ => ?_, ?_⟩
    · show 214 ≤ j
      omega
    · show 363 + (2 ^ 64 - 200) ≤ j + 2 ^ 64
      omega
    · show j + 2 ^ 64 < 363 + (2 ^ 64 - 200) + 214
      omega

end Cs238p.Kvdb
