/-
  Cs238p.Kvdb.Reachable — the store after any calls.

  A caller may pass anything: the run went on, so the call passed the assertions on its
  way (`call_passes`), and its I/O succeeded. `Reached` is what such a run leaves behind.

  Proved: `kvdb_size` counts the bound keys and `kvdb_waste` the values superseded or
  removed (`counters_are_exact`).
-/
import Mathlib.Data.Finset.Card
import Cs238p.Kvdb.Sessions
import Cs238p.Lib.Outcome

namespace Cs238p.Kvdb

open Cs238p.Logfs (Stop Device)

def Op.key : Op → List UInt8
  | .insert key _ | .update key _ | .replace key _ | .remove key _ _ | .lookup key _ _ => key

variable {hash : List UInt8 → UInt64} {N : Nat} {s : KvdbSt} {recs : List Rec} {r : Rec} {key val : List UInt8}
  {off : Nat}

/-- A store is opened and called: the answers and the store then. -/
def reach (hash : List UInt8 → UInt64) (device : Device) (junk : Nat → List UInt8) (sched : List Nat) (ops : List Op) :
    Except Stop (Option (List Answer × KvdbSt)) :=
  match kvdbOpen device junk sched [] [] with
  | .error e => .error e
  | .ok none => .ok none
  | .ok (some s) => (run hash s ops).map some

/-! ## Calls that returned -/

/-- A storing call that returns had a key and a value that it admits. -/
theorem kvdbStore_admits {mode : Mode} {o : Out × KvdbSt} (h : kvdbStore mode hash s key val = .ok o) :
    KeyOk key ∧ ValOk val := by
  unfold kvdbStore at h
  by_cases hif : KeyOk key ∧ ValOk val
  · exact hif
  · rw [if_neg hif] at h
    cases h

/-- `kvraw_lookup` refuses to read a value into `NULL`. -/
theorem chainLookup_null {fuel valLen : Nat} {k : Kvraw} (h0 : off ≠ 0) (hv : valLen ≠ 0) :
    chainLookup (fuel + 1) k key none valLen off = .error .assert := by
  have hassert : (valLen ≠ 0 ∧ (none : Option (List UInt8)).isNone = true) ∨ off = 0 := Or.inl ⟨hv, rfl⟩
  unfold chainLookup kvrawLookup
  rw [if_neg h0, if_pos hassert]

/-- With records on the key's chain a remove reads them, so it has a buffer or no length. -/
theorem kvdbRemove_admits {buf : Option (List UInt8)} {valLen : Option Nat} {o : Out × KvdbSt} (hi : Inv hash N s recs)
    (h : kvdbRemove hash s key buf valLen = .ok o) :
    KeyOk key ∧ ¬ (buf = none ∧ valLen = some 0) ∧
      (chainOf hash recs (normalised hash key) ≠ [] → valLen.getD 0 ≠ 0 → buf.isNone = false) := by
  unfold kvdbRemove at h
  by_cases hif : KeyOk key ∧ (valLen = none ∨ valLen ≠ some 0 ∨ buf.isSome = true)
  · rw [if_pos hif] at h
    refine ⟨hif.1, ?_, ?_⟩
    · intro hq
      obtain ⟨rfl, rfl⟩ := hq
      rcases hif.2 with hn | hn | hn
      · cases hn
      · exact hn rfl
      · cases hn
    · intro hchain hne
      cases buf with
      | some _ => rfl
      | none =>
        exfalso
        unfold mutate at h
        cases hu : indexUpdate hash s.index key with
        | error e => rw [hu] at h; cases h
        | ok res =>
          obtain ⟨ref, index⟩ := res
          rw [hu] at h
          obtain ⟨hi', href⟩ := hi.withIndex hif.1.1 hu
          have hc := hi'.chain _ _ ⟨ref, href, rfl⟩
          have h0 : (index.maps ref).off ≠ 0 := by
            intro he
            have hc' : Chain (opening :: recs) (index.maps ref).off (chainOf hash recs (normalised hash key)) := hc
            rw [he] at hc'
            exact hchain hc'.zero
          simp only [if_true, ite_self, chainLookup_null h0 hne] at h
          cases h
  · rw [if_neg hif] at h
    cases h

theorem kvdbLookup_admits {buf : Option (List UInt8)} {valLen : Option Nat} {o : Out × KvdbSt}
    (h : kvdbLookup hash s key buf valLen = .ok o) : KeyOk key ∧ (valLen.getD 0 ≠ 0 → buf.isNone = false) := by
  unfold kvdbLookup at h
  by_cases hif : KeyOk key ∧ (valLen = none ∨ valLen = some 0 ∨ buf.isSome = true)
  · refine ⟨hif.1, ?_⟩
    intro hne
    rcases hif.2 with hn | hn | hn
    · rw [hn] at hne
      exact absurd rfl hne
    · rw [hn] at hne
      exact absurd rfl hne
    · cases buf with
      | none => cases hn
      | some _ => rfl
  · rw [if_neg hif] at h
    cases h

/-- A call that returned passed every assertion on its way. -/
theorem call_passes {op : Op} {a : Answer × KvdbSt} (hi : Inv hash N s recs) (h : call hash s op = .ok a) :
    op.Passes hash recs := by
  cases op with
  | insert key val =>
    obtain ⟨o, ho, -⟩ := exists_ok_of_map h
    exact kvdbStore_admits ho
  | update key val =>
    obtain ⟨o, ho, -⟩ := exists_ok_of_map h
    exact kvdbStore_admits ho
  | replace key val =>
    obtain ⟨o, ho, -⟩ := exists_ok_of_map h
    exact kvdbStore_admits ho
  | remove key buf valLen =>
    obtain ⟨o, ho, -⟩ := exists_ok_of_map h
    exact kvdbRemove_admits hi ho
  | lookup key buf valLen =>
    obtain ⟨o, ho, -⟩ := exists_ok_of_map h
    exact kvdbLookup_admits ho

theorem Out.ret_answer (o : Out) (n : Nat) : (o.answer n).ret = o.ret := by
  obtain ⟨ret, val, valLen⟩ := o
  cases ret <;> rfl

/-- A storing call that passed its assertions is its `mutate`, in any store. -/
theorem kvdbStore_eq {mode : Mode} {o : Out × KvdbSt} (h : kvdbStore mode hash s key val = .ok o) (t : KvdbSt) :
    kvdbStore mode hash t key val = mutate hash t key (some val) (some val.length) mode := by
  unfold kvdbStore
  rw [if_pos (kvdbStore_admits h)]

/-- A call that returned is a lookup or one `mutate`, and on any store does what that does. -/
theorem call_cases {op : Op} {a : Answer} {s' : KvdbSt} (hc : call hash s op = .ok (a, s')) :
    (∃ key buf valLen, op = .lookup key buf valLen) ∨
    ∃ buf valLen mode o, mutate hash s op.key buf valLen mode = .ok (o, s') ∧ a.ret = o.ret ∧
      (mode = .update ↔ ∃ key v, op = .update key v) ∧
      (∀ t t', mutate hash t op.key buf valLen mode = .ok (o, t') → call hash t op = .ok (a, t')) ∧
      ∀ t e, mutate hash t op.key buf valLen mode = .error e → call hash t op = .error e := by
  cases op with
  | insert key val =>
    obtain ⟨⟨o, u⟩, ho, he⟩ := exists_ok_of_map hc
    cases he
    have heq := kvdbStore_eq ho
    refine Or.inr ⟨some val, some val.length, .insert, o, (heq s).symm.trans ho, rfl,
      ⟨(fun h => by cases h), by rintro ⟨_, _, h⟩; cases h⟩, ?_, ?_⟩
    · intro t t' ht
      simp only [call, kvdbInsert, (heq t).trans ht, Except.map]
    · intro t e ht
      simp only [call, kvdbInsert, (heq t).trans ht, Except.map]
  | update key val =>
    obtain ⟨⟨o, u⟩, ho, he⟩ := exists_ok_of_map hc
    cases he
    have heq := kvdbStore_eq ho
    refine Or.inr ⟨some val, some val.length, .update, o, (heq s).symm.trans ho, rfl,
      ⟨fun _ => ⟨key, val, rfl⟩, fun _ => rfl⟩, ?_, ?_⟩
    · intro t t' ht
      simp only [call, kvdbUpdate, (heq t).trans ht, Except.map]
    · intro t e ht
      simp only [call, kvdbUpdate, (heq t).trans ht, Except.map]
  | replace key val =>
    obtain ⟨⟨o, u⟩, ho, he⟩ := exists_ok_of_map hc
    cases he
    have heq := kvdbStore_eq ho
    refine Or.inr ⟨some val, some val.length, .replace, o, (heq s).symm.trans ho, rfl,
      ⟨(fun h => by cases h), by rintro ⟨_, _, h⟩; cases h⟩, ?_, ?_⟩
    · intro t t' ht
      simp only [call, kvdbReplace, (heq t).trans ht, Except.map]
    · intro t e ht
      simp only [call, kvdbReplace, (heq t).trans ht, Except.map]
  | remove key buf valLen =>
    obtain ⟨⟨o, u⟩, ho, he⟩ := exists_ok_of_map hc
    cases he
    have heq : ∀ t, kvdbRemove hash t key buf valLen = mutate hash t key buf valLen .remove := by
      intro t
      unfold kvdbRemove at ho ⊢
      split at ho
      · rename_i hif
        rw [if_pos hif]
      · cases ho
    refine Or.inr ⟨buf, valLen, .remove, o, (heq s).symm.trans ho, o.ret_answer _,
      ⟨(fun h => by cases h), by rintro ⟨_, _, h⟩; cases h⟩, ?_, ?_⟩
    · intro t t' ht
      simp only [call, (heq t).trans ht, Except.map]
    · intro t e ht
      simp only [call, (heq t).trans ht, Except.map]
  | lookup key buf valLen => exact Or.inl ⟨key, buf, valLen, rfl⟩

/-! ## The counters -/

def Rec.content (r : Rec) : List UInt8 × List UInt8 := (r.key, r.val)

/-- The records that calls append. -/
def appended (m : Map) : List Op → List (List UInt8 × List UInt8)
  | [] => []
  | op :: ops => (record m op).toList ++ appended (rebind m op) ops

/-- The records with a value that a later one of the same key supersedes or removes. -/
def superseded : List Rec → Nat
  | [] => 0
  | r :: rs => superseded rs + if r.val ≠ [] ∧ ∃ r' ∈ rs, r'.key = r.key then 1 else 0

/-- The records that carry a value. -/
def valued (contents : List (List UInt8 × List UInt8)) : Nat := contents.countP fun c => c.2 ≠ []

def boundKeys (recs : List Rec) : Finset (List UInt8) :=
  (recs.map Rec.key).toFinset.filter fun key => (bindings recs key).isSome = true

/-- What the counters count. -/
structure Counts (s : KvdbSt) (recs : List Rec) : Prop where
  size : s.size.toNat = (boundKeys recs).card
  waste : s.waste.toNat = superseded recs

theorem mem_of_bound (h : (bindings recs key).isSome = true) : ∃ r ∈ recs, r.key = key := by
  unfold bindings at h
  cases hl : latest recs key with
  | none =>
    rw [hl] at h
    cases h
  | some r =>
    have hmem := List.mem_of_find?_eq_some hl
    have hkey := List.find?_some hl
    exact ⟨r, List.mem_reverse.mp hmem, of_decide_eq_true hkey⟩

@[simp] theorem mem_boundKeys : key ∈ boundKeys recs ↔ (bindings recs key).isSome = true := by
  unfold boundKeys
  rw [Finset.mem_filter, List.mem_toFinset, List.mem_map]
  constructor
  · intro h
    exact h.2
  · intro h
    obtain ⟨r, hr, hk⟩ := mem_of_bound h
    exact ⟨⟨r, hr, hk⟩, h⟩

@[simp] theorem isSome_binding (val : List UInt8) : (binding val).isSome = true ↔ val ≠ [] := by
  unfold binding
  split
  · simp [*]
  · simp [*]

/-- An older record binds its key only as long as no record of the key follows. -/
theorem bindings_cons (r : Rec) (rs : List Rec) (key : List UInt8) :
    bindings (r :: rs) key =
      if ∃ r' ∈ rs, r'.key = key then bindings rs key else if r.key = key then binding r.val else none := by
  unfold bindings latest
  rw [List.reverse_cons, List.find?_append]
  by_cases h : ∃ r' ∈ rs, r'.key = key
  · rw [if_pos h]
    obtain ⟨r', hr', hk⟩ := h
    have hsome : (rs.reverse.find? fun r => decide (r.key = key)).isSome = true :=
      List.find?_isSome.mpr ⟨r', List.mem_reverse.mpr hr', by simpa using hk⟩
    obtain ⟨x, hx⟩ := Option.isSome_iff_exists.mp hsome
    rw [hx]
    rfl
  · rw [if_neg h]
    have hnone : (rs.reverse.find? fun r => decide (r.key = key)) = none := by
      rw [List.find?_eq_none]
      intro x hx hk
      exact h ⟨x, List.mem_reverse.mp hx, by simpa using hk⟩
    rw [hnone]
    by_cases hk : r.key = key
    · simp [hk]
    · simp [hk]

theorem bound_cons (r : Rec) (rs : List Rec) (key : List UInt8) : (bindings (r :: rs) key).isSome = true ↔
    (bindings rs key).isSome = true ∨ (¬ ∃ r' ∈ rs, r'.key = key) ∧ r.key = key ∧ r.val ≠ [] := by
  rw [bindings_cons]
  by_cases h : ∃ r' ∈ rs, r'.key = key
  · rw [if_pos h]
    exact ⟨Or.inl, fun hor => hor.resolve_right fun hno => hno.1 h⟩
  · have hnone : ¬ (bindings rs key).isSome = true := fun hb => h (mem_of_bound hb)
    rw [if_neg h]
    by_cases hk : r.key = key
    · simp [hk, h, hnone]
    · simp [hk, hnone]

theorem exists_mem_concat : (∃ r' ∈ recs ++ [r], r'.key = key) ↔ (∃ r' ∈ recs, r'.key = key) ∨ r.key = key := by
  simp [or_and_right, exists_or]

/-- A new record supersedes the record that bound its key, if one did. -/
theorem superseded_append (recs : List Rec) (r : Rec) :
    superseded (recs ++ [r]) = superseded recs + if (bindings recs r.key).isSome = true then 1 else 0 := by
  induction recs with
  | nil => simp [superseded, bindings, latest]
  | cons r₀ rs ih =>
    rw [List.cons_append, superseded, superseded, ih]
    simp only [exists_mem_concat, bound_cons]
    by_cases hk : r.key = r₀.key
    · rw [hk]
      -- `r₀` was superseded before if a record of its key follows in `rs`, and is now anyway
      by_cases hlater : ∃ r' ∈ rs, r'.key = r₀.key
      · simp only [hlater, true_or, and_true, not_true, false_and, or_false]
        omega
      · have hnone : ¬ (bindings rs r₀.key).isSome = true := fun hb => hlater (mem_of_bound hb)
        simp [hlater, hnone]
    · have hk' : ¬ r₀.key = r.key := fun h => hk h.symm
      simp only [hk, hk', or_false, false_and, and_false]
      omega

theorem boundKeys_append (recs : List Rec) (r : Rec) :
    boundKeys (recs ++ [r]) = if r.val = [] then (boundKeys recs).erase r.key else insert r.key (boundKeys recs) := by
  ext key
  rw [mem_boundKeys, bindings_append]
  by_cases hk : key = r.key
  · subst hk
    rw [Function.update_self, isSome_binding]
    split
    · simp [*]
    · simp [*]
  · rw [Function.update_of_ne hk]
    split
    · simp [hk]
    · simp [hk]

theorem card_boundKeys_append (recs : List Rec) (r : Rec) :
    (boundKeys (recs ++ [r])).card + (if (bindings recs r.key).isSome = true then 1 else 0) =
      (boundKeys recs).card + if r.val ≠ [] then 1 else 0 := by
  rw [boundKeys_append]
  by_cases hb : (bindings recs r.key).isSome = true
  · have hmem : r.key ∈ boundKeys recs := mem_boundKeys.mpr hb
    have hpos : 0 < (boundKeys recs).card := Finset.card_pos.mpr ⟨_, hmem⟩
    by_cases hv : r.val = []
    · rw [if_pos hv, if_pos hb, if_neg (not_not_intro hv), Finset.card_erase_of_mem hmem]
      omega
    · rw [if_neg hv, if_pos hb, if_pos hv, Finset.insert_eq_of_mem hmem]
  · have hmem : r.key ∉ boundKeys recs := fun h => hb (mem_boundKeys.mp h)
    by_cases hv : r.val = []
    · rw [if_pos hv, if_neg hb, if_neg (not_not_intro hv), Finset.erase_eq_of_notMem hmem]
    · rw [if_neg hv, if_neg hb, if_pos hv, Finset.card_insert_of_notMem hmem]

@[simp] theorem valued_append (l₁ l₂ : List (List UInt8 × List UInt8)) : valued (l₁ ++ l₂) = valued l₁ + valued l₂ :=
  List.countP_append

theorem valued_content (r : Rec) : valued [r.content] = if r.val ≠ [] then 1 else 0 := by
  simp [valued, Rec.content, List.countP_cons]

/-- Every value appended is bound still, or superseded. -/
theorem bound_add_superseded (recs : List Rec) :
    (boundKeys recs).card + superseded recs = valued (recs.map Rec.content) := by
  induction recs using List.reverseRecOn with
  | nil => rfl
  | append_singleton recs r ih =>
    have hcard := card_boundKeys_append recs r
    rw [superseded_append, List.map_append, valued_append, List.map_singleton, valued_content]
    omega

/-! ## Runs -/

/-- The store when its log is `recs` after the opening record. -/
structure Reached (hash : List UInt8 → UInt64) (N : Nat) (s : KvdbSt) (recs : List Rec) : Prop where
  inv : Inv hash N s recs
  counts : Counts s recs

theorem length_le_image (recs : List Rec) : recs.length ≤ (image recs).length := by
  induction recs with
  | nil => exact Nat.zero_le _
  | cons r rs ih =>
    rw [image_cons, List.length_append, Rec.length_bytes, List.length_cons]
    omega

/-- There are fewer records than a counter can count. -/
theorem Inv.length_lt (h : Inv hash N s recs) : recs.length + 1 < 2 ^ 64 := by
  have hle := length_le_image (opening :: recs)
  have hfits := h.raw.fits
  have hsize := h.raw.device ▸ s.kvraw.logfs.device.size_lt
  rw [List.length_cons] at hle
  omega

/-- The counters follow the log: a value is appended when its key is unbound, the empty
    value only when it is bound. -/
theorem Counts.took {s' : KvdbSt} (hc : Counts s recs) (hlen : recs.length + 1 < 2 ^ 64)
    (hb : (bindings recs r.key).isSome = true ∨ r.val ≠ [])
    (h : (s'.size, s'.waste) = counted (bindings recs r.key).isSome r.val s.size s.waste) :
    Counts s' (recs ++ [r]) := by
  have hcard := card_boundKeys_append recs r
  have hsup := superseded_append recs r
  have hsum := bound_add_superseded recs
  have hle : valued (recs.map Rec.content) ≤ recs.length := by
    have := List.countP_le_length (p := fun c : List UInt8 × List UInt8 => decide (c.2 ≠ []))
      (l := recs.map Rec.content)
    rwa [List.length_map] at this
  have hsize := hc.size
  have hwaste := hc.waste
  unfold counted at h
  by_cases hbound : (bindings recs r.key).isSome = true
  · rw [if_pos hbound] at hcard hsup
    rw [hbound, if_neg (by decide)] at h
    have hpos : 0 < (boundKeys recs).card := Finset.card_pos.mpr ⟨r.key, mem_boundKeys.mpr hbound⟩
    by_cases hv : r.val = []
    · rw [if_pos hv, Prod.mk.injEq] at h
      rw [if_neg (not_not_intro hv)] at hcard
      refine ⟨?_, ?_⟩
      · rw [h.1, UInt64.toNat_sub_of_le _ _ (by rw [UInt64.le_iff_toNat_le]; show 1 ≤ _; omega)]
        show _ - 1 = _
        omega
      · rw [h.2, UInt64.toNat_add]
        show (_ + 1) % _ = _
        omega
    · rw [if_neg hv, Prod.mk.injEq] at h
      rw [if_pos hv] at hcard
      refine ⟨?_, ?_⟩
      · rw [h.1]
        omega
      · rw [h.2, UInt64.toNat_add]
        show (_ + 1) % _ = _
        omega
  · have hv := hb.resolve_left hbound
    rw [if_neg hbound] at hcard hsup
    rw [if_pos hv] at hcard
    rw [if_pos (by simpa using hbound), Prod.mk.injEq] at h
    refine ⟨?_, ?_⟩
    · rw [h.1, UInt64.toNat_add]
      show (_ + 1) % _ = _
      omega
    · rw [h.2]
      omega

theorem record_bound {m : Map} {op : Op} (hv : op.Stores) (h : record m op = some (key, val)) :
    (m key).isSome = true ∨ val ≠ [] := by
  have hne : ∀ {v : List UInt8}, ValOk v → v ≠ [] := fun hv e => hv.1 (by rw [e]; rfl)
  cases op with
  | insert k v =>
    rw [record] at h
    split at h
    · cases h
    · cases h
      exact Or.inr (hne hv)
  | update k v =>
    cases h
    exact Or.inr (hne hv)
  | replace k v =>
    rw [record] at h
    split at h
    · cases h
      exact Or.inr (hne hv)
    · cases h
  | remove k _ _ =>
    rw [record] at h
    split at h
    · cases h
      exact Or.inl (by assumption)
    · cases h
  | lookup _ _ _ => cases h

/-- A call leaves the store at the log it made. -/
theorem Reached.took {s' : KvdbSt} {op : Op} (h : Reached hash N s recs) (hv : op.Stores)
    (ht : Took hash N s s' recs (record (bindings recs) op)) :
    ∃ recs', Reached hash N s' recs' ∧
      recs'.map Rec.content = recs.map Rec.content ++ (record (bindings recs) op).toList ∧
      bindings recs' = rebind (bindings recs) op ∧
      (image (opening :: recs')).length = (image (opening :: recs)).length + written (bindings recs) op := by
  rw [rebind_eq _ hv, written_eq]
  cases hc : record (bindings recs) op with
  | none =>
    rw [hc] at ht
    obtain ⟨hi, hcounts⟩ := ht
    rw [Prod.mk.injEq] at hcounts
    refine ⟨recs, ⟨hi, ?_, ?_⟩, (List.append_nil _).symm, rfl, rfl⟩
    · rw [hcounts.1, h.counts.size]
    · rw [hcounts.2, h.counts.waste]
  | some c =>
    rw [hc] at ht
    obtain ⟨r, hk, hval, hi, hcounts⟩ := ht
    have hb := record_bound hv hc
    rw [← hk, ← hval] at hb hcounts
    refine ⟨recs ++ [r], ⟨hi, h.counts.took h.inv.length_lt hb hcounts⟩, ?_, ?_, ?_⟩
    · rw [List.map_append, List.map_singleton, Rec.content, hk, hval]
      rfl
    · rw [bindings_append, hk, hval]
      rfl
    · rw [length_image_append, hk, hval]
      rfl

/-- After any run whose I/O succeeds. -/
theorem run_reached : ∀ (ops : List Op) {s s' : KvdbSt} {recs : List Rec} {as : List Answer}, Reached hash N s recs →
    Fits N (image (opening :: recs)).length (bindings recs) ops → run hash s ops = .ok (as, s') →
    ∃ recs', Reached hash N s' recs' ∧ as = answers (bindings recs) ops ∧ (∀ op ∈ ops, op.Stores) ∧
      recs'.map Rec.content = recs.map Rec.content ++ appended (bindings recs) ops := by
  intro ops
  induction ops with
  | nil =>
    intro s s' recs as h _ hrun
    cases hrun
    exact ⟨recs, h, rfl, fun op hop => absurd hop List.not_mem_nil, (List.append_nil _).symm⟩
  | cons op ops ih =>
    intro s s' recs as h hf hrun
    rw [run] at hrun
    cases hc : call hash s op with
    | error e =>
      rw [hc] at hrun
      cases hrun
    | ok res =>
      have hp := call_passes h.inv hc
      obtain ⟨s₁, hcall, ht⟩ := call_took h.inv hp hf.1 (by rw [hc]; intro he; cases he)
      obtain ⟨recs₁, h₁, hcontent, hm, hu⟩ := h.took hp.stores ht
      rw [hcall] at hrun
      simp only at hrun
      cases hr : run hash s₁ ops with
      | error e =>
        rw [hr] at hrun
        cases hrun
      | ok res₁ =>
        rw [hr] at hrun
        cases hrun
        obtain ⟨recs₂, h₂, has, hstores, hcontent₂⟩ := ih h₁ (by rw [hm, hu]; exact hf.2) hr
        refine ⟨recs₂, h₂, ?_, List.forall_mem_cons.mpr ⟨hp.stores, hstores⟩, ?_⟩
        · rw [answers, has, hm]
        · rw [hcontent₂, hcontent, hm, appended, List.append_assoc]

theorem reach_reached {d : Device} {junk : Nat → List UInt8} {sched : List Nat} {ops : List Op} {as : List Answer}
    (hf : Fits d.size 18 (fun _ => none) ops) (h : reach hash d junk sched ops = .ok (some (as, s))) :
    ∃ recs, Reached hash d.size s recs ∧ as = answers (fun _ => none) ops ∧ (∀ op ∈ ops, op.Stores) ∧
      recs.map Rec.content = appended (fun _ => none) ops := by
  obtain ⟨s₀, hopen, hi⟩ := kvdbOpen_ok hash d junk sched hf.le
  have hcounts : Counts s₀ [] := by
    unfold kvdbOpen at hopen
    cases hk : kvrawOpen d junk sched [] [] with
    | error e =>
      rw [hk] at hopen
      cases hopen
    | ok k =>
      rw [hk] at hopen
      cases k with
      | none => cases hopen
      | some k =>
        cases hopen
        exact ⟨rfl, rfl⟩
  unfold reach at h
  rw [hopen] at h
  simp only at h
  obtain ⟨res, hrun, -⟩ := exists_ok_of_map h
  rw [hrun] at h
  cases h
  exact run_reached ops ⟨hi, hcounts⟩ hf hrun

/-- `kvdb_lookup` finds the key. -/
def Bound (hash : List UInt8 → UInt64) (s : KvdbSt) (key : List UInt8) : Prop :=
  ∃ s', call hash s (.lookup key none none) = .ok (⟨.done, none, []⟩, s')

theorem Inv.bound_iff (h : Inv hash N s recs) : Bound hash s key ↔ (bindings recs key).isSome = true := by
  have hlookup : KeyOk key →
      ∃ s', call hash s (.lookup key none none) = .ok (reported none (bindings recs key), s') := by
    intro hk
    obtain ⟨o, s', he, hans, -⟩ := lookup_ok h hk
      (show (none : Option Nat).getD 0 ≠ 0 → (none : Option (List UInt8)).isNone = false from fun hne => absurd rfl hne)
    refine ⟨s', ?_⟩
    simp only [call, he, Except.map]
    rw [hans]
  constructor
  · intro hb
    obtain ⟨s', hs'⟩ := hb
    obtain ⟨o, ho, -⟩ := exists_ok_of_map hs'
    obtain ⟨t, ht⟩ := hlookup (kvdbLookup_admits ho).1
    rw [hs'] at ht
    cases hm : bindings recs key with
    | none =>
      rw [hm] at ht
      cases ht
    | some v => rfl
  · intro hb
    obtain ⟨r, -, rfl⟩ := mem_of_bound hb
    obtain ⟨t, ht⟩ := hlookup ⟨Nat.pos_iff_ne_zero.mp r.key_pos, r.key_le⟩
    obtain ⟨v, hv⟩ := Option.isSome_iff_exists.mp hb
    refine ⟨t, ?_⟩
    rw [ht, hv, reported]
    simp

/-- The calls that store a value. -/
def Op.storing : Op → Bool
  | .insert _ _ | .update _ _ | .replace _ _ => true
  | .remove _ _ _ | .lookup _ _ _ => false

/-- How many inserts, updates and replaces returned 0. -/
def succeeded (ops : List Op) (as : List Answer) : Nat :=
  (ops.zip as).countP fun x => x.1.storing && decide (x.2.ret = .done)

theorem valued_record (m : Map) {op : Op} (hv : op.Stores) :
    valued (record m op).toList = if op.storing && decide ((expected m op).ret = .done) then 1 else 0 := by
  have hone : ∀ {k v : List UInt8}, ValOk v → valued [(k, v)] = 1 := by
    intro k v hv
    have hne : v ≠ [] := fun e => hv.1 (by rw [e]; rfl)
    simp [valued, hne]
  cases op with
  | insert k v =>
    rw [record, expected]
    by_cases hb : (m k).isSome = true
    · rw [if_pos hb, if_pos hb]
      rfl
    · rw [if_neg hb, if_neg hb, Option.toList_some, hone hv]
      rfl
  | update k v =>
    rw [record, Option.toList_some, hone hv]
    rfl
  | replace k v =>
    rw [record, expected]
    by_cases hb : (m k).isSome = true
    · rw [if_pos hb, if_pos hb, Option.toList_some, hone hv]
      rfl
    · rw [if_neg hb, if_neg hb]
      rfl
  | remove k _ _ =>
    rw [record]
    split
    · rfl
    · rfl
  | lookup _ _ _ => rfl

theorem valued_appended : ∀ (ops : List Op) (m : Map), (∀ op ∈ ops, op.Stores) →
    valued (appended m ops) = succeeded ops (answers m ops) := by
  intro ops
  induction ops with
  | nil => exact fun _ _ => rfl
  | cons op ops ih =>
    intro m hs
    rw [appended, valued_append, valued_record m (hs op List.mem_cons_self),
      ih _ fun op hop => hs op (List.mem_cons_of_mem _ hop),
      answers, succeeded, succeeded, List.zip_cons_cons, List.countP_cons]
    exact Nat.add_comm _ _

/-- In every state that calls can reach, `kvdb_size` is the number of keys that a lookup
    finds and `kvdb_waste` the number of values written that are not their key's any more;
    together they are the number of inserts, updates and replaces that succeeded. -/
theorem counters_are_exact (hash : List UInt8 → UInt64) (d : Device) (junk : Nat → List UInt8) (sched : List Nat)
    (ops : List Op) (as : List Answer) (s : KvdbSt) (hf : Fits d.size 18 (fun _ => none) ops)
    (h : reach hash d junk sched ops = .ok (some (as, s))) :
    ∃ (recs : List Rec) (keys : Finset (List UInt8)), RawRepr d.size s.kvraw (opening :: recs) ∧
      recs.map Rec.content = appended (fun _ => none) ops ∧ (∀ key, key ∈ keys ↔ Bound hash s key) ∧
      (kvdbSize s).toNat = keys.card ∧ (kvdbWaste s).toNat = superseded recs ∧
      (kvdbSize s).toNat + (kvdbWaste s).toNat = succeeded ops as := by
  obtain ⟨recs, hr, has, hstores, hcontent⟩ := reach_reached hf h
  refine ⟨recs, boundKeys recs, hr.inv.raw, hcontent, ?_, hr.counts.size, hr.counts.waste, ?_⟩
  · intro key
    rw [mem_boundKeys, hr.inv.bound_iff]
  · have hsum := bound_add_superseded recs
    rw [hcontent, valued_appended ops _ hstores, ← has] at hsum
    rw [← hsum]
    exact congrArg₂ (· + ·) hr.counts.size hr.counts.waste

/-- A key is inserted and twice. -/
def twice : List Op := [.insert [107] [1], .update [107] [2]]

theorem fits_twice : Fits device128.size 18 (fun _ => none) twice := by
  simp [twice, Fits, written, device128]

theorem reach_twice : ∃ s, reach (fun _ => 7) device128 (fun _ => []) [] twice =
    .ok (some ([⟨.done, none, []⟩, ⟨.done, none, []⟩], s)) :=
  ⟨_, rfl⟩

/-- One value is the key's, one was superseded. -/
theorem counters_are_exact_twice : ∃ s, reach (fun _ => 7) device128 (fun _ => []) [] twice =
    .ok (some ([⟨.done, none, []⟩, ⟨.done, none, []⟩], s)) ∧ (kvdbSize s).toNat + (kvdbWaste s).toNat = 2 := by
  obtain ⟨s, hs⟩ := reach_twice
  obtain ⟨recs, keys, -, -, -, -, -, hsum⟩ := counters_are_exact (fun _ => 7) device128 (fun _ => []) [] twice _ s
    fits_twice hs
  exact ⟨s, hs, hsum⟩

end Cs238p.Kvdb
