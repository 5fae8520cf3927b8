/-
  Cs238p.Kvdb.Admission — what the entry points of kvdb admit, and what the calls below
  them assert.

  `kvdb_remove` admits a length that is not 0 without a buffer for the value, which
  `kvraw_lookup` refuses as soon as the key's hash has a record; and it refuses the length
  query (no buffer, length 0) that `kvdb_lookup` admits (`a_remove_is_refused_below`). The
  two conditions differ in one negation, `!!(*val_len)` against `!(*val_len)`.

  Proved: in every store that calls can reach, I/O errors and full indexes included, these
  removes are all there is; a refused call is where the process stops; and where the log
  reads back and has room for a record, no assertion fails but the refused ones
  (`admission_iff`).
-/
import Cs238p.Kvdb.Alike
import Cs238p.Kvdb.IndexFull

namespace Cs238p.Kvdb

open Cs238p.Logfs (Stop Device)

/-! ## The calls below -/

/-- A call of `index_update`, `index_lookup`, `kvraw_lookup` or `kvraw_append`, with what
    its assertions look at; keys, and the buffers for them, are never `NULL`. -/
inductive LowerCall where
  | indexUpdate (keyLen : Nat)
  | indexLookup (keyLen : Nat)
  | kvrawLookup (valNull : Bool) (valLen off : Nat)
  | kvrawAppend (keyLen : Nat) (valNull : Bool) (valLen : Nat)
  deriving DecidableEq, Repr

/-- Their assertions. -/
def LowerCall.Admitted : LowerCall → Prop
  | .indexUpdate keyLen => keyLen ≠ 0
  | .indexLookup keyLen => keyLen ≠ 0
  | .kvrawLookup valNull valLen off => (valLen ≠ 0 → valNull = false) ∧ off ≠ 0
  | .kvrawAppend keyLen valNull valLen =>
    (keyLen ≠ 0 ∧ keyLen ≤ 0xffff) ∧ (valLen ≠ 0 → valNull = false) ∧ valLen ≤ 0xffffffff

/-- The calls that `chain_lookup` makes in its first `fuel` turns. -/
def chainCalls : Nat → Kvraw → List UInt8 → Option (List UInt8) → Nat → Nat → List LowerCall
  | 0, _, _, _, _, _ => []
  | fuel + 1, k, key, val, valLen, off =>
    if off = 0 then []
    else
      .kvrawLookup val.isNone valLen off ::
        match kvrawLookup k (min key.length 256) val.isNone valLen off with
        | .ok (some f, k) =>
          let val := putPrefix val f.val
          if f.keyLen ≠ key.length ∨ f.key.take (min key.length 8) ≠ key.take (min key.length 8) then
            chainCalls fuel k key val valLen f.off
          else if f.keyLen > 8 then
            .kvrawLookup val.isNone 0 off ::
              match kvrawLookup k f.keyLen val.isNone 0 off with
              | .ok (some g, k) => if g.key.take key.length = key then [] else chainCalls fuel k key val valLen g.off
              | _ => []
          else if f.key.take key.length = key then []
          else chainCalls fuel k key val valLen f.off
        | _ => []

/-- The `kvraw_append` of `mutate`, once `chain_lookup` has answered `c`. -/
def appendCalls (key : List UInt8) (val : Option (List UInt8)) (valLen : Option Nat) (mode : Mode) (c : Chained) :
    List LowerCall :=
  let found := c.off ≠ 0 ∧ c.valLen ≠ 0
  let stored := LowerCall.kvrawAppend key.length val.isNone (valLen.getD 0)
  match mode with
  | .remove => if found then [.kvrawAppend key.length true 0] else []
  | .insert => if found then [] else [stored]
  | .update => [stored]
  | .replace => if found then [stored] else []

def mutateCalls (fuel : Nat) (hash : List UInt8 → UInt64) (s : KvdbSt) (key : List UInt8) (val : Option (List UInt8))
    (valLen : Option Nat) (mode : Mode) : List LowerCall :=
  .indexUpdate key.length ::
    match indexUpdate hash s.index key with
    | .error _ => []
    | .ok (ref, index) =>
      let val' := if mode = .remove ∧ valLen.isSome then val else none
      let valLen' := if mode = .remove then valLen.getD 0 else 0
      chainCalls fuel s.kvraw key val' valLen' (index.maps ref).off ++
        match chainLookup fuel s.kvraw key val' valLen' (index.maps ref).off with
        | .ok (some c, _) => appendCalls key val valLen mode c
        | _ => []

/-- The calls below that a call of kvdb makes, its assertions passed. -/
def lowerCalls (fuel : Nat) (hash : List UInt8 → UInt64) (s : KvdbSt) : Op → List LowerCall
  | .insert key val => mutateCalls fuel hash s key (some val) (some val.length) .insert
  | .update key val => mutateCalls fuel hash s key (some val) (some val.length) .update
  | .replace key val => mutateCalls fuel hash s key (some val) (some val.length) .replace
  | .remove key val valLen => mutateCalls fuel hash s key val valLen .remove
  | .lookup key val valLen =>
    .indexLookup key.length ::
      match indexLookup hash s.index key with
      | .ok (some ref) =>
        chainCalls fuel s.kvraw key (if valLen.isSome then val else none) (valLen.getD 0) (s.index.maps ref).off
      | _ => []

/-- The assertions of the entry points. -/
def Op.Admitted : Op → Prop
  | .insert key val => KeyOk key ∧ ValOk val
  | .update key val => KeyOk key ∧ ValOk val
  | .replace key val => KeyOk key ∧ ValOk val
  | .remove key val valLen => KeyOk key ∧ (valLen = none ∨ valLen ≠ some 0 ∨ val.isSome = true)
  | .lookup key val valLen => KeyOk key ∧ (valLen = none ∨ valLen = some 0 ∨ val.isSome = true)

/-- The value that a call may store. -/
def Op.payload : Op → List UInt8
  | .insert _ val | .update _ val | .replace _ val => val
  | .remove _ _ _ | .lookup _ _ _ => []

variable {hash : List UInt8 → UInt64} {s s' : KvdbSt} {key : List UInt8} {val : Option (List UInt8)}
  {valLen : Option Nat} {mode : Mode} {k : Kvraw} {c : LowerCall} {n off : Nat} {op : Op}

/-- With a buffer wherever a length asks for one `chain_lookup` passes all assertions. -/
theorem chainCalls_admitted : ∀ (fuel : Nat) {k : Kvraw} {val : Option (List UInt8)} {off : Nat},
    (n ≠ 0 → val.isNone = false) → ∀ c ∈ chainCalls fuel k key val n off, c.Admitted := by
  intro fuel
  induction fuel with
  | zero => exact fun _ c hc => absurd hc List.not_mem_nil
  | succ fuel ih =>
    intro k val off hv c hc
    unfold chainCalls at hc
    split at hc
    · cases hc
    rename_i h0
    rcases List.mem_cons.mp hc with rfl | hc
    · exact ⟨hv, h0⟩
    split at hc
    · rename_i f k₁ _
      have hv' : n ≠ 0 → (putPrefix val f.val).isNone = false := by
        rw [isNone_putPrefix]
        exact hv
      simp only at hc
      split at hc
      · exact ih hv' c hc
      split at hc
      · rcases List.mem_cons.mp hc with rfl | hc
        · exact ⟨fun h => absurd rfl h, h0⟩
        split at hc
        · split at hc
          · cases hc
          · exact ih hv' c hc
        · cases hc
      split at hc
      · cases hc
      · exact ih hv' c hc
    · cases hc

/-- A refused call of `chain_lookup` is where the process stops. -/
theorem chainLookup_refused : ∀ (fuel : Nat) {k : Kvraw} {val : Option (List UInt8)} {off : Nat},
    c ∈ chainCalls fuel k key val n off → ¬ c.Admitted → chainLookup fuel k key val n off = .error .assert := by
  intro fuel
  cases fuel with
  | zero => exact fun hc _ => absurd hc List.not_mem_nil
  | succ fuel =>
    intro k val off hc hno
    by_cases hv : n ≠ 0 → val.isNone = false
    · exact absurd (chainCalls_admitted _ hv c hc) hno
    · have hn : n ≠ 0 := fun h => hv fun hne => absurd h hne
      have h0 : off ≠ 0 := by
        rintro rfl
        rw [chainCalls, if_pos rfl] at hc
        cases hc
      cases val with
      | none => exact chainLookup_null h0 hn
      | some _ => exact absurd (fun _ => rfl) hv

theorem appendCalls_admitted {ch : Chained} (hk : KeyOk key) (hv : mode ≠ .remove → ∃ v, val = some v ∧
    valLen = some v.length ∧ ValOk v) : ∀ c ∈ appendCalls key val valLen mode ch, c.Admitted := by
  have hstored : mode ≠ .remove → (LowerCall.kvrawAppend key.length val.isNone (valLen.getD 0)).Admitted := by
    intro hm
    obtain ⟨v, rfl, rfl, hlen⟩ := hv hm
    exact ⟨hk, fun _ => rfl, hlen.2⟩
  intro c hc
  unfold appendCalls at hc
  cases mode with
  | remove =>
    simp only at hc
    split at hc
    · rw [List.mem_singleton] at hc
      subst hc
      exact ⟨hk, fun h => absurd rfl h, Nat.zero_le _⟩
    · cases hc
  | insert =>
    simp only at hc
    split at hc
    · cases hc
    · rw [List.mem_singleton.mp hc]
      exact hstored (fun h => by cases h)
  | update =>
    rw [List.mem_singleton.mp hc]
    exact hstored (fun h => by cases h)
  | replace =>
    simp only at hc
    split at hc
    · rw [List.mem_singleton.mp hc]
      exact hstored (fun h => by cases h)
    · cases hc

/-- `mutate` refuses in `chain_lookup` or nowhere. -/
theorem mutateCalls_cases {fuel : Nat} (hk : KeyOk key) (hv : mode ≠ .remove → ∃ v, val = some v ∧
    valLen = some v.length ∧ ValOk v) (hc : c ∈ mutateCalls fuel hash s key val valLen mode) :
    c.Admitted ∨ ∃ ref index, indexUpdate hash s.index key = .ok (ref, index) ∧
      c ∈ chainCalls fuel s.kvraw key (if mode = .remove ∧ valLen.isSome then val else none)
        (if mode = .remove then valLen.getD 0 else 0) (index.maps ref).off := by
  unfold mutateCalls at hc
  rcases List.mem_cons.mp hc with rfl | hc
  · exact Or.inl hk.1
  cases hu : indexUpdate hash s.index key with
  | error e =>
    rw [hu] at hc
    cases hc
  | ok r =>
    rw [hu] at hc
    rcases List.mem_append.mp hc with hc | hc
    · exact Or.inr ⟨r.1, r.2, rfl, hc⟩
    · refine Or.inl ?_
      split at hc
      · exact appendCalls_admitted hk hv c hc
      · cases hc

/-- The buffer and length that `mutate` passes on. -/
theorem passed_on (hv : mode = .remove → valLen.getD 0 ≠ 0 → val.isNone = false) :
    (if mode = .remove then valLen.getD 0 else 0) ≠ 0 →
      (if mode = .remove ∧ valLen.isSome = true then val else none).isNone = false := by
  intro hne
  by_cases hm : mode = .remove
  · rw [if_pos hm] at hne
    have hsome : valLen.isSome = true := by
      cases valLen with
      | none => exact absurd rfl hne
      | some _ => rfl
    rw [if_pos ⟨hm, hsome⟩]
    exact hv hm hne
  · rw [if_neg hm] at hne
    exact absurd rfl hne

theorem mutateCalls_admitted {fuel : Nat} (hk : KeyOk key) (hv : mode ≠ .remove → ∃ v, val = some v ∧
    valLen = some v.length ∧ ValOk v) (hbuf : mode = .remove → valLen.getD 0 ≠ 0 → val.isNone = false) :
    ∀ c ∈ mutateCalls fuel hash s key val valLen mode, c.Admitted := by
  intro c hc
  rcases mutateCalls_cases hk hv hc with h | ⟨ref, index, -, h⟩
  · exact h
  · exact chainCalls_admitted fuel (passed_on hbuf) c h

/-- The process stops at a call that is refused. -/
theorem call_refused (ha : op.Admitted) (hc : c ∈ lowerCalls (s.kvraw.size + 1) hash s op) (hno : ¬ c.Admitted) :
    call hash s op = .error .assert := by
  have hmutate : ∀ {key val valLen mode}, KeyOk key →
      (mode ≠ .remove → ∃ v, val = some v ∧ valLen = some v.length ∧ ValOk v) →
      c ∈ mutateCalls (s.kvraw.size + 1) hash s key val valLen mode →
      mutate hash s key val valLen mode = .error .assert := by
    intro key val valLen mode hk hv hc
    rcases mutateCalls_cases hk hv hc with h | ⟨ref, index, hu, h⟩
    · exact absurd h hno
    · have herr := chainLookup_refused _ h hno
      unfold mutate
      simp only [hu, herr]
  have hstore : ∀ {mode key val}, KeyOk key ∧ ValOk val →
      c ∈ mutateCalls (s.kvraw.size + 1) hash s key (some val) (some val.length) mode →
      kvdbStore mode hash s key val = .error .assert := by
    intro mode key val hif hc
    unfold kvdbStore
    rw [if_pos hif]
    exact hmutate hif.1 (fun _ => ⟨val, rfl, rfl, hif.2⟩) hc
  cases op with
  | insert key val => simp only [call, kvdbInsert, hstore ha hc, Except.map]
  | update key val => simp only [call, kvdbUpdate, hstore ha hc, Except.map]
  | replace key val => simp only [call, kvdbReplace, hstore ha hc, Except.map]
  | remove key val valLen =>
    have hif : KeyOk key ∧ (valLen = none ∨ valLen ≠ some 0 ∨ val.isSome = true) := ha
    have herr := hmutate hif.1 (fun h => absurd rfl h) hc
    simp only [call, kvdbRemove, if_pos hif, herr, Except.map]
  | lookup key val valLen =>
    have hif : KeyOk key ∧ (valLen = none ∨ valLen = some 0 ∨ val.isSome = true) := ha
    simp only [lowerCalls] at hc
    rcases List.mem_cons.mp hc with rfl | hc
    · exact absurd hif.1.1 hno
    split at hc
    · rename_i ref hl
      have h0 : (s.index.maps ref).off ≠ 0 := by
        intro h0
        rw [chainCalls, if_pos h0] at hc
        cases hc
      have herr := chainLookup_refused _ hc hno
      simp only [call, kvdbLookup, if_pos hif, hl, if_neg h0, herr, Except.map]
    · cases hc

/-! ## A log that reads back -/

variable {N size : Nat} {fails : List Bool} {log v : List UInt8}

theorem Content.append_returns {prev : Nat} (h : Content N fails log size k) (hk : KeyOk key) (hv : v.length ≤ 0xffffffff)
    (hroom : log.length + (16 + key.length + v.length) ≤ N) : ∃ r, Kvdb.kvrawAppend k key v prev = .ok r := by
  have hvalid : ¬ (key.length = 0 ∨ 0xffff < key.length ∨ 0xffffffff < v.length) := by
    obtain ⟨h0, hle⟩ := hk
    omega
  have hle := @length_storedBy_le (parts key v prev) fails
  rw [length_parts] at hle
  obtain ⟨k', hk', -⟩ := @Content.kvrawAppend N size fails log k key v prev h hvalid (by omega)
  exact ⟨_, hk'⟩

theorem Content.mutateAt_returns {ref : Nat} {ch : Chained} (h : Content N fails log size s.kvraw) (hk : KeyOk key)
    (hstored : mode ≠ .remove → (val.getD []).take (valLen.getD 0) = v) (hv : v.length ≤ 0xffffffff)
    (hroom : log.length + (16 + key.length + v.length) ≤ N) : ∃ r, mutateAt s ref key val valLen mode ch = .ok r := by
  have happ : ∀ {t : KvdbSt} {w : List UInt8}, t.kvraw = s.kvraw → w.length ≤ v.length → ∃ b u, appendRef t ref key w = .ok (b, u) := by
    intro t w ht hw
    obtain ⟨⟨r, k'⟩, hr⟩ := @Content.append_returns key s.kvraw N size fails log w (t.index.maps ref).off h hk (by omega) (by omega)
    unfold appendRef
    rw [ht, hr]
    cases r with
    | none => exact ⟨_, _, rfl⟩
    | some off => exact ⟨_, _, rfl⟩
  have hnil : ∃ b u, appendRef s ref key [] = .ok (b, u) := happ rfl (Nat.zero_le _)
  have hval : ∃ b u, appendRef s ref key v = .ok (b, u) := happ rfl (Nat.le_refl _)
  cases mode with
  | remove =>
    obtain ⟨b, u, hb⟩ := hnil
    simp only [mutateAt, hb]
    split
    · exact ⟨_, rfl⟩
    · cases b <;> exact ⟨_, rfl⟩
  | insert =>
    obtain ⟨b, u, hb⟩ := hval
    simp only [mutateAt, hstored (by decide), hb]
    split
    · exact ⟨_, rfl⟩
    · cases b <;> exact ⟨_, rfl⟩
  | update =>
    simp only [mutateAt, hstored (by decide)]
    by_cases hf : ch.off ≠ 0 ∧ ch.valLen ≠ 0
    · obtain ⟨b, u, hb⟩ := @happ { s with waste := s.waste + 1 } v rfl (Nat.le_refl _)
      rw [if_neg (not_not.mpr hf), hb]
      cases b <;> exact ⟨_, rfl⟩
    · obtain ⟨b, u, hb⟩ := @happ { s with size := s.size + 1 } v rfl (Nat.le_refl _)
      rw [if_pos hf, hb]
      cases b <;> exact ⟨_, rfl⟩
  | replace =>
    obtain ⟨b, u, hb⟩ := hval
    simp only [mutateAt, hstored (by decide), hb]
    split
    · exact ⟨_, rfl⟩
    · cases b <;> exact ⟨_, rfl⟩

/-- Admitted calls below `chain_lookup` fail no assertion. -/
theorem Content.chain_passes {fuel : Nat} (h : Content N fails log size k)
    (hc : ∀ c ∈ chainCalls (fuel + 1) k key val n off, c.Admitted) :
    Outcome (fun e => e ≠ .assert) (Kvdb.chainLookup (fuel + 1) k key val n off) fun r => Content N fails log size r.2 := by
  by_cases h0 : off = 0
  · rw [Kvdb.chainLookup, if_pos h0]
    exact .ok h
  have hv : n ≠ 0 → val.isNone = false := by
    refine (hc (.kvrawLookup val.isNone n off) ?_).1
    rw [chainCalls, if_neg h0]
    exact List.mem_cons_self
  have hagree := @Content.chainLookup_agree N size fails fails log key n (fuel + 1) k k val off h h
  rcases @Content.chainLookup _ _ _ _ key n (fuel + 1) _ val off h hv with ⟨-, r, hr⟩ | ⟨-, herr⟩
  · obtain ⟨c, k'⟩ := r
    obtain ⟨_, -, hk', -⟩ := hagree.of_ok hr
    rw [hr]
    exact .ok hk'
  · rw [herr]
    exact .error (by decide)

theorem Content.mutate_passes (h : Content N fails log s.kvraw.size s.kvraw) (hk : KeyOk key)
    (hstored : mode ≠ .remove → (val.getD []).take (valLen.getD 0) = v) (hv : v.length ≤ 0xffffffff)
    (hroom : log.length + (16 + key.length + v.length) ≤ N)
    (hc : ∀ c ∈ mutateCalls (s.kvraw.size + 1) hash s key val valLen mode, c.Admitted) :
    Outcome (fun e => e ≠ .assert) (mutate hash s key val valLen mode) fun _ => True := by
  unfold mutate
  cases hu : indexUpdate hash s.index key with
  | error e =>
    refine .error ?_
    rw [indexUpdate_error hk.1 hu]
    decide
  | ok r =>
    obtain ⟨ref, index⟩ := r
    simp only
    have hchain := @Content.chain_passes key (if mode = .remove ∧ valLen.isSome = true then val else none) s.kvraw
      (if mode = .remove then valLen.getD 0 else 0) (index.maps ref).off N s.kvraw.size fails log s.kvraw.size h fun c hmem => by
        refine hc c (List.mem_cons_of_mem _ ?_)
        rw [hu]
        exact List.mem_append_left _ hmem
    generalize Kvdb.chainLookup _ _ _ _ _ _ = y at hchain ⊢
    cases hchain with
    | error he => exact .error he
    | @ok p _ hp =>
      obtain ⟨c, kvraw⟩ := p
      cases c with
      | none => exact .ok trivial
      | some c =>
        obtain ⟨r, hr⟩ := @Content.mutateAt_returns { s with kvraw, index } key val valLen mode N s.kvraw.size fails log v ref c hp hk
          hstored hv hroom
        simp only [hr]
        exact .ok trivial

theorem Content.lookup_passes (h : Content N fails log s.kvraw.size s.kvraw)
    (ha : KeyOk key ∧ (valLen = none ∨ valLen = some 0 ∨ val.isSome = true))
    (hc : ∀ c ∈ lowerCalls (s.kvraw.size + 1) hash s (.lookup key val valLen), c.Admitted) :
    Outcome (fun e => e ≠ .assert) (kvdbLookup hash s key val valLen) fun _ => True := by
  unfold kvdbLookup
  rw [if_pos ha]
  simp only [lowerCalls] at hc
  cases hl : indexLookup hash s.index key with
  | error e =>
    unfold indexLookup at hl
    rw [if_neg ha.1.1] at hl
    split at hl <;> cases hl
  | ok r =>
    cases r with
    | none => exact .ok trivial
    | some ref =>
      simp only
      split
      · exact .ok trivial
      rw [hl] at hc
      have hchain := @Content.chain_passes key (if valLen.isSome = true then val else none) s.kvraw (valLen.getD 0)
        (s.index.maps ref).off N s.kvraw.size fails log s.kvraw.size h fun c hmem => hc c (List.mem_cons_of_mem _ hmem)
      generalize Kvdb.chainLookup _ _ _ _ _ _ = y at hchain ⊢
      cases hchain with
      | error he => exact .error he
      | @ok p _ =>
        obtain ⟨c, kvraw⟩ := p
        cases c with
        | none => exact .ok trivial
        | some c =>
          simp only
          split
          · exact .ok trivial
          · exact .ok trivial

/-- With room for one more record no assertion fails but those of the calls below. -/
theorem Content.call_passes (h : Content N fails log s.kvraw.size s.kvraw) (ha : op.Admitted)
    (hroom : log.length + (16 + op.key.length + op.payload.length) ≤ N)
    (hc : ∀ c ∈ lowerCalls (s.kvraw.size + 1) hash s op, c.Admitted) :
    Outcome (fun e => e ≠ .assert) (call hash s op) fun _ => True := by
  have hstore : ∀ {mode key val}, KeyOk key ∧ ValOk val → log.length + (16 + key.length + val.length) ≤ N →
      (∀ c ∈ mutateCalls (s.kvraw.size + 1) hash s key (some val) (some val.length) mode, c.Admitted) →
      Outcome (fun e => e ≠ .assert) (kvdbStore mode hash s key val) fun _ => True := by
    intro mode key val hif hroom hc
    unfold kvdbStore
    rw [if_pos hif]
    exact h.mutate_passes hif.1 (fun _ => List.take_length) hif.2.2 hroom hc
  cases op with
  | insert key val => exact (hstore ha hroom hc).map fun _ _ => trivial
  | update key val => exact (hstore ha hroom hc).map fun _ _ => trivial
  | replace key val => exact (hstore ha hroom hc).map fun _ _ => trivial
  | remove key val valLen =>
    have hif : KeyOk key ∧ (valLen = none ∨ valLen ≠ some 0 ∨ val.isSome = true) := ha
    have hmutate := @Content.mutate_passes hash s key val valLen .remove N fails log [] h hif.1 (absurd rfl) (Nat.zero_le _) hroom hc
    have hremove : Outcome (fun e => e ≠ .assert) (kvdbRemove hash s key val valLen) fun _ => True := by
      unfold kvdbRemove
      rw [if_pos hif]
      exact hmutate
    exact hremove.map fun _ _ => trivial
  | lookup key val valLen =>
    have hif : KeyOk key ∧ (valLen = none ∨ valLen = some 0 ∨ val.isSome = true) := ha
    have hlookup : Outcome (fun e => e ≠ .assert) (kvdbLookup hash s key val valLen) fun _ => True :=
      h.lookup_passes hif hc
    exact hlookup.map fun _ _ => trivial

/-! ## Reachable stores -/

/-- The stores that calls can reach; reads and appends may fail. -/
inductive StoreReach (hash : List UInt8 → UInt64) : KvdbSt → Prop
  | opened {device : Device} {junk : Nat → List UInt8} {sched : List Nat} {faults appendFails : List Bool} {s : KvdbSt} :
      kvdbOpen device junk sched faults appendFails = .ok (some s) → StoreReach hash s
  | called {s s' : KvdbSt} {op : Op} {a : Answer} : StoreReach hash s → call hash s op = .ok (a, s') →
      StoreReach hash s'

/-- What their indexes keep. -/
def IndexLight (index : Index) : Prop := index.Sized ∧ index.Light

theorem appendRef_light {ref : Nat} {v : List UInt8} {b : Bool} (h : IndexLight s.index)
    (ha : appendRef s ref key v = .ok (b, s')) : IndexLight s'.index := by
  unfold appendRef at ha
  split at ha
  · cases ha
  · cases ha
    exact h
  · cases ha
    exact ⟨h.1.setOff _ _, h.2⟩

theorem mutateAt_light {ref : Nat} {ch : Chained} {o : Out} (h : IndexLight s.index)
    (hm : mutateAt s ref key val valLen mode ch = .ok (o, s')) : IndexLight s'.index := by
  rcases mutateAt_eq key val valLen mode ch with ⟨o', -, hnone⟩ | ⟨v, failed, done, f, g, f', g', -, -, -, -, happ⟩
  · rw [hnone] at hm
    cases hm
    exact h
  · rw [happ] at hm
    unfold finish at hm
    have hcounted : IndexLight ({ s with size := f s.size, waste := g s.waste } : KvdbSt).index := h
    split at hm
    · cases hm
    all_goals
      rename_i ha
      cases hm
      have hlight := appendRef_light hcounted ha
      exact hlight

theorem mutate_light {o : Out} (h : IndexLight s.index) (hm : mutate hash s key val valLen mode = .ok (o, s')) :
    IndexLight s'.index := by
  unfold mutate at hm
  cases hu : indexUpdate hash s.index key with
  | error e =>
    rw [hu] at hm
    cases hm
  | ok r =>
    have hl := indexUpdate_light h.1 h.2 hu
    rw [hu] at hm
    simp only at hm
    split at hm
    · cases hm
    · cases hm
      exact hl
    · exact mutateAt_light (show IndexLight (KvdbSt.mk s.size s.waste _ r.2).index from hl) hm

theorem kvdbLookup_light {o : Out} (h : IndexLight s.index) (hm : kvdbLookup hash s key val valLen = .ok (o, s')) :
    IndexLight s'.index := by
  unfold kvdbLookup at hm
  split at hm
  · split at hm
    · cases hm
    · cases hm
      exact h
    split at hm
    · cases hm
      exact h
    simp only at hm
    split at hm
    · cases hm
    · cases hm
      exact h
    split at hm
    · cases hm
      exact h
    · cases hm
      exact h
  · cases hm

theorem call_light {a : Answer} (h : IndexLight s.index) (hc : call hash s op = .ok (a, s')) : IndexLight s'.index := by
  rcases call_cases hc with ⟨key, val, valLen, rfl⟩ | ⟨val, valLen, mode, o, hm, -⟩
  · obtain ⟨⟨o, t⟩, ho, he⟩ := exists_ok_of_map hc
    cases he
    exact kvdbLookup_light h ho
  · exact mutate_light h hm

theorem StoreReach.light (h : StoreReach hash s) : IndexLight s.index := by
  induction h with
  | opened ho =>
    unfold kvdbOpen at ho
    split at ho
    · cases ho
    · cases ho
    · cases ho
      exact ⟨sized_create 0, light_open⟩
  | called _ hc ih => exact call_light ih hc

/-- A key that has an entry is admitted, and its entry stays. -/
theorem IndexLight.update_held {index : Index} {bs : List UInt8} (h : IndexLight index) (hb : bs.length ≠ 0)
    (hh : Holds index (normalised hash bs) off) :
    ∃ ref t, indexUpdate hash index bs = .ok (ref, t) ∧ (t.maps ref).off = off := by
  obtain ⟨u, hu⟩ := h.1.grow_ok h.2
  obtain ⟨husized, -⟩ := h.1.grow hu
  obtain ⟨-, hkept⟩ := Kvdb.grow_ok h.1.linked hu
  obtain ⟨⟨ref, t⟩, ht⟩ := (update_ok_iff husized.linked).mpr (Or.inl ⟨off, (hkept _ _).mpr hh⟩)
  have hupdate : indexUpdate hash index bs = .ok (ref, t) := by
    unfold indexUpdate
    rw [if_neg hb, hu]
    exact ht
  obtain ⟨hok, href, hholds⟩ := indexUpdate_ok h.1.linked hb hupdate
  exact ⟨ref, t, hupdate, hok.holds_unique ⟨ref, href, rfl⟩ ((hholds _ _).mpr (Or.inl hh))⟩

/-- The entry `index_update` answers holds 0 when the index has no other offset. -/
theorem off_eq_zero {index t : Index} {bs : List UInt8} {ref : Nat} (h : index.Ok) (hb : bs.length ≠ 0)
    (hno : ∀ off, Holds index (normalised hash bs) off → off = 0) (hu : indexUpdate hash index bs = .ok (ref, t)) :
    (t.maps ref).off = 0 := by
  obtain ⟨-, href, hholds⟩ := indexUpdate_ok h hb hu
  rcases (hholds _ _).mp ⟨ref, href, rfl⟩ with hh | ⟨-, h0, -⟩
  · exact hno _ hh
  · exact h0

/-- A remove without a buffer, of a length that is not 0 and a hash that has a record, makes a
    call that is refused. -/
theorem StoreReach.remove_refused (h : StoreReach hash s) (hk : KeyOk key) (hoff : off ≠ 0)
    (hh : Holds s.index (normalised hash key) off) :
    .kvrawLookup true n off ∈ lowerCalls 1 hash s (.remove key none (some n)) := by
  obtain ⟨ref, t, hu, ht⟩ := h.light.update_held hk.1 hh
  show _ ∈ mutateCalls _ _ _ _ _ _ _
  unfold mutateCalls
  rw [hu]
  refine List.mem_cons_of_mem _ (List.mem_append_left _ ?_)
  simp only [ht, if_true, ite_self, Option.getD_some]
  unfold chainCalls
  rw [if_neg hoff]
  exact List.mem_cons_self

/-- Those removes apart no call below is refused. -/
theorem StoreReach.calls_admitted (h : StoreReach hash s) (hadm : op.Admitted)
    (hno : ∀ key n, op = .remove key none (some n) → ∀ off, Holds s.index (normalised hash key) off → off = 0) (fuel : Nat) :
    ∀ c ∈ lowerCalls fuel hash s op, c.Admitted := by
  have hlight := h.light
  cases op with
  | remove key val valLen =>
    intro c hc
    rcases mutateCalls_cases hadm.1 (fun h => absurd rfl h) hc with h | ⟨ref, index, hu, h⟩
    · exact h
    by_cases hv : valLen.getD 0 ≠ 0 → val.isNone = false
    · exact chainCalls_admitted fuel (passed_on fun _ => hv) c h
    · -- no buffer for a length: nothing is looked up
      exfalso
      cases val with
      | some _ => exact hv fun _ => rfl
      | none =>
        cases valLen with
        | none => exact hv fun h => absurd rfl h
        | some n =>
          rw [off_eq_zero hlight.1.linked hadm.1.1 (hno key n rfl) hu] at h
          cases fuel <;> simp [chainCalls] at h
  | lookup key val valLen =>
    intro c hc
    simp only [lowerCalls] at hc
    rcases List.mem_cons.mp hc with rfl | hc
    · exact hadm.1.1
    split at hc
    · refine chainCalls_admitted fuel ?_ c hc
      intro hne
      rcases hadm.2 with rfl | rfl | hsome
      · exact absurd rfl hne
      · exact absurd rfl hne
      · cases val with
        | none => cases hsome
        | some buf =>
          split
          · rfl
          · rename_i hn
            cases valLen with
            | none => exact absurd rfl hne
            | some _ => exact absurd rfl hn
    · cases hc
  | _ => exact mutateCalls_admitted hadm.1 (fun _ => ⟨_, rfl, rfl, hadm.2⟩) (fun h => by cases h)

/-- Whatever calls came before, and whether their I/O succeeded: of a call that passes the
    assertions of its entry point no call below is refused, and a remove admits the length
    query that a lookup admits, iff it is no remove without a buffer whose length is 0 or
    whose key's hash has a record. A refused call is where the process stops; and on a log
    that reads back and has room for the record, a call of which none is refused fails no
    assertion. -/
theorem admission_iff (hash : List UInt8 → UInt64) (s : KvdbSt) (op : Op) (h : StoreReach hash s) :
    (((op.Admitted → ∀ fuel, ∀ c ∈ lowerCalls fuel hash s op, c.Admitted) ∧
      ∀ key, op = .remove key none (some 0) → (Op.lookup key none (some 0)).Admitted → op.Admitted) ↔
    ¬ ∃ key n, op = .remove key none (some n) ∧ KeyOk key ∧
      (n = 0 ∨ ∃ off ≠ 0, Holds s.index (normalised hash key) off)) ∧
    (op.Admitted → (∃ c ∈ lowerCalls (s.kvraw.size + 1) hash s op, ¬ c.Admitted) → call hash s op = .error .assert) ∧
    (∀ N log, Content N s.kvraw.appendFails log s.kvraw.size s.kvraw →
      log.length + (16 + op.key.length + op.payload.length) ≤ N → op.Admitted →
      (∀ c ∈ lowerCalls (s.kvraw.size + 1) hash s op, c.Admitted) → call hash s op ≠ .error .assert) := by
  refine ⟨⟨?_, fun hno => ⟨fun hadm fuel => ?_, ?_⟩⟩, ?_, ?_⟩
  · rintro ⟨hcalls, hquery⟩ ⟨key, n, rfl, hk, hn⟩
    by_cases h0 : n = 0
    · subst h0
      rcases (hquery key rfl ⟨hk, Or.inr (Or.inl rfl)⟩).2 with h | h | h
      · cases h
      · exact h rfl
      · cases h
    · obtain ⟨off, hoff, hh⟩ := hn.resolve_left h0
      have hadm : (Op.remove key none (some n)).Admitted := ⟨hk, Or.inr (Or.inl fun e => h0 (Option.some.inj e))⟩
      cases (hcalls hadm 1 _ (h.remove_refused hk hoff hh)).1 h0
  · refine h.calls_admitted hadm (fun key n he off hh => ?_) fuel
    subst he
    by_contra hne
    exact hno ⟨key, n, rfl, hadm.1, Or.inr ⟨off, hne, hh⟩⟩
  · rintro key rfl ⟨hk, -⟩
    exact absurd ⟨key, 0, rfl, hk, Or.inl rfl⟩ hno
  · rintro ha ⟨c, hc, hno⟩
    exact call_refused ha hc hno
  · intro N log hlog hroom ha hc he
    have hpasses := hlog.call_passes ha hroom hc
    rw [he] at hpasses
    cases hpasses with
    | error hne => exact hne rfl

/-- A store with one key, and a remove of it without a buffer. -/
theorem stored_key : ∃ s t a, kvdbOpen device128 (fun _ => []) [] [] [] = .ok (some s) ∧
    call (fun _ => 7) s (.insert [107] [1]) = .ok (a, t) ∧
    LowerCall.kvrawLookup true 4 18 ∈ lowerCalls 1 (fun _ => 7) t (.remove [107] none (some 4)) :=
  ⟨_, _, _, rfl, rfl, by decide +kernel⟩

/-- With a buffer the remove passes. -/
theorem admission_iff_buffer : ∃ s, StoreReach (fun _ => 7) s ∧
    ∀ fuel, ∀ c ∈ lowerCalls fuel (fun _ => 7) s (.remove [107] (some [0, 0, 0, 0]) (some 4)), c.Admitted := by
  obtain ⟨s, t, a, ho, hc, -⟩ := stored_key
  have hr : StoreReach (fun _ => 7) t := .called (.opened ho) hc
  refine ⟨t, hr, ?_⟩
  refine ((admission_iff (fun _ => 7) t (.remove [107] (some [0, 0, 0, 0]) (some 4)) hr).1.mpr ?_).1 ?_
  · rintro ⟨key, n, he, -⟩
    cases he
  · exact ⟨by decide, Or.inr (Or.inr rfl)⟩

/-- A key is inserted, then removed with no buffer and a length of 4; and no store admits
    the length query of a remove. -/
theorem a_remove_is_refused_below :
    ¬ ((∀ (hash : List UInt8 → UInt64) (s : KvdbSt) (op : Op), StoreReach hash s → op.Admitted →
        ∀ fuel, ∀ c ∈ lowerCalls fuel hash s op, c.Admitted) ∧
      ∀ key, (Op.lookup key none (some 0)).Admitted → (Op.remove key none (some 0)).Admitted) ∧
    ¬ ∀ key, (Op.lookup key none (some 0)).Admitted → (Op.remove key none (some 0)).Admitted := by
  have hquery : ¬ ∀ key, (Op.lookup key none (some 0)).Admitted → (Op.remove key none (some 0)).Admitted := by
    intro hall
    rcases (hall [107] ⟨by decide, Or.inr (Or.inl rfl)⟩).2 with h | h | h
    · cases h
    · exact h rfl
    · cases h
  refine ⟨?_, hquery⟩
  rintro ⟨hall, -⟩
  obtain ⟨s, t, a, ho, hc, hmem⟩ := stored_key
  have hadm := hall (fun _ => 7) t (.remove [107] none (some 4)) (.called (.opened ho) hc)
    ⟨by decide, Or.inr (Or.inl (by decide))⟩ 1 _ hmem
  cases hadm.1 (by decide)

end Cs238p.Kvdb
