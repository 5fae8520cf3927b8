/-
  Cs238p.Kvdb.StoreProofs — what a call of kvdb does.

  `Inv` says what a reachable store holds: its log is the opening record and then `recs`;
  for every hash the index has the offset of the newest of the records of that hash, and
  from there the offsets of the previous records lead through all of them, newest first,
  down to 0 (`Chain`). The map (`bindings`) binds a key to the value of its newest record,
  unless that value is empty. Keys of one hash share a chain, so `chain_lookup` has to
  tell them apart (`chainLookup_ok`).

  Proved: a call that passes the assertions on its way answers what the map answers, and
  appends the record, and counts, as the map says (`call_took`).
-/
import Cs238p.Kvdb.Store

namespace Cs238p.Kvdb

open Cs238p.Logfs (Stop Device Idle idle_open logfsOpen)

/-! ## Chains -/

/-- From `off` the previous offsets lead through `rs`, downwards, to 0. -/
inductive Chain (recs : List Rec) : Nat → List Rec → Prop
  | nil : Chain recs 0 []
  | cons {off : Nat} {r : Rec} {rs : List Rec} : At recs off r → off ≠ 0 → r.prev < off → Chain recs r.prev rs →
      Chain recs off (r :: rs)

variable {recs rs : List Rec} {r : Rec} {k : Kvraw} {key : List UInt8} {off N : Nat}

theorem Chain.append (h : Chain recs off rs) (l : List Rec) : Chain (recs ++ l) off rs := by
  induction h with
  | nil => exact .nil
  | cons hat h0 hlt _ ih => exact .cons (hat.append l) h0 hlt ih

theorem Chain.zero (h : Chain recs 0 rs) : rs = [] := by
  cases h with
  | nil => rfl
  | cons _ h0 => exact absurd rfl h0

/-- A chain starts inside the log. -/
theorem Chain.lt (h : Chain recs off rs) (h0 : 0 < (image recs).length) : off < (image recs).length := by
  cases h with
  | nil => exact h0
  | cons hat _ _ _ => have := hat.le; omega

@[simp] theorem isNone_putPrefix (val : Option (List UInt8)) (bs : List UInt8) :
    (putPrefix val bs).isNone = val.isNone := by
  cases val <;> rfl

/-- The bytes of a value that fit a buffer of `n` bytes, in the buffer. -/
theorem take_putPrefix {val : Option (List UInt8)} {v : List UInt8} {n : Nat} (h : n ≠ 0 → val.isNone = false) :
    ((putPrefix val (v.take (min v.length n))).getD []).take (min v.length n) = v.take (min v.length n) := by
  cases val with
  | none =>
    have h0 : n = 0 := by
      by_contra hn
      cases h hn
    simp [h0]
  | some buf =>
    show List.take _ (_ ++ _) = _
    have hlen : (v.take (min v.length n)).length = min v.length n := by rw [List.length_take]; omega
    exact List.take_left' hlen

/-- What `chain_lookup` answers for the record found, if any. -/
def Chained.Answers (c : Chained) (valLen : Nat) : Option Rec → Prop
  | none => c.off = 0 ∧ c.valLen = valLen
  | some r => c.off ≠ 0 ∧ c.valLen = r.val.length ∧
      (c.val.getD []).take (min r.val.length valLen) = r.val.take (min r.val.length valLen)

/-- The two comparisons of `chain_lookup` on what was read of a record with another key. -/
theorem partial_match (h : r.key = key) :
    ¬ (r.key.length ≠ key.length ∨ (r.key.take (min r.key.length (min key.length 256))).take (min key.length 8) ≠
      key.take (min key.length 8)) := by
  subst h
  intro hh
  rcases hh with h | h
  · exact h rfl
  · rw [List.take_take] at h
    exact h (by congr 1; omega)

/-- `chain_lookup` finds the newest record of the key on the chain. It looks at the buffer
    only when there is a record. -/
theorem chainLookup_ok : ∀ (fuel : Nat) {k : Kvraw} {val : Option (List UInt8)} {valLen off : Nat} {rs : List Rec},
    Chain recs off rs → off < fuel → RawRepr N k recs → (rs ≠ [] → valLen ≠ 0 → val.isNone = false) →
    ∃ c k', chainLookup fuel k key val valLen off = .ok (some c, k') ∧ RawRepr N k' recs ∧
      c.Answers valLen (rs.find? fun r => decide (r.key = key)) := by
  intro fuel
  induction fuel with
  | zero => intro k val valLen off rs _ hf; exact absurd hf (Nat.not_lt_zero _)
  | succ fuel ih =>
    intro k val valLen off rs hc hf hk hv
    cases hc with
    | nil => exact ⟨⟨val, valLen, 0⟩, k, rfl, hk, rfl, rfl⟩
    | @cons _ r rs hat h0 hlt hc =>
      have hv := hv (List.cons_ne_nil _ _)
      obtain ⟨k₁, hk₁, hr₁⟩ := kvrawLookup_ok (min key.length 256) hk hat h0 hv
      have hv' : rs ≠ [] → valLen ≠ 0 → (putPrefix val (r.val.take (min r.val.length valLen))).isNone = false := by
        rw [isNone_putPrefix]; exact fun _ => hv
      unfold chainLookup
      rw [if_neg h0, hk₁]
      unfold Rec.found
      simp only
      by_cases hpart : r.key.length ≠ key.length ∨
          (r.key.take (min r.key.length (min key.length 256))).take (min key.length 8) ≠ key.take (min key.length 8)
      · rw [if_pos hpart, List.find?_cons_of_neg (by simpa using fun he => partial_match he hpart)]
        exact ih hc (by omega) hr₁ hv'
      rw [if_neg hpart]
      have hlen : r.key.length = key.length := by
        by_contra hne
        exact hpart (Or.inl hne)
      -- on both ways the whole key is compared in the end
      by_cases hbig : r.key.length > 8
      · obtain ⟨k₂, hk₂, hr₂⟩ := kvrawLookup_ok r.key.length hr₁ hat h0
          (show (0 : Nat) ≠ 0 → (putPrefix val (r.val.take (min r.val.length valLen))).isNone = false from
            fun h => absurd rfl h)
        rw [if_pos hbig, hk₂]
        unfold Rec.found
        simp only [Nat.min_self, List.take_length, ← hlen]
        by_cases he : r.key = key
        · rw [if_pos he, List.find?_cons_of_pos (by simpa using he)]
          exact ⟨_, k₂, rfl, hr₂, h0, rfl, take_putPrefix hv⟩
        · rw [if_neg he, List.find?_cons_of_neg (by simpa using he)]
          exact ih hc (by omega) hr₂ hv'
      · rw [if_neg hbig, List.take_take, List.take_of_length_le (show r.key.length ≤ _ by omega)]
        by_cases he : r.key = key
        · rw [if_pos he, List.find?_cons_of_pos (by simpa using he)]
          exact ⟨_, k₁, rfl, hr₁, h0, rfl, take_putPrefix hv⟩
        · rw [if_neg he, List.find?_cons_of_neg (by simpa using he)]
          exact ih hc (by omega) hr₁ hv'

/-! ## The map of a log -/

abbrev Map := List UInt8 → Option (List UInt8)

/-- The newest record of a key. -/
def latest (recs : List Rec) (key : List UInt8) : Option Rec := recs.reverse.find? fun r => decide (r.key = key)

/-- What a value that is empty stands for. -/
def binding (val : List UInt8) : Option (List UInt8) := if val = [] then none else some val

def bindings (recs : List Rec) : Map := fun key => (latest recs key).bind fun r => binding r.val

/-- The records of one hash, newest first. -/
def chainOf (hash : List UInt8 → UInt64) (recs : List Rec) (h : UInt64) : List Rec :=
  (recs.filter fun r => decide (normalised hash r.key = h)).reverse

variable {hash : List UInt8 → UInt64} {s : KvdbSt} {val : List UInt8} {ref : Nat}

theorem find_chainOf : (chainOf hash recs (normalised hash key)).find? (fun r => decide (r.key = key)) =
    latest recs key := by
  unfold chainOf latest
  rw [← List.filter_reverse, List.find?_filter]
  congr 1
  funext r
  by_cases h : r.key = key
  · simp [h]
  · simp [h]

theorem bindings_append (recs : List Rec) (r : Rec) :
    bindings (recs ++ [r]) = Function.update (bindings recs) r.key (binding r.val) := by
  funext key
  unfold bindings latest
  rw [List.reverse_append, List.reverse_singleton, List.singleton_append]
  by_cases h : key = r.key
  · subst h; simp
  · rw [Function.update_of_ne h, List.find?_cons_of_neg (by simpa using fun e : r.key = key => h e.symm)]

theorem chainOf_append (recs : List Rec) (r : Rec) (h : UInt64) :
    chainOf hash (recs ++ [r]) h = if normalised hash r.key =
      h then r :: chainOf hash recs h else chainOf hash recs h := by
  unfold chainOf
  rw [List.filter_append, List.reverse_append]
  by_cases e : normalised hash r.key = h
  · simp [e]
  · simp [e]

/-- The key is bound exactly when `chain_lookup` answers an offset and a length. -/
theorem Chained.Answers.cases {c : Chained} {n : Nat} (h : c.Answers n (latest recs key)) :
    (bindings recs key = none ∧ ¬ (c.off ≠ 0 ∧ c.valLen ≠ 0)) ∨
      ∃ v, bindings recs key = some v ∧ (c.off ≠ 0 ∧ c.valLen ≠ 0) ∧ c.valLen = v.length ∧
        (c.val.getD []).take (min v.length n) = v.take (min v.length n) := by
  unfold bindings
  cases hl : latest recs key with
  | none =>
    rw [hl] at h
    exact Or.inl ⟨rfl, fun hf => hf.1 h.1⟩
  | some r =>
    rw [hl] at h
    obtain ⟨h0, hlen, hval⟩ := h
    by_cases he : r.val = []
    · refine Or.inl ⟨by simp [binding, he], fun hf => hf.2 ?_⟩
      rw [hlen, he]; rfl
    · refine Or.inr ⟨r.val, by simp [binding, he], ⟨h0, ?_⟩, hlen, hval⟩
      rw [hlen]
      exact fun h => he (List.length_eq_zero_iff.mp h)

/-! ## The invariant -/

structure Inv (hash : List UInt8 → UInt64) (N : Nat) (s : KvdbSt) (recs : List Rec) : Prop where
  raw : RawRepr N s.kvraw (opening :: recs)
  index : s.index.Ok
  chain : ∀ h off, Holds s.index h off → Chain (opening :: recs) off (chainOf hash recs h)
  absent : ∀ h, (∀ off, ¬ Holds s.index h off) → chainOf hash recs h = []

theorem image_pos (recs : List Rec) : 0 < (image (opening :: recs)).length := by
  rw [image_cons, List.length_append, Rec.length_bytes]; omega

theorem Inv.withRaw (h : Inv hash N s recs) (hk : RawRepr N k (opening :: recs)) :
    Inv hash N { s with kvraw := k } recs :=
  ⟨hk, h.index, h.chain, h.absent⟩

theorem Inv.withIndex {index : Index} (h : Inv hash N s recs) (hb : key.length ≠ 0)
    (hu : indexUpdate hash s.index key = .ok (ref, index)) :
    Inv hash N { s with index } recs ∧ index.keyAt ref = some (normalised hash key) := by
  obtain ⟨hok, href, hholds⟩ := indexUpdate_ok h.index hb hu
  refine ⟨⟨h.raw, hok, ?_, fun g hg => h.absent g fun off ho => hg off
    ((hholds g off).mpr (Or.inl ho))⟩, href⟩
  intro g off hg
  rcases (hholds g off).mp hg with ho | ⟨rfl, rfl, hno⟩
  · exact h.chain g off ho
  · rw [h.absent _ hno]
    exact .nil

/-- A new record becomes the head of its chain. -/
theorem appendRef_ok (val : List UInt8) (h : Inv hash N s recs) (href : s.index.keyAt ref = some (normalised hash key))
    (hk : KeyOk key) (hv : val.length ≤ 0xffffffff)
    (hfit : (image (opening :: recs)).length + (16 + key.length + val.length) ≤ N) :
    ∃ kvraw index r, appendRef s ref key val = .ok (true, { s with kvraw, index }) ∧ r.key = key ∧ r.val = val ∧
      Inv hash N { s with kvraw, index } (recs ++ [r]) := by
  have hold : Holds s.index (normalised hash key) (s.index.maps ref).off := ⟨ref, href, rfl⟩
  have hchain := h.chain _ _ hold
  have hlt := hchain.lt (image_pos recs)
  have hsize := h.raw.device ▸ s.kvraw.logfs.device.size_lt
  let r : Rec := ⟨(s.index.maps ref).off, key, val, by omega, Nat.pos_of_ne_zero hk.1, hk.2, hv⟩
  obtain ⟨k', hk', hr'⟩ := kvrawAppend_ok h.raw r (by rw [Rec.length_bytes]; exact hfit)
  refine ⟨k', setOff s.index ref (image (opening :: recs)).length, r, ?_, rfl, rfl,
    ⟨hr', h.index.setOff _ _, ?_, ?_⟩⟩
  · unfold appendRef
    rw [show kvrawAppend s.kvraw key val (s.index.maps ref).off = _ from hk']
  · intro g off hg
    rw [chainOf_append]
    rcases (h.index.holds_setOff href).mp hg with ⟨rfl, rfl⟩ | ⟨hne, hg⟩
    · rw [if_pos rfl]
      exact .cons (at_last (opening :: recs) r) (image_pos recs).ne' hlt (hchain.append [r])
    · rw [if_neg fun e => hne e.symm]
      exact (h.chain g off hg).append [r]
  · intro g hg
    rw [chainOf_append]
    by_cases e : normalised hash r.key = g
    · subst e
      exact absurd ((h.index.holds_setOff href).mpr (Or.inl ⟨rfl, rfl⟩)) (hg _)
    · rw [if_neg e]
      exact h.absent g fun off ho => hg off ((h.index.holds_setOff href).mpr (Or.inr ⟨fun e' => e e'.symm, ho⟩))

/-! ## Calls -/

inductive Op where
  | insert (key val : List UInt8)
  | update (key val : List UInt8)
  | replace (key val : List UInt8)
  | remove (key : List UInt8) (val : Option (List UInt8)) (valLen : Option Nat)
  | lookup (key : List UInt8) (val : Option (List UInt8)) (valLen : Option Nat)

/-- What a caller gets: the return value and, with 0 and a buffer of `*val_len` bytes, the
    length reported and the bytes of the value in the buffer. -/
structure Answer where
  ret : Ret
  len : Option Nat
  bytes : List UInt8
  deriving DecidableEq, Repr

def Out.answer (o : Out) (n : Nat) : Answer :=
  match o.ret with
  | .done => ⟨.done, o.valLen, (o.val.getD []).take (min (o.valLen.getD 0) n)⟩
  | ret => ⟨ret, none, []⟩

def call (hash : List UInt8 → UInt64) (s : KvdbSt) (op : Op) : Except Stop (Answer × KvdbSt) :=
  match op with
  | .insert key val => (kvdbInsert hash s key val).map fun (o, s) => (⟨o.ret, none, []⟩, s)
  | .update key val => (kvdbUpdate hash s key val).map fun (o, s) => (⟨o.ret, none, []⟩, s)
  | .replace key val => (kvdbReplace hash s key val).map fun (o, s) => (⟨o.ret, none, []⟩, s)
  | .remove key val valLen => (kvdbRemove hash s key val valLen).map fun (o, s) => (o.answer (valLen.getD 0), s)
  | .lookup key val valLen => (kvdbLookup hash s key val valLen).map fun (o, s) => (o.answer (valLen.getD 0), s)

/-- A buffer of `*val_len` bytes, unless that is 0. -/
def BufOk (val : Option (List UInt8)) (valLen : Option Nat) : Prop :=
  ∀ n, valLen = some n → n ≠ 0 → ∃ buf, val = some buf ∧ n ≤ buf.length

/-- Keys of 1..0xffff bytes and values of 1..0xffffffff bytes. -/
def Op.Valid : Op → Prop
  | .insert key val => KeyOk key ∧ ValOk val
  | .update key val => KeyOk key ∧ ValOk val
  | .replace key val => KeyOk key ∧ ValOk val
  | .remove key val valLen => KeyOk key ∧ BufOk val valLen
  | .lookup key val valLen => KeyOk key ∧ BufOk val valLen

/-- A remove that asks for the length alone: no buffer, and a length of 0. -/
def Op.LengthQuery (op : Op) : Prop := ∃ key, op = .remove key none (some 0)

/-! ## The map's answers -/

/-- The value of a bound key, as a lookup or a remove reports it. -/
def reported (n : Option Nat) : Option (List UInt8) → Answer
  | none => ⟨.invalid, none, []⟩
  | some v => ⟨.done, n.map fun _ => v.length, v.take (min v.length (n.getD 0))⟩

def expected (m : Map) : Op → Answer
  | .insert key _ => ⟨if (m key).isSome then .invalid else .done, none, []⟩
  | .update _ _ => ⟨.done, none, []⟩
  | .replace key _ => ⟨if (m key).isSome then .done else .invalid, none, []⟩
  | .remove key _ n => reported n (m key)
  | .lookup key _ n => reported n (m key)

def rebind (m : Map) : Op → Map
  | .insert key val => if (m key).isSome then m else Function.update m key (some val)
  | .update key val => Function.update m key (some val)
  | .replace key val => if (m key).isSome then Function.update m key (some val) else m
  | .remove key _ _ => if (m key).isSome then Function.update m key none else m
  | .lookup _ _ _ => m

/-- How many bytes the call adds to the log. -/
def written (m : Map) : Op → Nat
  | .insert key val => if (m key).isSome then 0 else 16 + key.length + val.length
  | .update key val => 16 + key.length + val.length
  | .replace key val => if (m key).isSome then 16 + key.length + val.length else 0
  | .remove key _ _ => if (m key).isSome then 16 + key.length else 0
  | .lookup _ _ _ => 0

/-- The key and the value of the record a call appends, if it appends one. -/
def record (m : Map) : Op → Option (List UInt8 × List UInt8)
  | .insert key val => if (m key).isSome then none else some (key, val)
  | .update key val => some (key, val)
  | .replace key val => if (m key).isSome then some (key, val) else none
  | .remove key _ _ => if (m key).isSome then some (key, []) else none
  | .lookup _ _ _ => none

/-- `size` and `waste` after a record of a key that was bound or not. -/
def counted (bound : Bool) (val : List UInt8) (size waste : UInt64) : UInt64 × UInt64 :=
  if bound = false then (size + 1, waste) else if val = [] then (size - 1, waste + 1) else (size, waste + 1)

/-- The store after a call that appended `rec`, if any. -/
def Took (hash : List UInt8 → UInt64) (N : Nat) (s s' : KvdbSt) (recs : List Rec) :
    Option (List UInt8 × List UInt8) → Prop
  | none => Inv hash N s' recs ∧ (s'.size, s'.waste) = (s.size, s.waste)
  | some (key, val) => ∃ r : Rec, r.key = key ∧ r.val = val ∧ Inv hash N s' (recs ++ [r]) ∧
      (s'.size, s'.waste) = counted (bindings recs key).isSome val s.size s.waste

/-- The store after a call: its map is `m`, its log `used` bytes long. -/
def After (hash : List UInt8 → UInt64) (N : Nat) (s : KvdbSt) (m : Map) (used : Nat) : Prop :=
  ∃ recs, Inv hash N s recs ∧ bindings recs = m ∧ (image (opening :: recs)).length = used

/-- The counters are no part of what the store represents. -/
theorem Inv.withCounters (h : Inv hash N s recs) (size waste : UInt64) :
    Inv hash N { s with size := size, waste := waste } recs :=
  ⟨h.raw, h.index, h.chain, h.absent⟩

theorem length_image_append (recs : List Rec) (r : Rec) :
    (image (opening :: (recs ++ [r]))).length =
      (image (opening :: recs)).length + (16 + r.key.length + r.val.length) := by
  rw [← List.cons_append, image_append, List.length_append, show image [r] = r.bytes by simp [image], Rec.length_bytes]

theorem binding_of_ok (hv : ValOk val) : binding val = some val := if_neg fun h => hv.1 (by rw [h]; rfl)

/-- What an `Op` stores is no empty value. -/
def Op.Stores : Op → Prop
  | .insert _ val => ValOk val
  | .update _ val => ValOk val
  | .replace _ val => ValOk val
  | _ => True

/-- The map after a call is the map of the log. -/
theorem rebind_eq (m : Map) {op : Op} (hv : op.Stores) :
    rebind m op = (record m op).elim m fun c => Function.update m c.1 (binding c.2) := by
  cases op with
  | insert key val =>
    rw [rebind, record]
    split
    · rfl
    · rw [Option.elim_some, binding_of_ok hv]
  | update key val => rw [rebind, record, Option.elim_some, binding_of_ok hv]
  | replace key val =>
    rw [rebind, record]
    split
    · rw [Option.elim_some, binding_of_ok hv]
    · rfl
  | remove key _ _ =>
    rw [rebind, record]
    split
    · rfl
    · rfl
  | lookup _ _ _ => rfl

theorem written_eq (m : Map) (op : Op) : written m op = (record m op).elim 0 fun c => 16 + c.1.length + c.2.length := by
  cases op with
  | insert key val => rw [written, record]; split <;> rfl
  | update key val => rfl
  | replace key val => rw [written, record]; split <;> rfl
  | remove key _ _ => rw [written, record]; split <;> rfl
  | lookup _ _ _ => rfl

/-- The record appended makes the map and the log what the call should make them. -/
theorem Took.after {s' : KvdbSt} {op : Op} (h : Took hash N s s' recs (record (bindings recs) op)) (hv : op.Stores) :
    After hash N s' (rebind (bindings recs) op) ((image (opening :: recs)).length + written (bindings recs) op) := by
  rw [rebind_eq _ hv, written_eq]
  cases hc : record (bindings recs) op with
  | none =>
    rw [hc] at h
    exact ⟨recs, h.1, rfl, rfl⟩
  | some c =>
    rw [hc] at h
    obtain ⟨r, hk, hval, hi, -⟩ := h
    refine ⟨recs ++ [r], hi, ?_, ?_⟩
    · rw [bindings_append, hk, hval]
      rfl
    · rw [length_image_append, hk, hval]
      rfl

/-- Up to the decision `mutate` changes nothing the store represents, and it knows the
    newest record of the key. -/
theorem mutate_eq {mode : Mode} {buf : Option (List UInt8)} {valLen : Option Nat} (h : Inv hash N s recs)
    (hk : KeyOk key) (hv : chainOf hash recs (normalised hash key) ≠ [] → valLen.getD 0 ≠ 0 → buf.isNone = false)
    (hexit : mutate hash s key buf valLen mode ≠ .error .exitIndex) :
    ∃ ref c kvraw index,
      mutate hash s key buf valLen mode = mutateAt { s with kvraw, index } ref key buf valLen mode c ∧
      Inv hash N { s with kvraw, index } recs ∧ index.keyAt ref = some (normalised hash key) ∧
      c.Answers (if mode = .remove then valLen.getD 0 else 0) (latest recs key) := by
  cases hu : indexUpdate hash s.index key with
  | error e =>
    have := indexUpdate_error hk.1 hu
    subst this
    exact absurd (by simp only [mutate, hu]) hexit
  | ok res =>
    obtain ⟨ref, index⟩ := res
    obtain ⟨hi, href⟩ := h.withIndex hk.1 hu
    have hchain := hi.chain _ _ ⟨ref, href, rfl⟩
    have hlt := hchain.lt (image_pos recs)
    have hbuf : chainOf hash recs (normalised hash key) ≠ [] → (if mode = .remove then valLen.getD 0 else 0) ≠ 0 →
        (if mode = .remove ∧ valLen.isSome = true then buf else none).isNone = false := by
      intro hchain hne
      split at hne
      · rename_i hm
        have hsome : valLen.isSome = true := by
          cases valLen with
          | none => exact absurd rfl hne
          | some n => rfl
        rw [if_pos ⟨hm, hsome⟩]
        exact hv hchain hne
      · exact absurd rfl hne
    obtain ⟨c, k', hc, hr, ha⟩ := chainLookup_ok (s.kvraw.size + 1) hchain (by have := h.raw.size; omega) h.raw hbuf
    rw [find_chainOf] at ha
    refine ⟨ref, c, k', index, ?_, hi.withRaw hr, href, ha⟩
    simp only [mutate, hu, hc]

/-- The storing calls: each appends its record when the mode asks for the key to be as it
    is, bound or not. -/
theorem store_ok {mode : Mode} (h : Inv hash N s recs) (hk : KeyOk key) (hv : ValOk val)
    (hexit : kvdbStore mode hash s key val ≠ .error .exitIndex) :
    ∃ ref c kvraw index,
      kvdbStore mode hash s key val = mutateAt { s with kvraw, index } ref key (some val) (some val.length) mode c ∧
      Inv hash N { s with kvraw, index } recs ∧ index.keyAt ref = some (normalised hash key) ∧
      ((bindings recs key).isSome = true ↔ c.off ≠ 0 ∧ c.valLen ≠ 0) := by
  have hif : KeyOk key ∧ ValOk val := ⟨hk, hv⟩
  unfold kvdbStore at hexit ⊢
  rw [if_pos hif] at hexit ⊢
  obtain ⟨ref, c, kvraw, index, heq, hi, href, hc⟩ := mutate_eq h hk (fun _ _ => rfl) hexit
  refine ⟨ref, c, kvraw, index, heq, hi, href, ?_⟩
  rcases hc.cases with ⟨hb, hnf⟩ | ⟨v, hb, hf, -⟩
  · rw [hb]; exact ⟨fun h => absurd h (by decide), fun h => absurd h hnf⟩
  · rw [hb]; exact ⟨fun _ => hf, fun _ => rfl⟩

theorem insert_ok (h : Inv hash N s recs) (hk : KeyOk key) (hv : ValOk val)
    (hfit : (image (opening :: recs)).length + written (bindings recs) (.insert key val) ≤ N)
    (hexit : kvdbInsert hash s key val ≠ .error .exitIndex) :
    ∃ o s', kvdbInsert hash s key val = .ok (o, s') ∧ o.ret = (if (bindings recs key).isSome then .invalid else .done) ∧
      Took hash N s s' recs (record (bindings recs) (.insert key val)) := by
  obtain ⟨ref, c, kvraw, index, heq, hi, href, hfound⟩ := store_ok h hk hv hexit
  unfold kvdbInsert
  rw [heq]
  unfold mutateAt
  simp only [Option.getD_some, List.take_length, record, written] at hfit ⊢
  by_cases hb : (bindings recs key).isSome = true
  · rw [if_pos (hfound.mp hb), if_pos hb, if_pos hb]
    exact ⟨_, _, rfl, rfl, hi, rfl⟩
  · rw [if_neg hb] at hfit
    obtain ⟨i, k', r, ha, hrk, hrv, hi'⟩ := appendRef_ok val hi href hk hv.2 hfit
    rw [if_neg fun hf => hb (hfound.mpr hf), if_neg hb, if_neg hb, ha]
    refine ⟨_, _, rfl, rfl, r, hrk, hrv, hi'.withCounters _ _, ?_⟩
    simp only [counted, Bool.not_eq_true] at hb ⊢
    rw [if_pos hb]

theorem update_ok (h : Inv hash N s recs) (hk : KeyOk key) (hv : ValOk val)
    (hfit : (image (opening :: recs)).length + written (bindings recs) (.update key val) ≤ N)
    (hexit : kvdbUpdate hash s key val ≠ .error .exitIndex) :
    ∃ o s', kvdbUpdate hash s key val = .ok (o, s') ∧ o.ret = .done ∧
      Took hash N s s' recs (record (bindings recs) (.update key val)) := by
  obtain ⟨ref, c, kvraw, index, heq, hi, href, hfound⟩ := store_ok h hk hv hexit
  have hne : val ≠ [] := fun e => hv.1 (by rw [e]; rfl)
  unfold kvdbUpdate
  rw [heq]
  unfold mutateAt
  simp only [Option.getD_some, List.take_length, record, written] at hfit ⊢
  -- the counter goes up before the record is appended
  by_cases hb : (bindings recs key).isSome = true
  · obtain ⟨i, k', r, ha, hrk, hrv, hi'⟩ := appendRef_ok val (hi.withCounters s.size (s.waste + 1)) href hk hv.2 hfit
    rw [if_neg fun hf => hf (hfound.mp hb), ha]
    refine ⟨_, _, rfl, rfl, r, hrk, hrv, hi', ?_⟩
    rw [hb, counted, if_neg (by decide), if_neg hne]
  · obtain ⟨i, k', r, ha, hrk, hrv, hi'⟩ := appendRef_ok val (hi.withCounters (s.size + 1) s.waste) href hk hv.2 hfit
    rw [if_pos fun hf => hb (hfound.mpr hf), ha]
    refine ⟨_, _, rfl, rfl, r, hrk, hrv, hi', ?_⟩
    simp only [counted, Bool.not_eq_true] at hb ⊢
    rw [if_pos hb]

theorem replace_ok (h : Inv hash N s recs) (hk : KeyOk key) (hv : ValOk val)
    (hfit : (image (opening :: recs)).length + written (bindings recs) (.replace key val) ≤ N)
    (hexit : kvdbReplace hash s key val ≠ .error .exitIndex) :
    ∃ o s', kvdbReplace hash s key val = .ok (o, s') ∧ o.ret = (if (bindings recs key).isSome then .done else .invalid)
      ∧
      Took hash N s s' recs (record (bindings recs) (.replace key val)) := by
  obtain ⟨ref, c, kvraw, index, heq, hi, href, hfound⟩ := store_ok h hk hv hexit
  have hne : val ≠ [] := fun e => hv.1 (by rw [e]; rfl)
  unfold kvdbReplace
  rw [heq]
  unfold mutateAt
  simp only [Option.getD_some, List.take_length, record, written] at hfit ⊢
  by_cases hb : (bindings recs key).isSome = true
  · rw [if_pos hb] at hfit
    obtain ⟨i, k', r, ha, hrk, hrv, hi'⟩ := appendRef_ok val hi href hk hv.2 hfit
    rw [if_neg fun hf => hf (hfound.mp hb), if_pos hb, if_pos hb, ha]
    refine ⟨_, _, rfl, rfl, r, hrk, hrv, hi'.withCounters _ _, ?_⟩
    rw [hb, counted, if_neg (by decide), if_neg hne]
  · rw [if_pos fun hf => hb (hfound.mpr hf), if_neg hb, if_neg hb]
    exact ⟨_, _, rfl, rfl, hi, rfl⟩

/-- What a call that found the value `v` reports. -/
theorem answer_done {c : Chained} {v : List UInt8} {valLen : Option Nat} (buf : Option (List UInt8))
    (hlen : c.valLen = v.length)
    (hval : (c.val.getD []).take (min v.length (valLen.getD 0)) = v.take (min v.length (valLen.getD 0))) :
    (Out.mk .done (if valLen.isSome = true then c.val else buf) (valLen.map fun _ => c.valLen)).answer (valLen.getD 0) =
      reported valLen (some v) := by
  cases valLen with
  | none => simp [Out.answer, reported]
  | some n => simpa [Out.answer, reported, hlen] using hval

theorem BufOk.isNone {buf : Option (List UInt8)} {valLen : Option Nat} (h : BufOk buf valLen) (h0 : valLen.getD 0 ≠ 0) :
    buf.isNone = false := by
  cases valLen with
  | none => exact absurd rfl h0
  | some n =>
    obtain ⟨_, rfl, -⟩ := h n rfl h0
    rfl

theorem remove_ok {buf : Option (List UInt8)} {valLen : Option Nat} (h : Inv hash N s recs) (hk : KeyOk key)
    (hbuf : chainOf hash recs (normalised hash key) ≠ [] → valLen.getD 0 ≠ 0 → buf.isNone = false)
    (hq : ¬ (buf = none ∧ valLen = some 0))
    (hfit : (image (opening :: recs)).length + written (bindings recs) (.remove key buf valLen) ≤ N)
    (hexit : kvdbRemove hash s key buf valLen ≠ .error .exitIndex) :
    ∃ o s', kvdbRemove hash s key buf valLen = .ok (o, s') ∧
      o.answer (valLen.getD 0) = reported valLen (bindings recs key) ∧
      Took hash N s s' recs (record (bindings recs) (.remove key buf valLen)) := by
  have hassert : KeyOk key ∧ (valLen = none ∨ valLen ≠ some 0 ∨ buf.isSome = true) := by
    refine ⟨hk, ?_⟩
    by_cases h0 : valLen = some 0
    · cases buf with
      | none => exact absurd ⟨rfl, h0⟩ hq
      | some _ => exact Or.inr (Or.inr rfl)
    · exact Or.inr (Or.inl h0)
  unfold kvdbRemove at hexit ⊢
  rw [if_pos hassert] at hexit ⊢
  obtain ⟨ref, c, kvraw, index, heq, hi, href, hc⟩ := mutate_eq h hk hbuf hexit
  rw [if_pos rfl] at hc
  rw [heq]
  unfold mutateAt
  simp only [record, written] at hfit ⊢
  rcases hc.cases with ⟨hb, hnf⟩ | ⟨v, hb, hf, hlen, hval⟩
  · rw [if_pos hnf, hb]
    exact ⟨_, _, rfl, rfl, hi, rfl⟩
  · simp only [hb, Option.isSome_some, if_true] at hfit ⊢
    obtain ⟨kvraw', index', r, ha, hrk, hrv, hi'⟩ := appendRef_ok [] hi href hk (Nat.zero_le _) hfit
    rw [if_neg (not_not_intro hf), ha]
    refine ⟨_, _, rfl, answer_done buf hlen hval, r, hrk, hrv, hi'.withCounters _ _, ?_⟩
    rw [hb]
    rfl

theorem lookup_ok {buf : Option (List UInt8)} {valLen : Option Nat} (h : Inv hash N s recs) (hk : KeyOk key)
    (hbuf : valLen.getD 0 ≠ 0 → buf.isNone = false) :
    ∃ o s', kvdbLookup hash s key buf valLen = .ok (o, s') ∧
      o.answer (valLen.getD 0) = reported valLen (bindings recs key) ∧
      Inv hash N s' recs ∧ (s'.size, s'.waste) = (s.size, s.waste) := by
  have hassert : KeyOk key ∧ (valLen = none ∨ valLen = some 0 ∨ buf.isSome = true) := by
    refine ⟨hk, ?_⟩
    cases valLen with
    | none => exact Or.inl rfl
    | some n =>
      by_cases h0 : n = 0
      · exact Or.inr (Or.inl (by rw [h0]))
      · refine Or.inr (Or.inr ?_)
        cases buf with
        | none => cases hbuf h0
        | some _ => rfl
  -- a chain that is empty has no record of the key
  have hnone : chainOf hash recs (normalised hash key) = [] → bindings recs key = none := by
    intro he
    have hl : (chainOf hash recs (normalised hash key)).find? (fun r => decide (r.key = key)) =
      latest recs key := find_chainOf
    rw [he] at hl
    rw [bindings, ← hl]
    rfl
  unfold kvdbLookup
  rw [if_pos hassert]
  rcases indexLookup_ok h.index hk.1 with ⟨ref, hl, href⟩ | ⟨hl, hno⟩
  · have hchain := h.chain _ _ ⟨ref, href, rfl⟩
    rw [hl]
    simp only
    by_cases h0 : (s.index.maps ref).off = 0
    · have he : chainOf hash recs (normalised hash key) = [] := by
        rw [h0] at hchain
        exact hchain.zero
      rw [if_pos h0, hnone he]
      exact ⟨_, s, rfl, rfl, h, rfl⟩
    · have hv : valLen.getD 0 ≠ 0 → (if valLen.isSome = true then buf else none).isNone = false := by
        intro hne
        have hsome : valLen.isSome = true := by
          cases valLen with
          | none => exact absurd rfl hne
          | some n => rfl
        rw [if_pos hsome]
        exact hbuf hne
      have hlt := hchain.lt (image_pos recs)
      obtain ⟨c, k', hc, hr, ha⟩ := chainLookup_ok (s.kvraw.size + 1) hchain (by have := h.raw.size; omega)
        h.raw fun _ => hv
      rw [find_chainOf] at ha
      rw [if_neg h0, hc]
      simp only
      rcases ha.cases with ⟨hb, hnf⟩ | ⟨v, hb, hf, hlen, hval⟩
      · rw [if_pos (by by_contra hn; exact hnf ⟨fun e => hn (Or.inl e), fun e => hn (Or.inr e)⟩), hb]
        exact ⟨_, _, rfl, rfl, h.withRaw hr, rfl⟩
      · rw [if_neg (by rintro (e | e); exacts [hf.1 e, hf.2 e]), hb]
        exact ⟨_, _, rfl, answer_done buf hlen hval, h.withRaw hr, rfl⟩
  · rw [hl, hnone (h.absent _ hno)]
    exact ⟨_, s, rfl, rfl, h, rfl⟩

/-- What a call needs to pass the assertions on its way. -/
def Op.Passes (hash : List UInt8 → UInt64) (recs : List Rec) : Op → Prop
  | .insert key val => KeyOk key ∧ ValOk val
  | .update key val => KeyOk key ∧ ValOk val
  | .replace key val => KeyOk key ∧ ValOk val
  | .remove key buf valLen => KeyOk key ∧ ¬ (buf = none ∧ valLen = some 0) ∧
      (chainOf hash recs (normalised hash key) ≠ [] → valLen.getD 0 ≠ 0 → buf.isNone = false)
  | .lookup key buf valLen => KeyOk key ∧ (valLen.getD 0 ≠ 0 → buf.isNone = false)

theorem Op.Passes.stores {op : Op} (h : op.Passes hash recs) : op.Stores := by
  cases op with
  | insert key val => exact h.2
  | update key val => exact h.2
  | replace key val => exact h.2
  | remove key buf valLen => trivial
  | lookup key buf valLen => trivial

/-- A call that passes its assertions answers what the map answers, and appends its record. -/
theorem call_took (h : Inv hash N s recs) {op : Op} (hp : op.Passes hash recs)
    (hfit : (image (opening :: recs)).length + written (bindings recs) op ≤ N)
    (hexit : call hash s op ≠ .error .exitIndex) :
    ∃ s', call hash s op = .ok (expected (bindings recs) op, s') ∧
      Took hash N s s' recs (record (bindings recs) op) := by
  cases op with
  | insert key val =>
    obtain ⟨o, s', he, hret, ht⟩ := insert_ok h hp.1 hp.2 hfit fun e => hexit (by simp only [call, e]; rfl)
    refine ⟨s', ?_, ht⟩
    simp only [call, he, Except.map, hret, expected]
  | update key val =>
    obtain ⟨o, s', he, hret, ht⟩ := update_ok h hp.1 hp.2 hfit fun e => hexit (by simp only [call, e]; rfl)
    refine ⟨s', ?_, ht⟩
    simp only [call, he, Except.map, hret, expected]
  | replace key val =>
    obtain ⟨o, s', he, hret, ht⟩ := replace_ok h hp.1 hp.2 hfit fun e => hexit (by simp only [call, e]; rfl)
    refine ⟨s', ?_, ht⟩
    simp only [call, he, Except.map, hret, expected]
  | remove key buf valLen =>
    obtain ⟨o, s', he, hans, ht⟩ := remove_ok h hp.1 hp.2.2 hp.2.1 hfit fun e => hexit (by simp only [call, e]; rfl)
    refine ⟨s', ?_, ht⟩
    simp only [call, he, Except.map, hans, expected]
  | lookup key buf valLen =>
    obtain ⟨o, s', he, hans, ht⟩ := lookup_ok h hp.1 hp.2
    refine ⟨s', ?_, ht⟩
    simp only [call, he, Except.map, hans, expected]

theorem Op.Valid.passes {op : Op} (hv : op.Valid) (hq : ¬ op.LengthQuery) : op.Passes hash recs := by
  cases op with
  | insert key val => exact hv
  | update key val => exact hv
  | replace key val => exact hv
  | remove key buf valLen =>
    refine ⟨hv.1, ?_, fun _ => hv.2.isNone⟩
    intro h
    obtain ⟨rfl, rfl⟩ := h
    exact hq ⟨key, rfl⟩
  | lookup key buf valLen => exact ⟨hv.1, hv.2.isNone⟩

/-- Any call but a length query of remove answers what the map answers. -/
theorem call_ok (h : Inv hash N s recs) {op : Op} (hv : op.Valid) (hq : ¬ op.LengthQuery)
    (hfit : (image (opening :: recs)).length + written (bindings recs) op ≤ N)
    (hexit : call hash s op ≠ .error .exitIndex) :
    ∃ s', call hash s op = .ok (expected (bindings recs) op, s') ∧
      After hash N s' (rebind (bindings recs) op) ((image (opening :: recs)).length + written (bindings recs) op) := by
  have hp : op.Passes hash recs := hv.passes hq
  obtain ⟨s', hc, ht⟩ := call_took h hp hfit hexit
  exact ⟨s', hc, ht.after hp.stores⟩

/-- A length query of remove fails the assertion. -/
theorem call_lengthQuery {op : Op} (hq : op.LengthQuery) : call hash s op = .error .assert := by
  obtain ⟨key, rfl⟩ := hq
  have hassert : ¬ (KeyOk key ∧ ((some 0 : Option Nat) = none ∨ (some 0 : Option Nat) ≠ some 0 ∨
      (none : Option (List UInt8)).isSome = true)) := by
    intro hh
    rcases hh with ⟨-, h | h | h⟩
    · cases h
    · exact h rfl
    · cases h
  simp only [call, kvdbRemove, if_neg hassert]
  rfl

/-! ## The end of `mutate` -/

/-- The end of `mutate` in each mode: append, then count. -/
def finish (s : KvdbSt) (ref : Nat) (key v : List UInt8) (failed done : Out) (f g : UInt64 → UInt64) :
    Except Stop (Out × KvdbSt) :=
  match appendRef s ref key v with
  | .error e => .error e
  | .ok (false, s) => .ok (failed, s)
  | .ok (true, s) => .ok (done, { s with size := f s.size, waste := g s.waste })

/-- What `mutate` does once `chain_lookup` has answered `c`: nothing, or count (update
    does it first), append and count. -/
theorem mutateAt_eq (key : List UInt8) (buf : Option (List UInt8)) (len : Option Nat) (mode : Mode) (c : Chained) :
    (∃ o, o.ret = .invalid ∧ ∀ s ref, mutateAt s ref key buf len mode c = .ok (o, s)) ∨
    ∃ (v : List UInt8) (failed done : Out) (f g f' g' : UInt64 → UInt64), failed.ret = .fail ∧ done.ret ≠ .fail ∧
      (mode ≠ .update → f = id ∧ g = id) ∧ (mode = .update → (f = (· + 1) ∧ g = id) ∨ (f = id ∧ g = (· + 1))) ∧
      ∀ s ref, mutateAt s ref key buf len mode c =
        finish { s with size := f s.size, waste := g s.waste } ref key v failed done f' g' := by
  let v := (buf.getD []).take (len.getD 0)
  let out : Option (List UInt8) := if len.isSome then c.val else buf
  by_cases hfound : c.off ≠ 0 ∧ c.valLen ≠ 0
  · cases mode with
    | remove =>
      refine Or.inr ⟨[], ⟨.fail, out, len⟩, ⟨.done, out, len.map fun _ => c.valLen⟩, id, id, (· - 1), (· + 1), rfl, (fun h => by cases h),
        fun _ => ⟨rfl, rfl⟩, (fun h => by cases h), fun s ref => ?_⟩
      simp only [mutateAt, if_neg (not_not_intro hfound)]
      rfl
    | insert =>
      refine Or.inl ⟨⟨.invalid, buf, len⟩, rfl, fun s ref => ?_⟩
      simp only [mutateAt, if_pos hfound]
    | update =>
      refine Or.inr ⟨v, ⟨.fail, buf, len⟩, ⟨.done, buf, len⟩, id, (· + 1), id, id, rfl, (fun h => by cases h), fun hne => absurd rfl hne,
        fun _ => Or.inr ⟨rfl, rfl⟩, fun s ref => ?_⟩
      simp only [mutateAt, if_neg (not_not_intro hfound)]
      rfl
    | replace =>
      refine Or.inr ⟨v, ⟨.fail, buf, len⟩, ⟨.done, buf, len⟩, id, id, id, (· + 1), rfl, (fun h => by cases h), fun _ => ⟨rfl, rfl⟩, (fun h => by cases h),
        fun s ref => ?_⟩
      simp only [mutateAt, if_neg (not_not_intro hfound)]
      rfl
  · cases mode with
    | remove =>
      refine Or.inl ⟨⟨.invalid, out, len⟩, rfl, fun s ref => ?_⟩
      simp only [mutateAt, if_pos hfound]
      rfl
    | insert =>
      refine Or.inr ⟨v, ⟨.fail, buf, len⟩, ⟨.done, buf, len⟩, id, id, (· + 1), id, rfl, (fun h => by cases h), fun _ => ⟨rfl, rfl⟩, (fun h => by cases h),
        fun s ref => ?_⟩
      simp only [mutateAt, if_neg hfound]
      rfl
    | update =>
      refine Or.inr ⟨v, ⟨.fail, buf, len⟩, ⟨.done, buf, len⟩, (· + 1), id, id, id, rfl, (fun h => by cases h), fun hne => absurd rfl hne,
        fun _ => Or.inl ⟨rfl, rfl⟩, fun s ref => ?_⟩
      simp only [mutateAt, if_pos hfound]
      rfl
    | replace =>
      refine Or.inl ⟨⟨.invalid, buf, len⟩, rfl, fun s ref => ?_⟩
      simp only [mutateAt, if_pos hfound]

end Cs238p.Kvdb
