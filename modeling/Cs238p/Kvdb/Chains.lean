/-
  Cs238p.Kvdb.Chains — the log, the index and the previous offsets of a reachable store.

  `kvraw_lookup` follows the previous offsets on the store's own log (`follow`); that the
  records it meets are those of the hash, and where they lie, is `Chains`.

  Proved: the records of each hash lie on one chain, newest first, which the index leads
  to, and every record on exactly one (`chains_hold_the_records`).
-/
import Mathlib.Data.List.Sort
import Cs238p.Kvdb.RawRuns
import Cs238p.Kvdb.Reachable

namespace Cs238p.Kvdb

open Cs238p.Logfs (Stop Device)

variable {hash : List UInt8 → UInt64} {N : Nat} {s : KvdbSt} {recs : List Rec} {r : Rec} {off : Nat}

/-! ## Following a chain -/

/-- The previous offsets followed down from `off` to 0, each record read whole. -/
def follow : Nat → Kvraw → Nat → Except Stop (Option (List (Nat × Found)))
  | 0, _, _ => .error .fuel
  | fuel + 1, k, off =>
    if off = 0 then .ok (some [])
    else
      match kvrawLookup k 0xffff false 0xffffffff off with
      | .error e => .error e
      | .ok (none, _) => .ok none
      | .ok (some f, k) => (follow fuel k f.off).map fun r => r.map ((off, f) :: ·)

/-- The records after the opening one, with their offsets. -/
def located (recs : List Rec) : List (Nat × Rec) := (starts recs).zip recs

/-- Those of one hash, newest first. -/
def chainAt (hash : List UInt8 → UInt64) (recs : List Rec) (h : UInt64) : List (Nat × Rec) :=
  ((located recs).filter fun p => decide (normalised hash p.2.key = h)).reverse

/-- What reading a whole record answers. -/
def Rec.whole (r : Rec) : Found := ⟨r.key, r.key.length, r.val, r.val.length, r.prev⟩

theorem Rec.found_whole (r : Rec) : r.found 0xffff 0xffffffff = r.whole := by
  unfold Rec.found Rec.whole
  rw [Nat.min_eq_left r.key_le, Nat.min_eq_left r.val_le, List.take_length, List.take_length]

/-- A record in the log that is not the opening one. -/
theorem At.mem_located (h : At (opening :: recs) off r) (h0 : off ≠ 0) : (off, r) ∈ located recs := by
  obtain ⟨l₁, l₂, heq, rfl⟩ := h
  cases l₁ with
  | nil => exact absurd rfl h0
  | cons r₀ l₁ =>
    rw [List.cons_append, List.cons.injEq] at heq
    obtain ⟨rfl, rfl⟩ := heq
    have hi : l₁.length < (l₁ ++ r :: l₂).length := by
      rw [List.length_append, List.length_cons]
      omega
    refine List.mem_of_getElem? (List.getElem?_zip_eq_some.mpr ⟨?_, ?_⟩ : (located (l₁ ++ r :: l₂))[l₁.length]? = _)
    · rw [starts, List.getElem?_map, List.getElem?_range hi, Option.map_some, List.take_left' rfl]
    · rw [List.getElem?_append_right (Nat.le_refl _), Nat.sub_self]
      rfl

theorem map_snd_chainAt (h : UInt64) : (chainAt hash recs h).map Prod.snd = chainOf hash recs h := by
  unfold chainAt chainOf
  have hsnd : (located recs).map Prod.snd = recs := List.map_snd_zip (length_starts recs).ge
  rw [List.map_reverse, ← hsnd, List.filter_map, hsnd]
  rfl

theorem chainAt_decreasing (h : UInt64) : (chainAt hash recs h).Pairwise fun p q => q.1 < p.1 := by
  obtain ⟨-, hpair⟩ := (laid_starts recs).increasing
  rw [List.pairwise_map] at hpair
  exact List.pairwise_reverse.mpr ((List.pairwise_cons.mp hpair).2.filter _)

/-- Following a chain reads its records, each further down. -/
theorem follow_ok : ∀ (fuel : Nat) {k : Kvraw} {off : Nat} {rs : List Rec}, Chain (opening :: recs) off rs →
    off < fuel →
    RawRepr N k (opening :: recs) →
    ∃ ps : List (Nat × Rec), follow fuel k off = .ok (some (ps.map fun p => (p.1, p.2.whole))) ∧ ps.map Prod.snd = rs ∧
      (∀ p ∈ ps, p ∈ located recs ∧ p.1 ≤ off) ∧ ps.Pairwise fun p q => q.1 < p.1 := by
  intro fuel
  induction fuel with
  | zero => exact fun _ hf => absurd hf (Nat.not_lt_zero _)
  | succ fuel ih =>
    intro k off rs hc hf hk
    cases hc with
    | nil => exact ⟨[], rfl, rfl, fun p hp => absurd hp List.not_mem_nil, .nil⟩
    | @cons _ r rs hat h0 hlt hc =>
      obtain ⟨k₁, hk₁, hr₁⟩ := kvrawLookup_ok 0xffff hk hat h0
        (show (0xffffffff : Nat) ≠ 0 → false = false from fun _ => rfl)
      rw [r.found_whole] at hk₁
      obtain ⟨ps, hps, hsnd, hmem, hdec⟩ := ih hc (by omega) hr₁
      refine ⟨(off, r) :: ps, ?_, ?_, ?_, ?_⟩
      · unfold follow
        rw [if_neg h0, hk₁]
        simp only [Rec.whole] at hps ⊢
        rw [hps]
        rfl
      · rw [List.map_cons, hsnd]
      · refine List.forall_mem_cons.mpr ⟨⟨hat.mem_located h0, Nat.le_refl _⟩, fun p hp => ⟨(hmem p hp).1, ?_⟩⟩
        have := (hmem p hp).2
        omega
      · refine List.pairwise_cons.mpr ⟨?_, hdec⟩
        intro p hp
        have := (hmem p hp).2
        show p.1 < off
        omega

theorem mem_chainAt {p : Nat × Rec} {h : UInt64} :
    p ∈ chainAt hash recs h ↔ p ∈ located recs ∧ normalised hash p.2.key = h := by
  unfold chainAt
  rw [List.mem_reverse, List.mem_filter, decide_eq_true_iff]

/-- Descending records of a hash, as many as there are, are all of them. -/
theorem eq_chainAt {ps : List (Nat × Rec)} {h : UInt64} (hmem : ∀ p ∈ ps, p ∈ located recs)
    (hsnd : ps.map Prod.snd = chainOf hash recs h) (hdec : ps.Pairwise fun p q => q.1 < p.1) :
    ps = chainAt hash recs h := by
  have hsub : ps ⊆ chainAt hash recs h := by
    intro p hp
    have hp2 : p.2 ∈ chainOf hash recs h := hsnd ▸ List.mem_map_of_mem hp
    have hkey := (List.mem_filter.mp (List.mem_reverse.mp hp2)).2
    exact mem_chainAt.mpr ⟨hmem p hp, of_decide_eq_true hkey⟩
  have hnodup : ps.Nodup := hdec.imp fun hlt he => by rw [he] at hlt; exact absurd hlt (Nat.lt_irrefl _)
  have hlen : (chainAt hash recs h).length = ps.length := by
    rw [← List.length_map Prod.snd, map_snd_chainAt, ← hsnd, List.length_map]
  have hperm := (hnodup.subperm hsub).perm_of_length_le hlen.le
  exact hperm.eq_of_pairwise (fun p q _ _ h1 h2 => absurd h1 (by omega)) hdec (chainAt_decreasing h)

/-- The log, the index and the previous offsets together. -/
structure Chains (hash : List UInt8 → UInt64) (N : Nat) (s : KvdbSt) (recs : List Rec) : Prop where
  log : RawRepr N s.kvraw (opening :: recs)
  /-- From where the index says, the previous offsets lead through the records of the hash,
      newest first, and end at 0. -/
  follow : ∀ h off, Holds s.index h off →
    follow (s.kvraw.size + 1) s.kvraw off = .ok (some ((chainAt hash recs h).map fun p => (p.1, p.2.whole)))
  decreasing : ∀ h, (chainAt hash recs h).Pairwise fun p q => q.1 < p.1
  oneEntry : ∀ h off off', Holds s.index h off → Holds s.index h off' → off = off'
  hasEntry : ∀ h, chainAt hash recs h ≠ [] → ∃ off, Holds s.index h off
  noRecord : ∀ h off, chainAt hash recs h = [] → Holds s.index h off → off = 0
  oneChain : ∀ p ∈ located recs, ∃! h, p ∈ chainAt hash recs h

theorem chainOf_eq_nil {h : UInt64} (he : chainAt hash recs h = []) : chainOf hash recs h = [] := by
  rw [← map_snd_chainAt, he]
  rfl

theorem Inv.chains (hi : Inv hash N s recs) : Chains hash N s recs where
  log := hi.raw
  follow := by
    intro h off hh
    have hc := hi.chain h off hh
    have hlt := hc.lt (image_pos recs)
    obtain ⟨ps, hps, hsnd, hmem, hdec⟩ := follow_ok (s.kvraw.size + 1) hc (by have := hi.raw.size; omega) hi.raw
    rw [hps, eq_chainAt (fun p hp => (hmem p hp).1) hsnd hdec]
  decreasing := chainAt_decreasing
  oneEntry := fun _ _ _ => hi.index.holds_unique
  hasEntry := by
    intro h hne
    by_contra hno
    have he := hi.absent h fun off ho => hno ⟨off, ho⟩
    rw [← map_snd_chainAt, List.map_eq_nil_iff] at he
    exact hne he
  noRecord := by
    intro h off he hh
    have hc := hi.chain h off hh
    rw [chainOf_eq_nil he] at hc
    cases hc with
    | nil => rfl
  oneChain := by
    intro p hp
    refine ⟨normalised hash p.2.key, mem_chainAt.mpr ⟨hp, rfl⟩, ?_⟩
    intro h hh
    exact (mem_chainAt.mp hh).2.symm

/-- In every state that calls can reach, the index and the previous offsets keep the
    records of each hash on one chain. -/
theorem chains_hold_the_records (hash : List UInt8 → UInt64) (d : Device) (junk : Nat → List UInt8) (sched : List Nat)
    (ops : List Op) (as : List Answer) (s : KvdbSt) (hf : Fits d.size 18 (fun _ => none) ops)
    (h : reach hash d junk sched ops = .ok (some (as, s))) :
    ∃ recs, Chains hash d.size s recs ∧ recs.map Rec.content = appended (fun _ => none) ops := by
  obtain ⟨recs, hr, -, -, hcontent⟩ := reach_reached hf h
  exact ⟨recs, hr.inv.chains, hcontent⟩

/-- Both records of the key lie on the chain of its hash. -/
theorem chains_hold_the_records_twice : ∃ s recs, reach (fun _ => 7) device128 (fun _ => []) [] twice =
    .ok (some ([⟨.done, none, []⟩, ⟨.done, none, []⟩], s)) ∧ Chains (fun _ => 7) 128 s recs ∧
    recs.map Rec.content = [([107], [1]), ([107], [2])] := by
  obtain ⟨s, hs⟩ := reach_twice
  obtain ⟨recs, hc, hcontent⟩ := chains_hold_the_records (fun _ => 7) device128 (fun _ => []) [] twice _ s fits_twice hs
  exact ⟨s, recs, hs, hc, hcontent⟩

end Cs238p.Kvdb
