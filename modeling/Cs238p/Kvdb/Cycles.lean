/-
  Cs238p.Kvdb.Cycles — `chain_lookup` over a log of any content.

  `read_meta` checks the mark and that the record lies inside the log, not that the
  previous offset is smaller than the record's own. A header that names itself, or one that
  names a later record, keeps `chain_lookup` in its loop (`a_record_that_names_itself`).

  Proved: it returns iff no offset is visited twice, and then after `size + 1` turns; which
  is so when every previous offset is smaller (`chain_lookup_ends_iff`).
-/
import Cs238p.Kvdb.Sessions
import Cs238p.Lib.Orbit

namespace Cs238p.Kvdb

open Orbit
open Cs238p.Logfs (Stop Device Idle logfsOpen logfsAppend logfsRead logfsAppend_ok logfsRead_ok idle_open)

/-- What `read_meta` answers on a log of these bytes. -/
def metaAt (log : List UInt8) (size off : Nat) : Option Meta :=
  let m := Meta.ofBytes ((log.drop off).take 16)
  if off + 16 > size ∨ m.mark ≠ [75, 86] ∨ off + 16 + m.keyLen + m.valLen > size then none else some m

/-- Where one turn of `chain_lookup` goes on: nowhere when the offset is 0, the header is
    refused or the key is found. -/
def hop (log : List UInt8) (size : Nat) (key : List UInt8) (off : Nat) : Option Nat :=
  if off = 0 then none
  else
    (metaAt log size off).bind fun m => if (log.drop (off + 16)).take m.keyLen = key then none else some m.off

/-- A record store of `size` bytes on a log with these bytes, whatever they are, and on a
    device of `N` bytes; `fails` of its appends are to fail. -/
structure Content (N : Nat) (fails : List Bool) (log : List UInt8) (size : Nat) (k : Kvraw) : Prop where
  idle : Idle k.logfs log
  block : ¬ k.logfs.blkSz ∣ 3
  le : size ≤ log.length
  device : k.logfs.device.size = N
  appendFails : k.appendFails = fails
  size : k.size = size

variable {N : Nat} {fails : List Bool} {log : List UInt8} {size : Nat} {k : Kvraw} {key : List UInt8}
  {off len keyLen valLen : Nat} {m : Meta}

theorem Content.readLog (h : Content N fails log size k) (hl : off + len ≤ size) :
    ∃ k', readLog k off len = .ok (some ((log.drop off).take len), k') ∧ Content N fails log size k' := by
  obtain ⟨t, ht, hi, hs, hb⟩ := logfsRead_ok h.idle (Or.inl h.block) (hl.trans h.le)
  refine ⟨{ k with logfs := t }, ?_, ⟨hi, ?_, h.le, hs.trans h.device, h.appendFails, h.size⟩⟩
  · simp only [Kvdb.readLog, ht]
  · show ¬ t.blkSz ∣ 3
    rw [hb]
    exact h.block

/-- A header that is accepted lies inside the log, with its record. -/
theorem metaAt_le (h : metaAt log size off = some m) :
    off + 16 + m.keyLen + m.valLen ≤ size ∧ Meta.ofBytes ((log.drop off).take 16) = m := by
  unfold metaAt at h
  simp only at h
  split at h
  · cases h
  · rename_i hif
    cases h
    exact ⟨by omega, rfl⟩

theorem Content.readMeta (h : Content N fails log size k) (off : Nat) :
    ∃ k', readMeta k off = .ok (metaAt log size off, k') ∧ Content N fails log size k' := by
  unfold Kvdb.readMeta metaAt
  rw [h.size]
  by_cases hl : off + 16 > size
  · rw [if_pos hl, if_pos (Or.inl hl)]
    exact ⟨k, rfl, h⟩
  · obtain ⟨k', hr, hk⟩ := @Content.readLog N fails log size k off 16 h (by omega)
    refine ⟨k', ?_, hk⟩
    rw [if_neg hl, hr]
    simp only [hl, false_or, hk.size]
    split
    · rfl
    · rfl

theorem Content.lookup (h : Content N fails log size k) (keyLen : Nat) {valNull : Bool} (h0 : off ≠ 0)
    (hv : valLen ≠ 0 → valNull = false) :
    ∃ k', kvrawLookup k keyLen valNull valLen off = .ok ((metaAt log size off).map fun m =>
        ⟨(log.drop (off + 16)).take (min m.keyLen keyLen), m.keyLen,
          (log.drop (off + 16 + m.keyLen)).take (min m.valLen valLen), m.valLen, m.off⟩, k') ∧
      Content N fails log size k' := by
  have hassert : ¬ ((valLen ≠ 0 ∧ valNull = true) ∨ off = 0) := by
    rintro (⟨h1, h2⟩ | h1)
    · rw [hv h1] at h2
      cases h2
    · exact h0 h1
  obtain ⟨k₁, hk₁, hr₁⟩ := h.readMeta off
  unfold kvrawLookup
  rw [if_neg hassert, hk₁]
  cases hm : metaAt log size off with
  | none => exact ⟨k₁, rfl, hr₁⟩
  | some m =>
    have hle := (metaAt_le hm).1
    obtain ⟨k₂, hk₂, hr₂⟩ := @Content.readLog _ _ _ _ _ (off + 16) (min m.keyLen keyLen) hr₁ (by omega)
    obtain ⟨k₃, hk₃, hr₃⟩ := @Content.readLog _ _ _ _ _ (off + 16 + m.keyLen) (min m.valLen valLen) hr₂ (by omega)
    refine ⟨k₃, ?_, hr₃⟩
    simp only [hk₂, hk₃, Option.map_some]

/-- The key of a record that lies inside the log. -/
theorem Content.length_key (h : Content N fails log size k) (hm : metaAt log size off = some m) :
    ((log.drop (off + 16)).take m.keyLen).length = m.keyLen := by
  have hle := (metaAt_le hm).1
  have hsize := h.le
  rw [List.length_take, List.length_drop]
  omega

/-- `chain_lookup` returns when following the previous offsets has ended. -/
theorem Content.chainLookup : ∀ (fuel : Nat) {k : Kvraw} {val : Option (List UInt8)} {off : Nat}, Content N fails log size k →
    (valLen ≠ 0 → val.isNone = false) →
    (orbit (hop log size key) off fuel = none ∧ ∃ r, chainLookup fuel k key val valLen off = .ok r) ∨
    (orbit (hop log size key) off fuel ≠ none ∧ chainLookup fuel k key val valLen off = .error .fuel) := by
  intro fuel
  induction fuel with
  | zero => exact fun _ _ => Or.inr ⟨(fun h => by cases h), rfl⟩
  | succ fuel ih =>
    intro k val off h hv
    unfold Kvdb.chainLookup
    rw [orbit_succ']
    by_cases h0 : off = 0
    · refine Or.inl ⟨?_, ?_⟩
      · rw [hop, if_pos h0]
        rfl
      · rw [if_pos h0]
        exact ⟨_, rfl⟩
    obtain ⟨k₁, hk₁, hr₁⟩ := h.lookup (min key.length 256) h0 hv
    rw [if_neg h0, hk₁, hop, if_neg h0]
    cases hm : metaAt log size off with
    | none => exact Or.inl ⟨rfl, _, rfl⟩
    | some m =>
      have hlen := h.length_key hm
      have hv' : ∀ bs, valLen ≠ 0 → (putPrefix val bs).isNone = false := by
        intro bs
        rw [isNone_putPrefix]
        exact hv
      simp only [Option.map_some, Option.bind_some]
      generalize hkey : (log.drop (off + 16)).take m.keyLen = bs at hlen
      have htake : ∀ n, (log.drop (off + 16)).take (min m.keyLen n) = bs.take n := by
        intro n
        rw [← hkey, List.take_take, Nat.min_comm]
      simp only [htake]
      by_cases hpart : m.keyLen ≠ key.length ∨ (bs.take (min key.length 256)).take (min key.length 8) ≠
          key.take (min key.length 8)
      · -- another length, or another start
        have hne : ¬ bs = key := by
          rintro rfl
          rcases hpart with hl | hp
          · exact hl hlen.symm
          · refine hp ?_
            rw [List.take_take]
            congr 1
            omega
        rw [if_pos hpart, if_neg hne]
        exact ih hr₁ (hv' _)
      rw [if_neg hpart]
      have hl : m.keyLen = key.length := by
        by_contra hl
        exact hpart (Or.inl hl)
      by_cases hbig : m.keyLen > 8
      · obtain ⟨k₂, hk₂, hr₂⟩ := @Content.lookup _ _ _ _ _ _ 0 hr₁ m.keyLen
          (putPrefix val ((log.drop (off + 16 + m.keyLen)).take (min m.valLen valLen))).isNone h0 (absurd rfl)
        rw [if_pos hbig, hk₂, hm]
        have hwhole : (log.drop (off + 16)).take (min m.keyLen m.keyLen) = bs := by rw [Nat.min_self, hkey]
        simp only [Option.map_some, hwhole]
        rw [List.take_of_length_le (show bs.length ≤ key.length by omega)]
        by_cases he : bs = key
        · rw [if_pos he, if_pos he]
          exact Or.inl ⟨rfl, _, rfl⟩
        · rw [if_neg he, if_neg he]
          exact ih hr₂ (hv' _)
      · rw [if_neg hbig, List.take_take, List.take_of_length_le (by omega)]
        by_cases he : bs = key
        · rw [if_pos he, if_pos he]
          exact Or.inl ⟨rfl, _, rfl⟩
        · rw [if_neg he, if_neg he]
          exact ih hr₁ (hv' _)

theorem hop_ne_none (h : hop log size key off ≠ none) : off ∈ Finset.range size := by
  unfold hop at h
  split at h
  · exact absurd rfl h
  · cases hm : metaAt log size off with
    | none =>
      rw [hm] at h
      exact absurd rfl h
    | some m =>
      have hle := (metaAt_le hm).1
      rw [Finset.mem_range]
      omega

/-- For any bytes, any size of the store, any start and any key: `chain_lookup` returns iff
    no offset is visited twice, and then within `size + 1` turns; the headers may lie in
    any order, but previous offsets that are smaller are enough. -/
theorem chain_lookup_ends_iff (log : List UInt8) (k : Kvraw) (key : List UInt8) (val : Option (List UInt8))
    (valLen off : Nat) (hlog : Idle k.logfs log) (hb : ¬ k.logfs.blkSz ∣ 3) (hsize : k.size ≤ log.length)
    (hv : valLen ≠ 0 → val.isNone = false) :
    ((∃ fuel r, chainLookup fuel k key val valLen off = .ok r) ↔ Injective (hop log k.size key) off) ∧
    (Injective (hop log k.size key) off → ∃ r, chainLookup (k.size + 1) k key val valLen off = .ok r) ∧
    ((∀ off m, metaAt log k.size off = some m → m.off < off) → Injective (hop log k.size key) off) := by
  have h : Content k.logfs.device.size k.appendFails log k.size k := ⟨hlog, hb, hsize, rfl, rfl, rfl⟩
  have hends : Injective (hop log k.size key) off → ∃ r, chainLookup (k.size + 1) k key val valLen off = .ok r := by
    intro hinj
    have hend := ends_of_injective (fun _ hx => hop_ne_none hx) hinj
    rw [Finset.card_range] at hend
    rcases @Content.chainLookup _ _ _ _ key valLen (k.size + 1) _ val off h hv with ⟨-, hr⟩ | ⟨hne, -⟩
    · exact hr
    · exact absurd hend hne
  refine ⟨⟨?_, fun hinj => ⟨_, hends hinj⟩⟩, hends, ?_⟩
  · rintro ⟨fuel, r, hr⟩
    rcases @Content.chainLookup _ _ _ _ key valLen fuel _ val off h hv with ⟨hend, -⟩ | ⟨-, herr⟩
    · exact injective_of_ends hend
    · rw [hr] at herr
      cases herr
  · intro hdec
    refine injective_of_decreasing fun x y hxy => ?_
    unfold hop at hxy
    split at hxy
    · cases hxy
    · obtain ⟨m, hm, he⟩ := Option.bind_eq_some_iff.mp hxy
      split at he
      · cases he
      · cases he
        exact hdec x m hm

/-- A record of the key [5] at offset 1 that names offset 1 as the one before it. -/
def loopLog : List UInt8 := [0] ++ (Meta.mk [75, 86] 1 1 0).bytes ++ [5]

/-- A log may have these bytes. -/
theorem exists_loopLog : ∃ k : Kvraw, Idle k.logfs loopLog ∧ ¬ k.logfs.blkSz ∣ 3 ∧ k.size = loopLog.length := by
  obtain ⟨t, -, hi, -, hb⟩ := @logfsAppend_ok _ _ loopLog (idle_open device128 (fun _ => []) []) (by decide)
  refine ⟨⟨loopLog.length, t, []⟩, hi, ?_, rfl⟩
  show ¬ t.blkSz ∣ 3
  rw [hb]
  decide

/-- The key itself is found there. -/
theorem chain_lookup_ends_iff_found : ∃ k : Kvraw, Idle k.logfs loopLog ∧
    ∃ r, chainLookup 19 k [5] none 0 1 = .ok r := by
  obtain ⟨k, hi, hb, hs⟩ := exists_loopLog
  refine ⟨k, hi, ?_⟩
  obtain ⟨-, hends, -⟩ := chain_lookup_ends_iff loopLog k [5] none 0 1 hi hb hs.le (absurd rfl)
  have hsize : k.size = 18 := hs
  rw [hsize] at hends
  refine hends (injective_of_ends (n := 1) ?_)
  decide

/-- Another key is looked for in it. -/
theorem a_record_that_names_itself :
    ¬ ∀ (log : List UInt8) (k : Kvraw) (key : List UInt8) (val : Option (List UInt8)) (valLen off : Nat),
      Idle k.logfs log → ¬ k.logfs.blkSz ∣ 3 → k.size ≤ log.length → (valLen ≠ 0 → val.isNone = false) →
      ∃ fuel r, chainLookup fuel k key val valLen off = .ok r := by
  intro hall
  obtain ⟨k, hi, hb, hs⟩ := exists_loopLog
  obtain ⟨fuel, r, hr⟩ := hall loopLog k [6] none 0 1 hi hb hs.le (absurd rfl)
  have hcontent : Content k.logfs.device.size k.appendFails loopLog 18 k := ⟨hi, hb, by decide, rfl, rfl, hs⟩
  have hhop : orbit (hop loopLog 18 [6]) 1 1 = some 1 := by decide
  rcases @Content.chainLookup _ _ _ _ [6] 0 fuel _ none 1 hcontent (absurd rfl) with ⟨hend, -⟩ | ⟨-, herr⟩
  · exact orbit_ne_none_of_eq (f := hop loopLog 18 [6]) (i := 0) (j := 1) Nat.zero_lt_one rfl hhop fuel hend
  · rw [hr] at herr
    cases herr

end Cs238p.Kvdb
