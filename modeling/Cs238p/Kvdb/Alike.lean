/-
  Cs238p.Kvdb.Alike — stores that answer alike.

  What a store answers depends on the bytes of its log, on its sizes and on the offset its
  index has for each hash. The caches of the log, the writer's schedule and where the index
  keeps its entries, those with offset 0 included, do not show (`Alike`).

  Appends may fail, at any of the three of a record; what they leave behind is read back
  like any other bytes (`Content`).

  Proved: on stores that are alike a call answers the same and leaves stores that are alike,
  unless the index of one gives up (`call_alike`).
-/
import Cs238p.Kvdb.Cycles
import Cs238p.Kvdb.Reachable
import Cs238p.Logfs.FullDevice

namespace Cs238p.Kvdb

open Cs238p.Logfs (Stop Device Idle Handing logfsOpen logfsAppend logfsAppend_ok idle_open)

variable {N size : Nat} {fails fails' : List Bool} {log : List UInt8} {k k' k₁ : Kvraw} {key val : List UInt8}
  {off valLen : Nat} {b : Bool}

/-! ## The log -/

/-- `chain_lookup` answers by the bytes of the log. -/
theorem Content.chainLookup_agree : ∀ (fuel : Nat) {k k' : Kvraw} {val : Option (List UInt8)} {off : Nat},
    Content N fails log size k → Content N fails' log size k' →
    Agree (fun k k' => Content N fails log size k ∧ Content N fails' log size k')
      (Kvdb.chainLookup fuel k key val valLen off) (Kvdb.chainLookup fuel k' key val valLen off) := by
  intro fuel
  induction fuel with
  | zero => exact fun _ _ => .error
  | succ fuel ih =>
    intro k k' val off h h'
    by_cases h0 : off = 0
    · rw [Kvdb.chainLookup, Kvdb.chainLookup, if_pos h0, if_pos h0]
      exact .ok ⟨h, h'⟩
    by_cases hv : valLen ≠ 0 → val.isNone = false
    · obtain ⟨k₁, hk₁, hr₁⟩ := h.lookup (min key.length 256) h0 hv
      obtain ⟨k₁', hk₁', hr₁'⟩ := h'.lookup (min key.length 256) h0 hv
      rw [Kvdb.chainLookup, Kvdb.chainLookup, if_neg h0, if_neg h0, hk₁, hk₁']
      cases hm : metaAt log size off with
      | none => exact .ok ⟨hr₁, hr₁'⟩
      | some m =>
        simp only [Option.map_some]
        split
        · exact ih hr₁ hr₁'
        split
        · obtain ⟨k₂, hk₂, hr₂⟩ := @Content.lookup _ _ _ _ _ _ 0 hr₁ m.keyLen
            (putPrefix val ((log.drop (off + 16 + m.keyLen)).take (min m.valLen valLen))).isNone h0 (absurd rfl)
          obtain ⟨k₂', hk₂', hr₂'⟩ := @Content.lookup _ _ _ _ _ _ 0 hr₁' m.keyLen
            (putPrefix val ((log.drop (off + 16 + m.keyLen)).take (min m.valLen valLen))).isNone h0 (absurd rfl)
          rw [hk₂, hk₂', hm]
          simp only [Option.map_some]
          split
          · exact .ok ⟨hr₂, hr₂'⟩
          · exact ih hr₂ hr₂'
        split
        · exact .ok ⟨hr₁, hr₁'⟩
        · exact ih hr₁ hr₁'
    · have hassert : (valLen ≠ 0 ∧ val.isNone = true) ∨ off = 0 := by
        refine Or.inl ⟨fun h => hv fun hne => absurd h hne, ?_⟩
        cases val with
        | none => rfl
        | some _ => exact absurd (fun _ => rfl) hv
      rw [Kvdb.chainLookup, Kvdb.chainLookup, if_neg h0, if_neg h0, kvrawLookup, kvrawLookup, if_pos hassert,
        if_pos hassert]
      exact .error

/-- Appends in a row, up to the first that fails. -/
def appendAll : List (List UInt8) → Kvraw → Except Stop (Bool × Kvraw)
  | [], k => .ok (true, k)
  | bs :: rest, k =>
    match appendLog k bs with
    | .error e => .error e
    | .ok (false, k) => .ok (false, k)
    | .ok (true, k) => appendAll rest k

/-- What they store, whether they all succeed, and the failures left for later. -/
def storedBy : List Bool → List (List UInt8) → List UInt8 × Bool × List Bool
  | fails, [] => ([], true, fails)
  | fails, bs :: rest =>
    if fails.headD false then ([], false, fails.tail)
    else (bs ++ (storedBy fails.tail rest).1, (storedBy fails.tail rest).2)

/-- The header, the key and the value of a record. -/
def parts (key val : List UInt8) (prev : Nat) : List (List UInt8) :=
  [(Meta.mk [75, 86] prev key.length val.length).bytes, key, val]

theorem kvrawAppend_parts {prev : Nat} : kvrawAppend k key val prev =
    if key.length = 0 ∨ 0xffff < key.length ∨ 0xffffffff < val.length then .error .assert
    else
      match appendAll (parts key val prev) k with
      | .error e => .error e
      | .ok (false, k) => .ok (none, k)
      | .ok (true, k) => .ok (some k.size, { k with size := k.size + (16 + key.length + val.length) }) := by
  unfold kvrawAppend parts
  split
  · rfl
  · simp only [appendAll]
    rcases appendLog k _ with e | ⟨b₁, k₁⟩
    · rfl
    cases b₁ with
    | false => rfl
    | true =>
      simp only
      rcases appendLog k₁ key with e | ⟨b₂, k₂⟩
      · rfl
      cases b₂ with
      | false => rfl
      | true =>
        simp only
        rcases appendLog k₂ val with e | ⟨b₃, k₃⟩
        · rfl
        cases b₃ with
        | false => rfl
        | true => rfl

theorem Content.appendAll : ∀ (parts : List (List UInt8)) {k : Kvraw} {fails : List Bool} {log : List UInt8},
    Content N fails log size k → log.length + (storedBy fails parts).1.length ≤ N →
    ∃ k', Kvdb.appendAll parts k = .ok ((storedBy fails parts).2.1, k') ∧
      Content N (storedBy fails parts).2.2 (log ++ (storedBy fails parts).1) size k' := by
  intro parts
  induction parts with
  | nil =>
    intro k fails log h _
    refine ⟨k, rfl, ?_⟩
    simpa [storedBy] using h
  | cons bs rest ih =>
    intro k fails log h hfit
    by_cases hf : fails.headD false = true
    · have hstored : storedBy fails (bs :: rest) = ([], false, fails.tail) := if_pos hf
      rw [hstored]
      refine ⟨{ k with appendFails := fails.tail }, ?_, ?_⟩
      · simp only [Kvdb.appendAll, appendLog, h.appendFails, hf, if_true]
      · rw [List.append_nil]
        exact ⟨h.idle, h.block, h.le, h.device, rfl, h.size⟩
    · have hstored : storedBy fails (bs :: rest) = (bs ++ (storedBy fails.tail rest).1, (storedBy fails.tail rest).2) :=
        if_neg hf
      rw [hstored] at hfit ⊢
      rw [List.length_append] at hfit
      obtain ⟨t, ht, hi, hs, hb⟩ := @logfsAppend_ok _ _ bs h.idle ((Nat.mul_div_le _ _).trans (by rw [h.device]; omega))
      have hcontent : Content N fails.tail (log ++ bs) size { k with logfs := t, appendFails := fails.tail } := by
        refine ⟨hi, ?_, ?_, hs.trans h.device, rfl, h.size⟩
        · show ¬ t.blkSz ∣ 3
          rw [hb]
          exact h.block
        · rw [List.length_append]
          have := h.le
          omega
      obtain ⟨k', hk', hc⟩ := ih hcontent (by rw [List.length_append]; omega)
      refine ⟨k', ?_, ?_⟩
      · simp only [Kvdb.appendAll, appendLog, h.appendFails, hf, ht]
        exact hk'
      · rw [← List.append_assoc]
        exact hc

/-- Appends that return leave the offset of the log where they should. -/
theorem appendAll_off : ∀ (parts : List (List UInt8)) {k k' : Kvraw} {n : Nat}, Handing k.logfs n →
    appendAll parts k = .ok (b, k') →
    k'.logfs.off = n + (storedBy k.appendFails parts).1.length ∧ k'.logfs.device.size = k.logfs.device.size := by
  intro parts
  induction parts with
  | nil =>
    intro k k' n h ha
    cases ha
    exact ⟨h.off, rfl⟩
  | cons bs rest ih =>
    intro k k' n h ha
    by_cases hf : k.appendFails.headD false = true
    · have hstored : storedBy k.appendFails (bs :: rest) = ([], false, k.appendFails.tail) := if_pos hf
      simp only [appendAll, appendLog, hf, if_true] at ha
      cases ha
      rw [hstored]
      exact ⟨h.off, rfl⟩
    · have hstored : storedBy k.appendFails (bs :: rest) =
          (bs ++ (storedBy k.appendFails.tail rest).1, (storedBy k.appendFails.tail rest).2) := if_neg hf
      simp only [appendAll, appendLog, hf] at ha
      cases ht : logfsAppend k.logfs bs with
      | error e =>
        rw [ht] at ha
        cases ha
      | ok t =>
        rw [ht] at ha
        obtain ⟨hh, hs, -⟩ := h.append ht
        obtain ⟨hoff, hs'⟩ := ih (k := { k with logfs := t, appendFails := k.appendFails.tail }) hh ha
        rw [hstored, List.length_append, ← Nat.add_assoc]
        exact ⟨hoff, hs'.trans hs⟩

theorem length_storedBy : ∀ (parts : List (List UInt8)) {fails : List Bool}, (storedBy fails parts).2.1 = true →
    (storedBy fails parts).1 = parts.flatten := by
  intro parts
  induction parts with
  | nil => exact fun _ => rfl
  | cons bs rest ih =>
    intro fails h
    unfold storedBy at h ⊢
    split at h
    · cases h
    · rename_i hf
      rw [if_neg hf, List.flatten_cons, ih h]

theorem length_storedBy_le : ∀ (parts : List (List UInt8)) {fails : List Bool},
    (storedBy fails parts).1.length ≤ parts.flatten.length := by
  intro parts
  induction parts with
  | nil => exact Nat.le_refl _
  | cons bs rest ih =>
    intro fails
    unfold storedBy
    split
    · exact Nat.zero_le _
    · simp only [List.flatten_cons, List.length_append]
      exact Nat.add_le_add_left ih _

theorem length_parts (key val : List UInt8) (prev : Nat) : (parts key val prev).flatten.length = 16 + key.length + val.length := by
  simp [parts, Meta.bytes]
  omega

/-- What `kvraw_append` answers and leaves: with a failure nothing is counted, whatever has
    been stored. -/
theorem Content.kvrawAppend {prev : Nat} (h : Content N fails log size k)
    (hv : ¬ (key.length = 0 ∨ 0xffff < key.length ∨ 0xffffffff < val.length))
    (hfit : log.length + (storedBy fails (parts key val prev)).1.length ≤ N) :
    ∃ k', Kvdb.kvrawAppend k key val prev =
        .ok (if (storedBy fails (parts key val prev)).2.1 then some size else none, k') ∧
      Content N (storedBy fails (parts key val prev)).2.2 (log ++ (storedBy fails (parts key val prev)).1)
        (if (storedBy fails (parts key val prev)).2.1 then size + (16 + key.length + val.length) else size) k' := by
  obtain ⟨k₁, hk₁, hc⟩ := Content.appendAll (parts key val prev) h hfit
  rw [kvrawAppend_parts, if_neg hv, hk₁]
  cases hall : (storedBy fails (parts key val prev)).2.1 with
  | false => exact ⟨k₁, rfl, hc⟩
  | true =>
    refine ⟨{ k₁ with size := k₁.size + (16 + key.length + val.length) }, ?_, ?_⟩
    · simp only [hc.size, if_true]
    · refine ⟨hc.idle, hc.block, ?_, hc.device, hc.appendFails, by rw [hc.size]; rfl⟩
      rw [List.length_append, length_storedBy _ hall]
      have hlen := length_parts key val prev
      have := h.le
      simp only [if_true]
      omega

/-- Where `kvraw_append` returned inside the device, what it stored fits. -/
theorem Content.append_fits {prev : Nat} {r : Option Nat} (h : Content N fails log size k)
    (hk : Kvdb.kvrawAppend k key val prev = .ok (r, k₁)) (hin : k₁.logfs.off ≤ k₁.logfs.device.size) :
    ¬ (key.length = 0 ∨ 0xffff < key.length ∨ 0xffffffff < val.length) ∧
      log.length + (storedBy fails (parts key val prev)).1.length ≤ N := by
  rw [kvrawAppend_parts] at hk
  split at hk
  · cases hk
  · rename_i hv
    refine ⟨hv, ?_⟩
    rcases hall : Kvdb.appendAll (parts key val prev) k with e | ⟨b, k₂⟩
    · rw [hall] at hk
      cases hk
    · obtain ⟨hoff, hs⟩ := appendAll_off _ h.idle.handing hall
      rw [hall] at hk
      rw [h.appendFails] at hoff
      rw [← hoff, ← h.device, ← hs]
      cases b with
      | false =>
        cases hk
        exact hin
      | true =>
        cases hk
        exact hin

/-! ## The index -/

/-- Where the chain of a hash starts, 0 if it has no record. -/
def Leads (index : Index) (h : UInt64) (off : Nat) : Prop := Holds index h off ∨ off = 0 ∧ ∀ o, ¬ Holds index h o

variable {hash : List UInt8 → UInt64} {i j t : Index} {h : UInt64} {o ref : Nat}

theorem Index.Ok.leads_unique (hi : i.Ok) (h1 : Leads i h off) (h2 : Leads i h o) : off = o := by
  rcases h1 with h1 | ⟨rfl, hno⟩
  · rcases h2 with h2 | ⟨rfl, hno⟩
    · exact hi.holds_unique h1 h2
    · exact absurd h1 (hno off)
  · rcases h2 with h2 | ⟨rfl, -⟩
    · exact absurd h2 (hno o)
    · rfl

/-- An entry with offset 0 more does not show. -/
theorem indexUpdate_leads (hi : i.Ok) (hb : key.length ≠ 0) (hu : indexUpdate hash i key = .ok (ref, t)) :
    Leads t h off ↔ Leads i h off := by
  obtain ⟨-, -, hholds⟩ := indexUpdate_ok hi hb hu
  constructor
  · rintro (hh | ⟨rfl, hno⟩)
    · rcases (hholds h off).mp hh with hh | ⟨rfl, rfl, hno⟩
      · exact Or.inl hh
      · exact Or.inr ⟨rfl, hno⟩
    · exact Or.inr ⟨rfl, fun o ho => hno o ((hholds h o).mpr (Or.inl ho))⟩
  · rintro (hh | ⟨rfl, hno⟩)
    · exact Or.inl ((hholds h off).mpr (Or.inl hh))
    · by_cases hkey : h = normalised hash key
      · subst hkey
        exact Or.inl ((hholds _ _).mpr (Or.inr ⟨rfl, rfl, hno⟩))
      · refine Or.inr ⟨rfl, fun o ho => ?_⟩
        rcases (hholds h o).mp ho with ho | ⟨rfl, -⟩
        · exact hno o ho
        · exact hkey rfl

theorem setOff_leads {g : UInt64} (hi : i.Ok) (hj : i.keyAt ref = some g) :
    Leads (setOff i ref o) h off ↔ (h = g ∧ off = o) ∨ (h ≠ g ∧ Leads i h off) := by
  unfold Leads
  simp only [hi.holds_setOff hj]
  by_cases hg : h = g
  · constructor
    · rintro ((⟨-, rfl⟩ | ⟨hne, -⟩) | ⟨-, hno⟩)
      · exact Or.inl ⟨hg, rfl⟩
      · exact absurd hg hne
      · exact absurd (Or.inl ⟨hg, rfl⟩) (hno o)
    · rintro (h | ⟨hne, -⟩)
      · exact Or.inl (Or.inl h)
      · exact absurd hg hne
  · constructor
    · rintro ((⟨he, -⟩ | ⟨-, hh⟩) | ⟨rfl, hno⟩)
      · exact absurd he hg
      · exact Or.inr ⟨hg, Or.inl hh⟩
      · exact Or.inr ⟨hg, Or.inr ⟨rfl, fun o' ho => hno o' (Or.inr ⟨hg, ho⟩)⟩⟩
    · rintro (⟨he, -⟩ | ⟨-, hh | ⟨rfl, hno⟩⟩)
      · exact absurd he hg
      · exact Or.inl (Or.inr ⟨hg, hh⟩)
      · refine Or.inr ⟨rfl, fun o' ho => ?_⟩
        rcases ho with ⟨he, -⟩ | ⟨-, ho⟩
        · exact hg he
        · exact hno o' ho

/-- The indexes lead to the same offsets. -/
structure SameIndex (i j : Index) : Prop where
  left : i.Ok
  right : j.Ok
  leads : ∀ h off, Leads i h off ↔ Leads j h off

theorem SameIndex.refl (hi : i.Ok) : SameIndex i i := ⟨hi, hi, fun _ _ => Iff.rfl⟩

theorem SameIndex.symm (hs : SameIndex i j) : SameIndex j i := ⟨hs.right, hs.left, fun h off => (hs.leads h off).symm⟩

theorem SameIndex.off_eq {m n : Nat} (hs : SameIndex i j) (hm : i.keyAt m = some h) (hn : j.keyAt n = some h) :
    (i.maps m).off = (j.maps n).off :=
  hs.right.leads_unique ((hs.leads h _).mp (Or.inl ⟨m, hm, rfl⟩)) (Or.inl ⟨n, hn, rfl⟩)

theorem SameIndex.update (hs : SameIndex i j) (hb : key.length ≠ 0) (hu : indexUpdate hash i key = .ok (ref, t)) :
    (∃ n u, indexUpdate hash j key = .ok (n, u) ∧ SameIndex t u ∧ t.keyAt ref = some (normalised hash key) ∧
      u.keyAt n = some (normalised hash key)) ∨ indexUpdate hash j key = .error .exitIndex := by
  obtain ⟨ht, href, -⟩ := indexUpdate_ok hs.left hb hu
  cases hj : indexUpdate hash j key with
  | error e => exact Or.inr (by rw [indexUpdate_error hb hj])
  | ok r =>
    obtain ⟨n, u⟩ := r
    obtain ⟨hou, hn, -⟩ := indexUpdate_ok hs.right hb hj
    refine Or.inl ⟨n, u, rfl, ⟨ht, hou, fun h off => ?_⟩, href, hn⟩
    rw [indexUpdate_leads hs.left hb hu, indexUpdate_leads hs.right hb hj]
    exact hs.leads h off

/-- `index_update` does the same on both, giving up included. -/
def Peers (i j : Index) : Prop := ∀ (hash : List UInt8 → UInt64) (key : List UInt8), indexUpdate hash i key = indexUpdate hash j key

theorem SameIndex.setOff {m n : Nat} (hs : SameIndex i j) (hm : i.keyAt m = some h) (hn : j.keyAt n = some h) (o : Nat) :
    SameIndex (setOff i m o) (Kvdb.setOff j n o) := by
  refine ⟨hs.left.setOff _ _, hs.right.setOff _ _, fun g off => ?_⟩
  rw [setOff_leads hs.left hm, setOff_leads hs.right hn, hs.leads]

/-! ## Stores -/

/-- They differ in nothing but which of their appends will fail and what does not show. -/
structure Alike (s t : KvdbSt) : Prop where
  content : ∃ N log size, Content N s.kvraw.appendFails log size s.kvraw ∧ Content N t.kvraw.appendFails log size t.kvraw
  index : SameIndex s.index t.index
  size : s.size = t.size
  waste : s.waste = t.waste

/-- The log has not grown past the device. -/
def KvdbSt.InDevice (s : KvdbSt) : Prop := s.kvraw.logfs.off ≤ s.kvraw.logfs.device.size

instance (s : KvdbSt) : Decidable s.InDevice := inferInstanceAs (Decidable (_ ≤ _))

variable {s s' t' u : KvdbSt} {mode : Mode} {buf : Option (List UInt8)} {len : Option Nat} {c : Chained}

/-- Neither do their next appends. -/
structure Twins (s t : KvdbSt) : Prop extends Alike s t where
  appendFails : s.kvraw.appendFails = t.kvraw.appendFails

theorem Content.self (h : Content N fails log size k) : Content N k.appendFails log size k := by
  rw [h.appendFails]
  exact h

theorem Alike.symm {t : KvdbSt} (hs : Alike s t) : Alike t s := by
  obtain ⟨⟨N, log, size, h1, h2⟩, hi, hsize, hwaste⟩ := hs
  exact ⟨⟨N, log, size, h2, h1⟩, hi.symm, hsize.symm, hwaste.symm⟩

theorem Twins.symm {t : KvdbSt} (hs : Twins s t) : Twins t s := ⟨hs.toAlike.symm, hs.appendFails.symm⟩

theorem Twins.withCounters {t : KvdbSt} (hs : Twins s t) (f g : UInt64 → UInt64) :
    Twins { s with size := f s.size, waste := g s.waste } { t with size := f t.size, waste := g t.waste } :=
  ⟨⟨hs.content, hs.index, congrArg f hs.size, congrArg g hs.waste⟩, hs.appendFails⟩

/-- Two stores with one log, and the same failures to come. -/
theorem twins_of_content {t : KvdbSt} (h : Content N fails log size s.kvraw) (h' : Content N fails log size t.kvraw)
    (hi : SameIndex s.index t.index) (hsize : s.size = t.size) (hwaste : s.waste = t.waste) : Twins s t :=
  ⟨⟨⟨N, log, size, h.self, h'.self⟩, hi, hsize, hwaste⟩, h.appendFails.trans h'.appendFails.symm⟩

/-- `kvraw_append` answers by the failures and the sizes, and stores the same bytes. -/
theorem appendRef_alike {t : KvdbSt} {m n : Nat} {v : List UInt8} (hs : Twins s t) (hm : s.index.keyAt m = some h)
    (hn : t.index.keyAt n = some h) (ha : appendRef s m key v = .ok (b, s')) (hin : s'.InDevice) :
    ∃ t', appendRef t n key v = .ok (b, t') ∧ Twins s' t' ∧ (m = n ∧ s.index = t.index → s'.index = t'.index) := by
  obtain ⟨⟨⟨N, log, size, hks, hkt⟩, hi, hsize, hwaste⟩, hf⟩ := hs
  have hoff := hi.off_eq hm hn
  rw [← hf] at hkt
  unfold appendRef at ha ⊢
  rcases hk : kvrawAppend s.kvraw key v (s.index.maps m).off with e | ⟨r, k₁⟩
  · rw [hk] at ha
    cases ha
  rw [hk] at ha
  have hin₁ : k₁.logfs.off ≤ k₁.logfs.device.size := by
    cases r with
    | none =>
      cases ha
      exact hin
    | some off =>
      cases ha
      exact hin
  obtain ⟨hv, hfit⟩ := hks.append_fits hk hin₁
  obtain ⟨k₂, hk₂, hc⟩ := hks.kvrawAppend hv hfit
  obtain ⟨k₂', hk₂', hc'⟩ := hkt.kvrawAppend hv hfit
  rw [hk] at hk₂
  cases hk₂
  rw [← hoff, hk₂']
  cases hall : (storedBy s.kvraw.appendFails (parts key v (s.index.maps m).off)).2.1 with
  | false =>
    rw [hall] at ha hc hc'
    cases ha
    exact ⟨_, rfl, twins_of_content hc hc' hi hsize hwaste, fun h => h.2⟩
  | true =>
    rw [hall] at ha hc hc'
    cases ha
    refine ⟨_, rfl, twins_of_content hc hc' (hi.setOff hm hn size) hsize hwaste, ?_⟩
    rintro ⟨rfl, he⟩
    exact congrArg (fun i => Kvdb.setOff i m size) he

theorem finish_alike {t : KvdbSt} {m n : Nat} {v : List UInt8} {failed done o : Out} {f g : UInt64 → UInt64} (hs : Twins s t)
    (hm : s.index.keyAt m = some h) (hn : t.index.keyAt n = some h) (ha : finish s m key v failed done f g = .ok (o, s'))
    (hin : s'.InDevice) : ∃ t', finish t n key v failed done f g = .ok (o, t') ∧ Twins s' t' ∧
      (m = n ∧ s.index = t.index → s'.index = t'.index) := by
  unfold finish at ha ⊢
  rcases hr : appendRef s m key v with e | ⟨b, s₁⟩
  · rw [hr] at ha
    cases ha
  rw [hr] at ha
  have hin₁ : s₁.InDevice := by
    cases b with
    | false =>
      cases ha
      exact hin
    | true =>
      cases ha
      exact hin
  obtain ⟨t₁, ht₁, hs₁, hindex⟩ := appendRef_alike hs hm hn hr hin₁
  rw [ht₁]
  cases b with
  | false =>
    cases ha
    exact ⟨t₁, rfl, hs₁, hindex⟩
  | true =>
    cases ha
    exact ⟨_, rfl, hs₁.withCounters f g, hindex⟩

theorem mutateAt_alike {t : KvdbSt} {m n : Nat} {o : Out} (hs : Twins s t) (hm : s.index.keyAt m = some h)
    (hn : t.index.keyAt n = some h) (ha : mutateAt s m key buf len mode c = .ok (o, s')) (hin : s'.InDevice) :
    ∃ t', mutateAt t n key buf len mode c = .ok (o, t') ∧ Twins s' t' ∧
      (m = n ∧ s.index = t.index → s'.index = t'.index) := by
  rcases mutateAt_eq key buf len mode c with ⟨o', -, he⟩ | ⟨v, failed, done, f, g, f', g', -, -, -, -, he⟩
  · rw [he] at ha ⊢
    cases ha
    exact ⟨t, rfl, hs, fun h => h.2⟩
  · rw [he] at ha ⊢
    obtain ⟨t', ht', htw, hindex⟩ := finish_alike (hs.withCounters f g) hm hn ha hin
    exact ⟨t', ht', htw, hindex⟩

theorem mutate_alike {t : KvdbSt} {o : Out} (hs : Twins s t) (hm : mutate hash s key buf len mode = .ok (o, s'))
    (hin : s'.InDevice) :
    (∃ t', mutate hash t key buf len mode = .ok (o, t') ∧ Twins s' t' ∧
      (Peers s.index t.index → s'.index = t'.index)) ∨
    ¬ Peers s.index t.index ∧ mutate hash t key buf len mode = .error .exitIndex := by
  unfold mutate at hm ⊢
  rcases hu : indexUpdate hash s.index key with e | ⟨ref, i⟩
  · rw [hu] at hm
    cases hm
  have hb : key.length ≠ 0 := by
    intro h0
    rw [indexUpdate, if_pos h0] at hu
    cases hu
  rw [hu] at hm
  rcases hs.index.update hb hu with ⟨n, j, hj, hsame, href, hn⟩ | herr
  · obtain ⟨⟨⟨N, log, size, hks, hkt⟩, hi, hsize, hwaste⟩, hf⟩ := hs
    have hoff := hsame.off_eq href hn
    have hpeers : Peers s.index t.index → ref = n ∧ i = j := by
      intro h
      have he := hu.symm.trans ((h hash key).trans hj)
      rw [Except.ok.injEq, Prod.mk.injEq] at he
      exact he
    rw [hj]
    simp only at hm ⊢
    have hagree := @Content.chainLookup_agree N size _ _ log key
      (if mode = .remove then len.getD 0 else 0) (s.kvraw.size + 1) _ _
      (if mode = .remove ∧ len.isSome = true then buf else none) (i.maps ref).off hks hkt
    rw [← hoff, show t.kvraw.size = s.kvraw.size by rw [hks.size, hkt.size]]
    split at hm
    · cases hm
    · rename_i k₁ hc
      cases hm
      obtain ⟨k₁', hc', h1, h2⟩ := hagree.of_ok hc
      rw [hc']
      exact Or.inl ⟨_, rfl, twins_of_content h1 (hf ▸ h2) hsame hsize hwaste, fun h => (hpeers h).2⟩
    · rename_i c k₁ hc
      obtain ⟨k₁', hc', h1, h2⟩ := hagree.of_ok hc
      rw [hc']
      have hs₁ : Twins { s with kvraw := k₁, index := i } { t with kvraw := k₁', index := j } :=
        twins_of_content h1 (hf ▸ h2) hsame hsize hwaste
      obtain ⟨t', ht', htw, hindex⟩ := mutateAt_alike hs₁ href hn hm hin
      exact Or.inl ⟨t', ht', htw, fun h => hindex (hpeers h)⟩
  · refine Or.inr ⟨fun h => ?_, by rw [herr]⟩
    cases hu.symm.trans ((h hash key).trans herr)

theorem SameIndex.lookup (hs : SameIndex i j) (hb : key.length ≠ 0) {r : Option Nat} (hl : indexLookup hash i key = .ok r) :
    ∃ q, indexLookup hash j key = .ok q ∧ (r.elim 0 fun ref => (i.maps ref).off) = q.elim 0 fun ref => (j.maps ref).off := by
  have hleads : ∀ {i : Index} {r : Option Nat}, i.Ok → indexLookup hash i key = .ok r →
      Leads i (normalised hash key) (r.elim 0 fun ref => (i.maps ref).off) := by
    intro i r hi hr
    rcases @indexLookup_ok i hash key hi hb with ⟨ref, hl, href⟩ | ⟨hl, hno⟩
    · rw [hl] at hr
      cases hr
      exact Or.inl ⟨ref, href, rfl⟩
    · rw [hl] at hr
      cases hr
      exact Or.inr ⟨rfl, hno⟩
  have hok : ∃ q, indexLookup hash j key = .ok q := by
    rcases @indexLookup_ok j hash key hs.right hb with ⟨ref, hl, -⟩ | ⟨hl, -⟩
    · exact ⟨_, hl⟩
    · exact ⟨_, hl⟩
  obtain ⟨q, hq⟩ := hok
  exact ⟨q, hq, hs.right.leads_unique ((hs.leads _ _).mp (hleads hs.left hl)) (hleads hs.right hq)⟩

theorem kvdbLookup_alike {t : KvdbSt} {o : Out} (hs : Alike s t) (hl : kvdbLookup hash s key buf len = .ok (o, s')) :
    ∃ t', kvdbLookup hash t key buf len = .ok (o, t') ∧ Alike s' t' ∧
      (s'.kvraw.appendFails = s.kvraw.appendFails ∧ t'.kvraw.appendFails = t.kvraw.appendFails) ∧
      s'.index = s.index ∧ t'.index = t.index := by
  unfold kvdbLookup at hl ⊢
  split at hl
  · rename_i hif
    rw [if_pos hif]
    rcases hr : indexLookup hash s.index key with e | r
    · rw [hr] at hl
      cases hl
    obtain ⟨q, hq, hoff⟩ := hs.index.lookup hif.1.1 hr
    rw [hr] at hl
    rw [hq]
    by_cases h0 : (q.elim 0 fun ref => (t.index.maps ref).off) = 0
    · -- no record, with or without an entry
      have hleft : o = ⟨.invalid, buf, len⟩ ∧ s' = s := by
        rw [h0] at hoff
        cases r with
        | none =>
          cases hl
          exact ⟨rfl, rfl⟩
        | some ref =>
          have hz : (s.index.maps ref).off = 0 := hoff
          simp only [if_pos hz] at hl
          cases hl
          exact ⟨rfl, rfl⟩
      rw [hleft.1, hleft.2]
      refine ⟨t, ?_, hs, ⟨rfl, rfl⟩, rfl, rfl⟩
      cases q with
      | none => rfl
      | some n =>
        have hz : (t.index.maps n).off = 0 := h0
        simp only [if_pos hz]
    · cases q with
      | none => exact absurd rfl h0
      | some n =>
        cases r with
        | none => exact absurd hoff.symm h0
        | some ref =>
          obtain ⟨⟨N, log, size, hks, hkt⟩, hi, hsize, hwaste⟩ := hs
          have hoff : (s.index.maps ref).off = (t.index.maps n).off := hoff
          have hn : ¬ (t.index.maps n).off = 0 := h0
          have hagree := @Content.chainLookup_agree N size _ _ log key (len.getD 0) (s.kvraw.size + 1) _ _
            (if len.isSome = true then buf else none) (s.index.maps ref).off hks hkt
          rw [hoff] at hagree
          simp only [hoff, if_neg hn] at hl ⊢
          rw [show t.kvraw.size = s.kvraw.size by rw [hks.size, hkt.size]]
          split at hl
          · cases hl
          · rename_i k₁ hc
            cases hl
            obtain ⟨k₁', hc', h1, h2⟩ := hagree.of_ok hc
            rw [hc']
            exact ⟨{ t with kvraw := k₁' }, rfl, ⟨⟨_, _, _, h1.self, h2.self⟩, hi, hsize, hwaste⟩,
              ⟨h1.appendFails, h2.appendFails⟩, rfl, rfl⟩
          · rename_i c k₁ hc
            obtain ⟨k₁', hc', h1, h2⟩ := hagree.of_ok hc
            rw [hc']
            split at hl
            · rename_i hz
              cases hl
              exact ⟨{ t with kvraw := k₁' }, by simp only [if_pos hz], ⟨⟨_, _, _, h1.self, h2.self⟩, hi, hsize, hwaste⟩,
                ⟨h1.appendFails, h2.appendFails⟩, rfl, rfl⟩
            · rename_i hz
              cases hl
              exact ⟨{ t with kvraw := k₁' }, by simp only [if_neg hz], ⟨⟨_, _, _, h1.self, h2.self⟩, hi, hsize, hwaste⟩,
                ⟨h1.appendFails, h2.appendFails⟩, rfl, rfl⟩
  · cases hl

/-- On twins a call answers the same, and leaves twins, as long as the log stays inside
    the device and the index does not give up, which peers only do together. -/
theorem call_alike {t : KvdbSt} {op : Op} {a : Answer} (hs : Twins s t) (hc : call hash s op = .ok (a, s'))
    (hin : s'.InDevice) :
    (∃ t', call hash t op = .ok (a, t') ∧ Twins s' t' ∧ (Peers s.index t.index → Peers s'.index t'.index)) ∨
    ¬ Peers s.index t.index ∧ call hash t op = .error .exitIndex := by
  rcases call_cases hc with ⟨key, val, valLen, rfl⟩ | ⟨buf, valLen, mode, o, hm, -, -, hok, herr⟩
  · obtain ⟨⟨o, u⟩, ho, he⟩ := exists_ok_of_map hc
    cases he
    obtain ⟨t', ht', hal, ⟨hf, hf'⟩, hi, hi'⟩ := kvdbLookup_alike hs.toAlike ho
    refine Or.inl ⟨t', by simp only [call, ht']; rfl, ⟨hal, hf.trans (hs.appendFails.trans hf'.symm)⟩, ?_⟩
    rw [hi, hi']
    exact id
  · rcases mutate_alike hs hm hin with ⟨t', ht', htw, hindex⟩ | ⟨hno, hexit⟩
    · refine Or.inl ⟨t', hok t t' ht', htw, ?_⟩
      intro hp
      rw [hindex hp]
      exact fun _ _ => rfl
    · exact Or.inr ⟨hno, herr t _ hexit⟩

end Cs238p.Kvdb
