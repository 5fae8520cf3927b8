/-
  Cs238p.Kvdb.FailedAppend — calls of kvdb in which an append to the log fails.

  `kvraw_append` makes three appends and returns -1 after the first that fails, with what
  the others stored left in the log: `kvraw->size` does not count it, so the next record is
  not where its offset says (`a_failed_append_shows`). And `kvdb_update` counts before it
  appends.

  Proved: in every store that calls can reach, earlier failures included, a call whose first
  append fails has no effect but to return -1, unless it is an update
  (`failed_mutation_has_no_effect`).
-/
import Cs238p.Kvdb.Admission
import Cs238p.Kvdb.Alike

namespace Cs238p.Kvdb

open Cs238p.Logfs (Stop Device logfsOpen idle_open)

/-- The stores that calls can reach; reads succeed, appends may fail. -/
inductive FailReach (hash : List UInt8 → UInt64) : KvdbSt → Prop
  | opened {d : Device} {junk : Nat → List UInt8} {sched : List Nat} {appendFails : List Bool} {s : KvdbSt} :
      ¬ d.block ∣ 3 → kvdbOpen d junk sched [] appendFails = .ok (some s) → s.InDevice → FailReach hash s
  | called {s s' : KvdbSt} {op : Op} {a : Answer} : FailReach hash s → call hash s op = .ok (a, s') → s'.InDevice →
      FailReach hash s'

/-- One of the appends made from `s` to `s'` failed. -/
def AppendFailed (s s' : KvdbSt) : Prop :=
  ∃ used, s.kvraw.appendFails = used ++ s'.kvraw.appendFails ∧ true ∈ used

/-- The store with other failures to come. -/
def KvdbSt.withFails (s : KvdbSt) (fails : List Bool) : KvdbSt := { s with kvraw := { s.kvraw with appendFails := fails } }

/-- The calls return these answers, and the log stays inside the device. -/
inductive Behaves (hash : List UInt8 → UInt64) : KvdbSt → List Op → List Answer → Prop
  | nil {s : KvdbSt} : Behaves hash s [] []
  | cons {s s' : KvdbSt} {op : Op} {a : Answer} {ops : List Op} {as : List Answer} : call hash s op = .ok (a, s') →
      s'.InDevice → Behaves hash s' ops as → Behaves hash s (op :: ops) (a :: as)

/-- Any calls on `t` return what they return on `s`, unless the index may give up and does. -/
def Follows (hash : List UInt8 → UInt64) (mayExit : Prop) (s t : KvdbSt) : Prop :=
  ∀ ops as, Behaves hash s ops as → Behaves hash t ops as ∨ mayExit ∧ run hash t ops = .error .exitIndex

/-- The call is about a hash that the index has no entry for, so `index_update` makes one. -/
def NewEntry (hash : List UInt8 → UInt64) (s : KvdbSt) (op : Op) : Prop :=
  ∀ off, ¬ Holds s.index (normalised hash op.key) off

/-- The call `op` that led from `s` to `s'` failed, and nothing else tells them apart. -/
structure NoEffect (hash : List UInt8 → UInt64) (s : KvdbSt) (op : Op) (s' : KvdbSt) (a : Answer) : Prop where
  ret : a.ret = .fail
  size : kvdbSize s' = kvdbSize s
  waste : kvdbWaste s' = kvdbWaste s
  bindings : ∀ key buf len b, (∃ u, call hash s' (.lookup key buf len) = .ok (b, u)) ↔
    ∃ u, call hash s (.lookup key buf len) = .ok (b, u)
  /-- Where the index already had an entry for the hash, later calls answer as if it had not
      been made, but for the failures it took. Where the call has made the entry they do so
      unless the index gives up, which it may then do at another time. -/
  later : Follows hash (NewEntry hash s op) (s.withFails s'.kvraw.appendFails) s' ∧
    Follows hash (NewEntry hash s op) s' (s.withFails s'.kvraw.appendFails)

variable {hash : List UInt8 → UInt64} {s s' t : KvdbSt} {key v : List UInt8} {buf : Option (List UInt8)}
  {len : Option Nat} {mode : Mode} {op : Op} {a : Answer} {o : Out} {ref : Nat} {h : UInt64}

theorem FailReach.twins (hr : FailReach hash s) : Twins s s := by
  induction hr with
  | @opened d junk sched appendFails s hd ho hin =>
    have hc : Content d.size appendFails [] 0 ⟨0, logfsOpen d junk sched [], appendFails⟩ :=
      ⟨idle_open d junk sched, hd, Nat.le_refl _, rfl, rfl, rfl⟩
    unfold kvdbOpen kvrawOpen at ho
    rcases hk : kvrawAppend ⟨0, logfsOpen d junk sched [], appendFails⟩ [0] [0] 0 with e | ⟨r, k⟩
    · rw [hk] at ho
      cases ho
    rw [hk] at ho
    cases r with
    | none => cases ho
    | some off =>
      cases ho
      obtain ⟨hv, hfit⟩ := hc.append_fits hk hin
      obtain ⟨k', hk', hc'⟩ := hc.kvrawAppend hv hfit
      rw [hk, Except.ok.injEq, Prod.mk.injEq] at hk'
      obtain ⟨-, rfl⟩ := hk'
      exact twins_of_content hc' hc' (.refl (ok_create 0)) rfl rfl
  | called _ hc hin ih =>
    rcases call_alike ih hc hin with ⟨t', ht', htw, -⟩ | ⟨-, herr⟩
    · cases hc.symm.trans ht'
      exact htw
    · cases hc.symm.trans herr

theorem FailReach.store (hr : FailReach hash s) : StoreReach hash s := by
  induction hr with
  | opened _ ho _ => exact .opened ho
  | called _ hc _ ih => exact .called ih hc

/-- Twins answer the same for ever. -/
theorem Twins.follows (hs : Twins s t) : Follows hash (¬ Peers s.index t.index) s t := by
  intro ops as hb
  induction hb generalizing t with
  | nil => exact Or.inl .nil
  | @cons s s' op a ops as hc hin _ ih =>
    rcases call_alike hs hc hin with ⟨t', ht', htw, hpeers⟩ | ⟨hno, herr⟩
    · have hin' : t'.InDevice := by
        obtain ⟨N, log, size, h1, h2⟩ := htw.content
        unfold KvdbSt.InDevice at hin ⊢
        rw [h2.device, h2.idle.core.off, ← h1.idle.core.off, ← h1.device]
        exact hin
      rcases ih htw with hb | ⟨hno, herr⟩
      · exact Or.inl (.cons ht' hin' hb)
      · exact Or.inr ⟨fun h => hno (hpeers h), by simp only [run, ht', herr]⟩
    · exact Or.inr ⟨hno, by simp only [run, herr]⟩

/-- An index that already has the entry only grows, and has then grown enough. -/
theorem IndexLight.peers {i j : Index} {off : Nat} (h : IndexLight i) (hb : key.length ≠ 0)
    (hh : Holds i (normalised hash key) off) (hu : indexUpdate hash i key = .ok (ref, j)) : Peers i j := by
  obtain ⟨u, hg⟩ := h.1.grow_ok h.2
  obtain ⟨husized, -⟩ := h.1.grow hg
  obtain ⟨-, hkept⟩ := Kvdb.grow_ok h.1.linked hg
  obtain ⟨hload, hpos⟩ := h.2.grow h.1 hg
  have hagain : Kvdb.grow u = .ok u := by
    have hno : overLoad u = false := by
      simp only [overLoad, Bool.or_eq_false_iff, beq_eq_false_iff_ne, decide_eq_false_iff_not]
      omega
    rw [Kvdb.grow, if_neg (by rw [hno]; exact fun h => by cases h)]
  unfold indexUpdate at hu
  rw [if_neg hb, hg] at hu
  have hju : j = u := by
    obtain ⟨-, -, -, he | ⟨hno, -⟩⟩ := update_cases husized.linked (normalised_ne_zero hash key) hu
    · exact he
    · exact absurd ((hkept _ _).mpr hh) (hno off)
  subst hju
  intro hash' key'
  unfold indexUpdate
  rw [hg, hagain]

/-! ## The append that fails -/

theorem storedBy_split : ∀ (parts : List (List UInt8)) {fails : List Bool}, (storedBy fails parts).2.1 = true →
    ∃ used, fails = used ++ (storedBy fails parts).2.2 ∧ true ∉ used := by
  intro parts
  induction parts with
  | nil => exact fun _ => ⟨[], rfl, List.not_mem_nil⟩
  | cons bs rest ih =>
    intro fails hall
    unfold storedBy at hall ⊢
    split at hall
    · cases hall
    · rename_i hf
      rw [if_neg hf]
      obtain ⟨used, he, hno⟩ := ih hall
      cases fails with
      | nil => exact ⟨[], (List.append_eq_nil_iff.mp he.symm).2.symm, List.not_mem_nil⟩
      | cons b rest' =>
        refine ⟨b :: used, ?_, ?_⟩
        · rw [List.cons_append]
          exact congrArg (b :: ·) he
        · rintro (_ | ⟨_, hm⟩)
          · exact hf rfl
          · exact hno hm

/-- `kvraw_append` fails; at the first append it has done nothing else. -/
theorem appendRef_failed {b : Bool} (hs : Alike s s) (ha : appendRef s ref key v = .ok (b, s')) (hin : s'.InDevice)
    (hf : AppendFailed s s') :
    b = false ∧ s'.size = s.size ∧ s'.waste = s.waste ∧
      (s.kvraw.appendFails.headD false = true → s' = s.withFails s.kvraw.appendFails.tail) := by
  obtain ⟨⟨N, log, size, hk, -⟩, -⟩ := hs
  unfold appendRef at ha
  rcases hr : kvrawAppend s.kvraw key v (s.index.maps ref).off with e | ⟨r, k₁⟩
  · rw [hr] at ha
    cases ha
  rw [hr] at ha
  have hraw : s'.kvraw = k₁ := by
    cases r with
    | none =>
      cases ha
      rfl
    | some off =>
      cases ha
      rfl
  have hin₁ : k₁.logfs.off ≤ k₁.logfs.device.size := hraw ▸ hin
  obtain ⟨hv, hfit⟩ := hk.append_fits hr hin₁
  obtain ⟨k₂, hk₂, hc⟩ := hk.kvrawAppend hv hfit
  rw [hr, Except.ok.injEq, Prod.mk.injEq] at hk₂
  obtain ⟨hr', rfl⟩ := hk₂
  obtain ⟨used, hused, hmem⟩ := hf
  rw [hraw, hc.appendFails] at hused
  cases hall : (storedBy s.kvraw.appendFails (parts key v (s.index.maps ref).off)).2.1 with
  | true =>
    -- then no failure was taken
    obtain ⟨used', hused', hno⟩ := storedBy_split _ hall
    rw [List.append_cancel_right (hused.symm.trans hused')] at hmem
    exact absurd hmem hno
  | false =>
    rw [hr', hall] at ha
    cases ha
    refine ⟨rfl, rfl, rfl, fun hhead => ?_⟩
    have hfirst : kvrawAppend s.kvraw key v (s.index.maps ref).off =
        .ok (none, { s.kvraw with appendFails := s.kvraw.appendFails.tail }) := by
      rw [kvrawAppend_parts, if_neg hv]
      simp only [parts, appendAll, appendLog, hhead, if_true]
    rw [hfirst] at hr
    cases hr
    rfl

theorem append_cancels {used f : List Bool} (h : f = used ++ f) : used = [] := by
  have hlen := congrArg List.length h
  rw [List.length_append] at hlen
  exact List.length_eq_zero_iff.mp (by omega)

theorem not_appendFailed (h : s'.kvraw.appendFails = s.kvraw.appendFails) : ¬ AppendFailed s s' := by
  rintro ⟨used, hused, hmem⟩
  rw [h] at hused
  rw [append_cancels hused] at hmem
  exact absurd hmem List.not_mem_nil

/-- A mutation in which an append fails returns -1; an update has counted by then, the
    others have not. -/
theorem mutateAt_failed {ch : Chained} (hs : Alike s s) (hm : mutateAt s ref key buf len mode ch = .ok (o, s'))
    (hin : s'.InDevice) (hf : AppendFailed s s') :
    o.ret = .fail ∧ (mode = .update → s'.size ≠ s.size ∨ s'.waste ≠ s.waste) ∧
      (mode ≠ .update → s.kvraw.appendFails.headD false = true → s' = s.withFails s.kvraw.appendFails.tail) := by
  have hne : ∀ x : UInt64, x + 1 ≠ x := by
    intro x hx
    have hnat : (x.toNat + 1) % 2 ^ 64 = x.toNat := by
      simpa using congrArg UInt64.toNat hx
    have := x.toNat_lt
    omega
  rcases mutateAt_eq key buf len mode ch with ⟨o', -, he⟩ | ⟨w, failed, done, f, g, f', g', hfail, -, hother, hupdate, he⟩
  · rw [he] at hm
    cases hm
    exact absurd hf (not_appendFailed rfl)
  · rw [he] at hm
    unfold finish at hm
    let s₀ : KvdbSt := { s with size := f s.size, waste := g s.waste }
    have hs₀ : Alike s₀ s₀ := ⟨hs.content, hs.index, rfl, rfl⟩
    rcases hr : appendRef s₀ ref key w with e | ⟨b, s₁⟩
    · rw [hr] at hm
      cases hm
    rw [hr] at hm
    have hraw : s'.kvraw = s₁.kvraw := by
      cases b with
      | false =>
        cases hm
        rfl
      | true =>
        cases hm
        rfl
    have hf₁ : AppendFailed s₀ s₁ := by
      unfold AppendFailed at hf ⊢
      rwa [hraw] at hf
    have hin₁ : s₁.InDevice := by
      unfold KvdbSt.InDevice at hin ⊢
      rwa [hraw] at hin
    obtain ⟨rfl, hsize, hwaste, hfirst⟩ := appendRef_failed hs₀ hr hin₁ hf₁
    cases hm
    refine ⟨hfail, ?_, ?_⟩
    · intro hm
      rw [hsize, hwaste]
      rcases hupdate hm with ⟨rfl, rfl⟩ | ⟨rfl, rfl⟩
      · exact Or.inl (hne _)
      · exact Or.inr (hne _)
    · intro hm
      obtain ⟨rfl, rfl⟩ := hother hm
      exact hfirst

theorem mutate_failed (hs : Alike s s) (hm : mutate hash s key buf len mode = .ok (o, s')) (hin : s'.InDevice)
    (hf : AppendFailed s s') :
    o.ret = .fail ∧ (mode = .update → s'.size ≠ s.size ∨ s'.waste ≠ s.waste) ∧
      (mode ≠ .update → s.kvraw.appendFails.headD false = true → Alike s s' ∧
        ∃ ref, key.length ≠ 0 ∧ indexUpdate hash s.index key = .ok (ref, s'.index)) := by
  unfold mutate at hm
  rcases hu : indexUpdate hash s.index key with e | ⟨ref, i⟩
  · rw [hu] at hm
    cases hm
  have hb : key.length ≠ 0 := by
    intro h0
    rw [indexUpdate, if_pos h0] at hu
    cases hu
  rw [hu] at hm
  obtain ⟨⟨N, log, size, hk, -⟩, hi, -, -⟩ := hs
  have hagree := @Content.chainLookup_agree N size _ _ log key
    (if mode = .remove then len.getD 0 else 0) (s.kvraw.size + 1) _ _
    (if mode = .remove ∧ len.isSome = true then buf else none) (i.maps ref).off hk hk
  simp only at hm
  split at hm
  · cases hm
  · rename_i k₁ hc
    cases hm
    obtain ⟨k₂, hc', h1, -⟩ := hagree.of_ok hc
    exact absurd hf (not_appendFailed h1.appendFails)
  · rename_i c k₁ hc
    obtain ⟨k₂, hc', h1, -⟩ := hagree.of_ok hc
    obtain ⟨hok, -, -⟩ := indexUpdate_ok hi.left hb hu
    have hsame : SameIndex s.index i := ⟨hi.left, hok, fun h off => (indexUpdate_leads hi.left hb hu).symm⟩
    have hfails : k₁.appendFails = s.kvraw.appendFails := h1.appendFails
    have hs₁ : Alike { s with kvraw := k₁, index := i } { s with kvraw := k₁, index := i } :=
      ⟨⟨N, log, size, h1.self, h1.self⟩, .refl hok, rfl, rfl⟩
    have hf₁ : AppendFailed { s with kvraw := k₁, index := i } s' := by
      unfold AppendFailed at hf ⊢
      rwa [← hfails] at hf
    obtain ⟨hret, hup, hfirst⟩ := mutateAt_failed hs₁ hm hin hf₁
    refine ⟨hret, hup, fun hmode hhead => ?_⟩
    rw [hfirst hmode (by rw [← hfails] at hhead; exact hhead)]
    exact ⟨⟨⟨N, log, size, hk, ⟨h1.idle, h1.block, h1.le, h1.device, rfl, h1.size⟩⟩, hsame, rfl, rfl⟩, ref, hb, rfl⟩

theorem Alike.lookup_iff (hs : Alike s t) (b : Answer) : (∃ u, call hash s (.lookup key buf len) = .ok (b, u)) →
    ∃ u, call hash t (.lookup key buf len) = .ok (b, u) := by
  rintro ⟨u, hc⟩
  obtain ⟨⟨o, v⟩, ho, he⟩ := exists_ok_of_map hc
  cases he
  obtain ⟨t', ht', -⟩ := kvdbLookup_alike hs ho
  exact ⟨t', by simp only [call, ht']; rfl⟩

/-- A store that is like the one before the call, after a call that returned -1. -/
theorem Alike.noEffect (hs : Alike s s') (hret : a.ret = .fail) (hpeers : ¬ NewEntry hash s op → Peers s.index s'.index) :
    NoEffect hash s op s' a := by
  have htwins : Twins (s.withFails s'.kvraw.appendFails) s' := by
    obtain ⟨⟨N, log, size, h1, h2⟩, hi, hsize, hwaste⟩ := hs
    exact twins_of_content ⟨h1.idle, h1.block, h1.le, h1.device, rfl, h1.size⟩ h2 hi hsize hwaste
  have hno : ¬ Peers s.index s'.index → NewEntry hash s op := by
    intro h
    by_contra hn
    exact h (hpeers hn)
  have hno' : ¬ Peers s'.index s.index → NewEntry hash s op := fun h => hno fun hp => h fun f k => (hp f k).symm
  exact ⟨hret, hs.size.symm, hs.waste.symm, fun key buf len b => ⟨hs.symm.lookup_iff b, hs.lookup_iff b⟩,
    fun ops as hb => (htwins.follows ops as hb).imp_right (And.imp_left hno),
    fun ops as hb => (htwins.symm.follows ops as hb).imp_right (And.imp_left hno')⟩

/-- In every store that calls can reach, after whatever failures: a call in which an append
    fails returns -1; where that is the first of its appends it has no other effect, unless
    the call is an update, which never has none. -/
theorem failed_mutation_has_no_effect (hash : List UInt8 → UInt64) (s s' : KvdbSt) (op : Op) (a : Answer)
    (hr : FailReach hash s) (hc : call hash s op = .ok (a, s')) (hin : s'.InDevice) (hf : AppendFailed s s') :
    a.ret = .fail ∧
      (s.kvraw.appendFails.headD false = true → (NoEffect hash s op s' a ↔ ¬ ∃ key v, op = .update key v)) ∧
      ((∃ key v, op = .update key v) → ¬ NoEffect hash s op s' a) := by
  have hs : Alike s s := hr.twins.toAlike
  rcases call_cases hc with ⟨key, val, valLen, rfl⟩ | ⟨buf, len, mode, o, hm, hret, hmode, -⟩
  · -- a lookup appends nothing
    obtain ⟨⟨o, u⟩, ho, he⟩ := exists_ok_of_map hc
    cases he
    obtain ⟨_, -, -, ⟨hfails, -⟩, -⟩ := kvdbLookup_alike hs ho
    exact absurd hf (not_appendFailed hfails)
  obtain ⟨hfail, hup, hfirst⟩ := mutate_failed hs hm hin hf
  have hupdate : (∃ key v, op = .update key v) → ¬ NoEffect hash s op s' a := by
    intro hop hno
    rcases hup (hmode.mpr hop) with h | h
    · exact h hno.size
    · exact h hno.waste
  refine ⟨hret.trans hfail, fun hhead => ⟨fun hno hop => hupdate hop hno, fun hop => ?_⟩, hupdate⟩
  obtain ⟨halike, ref, hb, hu⟩ := hfirst (fun h => hop (hmode.mp h)) hhead
  refine halike.noEffect (hret.trans hfail) fun hnew => ?_
  obtain ⟨off, hh⟩ := not_forall_not.mp hnew
  exact hr.store.light.peers hb hh hu

/-- Opened, one key stored, and then the first append of an insert fails. -/
theorem failing_first : ∃ s t u a b,
    kvdbOpen device128 (fun _ => []) [] [] [false, false, false, false, false, false, true] = .ok (some s) ∧
    s.InDevice ∧ call (fun _ => 7) s (.insert [107] [1]) = .ok (a, t) ∧ t.InDevice ∧
    call (fun _ => 7) t (.insert [108] [2]) = .ok (b, u) ∧ u.InDevice ∧ t.kvraw.appendFails = [true] ∧
    u.kvraw.appendFails = [] :=
  ⟨_, _, _, _, _, rfl, by decide +kernel, rfl, by decide +kernel, rfl, by decide +kernel, rfl, rfl⟩

theorem failed_insert_has_no_effect : ∃ t u b, t.kvraw.appendFails = [true] ∧
    call (fun _ => 7) t (.insert [108] [2]) = .ok (b, u) ∧ b.ret = .fail ∧
    NoEffect (fun _ => 7) t (.insert [108] [2]) u b := by
  obtain ⟨s, t, u, a, b, ho, hs, ht, hint, hu, hinu, hft, hfu⟩ := failing_first
  obtain ⟨hret, hfirst, -⟩ := failed_mutation_has_no_effect (fun _ => 7) t u (.insert [108] [2]) b
    (.called (.opened (show ¬ 16 ∣ 3 by decide) ho hs) ht hint) hu hinu
    ⟨[true], by rw [hft, hfu]; rfl, List.mem_singleton_self _⟩
  refine ⟨t, u, b, hft, hu, hret, (hfirst (by rw [hft]; rfl)).mpr ?_⟩
  rintro ⟨key, v, he⟩
  cases he

/-- An insert fails at the second of its appends; then another key is inserted, and not
    found. -/
theorem torn : ∃ s t u v x a b, kvdbOpen device128 (fun _ => []) [] [] [false, false, false, false, true] = .ok (some s) ∧
    s.InDevice ∧ call (fun _ => 7) s (.insert [107] [1]) = .ok (a, t) ∧ t.InDevice ∧
    AppendFailed s t ∧ t.kvraw.appendFails = [] ∧
    call (fun _ => 7) t (.insert [108] [2]) = .ok (b, u) ∧
    call (fun _ => 7) u (.lookup [108] none none) = .ok (⟨.invalid, none, []⟩, v) ∧
    call (fun _ => 7) (s.withFails []) (.insert [108] [2]) = .ok (⟨.done, none, []⟩, x) ∧ x.InDevice ∧
    ∃ y, call (fun _ => 7) x (.lookup [108] none none) = .ok (⟨.done, none, []⟩, y) ∧ y.InDevice :=
  ⟨_, _, _, _, _, _, _, rfl, by decide +kernel, rfl, by decide +kernel, ⟨[false, true], rfl, by decide⟩, rfl, rfl, rfl, rfl,
    by decide +kernel, _, rfl, by decide +kernel⟩

/-- The first append of an update fails. -/
theorem counted_first : ∃ s t a, kvdbOpen device128 (fun _ => []) [] [] [false, false, false, true] = .ok (some s) ∧
    s.InDevice ∧ call (fun _ => 7) s (.update [107] [1]) = .ok (a, t) ∧ t.InDevice ∧ AppendFailed s t ∧
    s.kvraw.appendFails.headD false = true ∧ kvdbSize s = 0 ∧ kvdbSize t = 1 :=
  ⟨_, _, _, rfl, by decide +kernel, rfl, by decide +kernel, ⟨[true], rfl, by decide⟩, rfl, rfl, rfl⟩

/-- An insert whose second append fails; and an update whose first append fails. -/
theorem a_failed_append_shows :
    (¬ ∀ (hash : List UInt8 → UInt64) (s s' : KvdbSt) (op : Op) (a : Answer), FailReach hash s →
      call hash s op = .ok (a, s') → s'.InDevice → AppendFailed s s' → NoEffect hash s op s' a) ∧
    ¬ ∀ (hash : List UInt8 → UInt64) (s s' : KvdbSt) (op : Op) (a : Answer), FailReach hash s →
      call hash s op = .ok (a, s') → s'.InDevice → AppendFailed s s' → s.kvraw.appendFails.headD false = true →
      kvdbSize s' = kvdbSize s := by
  constructor
  · intro hall
    obtain ⟨s, t, u, v, x, a, b, ho, hs, ht, hint, hf, hnil, hu, hv, hx, hinx, y, hy, hiny⟩ := torn
    have hno := hall (fun _ => 7) s t _ a (.opened (show ¬ 16 ∣ 3 by decide) ho hs) ht hint hf
    have hlater := hno.later.1
    rw [hnil] at hlater
    rcases hlater _ _ (.cons hx hinx (.cons hy hiny .nil)) with hb | herr
    · rcases hb with _ | ⟨h1, -, hb⟩
      rw [hu, Except.ok.injEq, Prod.mk.injEq] at h1
      rw [← h1.2] at hb
      rcases hb with _ | ⟨h2, -, -⟩
      rw [hv] at h2
      cases h2
    · simp only [run, hu, hv] at herr
      cases herr.2
  · intro hall
    obtain ⟨s, t, a, ho, hs, ht, hint, hf, hhead, h0, h1⟩ := counted_first
    have hsize := hall (fun _ => 7) s t _ a (.opened (show ¬ 16 ∣ 3 by decide) ho hs) ht hint hf hhead
    rw [h0, h1] at hsize
    cases hsize

end Cs238p.Kvdb
