/-
  Cs238p.Scm.Utilised — `scm_utilized` against the headers of the blocks.

  `user_bytes` goes up with a new block and down with every `scm_free` of a block, in use or
  not; `scm_malloc` does not count a free block that it hands out again. So it falls behind
  the blocks in use when a block is recycled, or freed twice, and may wrap
  (`a_recycled_block_is_not_counted`).

  Proved: in a run with enough space the counter is exact after every call iff no call
  recycles a block of non-zero size or frees it again (`utilised_exact_iff`).
-/
import Cs238p.Scm.Requests
import Cs238p.Scm.Runs

namespace Cs238p.Scm

open ByteMemory Arena

/-- The block at `p` is in use: the walk over the headers meets it, and its header says so. -/
def UsedBlock (s : ScmSt) (p : Nat) : Prop := ∃ as last, walk s = .ok (as, last) ∧ p ∈ as ∧ inUseAt s.mem p ≠ 0

/-- The sum of the sizes that the headers of the blocks in use record. -/
def inUseBytes (s : ScmSt) : Nat :=
  match walk s with
  | .error _ => 0
  | .ok (as, _) => ((as.filter fun p => inUseAt s.mem p != 0).map (sizeAt s.mem)).sum

/-- What the counter should say. -/
structure Exact (s : ScmSt) : Prop where
  sum : scmUtilized s = inUseBytes s
  /-- No block in use can take the counter below zero. -/
  covers : ∀ p, UsedBlock s p → sizeAt s.mem p ≤ scmUtilized s
  stored : s.mem.load (vmStart + 16) 8 = scmUtilized s
  zero : scmUtilized s = 0 ↔ ∀ p, UsedBlock s p → sizeAt s.mem p = 0

/-- The call succeeds, and the counter is exact then. -/
def LeavesExact (s : ScmSt) (c : Call) : Prop := ∃ a s', call s c = .ok (a, s') ∧ Exact s'

def EnoughSpace (s : ScmSt) : Call → Prop
  | .malloc n => HasFree s n ∨ Fits s n
  | .strdup str => Fits s (str.length + 1)
  | .free _ => True

/-- A free block that is not empty is handed out again, or freed again. -/
def Recycles (s : ScmSt) : Call → Prop
  | .malloc n => ∃ p, findFree s.mem n (scmMbase s + s.usedBytes) (s.usedBytes + 1) (scmMbase s) = .ok (some p) ∧
      sizeAt s.mem p ≠ 0
  | .strdup _ => False
  | .free p => scmAllocatedAddr s p = .ok true ∧ inUseAt s.mem p = 0 ∧ sizeAt s.mem p ≠ 0

variable {s s' : ScmSt} {bs : List Blk} {b : Blk} {n p : Nat} {c : Call}

/-! ## The headers -/

theorem HeapRepr.inUse_eq (h : HeapRepr s bs) (hb : b ∈ bs) : (inUseAt s.mem b.addr != 0) = b.inUse := by
  rw [(h.headers b hb).1]
  cases b.inUse <;> rfl

theorem HeapRepr.usedBlock_iff (h : HeapRepr s bs) : UsedBlock s p ↔ ∃ b ∈ bs, b.addr = p ∧ b.inUse = true := by
  unfold UsedBlock
  rw [h.walk]
  constructor
  · rintro ⟨as, last, he, hp, hu⟩
    cases he
    obtain ⟨b, hb, rfl⟩ := List.mem_map.mp hp
    refine ⟨b, hb, rfl, ?_⟩
    rw [← h.inUse_eq hb]
    simpa using hu
  · rintro ⟨b, hb, rfl, hu⟩
    refine ⟨_, _, rfl, List.mem_map_of_mem hb, ?_⟩
    rw [← h.inUse_eq hb] at hu
    simpa using hu

theorem HeapRepr.inUseBytes_eq (h : HeapRepr s bs) : inUseBytes s = inUseSize bs := by
  unfold inUseBytes inUseSize
  rw [h.walk]
  simp only
  rw [List.filter_map, List.map_map]
  have hfilter : bs.filter ((fun p => inUseAt s.mem p != 0) ∘ Blk.addr) = bs.filter Blk.inUse := by
    refine List.filter_congr ?_
    intro b hb
    rw [Function.comp_apply]
    exact h.inUse_eq hb
  rw [hfilter]
  have hsizes : (bs.filter Blk.inUse).map (sizeAt s.mem ∘ Blk.addr) = (bs.filter Blk.inUse).map Blk.size :=
    List.map_congr_left fun b hb => (h.headers b (List.mem_of_mem_filter hb)).2
  rw [hsizes]

/-- All of it follows from the sum. -/
theorem HeapRepr.exact_iff (h : HeapRepr s bs) : Exact s ↔ s.userBytes = inUseSize bs := by
  constructor
  · intro he
    rw [← h.inUseBytes_eq]
    exact he.sum
  · intro he
    have hused : ∀ p, UsedBlock s p → ∃ b ∈ bs, b.inUse = true ∧ sizeAt s.mem p = b.size := by
      intro p hp
      obtain ⟨b, hb, rfl, hu⟩ := h.usedBlock_iff.mp hp
      exact ⟨b, hb, hu, (h.headers b hb).2⟩
    refine ⟨?_, ?_, h.info.2, ?_⟩
    · rw [h.inUseBytes_eq]
      exact he
    · intro p hp
      obtain ⟨b, hb, hu, hsize⟩ := hused p hp
      rw [hsize, scmUtilized, he]
      exact size_le_inUseSize hb hu
    · rw [scmUtilized, he, inUseSize_eq_zero]
      constructor
      · intro hz p hp
        obtain ⟨b, hb, hu, hsize⟩ := hused p hp
        rw [hsize]
        exact hz b hb hu
      · intro hz b hb hu
        rw [← (h.headers b hb).2]
        exact hz _ (h.usedBlock_iff.mpr ⟨b, hb, rfl, hu⟩)

/-- The counter has room for all blocks in use. -/
theorem HeapRepr.inUseSize_lt (h : HeapRepr s bs) : inUseSize bs < 2 ^ 64 := by
  have hle := h.tiles.inUseSize_le
  have hlt := h.used_lt
  omega

/-! ## One call -/

/-- A new block is counted. -/
theorem exact_new {user : Nat} (h : HeapRepr s' (bs ++ [⟨p, n, true⟩])) (he : user = inUseSize bs)
    (hu : s'.userBytes = (user + n) % 2 ^ 64) : Exact s' := by
  have hlt := h.inUseSize_lt
  rw [h.exact_iff, hu, he]
  simp only [inUseSize_append, inUseSize_cons, inUseSize_nil, if_true, Nat.add_zero] at hlt ⊢
  exact Nat.mod_eq_of_lt hlt

/-- `scm_malloc` does not count the free block that it hands out. -/
theorem exact_reused (h : HeapRepr s bs) (hex : Exact s) (hf : firstFit n bs = some b) :
    ∃ s', scmMalloc s n = .ok (b.addr, s') ∧ HeapRepr s' (Arena.mark b.addr true bs) ∧ (Exact s' ↔ b.size = 0) := by
  obtain ⟨hb, hfree, -⟩ := firstFit_some hf
  obtain ⟨s', hm, hr, -, -, -, huser⟩ := malloc_reuse h hf
  refine ⟨s', hm, hr, ?_⟩
  have he := h.exact_iff.mp hex
  have hmark := h.tiles.inUseSize_mark (by decide) hb true
  simp only [hfree, Bool.false_eq_true, if_false, if_true, Nat.add_zero] at hmark
  rw [hr.exact_iff, huser, he]
  omega

/-- `scm_free` takes a block off the counter, whether it was in use or not. -/
theorem exact_freed (h : HeapRepr s bs) (hex : Exact s) (hb : b ∈ bs) :
    ∃ s', scmFree s b.addr = .ok s' ∧ HeapRepr s' (Arena.mark b.addr false bs) ∧
      (Exact s' ↔ (b.inUse = false → b.size = 0)) := by
  obtain ⟨s', hf, hr, -, -, -, huser⟩ := free_block h hb
  refine ⟨s', hf, hr, ?_⟩
  have he := h.exact_iff.mp hex
  have hlt := h.inUseSize_lt
  have hmark := h.tiles.inUseSize_mark (by decide) hb false
  have hsize : b.size < 2 ^ 64 := by
    have hend := h.end_le hb
    have hused := h.used_lt
    omega
  rw [hr.exact_iff, huser, he]
  cases hu : b.inUse with
  | true =>
    simp only [hu, Bool.false_eq_true, if_false, if_true, Nat.add_zero] at hmark
    simp only [Bool.true_eq_false, false_implies, iff_true]
    omega
  | false =>
    simp only [hu, Bool.false_eq_true, if_false, Nat.add_zero] at hmark
    simp only [forall_const]
    omega

theorem HeapRepr.step_exact (h : HeapRepr s bs) (hex : Exact s) (hr : EnoughSpace s c) :
    ∃ a s' bs', Scm.call s c = .ok (a, s') ∧ HeapRepr s' bs' ∧ (Exact s' ↔ ¬ Recycles s c) := by
  have he := h.exact_iff.mp hex
  cases c with
  | malloc n =>
    simp only [Recycles, h.findFree]
    rcases hf : firstFit n bs with _ | b
    · have hfit : Fits s n := by
        rcases hr with hfree | hfit
        · obtain ⟨b, hb⟩ := h.hasFree_iff.mp hfree
          rw [hf] at hb
          cases hb
        · exact hfit
      obtain ⟨s', hm, hrepr, -, -, -, huser⟩ := malloc_new h hf hfit
      refine ⟨_, s', _, by simp only [Scm.call, hm]; rfl, hrepr, ?_⟩
      exact iff_of_true (exact_new hrepr he huser) (by simp)
    · obtain ⟨s', hm, hrepr, hiff⟩ := exact_reused h hex hf
      refine ⟨_, s', _, by simp only [Scm.call, hm]; rfl, hrepr, ?_⟩
      rw [hiff]
      simp [(h.headers b (firstFit_some hf).1).2]
  | strdup str =>
    obtain ⟨s', hs, hrepr, -, -, -, -, huser⟩ := strdup_ok h str hr
    refine ⟨some _, s', _, by simp only [Scm.call, hs]; rfl, hrepr, ?_⟩
    exact iff_of_true (exact_new hrepr he huser) id
  | free p =>
    simp only [Recycles, h.allocated]
    by_cases hp : p ∈ bs.map Blk.addr
    · obtain ⟨b, hb, rfl⟩ := List.mem_map.mp hp
      obtain ⟨s', hf, hrepr, hiff⟩ := exact_freed h hex hb
      refine ⟨_, s', _, by simp only [Scm.call, hf]; rfl, hrepr, ?_⟩
      rw [hiff, (h.headers b hb).1, (h.headers b hb).2]
      cases b.inUse with
      | true => simp
      | false => simp [hp]
    · have hf := free_foreign h fun b hb e => hp (List.mem_map.mpr ⟨b, hb, e⟩)
      refine ⟨_, s, bs, by simp only [Scm.call, hf]; rfl, h, ?_⟩
      exact iff_of_true hex (by simp [hp])

/-! ## Runs -/

theorem along_exact_iff : ∀ (calls : List Call) {s : ScmSt} {bs : List Blk}, HeapRepr s bs → Exact s →
    Along EnoughSpace s calls → (Along LeavesExact s calls ↔ Along (fun s c => ¬ Recycles s c) s calls) := by
  intro calls
  induction calls with
  | nil => exact fun _ _ _ => Iff.rfl
  | cons c calls ih =>
    intro s bs h hex hroom
    obtain ⟨a, s', bs', hcall, hrepr, hiff⟩ := h.step_exact hex hroom.1
    have hrest : Exact s' → (Along LeavesExact s' calls ↔ Along (fun s c => ¬ Recycles s c) s' calls) :=
      fun he => ih hrepr he (hroom.2 a s' hcall)
    constructor
    · rintro ⟨⟨a₁, s₁, h₁, he⟩, hall⟩
      rw [hcall] at h₁
      cases h₁
      refine ⟨hiff.mp he, ?_⟩
      intro a₂ s₂ h₂
      rw [hcall] at h₂
      cases h₂
      exact (hrest he).mp (hall a s' hcall)
    · rintro ⟨hno, hall⟩
      have he := hiff.mpr hno
      refine ⟨⟨a, s', hcall, he⟩, ?_⟩
      intro a₂ s₂ h₂
      rw [hcall] at h₂
      cases h₂
      exact (hrest he).mpr (hall a s' hcall)

theorem exact_open (size : Nat) (hs : vmStart + size < 2 ^ 64) (file : Mem) (hsize : 24 ≤ size) :
    Exact (scmOpen size hs file true) := by
  rw [(open_ok size hs file hsize).exact_iff, open_truncate]
  rfl

/-- In a run of any calls with enough space, on a truncated region, the counter is exact at
    the start and after every call iff no call hands out or frees a free block of non-zero
    size. -/
theorem utilised_exact_iff (size : Nat) (hs : vmStart + size < 2 ^ 64) (file : Mem) (hsize : 24 ≤ size)
    (calls : List Call) (hroom : Along EnoughSpace (scmOpen size hs file true) calls) :
    (Exact (scmOpen size hs file true) ∧ Along LeavesExact (scmOpen size hs file true) calls) ↔
      Along (fun s c => ¬ Recycles s c) (scmOpen size hs file true) calls := by
  have hex := exact_open size hs file hsize
  rw [← along_exact_iff calls (open_ok size hs file hsize) hex hroom]
  exact ⟨And.right, fun h => ⟨hex, h⟩⟩

/-- 4096 zero bytes, opened. -/
def page : ScmSt := scmOpen 4096 (by decide) ⟨fun _ => 0⟩ true

/-- Freeing what was never allocated leaves the counter exact. -/
theorem utilised_exact_iff_foreign : Exact page ∧ Along LeavesExact page [.free 7] := by
  have hopen : HeapRepr page [] := open_ok 4096 (by decide) ⟨fun _ => 0⟩ (by decide)
  refine (utilised_exact_iff 4096 (by decide) ⟨fun _ => 0⟩ (by decide) [.free 7] ⟨trivial, fun _ _ _ => trivial⟩).mpr ?_
  refine ⟨?_, fun _ _ _ => trivial⟩
  rintro ⟨ha, -⟩
  have hno : scmAllocatedAddr page 7 = .ok false := hopen.allocated 7
  rw [page] at hno
  rw [hno] at ha
  cases ha

/-- Where the first block of `page` goes. -/
def firstAddr : Nat := base + 16

/-- The heap of `page` with one block of 40 bytes. -/
theorem page_malloc : ∃ s, Scm.call page (.malloc 40) = .ok (some firstAddr, s) ∧ HeapRepr s [⟨firstAddr, 40, true⟩] := by
  have hopen : HeapRepr page [] := open_ok 4096 (by decide) ⟨fun _ => 0⟩ (by decide)
  have hused : page.usedBytes = 0 := by rw [page, open_truncate]
  have hfit : Fits page 40 := by
    rw [Fits, hused, page, open_truncate]
    decide
  obtain ⟨s, hm, hr, -⟩ := malloc_new hopen (n := 40) rfl hfit
  rw [hused] at hm hr
  exact ⟨s, by simp only [Scm.call, hm]; rfl, hr⟩

/-- 40 bytes are allocated, freed and allocated again: 40 bytes are in use, and the counter
    says that none is. -/
theorem a_recycled_block_is_not_counted : ¬ ∀ (size : Nat) (hs : vmStart + size < 2 ^ 64) (file : Mem), 24 ≤ size →
    ∀ calls : List Call, Along EnoughSpace (scmOpen size hs file true) calls →
      Exact (scmOpen size hs file true) ∧ Along LeavesExact (scmOpen size hs file true) calls := by
  intro hall
  obtain ⟨s₁, h₁, r₁⟩ := page_malloc
  have hopen : HeapRepr page [] := open_ok 4096 (by decide) ⟨fun _ => 0⟩ (by decide)
  have hfit : Fits page 40 := by
    rw [Fits, page, open_truncate]
    decide
  obtain ⟨s₂, hf, r₂, -⟩ := free_block r₁ List.mem_cons_self
  have h₂ : Scm.call s₁ (.free firstAddr) = .ok (none, s₂) := by simp only [Scm.call, hf]; rfl
  have hfind : findFree s₂.mem 40 (scmMbase s₂ + s₂.usedBytes) (s₂.usedBytes + 1) (scmMbase s₂) =
      .ok (some firstAddr) := r₂.findFree
  have hroom : Along EnoughSpace page [.malloc 40, .free firstAddr, .malloc 40] := by
    refine ⟨Or.inr hfit, ?_⟩
    intro a s h
    rw [h₁] at h
    cases h
    refine ⟨trivial, ?_⟩
    intro a s h
    rw [h₂] at h
    cases h
    exact ⟨Or.inl ⟨_, hfind⟩, fun _ _ _ => trivial⟩
  have hex := exact_open 4096 (by decide) ⟨fun _ => 0⟩ (by decide)
  have hgood := (along_exact_iff _ hopen hex hroom).mp (hall 4096 (by decide) ⟨fun _ => 0⟩ (by decide) _ hroom).2
  have hlast := ((hgood.2 _ _ h₁).2 _ _ h₂).1
  refine hlast ⟨firstAddr, hfind, ?_⟩
  rw [(r₂.headers ⟨firstAddr, 40, false⟩ List.mem_cons_self).2]
  decide

end Cs238p.Scm
