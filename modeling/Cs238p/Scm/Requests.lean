/-
  Cs238p.Scm.Requests — requests of any size, on a region that may be too small for them.

  `scm_malloc` compares `used_bytes + n + 16` with the size of the mapping: the 24 bytes of
  the region's header are left out, and the sum wraps at 2^64. `scm_strdup` compares
  nothing. So a block may end outside the mapping (`a_block_leaves_the_mapping`).

  Proved: a request stays inside the mapping, or is refused, exactly when a free block
  serves it, or a new one fits, or the sum as computed says that it does not
  (`HeapRepr.contained_iff`), and so for whole runs (`blocks_stay_inside_iff`).
-/
import Cs238p.Scm.Heap

namespace Cs238p.Scm

open ByteMemory Arena

/-! ## Requests -/

inductive Call where
  | malloc (n : Nat)
  | strdup (str : List UInt8)
  | free (p : Nat)
  deriving DecidableEq, Repr

/-- Sizes are `size_t`, that of a string with its NUL too. -/
def Call.Valid : Call → Prop
  | .malloc n => n < 2 ^ 64
  | .strdup str => str.length + 1 < 2 ^ 64
  | .free _ => True

/-- One call, with the pointer that it answers. -/
def call (s : ScmSt) : Call → Except Stop (Option Nat × ScmSt)
  | .malloc n => (scmMalloc s n).map fun (p, s) => (some p, s)
  | .strdup str => let (p, s) := scmStrdup s str; .ok (some p, s)
  | .free p => (scmFree s p).map fun s => (none, s)

/-- Every call of the run meets `P` in the state it is made in. -/
def Along (P : ScmSt → Call → Prop) (s : ScmSt) : List Call → Prop
  | [] => True
  | c :: cs => P s c ∧ ∀ a s', call s c = .ok (a, s') → Along P s' cs

/-- The block at `p` lies inside the mapping, with its header. -/
def Within (s : ScmSt) (p : Nat) : Prop := vmStart ≤ p - 16 ∧ p + sizeAt s.mem p ≤ vmStart + s.size

/-- The call answers a block inside the mapping, or refuses before it writes anything. -/
def Contained (s : ScmSt) (c : Call) : Prop :=
  match call s c with
  | .ok (some p, s') => Within s' p
  | .ok (none, _) => True
  | .error e => e = .exit

/-- The loop of `scm_malloc` finds a free block. -/
def HasFree (s : ScmSt) (n : Nat) : Prop :=
  ∃ p, findFree s.mem n (scmMbase s + s.usedBytes) (s.usedBytes + 1) (scmMbase s) = .ok (some p)

/-- A free block serves the request, or a new one fits, or the sum of `scm_malloc` is over
    the size of the mapping. -/
def Roomy (s : ScmSt) : Call → Prop
  | .malloc n => HasFree s n ∨ Fits s n ∨ (s.usedBytes + n + 16) % 2 ^ 64 > s.size
  | .strdup str => Fits s (str.length + 1)
  | .free _ => True

variable {s s' : ScmSt} {bs : List Blk} {b : Blk} {m : Mem} {n p : Nat} {c : Call} {a : Option Nat}

/-! ## One request -/

/-- The size that the header of a new block records. -/
theorem sizeAt_extend (hn : m.load (base + s.usedBytes + 8) 8 = n) :
    sizeAt (extend s n m).mem (base + s.usedBytes + 16) = n := by
  refine (Mem.load_congr (Mem.read_congr fun x hx _ => ?_)).trans hn
  exact setInfo_byte (by omega)

/-- A new block is inside the mapping when it fits. -/
theorem within_extend (hn : m.load (base + s.usedBytes + 8) 8 = n) :
    Within (extend s n m) (base + s.usedBytes + 16) ↔ Fits s n := by
  have hsize : (extend s n m).size = s.size := rfl
  unfold Within Fits
  rw [sizeAt_extend hn, hsize]
  simp only [base]
  omega

/-- Every block there is lies inside the mapping. -/
theorem HeapRepr.within (h : HeapRepr s bs) (hp : p ∈ bs.map Blk.addr) : Within s p := by
  obtain ⟨b, hb, rfl⟩ := List.mem_map.mp hp
  have hle := h.base_le hb
  have hend := h.end_le hb
  have hfits := h.fits
  unfold Within
  rw [(h.headers b hb).2]
  simp only [base] at hle hend
  omega

theorem HeapRepr.hasFree_iff (h : HeapRepr s bs) : HasFree s n ↔ ∃ b, firstFit n bs = some b := by
  unfold HasFree
  rw [h.findFree]
  cases hf : firstFit n bs with
  | none => simp
  | some b => simp

/-- `scm_malloc` when no free block is large enough. -/
theorem malloc_past (h : HeapRepr s bs) (hf : firstFit n bs = none) :
    scmMalloc s n = if (s.usedBytes + n + 16) % 2 ^ 64 > s.size then .error .exit else
      .ok (base + s.usedBytes + 16,
        extend s n ((s.mem.store (base + s.usedBytes) 8 1).store (base + s.usedBytes + 8) 8 n)) := by
  unfold scmMalloc
  rw [h.findFree, hf]
  rfl

theorem free_ok (h : HeapRepr s bs) (p : Nat) : ∃ s', scmFree s p = .ok s' := by
  unfold scmFree
  rw [h.allocated]
  cases decide (p ∈ bs.map Blk.addr) with
  | false => exact ⟨_, rfl⟩
  | true => exact ⟨_, rfl⟩

/-- What a request needs to stay inside the mapping. -/
theorem HeapRepr.contained_iff (h : HeapRepr s bs) (hv : c.Valid) : Contained s c ↔ Roomy s c := by
  cases c with
  | malloc n =>
    simp only [Contained, Roomy, Scm.call]
    rw [h.hasFree_iff]
    rcases hf : firstFit n bs with _ | b
    · rw [malloc_past h hf]
      by_cases hover : (s.usedBytes + n + 16) % 2 ^ 64 > s.size
      · rw [if_pos hover]
        exact ⟨fun _ => Or.inr (Or.inr hover), fun _ => rfl⟩
      · rw [if_neg hover]
        simp only [Except.map, hover, or_false, reduceCtorEq, exists_false, false_or]
        exact within_extend (Mem.load_store hv)
    · obtain ⟨s', hm, hr, -⟩ := malloc_reuse h hf
      rw [hm]
      have haddr : b.addr ∈ (Arena.mark b.addr true bs).map Blk.addr := by
        rw [map_addr_mark]
        exact List.mem_map_of_mem (firstFit_some hf).1
      exact ⟨fun _ => Or.inl ⟨b, rfl⟩, fun _ => hr.within haddr⟩
  | strdup str =>
    refine within_extend ?_
    have hout : ∀ x, x < base + s.usedBytes + 16 →
        (((s.mem.store (base + s.usedBytes) 8 1).store (base + s.usedBytes + 8) 8 (str.length + 1)).write
          (base + s.usedBytes + 16) (str ++ [0])).byte x =
        ((s.mem.store (base + s.usedBytes) 8 1).store (base + s.usedBytes + 8) 8 (str.length + 1)).byte x :=
      fun x hx => Mem.byte_write_out (Or.inl hx)
    exact (Mem.load_congr (Mem.read_congr fun x _ h2 => hout x (by omega))).trans (Mem.load_store hv)
  | free p =>
    obtain ⟨s', hs'⟩ := free_ok h p
    simp only [Contained, Roomy, Scm.call, hs', Except.map]

/-- A request that stays inside the mapping keeps the heap. -/
theorem HeapRepr.call (h : HeapRepr s bs) (hr : Roomy s c) (hc : call s c = .ok (a, s')) :
    ∃ bs', HeapRepr s' bs' := by
  cases c with
  | malloc n =>
    simp only [Scm.call] at hc
    rcases hf : firstFit n bs with _ | b
    · rw [malloc_past h hf] at hc
      by_cases hover : (s.usedBytes + n + 16) % 2 ^ 64 > s.size
      · rw [if_pos hover] at hc
        cases hc
      · have hfit : Fits s n := by
          rcases hr with hfree | hfit | hgt
          · obtain ⟨b, hb⟩ := h.hasFree_iff.mp hfree
            rw [hf] at hb
            cases hb
          · exact hfit
          · exact absurd hgt hover
        obtain ⟨s₁, hm, hrepr, -⟩ := malloc_new h hf hfit
        rw [malloc_past h hf, if_neg hover] at hm
        rw [if_neg hover, hm] at hc
        cases hc
        exact ⟨_, hrepr⟩
    · obtain ⟨s₁, hm, hrepr, -⟩ := malloc_reuse h hf
      rw [hm] at hc
      cases hc
      exact ⟨_, hrepr⟩
  | strdup str =>
    obtain ⟨s₁, he, hrepr, -⟩ := strdup_ok h str hr
    simp only [Scm.call] at hc
    rw [he] at hc
    cases hc
    exact ⟨_, hrepr⟩
  | free p =>
    simp only [Scm.call] at hc
    by_cases hp : p ∈ bs.map Blk.addr
    · obtain ⟨b, hb, rfl⟩ := List.mem_map.mp hp
      obtain ⟨s₁, hf, hrepr, -⟩ := free_block h hb
      rw [hf] at hc
      cases hc
      exact ⟨_, hrepr⟩
    · rw [free_foreign h fun b hb e => hp (List.mem_map.mpr ⟨b, hb, e⟩)] at hc
      cases hc
      exact ⟨_, h⟩

/-! ## Runs -/

theorem along_contained_iff : ∀ (calls : List Call) {s : ScmSt} {bs : List Blk}, HeapRepr s bs →
    (∀ c ∈ calls, c.Valid) → (Along Contained s calls ↔ Along Roomy s calls) := by
  intro calls
  induction calls with
  | nil => exact fun _ _ => Iff.rfl
  | cons c calls ih =>
    intro s bs h hv
    have hc := h.contained_iff (hv c List.mem_cons_self)
    have hrest : Roomy s c → ∀ a s', call s c = .ok (a, s') →
        (Along Contained s' calls ↔ Along Roomy s' calls) := by
      intro hr a s' hcall
      obtain ⟨bs', h'⟩ := h.call hr hcall
      exact ih h' fun d hd => hv d (List.mem_cons_of_mem _ hd)
    constructor
    · intro h1
      have hr := hc.mp h1.1
      exact ⟨hr, fun a s' hs => (hrest hr a s' hs).mp (h1.2 a s' hs)⟩
    · intro h1
      exact ⟨hc.mpr h1.1, fun a s' hs => (hrest h1.1 a s' hs).mpr (h1.2 a s' hs)⟩

/-- In a run of any calls on a truncated region every block answered lies inside the
    mapping, and what does not fit is refused, iff every request is served by a free block,
    fits, or is over the mapping's size as `scm_malloc` adds it up. -/
theorem blocks_stay_inside_iff (size : Nat) (hs : vmStart + size < 2 ^ 64) (file : Mem) (hsize : 24 ≤ size)
    (calls : List Call) (hv : ∀ c ∈ calls, c.Valid) :
    Along Contained (scmOpen size hs file true) calls ↔ Along Roomy (scmOpen size hs file true) calls :=
  along_contained_iff calls (open_ok size hs file hsize) hv

/-- 4056 bytes are all that a page has room for. -/
theorem blocks_stay_inside_iff_full_page :
    Along Contained (scmOpen 4096 (by decide) ⟨fun _ => 0⟩ true) [.malloc 4056] := by
  refine (blocks_stay_inside_iff 4096 (by decide) ⟨fun _ => 0⟩ (by decide) [.malloc 4056] ?_).mpr ?_
  · simp [Call.Valid]
  · refine ⟨Or.inr (Or.inl ?_), fun _ _ _ => trivial⟩
    rw [open_truncate]
    show 24 + 0 + 16 + 4056 ≤ 4096
    decide

/-- 4080 bytes and a header are a page, but the region's header is in the page too. -/
theorem a_block_leaves_the_mapping : ¬ ∀ (size : Nat) (hs : vmStart + size < 2 ^ 64) (file : Mem), 24 ≤ size →
    ∀ calls : List Call, (∀ c ∈ calls, c.Valid) → Along Contained (scmOpen size hs file true) calls := by
  intro hall
  have hv : ∀ c ∈ [Call.malloc 4080], c.Valid := by simp [Call.Valid]
  have hopen := open_ok 4096 (by decide) ⟨fun _ => 0⟩ (by decide)
  obtain ⟨hr, -⟩ := (along_contained_iff _ hopen hv).mp (hall 4096 (by decide) ⟨fun _ => 0⟩ (by decide) _ hv)
  rw [Roomy, hopen.hasFree_iff, open_truncate] at hr
  rcases hr with ⟨b, hb⟩ | hfit | hgt
  · cases hb
  · exact absurd (show 24 + 0 + 16 + 4080 ≤ 4096 from hfit) (by decide)
  · exact absurd (show (0 + 4080 + 16) % 2 ^ 64 > 4096 from hgt) (by decide)

end Cs238p.Scm
