/-
  Cs238p.Scm.Runs — runs of the allocator: `scm_malloc`, `scm_strdup`, `scm_free` of any
  pointer, and clients that write inside the blocks they hold.

  `Reach s bs`: the state after a run, with the blocks created so far in the order of their
  creation and what the calls said of them (`note`): a pointer that `scm_malloc` answers is
  a block it answered before, or a new one; a block is in use from then until it is freed.

  Proved over every run in which new blocks fit the region (`heap_stays_well_formed`): the
  walk over the headers visits exactly these blocks and ends at the `used_bytes` mark, and
  what each call answers, changes and leaves alone (`Handed`, `Released`).
-/
import Cs238p.Scm.Heap

namespace Cs238p.Scm

open ByteMemory Arena

/-- The blocks after `p` was answered for a request of `n` bytes. -/
def note (bs : List Blk) (p n : Nat) : List Blk :=
  if p ∈ bs.map Blk.addr then mark p true bs else bs ++ [⟨p, n, true⟩]

inductive Reach (size : Nat) (hs : vmStart + size < 2 ^ 64) (file : Mem) : ScmSt → List Blk → Prop
  | start : Reach size hs file (scmOpen size hs file true) []
  | malloc {s s' : ScmSt} {bs : List Blk} {n p : Nat} : Reach size hs file s bs →
      (p ∉ bs.map Blk.addr → Fits s n) → scmMalloc s n = .ok (p, s') → Reach size hs file s' (note bs p n)
  | strdup {s : ScmSt} {bs : List Blk} (str : List UInt8) : Reach size hs file s bs → Fits s (str.length + 1) →
      Reach size hs file (scmStrdup s str).2 (note bs (scmStrdup s str).1 (str.length + 1))
  | free {s s' : ScmSt} {bs : List Blk} {p : Nat} : Reach size hs file s bs → scmFree s p = .ok s' →
      Reach size hs file s' (mark p false bs)
  | write {s : ScmSt} {bs : List Blk} {b : Blk} {a : Nat} {xs : List UInt8} : Reach size hs file s bs → b ∈ bs →
      b.inUse = true → b.addr ≤ a → a + xs.length ≤ b.addr + b.size →
      Reach size hs file { s with mem := s.mem.write a xs } bs

/-- The addresses that the loops of `scm_malloc` and `scm_allocated_addr` visit when
    nothing stops them, and where they end. -/
def walkFrom (m : Mem) (stop : Nat) : Nat → Nat → Except Stop (List Nat × Nat)
  | 0, _ => .error .fuel
  | fuel + 1, addr =>
    if addr < stop then
      match walkFrom m stop fuel (addr + sizeAt m addr + 16) with
      | .error e => .error e
      | .ok (as, last) => .ok (addr :: as, last)
    else .ok ([], addr)

def walk (s : ScmSt) : Except Stop (List Nat × Nat) :=
  walkFrom s.mem (scmMbase s + s.usedBytes) (s.usedBytes + 1) (scmMbase s)

variable {s s' : ScmSt} {bs : List Blk} {b : Blk} {m : Mem} {p q n : Nat}

theorem walkFrom_eq (t : Tiles 16 p bs q) (hm : ∀ b ∈ bs, sizeAt m b.addr = b.size) :
    ∀ fuel, bs.length < fuel → walkFrom m (q + 16) fuel (p + 16) = .ok (bs.map Blk.addr, q + 16) := by
  induction t with
  | nil p =>
    intro fuel hf
    obtain ⟨fuel, rfl⟩ : ∃ k, fuel = k + 1 := ⟨fuel - 1, by omega⟩
    simp [walkFrom]
  | @cons p q b bs hb t ih =>
    intro fuel hf
    obtain ⟨fuel, rfl⟩ : ∃ k, fuel = k + 1 := ⟨fuel - 1, by omega⟩
    have hs := hm b List.mem_cons_self
    have hle := t.le
    have hih := ih (fun c hc => hm c (List.mem_cons_of_mem _ hc)) fuel (by simp only [List.length_cons] at hf; omega)
    unfold walkFrom
    rw [← hb, if_pos (by omega), hs, hih]
    rfl

theorem HeapRepr.walk (h : HeapRepr s bs) : walk s = .ok (bs.map Blk.addr, scmMbase s + s.usedBytes) := by
  unfold Scm.walk scmMbase
  by_cases h0 : s.usedBytes = 0
  · rw [if_neg (not_not_intro h0), h0, h.eq_nil h0]
    simp [walkFrom]
  · have hlen := tiles_length h.tiles
    rw [if_pos h0, show base + 16 + s.usedBytes = base + s.usedBytes + 16 by omega]
    exact walkFrom_eq h.tiles (fun b hb => (h.headers b hb).2) _ (by omega)

/-- The address past the mark is no block's. -/
theorem HeapRepr.fresh (h : HeapRepr s bs) : base + s.usedBytes + 16 ∉ bs.map Blk.addr := by
  intro hmem
  obtain ⟨b, hb, e⟩ := List.mem_map.mp hmem
  have := h.end_le hb
  omega

theorem note_old (hb : b ∈ bs) (n : Nat) : note bs b.addr n = mark b.addr true bs := if_pos (List.mem_map_of_mem hb)

theorem note_new (hp : p ∉ bs.map Blk.addr) (n : Nat) : note bs p n = bs ++ [⟨p, n, true⟩] := if_neg hp

/-! ## What a call answers -/

/-- `p` has been answered for `n` bytes: no block that was in use, large enough, apart from
    all other blocks and all headers; nothing was done to the blocks there were. -/
structure Handed (s s' : ScmSt) (bs : List Blk) (n p : Nat) : Prop where
  unused : ∀ b ∈ bs, b.addr = p → b.inUse = false
  block : ∃ b ∈ note bs p n, b.addr = p ∧ n ≤ b.size ∧ b.inUse = true ∧ vmStart + 24 ≤ p - 16 ∧
    ∀ c ∈ note bs p n, c.addr ≠ p → b.addr + b.size + 16 ≤ c.addr ∨ c.addr + c.size + 16 ≤ b.addr
  contents : Kept s.mem s'.mem bs
  sizes : ∀ b ∈ bs, sizeAt s'.mem b.addr = sizeAt s.mem b.addr
  repr : HeapRepr s' (note bs p n)

/-- `p` has been given to `scm_free`. -/
structure Released (s s' : ScmSt) (bs : List Blk) (p : Nat) : Prop where
  foreign : p ∉ bs.map Blk.addr → s' = s
  used : s'.usedBytes = s.usedBytes
  contents : Kept s.mem s'.mem bs
  sizes : ∀ b ∈ bs, sizeAt s'.mem b.addr = sizeAt s.mem b.addr
  repr : HeapRepr s' (mark p false bs)

/-- Sizes are in the headers, before and after. -/
theorem sizes_mark {u : Bool} (h : HeapRepr s bs) (h' : HeapRepr s' (mark p u bs)) :
    ∀ b ∈ bs, sizeAt s'.mem b.addr = sizeAt s.mem b.addr := by
  intro b hb
  rw [(h.headers b hb).2]
  have hm : (if b.addr = p then { b with inUse := u } else b) ∈ mark p u bs := mem_mark.mpr ⟨b, hb, rfl⟩
  have := (h'.headers _ hm).2
  by_cases e : b.addr = p
  · rw [if_pos e] at this; exact this
  · rw [if_neg e] at this; exact this

theorem handed_old (h : HeapRepr s bs) (hb : b ∈ bs) (hu : b.inUse = false) (hn : n ≤ b.size)
    (h' : HeapRepr s' (mark b.addr true bs)) (hk : Kept s.mem s'.mem bs) : Handed s s' bs n b.addr := by
  have hbase := h.base_le hb
  have hself : { b with inUse := true } ∈ mark b.addr true bs := mem_mark.mpr ⟨b, hb, by rw [if_pos rfl]⟩
  refine ⟨?_, ⟨{ b with inUse := true }, ?_, rfl, hn, rfl, ?_, ?_⟩, hk, sizes_mark h h',
    ?_⟩
  · intro c hc he
    rw [h.tiles.eq_of_addr (by decide) hc hb he]; exact hu
  · rw [note_old hb]; exact hself
  · simp only [base] at hbase; omega
  · intro c hc hne
    rw [note_old hb] at hc
    exact h'.tiles.apart hself hc (fun e => hne e.symm)
  · rw [note_old hb]; exact h'

theorem handed_new (h : HeapRepr s bs) (h' : HeapRepr s' (bs ++ [⟨base + s.usedBytes + 16, n, true⟩]))
    (hk : Kept s.mem s'.mem bs) : Handed s s' bs n (base + s.usedBytes + 16) := by
  have hfresh := h.fresh
  have hself : (⟨base + s.usedBytes + 16, n, true⟩ : Blk) ∈ bs ++ [⟨base + s.usedBytes + 16, n, true⟩] :=
    List.mem_append_right _ (List.mem_singleton.mpr rfl)
  refine ⟨fun c hc he => absurd (List.mem_map.mpr ⟨c, hc, he⟩) hfresh,
    ⟨⟨base + s.usedBytes + 16, n, true⟩, ?_, rfl, Nat.le_refl n, rfl, ?_, ?_⟩, hk, ?_, ?_⟩
  · rw [note_new hfresh]; exact hself
  · simp only [base]; omega
  · intro c hc hne
    rw [note_new hfresh] at hc
    exact h'.tiles.apart hself hc (fun e => hne e.symm)
  · intro c hc
    rw [(h.headers c hc).2]; exact (h'.headers c (List.mem_append_left _ hc)).2
  · rw [note_new hfresh]; exact h'

/-- `scm_malloc` adds to the used bytes only when no free block is large enough. -/
theorem malloc_handed (h : HeapRepr s bs) (hfit : firstFit n bs = none → Fits s n) :
    ∃ p s', scmMalloc s n = .ok (p, s') ∧ Handed s s' bs n p ∧
      (s'.usedBytes ≠ s.usedBytes → ∀ b ∈ bs, b.inUse = false → ¬ n ≤ b.size) := by
  cases hf : firstFit n bs with
  | some b =>
    obtain ⟨hb, hu, hn⟩ := firstFit_some hf
    obtain ⟨s', hm, hr, hk, -, hused, -⟩ := malloc_reuse h hf
    exact ⟨_, s', hm, handed_old h hb hu hn hr hk, fun hne => absurd hused hne⟩
  | none =>
    obtain ⟨s', hm, hr, hk, -⟩ := malloc_new h hf (hfit hf)
    exact ⟨_, s', hm, handed_new h hr hk, fun _ => firstFit_none hf⟩

theorem strdup_handed (h : HeapRepr s bs) (str : List UInt8) (hfit : Fits s (str.length + 1)) :
    Handed s (scmStrdup s str).2 bs (str.length + 1) (scmStrdup s str).1 ∧
      (scmStrdup s str).2.mem.read (scmStrdup s str).1 (str.length + 1) = str ++ [0] := by
  obtain ⟨s', he, hr, hk, hread, -⟩ := strdup_ok h str hfit
  rw [he]
  exact ⟨handed_new h hr hk, hread⟩

theorem free_released (h : HeapRepr s bs) (p : Nat) : ∃ s', scmFree s p = .ok s' ∧ Released s s' bs p := by
  by_cases hp : p ∈ bs.map Blk.addr
  · obtain ⟨b, hb, rfl⟩ := List.mem_map.mp hp
    obtain ⟨s', hf, hr, hk, -, hused, -⟩ := free_block h hb
    exact ⟨s', hf, fun hn => absurd hp hn, hused, hk, sizes_mark h hr, hr⟩
  · have hne : ∀ b ∈ bs, b.addr ≠ p := fun b hb e => hp (List.mem_map.mpr ⟨b, hb, e⟩)
    exact ⟨s, free_foreign h hne, fun _ => rfl, rfl, fun _ _ => rfl,
      fun _ _ => rfl, by rw [mark_of_not_mem hne]; exact h⟩

/-- Without a free block that is large enough the answer is past the mark. -/
theorem malloc_fresh (h : HeapRepr s bs) (hf : firstFit n bs = none) (hm : scmMalloc s n = .ok (p, s')) :
    p = base + s.usedBytes + 16 := by
  unfold scmMalloc at hm
  rw [h.findFree, hf] at hm
  simp only [Option.map_none] at hm
  split at hm
  · cases hm
  · cases hm; rfl

/-! ## Runs -/

variable {size : Nat} {hs : vmStart + size < 2 ^ 64} {file : Mem}

theorem Reach.repr (hfit : 24 ≤ size) (h : Reach size hs file s bs) : HeapRepr s bs := by
  induction h with
  | start => exact open_ok size hs file hfit
  | @malloc s s' bs n p _ hnew hm ih =>
    have hroom : firstFit n bs = none → Fits s n := by
      intro hf
      rw [malloc_fresh ih hf hm] at hnew
      exact hnew ih.fresh
    obtain ⟨_, _, he, hh, -⟩ := malloc_handed ih hroom
    rw [hm] at he
    cases he
    exact hh.repr
  | strdup str _ hf ih => exact (strdup_handed ih str hf).1.repr
  | @free s s' bs p _ hf ih =>
    obtain ⟨t, ht, hr⟩ := free_released ih p
    rw [hf] at ht
    cases ht
    exact hr.repr
  | write _ hb _ h1 h2 ih => exact (ih.write hb h1 h2).1

/-- Over any run of allocations, frees of any pointers and writes of clients to their own
    blocks, on a region opened with truncate. -/
theorem heap_stays_well_formed (size : Nat) (hs : vmStart + size < 2 ^ 64) (file : Mem) (hsize : 24 ≤ size) :
    ∀ s bs, Reach size hs file s bs →
      (walk s = .ok (bs.map Blk.addr, scmMbase s + s.usedBytes) ∧ Tiles 16 base bs (base + s.usedBytes) ∧
        ∀ b ∈ bs, inUseAt s.mem b.addr = (if b.inUse then 1 else 0) ∧ sizeAt s.mem b.addr = b.size) ∧
      (∀ n, (firstFit n bs = none → Fits s n) → ∃ p s', scmMalloc s n = .ok (p, s') ∧ Handed s s' bs n p ∧
        (s'.usedBytes ≠ s.usedBytes → ∀ b ∈ bs, b.inUse = false → ¬ n ≤ b.size)) ∧
      (∀ str, Fits s (str.length + 1) →
        Handed s (scmStrdup s str).2 bs (str.length + 1) (scmStrdup s str).1 ∧
        (scmStrdup s str).2.mem.read (scmStrdup s str).1 (str.length + 1) = str ++ [0]) ∧
      (∀ p, ∃ s', scmFree s p = .ok s' ∧ Released s s' bs p) ∧
      (∀ b ∈ bs, ∀ a (xs : List UInt8), b.addr ≤ a → a + xs.length ≤ b.addr + b.size →
        ∀ c ∈ bs, c.addr ≠ b.addr → (s.mem.write a xs).read c.addr c.size = s.mem.read c.addr c.size) := by
  intro s bs h
  have hr := h.repr hsize
  exact ⟨⟨hr.walk, hr.tiles, hr.headers⟩, fun n hfit => malloc_handed hr hfit,
    fun str hfit => strdup_handed hr str hfit,
    fun p => free_released hr p, fun b hb a xs h1 h2 => (hr.write hb h1 h2).2⟩

theorem heap_stays_well_formed_two_blocks : ∃ s, s.usedBytes = 74 ∧
    walk s = .ok ([vmStart + 40, vmStart + 96], vmStart + 114) := by
  have h0 : Reach 4096 (by decide) ⟨fun _ => 0⟩ _ [] := .start
  have h1 := Reach.malloc h0 (fun _ => by decide)
    (show scmMalloc (scmOpen 4096 (by decide) ⟨fun _ => 0⟩ true) 40 = .ok (vmStart + 40, _) from rfl)
  have h2 := Reach.strdup [97] h1 (by decide)
  exact ⟨_, rfl, (heap_stays_well_formed 4096 (by decide) ⟨fun _ => 0⟩ (by decide) _ _ h2).1.1⟩

end Cs238p.Scm
