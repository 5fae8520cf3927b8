/-
  Cs238p.Scm.Owned — the allocator as its clients see it.

  `Holds s F`: the blocks in use are exactly the cells `F`, each at least as large as was
  asked for. Cells that are held are separated and lie in the mapping; `scm_malloc` and
  `scm_strdup` add one, `scm_free` takes one away, a client that writes inside cells it
  holds keeps the heap, and none of them changes the bytes of the other cells.
-/
import Cs238p.Lib.Frames
import Cs238p.Scm.Heap
import Mathlib.Algebra.Order.BigOperators.Group.Multiset

namespace Cs238p.Scm

open ByteMemory Arena

/-- The addresses of the blocks in use. -/
def inUse (bs : List Blk) : Multiset Nat := ((bs.filter fun b => b.inUse).map Blk.addr : List Nat)

def Holds (s : ScmSt) (F : Multiset Cell) : Prop :=
  ∃ bs, HeapRepr s bs ∧ F.map Prod.fst = inUse bs ∧ ∀ e ∈ F, ∃ b ∈ bs, b.addr = e.1 ∧ e.2 ≤ b.size

variable {s s' : ScmSt} {bs : List Blk} {b : Blk} {F G : Multiset Cell} {e : Cell} {m' : Mem} {n p : Nat}

/-! ## Cells that are held -/

theorem nodup_inUse (h : HeapRepr s bs) : (inUse bs).Nodup := by
  have hpw : (bs.filter fun b => b.inUse).Pairwise fun b c => b.addr ≠ c.addr :=
    (h.tiles.pairwise.sublist List.filter_sublist).imp fun hlt => by omega
  exact Multiset.coe_nodup.mpr (List.pairwise_map.mpr hpw)

theorem Holds.sep (h : Holds s F) : Sep F := by
  obtain ⟨bs, hr, hF, hblk⟩ := h
  have hnodup : (F.map Prod.fst).Nodup := hF ▸ nodup_inUse hr
  refine Multiset.Nodup.pairwise ?_ hnodup.of_map
  intro e he f hf hne
  obtain ⟨b, hb, hbe, hbn⟩ := hblk e he
  obtain ⟨c, hc, hcf, hcn⟩ := hblk f hf
  have hne' : b.addr ≠ c.addr := by
    rw [hbe, hcf]
    exact fun h1 => hne (Multiset.inj_on_of_nodup_map hnodup e he f hf h1)
  unfold Apart
  rcases hr.tiles.apart hb hc hne' with ha | ha <;> omega

theorem Holds.bounds (h : Holds s F) (he : e ∈ F) : base + 16 ≤ e.1 ∧ e.1 + e.2 ≤ base + s.usedBytes := by
  obtain ⟨bs, hr, -, hblk⟩ := h
  obtain ⟨b, hb, hbe, hbn⟩ := hblk e he
  have h1 := hr.base_le hb
  have h2 := hr.end_le hb
  omega

theorem Holds.used_lt (h : Holds s F) : base + s.usedBytes < 2 ^ 64 := by
  obtain ⟨bs, hr, -, -⟩ := h
  exact hr.used_lt

/-- The cells, each with a header, fit into what is used of the region. -/
theorem Holds.sum_le (h : Holds s F) : (F.map fun e => 16 + e.2).sum ≤ s.usedBytes := by
  obtain ⟨bs, hr, hF, hblk⟩ := h
  have hsize : ∀ e ∈ F, 16 + e.2 ≤ 16 + sizeAt s.mem e.1 := by
    intro e he
    obtain ⟨b, hb, hbe, hle⟩ := hblk e he
    rw [← hbe, (hr.headers b hb).2]
    omega
  have hused : ((inUse bs).map fun p => 16 + sizeAt s.mem p).sum ≤ (bs.map fun b => 16 + b.size).sum := by
    rw [inUse, Multiset.map_coe, Multiset.sum_coe, List.map_map]
    have heq : (bs.filter fun b => b.inUse).map ((fun p => 16 + sizeAt s.mem p) ∘ Blk.addr) =
        (bs.filter fun b => b.inUse).map fun b => 16 + b.size :=
      List.map_congr_left fun b hb => by rw [Function.comp_apply, (hr.headers b (List.mem_of_mem_filter hb)).2]
    rw [heq]
    exact (List.filter_sublist.map _).sum_le_sum fun _ _ => Nat.zero_le _
  have htiles := hr.tiles.sum
  calc (F.map fun e => 16 + e.2).sum ≤ (F.map fun e => 16 + sizeAt s.mem e.1).sum :=
        Multiset.sum_map_le_sum_map _ _ hsize
    _ = ((inUse bs).map fun p => 16 + sizeAt s.mem p).sum := by rw [← hF, Multiset.map_map]; rfl
    _ ≤ s.usedBytes := by omega

/-- What keeps the contents of all blocks keeps the cells. -/
theorem agree_of_kept (hblk : ∀ e ∈ F, ∃ b ∈ bs, b.addr = e.1 ∧ e.2 ≤ b.size) (hk : Kept s.mem m' bs) :
    Agree F s.mem m' := by
  intro e he x h1 h2
  obtain ⟨b, hb, hbe, hbn⟩ := hblk e he
  exact Mem.byte_eq_of_read_eq (hk b hb) (by omega) (by omega)

/-! ## Writing -/

theorem Holds.within (h : Holds s F) (hw : Within F s.mem m') : Holds { s with mem := m' } F := by
  obtain ⟨bs, hr, hF, hblk⟩ := h
  refine ⟨bs, hr.withMem (fun b hb x h1 h2 => hw x ?_) (fun x hx => hw x ?_), hF, hblk⟩
  · intro e he
    obtain ⟨c, hc, hce, hcn⟩ := hblk e he
    have hlb := hr.base_le hb
    have hlc := hr.base_le hc
    by_cases heq : b.addr = c.addr
    · omega
    · rcases hr.tiles.apart hb hc heq with ha | ha <;> omega
  · intro e he
    obtain ⟨c, hc, hce, hcn⟩ := hblk e he
    have hlc := hr.base_le hc
    omega

/-! ## The calls -/

/-- One block of the list begins or ends to be in use. -/
theorem inUse_mid (l l' : List Blk) (b : Blk) :
    inUse (l ++ { b with inUse := true } :: l') = b.addr ::ₘ inUse (l ++ { b with inUse := false } :: l') := by
  simp [inUse, ← Multiset.coe_add, ← Multiset.cons_coe]

theorem mem_mark_size {a : Nat} {u : Bool} (he : ∃ b ∈ bs, b.addr = e.1 ∧ e.2 ≤ b.size) :
    ∃ b ∈ mark a u bs, b.addr = e.1 ∧ e.2 ≤ b.size := by
  obtain ⟨b, hb, hbe, hbn⟩ := he
  refine ⟨_, mem_mark.mpr ⟨b, hb, rfl⟩, ?_, ?_⟩
  · split <;> exact hbe
  · split <;> exact hbn

/-- A new block at the end is a new cell. -/
theorem holds_new (hr' : HeapRepr s' (bs ++ [⟨p, n, true⟩])) (hF : F.map Prod.fst = inUse bs)
    (hblk : ∀ e ∈ F, ∃ b ∈ bs, b.addr = e.1 ∧ e.2 ≤ b.size) : Holds s' ((p, n) ::ₘ F) := by
  refine ⟨_, hr', ?_, ?_⟩
  · rw [Multiset.map_cons, hF, ← Multiset.singleton_add, add_comm]
    simp [inUse, ← Multiset.coe_add]
  · intro e he
    rcases Multiset.mem_cons.mp he with rfl | he
    · exact ⟨_, List.mem_append_right _ (List.mem_singleton_self _), rfl, Nat.le_refl _⟩
    · obtain ⟨b, hb, hbe⟩ := hblk e he
      exact ⟨b, List.mem_append_left _ hb, hbe⟩

/-- `scm_malloc` ends the process, or makes a block that ends outside the mapping, or adds a
    cell. -/
theorem Holds.malloc (h : Holds s F) (n : Nat) : scmMalloc s n = .error .exit ∨ ∃ p s', scmMalloc s n = .ok (p, s') ∧
    s'.size = s.size ∧ (vmStart + s.size < p + n ∨ (Holds s' ((p, n) ::ₘ F) ∧ Agree F s.mem s'.mem)) := by
  obtain ⟨bs, hr, hF, hblk⟩ := h
  cases hf : firstFit n bs with
  | some b =>
    obtain ⟨hb, hu, hbn⟩ := firstFit_some hf
    obtain ⟨s', hm, hr', hk, hsize, -, -⟩ := malloc_reuse hr hf
    refine Or.inr ⟨_, s', hm, hsize, Or.inr ⟨⟨_, hr', ?_, ?_⟩, agree_of_kept hblk hk⟩⟩
    · obtain ⟨l, l', rfl⟩ := List.append_of_mem hb
      have hbe : ({ b with inUse := false } : Blk) = b := by rw [← hu]
      rw [hr.tiles.mark_mid (by decide), inUse_mid, hbe, Multiset.map_cons, hF]
    · intro e he
      rcases Multiset.mem_cons.mp he with rfl | he
      · exact mem_mark_size ⟨b, hb, rfl, hbn⟩
      · exact mem_mark_size (hblk e he)
  | none =>
    by_cases hfit : Fits s n
    · obtain ⟨s', hm, hr', hk, hsize, -, -⟩ := malloc_new hr hf hfit
      exact Or.inr ⟨_, s', hm, hsize, Or.inr ⟨holds_new hr' hF hblk, agree_of_kept hblk hk⟩⟩
    · unfold scmMalloc
      rw [hr.findFree, hf]
      simp only [Option.map_none]
      by_cases hsize : (s.usedBytes + n + 16) % 2 ^ 64 > s.size
      · rw [if_pos hsize]; exact Or.inl rfl
      · rw [if_neg hsize]
        refine Or.inr ⟨_, _, rfl, rfl, Or.inl ?_⟩
        simp only [Fits, base] at hfit ⊢; omega

/-- `scm_strdup` adds a cell with the string. -/
theorem Holds.strdup (h : Holds s F) (str : List UInt8) (hfit : Fits s (str.length + 1)) :
    ∃ p s', scmStrdup s str = (p, s') ∧ s'.size = s.size ∧ Holds s' ((p, str.length + 1) ::ₘ F) ∧
      Agree F s.mem s'.mem ∧ s'.mem.read p (str.length + 1) = str ++ [0] := by
  obtain ⟨bs, hr, hF, hblk⟩ := h
  obtain ⟨s', hd, hr', hk, hread, hsize, -, -⟩ := strdup_ok hr str hfit
  exact ⟨_, s', hd, hsize, holds_new hr' hF hblk, agree_of_kept hblk hk, hread⟩

/-- `scm_free` takes a cell away. -/
theorem Holds.free (h : Holds s ((p, n) ::ₘ F)) :
    ∃ s', scmFree s p = .ok s' ∧ s'.size = s.size ∧ Holds s' F ∧ Agree F s.mem s'.mem := by
  obtain ⟨bs, hr, hF, hblk⟩ := h
  have hmem : p ∈ inUse bs := by rw [← hF]; simp
  obtain ⟨b, hb, rfl⟩ := List.mem_map.mp (Multiset.mem_coe.mp hmem)
  obtain ⟨hb, hu⟩ := List.mem_filter.mp hb
  obtain ⟨s', hf, hr', hk, hsize, -, -⟩ := free_block hr hb
  have hblk' : ∀ e ∈ F, ∃ b ∈ bs, b.addr = e.1 ∧ e.2 ≤ b.size := fun e he => hblk e (Multiset.mem_cons_of_mem he)
  refine ⟨s', hf, hsize, ⟨_, hr', ?_, fun e he => mem_mark_size (hblk' e he)⟩, agree_of_kept hblk' hk⟩
  obtain ⟨l, l', rfl⟩ := List.append_of_mem hb
  have hbe : ({ b with inUse := true } : Blk) = b := by rw [← hu]
  have hcons : b.addr ::ₘ F.map Prod.fst = b.addr ::ₘ inUse (l ++ { b with inUse := false } :: l') := by
    rw [← inUse_mid, hbe, ← hF, Multiset.map_cons]
  rw [hr.tiles.mark_mid (by decide)]
  exact (Multiset.cons_inj_right _).mp hcons

/-- A region opened with truncate holds nothing. -/
theorem holds_open (size : Nat) (hs : vmStart + size < 2 ^ 64) (file : Mem) (hfit : 24 ≤ size) :
    Holds (scmOpen size hs file true) 0 :=
  ⟨[], open_ok size hs file hfit, rfl, fun _ he => absurd he (Multiset.notMem_zero _)⟩

end Cs238p.Scm
