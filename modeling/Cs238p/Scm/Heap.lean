/-
  Cs238p.Scm.Heap — the heap of `project-3/scm.c` is well formed.

  `HeapRepr s bs`: the region is cut into the blocks `bs`, from the region's header up to
  the `used_bytes` mark, and every block's header says its size and whether it is in use.
  One lemma for each call says what it does to `bs` and that it keeps the contents of the
  blocks: `scm_malloc` marks the first free block that is large enough or adds one at the
  end, `scm_strdup` adds one, `scm_free` marks a block or does nothing.
-/
import Cs238p.Lib.Arena
import Cs238p.Scm.Scm

namespace Cs238p.Scm

open ByteMemory Arena

structure HeapRepr (s : ScmSt) (bs : List Blk) : Prop where
  tiles : Tiles 16 base bs (base + s.usedBytes)
  headers : ∀ b ∈ bs, inUseAt s.mem b.addr = (if b.inUse then 1 else 0) ∧ sizeAt s.mem b.addr = b.size
  fits : 24 + s.usedBytes ≤ s.size
  user_lt : s.userBytes < 2 ^ 64
  info : s.mem.load (vmStart + 8) 8 = s.usedBytes ∧ s.mem.load (vmStart + 16) 8 = s.userBytes

variable {s : ScmSt} {bs : List Blk} {b c : Blk} {m m' : Mem} {p q n : Nat}

/-- A block starts past the region's header and its own. -/
theorem HeapRepr.base_le (h : HeapRepr s bs) (hb : b ∈ bs) : base + 16 ≤ b.addr := (h.tiles.bounds b hb).1

/-- A block ends at the mark at the latest. -/
theorem HeapRepr.end_le (h : HeapRepr s bs) (hb : b ∈ bs) : b.addr + b.size ≤ base + s.usedBytes :=
  (h.tiles.bounds b hb).2

theorem HeapRepr.used_lt (h : HeapRepr s bs) : base + s.usedBytes < 2 ^ 64 := by
  have := h.fits
  have := s.size_lt
  simp only [base]; omega

/-! ## The walk -/

/-- Every step of the walk passes a header. -/
theorem tiles_length (t : Tiles 16 p bs q) : p + 16 * bs.length ≤ q := by
  induction t with
  | nil => simp
  | cons hb _ ih => simp only [List.length_cons]; omega

theorem findFree_eq (t : Tiles 16 p bs q)
    (hm : ∀ b ∈ bs, inUseAt m b.addr = (if b.inUse then 1 else 0) ∧ sizeAt m b.addr = b.size) :
    ∀ fuel, bs.length < fuel → findFree m n (q + 16) fuel (p + 16) = .ok ((firstFit n bs).map Blk.addr) := by
  induction t with
  | nil p =>
    intro fuel hf
    obtain ⟨fuel, rfl⟩ : ∃ k, fuel = k + 1 := ⟨fuel - 1, by omega⟩
    simp [findFree, firstFit]
  | @cons p q b bs hb t ih =>
    intro fuel hf
    obtain ⟨fuel, rfl⟩ : ∃ k, fuel = k + 1 := ⟨fuel - 1, by omega⟩
    obtain ⟨hu, hs⟩ := hm b List.mem_cons_self
    have hle := t.le
    have hih := ih (fun c hc => hm c (List.mem_cons_of_mem _ hc)) fuel (by simp only [List.length_cons] at hf; omega)
    unfold findFree
    rw [← hb, if_pos (by omega), hu, hs]
    by_cases hfit : b.inUse = false ∧ n ≤ b.size
    · rw [if_pos ⟨by rw [hfit.1]; rfl, hfit.2⟩]
      simp [firstFit, hfit]
    · have hskip : ¬ ((if b.inUse = true then 1 else 0) = 0 ∧ n ≤ b.size) := by
        intro h
        obtain ⟨h0, hn⟩ := h
        refine hfit ⟨?_, hn⟩
        by_contra hne
        rw [Bool.not_eq_false] at hne
        rw [hne] at h0
        cases h0
      rw [if_neg hskip, hih]
      have hp : (!b.inUse && decide (n ≤ b.size)) = false := by
        by_contra hne
        rw [Bool.not_eq_false] at hne
        simp only [Bool.and_eq_true, Bool.not_eq_true', decide_eq_true_eq] at hne
        exact hfit hne
      rw [firstFit, firstFit, List.find?_cons_of_neg (by simpa using hp)]

theorem findAddr_eq {a : Nat} (t : Tiles 16 p bs q) (hm : ∀ b ∈ bs, sizeAt m b.addr = b.size) :
    ∀ fuel, bs.length < fuel → findAddr m a (q + 16) fuel (p + 16) = .ok (decide (a ∈ bs.map Blk.addr)) := by
  induction t with
  | nil p =>
    intro fuel hf
    obtain ⟨fuel, rfl⟩ : ∃ k, fuel = k + 1 := ⟨fuel - 1, by omega⟩
    simp [findAddr]
  | @cons p q b bs hb t ih =>
    intro fuel hf
    obtain ⟨fuel, rfl⟩ : ∃ k, fuel = k + 1 := ⟨fuel - 1, by omega⟩
    have hs := hm b List.mem_cons_self
    have hle := t.le
    have hih := ih (fun c hc => hm c (List.mem_cons_of_mem _ hc)) fuel (by simp only [List.length_cons] at hf; omega)
    unfold findAddr
    rw [← hb, if_pos (by omega), hs]
    by_cases ha : b.addr = a
    · rw [if_pos ha]; simp [ha]
    · rw [if_neg ha, hih]; simp [Ne.symm ha]

/-- With nothing allocated there is no block, and the walk is empty. -/
theorem HeapRepr.eq_nil (h : HeapRepr s bs) (h0 : s.usedBytes = 0) : bs = [] := by
  have := tiles_length h.tiles
  exact List.length_eq_zero_iff.mp (by omega)

theorem HeapRepr.findFree (h : HeapRepr s bs) :
    findFree s.mem n (scmMbase s + s.usedBytes) (s.usedBytes + 1) (scmMbase s) =
      .ok ((firstFit n bs).map Blk.addr) := by
  unfold scmMbase
  by_cases h0 : s.usedBytes = 0
  · rw [if_neg (not_not_intro h0), h0, h.eq_nil h0]
    simp [Scm.findFree, firstFit]
  · have hlen := tiles_length h.tiles
    rw [if_pos h0, show base + 16 + s.usedBytes = base + s.usedBytes + 16 by omega]
    exact findFree_eq h.tiles h.headers _ (by omega)

theorem HeapRepr.allocated (h : HeapRepr s bs) (p : Nat) :
    scmAllocatedAddr s p = .ok (decide (p ∈ bs.map Blk.addr)) := by
  unfold scmAllocatedAddr scmMbase
  by_cases h0 : s.usedBytes = 0
  · rw [if_neg (not_not_intro h0), h0, h.eq_nil h0]
    simp [findAddr]
  · have hlen := tiles_length h.tiles
    rw [if_pos h0, show base + 16 + s.usedBytes = base + s.usedBytes + 16 by omega]
    exact findAddr_eq h.tiles (fun b hb => (h.headers b hb).2) _ (by omega)

/-! ## What a write keeps -/

/-- The headers of the blocks are where they were. -/
def SameHeaders (m m' : Mem) (bs : List Blk) : Prop := ∀ b ∈ bs, ∀ x, b.addr - 16 ≤ x → x < b.addr → m'.byte x =
    m.byte x

/-- The contents of the blocks are what they were. -/
def Kept (m m' : Mem) (bs : List Blk) : Prop := ∀ b ∈ bs, m'.read b.addr b.size = m.read b.addr b.size

theorem header_congr {a : Nat} (ha : 16 ≤ a) (hx : ∀ x, a - 16 ≤ x → x < a → m'.byte x = m.byte x) :
    inUseAt m' a = inUseAt m a ∧ sizeAt m' a = sizeAt m a :=
  ⟨Mem.load_congr (Mem.read_congr fun x h1 h2 => hx x h1 (by omega)),
    Mem.load_congr (Mem.read_congr fun x h1 h2 => hx x (by omega) (by omega))⟩

theorem kept_of_bytes (hx : ∀ b ∈ bs, ∀ x, b.addr ≤ x → x < b.addr + b.size → m'.byte x = m.byte x) : Kept m m' bs :=
  fun b hb => Mem.read_congr (hx b hb)

/-- A change of the bytes that leaves the headers and the region's header alone. -/
theorem HeapRepr.withMem (h : HeapRepr s bs) (hm : SameHeaders s.mem m' bs)
    (hi : ∀ x, x < base → m'.byte x = s.mem.byte x) : HeapRepr { s with mem := m' } bs := by
  refine ⟨h.tiles, ?_, h.fits, h.user_lt, ?_, ?_⟩
  · intro b hb
    obtain ⟨h1, h2⟩ := header_congr (by have := h.base_le hb; omega) (hm b hb)
    rw [h1, h2]; exact h.headers b hb
  · exact (Mem.load_congr (Mem.read_congr fun x _ h2 => hi x (by simp only [base]; omega))).trans h.info.1
  · exact (Mem.load_congr (Mem.read_congr fun x _ h2 => hi x (by simp only [base]; omega))).trans h.info.2

/-- A client writes inside its own block. -/
theorem HeapRepr.write (h : HeapRepr s bs) (hb : b ∈ bs) {a : Nat} {xs : List UInt8} (h1 : b.addr ≤ a)
    (h2 : a + xs.length ≤ b.addr + b.size) :
    HeapRepr { s with mem := s.mem.write a xs } bs ∧
      ∀ c ∈ bs, c.addr ≠ b.addr → (s.mem.write a xs).read c.addr c.size = s.mem.read c.addr c.size := by
  have hle := h.base_le hb
  refine ⟨h.withMem (fun c hc x hx1 hx2 => Mem.byte_write_out ?_) fun x hx => Mem.byte_write_out (by omega),
    ?_⟩
  · have := h.base_le hc
    by_cases e : c.addr = b.addr
    · omega
    · rcases h.tiles.apart hc hb e with hd | hd <;> omega
  · intro c hc hne
    refine Mem.read_write_of_disjoint ?_
    rcases h.tiles.apart hc hb hne with hd | hd <;> omega

/-- The header of a block says that it is in use, or that it is not. -/
theorem HeapRepr.mark (h : HeapRepr s bs) (hb : b ∈ bs) (u : Bool) :
    HeapRepr { s with mem := s.mem.store (b.addr - 16) 8 (if u then 1 else 0) } (mark b.addr u bs) ∧
      Kept s.mem (s.mem.store (b.addr - 16) 8 (if u then 1 else 0)) bs := by
  have hle := h.base_le hb
  refine ⟨⟨h.tiles.mark _ _, ?_, h.fits, h.user_lt, ?_, ?_⟩,
    kept_of_bytes fun c hc x h1 h2 => Mem.byte_store_out ?_⟩
  · intro c hc
    obtain ⟨d, hd, rfl⟩ := mem_mark.mp hc
    by_cases e : d.addr = b.addr
    · rw [if_pos e]
      show inUseAt _ d.addr = _ ∧ sizeAt _ d.addr = d.size
      rw [← (h.headers d hd).2, e]
      refine ⟨Mem.load_store ?_, Mem.load_store_of_disjoint (by omega)⟩
      cases u <;> decide
    · rw [if_neg e]
      have := h.base_le hd
      have hkeep := @header_congr s.mem (s.mem.store (b.addr - 16) 8 (if u then 1 else 0)) d.addr (by omega)
        fun x hx1 hx2 => Mem.byte_store_out (by rcases h.tiles.apart hd hb e with ha | ha <;> omega)
      rw [hkeep.1, hkeep.2]
      exact h.headers d hd
  · exact (Mem.load_store_of_disjoint (by simp only [base] at hle ⊢; omega)).trans h.info.1
  · exact (Mem.load_store_of_disjoint (by simp only [base] at hle ⊢; omega)).trans h.info.2
  · have := h.base_le hc
    by_cases e : c.addr = b.addr
    · omega
    · rcases h.tiles.apart hc hb e with ha | ha <;> omega

/-- The bytes of the region's header are no block's. -/
theorem setInfo_byte {used user x : Nat} (hx : base ≤ x) : (setInfo s used user m).mem.byte x = m.byte x := by
  simp only [base] at hx
  simp only [setInfo]
  rw [Mem.byte_store_out (by omega), Mem.byte_store_out (by omega)]

/-- The blocks and the counters of `setInfo`. -/
theorem HeapRepr.setInfo {used user : Nat} (t : Tiles 16 base bs (base + used))
    (hh : ∀ b ∈ bs, inUseAt m b.addr = (if b.inUse then 1 else 0) ∧ sizeAt m b.addr = b.size)
    (hf : 24 + used ≤ s.size) (hu : user < 2 ^ 64) : HeapRepr (setInfo s used user m) bs := by
  have hused : used < 2 ^ 64 := by have := s.size_lt; omega
  refine ⟨t, ?_, hf, hu, ?_, ?_⟩
  · intro b hb
    have hle := (t.bounds b hb).1
    have hkeep := @header_congr m (Scm.setInfo s used user m).mem b.addr (by omega)
      fun x hx1 _ => setInfo_byte (by omega)
    rw [hkeep.1, hkeep.2]
    exact hh b hb
  · exact (Mem.load_store_of_disjoint (by omega)).trans (Mem.load_store hused)
  · exact Mem.load_store hu

/-- A new block at the end, its header written first. -/
theorem HeapRepr.extend (h : HeapRepr s bs) (hfit : 24 + s.usedBytes + 16 + n ≤ s.size)
    (hn : m.load (base + s.usedBytes) 8 = 1 ∧ m.load (base + s.usedBytes + 8) 8 = n)
    (hm : ∀ x, x < base + s.usedBytes → m.byte x = s.mem.byte x) :
    HeapRepr (extend s n m) (bs ++ [⟨base + s.usedBytes + 16, n, true⟩]) ∧ Kept s.mem (extend s n m).mem bs ∧
      (extend s n m).usedBytes = s.usedBytes + 16 + n := by
  have hlt := s.size_lt
  have hused : (s.usedBytes + (n + 16)) % 2 ^ 64 = s.usedBytes + 16 + n := by
    rw [Nat.mod_eq_of_lt (by omega)]; omega
  refine ⟨?_, kept_of_bytes ?_, hused⟩
  · unfold Scm.extend
    rw [hused]
    refine HeapRepr.setInfo ?_ ?_ (by omega) (Nat.mod_lt _ (by decide))
    · have := h.tiles.append n true
      rwa [show base + s.usedBytes + 16 + n = base + (s.usedBytes + 16 + n) by omega] at this
    · intro b hb
      rcases List.mem_append.mp hb with hb | hb
      · have hle := h.base_le hb
        have hend := h.end_le hb
        have hkeep := @header_congr s.mem m b.addr (by omega) fun x _ hx2 => hm x (by omega)
        rw [hkeep.1, hkeep.2]
        exact h.headers b hb
      · rw [List.mem_singleton] at hb
        subst hb
        exact hn
  · intro b hb x h1 h2
    have hle := h.base_le hb
    have hend := h.end_le hb
    rw [Scm.extend, setInfo_byte (by omega)]
    exact hm x (by omega)

/-! ## The calls -/

/-- A new block of `n` bytes fits the region. -/
def Fits (s : ScmSt) (n : Nat) : Prop := 24 + s.usedBytes + 16 + n ≤ s.size

instance (s : ScmSt) (n : Nat) : Decidable (Fits s n) := inferInstanceAs (Decidable (_ ≤ _))

/-- The block that `scm_malloc` answers when there is a free one that is large enough. -/
theorem malloc_reuse (h : HeapRepr s bs) (hf : firstFit n bs = some b) :
    ∃ s', scmMalloc s n = .ok (b.addr, s') ∧ HeapRepr s' (mark b.addr true bs) ∧ Kept s.mem s'.mem bs ∧
      s'.size = s.size ∧ s'.usedBytes = s.usedBytes ∧ s'.userBytes = s.userBytes := by
  obtain ⟨hrepr, hkept⟩ := h.mark (firstFit_some hf).1 true
  refine ⟨_, ?_, hrepr, hkept, rfl, rfl, rfl⟩
  unfold scmMalloc
  rw [h.findFree, hf]
  rfl

/-- Otherwise it is a new one, if that fits. -/
theorem malloc_new (h : HeapRepr s bs) (hf : firstFit n bs = none) (hfit : Fits s n) :
    ∃ s', scmMalloc s n = .ok (base + s.usedBytes + 16, s') ∧
      HeapRepr s' (bs ++ [⟨base + s.usedBytes + 16, n, true⟩]) ∧ Kept s.mem s'.mem bs ∧
      s'.size = s.size ∧ s'.usedBytes = s.usedBytes + 16 + n ∧ s'.userBytes = (s.userBytes + n) % 2 ^ 64 := by
  have hlt := s.size_lt
  unfold Fits at hfit
  have hchk : ¬ (s.usedBytes + n + 16) % 2 ^ 64 > s.size := by
    rw [Nat.mod_eq_of_lt (by omega)]; omega
  let m := (s.mem.store (base + s.usedBytes) 8 1).store (base + s.usedBytes + 8) 8 n
  have hn : m.load (base + s.usedBytes) 8 = 1 ∧ m.load (base + s.usedBytes + 8) 8 = n :=
    ⟨(Mem.load_store_of_disjoint (by omega)).trans (Mem.load_store (by decide)), Mem.load_store (by omega)⟩
  have hm : ∀ x, x < base + s.usedBytes → m.byte x = s.mem.byte x := fun x hx =>
    (Mem.byte_store_out (by omega)).trans (Mem.byte_store_out (by omega))
  obtain ⟨hrepr, hkept, hused⟩ := h.extend hfit hn hm
  refine ⟨_, ?_, hrepr, hkept, rfl, hused, rfl⟩
  unfold scmMalloc
  rw [h.findFree, hf]
  simp only [Option.map_none, if_neg hchk]
  rfl

/-- `scm_strdup` makes a new block that holds the string and its NUL. -/
theorem strdup_ok (h : HeapRepr s bs) (str : List UInt8) (hfit : Fits s (str.length + 1)) :
    ∃ s', scmStrdup s str = (base + s.usedBytes + 16, s') ∧
      HeapRepr s' (bs ++ [⟨base + s.usedBytes + 16, str.length + 1, true⟩]) ∧ Kept s.mem s'.mem bs ∧
      s'.mem.read (base + s.usedBytes + 16) (str.length + 1) = str ++ [0] ∧
      s'.size = s.size ∧ s'.usedBytes = s.usedBytes + 16 + (str.length + 1) ∧
      s'.userBytes = (s.userBytes + (str.length + 1)) % 2 ^ 64 := by
  have hlt := s.size_lt
  unfold Fits at hfit
  have hlen : (str ++ [0]).length = str.length + 1 := by simp
  let m := ((s.mem.store (base + s.usedBytes) 8 1).store (base + s.usedBytes + 8) 8 (str.length + 1)).write
    (base + s.usedBytes + 16) (str ++ [0])
  have hout : ∀ x, x < base + s.usedBytes + 16 → m.byte x =
      ((s.mem.store (base + s.usedBytes) 8 1).store (base + s.usedBytes + 8) 8 (str.length + 1)).byte x :=
    fun x hx => Mem.byte_write_out (Or.inl hx)
  have hn : m.load (base + s.usedBytes) 8 = 1 ∧ m.load (base + s.usedBytes + 8) 8 = str.length + 1 := by
    constructor
    · exact (Mem.load_congr (Mem.read_congr fun x _ h2 => hout x (by omega))).trans
        ((Mem.load_store_of_disjoint (by omega)).trans (Mem.load_store (by decide)))
    · exact (Mem.load_congr (Mem.read_congr fun x _ h2 => hout x (by omega))).trans (Mem.load_store (by omega))
  have hm : ∀ x, x < base + s.usedBytes → m.byte x = s.mem.byte x := fun x hx =>
    (hout x (by omega)).trans ((Mem.byte_store_out (by omega)).trans (Mem.byte_store_out (by omega)))
  obtain ⟨hrepr, hkept, hused⟩ := h.extend hfit hn hm
  refine ⟨_, rfl, hrepr, hkept, ?_, rfl, hused, rfl⟩
  have hread : m.read (base + s.usedBytes + 16) (str.length + 1) = str ++ [0] := by
    rw [← hlen]; exact Mem.read_write _ _ _
  exact (Mem.read_congr fun x hx _ => setInfo_byte (by omega)).trans hread

/-- `scm_free` of a block marks it free. -/
theorem free_block (h : HeapRepr s bs) (hb : b ∈ bs) :
    ∃ s', scmFree s b.addr = .ok s' ∧ HeapRepr s' (mark b.addr false bs) ∧ Kept s.mem s'.mem bs ∧
      s'.size = s.size ∧ s'.usedBytes = s.usedBytes ∧ s'.userBytes = (s.userBytes + (2 ^ 64 - b.size)) % 2 ^ 64 := by
  obtain ⟨hrepr, hkept⟩ := h.mark hb false
  have hsize := (h.headers b hb).2
  have haddr : b.addr ∈ bs.map Blk.addr := List.mem_map_of_mem hb
  let user := (s.userBytes + (2 ^ 64 - b.size)) % 2 ^ 64
  let m := s.mem.store (b.addr - 16) 8 0
  have hbyte : ∀ x, base ≤ x → (m.store (vmStart + 16) 8 user).byte x = m.byte x := fun x hx =>
    Mem.byte_store_out (by simp only [base] at hx; omega)
  refine ⟨{ s with userBytes := user, mem := m.store (vmStart + 16) 8 user }, ?_, ⟨hrepr.tiles, ?_, h.fits,
    Nat.mod_lt _ (by decide), ?_, Mem.load_store (Nat.mod_lt _ (by decide))⟩, ?_, rfl, rfl, rfl⟩
  · unfold scmFree
    rw [h.allocated]
    simp only [haddr, decide_true, hsize]
    rfl
  · intro c hc
    have hle := hrepr.base_le hc
    obtain ⟨h1, h2⟩ := @header_congr m (m.store (vmStart + 16) 8 user) c.addr (by omega)
      fun x hx _ => hbyte x (by omega)
    rw [h1, h2]
    exact hrepr.headers c hc
  · exact (Mem.load_store_of_disjoint (by omega)).trans hrepr.info.1
  · intro c hc
    have hle := h.base_le hc
    rw [← hkept c hc]
    exact Mem.read_congr fun x hx _ => hbyte x (by omega)

/-- `scm_free` of any other pointer changes nothing. -/
theorem free_foreign (h : HeapRepr s bs) (hp : ∀ b ∈ bs, b.addr ≠ p) : scmFree s p = .ok s := by
  have hnot : p ∉ bs.map Blk.addr := by
    intro hmem
    obtain ⟨b, hb, e⟩ := List.mem_map.mp hmem
    exact hp b hb e
  unfold scmFree
  rw [h.allocated]
  simp only [hnot, decide_false]

/-- The bytes of a file when it is opened with truncate. -/
def truncated (file : Mem) : Mem :=
  ((file.store vmStart 8 sizeInfoId).store (vmStart + 8) 8 0).store (vmStart + 16) 8 0

theorem open_truncate (size : Nat) (hs : vmStart + size < 2 ^ 64) (file : Mem) :
    scmOpen size hs file true = ⟨size, 0, 0, truncated file, hs⟩ := by
  have h1 : (truncated file).load (vmStart + 8) 8 = 0 :=
    (Mem.load_store_of_disjoint (by omega)).trans (Mem.load_store (by decide))
  have h2 : (truncated file).load (vmStart + 16) 8 = 0 := Mem.load_store (by decide)
  have heq : scmOpen size hs file true = ⟨size, (truncated file).load (vmStart + 8) 8,
      (truncated file).load (vmStart + 16) 8, truncated file, hs⟩ := by
    simp only [scmOpen, or_true, if_true, truncated]
  rw [heq]
  simp only [h1, h2]

/-- A region opened with truncate holds no block. -/
theorem open_ok (size : Nat) (hs : vmStart + size < 2 ^ 64) (file : Mem) (hfit : 24 ≤ size) :
    HeapRepr (scmOpen size hs file true) [] := by
  rw [open_truncate]
  exact ⟨.nil _, fun b hb => absurd hb List.not_mem_nil, hfit, show 0 < 2 ^ 64 by decide,
    (Mem.load_store_of_disjoint (by omega)).trans (Mem.load_store (by decide)), Mem.load_store (by decide)⟩

end Cs238p.Scm
