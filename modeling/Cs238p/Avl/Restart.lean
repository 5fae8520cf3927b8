/-
  Cs238p.Avl.Restart — closing the word store and opening its file again.

  `avl_open` takes the old state over when `scm_utilized` is not 0, and makes a new one
  otherwise. The counter is exact only as long as no freed block is handed out again:
  `scm_malloc` then adds nothing to `user_bytes`, while `scm_free` always subtracts. So it
  can be 0 with the tree still there, and then `avl_open` fails, since the new state block
  cannot be at `scm_mbase`: a store survives a restart exactly when the counter is not 0
  (`survives_iff`).
-/
import Cs238p.Avl.Runs

namespace Cs238p.Avl

open ByteMemory Scm Arena AvlTree CountTree

/-- Closing the store and opening its file, without truncate. -/
def reopen (s : AvlSt) : Except Stop (Option AvlSt) := avlOpen s.scm.size s.scm.size_lt (avlClose s) false []

/-- The reopened store answers as the closed one did. -/
def Survives (fuel : Nat) (s : AvlSt) : Prop :=
  ∃ s', reopen s = .ok (some s') ∧ (∀ w : Word, avlExists fuel s' w.bytes = avlExists fuel s w.bytes) ∧
    avlItems s' = avlItems s ∧ avlUnique s' = avlUnique s ∧ avlTraverse fuel s' = avlTraverse fuel s

variable {s s' : AvlSt} {t : CountTree Loc} {F : Multiset Cell} {fuel size : Nat}

/-- Closing writes the region's header only. -/
theorem close_byte (s : ScmSt) {x : Nat} (hx : base ≤ x) : (scmClose s).byte x = s.mem.byte x := by
  simp only [base] at hx
  unfold scmClose
  rw [Mem.byte_store_out (by omega), Mem.byte_store_out (by omega), Mem.byte_store_out (by omega)]

/-- The counters come back from the header. -/
theorem open_close {s : ScmSt} (hused : s.usedBytes < 2 ^ 64) (huser : s.userBytes < 2 ^ 64) :
    scmOpen s.size s.size_lt (scmClose s) false = { s with mem := scmClose s } := by
  have hid : (scmClose s).load vmStart 8 = sizeInfoId :=
    (Mem.load_store_of_disjoint (by omega)).trans
      ((Mem.load_store_of_disjoint (by omega)).trans (Mem.load_store (by decide)))
  have h1 : (scmClose s).load (vmStart + 8) 8 = s.usedBytes :=
    (Mem.load_store_of_disjoint (by omega)).trans (Mem.load_store hused)
  have h2 : (scmClose s).load (vmStart + 16) 8 = s.userBytes := Mem.load_store huser
  have hkeep : ¬ ((scmClose s).load vmStart 8 ≠ sizeInfoId ∨ false = true) := by simp [hid]
  simp only [scmOpen, if_neg hkeep, h1, h2]

theorem holds_close {s : ScmSt} (h : Holds s F) : Holds { s with mem := scmClose s } F := by
  obtain ⟨bs, hr, hF, hblk⟩ := h
  have hlt := hr.used_lt
  refine ⟨bs, ⟨hr.tiles, ?_, hr.fits, hr.user_lt, ?_, Mem.load_store hr.user_lt⟩, hF, hblk⟩
  · intro b hb
    have hle := hr.base_le hb
    obtain ⟨h1, h2⟩ := @header_congr s.mem (scmClose s) b.addr (by omega) fun x hx _ => close_byte s (by omega)
    rw [h1, h2]
    exact hr.headers b hb
  · exact (Mem.load_store_of_disjoint (by omega)).trans (Mem.load_store (by simp only [base] at hlt; omega))

/-- The bytes that the file has, in a store that is open at the old state. -/
theorem Holding.closed (h : Holding s t) (hs : s'.scm = { s.scm with mem := scmClose s.scm })
    (hst : s'.state = base + 16)
    (hf : s'.fails = []) : Holding s' t ∧ avlItems s' = avlItems s ∧ avlUnique s' = avlUnique s := by
  have hmem : s'.mem = scmClose s.scm := congrArg ScmSt.mem hs
  have hag : Agree (cells t + {stateCell (base + 16)}) s.mem s'.mem := fun e he x hx _ => by
    have := (h.owns.holds.bounds he).1
    rw [hmem]; exact close_byte s.scm (by omega)
  obtain ⟨hagt, hags⟩ := agree_add.mp hag
  have hrec : stateAt s'.mem (base + 16) = stateAt s.mem (base + 16) := stateAt_congr hags
  refine ⟨⟨hst, hf, ⟨?_, h.owns.shaped.congr hagt⟩, by rw [hrec]; exact h.root, h.avl, h.ordered, h.whole⟩, ?_, ?_⟩
  · rw [hs]; exact holds_close h.owns.holds
  · rw [avlItems, avlItems, hst, h.state, hrec]
  · rw [avlUnique, avlUnique, hst, h.state, hrec]

/-- The region is in use, and the state block is at `scm_mbase`. -/
theorem Holding.mbase (h : Holding s t) : scmMbase s.scm = base + 16 := by
  have hb := (h.owns.holds.bounds (show stateCell (base + 16) ∈ cells t + {stateCell (base + 16)} by simp)).2
  rw [scmMbase, if_pos]
  simp only [stateCell] at hb
  omega

theorem Holding.opened (h : Holding s t) :
    scmOpen s.scm.size s.scm.size_lt (avlClose s) false = { s.scm with mem := scmClose s.scm } := by
  have hlt := h.owns.holds.used_lt
  obtain ⟨bs, hr, -, -⟩ := h.owns.holds
  exact open_close (by simp only [base] at hlt; omega) hr.user_lt

theorem Holding.reopen_used (h : Holding s t) (hu : avlScmUtilized s ≠ 0) :
    ∃ s', reopen s = .ok (some s') ∧ Holding s' t ∧ avlItems s' = avlItems s ∧ avlUnique s' = avlUnique s := by
  have hopened := h.opened
  refine ⟨⟨{ s.scm with mem := scmClose s.scm }, base + 16, []⟩, ?_, h.closed rfl rfl rfl⟩
  rw [reopen, avlOpen, hopened, if_pos (show scmUtilized { s.scm with mem := scmClose s.scm } ≠ 0 from hu)]
  have hbase : scmMbase { s.scm with mem := scmClose s.scm } = base + 16 := h.mbase
  rw [hbase]
  rfl

/-- With the counter at 0, a second state block is made, and it is not the first block. -/
theorem Holding.reopen_unused (h : Holding s t) (hu : avlScmUtilized s = 0) : ∃ e, reopen s = .error e := by
  have hopened := h.opened
  have hout : Outcome (fun _ => True) (reopen s) fun _ => False := by
    rw [reopen, avlOpen, hopened, if_neg
      (show ¬ scmUtilized { s.scm with mem := scmClose s.scm } ≠ 0 from not_not_intro hu)]
    have hh : Holds { s.scm with mem := scmClose s.scm } (cells t + {stateCell (base + 16)}) := holds_close h.owns.holds
    refine ((malloc_spec (s := ⟨{ s.scm with mem := scmClose s.scm }, 0, []⟩)
      hh rfl 24).weaken fun _ _ => trivial).bind ?_
    intro q hq
    obtain ⟨p, s1⟩ := q
    obtain ⟨-, hh1, -⟩ := hq
    obtain ⟨hp0, -⟩ := holds_addr hh1
    have hmem : stateCell (base + 16) ∈ cells t + {stateCell (base + 16)} := by simp
    have hap := hh1.sep.apart (Multiset.mem_singleton_self (p, 24)) hmem
    have hused := (hh1.bounds (Multiset.mem_add.mpr (Or.inr hmem))).2
    have hbase : scmMbase s1.scm = base + 16 := by
      rw [scmMbase, if_pos]
      simp only [stateCell] at hused
      omega
    have hne : ¬ p = scmMbase (s1.put (s1.mem.write p (List.replicate 24 0))).scm := by
      change ¬ p = scmMbase s1.scm
      rw [hbase]
      intro he
      simp only [Apart, stateCell, he] at hap
      omega
    simp only [if_neg hp0]
    rw [if_neg hne]
    exact .error trivial
  cases hr : reopen s with
  | error e => exact ⟨e, rfl⟩
  | ok r => rw [hr] at hout; cases hout with | ok hf => exact hf.elim

theorem Holding.survives_iff_used (h : Holding s t) (hfuel : 120 ≤ fuel) : Survives fuel s ↔ avlScmUtilized s ≠ 0 := by
  have hdelta := h.owns.delta_le h.avl
  constructor
  · intro h hu
    obtain ⟨s', hr, -⟩ := h
    obtain ⟨e, he⟩ := h.reopen_unused hu
    rw [hr] at he
    cases he
  · intro hu
    obtain ⟨s', hr, h', hi, hq⟩ := h.reopen_used hu
    refine ⟨s', hr, ?_, hi, hq, ?_⟩
    · intro w
      rw [h'.exists_spec (by omega), h.exists_spec (by omega)]
    · rw [h'.traverse_spec (by omega), h.traverse_spec (by omega)]

/-- A store that has been filled by insertions and deletions survives a restart exactly when
    `scm_utilized` is not 0 as it is closed. -/
theorem survives_iff (fuel size : Nat) (hs : vmStart + size < 2 ^ 64) (file : Mem) (ops : List Op) (s : AvlSt)
    (hfuel : 120 ≤ fuel) (hrun : session fuel size hs file ops = .ok s) : Survives fuel s ↔ avlScmUtilized s ≠ 0 := by
  have hout := session_holding fuel size hs file ops hfuel
  rw [hrun] at hout
  cases hout with
  | ok h =>
    obtain ⟨t, h, -⟩ := h
    exact h.survives_iff_used hfuel

theorem survives_iff_few_words : ∃ s, session 120 4096 (by decide) blank fewWords = .ok s ∧ Survives 120 s := by
  obtain ⟨s, hs, hu⟩ := exists_ok_of_map
    (show (session 120 4096 (by decide) blank fewWords).map avlScmUtilized = .ok 108 by decide +kernel)
  exact ⟨s, hs, (survives_iff 120 4096 (by decide) blank fewWords s (by decide) hs).mpr (by rw [hu]; decide)⟩

/-- "a" twice inserted and deleted, then fifteen times the letter "b". -/
def lostWord : List Op :=
  [.insert (.rep 97 letter_a 0), .delete (.rep 97 letter_a 0), .insert (.rep 97 letter_a 0),
    .delete (.rep 97 letter_a 0), .insert (.rep 98 letter_b 14)]

/-- The node's block was freed and handed out twice, and the counter is 0 with a word in the
    store: the file cannot be opened again. -/
theorem a_store_is_lost : Legal 0 lostWord ∧ ∃ s, session 120 4096 (by decide) blank lostWord = .ok s ∧
    avlExists 120 s (List.replicate 15 98) = .ok 1 ∧ reopen s = .error .assert ∧ ¬ Survives 120 s := by
  obtain ⟨s, hs, hf⟩ := exists_ok_of_map (show (session 120 4096 (by decide) blank lostWord).map (fun s =>
    (avlExists 120 s (List.replicate 15 98), (reopen s).map Option.isSome)) =
      .ok (.ok 1, .error .assert) by decide +kernel)
  obtain ⟨hex, hre⟩ := Prod.mk.inj hf
  have herr : reopen s = .error .assert := by
    cases hr : reopen s with
    | ok r => rw [hr] at hre; cases hre
    | error e => rw [hr] at hre; cases hre; rfl
  refine ⟨by simp only [lostWord, Legal]; decide, s, hs, hex, herr, ?_⟩
  intro h
  obtain ⟨s', hr, -⟩ := h
  rw [herr] at hr
  cases hr

end Cs238p.Avl
