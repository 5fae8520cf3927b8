/-
  Cs238p.Lib.RoundRobin — taking turns around a queue. A `Turn` is the queue with the place
  of the one whose turn it is; in its `Move` some join at the end of the queue, and it may
  leave. The turn then passes to the next in the queue, from the end to the head.

  `order` is the queue as the turns come to it, `order_next` what a move does to it: the
  one whose turn it was goes to its end. Seen by two of the queue, `order` changes only when
  it is the turn of one of them (`pair_next`, `pair_next_self`), so between two turns of one
  the other has exactly one (`count_eq_one`).
-/
import Mathlib.Data.List.Nodup
import Mathlib.Data.List.Dedup

namespace RoundRobin

structure Turn (α : Type) where
  before : List α
  cur : α
  after : List α
  deriving DecidableEq, Repr

structure Move (α : Type) where
  joins : List α
  leaves : Bool
  deriving DecidableEq, Repr

variable {α : Type}

namespace Turn

def queue (t : Turn α) : List α := t.before ++ t.cur :: t.after

/-- The queue from the turn on, and around. -/
def order (t : Turn α) : List α := t.cur :: (t.after ++ t.before)

/-- The turn of the head. -/
def first : List α → Option (Turn α)
  | [] => none
  | x :: q => some ⟨[], x, q⟩

/-- The turn of the one after `bs` in the queue `bs ++ as`: of the head after its end. -/
def pass (bs : List α) : List α → Option (Turn α)
  | [] => first bs
  | c :: as => some ⟨bs, c, as⟩

/-- What stands in the queue up to the place of the turn, after the move. -/
def passed (t : Turn α) (m : Move α) : List α := if m.leaves then t.before else t.before ++ [t.cur]

def next (t : Turn α) (m : Move α) : Option (Turn α) := pass (t.passed m) (t.after ++ m.joins)

end Turn

def queue (o : Option (Turn α)) : List α := o.elim [] Turn.queue

def order (o : Option (Turn α)) : List α := o.elim [] Turn.order

/-- Who has the turn, one after the other, through the moves `ms`. -/
def turns : List (Move α) → Option (Turn α) → List α
  | _, none => []
  | [], some t => [t.cur]
  | m :: ms, some t => t.cur :: turns ms (t.next m)

@[simp] theorem turns_none (ms : List (Move α)) : turns ms none = [] := by cases ms <;> rfl

/-! ## One move -/

@[simp] theorem queue_first (q : List α) : queue (Turn.first q) = q := by cases q <;> rfl

@[simp] theorem order_first (q : List α) : order (Turn.first q) = q := by
  cases q with
  | nil => rfl
  | cons x q => simp [order, Turn.first, Turn.order]

theorem queue_pass (bs as : List α) : queue (Turn.pass bs as) = bs ++ as := by
  cases as with
  | nil => exact (queue_first bs).trans (List.append_nil bs).symm
  | cons c as => rfl

theorem pass_nil (as : List α) : Turn.pass [] as = Turn.first as := by cases as <;> rfl

theorem order_pass (bs as : List α) : order (Turn.pass bs as) = as ++ bs := by
  cases as with
  | nil => exact order_first bs
  | cons c as => rfl

theorem queue_next (t : Turn α) (m : Move α) : queue (t.next m) = t.passed m ++ (t.after ++ m.joins) :=
  queue_pass ..

theorem order_next (t : Turn α) (m : Move α) : order (t.next m) = t.after ++ m.joins ++ t.passed m :=
  order_pass ..

theorem perm_order_queue (o : Option (Turn α)) : (order o).Perm (queue o) := by
  cases o with
  | none => exact List.Perm.refl _
  | some t =>
    calc t.order = (t.cur :: t.after) ++ t.before := rfl
      _ |>.Perm (t.before ++ t.cur :: t.after) := List.perm_append_comm

theorem head?_order (o : Option (Turn α)) : (order o).head? = o.map Turn.cur := by cases o <;> rfl

theorem queue_next_sublist (t : Turn α) (m : Move α) : (queue (t.next m)).Sublist (t.queue ++ m.joins) := by
  have hp : (t.passed m).Sublist (t.before ++ [t.cur]) := by
    unfold Turn.passed
    split
    · exact List.sublist_append_left _ _
    · exact List.Sublist.refl _
  rw [queue_next]
  simpa [Turn.queue] using hp.append_right (t.after ++ m.joins)

/-! ## Many moves -/

variable {o : Option (Turn α)} {ms : List (Move α)} {mid rest : List α} {x y : α} {t : Turn α} {m : Move α}

/-- The first of some turns, and the move made in it when there are more. -/
theorem turns_eq_cons {z : α} (h : turns ms o = z :: (mid ++ x :: rest)) :
    ∃ t m ms', o = some t ∧ t.cur = z ∧ ms = m :: ms' ∧ turns ms' (t.next m) = mid ++ x :: rest := by
  cases o with
  | none => rw [turns_none] at h; cases h
  | some t =>
    cases ms with
    | nil =>
      obtain ⟨-, h⟩ := List.cons_eq_cons.1 h
      exact absurd h.symm (by simp)
    | cons m ms' =>
      obtain ⟨hz, h⟩ := List.cons_eq_cons.1 h
      exact ⟨t, m, ms', rfl, hz, rfl, h⟩

/-- Who has a turn is in the queue, or joins it. -/
theorem mem_of_mem_turns (h : x ∈ turns ms o) : x ∈ order o ∨ x ∈ ms.flatMap Move.joins := by
  induction ms generalizing o with
  | nil =>
    cases o with
    | none => cases h
    | some t => exact Or.inl (List.mem_singleton.1 h ▸ List.mem_cons_self)
  | cons m ms ih =>
    cases o with
    | none => cases h
    | some t =>
      rcases List.mem_cons.1 h with rfl | h
      · exact Or.inl List.mem_cons_self
      rw [List.flatMap_cons, List.mem_append]
      rcases ih h with h | h
      · have h := (queue_next_sublist t m).subset ((perm_order_queue _).subset h)
        rcases List.mem_append.1 h with h | h
        · exact Or.inl ((perm_order_queue (some t)).symm.subset h)
        · exact Or.inr (Or.inl h)
      · exact Or.inr (Or.inr h)

/-- Who has the turn again has not left. -/
theorem leaves_eq_false (hd : (t.before ++ t.cur :: (t.after ++ m.joins)).Nodup)
    (hj : t.cur ∉ ms.flatMap Move.joins) (h : t.cur ∈ turns ms (t.next m)) : m.leaves = false := by
  rw [List.nodup_middle, List.nodup_cons, List.mem_append, not_or] at hd
  by_contra hl
  rcases mem_of_mem_turns h with hc | hc
  · rw [order_next] at hc
    simp only [Turn.passed, eq_true_of_ne_false hl, if_true, List.mem_append] at hc
    rcases hc with hc | hc
    · exact hd.1.2 (List.mem_append.2 hc)
    · exact hd.1.1 hc
  · exact hj hc

/-! ## Who is next -/

variable [DecidableEq α]

/-- Who follows `x` in the queue `q`, around it. -/
def successor (q : List α) (x : α) : Option α := ((q.dropWhile (· ≠ x)).tail ++ q).head?

theorem successor_middle {as bs : List α} {x : α} (h : x ∉ as) :
    successor (as ++ x :: bs) x = (bs ++ (as ++ [x])).head? := by
  have hd : (as ++ x :: bs).dropWhile (· ≠ x) = x :: bs := by
    rw [List.dropWhile_append_of_pos fun a ha => by simpa using fun e : a = x => h (e ▸ ha)]
    simp
  unfold successor
  rw [hd]
  cases bs with
  | cons b bs => rfl
  | nil => cases as <;> rfl

/-- The turn passes to the successor, unless nobody is left. -/
theorem cur_next (h : t.cur ∉ t.before) (m : Move α) :
    (t.next m).map Turn.cur =
      if queue (t.next m) = [] then none else successor (t.queue ++ m.joins) t.cur := by
  have hs : successor (t.queue ++ m.joins) t.cur = (t.after ++ m.joins ++ (t.before ++ [t.cur])).head? := by
    rw [← successor_middle h]
    simp [Turn.queue]
  rw [← head?_order, order_next, queue_next, hs]
  cases hl : m.leaves with
  | false => simp [Turn.passed, hl]
  | true =>
    simp only [Turn.passed, hl, if_true]
    cases t.after ++ m.joins with
    | cons c rest => simp
    | nil => cases t.before <;> simp

/-! ## As two of the queue see it -/

/-- Where `x` and `y` stand in `l`. -/
def pair (x y : α) (l : List α) : List α := l.filter fun z => z = x ∨ z = y

@[simp] theorem pair_append (x y : α) (l l' : List α) : pair x y (l ++ l') = pair x y l ++ pair x y l' :=
  List.filter_append ..

theorem pair_eq_nil {x y : α} {l : List α} (hx : x ∉ l) (hy : y ∉ l) : pair x y l = [] := by
  apply List.filter_eq_nil_iff.2
  intro z hz h
  rcases of_decide_eq_true h with rfl | rfl
  · exact hx hz
  · exact hy hz

theorem pair_order (hc : ¬(t.cur = x ∨ t.cur = y)) : pair x y t.order = pair x y (t.after ++ t.before) :=
  List.filter_cons_of_neg (by simpa using hc)

/-- The turn of a third changes nothing. -/
theorem pair_next (hc : ¬(t.cur = x ∨ t.cur = y)) (hx : x ∉ m.joins) (hy : y ∉ m.joins) :
    pair x y (order (t.next m)) = pair x y t.order := by
  have hp : pair x y (t.passed m) = pair x y t.before := by
    unfold Turn.passed
    split
    · rfl
    · rw [pair_append, show pair x y [t.cur] = [] from List.filter_cons_of_neg (by simpa using hc), List.append_nil]
  rw [order_next, pair_order hc, pair_append, pair_append, pair_append, pair_eq_nil hx hy, hp, List.append_nil]

/-- One of the two goes to the end, or leaves. -/
theorem pair_next_self {l : List α} (hc : t.cur = x ∨ t.cur = y) (hl : pair x y t.order = t.cur :: l)
    (hx : x ∉ m.joins) (hy : y ∉ m.joins) :
    pair x y (order (t.next m)) = l ++ (if m.leaves then [] else [t.cur]) := by
  have hcons : ∀ as, pair x y (t.cur :: as) = t.cur :: pair x y as := fun as =>
    List.filter_cons_of_pos (by simpa using hc)
  have hl : pair x y t.after ++ pair x y t.before = l := by
    rw [← pair_append]
    exact List.tail_eq_of_cons_eq ((hcons _).symm.trans hl)
  have hp : pair x y (t.passed m) = pair x y t.before ++ (if m.leaves then [] else [t.cur]) := by
    unfold Turn.passed
    split
    · rw [List.append_nil]
    · rw [pair_append, hcons]; rfl
  rw [order_next, pair_append, pair_append, pair_eq_nil hx hy, hp, List.append_nil, ← List.append_assoc, hl]

/-! ## Between two turns -/

/-- Who stands behind `x` has no turn before `x` has. -/
theorem count_eq_zero {l : List α} (h : turns ms o = mid ++ x :: rest) (hxm : x ∉ mid)
    (hl : pair x y (order o) = x :: l) (hx : x ∉ ms.flatMap Move.joins) (hy : y ∉ ms.flatMap Move.joins) :
    mid.count y = 0 := by
  induction mid generalizing o ms with
  | nil => rfl
  | cons z mid ih =>
    obtain ⟨t, m, ms', rfl, rfl, rfl, hs⟩ := turns_eq_cons h
    simp only [List.flatMap_cons, List.mem_append, not_or] at hx hy
    have hcx : t.cur ≠ x := fun e => hxm (e ▸ List.mem_cons_self)
    have hcy : t.cur ≠ y := by
      intro e
      have hh : pair x y (order (some t)) = t.cur :: pair x y (t.after ++ t.before) :=
        List.filter_cons_of_pos (by simp [e])
      exact hcx (List.head_eq_of_cons_eq (hh.symm.trans hl))
    have hl' : pair x y (order (t.next m)) = x :: l := (pair_next (by simp [hcx, hcy]) hx.1 hy.1).trans hl
    rw [List.count_cons_of_ne hcy]
    exact ih hs (fun hm => hxm (List.mem_cons_of_mem _ hm)) hl' hx.2 hy.2

/-- Who stands before `x` has one turn before `x` has. -/
theorem count_eq_one_of_pair (h : turns ms o = mid ++ x :: rest) (hxm : x ∉ mid) (hne : y ≠ x)
    (hl : pair x y (order o) = [y, x]) (hx : x ∉ ms.flatMap Move.joins) (hy : y ∉ ms.flatMap Move.joins) :
    mid.count y = 1 := by
  induction mid generalizing o ms with
  | nil =>
    have ho : (order o).head? = some x := by
      cases o with
      | none => rw [turns_none] at h; cases h
      | some t => cases ms <;> exact congrArg List.head? h
    obtain ⟨as, has⟩ : ∃ as, order o = x :: as := by
      cases hq : order o with
      | nil => rw [hq] at ho; cases ho
      | cons a as => rw [hq] at ho; exact ⟨as, by rw [Option.some.inj ho]⟩
    have hh : pair x y (order o) = x :: pair x y as := by
      rw [has]
      exact List.filter_cons_of_pos (by simp)
    exact absurd (List.head_eq_of_cons_eq (hl.symm.trans hh)) hne
  | cons z mid ih =>
    obtain ⟨t, m, ms', rfl, rfl, rfl, hs⟩ := turns_eq_cons h
    simp only [List.flatMap_cons, List.mem_append, not_or] at hx hy
    have hcx : t.cur ≠ x := fun e => hxm (e ▸ List.mem_cons_self)
    have hxm' : x ∉ mid := fun hm => hxm (List.mem_cons_of_mem _ hm)
    by_cases hcy : t.cur = y
    · -- the one turn of `y`: from now on it stands behind `x`
      subst hcy
      have hl' := pair_next_self (Or.inr rfl) hl hx.1 hy.1
      rw [List.count_cons_self, count_eq_zero hs hxm' hl' hx.2 hy.2]
    · have hl' : pair x y (order (t.next m)) = [y, x] := (pair_next (by simp [hcx, hcy]) hx.1 hy.1).trans hl
      rw [List.count_cons_of_ne hcy]
      exact ih hs hxm' hl' hx.2 hy.2

/-- `x` at the end: everybody else stands before it. -/
theorem pair_of_nodup {l : List α} (hd : (l ++ [x]).Nodup) (hy : y ∈ l ++ [x]) (hne : y ≠ x) :
    pair x y (l ++ [x]) = [y, x] := by
  obtain ⟨hl, -, hc⟩ := List.nodup_append'.1 hd
  have hyl : y ∈ l := by
    rcases List.mem_append.1 hy with h | h
    · exact h
    · exact absurd (List.mem_singleton.1 h) hne
  have hz : ∀ z ∈ l, decide (z = x ∨ z = y) = (z == y) := by
    intro z hz
    have : z ≠ x := fun e => hc hz (e ▸ List.mem_cons_self)
    simp [this, beq_eq_decide]
  have hp : pair x y l = [y] := by
    rw [pair, List.filter_congr hz, List.filter_beq, List.count_eq_one_of_mem hl hyl]
    rfl
  rw [pair_append, hp]
  simp [pair]

/-- Between two turns of one, everybody who is in the queue after the first has one turn. -/
theorem count_eq_one (hd : (t.queue ++ (m :: ms).flatMap Move.joins).Nodup)
    (h : turns ms (t.next m) = mid ++ t.cur :: rest) (hm : t.cur ∉ mid) (hy : y ∈ queue (t.next m))
    (hne : y ≠ t.cur) : mid.count y = 1 := by
  rw [List.flatMap_cons, ← List.append_assoc] at hd
  have hsub := queue_next_sublist t m
  have hcq : t.cur ∈ t.queue ++ m.joins := by simp [Turn.queue]
  have hxj : t.cur ∉ ms.flatMap Move.joins := List.disjoint_of_nodup_append hd hcq
  have hyj : y ∉ ms.flatMap Move.joins := List.disjoint_of_nodup_append hd (hsub.subset hy)
  have hod : (order (t.next m)).Nodup := (perm_order_queue _).nodup_iff.2 (hd.of_append_left.sublist hsub)
  have hyo : y ∈ order (t.next m) := (perm_order_queue _).symm.subset hy
  have hstays : m.leaves = false := by
    refine leaves_eq_false ?_ hxj (h ▸ List.mem_append_right _ List.mem_cons_self)
    simpa [Turn.queue] using hd.of_append_left
  have horder : order (t.next m) = (t.after ++ m.joins ++ t.before) ++ [t.cur] := by
    rw [order_next]
    simp [Turn.passed, hstays]
  rw [horder] at hod hyo
  exact count_eq_one_of_pair h hm hne (horder ▸ pair_of_nodup hod hyo hne) hxj hyj

end RoundRobin
