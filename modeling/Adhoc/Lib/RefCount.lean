import Mathlib.Algebra.BigOperators.Group.Finset.Basic
import Mathlib.Algebra.BigOperators.Ring.Finset
import Mathlib.Algebra.Group.Pi.Lemmas
import Mathlib.Algebra.Order.BigOperators.Group.Finset
import Mathlib.Data.Fintype.BigOperators
import Mathlib.Tactic.Ring

/-!
# Counted cells

A pool of cells, each with a count and a link to another cell.  A cell is *in
use* while its count is not zero, and the cells not in use are on a free list
threaded through the same links.

The count of a cell says how many references to it exist: one for each cell in
use that links to it, and one for each owner outside the pool.  The difference
between the count and the links is the *excess*, which is what the owners must
hold for the count to be right.  `Books x` says that the excess is `x` and that
the free list is right, and there is one rule for each thing that is done to a
cell.  The excess is an integer, so the rules also follow an owner that releases
a reference it does not have.
-/

namespace RefCount

universe u

variable {α : Type u} [DecidableEq α]

/-! ## Lists of cells -/

/-- The links lead from `head` through the cells of the list and end there. -/
def Chain (next : α → Option α) : List α → Option α → Prop
  | [], head => head = none
  | a :: l, head => head = some a ∧ Chain next l (next a)

instance Chain.decidable (next : α → Option α) :
    ∀ (l : List α) (head : Option α), Decidable (Chain next l head)
  | [], head => inferInstanceAs (Decidable (head = none))
  | a :: l, head =>
      haveI := Chain.decidable next l (next a)
      inferInstanceAs (Decidable (head = some a ∧ Chain next l (next a)))

/-- A link of a cell that is not on the list does not matter to it. -/
theorem Chain.update {next : α → Option α} {l : List α} {head x : Option α} {p : α}
    (h : Chain next l head) (hp : p ∉ l) : Chain (Function.update next p x) l head := by
  induction l generalizing head with
  | nil => exact h
  | cons a l ih =>
      obtain ⟨hhead, hrest⟩ := h
      obtain ⟨hne, hnotin⟩ := not_or.mp (mt List.mem_cons.mpr hp)
      refine ⟨hhead, ?_⟩
      rw [Function.update_of_ne (Ne.symm hne)]
      exact ih hrest hnotin

/-- The links from `head` lead through the cells not in use, each of them once. -/
def FreeList (next : α → Option α) (count : α → Nat) (head : Option α) : Prop :=
  ∃ l : List α, Chain next l head ∧ l.Nodup ∧ ∀ a, a ∈ l ↔ count a = 0

variable {next : α → Option α} {count : α → Nat} {head x : Option α} {p q : α} {c : Nat}
variable {y : α → ℤ}

/-- What happens to a cell in use does not touch the free list. -/
theorem FreeList.update_used (h : FreeList next count head) (hp : count p ≠ 0) (hc : c ≠ 0) :
    FreeList (Function.update next p x) (Function.update count p c) head := by
  obtain ⟨l, hchain, hnodup, hmem⟩ := h
  have hnotin : p ∉ l := mt (hmem p).mp hp
  refine ⟨l, hchain.update hnotin, hnodup, fun a => ?_⟩
  by_cases ha : a = p
  · subst ha
    rw [Function.update_self]
    exact iff_of_false hnotin hc
  · rw [Function.update_of_ne ha]
    exact hmem a

/-- A cell is put in front of the free list. -/
theorem FreeList.push (h : FreeList next count head) (hp : count p ≠ 0) :
    FreeList (Function.update next p head) (Function.update count p 0) (some p) := by
  obtain ⟨l, hchain, hnodup, hmem⟩ := h
  have hnotin : p ∉ l := mt (hmem p).mp hp
  refine ⟨p :: l, ⟨rfl, ?_⟩, List.nodup_cons.mpr ⟨hnotin, hnodup⟩, fun a => ?_⟩
  · rw [Function.update_self]
    exact hchain.update hnotin
  · by_cases ha : a = p
    · subst ha
      simp
    · rw [Function.update_of_ne ha, List.mem_cons, or_iff_right ha]
      exact hmem a

omit [DecidableEq α] in
/-- The first cell of the free list is not in use. -/
theorem FreeList.head_free (h : FreeList next count (some p)) : count p = 0 := by
  obtain ⟨l, hchain, -, hmem⟩ := h
  cases l with
  | nil => nomatch hchain
  | cons a l =>
      obtain rfl := Option.some.inj hchain.1
      exact (hmem p).mp (.head l)

/-- The first cell is taken from the free list. -/
theorem FreeList.pop (h : FreeList next count (some p)) (hc : c ≠ 0) :
    FreeList (Function.update next p x) (Function.update count p c) (next p) := by
  obtain ⟨l, hchain, hnodup, hmem⟩ := h
  cases l with
  | nil => nomatch hchain
  | cons a l =>
      obtain ⟨hhead, hrest⟩ := hchain
      obtain rfl := Option.some.inj hhead
      obtain ⟨hnotin, hnodup'⟩ := List.nodup_cons.mp hnodup
      refine ⟨l, hrest.update hnotin, hnodup', fun a => ?_⟩
      by_cases ha : a = p
      · subst ha
        rw [Function.update_self]
        exact iff_of_false hnotin hc
      · rw [Function.update_of_ne ha, ← hmem a, List.mem_cons, or_iff_right ha]

omit [DecidableEq α] in
/-- When the free list is empty, every cell is in use. -/
theorem FreeList.eq_none (h : FreeList next count none) (a : α) : count a ≠ 0 := by
  obtain ⟨l, hchain, -, hmem⟩ := h
  cases l with
  | nil => exact fun ha => absurd ((hmem a).mpr ha) List.not_mem_nil
  | cons b l => exact absurd hchain.1.symm (Option.some_ne_none b)

/-! ## Links and excess -/

/-- The link of one cell to `a`: a cell not in use has none. -/
def link (next : Option α) (count : Nat) (a : α) : ℤ := if count ≠ 0 ∧ next = some a then 1 else 0

@[simp] theorem link_zero (o : Option α) : link o 0 = 0 := by
  funext a
  simp [link]

@[simp] theorem link_none (n : Nat) : link (none : Option α) n = 0 := by
  funext a
  simp [link]

theorem link_nonneg (o : Option α) (n : Nat) (a : α) : 0 ≤ link o n a := by
  unfold link
  split <;> decide

/-- One reference to a cell. -/
abbrev one (p : α) : α → ℤ := Pi.single p 1

theorem one_self (p : α) : one p p = 1 := Pi.single_eq_same p 1

theorem one_nonneg (p : α) : 0 ≤ one p := by
  intro a
  by_cases ha : a = p
  · subst ha
    simp
  · simp [ha]

/-- A reference somebody has can be taken off. -/
theorem sub_one_nonneg (hy : 0 ≤ y) (hp : 0 < y p) : 0 ≤ y - one p := by
  intro a
  by_cases ha : a = p
  · subst ha
    simpa using Int.add_one_le_of_lt hp
  · simpa [ha] using hy a

/-- A cell in use links to what its link points to. -/
theorem link_some (hc : c ≠ 0) (q : α) : link (some q) c = one q := by
  funext a
  by_cases ha : a = q
  · subst ha
    simp [link, hc]
  · simp [link, ha, Ne.symm ha]

/-- A link does not depend on how often the cell is counted. -/
theorem link_congr {c d : Nat} (hc : c ≠ 0) (hd : d ≠ 0) (o : Option α) : link o c = link o d := by
  funext a
  simp [link, hc, hd]

variable [Fintype α]

/-- The cells in use that link to `a`. -/
def links (next : α → Option α) (count : α → Nat) (a : α) : ℤ := ∑ b, link (next b) (count b) a

/-- The references to `a` that are not links. -/
def excess (next : α → Option α) (count : α → Nat) (a : α) : ℤ := count a - links next count a

theorem links_nonneg (a : α) : 0 ≤ links next count a :=
  Finset.sum_nonneg fun _ _ => link_nonneg ..

theorem link_le_links (b a : α) : link (next b) (count b) a ≤ links next count a :=
  Finset.single_le_sum (f := fun b => link (next b) (count b) a) (fun _ _ => link_nonneg ..)
    (Finset.mem_univ b)

/-- Changing one cell changes its own link. -/
theorem links_update (a : α) :
    links (Function.update next p x) (Function.update count p c) a =
      links next count a - link (next p) (count p) a + link x c a := by
  have hsplit : (fun b => link (Function.update next p x b) (Function.update count p c b) a) =
      Function.update (fun b => link (next b) (count b) a) p (link x c a) := by
    funext b
    by_cases hb : b = p
    · subst hb
      simp
    · simp [Function.update_of_ne hb]
  unfold links
  rw [hsplit, Finset.sum_update_of_mem (Finset.mem_univ p), Finset.sdiff_singleton_eq_erase,
    Finset.sum_erase_eq_sub (Finset.mem_univ p)]
  ring

/-- Changing one cell, as the excess sees it. -/
theorem excess_update :
    excess (Function.update next p x) (Function.update count p c) =
      excess next count + Pi.single p ((c : ℤ) - count p) + link (next p) (count p) - link x c := by
  funext a
  simp only [excess, links_update, Pi.add_apply, Pi.sub_apply]
  by_cases ha : a = p
  · subst ha
    simp
    ring
  · simp [Function.update_of_ne ha, Pi.single_eq_of_ne ha]
    ring

/-- A pool nobody uses. -/
theorem excess_unused (h : ∀ a, count a = 0) : excess next count = 0 := by
  funext a
  simp [excess, links, h]

/-- How many cells are not in use. -/
def freeCells (count : α → Nat) : Nat := (Finset.univ.filter fun a => count a = 0).card

omit [DecidableEq α] in
theorem freeCells_le : freeCells count ≤ Fintype.card α := Finset.card_le_univ _

/-- Taking a free cell leaves one less. -/
theorem freeCells_take (hp : count p = 0) (hc : c ≠ 0) :
    freeCells (Function.update count p c) + 1 = freeCells count := by
  have hsub : (Finset.univ.filter fun a => Function.update count p c a = 0) =
      (Finset.univ.filter fun a => count a = 0).erase p := by
    ext a
    by_cases ha : a = p
    · subst ha
      simp [hc]
    · simp [ha]
  unfold freeCells
  rw [hsub]
  exact Finset.card_erase_add_one (Finset.mem_filter.mpr ⟨Finset.mem_univ p, hp⟩)

/-- Giving a cell back leaves one more. -/
theorem freeCells_give (hp : count p ≠ 0) :
    freeCells (Function.update count p 0) = freeCells count + 1 := by
  have htake : freeCells (Function.update (Function.update count p 0) p (count p)) + 1 =
      freeCells (Function.update count p 0) := freeCells_take (Function.update_self p 0 count) hp
  rw [Function.update_idem, Function.update_eq_self] at htake
  exact htake.symm

omit [DecidableEq α] in
/-- The list is empty when no cell is free. -/
theorem FreeList.freeCells_eq_zero (h : FreeList next count none) : freeCells count = 0 :=
  Finset.card_eq_zero.mpr (Finset.filter_eq_empty_iff.mpr fun a _ => h.eq_none a)

/-! ## The books -/

/-- The excess of the cells is `x`, and the free list is right. -/
structure Books (next : α → Option α) (count : α → Nat) (head : Option α) (x : α → ℤ) : Prop where
  excess_eq : excess next count = x
  free : FreeList next count head

/-- A cell somebody outside has a reference to is in use. -/
theorem Books.count_ne_zero (h : Books next count head y) (hp : 0 < y p) : count p ≠ 0 := by
  have hexcess : (count p : ℤ) - links next count p = y p := congrFun h.excess_eq p
  have hlinks : 0 ≤ links next count p := links_nonneg p
  omega

/-- A cell another one links to is in use. -/
theorem Books.linked_ne_zero (h : Books next count head y) (hq : 0 ≤ y q) (hp : count p ≠ 0)
    (hnext : next p = some q) : count q ≠ 0 := by
  have hexcess : (count q : ℤ) - links next count q = y q := congrFun h.excess_eq q
  have hlink : link (next p) (count p) q ≤ links next count q := link_le_links p q
  rw [hnext, link_some hp, one_self] at hlink
  omega

/-- Nothing links to a cell whose references are all outside. -/
theorem Books.not_linked (h : Books next count head y) (hp : (count p : ℤ) = y p)
    (hq : count q ≠ 0) : next q ≠ some p := by
  intro hnext
  have hexcess : (count p : ℤ) - links next count p = y p := congrFun h.excess_eq p
  have hlink : link (next q) (count q) p ≤ links next count p := link_le_links q p
  rw [hnext, link_some hq, one_self] at hlink
  omega

/-- The count of a cell in use changes, and it stays in use. -/
theorem Books.recount (h : Books next count head y) (hp : count p ≠ 0) (hc : c ≠ 0) :
    Books next (Function.update count p c) head (y + Pi.single p ((c : ℤ) - count p)) := by
  constructor
  · have hupdate : excess (Function.update next p (next p)) (Function.update count p c) = _ :=
      excess_update
    rw [Function.update_eq_self, h.excess_eq] at hupdate
    rw [hupdate, link_congr hp hc, add_sub_cancel_right]
  · have hfree := h.free.update_used (x := next p) hp hc
    rwa [Function.update_eq_self] at hfree

/-- One more reference to a cell in use. -/
theorem Books.increment (h : Books next count head y) (hp : count p ≠ 0) :
    Books next (Function.update count p (count p + 1)) head (y + one p) := by
  have hmore := h.recount (c := count p + 1) hp (Nat.succ_ne_zero (count p))
  rwa [Nat.cast_add, Nat.cast_one, add_sub_cancel_left] at hmore

/-- One reference less, and not the last. -/
theorem Books.decrement (h : Books next count head y) (hp : 1 < count p) :
    Books next (Function.update count p (count p - 1)) head (y - one p) := by
  have hless := h.recount (p := p) (c := count p - 1) (by omega) (by omega)
  rwa [Nat.cast_sub hp.le, Nat.cast_one, sub_sub_cancel_left, Pi.single_neg, ← sub_eq_add_neg]
    at hless

/-- The last reference to a cell goes, and with it its link. -/
theorem Books.push (h : Books next count head y) (hp : count p = 1) :
    Books (Function.update next p head) (Function.update count p 0) (some p)
      (y - one p + link (next p) 1) := by
  constructor
  · rw [excess_update, h.excess_eq, hp]
    funext a
    by_cases ha : a = p
    · subst ha
      simp
      ring
    · simp [ha]
  · exact h.free.push (by omega)

/-- A free cell is taken, with one reference to it. -/
theorem Books.pop (h : Books next count (some p) y) :
    Books (Function.update next p none) (Function.update count p 1) (next p) (y + one p) := by
  have hzero : count p = 0 := h.free.head_free
  constructor
  · rw [excess_update, h.excess_eq, hzero]
    funext a
    simp
  · exact h.free.pop one_ne_zero

/-- The link of a cell in use changes. -/
theorem Books.relink (h : Books next count head y) (hp : count p ≠ 0) (x : Option α) :
    Books (Function.update next p x) count head
      (y + link (next p) (count p) - link x (count p)) := by
  constructor
  · have hupdate : excess (Function.update next p x) (Function.update count p (count p)) = _ :=
      excess_update
    rw [Function.update_eq_self, h.excess_eq] at hupdate
    rw [hupdate]
    simp
  · have hfree := h.free.update_used (x := x) hp hp
    rwa [Function.update_eq_self] at hfree

/-- A cell in use that links to nothing is linked to `q`, with a reference to `q`
that somebody had. -/
theorem Books.attach (h : Books next count head y) (hp : count p ≠ 0) (hnext : next p = none)
    (q : α) : Books (Function.update next p (some q)) count head (y - one q) := by
  have hlink := h.relink hp (some q)
  rwa [hnext, link_none, add_zero, link_some hp] at hlink

/-- The link of a cell in use is cut, and the reference it was counted for is to
be released. -/
theorem Books.detach (h : Books next count head y) (hp : count p ≠ 0) (hnext : next p = some q) :
    Books (Function.update next p none) count head (y + one q) := by
  have hlink := h.relink hp none
  rwa [hnext, link_none, sub_zero, link_some hp] at hlink

/-- The books say how many references there are. -/
theorem Books.unique {z : α → ℤ} (h : Books next count head y) (h' : Books next count head z) :
    y = z := h.excess_eq.symm.trans h'.excess_eq

end RefCount
