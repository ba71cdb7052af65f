import Mathlib

/-!
# Heaps cut into blocks

A heap is cut into blocks without a gap.  A block is in use or free, and its size
counts whatever the heap keeps in front of it.  `placed` says where the blocks
begin.

Three operations change the cut.  `carve` takes the front of a free block into
use and leaves the rest free, if the rest is large enough to be a block.
`release` makes a block free and joins it to the free blocks beside it.  `shrink`
makes the rest of a block in use free.  A cut is *tidy* when every block is
large enough and aligned and no two free blocks are neighbours, and the three
keep it so.  A tidy cut in which no block is in use has one block
(`Tidy.eq_singleton`).
-/

namespace Blocks

/-- A block of a heap. -/
structure Block where
  size : Nat
  used : Bool
deriving DecidableEq, Repr

/-- What the blocks take together. -/
def whole (bs : List Block) : Nat := (bs.map Block.size).sum

/-- What the blocks in use take together. -/
def inUse (bs : List Block) : Nat := whole (bs.filter Block.used)

/-- The blocks with the address each of them begins at. -/
def placed : Nat → List Block → List (Nat × Block)
  | _, [] => []
  | pos, b :: bs => (pos, b) :: placed (pos + b.size) bs

/-- The address and the size of every block in use. -/
def usedAt : Nat → List Block → List (Nat × Nat)
  | _, [] => []
  | pos, b :: bs =>
      if b.used then (pos, b.size) :: usedAt (pos + b.size) bs else usedAt (pos + b.size) bs

/-- Where the first free block begins, or where the blocks end. -/
def firstFree : Nat → List Block → Nat
  | pos, [] => pos
  | pos, b :: bs => if b.used then firstFree (pos + b.size) bs else pos

/-! ## Places -/

section Places

variable {pos p q : Nat} {b c : Block} {bs pre post : List Block}

@[simp] theorem whole_nil : whole [] = 0 := rfl

@[simp] theorem whole_cons : whole (b :: bs) = b.size + whole bs := rfl

@[simp] theorem whole_append : whole (pre ++ post) = whole pre + whole post := by
  simp [whole]

@[simp] theorem inUse_nil : inUse [] = 0 := rfl

theorem inUse_cons : inUse (b :: bs) = (if b.used then b.size else 0) + inUse bs := by
  unfold inUse
  cases hb : b.used <;> simp [hb]

theorem inUse_cons_used {n : Nat} : inUse (⟨n, true⟩ :: bs) = n + inUse bs := by
  rw [inUse_cons, if_pos rfl]

theorem inUse_cons_free {n : Nat} : inUse (⟨n, false⟩ :: bs) = inUse bs := by
  rw [inUse_cons, if_neg Bool.noConfusion, Nat.zero_add]

@[simp] theorem inUse_append : inUse (pre ++ post) = inUse pre + inUse post := by
  simp [inUse]

theorem inUse_le_whole : inUse bs ≤ whole bs := by
  induction bs with
  | nil => exact Nat.le_refl 0
  | cons b bs ih =>
      rw [inUse_cons, whole_cons]
      split <;> omega

theorem mem_of_placed (h : (p, b) ∈ placed pos bs) : b ∈ bs := by
  induction bs generalizing pos with
  | nil => exact absurd h List.not_mem_nil
  | cons c bs ih =>
      rcases List.mem_cons.mp h with heq | hrest
      · obtain ⟨-, rfl⟩ := Prod.mk.inj heq
        exact .head bs
      · exact .tail c (ih hrest)

theorem exists_placed (h : b ∈ bs) : ∃ p, (p, b) ∈ placed pos bs := by
  induction bs generalizing pos with
  | nil => exact absurd h List.not_mem_nil
  | cons c bs ih =>
      rcases List.mem_cons.mp h with rfl | hrest
      · exact ⟨pos, .head _⟩
      · obtain ⟨p, hp⟩ : ∃ p, (p, b) ∈ placed (pos + c.size) bs := ih hrest
        exact ⟨p, .tail _ hp⟩

/-- A block lies within the heap. -/
theorem placed_within (h : (p, b) ∈ placed pos bs) : pos ≤ p ∧ p + b.size ≤ pos + whole bs := by
  induction bs generalizing pos with
  | nil => exact absurd h List.not_mem_nil
  | cons c bs ih =>
      rw [whole_cons]
      rcases List.mem_cons.mp h with heq | hrest
      · obtain ⟨rfl, rfl⟩ := Prod.mk.inj heq
        omega
      · have hin := ih hrest
        omega

/-- A placed block splits the blocks in two. -/
theorem exists_split (h : (p, b) ∈ placed pos bs) :
    ∃ pre post, bs = pre ++ b :: post ∧ p = pos + whole pre := by
  induction bs generalizing pos with
  | nil => exact absurd h List.not_mem_nil
  | cons c bs ih =>
      rcases List.mem_cons.mp h with heq | hrest
      · obtain ⟨rfl, rfl⟩ := Prod.mk.inj heq
        exact ⟨[], bs, rfl, rfl⟩
      · obtain ⟨pre, post, rfl, rfl⟩ := ih hrest
        refine ⟨c :: pre, post, rfl, ?_⟩
        rw [whole_cons, Nat.add_assoc]

/-- Blocks that begin at different addresses do not overlap. -/
theorem placed_disjoint (h : (p, b) ∈ placed pos bs) (h' : (q, c) ∈ placed pos bs)
    (hne : p ≠ q) : p + b.size ≤ q ∨ q + c.size ≤ p := by
  induction bs generalizing pos with
  | nil => exact absurd h List.not_mem_nil
  | cons a bs ih =>
      rcases List.mem_cons.mp h with heq | hrest <;> rcases List.mem_cons.mp h' with heq' | hrest'
      · exact absurd ((Prod.mk.inj heq).1.trans (Prod.mk.inj heq').1.symm) hne
      · obtain ⟨rfl, rfl⟩ := Prod.mk.inj heq
        exact .inl (placed_within hrest').1
      · obtain ⟨rfl, rfl⟩ := Prod.mk.inj heq'
        exact .inr (placed_within hrest).1
      · exact ih hrest hrest'

theorem usedAt_append :
    usedAt pos (pre ++ post) = usedAt pos pre ++ usedAt (pos + whole pre) post := by
  induction pre generalizing pos with
  | nil => rfl
  | cons b pre ih =>
      simp only [List.cons_append, usedAt, ih, whole_cons, Nat.add_assoc]
      split <;> rfl

theorem mem_usedAt_iff {n : Nat} :
    (p, n) ∈ usedAt pos bs ↔ (p, ⟨n, true⟩) ∈ placed pos bs := by
  induction bs generalizing pos with
  | nil => exact iff_of_false List.not_mem_nil List.not_mem_nil
  | cons b bs ih =>
      obtain ⟨size, used⟩ := b
      cases used <;> simp [usedAt, placed, ih]

theorem usedAt_within {n : Nat} (h : (p, n) ∈ usedAt pos bs) :
    pos ≤ p ∧ p + n ≤ pos + whole bs := placed_within (mem_usedAt_iff.mp h)

/-- The free block in front of which all are in use is the first. -/
theorem firstFree_split (pos : Nat) (bs : List Block) :
    ∃ pre post, bs = pre ++ post ∧ (∀ a ∈ pre, a.used = true) ∧
      firstFree pos bs = pos + whole pre := by
  induction bs generalizing pos with
  | nil => exact ⟨[], [], rfl, nofun, rfl⟩
  | cons a bs ih =>
      cases ha : a.used with
      | false => exact ⟨[], a :: bs, rfl, nofun, by simp [firstFree, ha]⟩
      | true =>
          obtain ⟨pre, post, rfl, hpre, hfree⟩ := ih (pos + a.size)
          refine ⟨a :: pre, post, rfl, List.forall_mem_cons.mpr ⟨ha, hpre⟩, ?_⟩
          rw [firstFree, if_pos ha, hfree, whole_cons, Nat.add_assoc]

theorem inUse_eq (pos : Nat) (bs : List Block) :
    inUse bs = ((usedAt pos bs).map Prod.snd).sum := by
  induction bs generalizing pos with
  | nil => rfl
  | cons b bs ih =>
      rw [inUse_cons, usedAt, ih (pos + b.size)]
      split
      · rfl
      · exact Nat.zero_add _

/-- Where nothing is in use every block is free. -/
theorem used_of_usedAt_nil (h : usedAt pos bs = []) : ∀ b ∈ bs, b.used = false := by
  intro b hb
  by_contra hused
  obtain ⟨p, hp⟩ := @exists_placed pos _ _ hb
  obtain ⟨size, used⟩ := b
  obtain rfl : used = true := by simpa using hused
  have hmem := mem_usedAt_iff.mpr hp
  rw [h] at hmem
  exact absurd hmem List.not_mem_nil

theorem firstFree_ge : pos ≤ firstFree pos bs := by
  induction bs generalizing pos with
  | nil => exact Nat.le_refl pos
  | cons b bs ih =>
      rw [firstFree]
      split
      · exact Nat.le_trans (Nat.le_add_right pos b.size) ih
      · exact Nat.le_refl pos

theorem firstFree_le : firstFree pos bs ≤ pos + whole bs := by
  induction bs generalizing pos with
  | nil => exact Nat.le_refl pos
  | cons b bs ih =>
      rw [firstFree, whole_cons, ← Nat.add_assoc]
      split
      · exact ih
      · omega

theorem firstFree_append_used (hpre : ∀ a ∈ pre, a.used = true) :
    firstFree pos (pre ++ post) = firstFree (pos + whole pre) post := by
  induction pre generalizing pos with
  | nil => rfl
  | cons a pre ih =>
      rw [List.cons_append, firstFree, if_pos (hpre a (.head pre)),
        ih fun a' ha' => hpre a' (.tail a ha'), whole_cons, Nat.add_assoc]

theorem firstFree_append_free (hpre : ∃ a ∈ pre, a.used = false) :
    firstFree pos (pre ++ post) = firstFree pos pre := by
  induction pre generalizing pos with
  | nil => exact absurd hpre (by simp)
  | cons a pre ih =>
      obtain ⟨b, hmem, hb⟩ := hpre
      rw [List.cons_append, firstFree, firstFree]
      split
      next ha =>
        refine ih ⟨b, (List.mem_cons.mp hmem).resolve_left fun h => ?_, hb⟩
        rw [← h, hb] at ha
        exact Bool.false_ne_true ha
      next => rfl

/-- Either all the blocks are in use or one is free. -/
theorem all_used_or_exists_free (bs : List Block) :
    (∀ a ∈ bs, a.used = true) ∨ ∃ a ∈ bs, a.used = false := by
  by_cases h : ∀ a ∈ bs, a.used = true
  · exact .inl h
  · push Not at h
    obtain ⟨a, ha, hfree⟩ := h
    exact .inr ⟨a, ha, Bool.eq_false_iff.mpr hfree⟩

theorem firstFree_of_used (h : ∀ a ∈ bs, a.used = true) : firstFree pos bs = pos + whole bs := by
  have := @firstFree_append_used pos _ [] h
  rwa [List.append_nil] at this

theorem firstFree_lt (h : ∃ a ∈ bs, a.used = false) (hpos : ∀ a ∈ bs, 0 < a.size) :
    firstFree pos bs < pos + whole bs := by
  induction bs generalizing pos with
  | nil => exact absurd h (by simp)
  | cons a bs ih =>
      obtain ⟨b, hmem, hb⟩ := h
      have ha := hpos a (.head bs)
      rw [firstFree, whole_cons, ← Nat.add_assoc]
      split
      next hused =>
        refine ih ⟨b, (List.mem_cons.mp hmem).resolve_left fun h => ?_, hb⟩
          fun a' ha' => hpos a' (.tail a ha')
        rw [← h, hb] at hused
        exact Bool.false_ne_true hused
      next => omega

/-- Blocks in front, none of which is empty, either are passed over or have the first free one. -/
theorem firstFree_cases (hpos : ∀ a ∈ pre, 0 < a.size) :
    (∀ bs, firstFree pos (pre ++ bs) = firstFree (pos + whole pre) bs) ∨
      firstFree pos pre < pos + whole pre ∧
        ∀ bs, firstFree pos (pre ++ bs) = firstFree pos pre := by
  rcases all_used_or_exists_free pre with h | h
  · exact .inl fun bs => firstFree_append_used h
  · exact .inr ⟨firstFree_lt h hpos, fun bs => firstFree_append_free h⟩

/-- Right behind the front part lies a free block. -/
theorem firstFree_append_cons (hb : b.used = false) :
    firstFree pos (pre ++ b :: post) = firstFree pos pre := by
  rcases all_used_or_exists_free pre with h | h
  · rw [firstFree_append_used h, firstFree_of_used h, firstFree, if_neg (by simp [hb])]
  · rw [firstFree_append_free h]

/-- The first free block of a front part, from the first free block of all. -/
theorem firstFree_front :
    firstFree pos pre = min (firstFree pos (pre ++ post)) (pos + whole pre) := by
  rcases all_used_or_exists_free pre with h | h
  · rw [firstFree_append_used h, firstFree_of_used h]
    exact (Nat.min_eq_right firstFree_ge).symm
  · rw [firstFree_append_free h]
    exact (Nat.min_eq_left firstFree_le).symm

end Places

/-! ## Tidy cuts -/

/-- Every block has at least the size `least` and a multiple of `unit`, and of two neighbours one
is in use. -/
structure Tidy (least unit : Nat) (bs : List Block) : Prop where
  least_le : ∀ b ∈ bs, least ≤ b.size
  dvd : ∀ b ∈ bs, unit ∣ b.size
  apart : bs.IsChain fun a b => a.used = true ∨ b.used = true

variable {least unit n : Nat} {a b c : Block} {bs pre post : List Block}

/-- A tidy cut of a heap in which nothing is in use. -/
theorem Tidy.eq_singleton (h : Tidy least unit bs) (hfree : ∀ b ∈ bs, b.used = false)
    (hne : 0 < whole bs) : bs = [⟨whole bs, false⟩] := by
  match bs with
  | [] => exact absurd hne (Nat.lt_irrefl 0)
  | [b] =>
      obtain ⟨size, used⟩ := b
      obtain rfl : used = false := hfree _ (.head _)
      rfl
  | b :: c :: bs =>
      rcases (List.isChain_cons_cons.mp h.apart).1 with hb | hc
      · rw [hfree b (.head _)] at hb
        exact absurd hb Bool.false_ne_true
      · rw [hfree c (.tail _ (.head _))] at hc
        exact absurd hc Bool.false_ne_true

theorem dvd_whole (h : ∀ b ∈ bs, unit ∣ b.size) : unit ∣ whole bs := by
  induction bs with
  | nil => exact Nat.dvd_zero unit
  | cons b bs ih => exact Nat.dvd_add (h b (.head bs)) (ih fun c hc => h c (.tail b hc))

theorem Tidy.left (h : Tidy least unit (pre ++ post)) : Tidy least unit pre :=
  ⟨fun b hb => h.least_le b (List.mem_append_left _ hb),
    fun b hb => h.dvd b (List.mem_append_left _ hb), (List.isChain_append.mp h.apart).1⟩

theorem Tidy.right (h : Tidy least unit (pre ++ post)) : Tidy least unit post :=
  ⟨fun b hb => h.least_le b (List.mem_append_right _ hb),
    fun b hb => h.dvd b (List.mem_append_right _ hb), (List.isChain_append.mp h.apart).2.1⟩

theorem Tidy.tail (h : Tidy least unit (b :: bs)) : Tidy least unit bs :=
  @Tidy.right _ _ [b] _ h

/-- A block between tidy cuts makes a tidy cut, unless it is free beside a free block. -/
theorem Tidy.glue (hpre : Tidy least unit pre) (hpost : Tidy least unit post)
    (hleast : least ≤ b.size) (hdvd : unit ∣ b.size)
    (hlast : ∀ a ∈ pre.getLast?, a.used = true ∨ b.used = true)
    (hhead : ∀ c ∈ post.head?, b.used = true ∨ c.used = true) :
    Tidy least unit (pre ++ b :: post) := by
  refine ⟨?_, ?_, List.isChain_append.mpr ⟨hpre.apart, ?_, ?_⟩⟩
  · exact List.forall_mem_append.mpr
      ⟨hpre.least_le, List.forall_mem_cons.mpr ⟨hleast, hpost.least_le⟩⟩
  · exact List.forall_mem_append.mpr ⟨hpre.dvd, List.forall_mem_cons.mpr ⟨hdvd, hpost.dvd⟩⟩
  · exact List.isChain_cons.mpr ⟨hhead, hpost.apart⟩
  · intro a ha c hc
    obtain rfl := Option.some.inj hc
    exact hlast a ha

/-- Beside a free block every block is in use. -/
theorem Tidy.beside_free (h : Tidy least unit (pre ++ b :: post)) (hb : b.used = false) :
    (∀ a ∈ pre.getLast?, a.used = true) ∧ ∀ c ∈ post.head?, c.used = true := by
  obtain ⟨-, hrest, hjoin⟩ := List.isChain_append.mp h.apart
  constructor
  · intro a ha
    exact (hjoin a ha b rfl).resolve_right (by simp [hb])
  · intro c hc
    exact ((List.isChain_cons.mp hrest).1 c hc).resolve_left (by simp [hb])

/-! ## Taking a block into use -/

/-- A free block that is large enough. -/
def Fits (n : Nat) (b : Block) : Prop := b.used = false ∧ n ≤ b.size

instance (n : Nat) (b : Block) : Decidable (Fits n b) := inferInstanceAs (Decidable (_ ∧ _))

/-- The first block that is large enough, between the blocks in front of it and those behind. -/
def firstFit (n : Nat) : List Block → Option (List Block × Block × List Block)
  | [] => none
  | b :: bs =>
      if Fits n b then some ([], b, bs)
      else (firstFit n bs).map fun (pre, c, post) => (b :: pre, c, post)

theorem firstFit_eq_none_iff : firstFit n bs = none ↔ ∀ b ∈ bs, ¬ Fits n b := by
  induction bs with
  | nil => exact iff_of_true rfl nofun
  | cons b bs ih =>
      rw [firstFit, List.forall_mem_cons]
      split
      next hb => exact iff_of_false nofun fun h => h.1 hb
      next hb => rw [Option.map_eq_none_iff, ih, and_iff_right hb]

theorem firstFit_eq_some_iff :
    firstFit n bs = some (pre, b, post) ↔
      bs = pre ++ b :: post ∧ Fits n b ∧ ∀ a ∈ pre, ¬ Fits n a := by
  induction bs generalizing pre with
  | nil => exact iff_of_false nofun fun h => by simp at h
  | cons c bs ih =>
      rw [firstFit]
      split
      next hc =>
        constructor
        · intro h
          obtain ⟨rfl, rfl, rfl⟩ : [] = pre ∧ c = b ∧ bs = post := by simpa using h
          exact ⟨rfl, hc, nofun⟩
        · rintro ⟨heq, -, hpre⟩
          cases pre with
          | nil =>
              obtain ⟨rfl, rfl⟩ := List.cons.inj heq
              rfl
          | cons a pre =>
              obtain ⟨rfl, -⟩ := List.cons.inj heq
              exact absurd hc (hpre c (.head pre))
      next hc =>
        rw [Option.map_eq_some_iff]
        constructor
        · rintro ⟨⟨pre', b', post'⟩, hfit, heq⟩
          obtain ⟨rfl, rfl, rfl⟩ : c :: pre' = pre ∧ b' = b ∧ post' = post := by simpa using heq
          obtain ⟨rfl, hb, hpre⟩ := ih.mp hfit
          exact ⟨rfl, hb, List.forall_mem_cons.mpr ⟨hc, hpre⟩⟩
        · rintro ⟨heq, hb, hpre⟩
          cases pre with
          | nil =>
              obtain ⟨rfl, -⟩ := List.cons.inj heq
              exact absurd hb hc
          | cons a pre =>
              obtain ⟨rfl, rfl⟩ := List.cons.inj heq
              exact ⟨(pre, b, post),
                ih.mpr ⟨rfl, hb, fun a' ha' => hpre a' (.tail c ha')⟩, rfl⟩

/-- Blocks in use are passed over. -/
theorem firstFit_append_used (hpre : ∀ a ∈ pre, a.used = true) :
    firstFit n (pre ++ bs) = (firstFit n bs).map fun r => (pre ++ r.1, r.2) := by
  induction pre with
  | nil => simp
  | cons a pre ih =>
      have ha : ¬ Fits n a := fun h => Bool.false_ne_true (h.1.symm.trans (hpre a (.head pre)))
      rw [List.cons_append, firstFit, if_neg ha, ih fun a' ha' => hpre a' (.tail a ha'),
        Option.map_map]
      rfl

/-- `n` units from `a` on that no block in use has any of. -/
def Gap (bs : List Block) (a n : Nat) : Prop :=
  a + n ≤ whole bs ∧ ∀ q s, (q, s) ∈ usedAt 0 bs → q + s ≤ a ∨ a + n ≤ q

/-- Every place is in a block. -/
theorem exists_at {i : Nat} (h : i < whole bs) :
    ∃ pre b post, bs = pre ++ b :: post ∧ whole pre ≤ i ∧ i < whole pre + b.size := by
  induction bs generalizing i with
  | nil => exact absurd h (Nat.not_lt_zero i)
  | cons c bs ih =>
      rw [whole_cons] at h
      by_cases hin : i < c.size
      · exact ⟨[], c, bs, rfl, Nat.zero_le i, by rwa [whole_nil, Nat.zero_add]⟩
      · obtain ⟨pre, b, post, rfl, hle, hlt⟩ := ih (i := i - c.size) (by omega)
        refine ⟨c :: pre, b, post, rfl, ?_, ?_⟩ <;> rw [whole_cons] <;> omega

theorem mem_usedAt_split (hb : b.used = true) :
    (pos + whole pre, b.size) ∈ usedAt pos (pre ++ b :: post) := by
  rw [usedAt_append, usedAt, if_pos hb]
  exact List.mem_append_right _ (.head _)

theorem Fits.gap (hb : Fits n b) :
    Gap (pre ++ b :: post) (whole pre) n := by
  have hn := hb.2
  refine ⟨by rw [whole_append, whole_cons]; omega, fun q s hq => ?_⟩
  rw [usedAt_append, usedAt, if_neg (by simp [hb.1]), Nat.zero_add] at hq
  rcases List.mem_append.mp hq with hq | hq
  · have hin := usedAt_within hq
    omega
  · have hin := usedAt_within hq
    omega

/-- Where no two free blocks meet, a gap is in one block. -/
theorem Tidy.exists_fits_of_gap {i : Nat} (h : Tidy least unit bs) (hpos : ∀ b ∈ bs, 0 < b.size)
    (hn : 0 < n) (hgap : Gap bs i n) :
    ∃ pre b post, bs = pre ++ b :: post ∧ Fits n b ∧ whole pre ≤ i := by
  obtain ⟨hin, hclear⟩ := hgap
  obtain ⟨pre, b, post, rfl, hle, hlt⟩ := exists_at (show i < whole bs by omega)
  have hfree : b.used = false := by
    by_contra hused
    have := hclear _ _ (mem_usedAt_split (eq_true_of_ne_false hused))
    omega
  refine ⟨pre, b, post, rfl, ⟨hfree, ?_⟩, hle⟩
  by_contra hsize
  cases post with
  | nil =>
      rw [whole_append, whole_cons, whole_nil] at hin
      omega
  | cons c post =>
      have hused : c.used = true := (h.beside_free hfree).2 c rfl
      have hc := hpos c (List.mem_append_right _ (.tail _ (.head _)))
      have hmem : (0 + whole (pre ++ [b]), c.size) ∈ usedAt 0 (pre ++ [b] ++ c :: post) :=
        mem_usedAt_split hused
      rw [List.append_assoc] at hmem
      have := hclear _ _ hmem
      rw [whole_append, whole_cons, whole_nil] at this
      omega

/-- No block is large enough when there is no gap. -/
theorem Tidy.firstFit_eq_none_iff (h : Tidy least unit bs) (hpos : ∀ b ∈ bs, 0 < b.size)
    (hn : 0 < n) : firstFit n bs = none ↔ ∀ i, ¬ Gap bs i n := by
  rw [Blocks.firstFit_eq_none_iff]
  constructor
  · intro hnone a hgap
    obtain ⟨pre, b, post, rfl, hfits, -⟩ := h.exists_fits_of_gap hpos hn hgap
    exact hnone b (List.mem_append_right _ (.head _)) hfits
  · intro hnone b hb hfits
    obtain ⟨pre, post, rfl⟩ := List.append_of_mem hb
    exact hnone _ (hfits.gap)

/-- The first block that is large enough begins where the lowest gap does. -/
theorem Tidy.firstFit_least (h : Tidy least unit bs) (hpos : ∀ b ∈ bs, 0 < b.size) (hn : 0 < n)
    (hfit : firstFit n bs = some (pre, b, post)) :
    Gap bs (whole pre) n ∧ ∀ i, Gap bs i n → whole pre ≤ i := by
  obtain ⟨rfl, hfits, hbefore⟩ := firstFit_eq_some_iff.mp hfit
  refine ⟨hfits.gap, fun a hgap => ?_⟩
  obtain ⟨pre', b', post', heq, hfits', hle⟩ := h.exists_fits_of_gap hpos hn hgap
  rcases List.append_eq_append_iff.mp heq with ⟨mid, rfl, -⟩ | ⟨mid, rfl, hmid⟩
  · rw [whole_append] at hle
    omega
  · cases mid with
    | nil => exact (List.append_nil pre').symm ▸ hle
    | cons c mid =>
        obtain ⟨rfl, -⟩ := List.cons.inj hmid
        exact absurd hfits' (hbefore _ (List.mem_append_right _ (.head _)))

/-- The front of a free block is taken into use, and the rest stays free if it makes a block. -/
def carve (least n : Nat) (b : Block) : List Block :=
  if n + least ≤ b.size then [⟨n, true⟩, ⟨b.size - n, false⟩] else [⟨b.size, true⟩]

theorem whole_carve (hn : n ≤ b.size) : whole (carve least n b) = b.size := by
  unfold carve
  split
  · simp only [whole_cons, whole_nil]
    omega
  · rfl

/-- What the block taken into use gets. -/
def grant (least n : Nat) (b : Block) : Nat := if n + least ≤ b.size then n else b.size

theorem le_grant (hn : n ≤ b.size) : n ≤ grant least n b := by
  unfold grant
  split
  · exact Nat.le_refl n
  · exact hn

theorem grant_le (hn : n ≤ b.size) : grant least n b ≤ b.size := by
  unfold grant
  split
  · exact hn
  · exact Nat.le_refl _

theorem inUse_carve : inUse (carve least n b) = grant least n b := by
  unfold carve grant
  split <;> rfl

theorem usedAt_carve (pos : Nat) : usedAt pos (carve least n b) = [(pos, grant least n b)] := by
  unfold carve grant
  split <;> rfl

theorem Tidy.carve (h : Tidy least unit (pre ++ b :: post)) (hb : b.used = false)
    (hn : least ≤ n) (hdvd : unit ∣ n) :
    Tidy least unit (pre ++ carve least n b ++ post) := by
  have hpost : Tidy least unit post := Tidy.tail (Tidy.right h)
  have hbeside := h.beside_free hb
  have hmem : b ∈ pre ++ b :: post := List.mem_append_right _ (.head _)
  unfold Blocks.carve
  split
  next hsplit =>
    have hrest : Tidy least unit (⟨b.size - n, false⟩ :: post) := by
      refine @Tidy.glue _ _ _ [] _ ⟨nofun, nofun, .nil⟩ hpost ?_ ?_ nofun ?_
      · exact (Nat.le_sub_iff_add_le (by omega)).mpr (Nat.add_comm n least ▸ hsplit)
      · exact Nat.dvd_sub (h.dvd b hmem) hdvd
      · exact fun c hc => .inr (hbeside.2 c hc)
    rw [List.append_assoc]
    exact Tidy.glue h.left hrest hn hdvd (fun _ _ => .inr rfl) fun _ _ => .inl rfl
  next =>
    rw [List.append_assoc]
    exact Tidy.glue h.left hpost (h.least_le b hmem) (h.dvd b hmem) (fun _ _ => .inr rfl)
      fun _ _ => .inl rfl

/-! ## Making a block free -/

/-- A free block of size `n` in front of some blocks, and joined to the first if that is free. -/
def joinFront (n : Nat) : List Block → List Block
  | [] => [⟨n, false⟩]
  | c :: post => if c.used then ⟨n, false⟩ :: c :: post else ⟨n + c.size, false⟩ :: post

/-- Blocks behind some blocks, and the first joined to the last of those if that is free. -/
def joinBack (pre : List Block) : List Block → List Block
  | [] => pre
  | b :: post =>
      match pre.getLast? with
      | none => b :: post
      | some a =>
          if a.used then pre ++ b :: post else pre.dropLast ++ ⟨a.size + b.size, false⟩ :: post

/-- A block of size `n` between the others is made free. -/
def release (pre : List Block) (n : Nat) (post : List Block) : List Block :=
  joinBack pre (joinFront n post)

theorem joinBack_concat :
    joinBack (pre ++ [a]) (b :: post) =
      if a.used then pre ++ a :: b :: post else pre ++ ⟨a.size + b.size, false⟩ :: post := by
  have happend : pre ++ [a] ++ b :: post = pre ++ a :: b :: post := by simp
  rw [joinBack, List.getLast?_concat, List.dropLast_concat, happend]

/-- What is joined behind a block in use is free at its front. -/
theorem exists_joinFront (n : Nat) (post : List Block) :
    ∃ m rest, joinFront n post = ⟨m, false⟩ :: rest ∧ n + whole post = m + whole rest := by
  unfold joinFront
  split
  · exact ⟨n, [], rfl, rfl⟩
  next c post =>
    split
    · exact ⟨n, c :: post, rfl, rfl⟩
    · exact ⟨n + c.size, post, rfl, by rw [whole_cons, Nat.add_assoc]⟩

theorem usedAt_joinFront (pos n : Nat) (post : List Block) :
    usedAt pos (joinFront n post) = usedAt (pos + n) post := by
  unfold joinFront
  split
  · rfl
  next c post =>
    split
    · rfl
    next hc => simp [usedAt, hc, Nat.add_assoc]

/-- Only the block that is made free is no longer in use. -/
theorem usedAt_release (pos : Nat) :
    usedAt pos (release pre n post) = usedAt pos pre ++ usedAt (pos + whole pre + n) post := by
  obtain ⟨m, rest, heq, -⟩ := exists_joinFront n post
  unfold release
  rw [← usedAt_joinFront, heq]
  rcases List.eq_nil_or_concat' pre with rfl | ⟨pre, a, rfl⟩
  · rfl
  · rw [joinBack_concat]
    split
    next => rw [← usedAt_append, List.append_assoc]; rfl
    next ha => simp [usedAt_append, usedAt, ha, Nat.add_assoc]

theorem inUse_release : inUse (release pre n post) = inUse pre + inUse post := by
  rw [inUse_eq 0, usedAt_release, List.map_append, List.sum_append, ← inUse_eq, ← inUse_eq]

theorem firstFree_release (pos : Nat) :
    firstFree pos (release pre n post) = firstFree pos pre := by
  obtain ⟨m, rest, heq, -⟩ := exists_joinFront n post
  unfold release
  rw [heq]
  rcases List.eq_nil_or_concat' pre with rfl | ⟨pre, a, rfl⟩
  · rfl
  · rw [joinBack_concat]
    split
    next =>
      have hcons : pre ++ a :: ⟨m, false⟩ :: rest = pre ++ [a] ++ ⟨m, false⟩ :: rest := by simp
      rw [hcons, firstFree_append_cons rfl]
    next ha =>
      rw [firstFree_append_cons rfl, firstFree_append_cons (Bool.eq_false_iff.mpr ha)]

theorem Tidy.joinFront (h : Tidy least unit post) (hn : least ≤ n) (hdvd : unit ∣ n) :
    Tidy least unit (joinFront n post) := by
  have hempty : Tidy least unit [] := ⟨nofun, nofun, .nil⟩
  match post with
  | [] => exact Tidy.glue (b := ⟨n, false⟩) hempty hempty hn hdvd nofun nofun
  | c :: post =>
      rw [Blocks.joinFront]
      split
      next hc =>
        refine Tidy.glue (b := ⟨n, false⟩) hempty h hn hdvd nofun fun c' hc' => ?_
        obtain rfl := Option.some.inj hc'
        exact .inr hc
      next hc =>
        have hc : c.used = false := Bool.eq_false_iff.mpr hc
        refine Tidy.glue (b := ⟨n + c.size, false⟩) hempty h.tail
          (Nat.le_trans hn (Nat.le_add_right n c.size))
          (Nat.dvd_add hdvd (h.dvd c (.head post))) nofun fun c' hc' => ?_
        exact .inr ((@Tidy.beside_free _ _ _ [] _ h hc).2 c' hc')

theorem Tidy.release (h : Tidy least unit (pre ++ b :: post)) :
    Tidy least unit (release pre b.size post) := by
  have hmem : b ∈ pre ++ b :: post := List.mem_append_right _ (.head _)
  have hfront : Tidy least unit (Blocks.joinFront b.size post) :=
    Tidy.joinFront (Tidy.tail (Tidy.right h)) (h.least_le b hmem) (h.dvd b hmem)
  obtain ⟨m, rest, heq, -⟩ := exists_joinFront b.size post
  unfold Blocks.release
  rw [heq] at hfront ⊢
  have hused : ∀ c ∈ rest.head?, c.used = true :=
    (@Tidy.beside_free _ _ _ [] _ hfront rfl).2
  rcases List.eq_nil_or_concat' pre with rfl | ⟨pre, a, rfl⟩
  · exact hfront
  · have hpre : Tidy least unit pre := h.left.left
    have ha : a ∈ pre ++ [a] ++ b :: post :=
      List.mem_append_left _ (List.mem_append_right _ (.head _))
    rw [joinBack_concat]
    split
    next hau =>
      have := Tidy.glue (b := ⟨m, false⟩) h.left hfront.tail (hfront.least_le _ (.head _))
        (hfront.dvd _ (.head _)) (fun a' ha' => ?_) fun c hc => .inr (hused c hc)
      · rwa [List.append_assoc] at this
      · rw [List.getLast?_concat] at ha'
        obtain rfl := Option.some.inj ha'
        exact .inl hau
    next hau =>
      have hau : a.used = false := Bool.eq_false_iff.mpr hau
      have hbefore : ∀ a' ∈ pre.getLast?, a'.used = true := by
        have h' := h
        rw [List.append_assoc] at h'
        exact (h'.beside_free hau).1
      refine Tidy.glue (b := ⟨a.size + m, false⟩) hpre hfront.tail
        (Nat.le_trans (h.least_le a ha) (Nat.le_add_right ..))
        (Nat.dvd_add (h.dvd a ha) (hfront.dvd _ (.head _))) (fun a' ha' => ?_)
        fun c hc => .inr (hused c hc)
      exact .inl (hbefore a' ha')

/-! ## Cutting a block short -/

/-- A block in use is cut down to size `n`.  The rest is joined to a free block behind it, or made
a block if it is large enough, or kept. -/
def shrink (least n : Nat) (b : Block) (post : List Block) : List Block :=
  if n = b.size then b :: post
  else
    match post with
    | ⟨size, false⟩ :: post => ⟨n, true⟩ :: ⟨b.size - n + size, false⟩ :: post
    | post => if n + least ≤ b.size then ⟨n, true⟩ :: ⟨b.size - n, false⟩ :: post else b :: post

theorem shrink_self : shrink least b.size b post = b :: post := if_pos rfl

theorem shrink_behind_free {size : Nat} (hne : n ≠ b.size) :
    shrink least n b (⟨size, false⟩ :: post) =
      ⟨n, true⟩ :: ⟨b.size - n + size, false⟩ :: post :=
  if_neg hne

theorem shrink_behind_used (hne : n ≠ b.size)
    (hbehind : ∀ size rest, post ≠ ⟨size, false⟩ :: rest) :
    shrink least n b post =
      if n + least ≤ b.size then ⟨n, true⟩ :: ⟨b.size - n, false⟩ :: post else b :: post := by
  rw [shrink, if_neg hne]
  exact hbehind

/-- Only the block that is cut down changes among those in use. -/
theorem usedAt_shrink (pos : Nat) (hb : b.used = true) (hn : n ≤ b.size) :
    ∃ m, n ≤ m ∧ m ≤ b.size ∧
      usedAt pos (shrink least n b post) = (pos, m) :: usedAt (pos + b.size) post := by
  unfold shrink
  split
  · exact ⟨b.size, hn, Nat.le_refl _, by simp [usedAt, hb]⟩
  · split
    next size post =>
      refine ⟨n, Nat.le_refl n, hn, ?_⟩
      have hpos : pos + n + (b.size - n + size) = pos + b.size + size := by omega
      simp [usedAt, hpos]
    next =>
      split
      next =>
        refine ⟨n, Nat.le_refl n, hn, ?_⟩
        have hpos : pos + n + (b.size - n) = pos + b.size := by omega
        simp [usedAt, hpos]
      next => exact ⟨b.size, hn, Nat.le_refl _, by simp [usedAt, hb]⟩

theorem Tidy.shrink (h : Tidy least unit (pre ++ b :: post)) (hn : least ≤ n) (hle : n ≤ b.size)
    (hdvd : unit ∣ n) : Tidy least unit (pre ++ shrink least n b post) := by
  have hmem : b ∈ pre ++ b :: post := List.mem_append_right _ (.head _)
  have hpost : Tidy least unit post := Tidy.tail (Tidy.right h)
  have hempty : Tidy least unit [] := ⟨nofun, nofun, .nil⟩
  have hrest : unit ∣ b.size - n := Nat.dvd_sub (h.dvd b hmem) hdvd
  unfold Blocks.shrink
  split
  · exact h
  · split
    next size post =>
      have hbehind := (@Tidy.beside_free _ _ _ [] _ hpost rfl).2
      refine Tidy.glue h.left ?_ hn hdvd (fun _ _ => .inr rfl) fun _ _ => .inl rfl
      refine Tidy.glue (b := ⟨b.size - n + size, false⟩) hempty hpost.tail ?_ ?_ nofun ?_
      · exact Nat.le_trans (hpost.least_le _ (.head _)) (Nat.le_add_left ..)
      · exact Nat.dvd_add hrest (hpost.dvd _ (.head _))
      · exact fun c hc => .inr (hbehind c hc)
    next hused =>
      split
      next hsplit =>
        refine Tidy.glue h.left ?_ hn hdvd (fun _ _ => .inr rfl) fun _ _ => .inl rfl
        refine Tidy.glue (b := ⟨b.size - n, false⟩) hempty hpost ?_ hrest nofun fun c hc => ?_
        · exact (Nat.le_sub_iff_add_le hle).mpr (Nat.add_comm n least ▸ hsplit)
        · match post, hc with
          | ⟨size, true⟩ :: post, hc =>
              obtain rfl := Option.some.inj hc
              exact .inr rfl
          | ⟨size, false⟩ :: post, _ => exact absurd rfl (hused size post)
      next => exact h

end Blocks
