import Mathlib

/-!
# Pieces of a whole

A whole of `n` octets is cut into pieces, each from one place up to another
(`Parted`).  Some of the pieces are at hand, in their order.  They are all of them
when nothing is missing between them or at either end (`Parted.eq_of_seamless`), and
when each of them is at hand (`Parted.eq_of_forall_mem`).
-/

namespace Pieces

universe u

variable {α : Type u} {lo hi : α → Nat} {ps qs : List α} {n : Nat}

/-- Each piece begins where the one before ends. -/
def Seamless (lo hi : α → Nat) (ps : List α) : Prop := ps.IsChain fun p q => hi p = lo q

instance (lo hi : α → Nat) (ps : List α) : Decidable (Seamless lo hi ps) :=
  inferInstanceAs (Decidable (ps.IsChain _))

/-- The pieces lie one behind the other. -/
def InOrder (lo hi : α → Nat) (ps : List α) : Prop := ps.Pairwise fun p q => hi p ≤ lo q

/-- The pieces of a whole. -/
structure Parted (lo hi : α → Nat) (n : Nat) (ps : List α) : Prop where
  seamless : Seamless lo hi ps
  start : ∀ p ∈ ps.head?, lo p = 0
  stop : ∀ p ∈ ps.getLast?, hi p = n
  lt : ∀ p ∈ ps, lo p < hi p

theorem Seamless.apart (h : Seamless lo hi ps) (hlt : ∀ p ∈ ps, lo p < hi p) :
    InOrder lo hi ps := by
  induction ps with
  | nil => exact .nil
  | cons p ps ih =>
      obtain ⟨hhead, hrest⟩ := List.isChain_cons.mp h
      have hapart := ih hrest fun q hq => hlt q (.tail _ hq)
      refine List.pairwise_cons.mpr ⟨fun q hq => ?_, hapart⟩
      cases ps with
      | nil => exact nomatch hq
      | cons r ps =>
          have heq : hi p = lo r := hhead r rfl
          rcases List.mem_cons.mp hq with rfl | hq
          · exact Nat.le_of_eq heq
          · have hle := (List.pairwise_cons.mp hapart).1 q hq
            have hr := hlt r (.tail _ (.head _))
            omega

/-- Pieces that lie apart begin at different places, in their order. -/
theorem InOrder.pairwise_lt (h : InOrder lo hi ps) (hlt : ∀ p ∈ ps, lo p < hi p) :
    ps.Pairwise fun p q => lo p < lo q := by
  refine List.Pairwise.imp_of_mem (fun {p q} hp _ hle => ?_) h
  exact Nat.lt_of_lt_of_le (hlt p hp) hle

theorem eq_of_lo_eq (h : ps.Pairwise fun p q => lo p < lo q) {p q : α} (hp : p ∈ ps) (hq : q ∈ ps)
    (heq : lo p = lo q) : p = q := by
  induction ps with
  | nil => exact nomatch hp
  | cons r ps ih =>
      obtain ⟨hafter, hrest⟩ := List.pairwise_cons.mp h
      rcases List.mem_cons.mp hp with rfl | hp'
      · rcases List.mem_cons.mp hq with rfl | hq'
        · rfl
        · exact absurd heq (Nat.ne_of_lt (hafter q hq'))
      · rcases List.mem_cons.mp hq with rfl | hq'
        · exact absurd heq.symm (Nat.ne_of_lt (hafter p hp'))
        · exact ih hrest hp' hq'

theorem InOrder.eq_or_le (h : InOrder lo hi ps) {p q : α} (hp : p ∈ ps) (hq : q ∈ ps) :
    p = q ∨ hi p ≤ lo q ∨ hi q ≤ lo p := by
  induction ps with
  | nil => exact nomatch hp
  | cons r ps ih =>
      obtain ⟨hafter, hrest⟩ := List.pairwise_cons.mp h
      rcases List.mem_cons.mp hp with rfl | hp'
      · rcases List.mem_cons.mp hq with rfl | hq'
        · exact .inl rfl
        · exact .inr (.inl (hafter q hq'))
      · rcases List.mem_cons.mp hq with rfl | hq'
        · exact .inr (.inr (hafter p hp'))
        · exact ih hrest hp' hq'

/-- A piece more keeps the others apart. -/
theorem InOrder.insert {pre post : List α} {p : α} (h : InOrder lo hi (pre ++ post))
    (hpre : ∀ q ∈ pre, hi q ≤ lo p) (hpost : ∀ q ∈ post, hi p ≤ lo q) :
    InOrder lo hi (pre ++ p :: post) := by
  obtain ⟨hfront, hback, hacross⟩ := List.pairwise_append.mp h
  refine List.pairwise_append.mpr ⟨hfront, List.pairwise_cons.mpr ⟨hpost, hback⟩,
    fun q hq r hr => ?_⟩
  rcases List.mem_cons.mp hr with rfl | hr
  · exact hpre q hq
  · exact hacross q hq r hr

/-- Pieces that lie apart within a whole are no more than it, and they fill it only when nothing is
missing between them. -/
theorem InOrder.add_sum_le {a : Nat} (h : InOrder lo hi ps) (hlt : ∀ p ∈ ps, lo p < hi p)
    (hle : ∀ p ∈ ps, hi p ≤ n) (ha : a ≤ n) (hstart : ∀ p ∈ ps.head?, a ≤ lo p) :
    a + (ps.map fun p => hi p - lo p).sum ≤ n ∧
      (a + (ps.map fun p => hi p - lo p).sum = n → Seamless lo hi ps) := by
  induction ps generalizing a with
  | nil => exact ⟨ha, fun _ => .nil⟩
  | cons p ps ih =>
      obtain ⟨hafter, hrest⟩ := List.pairwise_cons.mp h
      have hp := hlt p (.head _)
      have hap := hstart p rfl
      have hlt' : ∀ q ∈ ps, lo q < hi q := fun q hq => hlt q (.tail _ hq)
      have hle' : ∀ q ∈ ps, hi q ≤ n := fun q hq => hle q (.tail _ hq)
      obtain ⟨hsum, hfull⟩ := ih hrest hlt' hle' (hle p (.head _)) fun q hq =>
        hafter q (List.mem_of_mem_head? hq)
      rw [List.map_cons, List.sum_cons]
      refine ⟨by omega, fun heq => List.isChain_cons.mpr ⟨fun q hq => ?_, hfull (by omega)⟩⟩
      have hpq := hafter q (List.mem_of_mem_head? hq)
      have hq' : lo q ≤ n :=
        Nat.le_of_lt (Nat.lt_of_lt_of_le (hlt' q (List.mem_of_mem_head? hq))
          (hle' q (List.mem_of_mem_head? hq)))
      have hbehind := (ih hrest hlt' hle' hq' fun r hr =>
        Nat.le_of_eq (congrArg lo (Option.some.inj (hq.symm.trans hr)))).1
      omega

/-- Pieces without a gap, from the first to the last one of a cut, are all of it. -/
theorem eq_of_seamless_of_mem {l : α} (hps : Seamless lo hi ps) (hqs : Seamless lo hi qs)
    (hlt : ∀ p ∈ ps, lo p < hi p) (hsub : ∀ q ∈ qs, q ∈ ps) (hlast : l ∈ ps.getLast?)
    (hmem : l ∈ qs) (hhead : ∀ p ∈ ps.head?, ∀ q ∈ qs.head?, lo p = lo q) : qs = ps := by
  induction ps generalizing qs with
  | nil => exact nomatch hlast
  | cons p ps ih =>
      have hinj : (p :: ps).Pairwise fun p q => lo p < lo q := (hps.apart hlt).pairwise_lt hlt
      cases qs with
      | nil => exact nomatch hmem
      | cons q qs =>
          obtain rfl : q = p := eq_of_lo_eq hinj (hsub q (.head _)) (.head _)
            (hhead p rfl q rfl).symm
          obtain ⟨hphead, hps'⟩ := List.isChain_cons.mp hps
          obtain ⟨hqhead, hqs'⟩ := List.isChain_cons.mp hqs
          have hpq := (List.pairwise_cons.mp hinj).1
          -- What follows the piece begins where it ends, so it is not the piece again.
          have hbehind : ∀ r ∈ qs, r ∈ ps := by
            have hqlt : ∀ r ∈ q :: qs, lo r < hi r := fun r hr => hlt r (hsub r hr)
            have hafter := (List.pairwise_cons.mp ((hqs.apart hqlt).pairwise_lt hqlt)).1
            intro r hr
            rcases List.mem_cons.mp (hsub r (.tail _ hr)) with rfl | hr'
            · exact absurd (hafter r hr) (Nat.lt_irrefl _)
            · exact hr'
          cases ps with
          | nil =>
              cases qs with
              | nil => rfl
              | cons r qs => exact nomatch hbehind r (.head _)
          | cons r ps =>
              have hlast' : l ∈ (r :: ps).getLast? := by
                rwa [List.getLast?_cons_cons] at hlast
              have hne : l ≠ q := by
                rintro rfl
                exact absurd (hpq l (List.mem_of_getLast? hlast')) (Nat.lt_irrefl _)
              have hmem' : l ∈ qs := (List.mem_cons.mp hmem).resolve_left hne
              have heq := ih hps' hqs' (fun s hs => hlt s (.tail _ hs)) hbehind hlast' hmem'
                fun a ha b hb => (hphead a ha).symm.trans (hqhead b hb)
              rw [heq]

theorem Parted.apart (h : Parted lo hi n ps) : InOrder lo hi ps := h.seamless.apart h.lt

/-- A piece is known by where it begins. -/
theorem Parted.eq_of_lo_eq (h : Parted lo hi n ps) {p q : α} (hp : p ∈ ps) (hq : q ∈ ps)
    (heq : lo p = lo q) : p = q := Pieces.eq_of_lo_eq (h.apart.pairwise_lt h.lt) hp hq heq

/-- The pieces at hand are the whole when nothing is missing between them or at either end. -/
theorem Parted.eq_of_seamless {l : α} (h : Parted lo hi n ps) (hqs : Seamless lo hi qs)
    (hsub : ∀ q ∈ qs, q ∈ ps) (hstart : ∀ q ∈ qs.head?, lo q = 0) (hlast : l ∈ ps.getLast?)
    (hmem : l ∈ qs) : qs = ps :=
  eq_of_seamless_of_mem h.seamless hqs h.lt hsub hlast hmem fun p hp q hq =>
    (h.start p hp).trans (hstart q hq).symm

theorem Parted.hi_le (h : Parted lo hi n ps) {p : α} (hp : p ∈ ps) : hi p ≤ n := by
  cases hlast : ps.getLast? with
  | none => exact absurd hp (List.getLast?_eq_none_iff.mp hlast ▸ List.not_mem_nil)
  | some l =>
      have hl := h.stop l hlast
      obtain ⟨front, rfl⟩ := List.getLast?_eq_some_iff.mp hlast
      rcases List.mem_append.mp hp with hp' | hp'
      · have hpl := (List.pairwise_append.mp h.apart).2.2 p hp' l (.head _)
        have hlt := h.lt l (List.mem_append_right _ (.head _))
        omega
      · rw [List.mem_singleton.mp hp']
        exact Nat.le_of_eq hl

/-- Nothing is missing between the pieces at hand when they are as much as the whole. -/
theorem Parted.seamless_of_sum_eq (h : Parted lo hi n ps) (hqs : InOrder lo hi qs)
    (hsub : ∀ q ∈ qs, q ∈ ps) (hsum : (qs.map fun q => hi q - lo q).sum = n) :
    Seamless lo hi qs :=
  (hqs.add_sum_le (fun q hq => h.lt q (hsub q hq)) (fun q hq => h.hi_le (hsub q hq))
    (Nat.zero_le n) fun _ _ => Nat.zero_le _).2 (by omega)

/-- The pieces at hand are the whole when each of them is at hand. -/
theorem Parted.eq_of_forall_mem (h : Parted lo hi n ps) (hqs : InOrder lo hi qs)
    (hsub : ∀ q ∈ qs, q ∈ ps) (hall : ∀ p ∈ ps, p ∈ qs) : qs = ps := by
  have hpairs {l : List α} (hl : InOrder lo hi l) (hin : ∀ p ∈ l, p ∈ ps) :
      l.Pairwise fun p q => lo p < lo q := hl.pairwise_lt fun p hp => h.lt p (hin p hp)
  have hps := hpairs h.apart fun _ hp => hp
  have hqs' := hpairs hqs hsub
  have hnodup {l : List α} (hl : l.Pairwise fun p q => lo p < lo q) : l.Nodup :=
    hl.imp fun {p q} hlt heq => absurd (congrArg lo heq) (Nat.ne_of_lt hlt)
  have hperm : qs.Perm ps := (List.perm_ext_iff_of_nodup (hnodup hqs') (hnodup hps)).mpr fun p =>
    ⟨hsub p, hall p⟩
  exact hperm.eq_of_pairwise (fun p q _ _ hpq hqp => absurd (Nat.lt_trans hpq hqp)
    (Nat.lt_irrefl _)) hqs' hps

end Pieces
