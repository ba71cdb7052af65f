import Adhoc.Lib.Machine
import Mathlib.Order.Basic

/-!
# Samples of a growing quantity

An operation takes a sample of a quantity that grows, may drop it and take
another one, and returns the last.  Between the accesses of the operation the
quantity goes on.

A `Sampler` says how a machine does this: what the quantity is, which sample is
held, what was returned.  Then every value returned is what the quantity was at
one instant of the operation (`Sampler.linearizable`), and later operations
return later values (`Sampler.sorted`).
-/

namespace Sampling

open EventMachine

universe u v w

/-- What one step does with the sample held and the values returned, the last
one first, while the quantity is `now`.  A sample is taken only when it is
`ready`. -/
inductive Move {α : Type w} (ready : Prop) (now : α) :
    Option α → List α → Option α → List α → Prop where
  | keep (held : Option α) (rs : List α) : Move ready now held rs held rs
  | lose (held : Option α) (rs : List α) : Move ready now held rs none rs
  | take (held : Option α) (rs : List α) : ready → Move ready now held rs (some now) rs
  | give (x : α) (rs : List α) : Move ready now (some x) rs none (x :: rs)

/-- How a machine samples a quantity in the states with `inv`. -/
structure Sampler {σ : Type u} {ε : Type v} (M : Machine σ ε) (α : Type w) [Preorder α] where
  inv : σ → Prop
  now : σ → α
  ready : σ → Prop
  held : σ → Option α
  returned : σ → List α
  inv_step : ∀ {s e t}, inv s → M.step s e = some t → inv t
  now_le : ∀ {s e t}, inv s → M.step s e = some t → now s ≤ now t
  move : ∀ {s e t}, inv s → M.step s e = some t →
    Move (ready s) (now s) (held s) (returned s) (held t) (returned t)

theorem Move.suffix {α : Type w} {ready : Prop} {now : α} {held held' : Option α}
    {rs rs' : List α} (h : Move ready now held rs held' rs') : rs <:+ rs' := by
  cases h with
  | keep => exact List.suffix_refl _
  | lose => exact List.suffix_refl _
  | take => exact List.suffix_refl _
  | give x => exact List.suffix_cons x _

/-- A move that returns nothing holds a sample it held before or takes one now; the other returns
the sample that was held. -/
theorem Move.held_or {α : Type w} {ready : Prop} {now : α} {held held' : Option α}
    {rs rs' : List α} (h : Move ready now held rs held' rs') :
    (rs' = rs ∧ ∀ x, held' = some x → held = some x ∨ ready ∧ now = x) ∨
      ∃ x, held = some x ∧ rs' = x :: rs := by
  cases h with
  | keep => exact .inl ⟨rfl, fun x hx => .inl hx⟩
  | lose => exact .inl ⟨rfl, by rintro x ⟨⟩⟩
  | take _ _ hready => exact .inl ⟨rfl, fun x hx => .inr ⟨hready, Option.some.inj hx⟩⟩
  | give x => exact .inr ⟨x, rfl, rfl⟩

variable {σ : Type u} {ε : Type v} {M : Machine σ ε} {α : Type w} [Preorder α]
variable (S : Sampler M α) {s t : σ} {es : List ε} {x : α}

theorem Sampler.inv_run (h : S.inv s) (hrun : M.run s es = some t) : S.inv t :=
  Machine.Reaches.invariant (fun _ _ _ hstep hs => S.inv_step hs hstep) ⟨es, hrun⟩ h

/-! ## Order -/

/-- The values returned are in order, none is later than the sample held, and
the sample is not later than the quantity. -/
structure Ordered (now : α) (held : Option α) (rs : List α) : Prop where
  sorted : rs.Pairwise (· ≥ ·)
  returned_le : ∀ r ∈ rs, r ≤ now
  held_le : ∀ x, held = some x → x ≤ now
  returned_le_held : ∀ x, held = some x → ∀ r ∈ rs, r ≤ x

/-- A move keeps the order. -/
theorem Ordered.move {ready : Prop} {now : α} {held held' : Option α} {rs rs' : List α}
    (h : Ordered now held rs) (hmove : Move ready now held rs held' rs') :
    Ordered now held' rs' := by
  cases hmove with
  | keep => exact h
  | lose => exact ⟨h.sorted, h.returned_le, by rintro x ⟨⟩, by rintro x ⟨⟩⟩
  | take =>
      refine ⟨h.sorted, h.returned_le, ?_, ?_⟩
      · rintro x ⟨⟩
        exact le_rfl
      · rintro x ⟨⟩
        exact h.returned_le
  | give x =>
      refine ⟨?_, ?_, by rintro y ⟨⟩, by rintro y ⟨⟩⟩
      · exact List.pairwise_cons.mpr ⟨h.returned_le_held x rfl, h.sorted⟩
      · intro r hr
        cases hr with
        | head => exact h.held_le x rfl
        | tail _ hr => exact h.returned_le r hr

theorem Ordered.mono {now now' : α} {held : Option α} {rs : List α} (h : Ordered now held rs)
    (hle : now ≤ now') : Ordered now' held rs where
  sorted := h.sorted
  returned_le r hr := (h.returned_le r hr).trans hle
  held_le x hx := (h.held_le x hx).trans hle
  returned_le_held := h.returned_le_held

/-- From a state in order a run comes to states in order. -/
theorem Sampler.ordered (h : S.inv s) (hs : Ordered (S.now s) (S.held s) (S.returned s))
    (hrun : M.run s es = some t) : Ordered (S.now t) (S.held t) (S.returned t) := by
  have hboth : S.inv t ∧ Ordered (S.now t) (S.held t) (S.returned t) :=
    Machine.Reaches.invariant
      (I := fun u => S.inv u ∧ Ordered (S.now u) (S.held u) (S.returned u))
      (fun u e w hstep hu =>
        ⟨S.inv_step hu.1 hstep, (hu.2.move (S.move hu.1 hstep)).mono (S.now_le hu.1 hstep)⟩)
      ⟨es, hrun⟩ ⟨h, hs⟩
  exact hboth.2

/-- Where nothing was returned before, the values are returned in order. -/
theorem Sampler.sorted (h : S.inv s) (hheld : S.held s = none) (hnone : S.returned s = [])
    (hrun : M.run s es = some t) : (S.returned t).Pairwise (· ≥ ·) := by
  refine (S.ordered h ⟨?_, ?_, ?_, ?_⟩ hrun).sorted <;> simp [hheld, hnone]

/-! ## One instant -/

theorem Sampler.returned_suffix (h : S.inv s) (hrun : M.run s es = some t) :
    S.returned s <:+ S.returned t := by
  induction es generalizing s with
  | nil => exact Option.some.inj hrun ▸ List.suffix_refl _
  | cons e es ih =>
      obtain ⟨u, hu, hrest⟩ := Machine.run_cons.mp hrun
      exact (S.move h hu).suffix.trans (ih (S.inv_step h hu) hrest)

/-- What a run returns first is the sample it starts with, or what the quantity was in a state
where it was ready and nothing was returned yet. -/
theorem Sampler.first_returned (h : S.inv s) (hrun : M.run s es = some t)
    (hret : S.returned t = x :: S.returned s) :
    S.held s = some x ∨
      ∃ u, M.Visits s es u ∧ S.ready u ∧ S.returned u = S.returned s ∧ S.now u = x := by
  induction es generalizing s with
  | nil =>
      obtain rfl := Option.some.inj hrun
      exact absurd hret.symm (List.cons_ne_self x _)
  | cons e es ih =>
      obtain ⟨u, hu, hrest⟩ := Machine.run_cons.mp hrun
      have hinv := S.inv_step h hu
      obtain ⟨hsame, hheld⟩ | ⟨y, hheld, hgiven⟩ := (S.move h hu).held_or
      · obtain hx | ⟨w, hvisits, hready, hrs, hnow⟩ := ih hinv hrest (hsame ▸ hret)
        · obtain hs | ⟨hready, hnow⟩ := hheld x hx
          · exact .inl hs
          · exact .inr ⟨s, .start _, hready, rfl, hnow⟩
        · exact .inr ⟨w, Machine.visits_cons.mpr (.inr ⟨u, hu, hvisits⟩), hready,
            hrs.trans hsame, hnow⟩
      · have hsuffix := S.returned_suffix hinv hrest
        rw [hgiven, hret] at hsuffix
        have heq : y :: S.returned s = x :: S.returned s := hsuffix.eq_of_length (by simp)
        exact .inl ((List.cons.inj heq).1 ▸ hheld)

/-- An operation that starts without a sample returns what the quantity was at one instant before
it returns. -/
theorem Sampler.linearizable (h : S.inv s) (hheld : S.held s = none) (hrun : M.run s es = some t)
    (hret : S.returned t = x :: S.returned s) :
    ∃ u, M.Visits s es u ∧ S.ready u ∧ S.returned u = S.returned s ∧ S.now u = x := by
  obtain hx | hvisit := S.first_returned h hrun hret
  · exact absurd (hheld.symm.trans hx) (Option.some_ne_none x).symm
  · exact hvisit

end Sampling
