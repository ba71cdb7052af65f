import Mathlib.Logic.Relation

/-!
# Incremental readers

A reader is fed pieces of its input.  A step takes the state and the symbols not
read yet, and either reads some of them or, when it cannot go on, waits for more.
The one condition is that a step does not depend on the symbols behind those it
reads (`Reader.stable`): a step that can be taken is the same when more has come.
`Reader.Local` is a reader whose steps need no more than the symbols they read.

`Reads` reads as far as it can.  Reading a front part and then the rest reads the
whole (`Reader.Reads.append`), and there is one end (`Reader.Reads.unique`).  So the
end does not depend on where the input was cut.
-/

namespace Incremental

/-- A reader with states `σ`.  What a step leaves of the symbols is not read yet. -/
structure Reader (σ α : Type) where
  step : σ → List α → Option (σ × List α)
  stable : ∀ {s l s' l'} (m : List α), step s l = some (s', l') →
    step s (l ++ m) = some (s', l' ++ m)

variable {σ α : Type} {R : Reader σ α}

/-- A step can be taken as soon as the symbols it reads have come. -/
def Reader.Local (R : Reader σ α) : Prop :=
  ∀ {s l s' l'}, R.step s l = some (s', l') → ∃ k, l = k ++ l' ∧ R.step s k = some (s', [])

/-- Some steps. -/
def Reader.Steps (R : Reader σ α) : σ × List α → σ × List α → Prop :=
  Relation.ReflTransGen fun x y => R.step x.1 x.2 = some y

/-- All steps there are. -/
def Reader.Reads (R : Reader σ α) (x y : σ × List α) : Prop :=
  R.Steps x y ∧ R.step y.1 y.2 = none

/-- Some steps, as many as there are up to a number. -/
def Reader.run (R : Reader σ α) : Nat → σ × List α → σ × List α
  | 0, x => x
  | n + 1, x =>
      match R.step x.1 x.2 with
      | none => x
      | some y => R.run n y

variable {s s' : σ} {l l' : List α} {x y y' : σ × List α}

theorem Reader.Steps.head (h : R.step s l = some x) (h' : R.Steps x y) : R.Steps (s, l) y :=
  Relation.ReflTransGen.head h h'

theorem Reader.steps_run (R : Reader σ α) (n : Nat) (x : σ × List α) : R.Steps x (R.run n x) := by
  induction n generalizing x with
  | zero => exact .refl
  | succ n ih =>
      rw [run]
      split
      next => exact .refl
      next y hstep => exact .head hstep (ih y)

/-- What a run that came to an end reads. -/
theorem Reader.reads_run {n : Nat} (h : R.step (R.run n x).1 (R.run n x).2 = none) :
    R.Reads x (R.run n x) :=
  ⟨R.steps_run n x, h⟩

theorem Reader.Steps.trans {z : σ × List α} (h : R.Steps x y) (h' : R.Steps y z) : R.Steps x z :=
  Relation.ReflTransGen.trans h h'

/-- The steps are the same when more has come. -/
theorem Reader.Steps.append (h : R.Steps x y) (m : List α) :
    R.Steps (x.1, x.2 ++ m) (y.1, y.2 ++ m) := by
  induction h with
  | refl => exact .refl
  | tail _ hstep ih => exact ih.tail (R.stable m hstep)

/-- The steps to a place can be taken as soon as the symbols up to it have come. -/
theorem Reader.Steps.front (hR : R.Local) (h : R.Steps (s, l) y) :
    ∃ k, l = k ++ y.2 ∧ R.Steps (s, k) (y.1, []) := by
  induction h with
  | refl => exact ⟨[], rfl, .refl⟩
  | tail _ hstep ih =>
      obtain ⟨k, rfl, hsteps⟩ := ih
      obtain ⟨k', hk, hstep'⟩ := hR hstep
      refine ⟨k ++ k', by rw [hk, List.append_assoc], ?_⟩
      exact (hsteps.append k').tail hstep'

/-- Reading a front part and then the rest reads the whole. -/
theorem Reader.Reads.append {m : List α} (h : R.Reads (s, l) (s', l'))
    (h' : R.Reads (s', l' ++ m) y) :
    R.Reads (s, l ++ m) y :=
  ⟨(h.1.append m).trans h'.1, h'.2⟩

/-- Steps lead towards the one end. -/
theorem Reader.Reads.steps (h : R.Reads x y) {z : σ × List α} (h' : R.Steps x z) : R.Reads z y := by
  induction h' using Relation.ReflTransGen.head_induction_on with
  | refl => exact h
  | head hstep _ ih =>
      apply ih
      rcases Relation.ReflTransGen.cases_head h.1 with rfl | ⟨w, hw, hrest⟩
      · rw [h.2] at hstep
        cases hstep
      · rw [hw] at hstep
        cases hstep
        exact ⟨hrest, h.2⟩

/-- There is one end. -/
theorem Reader.Reads.unique (h : R.Reads x y) (h' : R.Reads x y') : y = y' := by
  have hend := h.steps h'.1
  rcases Relation.ReflTransGen.cases_head hend.1 with heq | ⟨w, hw, -⟩
  · exact heq.symm
  · rw [h'.2] at hw
    cases hw

end Incremental
