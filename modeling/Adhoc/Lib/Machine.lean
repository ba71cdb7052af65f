import Mathlib.Tactic.Common

/-!
# Event machines

A machine has states and events.  In a state an event either cannot happen or
leads to one next state, so everything the environment decides is part of the
event.  A *run* is a list of events, each possible where it happens.

The induction rule is `Machine.invariant`: a property that every step keeps, as
long as the step meets a condition, holds at the end of every run whose steps
all meet it, and in every state the run visits (`Machine.Visits`).  Where the
condition is also necessary for a step, it is for a run
(`Machine.visits_iff_meets`).  Where every step lowers a measure, runs come to an end
(`Machine.exists_run_ended`).
-/

namespace EventMachine

universe u v

/-- A machine with states `σ` and events `ε`.  `none` says that the event cannot
happen in the state. -/
structure Machine (σ : Type u) (ε : Type v) where
  /-- The step of one event. -/
  step : σ → ε → Option σ

variable {σ : Type u} {ε : Type v}

/-- The state after a list of events, if each of them could happen. -/
def Machine.run (M : Machine σ ε) : σ → List ε → Option σ
  | s, [] => some s
  | s, e :: es => (M.step s e).bind fun t => M.run t es

/-- Every step of the run meets the condition `C` where it is taken. -/
def Machine.Meets (M : Machine σ ε) (C : σ → ε → Prop) : σ → List ε → Prop
  | _, [] => True
  | s, e :: es => C s e ∧ ∀ t, M.step s e = some t → M.Meets C t es

/-- The run of `es` from `s` passes through `t`. -/
def Machine.Visits (M : Machine σ ε) (s : σ) (es : List ε) (t : σ) : Prop :=
  ∃ pre post, es = pre ++ post ∧ M.run s pre = some t

/-- Some run leads from `s` to `t`. -/
def Machine.Reaches (M : Machine σ ε) (s t : σ) : Prop := ∃ es, M.run s es = some t

variable {M : Machine σ ε} {C : σ → ε → Prop} {I : σ → Prop} {s t : σ} {e : ε}

theorem Machine.run_cons {es : List ε} :
    M.run s (e :: es) = some t ↔ ∃ u, M.step s e = some u ∧ M.run u es = some t := by
  simp [Machine.run, Option.bind_eq_some_iff]

/-- A run is a front part and the rest from there. -/
theorem Machine.run_append_iff {es es' : List ε} {u : σ} :
    M.run s (es ++ es') = some u ↔ ∃ t, M.run s es = some t ∧ M.run t es' = some u := by
  induction es generalizing s with
  | nil => simp [Machine.run]
  | cons e es ih =>
      rw [List.cons_append, Machine.run_cons]
      simp only [ih, Machine.run_cons]
      constructor
      · rintro ⟨v, hv, t, hrun, hrest⟩
        exact ⟨t, ⟨v, hv, hrun⟩, hrest⟩
      · rintro ⟨t, ⟨v, hv, hrun⟩, hrest⟩
        exact ⟨v, hv, t, hrun, hrest⟩

theorem Machine.run_append {es es' : List ε} {u : σ} (h : M.run s es = some t)
    (h' : M.run t es' = some u) : M.run s (es ++ es') = some u :=
  Machine.run_append_iff.mpr ⟨t, h, h'⟩

/-- A run meets a condition when its front part does and the rest does from
there. -/
theorem Machine.meets_append {es es' : List ε} :
    M.Meets C s (es ++ es') ↔ M.Meets C s es ∧ ∀ t, M.run s es = some t → M.Meets C t es' := by
  induction es generalizing s with
  | nil =>
      constructor
      · exact fun h => ⟨trivial, fun t ht => Option.some.inj ht ▸ h⟩
      · exact fun h => h.2 s rfl
  | cons e es ih =>
      constructor
      · rintro ⟨he, hrest⟩
        refine ⟨⟨he, fun u hu => (ih.mp (hrest u hu)).1⟩, fun t ht => ?_⟩
        obtain ⟨u, hu, hrun⟩ := Machine.run_cons.mp ht
        exact (ih.mp (hrest u hu)).2 t hrun
      · rintro ⟨⟨he, hfront⟩, hrest⟩
        refine ⟨he, fun u hu => ih.mpr ⟨hfront u hu, fun t ht => ?_⟩⟩
        exact hrest t (Machine.run_cons.mpr ⟨u, hu, ht⟩)

/-- A condition its events meet in every state is met by a run. -/
theorem Machine.meets_of_forall {es : List ε} (h : ∀ e ∈ es, ∀ t, C t e) : M.Meets C s es := by
  induction es generalizing s with
  | nil => trivial
  | cons e es ih =>
      exact ⟨h e (.head _) s, fun _ _ => ih fun e' he' => h e' (.tail _ he')⟩

/-- A run meets a condition when each of its events meets it where it happens. -/
theorem Machine.meets_iff {es : List ε} :
    M.Meets C s es ↔
      ∀ front e rest t, es = front ++ e :: rest → M.run s front = some t → C t e := by
  induction es generalizing s with
  | nil => exact iff_of_true trivial fun front e rest t heq => by simp at heq
  | cons e es ih =>
      constructor
      · rintro ⟨he, hrest⟩ front e' rest t heq hrun
        cases front with
        | nil =>
            obtain ⟨rfl, rfl⟩ := List.cons.inj heq
            exact Option.some.inj hrun ▸ he
        | cons e'' front =>
            obtain ⟨rfl, rfl⟩ := List.cons.inj heq
            obtain ⟨u, hu, hrun'⟩ := Machine.run_cons.mp hrun
            exact ih.mp (hrest u hu) front e' rest t rfl hrun'
      · intro h
        refine ⟨h [] e es s rfl rfl, fun u hu => ih.mpr ?_⟩
        rintro front e' rest t rfl hrun
        exact h (e :: front) e' rest t rfl (Machine.run_cons.mpr ⟨u, hu, hrun⟩)

/-- Whether a run meets a condition can be computed. -/
instance Machine.decidableMeets [∀ s e, Decidable (C s e)] :
    (s : σ) → (es : List ε) → Decidable (M.Meets C s es)
  | _, [] => .isTrue trivial
  | s, e :: es =>
      match h : M.step s e with
      | none => decidable_of_iff (C s e)
          ⟨fun hC => ⟨hC, fun _ ht => nomatch h.symm.trans ht⟩, And.left⟩
      | some u =>
          have := Machine.decidableMeets u es
          decidable_of_iff (C s e ∧ M.Meets C u es)
            ⟨fun hC => ⟨hC.1, fun _ ht => Option.some.inj (h.symm.trans ht) ▸ hC.2⟩,
              fun hC => ⟨hC.1, hC.2 u h⟩⟩

/-- A run does not meet a condition that one of its events misses. -/
theorem Machine.not_meets {front rest : List ε} (hrun : M.run s front = some t) (h : ¬ C t e) :
    ¬ M.Meets C s (front ++ e :: rest) :=
  fun hmeets => h (Machine.meets_iff.mp hmeets front e rest t rfl hrun)

/-- The run rule: what every step that meets `C` keeps, a run that meets `C`
keeps. -/
theorem Machine.invariant (hstep : ∀ s e t, C s e → M.step s e = some t → I s → I t)
    {es : List ε} (hmeets : M.Meets C s es) (hrun : M.run s es = some t) (h : I s) : I t := by
  induction es generalizing s with
  | nil => exact Option.some.inj hrun ▸ h
  | cons e es ih =>
      obtain ⟨u, hu, hrun'⟩ := Machine.run_cons.mp hrun
      exact ih (hmeets.2 u hu) hrun' (hstep s e u hmeets.1 hu h)

/-- The run rule for a property every step keeps. -/
theorem Machine.Reaches.invariant (hstep : ∀ s e t, M.step s e = some t → I s → I t)
    (hreach : M.Reaches s t) (h : I s) : I t := by
  obtain ⟨es, hrun⟩ := hreach
  exact Machine.invariant (C := fun _ _ => True) (fun s e t _ => hstep s e t)
    (Machine.meets_of_forall fun _ _ _ => trivial) hrun h

/-- The run rule, for every state the run visits. -/
theorem Machine.Visits.invariant (hstep : ∀ s e t, C s e → M.step s e = some t → I s → I t)
    {es : List ε} (hmeets : M.Meets C s es) (hvisits : M.Visits s es t) (h : I s) : I t := by
  obtain ⟨pre, post, rfl, hrun⟩ := hvisits
  exact Machine.invariant hstep (Machine.meets_append.mp hmeets).1 hrun h

theorem Machine.visits_cons {es : List ε} :
    M.Visits s (e :: es) t ↔ t = s ∨ ∃ u, M.step s e = some u ∧ M.Visits u es t := by
  constructor
  · rintro ⟨pre, post, heq, hrun⟩
    cases pre with
    | nil => exact .inl (Option.some.inj hrun).symm
    | cons e' pre =>
        obtain ⟨rfl, rfl⟩ := List.cons.inj heq
        obtain ⟨u, hu, hrun'⟩ := Machine.run_cons.mp hrun
        exact .inr ⟨u, hu, pre, post, rfl, hrun'⟩
  · rintro (rfl | ⟨u, hu, pre, post, rfl, hrun⟩)
    · exact ⟨[], e :: es, rfl, rfl⟩
    · exact ⟨e :: pre, post, rfl, Machine.run_cons.mpr ⟨u, hu, hrun⟩⟩

theorem Machine.Visits.start (es : List ε) : M.Visits s es s := ⟨[], es, rfl, rfl⟩

/-- The variant rule: where every step lowers a measure, some run leads to a state that no event
can happen in, and it is no longer than the measure is high. -/
theorem Machine.exists_run_ended {V : σ → Nat}
    (hstep : ∀ s e t, I s → M.step s e = some t → I t ∧ V t < V s) (h : I s) :
    ∃ es t, M.run s es = some t ∧ (∀ e, M.step t e = none) ∧ I t ∧ es.length ≤ V s := by
  induction hn : V s using Nat.strongRecOn generalizing s with
  | ind n ih =>
  by_cases hended : ∀ e, M.step s e = none
  · exact ⟨[], s, rfl, hended, h, Nat.zero_le n⟩
  · obtain ⟨e, he⟩ := not_forall.mp hended
    obtain ⟨u, hu⟩ := Option.ne_none_iff_exists'.mp he
    obtain ⟨hI, hlt⟩ := hstep s e u h hu
    rw [hn] at hlt
    obtain ⟨es, t, hrun, hended, ht, hlen⟩ := ih (V u) hlt hI rfl
    refine ⟨e :: es, t, Machine.run_cons.mpr ⟨u, hu, hrun⟩, hended, ht, ?_⟩
    rw [List.length_cons]
    omega

/-- Where every step keeps a property exactly when it meets a condition, a run
has the property throughout exactly when its steps all meet the condition. -/
theorem Machine.visits_iff_meets
    (hstep : ∀ s e t, I s → M.step s e = some t → (I t ↔ C s e)) {es : List ε}
    (hrun : M.run s es = some t) (h : I s) : (∀ u, M.Visits s es u → I u) ↔ M.Meets C s es := by
  induction es generalizing s with
  | nil =>
      refine iff_of_true ?_ trivial
      rintro u ⟨pre, post, heq, hpre⟩
      obtain ⟨rfl, rfl⟩ := List.append_eq_nil_iff.mp heq.symm
      exact Option.some.inj hpre ▸ h
  | cons e es ih =>
      obtain ⟨v, hv, hrest⟩ := Machine.run_cons.mp hrun
      constructor
      · intro hall
        have hkept : I v := hall v (Machine.visits_cons.mpr (.inr ⟨v, hv, .start es⟩))
        refine ⟨(hstep s e v h hv).mp hkept, fun w hw => ?_⟩
        obtain rfl := Option.some.inj (hv.symm.trans hw)
        exact (ih hrest hkept).mp fun u hu => hall u (Machine.visits_cons.mpr (.inr ⟨v, hv, hu⟩))
      · rintro ⟨hC, hmeets⟩ u hvisits
        have hkept : I v := (hstep s e v h hv).mpr hC
        obtain rfl | ⟨w, hw, hvisits'⟩ := Machine.visits_cons.mp hvisits
        · exact h
        · obtain rfl := Option.some.inj (hv.symm.trans hw)
          exact (ih hrest hkept).mpr (hmeets v hv) u hvisits'

/-- The same, beside a property `J` that every step keeps. -/
theorem Machine.visits_iff_meets_of {J : σ → Prop}
    (hkeep : ∀ s e t, J s → M.step s e = some t → J t)
    (hstep : ∀ s e t, J s → I s → M.step s e = some t → (I t ↔ C s e)) {es : List ε}
    (hrun : M.run s es = some t) (hJ : J s) (h : I s) :
    (∀ u, M.Visits s es u → I u) ↔ M.Meets C s es := by
  have hboth := Machine.visits_iff_meets (I := fun u => J u ∧ I u) (C := C)
    (fun s e t hs ht => ⟨fun hI => (hstep s e t hs.1 hs.2 ht).mp hI.2, fun hC =>
      ⟨hkeep s e t hs.1 ht, (hstep s e t hs.1 hs.2 ht).mpr hC⟩⟩) hrun ⟨hJ, h⟩
  rw [← hboth]
  refine ⟨fun hall u hu => ⟨?_, hall u hu⟩, fun hall u hu => (hall u hu).2⟩
  exact Machine.Visits.invariant (fun s e t _ ht hs => hkeep s e t hs ht)
    (Machine.meets_of_forall (C := fun _ _ => True) fun _ _ _ => trivial) hu hJ

/-- Where a property is what it was and a condition on the step, it is at the end of a run what it
was and the condition on each step. -/
theorem Machine.run_iff_meets {J : σ → Prop} {P : ε → Prop}
    (hstep : ∀ s e t, J s → P e → M.step s e = some t → J t ∧ (I t ↔ I s ∧ C s e)) {es : List ε}
    (hrun : M.run s es = some t) (hP : ∀ e ∈ es, P e) (hJ : J s) :
    J t ∧ (I t ↔ I s ∧ M.Meets C s es) := by
  induction es generalizing s with
  | nil =>
      obtain rfl := Option.some.inj hrun
      exact ⟨hJ, (and_iff_left trivial).symm⟩
  | cons e es ih =>
      obtain ⟨u, hu, hrest⟩ := Machine.run_cons.mp hrun
      obtain ⟨hJu, hhead⟩ := hstep s e u hJ (hP e (.head _)) hu
      obtain ⟨hJt, htail⟩ := ih hrest (fun e' he' => hP e' (.tail _ he')) hJu
      refine ⟨hJt, ?_⟩
      rw [htail, hhead, and_assoc]
      refine and_congr_right fun _ => and_congr_right fun _ => ⟨fun h v hv => ?_, fun h => h u hu⟩
      exact Option.some.inj (hu.symm.trans hv) ▸ h

/-- Where a step can be taken exactly when it meets a condition, so can a run. -/
theorem Machine.exists_run_iff_meets {J : σ → Prop} {P : ε → Prop}
    (hkeep : ∀ s e t, J s → P e → M.step s e = some t → J t)
    (hstep : ∀ s e, J s → P e → ((∃ t, M.step s e = some t) ↔ C s e)) {es : List ε}
    (hP : ∀ e ∈ es, P e) (hJ : J s) : (∃ t, M.run s es = some t) ↔ M.Meets C s es := by
  induction es generalizing s with
  | nil => exact iff_of_true ⟨s, rfl⟩ trivial
  | cons e es ih =>
      have he := hP e (.head _)
      have hes : ∀ e' ∈ es, P e' := fun e' he' => hP e' (.tail _ he')
      constructor
      · rintro ⟨t, hrun⟩
        obtain ⟨u, hu, hrest⟩ := Machine.run_cons.mp hrun
        refine ⟨(hstep s e hJ he).mp ⟨u, hu⟩, fun v hv => ?_⟩
        obtain rfl := Option.some.inj (hu.symm.trans hv)
        exact (ih hes (hkeep s e u hJ he hu)).mp ⟨t, hrest⟩
      · rintro ⟨hC, hmeets⟩
        obtain ⟨u, hu⟩ := (hstep s e hJ he).mpr hC
        obtain ⟨t, hrest⟩ := (ih hes (hkeep s e u hJ he hu)).mpr (hmeets u hu)
        exact ⟨t, Machine.run_cons.mpr ⟨u, hu, hrest⟩⟩

/-- Where every step to a state with a property meets a condition, so does a run through such
states. -/
theorem Machine.meets_of_visits (hstep : ∀ s e t, M.step s e = some t → I t → C s e)
    {es : List ε} (hrun : M.run s es = some t) (h : ∀ u, M.Visits s es u → I u) :
    M.Meets C s es := by
  induction es generalizing s with
  | nil => trivial
  | cons e es ih =>
      obtain ⟨v, hv, hrest⟩ := Machine.run_cons.mp hrun
      have hall {u : σ} (hu : M.Visits v es u) : I u :=
        h u (Machine.visits_cons.mpr (.inr ⟨v, hv, hu⟩))
      refine ⟨hstep s e v hv (hall (.start es)), fun w hw => ?_⟩
      obtain rfl := Option.some.inj (hv.symm.trans hw)
      exact ih hrest fun u => hall

section Two

variable {D P : σ → ε → Prop}

theorem Machine.Meets.and {es : List ε} (h : M.Meets C s es) (h' : M.Meets D s es) :
    M.Meets (fun s e => C s e ∧ D s e) s es := by
  induction es generalizing s with
  | nil => trivial
  | cons e es ih => exact ⟨⟨h.1, h'.1⟩, fun t ht => ih (h.2 t ht) (h'.2 t ht)⟩

/-- A run that meets a condition meets what the condition leads to beside a property that it
keeps. -/
theorem Machine.Meets.imp_of (hkeep : ∀ s e t, C s e → M.step s e = some t → I s → I t)
    (hstep : ∀ s e, I s → C s e → D s e) {es : List ε} (hmeets : M.Meets C s es) (h : I s) :
    M.Meets D s es := by
  induction es generalizing s with
  | nil => trivial
  | cons e es ih =>
      refine ⟨hstep s e h hmeets.1, fun t ht => ?_⟩
      exact ih (hmeets.2 t ht) (hkeep s e t hmeets.1 ht h)

/-- In a run that meets `P`, two conditions are met by the same runs when they agree on every step
from a state with `I`, and the steps that meet them keep it. -/
theorem Machine.meets_congr_of (hkeep : ∀ s e t, P s e → D s e → M.step s e = some t → I s → I t)
    (hstep : ∀ s e t, P s e → M.step s e = some t → I s → (C s e ↔ D s e)) {es : List ε}
    (hrun : M.run s es = some t) (hmeets : M.Meets P s es) (h : I s) :
    M.Meets C s es ↔ M.Meets D s es := by
  induction es generalizing s with
  | nil => exact .rfl
  | cons e es ih =>
      obtain ⟨u, hu, hrest⟩ := Machine.run_cons.mp hrun
      have hhead := hstep s e u hmeets.1 hu h
      refine (and_congr_left' hhead).trans (and_congr_right fun hD => forall₂_congr fun v hv => ?_)
      obtain rfl := Option.some.inj (hu.symm.trans hv)
      exact ih hrest (hmeets.2 u hu) (hkeep s e u hmeets.1 hD hu h)

end Two

/-- A condition on the events alone is met when every event has it. -/
theorem Machine.meets_iff_forall {P : ε → Prop} {es : List ε} (hrun : M.run s es = some t) :
    M.Meets (fun _ e => P e) s es ↔ ∀ e ∈ es, P e := by
  induction es generalizing s with
  | nil => exact iff_of_true trivial fun _ he => nomatch he
  | cons e es ih =>
      constructor
      · rintro ⟨he, hrest⟩ e' he'
        obtain ⟨u, hu, hrun'⟩ := Machine.run_cons.mp hrun
        rcases List.mem_cons.mp he' with rfl | hmem
        · exact he
        · exact (ih hrun').mp (hrest u hu) e' hmem
      · exact fun hall => Machine.meets_of_forall fun e he _ => hall e he

end EventMachine
