import Mathlib.Data.List.Nodup
import Mathlib.Logic.Function.Basic
import Adhoc.Time.Clock

/-!
# Software timers

`stmr` goes through the list of timers once and calls the procedure of each that is due.  What
`utime` returned at the start of the pass and what it returned behind the last call are
kept as their low words, and their difference is compared with the period.

A procedure may take its time and add other timers.  They come to the front of the list,
and the pass has the `next` of the timer already.  The main loop may do so too between two
passes.  A timer has the low word of its last event when it is added: a `TIMER_PROC` has 0,
the word of the time 0.

`Pass`, and what of `Timers` is named behind `pc`, is not in the program: a pass has the
time when it began and all that the list was then, and the timers whose procedure it called.
-/

namespace Adhoc

open EventMachine

/-! ## The timers -/

/-- A `stmr_t *` that is not `NULL`. -/
abbrev StmrPtr : Type := Nat

/-- A `struct stmr`, without its procedure and the data for that. -/
structure Stmr where
  period : UInt32
  event : UInt32
  flags : UInt32
  next : Option StmrPtr

/-- `STMR_ACTIVE`. -/
def stmrActive : UInt32 := 1

/-- One call of `stmr`.  `events` are the times of the last events. -/
structure Pass where
  start : Int64
  before : List StmrPtr
  nodes : StmrPtr → Stmr
  events : StmrPtr → Int64
  fired : List StmrPtr
  rounds : Nat

/-- Where the program is: outside of `stmr`, at the head of its loop with `time` and `tmr`, or in
the procedure of `t`. -/
inductive StmrPc where
  | idle
  | loop (time : UInt32) (tmr : Option StmrPtr) (pass : Pass)
  | proc (time : UInt32) (t : StmrPtr) (tmr : Option StmrPtr) (pass : Pass)

/-- The pass that is under way. -/
def StmrPc.pass : StmrPc → Option Pass
  | .idle => none
  | .loop _ _ pass | .proc _ _ _ pass => some pass

/-- All timers, `stmrs`, and what `utime` returns now. -/
structure Timers where
  nodes : StmrPtr → Stmr
  stmrs : Option StmrPtr
  now : Int64
  pc : StmrPc
  events : StmrPtr → Int64
  registered : List StmrPtr
  passes : List Pass

/-- What happens.  `add` is a `stmr_add` in the main loop or in a procedure. -/
inductive TimerEvent where
  | wait (now : Int64)
  | add (t : StmrPtr) (timer : Stmr) (event : Int64)
  /-- `stmr` is called. -/
  | stmr
  /-- A round of its loop, up to the procedure. -/
  | round
  /-- The procedure returns. -/
  | ret

namespace Timers

variable (s : Timers)

/-- The main loop or a procedure runs. -/
def inUser : Bool :=
  match s.pc with
  | .loop .. => false
  | _ => true

/-- `stmr_add`. -/
def stmrAdd (t : StmrPtr) (timer : Stmr) (event : Int64) : Timers :=
  { s with
    nodes := Function.update s.nodes t { timer with next := s.stmrs }
    stmrs := some t
    events := Function.update s.events t event
    registered := t :: s.registered }

/-- `stmr`, up to the loop. -/
def stmr : Timers :=
  { s with pc := .loop (lowHalf s.now) s.stmrs ⟨s.now, s.registered, s.nodes, s.events, [], 0⟩ }

/-- A round of the loop of `stmr`. -/
def round (time : UInt32) (tmr : Option StmrPtr) (pass : Pass) : Timers :=
  match tmr with
  | none => { s with pc := .idle, passes := pass :: s.passes }
  | some t =>
      let tmr := (s.nodes t).next
      let pass := { pass with rounds := pass.rounds + 1 }
      if (s.nodes t).flags &&& stmrActive = 0 then { s with pc := .loop time tmr pass }
      else
        let elapsed := time - (s.nodes t).event
        if elapsed < (s.nodes t).period then { s with pc := .loop time tmr pass }
        else { s with pc := .proc time t tmr { pass with fired := pass.fired ++ [t] } }

/-- `t->event = utime()`. -/
def stamp (time : UInt32) (t : StmrPtr) (tmr : Option StmrPtr) (pass : Pass) : Timers :=
  { s with
    nodes := Function.update s.nodes t { s.nodes t with event := lowHalf s.now }
    events := Function.update s.events t s.now
    pc := .loop time tmr pass }

/-- One event.  `utime` does not go back, and a timer that is added is not in the list. -/
def step : TimerEvent → Option Timers
  | .wait now => if s.now.toInt ≤ now.toInt then some { s with now := now } else none
  | .add t timer event =>
      if s.inUser ∧ t ∉ s.registered ∧ timer.event = lowHalf event ∧ event.toInt ≤ s.now.toInt
      then some (s.stmrAdd t timer event) else none
  | .stmr =>
      match s.pc with
      | .idle => some s.stmr
      | _ => none
  | .round =>
      match s.pc with
      | .loop time tmr pass => some (s.round time tmr pass)
      | _ => none
  | .ret =>
      match s.pc with
      | .proc time t tmr pass => some (s.stamp time t tmr pass)
      | _ => none

end Timers

/-- The timers as a machine. -/
def timerMachine : Machine Timers TimerEvent := ⟨Timers.step⟩

/-- The timer that an event adds. -/
def TimerEvent.added : TimerEvent → Option StmrPtr
  | .add t _ _ => some t
  | _ => none

/-! ## What a pass is for -/

/-- `STMR_ACTIVE` is set. -/
def Stmr.Active (t : Stmr) : Prop := t.flags &&& stmrActive ≠ 0

instance (t : Stmr) : Decidable t.Active := inferInstanceAs (Decidable (_ ≠ _))

namespace Pass

variable (p : Pass)

/-- The time since the last event of a timer, when the pass began. -/
def sinceEvent (t : StmrPtr) : Int := p.start.toInt - (p.events t).toInt

/-- The timer is active, and its period is over. -/
def Due (t : StmrPtr) : Prop :=
  (p.nodes t).Active ∧ ((p.nodes t).period.toNat : Int) ≤ p.sinceEvent t

instance (t : StmrPtr) : Decidable (p.Due t) := inferInstanceAs (Decidable (_ ∧ _))

/-- The last event of every active timer is less than 2^32 microseconds ago. -/
def Recent : Prop := ∀ t ∈ p.before, (p.nodes t).Active → p.sinceEvent t < 2 ^ 32

/-- A pass that is over called the procedures of the timers that were due, in their order, and
went to every timer once. -/
structure Right : Prop where
  nodup : p.before.Nodup
  rounds : p.rounds = p.before.length
  fired : p.Recent → p.fired = p.before.filter p.Due

end Pass

/-! ## Linked lists -/

/-- The pointers from `p` on lead through the nodes of the list, and to `NULL`. -/
inductive Linked (next : StmrPtr → Option StmrPtr) : Option StmrPtr → List StmrPtr → Prop where
  | nil : Linked next none []
  | cons {t : StmrPtr} {l : List StmrPtr} : Linked next (next t) l → Linked next (some t) (t :: l)

/-- It depends on the nodes of the list only. -/
theorem Linked.congr {next next' : StmrPtr → Option StmrPtr} {p : Option StmrPtr}
    {l : List StmrPtr} (h : Linked next p l) (heq : ∀ t ∈ l, next t = next' t) :
    Linked next' p l := by
  induction h with
  | nil => exact .nil
  | @cons t l _ ih =>
      rw [heq t List.mem_cons_self] at ih
      exact .cons (ih fun t' ht' => heq t' (List.mem_cons_of_mem t ht'))

/-! ## Low words -/

theorem lowHalf_toNat (x : Int64) : ((lowHalf x).toNat : Int) = x.toInt % 2 ^ 32 := by
  have hx : x.toInt = if 2 * x.toUInt64.toNat < 2 ^ 64 then (x.toUInt64.toNat : Int)
      else x.toUInt64.toNat - 2 ^ 64 := by
    rw [← Int64.toInt_toBitVec, BitVec.toInt_eq_toNat_cond]
    rfl
  have hlow : (lowHalf x).toNat = x.toUInt64.toNat % 2 ^ 32 := by simp [lowHalf]
  rw [hx, hlow]
  split <;> omega

/-- The difference of the low words is the time between, if that is short. -/
theorem lowHalf_sub_toNat {x y : Int64} (hle : y.toInt ≤ x.toInt)
    (hlt : x.toInt - y.toInt < 2 ^ 32) :
    ((lowHalf x - lowHalf y).toNat : Int) = x.toInt - y.toInt := by
  have hx := lowHalf_toNat x
  have hy := lowHalf_toNat y
  have hx' := (lowHalf x).toNat_lt
  have hy' := (lowHalf y).toNat_lt
  rw [UInt32.toNat_sub]
  omega

/-- The test of `stmr`, where the last event of the timer is recent. -/
theorem elapsed_lt_iff {x y : Int64} {period : UInt32} (hle : y.toInt ≤ x.toInt)
    (hlt : x.toInt - y.toInt < 2 ^ 32) :
    lowHalf x - lowHalf y < period ↔ x.toInt - y.toInt < (period.toNat : Int) := by
  have hsub := lowHalf_sub_toNat hle hlt
  rw [UInt32.lt_iff_toNat_lt]
  omega

/-! ## The invariant -/

namespace Timers

/-- The list has every timer that was added, once, and every timer has the low word of its last
event. -/
structure Listed (s : Timers) : Prop where
  linked : Linked (fun t => (s.nodes t).next) s.stmrs s.registered
  nodup : s.registered.Nodup
  event_eq : ∀ t ∈ s.registered, (s.nodes t).event = lowHalf (s.events t)
  event_le : ∀ t ∈ s.registered, (s.events t).toInt ≤ s.now.toInt

/-- A pass has gone to the timers `done`, and has `rest` to go to. -/
structure Within (s : Timers) (time : UInt32) (tmr : Option StmrPtr) (pass : Pass)
    (done rest : List StmrPtr) : Prop where
  time_eq : time = lowHalf pass.start
  linked : Linked (fun t => (s.nodes t).next) tmr rest
  before : pass.before = done ++ rest
  suffix : pass.before <:+ s.registered
  kept : ∀ t ∈ rest, s.nodes t = pass.nodes t
  event_eq : ∀ t ∈ rest, (pass.nodes t).event = lowHalf (pass.events t)
  event_le : ∀ t ∈ rest, (pass.events t).toInt ≤ pass.start.toInt
  rounds : pass.rounds = done.length
  fired : pass.Recent → pass.fired = done.filter pass.Due

/-- What holds of the pass that is under way. -/
def Passing (s : Timers) : Prop :=
  match s.pc with
  | .idle => True
  | .loop time tmr pass => ∃ done rest, s.Within time tmr pass done rest
  | .proc time t tmr pass => ∃ done rest, s.Within time tmr pass (done ++ [t]) rest

structure Sound (s : Timers) : Prop where
  listed : s.Listed
  passing : s.Passing
  passes : ∀ p ∈ s.passes, p.Right

variable {s t : Timers} {x : StmrPtr} {time : UInt32} {tmr : Option StmrPtr} {pass : Pass}
  {done rest : List StmrPtr}

/-- Nodes that are not in the list may change, and the list may have more in front. -/
theorem Within.of_kept (h : s.Within time tmr pass done rest)
    (hnodes : ∀ x ∈ s.registered, t.nodes x = s.nodes x) (hsuffix : s.registered <:+ t.registered) :
    t.Within time tmr pass done rest := by
  have hmem (x : StmrPtr) (hx : x ∈ rest) : x ∈ s.registered := by
    refine h.suffix.subset ?_
    rw [h.before]
    exact List.mem_append_right done hx
  refine ⟨h.time_eq, h.linked.congr fun x hx => ?_, h.before, h.suffix.trans hsuffix,
    fun x hx => ?_, h.event_eq, h.event_le, h.rounds, h.fired⟩
  · rw [hnodes x (hmem x hx)]
  · rw [hnodes x (hmem x hx)]
    exact h.kept x hx

theorem Passing.of_kept (h : s.Passing) (hpc : t.pc = s.pc)
    (hnodes : ∀ x ∈ s.registered, t.nodes x = s.nodes x) (hsuffix : s.registered <:+ t.registered) :
    t.Passing := by
  unfold Passing at h ⊢
  rw [hpc]
  cases hs : s.pc with
  | idle => trivial
  | loop time tmr pass =>
      rw [hs] at h
      obtain ⟨done, rest, hw⟩ := h
      exact ⟨done, rest, hw.of_kept hnodes hsuffix⟩
  | proc time x tmr pass =>
      rw [hs] at h
      obtain ⟨done, rest, hw⟩ := h
      exact ⟨done, rest, hw.of_kept hnodes hsuffix⟩

theorem Sound.wait (h : s.Sound) {now : Int64} (hle : s.now.toInt ≤ now.toInt) :
    Sound { s with now := now } where
  listed := ⟨h.listed.linked, h.listed.nodup, h.listed.event_eq,
    fun x hx => le_trans (h.listed.event_le x hx) hle⟩
  passing := h.passing.of_kept rfl (fun _ _ => rfl) List.suffix_rfl
  passes := h.passes

theorem Sound.stmrAdd (h : s.Sound) {timer : Stmr} {event : Int64} (hx : x ∉ s.registered)
    (hevent : timer.event = lowHalf event) (hle : event.toInt ≤ s.now.toInt) :
    (s.stmrAdd x timer event).Sound := by
  have hne {y : StmrPtr} (hy : y ∈ s.registered) : y ≠ x := ne_of_mem_of_not_mem hy hx
  have hnodes (y : StmrPtr) (hy : y ∈ s.registered) :
      (s.stmrAdd x timer event).nodes y = s.nodes y := Function.update_of_ne (hne hy) ..
  have hevents (y : StmrPtr) (hy : y ∈ s.registered) :
      (s.stmrAdd x timer event).events y = s.events y := Function.update_of_ne (hne hy) ..
  have hnode : (s.stmrAdd x timer event).nodes x = { timer with next := s.stmrs } :=
    Function.update_self ..
  have hstamp : (s.stmrAdd x timer event).events x = event := Function.update_self ..
  refine ⟨⟨?_, List.nodup_cons.mpr ⟨hx, h.listed.nodup⟩, fun y hy => ?_, fun y hy => ?_⟩,
    h.passing.of_kept rfl hnodes (List.suffix_cons x s.registered), h.passes⟩
  · refine .cons ?_
    rw [hnode]
    exact h.listed.linked.congr fun y hy => by rw [hnodes y hy]
  · rcases List.mem_cons.mp hy with rfl | hy
    · rw [hnode, hstamp]
      exact hevent
    · rw [hnodes y hy, hevents y hy]
      exact h.listed.event_eq y hy
  · rcases List.mem_cons.mp hy with rfl | hy
    · rw [hstamp]
      exact hle
    · rw [hevents y hy]
      exact h.listed.event_le y hy

theorem Within.rounds_le (h : s.Within time tmr pass done rest) :
    pass.rounds ≤ pass.before.length := by
  rw [h.rounds, h.before, List.length_append]
  exact Nat.le_add_right ..

/-- A pass that is under way has not made more rounds than there are timers. -/
theorem Passing.rounds_le (h : s.Passing) (hpass : s.pc.pass = some pass) :
    pass.rounds ≤ pass.before.length := by
  unfold Passing at h
  cases hpc : s.pc with
  | idle =>
      rw [hpc] at hpass
      cases hpass
  | loop time tmr pass' =>
      rw [hpc] at h hpass
      cases hpass
      obtain ⟨done, rest, hw⟩ := h
      exact hw.rounds_le
  | proc time x tmr pass' =>
      rw [hpc] at h hpass
      cases hpass
      obtain ⟨done, rest, hw⟩ := h
      exact hw.rounds_le

/-- A pass begins. -/
theorem Sound.stmr (h : s.Sound) : s.stmr.Sound where
  listed := ⟨h.listed.linked, h.listed.nodup, h.listed.event_eq, h.listed.event_le⟩
  passing := ⟨[], s.registered, rfl, h.listed.linked, rfl, List.suffix_rfl, fun _ _ => rfl,
    h.listed.event_eq, h.listed.event_le, rfl, fun _ => rfl⟩
  passes := h.passes

/-- A pass ends. -/
theorem Within.right (h : s.Within time none pass done rest) (hs : s.Listed) : pass.Right := by
  have hlinked := h.linked
  cases hlinked with
  | nil =>
      have hbefore : pass.before = done := by rw [h.before, List.append_nil]
      refine ⟨hs.nodup.sublist h.suffix.sublist, ?_, fun hrecent => ?_⟩
      · rw [h.rounds, hbefore]
      · rw [h.fired hrecent, hbefore]

/-- The timer that a round comes to is the next of the rest. -/
theorem Within.exists_cons (h : s.Within time (some x) pass done rest) :
    ∃ rest', rest = x :: rest' ∧ Linked (fun t => (s.nodes t).next) (s.nodes x).next rest' := by
  have hlinked := h.linked
  cases hlinked with
  | cons hrest => exact ⟨_, rfl, hrest⟩

/-- What the test of a round says of the timer. -/
theorem Within.due_iff (h : s.Within time (some x) pass done rest) (hrecent : pass.Recent) :
    pass.Due x ↔ (s.nodes x).flags &&& stmrActive ≠ 0 ∧
      ¬ time - (s.nodes x).event < (s.nodes x).period := by
  obtain ⟨rest', rfl, -⟩ := h.exists_cons
  have hx : x ∈ x :: rest' := List.mem_cons_self
  have hbefore : x ∈ pass.before := by
    rw [h.before]
    exact List.mem_append_right done hx
  rw [h.kept x hx, h.event_eq x hx, h.time_eq]
  refine and_congr_right fun hactive => ?_
  rw [elapsed_lt_iff (h.event_le x hx) (hrecent x hbefore hactive), Int.not_lt]
  exact Iff.rfl

/-- The pass goes on behind a timer.  `fired` tells whether its procedure was called. -/
theorem Within.next (h : s.Within time (some x) pass done rest) {fired : List StmrPtr}
    (hfired : pass.Recent → fired = pass.fired ++ if pass.Due x then [x] else []) {pc : StmrPc} :
    ∃ rest, Within { s with pc := pc } time (s.nodes x).next
      { pass with rounds := pass.rounds + 1, fired := fired } (done ++ [x]) rest := by
  obtain ⟨rest', rfl, hlinked⟩ := h.exists_cons
  refine ⟨rest', h.time_eq, hlinked, ?_, h.suffix,
    fun y hy => h.kept y (List.mem_cons_of_mem x hy),
    fun y hy => h.event_eq y (List.mem_cons_of_mem x hy),
    fun y hy => h.event_le y (List.mem_cons_of_mem x hy), ?_, fun hrecent => ?_⟩
  · rw [h.before, List.append_assoc]
    rfl
  · rw [h.rounds, List.length_append]
    rfl
  · have hrecent' : pass.Recent := hrecent
    have hfilter : (done ++ [x]).filter pass.Due =
        done.filter pass.Due ++ if pass.Due x then [x] else [] := by
      by_cases hdue : pass.Due x
      · simp [List.filter_append, hdue]
      · simp [List.filter_append, hdue]
    exact (hfired hrecent').trans ((congrArg (· ++ _) (h.fired hrecent')).trans hfilter.symm)

theorem round_registered (s : Timers) (time : UInt32) (tmr : Option StmrPtr) (pass : Pass) :
    (s.round time tmr pass).registered = s.registered := by
  cases tmr with
  | none => rfl
  | some x =>
      simp only [Timers.round]
      split
      next => rfl
      next => split <;> rfl

theorem Sound.round (h : s.Sound) (hpc : s.pc = .loop time tmr pass) :
    (s.round time tmr pass).Sound := by
  have hpassing := h.passing
  rw [Passing, hpc] at hpassing
  obtain ⟨done, rest, hw⟩ := hpassing
  have hlisted (pc : StmrPc) : Listed { s with pc := pc } :=
    ⟨h.listed.linked, h.listed.nodup, h.listed.event_eq, h.listed.event_le⟩
  cases tmr with
  | none =>
      have hright := hw.right h.listed
      refine ⟨⟨h.listed.linked, h.listed.nodup, h.listed.event_eq, h.listed.event_le⟩, trivial,
        fun p hp => ?_⟩
      rcases List.mem_cons.mp hp with rfl | hp
      · exact hright
      · exact h.passes p hp
  | some x =>
      have hdue := hw.due_iff
      simp only [Timers.round]
      split
      next hflag =>
        have hfired (hrecent : pass.Recent) :
            pass.fired = pass.fired ++ if pass.Due x then [x] else [] := by
          rw [if_neg fun hd => ((hdue hrecent).mp hd).1 hflag, List.append_nil]
        obtain ⟨rest', hnext⟩ := hw.next hfired
        exact ⟨hlisted _, ⟨_, rest', hnext⟩, h.passes⟩
      next hflag =>
        split
        next hlt =>
          have hfired (hrecent : pass.Recent) :
              pass.fired = pass.fired ++ if pass.Due x then [x] else [] := by
            rw [if_neg fun hd => ((hdue hrecent).mp hd).2 hlt, List.append_nil]
          obtain ⟨rest', hnext⟩ := hw.next hfired
          exact ⟨hlisted _, ⟨_, rest', hnext⟩, h.passes⟩
        next hlt =>
          have hfired (hrecent : pass.Recent) :
              pass.fired ++ [x] = pass.fired ++ if pass.Due x then [x] else [] := by
            rw [if_pos ((hdue hrecent).mpr ⟨hflag, hlt⟩)]
          obtain ⟨rest', hnext⟩ := hw.next hfired
          exact ⟨hlisted _, ⟨_, rest', hnext⟩, h.passes⟩

/-- The procedure of a timer returns, and the timer is stamped. -/
theorem Sound.stamp (h : s.Sound) (hpc : s.pc = .proc time x tmr pass) :
    (s.stamp time x tmr pass).Sound := by
  have hpassing := h.passing
  rw [Passing, hpc] at hpassing
  obtain ⟨done, rest, hw⟩ := hpassing
  have hother {y : StmrPtr} (hy : y ≠ x) :
      (s.stamp time x tmr pass).nodes y = s.nodes y := Function.update_of_ne hy ..
  have hself : (s.stamp time x tmr pass).nodes x = { s.nodes x with event := lowHalf s.now } :=
    Function.update_self ..
  have hnext (y : StmrPtr) : ((s.stamp time x tmr pass).nodes y).next = (s.nodes y).next := by
    by_cases hy : y = x
    · rw [hy, hself]
    · rw [hother hy]
  have hevents {y : StmrPtr} (hy : y ≠ x) :
      (s.stamp time x tmr pass).events y = s.events y := Function.update_of_ne hy ..
  have hstamp : (s.stamp time x tmr pass).events x = s.now := Function.update_self ..
  have hnot : x ∉ rest := by
    have hnodup := h.listed.nodup.sublist hw.suffix.sublist
    rw [hw.before, List.append_assoc] at hnodup
    have htail := (List.nodup_append.mp hnodup).2.1
    exact (List.nodup_cons.mp htail).1
  refine ⟨⟨?_, h.listed.nodup, fun y hy => ?_, fun y hy => ?_⟩, ⟨done ++ [x], rest, ?_⟩, h.passes⟩
  · exact h.listed.linked.congr fun y _ => (hnext y).symm
  · by_cases hyx : y = x
    · rw [hyx, hself, hstamp]
    · rw [hother hyx, hevents hyx]
      exact h.listed.event_eq y hy
  · by_cases hyx : y = x
    · rw [hyx, hstamp]
      exact le_refl _
    · rw [hevents hyx]
      exact h.listed.event_le y hy
  · exact ⟨hw.time_eq, hw.linked.congr fun y _ => (hnext y).symm, hw.before, hw.suffix,
      fun y hy => (hother (ne_of_mem_of_not_mem hy hnot)).trans (hw.kept y hy), hw.event_eq,
      hw.event_le, hw.rounds, hw.fired⟩

/-- What one event keeps. -/
theorem Sound.step (h : s.Sound) {e : TimerEvent} (ht : s.step e = some t) :
    t.Sound ∧ t.registered = e.added.toList ++ s.registered := by
  cases e with
  | wait now =>
      obtain ⟨hle, ⟨⟩⟩ := Option.ite_none_right_eq_some.mp ht
      exact ⟨h.wait hle, rfl⟩
  | add x timer event =>
      obtain ⟨⟨-, hx, hevent, hle⟩, ⟨⟩⟩ := Option.ite_none_right_eq_some.mp ht
      exact ⟨h.stmrAdd hx hevent hle, rfl⟩
  | stmr =>
      simp only [Timers.step] at ht
      split at ht
      next =>
        cases ht
        exact ⟨h.stmr, rfl⟩
      next => cases ht
  | round =>
      simp only [Timers.step] at ht
      split at ht
      next hpc =>
        cases ht
        exact ⟨h.round hpc, round_registered ..⟩
      next => cases ht
  | ret =>
      simp only [Timers.step] at ht
      split at ht
      next hpc =>
        cases ht
        exact ⟨h.stamp hpc, rfl⟩
      next => cases ht

/-- What a run keeps. -/
theorem Sound.run (h : s.Sound) {es : List TimerEvent} (hrun : timerMachine.run s es = some t) :
    t.Sound ∧ t.registered = (es.filterMap TimerEvent.added).reverse ++ s.registered := by
  induction es generalizing s with
  | nil =>
      cases hrun
      exact ⟨h, rfl⟩
  | cons e es ih =>
      obtain ⟨u, hstep, hrest⟩ := Machine.run_cons.mp hrun
      obtain ⟨hu, hadded⟩ := h.step hstep
      obtain ⟨ht, hregistered⟩ := ih hu hrest
      refine ⟨ht, ?_⟩
      rw [hregistered, hadded, List.filterMap_cons]
      cases e.added with
      | none => rfl
      | some x => simp

end Timers

/-- `stmr` is not running, and no pass was made. -/
structure Timers.Start (s : Timers) : Prop where
  listed : s.Listed
  idle : s.pc = .idle
  passes : s.passes = []

/-- In every pass the timers that are due fire, once and in the order of the list, and no others.
A pass goes to each timer that it found, and to no more.  The list has the timers that were added
in front of those there were, each once. -/
theorem stmr_fires {s t : Timers} {es : List TimerEvent} (hs : s.Start)
    (hrun : timerMachine.run s es = some t) :
    (∀ p ∈ t.passes, p.Right) ∧ (∀ p, t.pc.pass = some p → p.rounds ≤ p.before.length) ∧
    Linked (fun x => (t.nodes x).next) t.stmrs t.registered ∧ t.registered.Nodup ∧
    t.registered = (es.filterMap TimerEvent.added).reverse ++ s.registered := by
  have hsound : s.Sound := by
    refine ⟨hs.listed, ?_, ?_⟩
    · rw [Timers.Passing, hs.idle]
      trivial
    · rw [hs.passes]
      exact List.forall_mem_nil _
  obtain ⟨ht, hregistered⟩ := hsound.run hrun
  exact ⟨ht.passes, fun _ => ht.passing.rounds_le, ht.listed.linked, ht.listed.nodup, hregistered⟩

/-- No timer was added, and the clock is about to come round. -/
def timersStart : Timers where
  nodes := fun _ => ⟨0, 0, 0, none⟩
  stmrs := none
  now := 4294967000
  pc := .idle
  events := fun _ => 0
  registered := []
  passes := []

theorem start_timersStart : timersStart.Start :=
  ⟨⟨.nil, List.nodup_nil, List.forall_mem_nil _, List.forall_mem_nil _⟩, rfl, rfl⟩

/-- A timer is added whose event is stamped before the clock comes round, and it fires behind
that.  Its procedure adds another timer. -/
def roundTheClock : List TimerEvent :=
  [.add 1 ⟨1000, 4294966900, 1, none⟩ 4294966900, .wait 4294968000, .stmr, .round, .wait 4294968100,
    .add 2 ⟨1000, 800, 1, none⟩ 4294968096, .ret, .round]

theorem stmr_fires_roundTheClock : ∃ t, timerMachine.run timersStart roundTheClock = some t ∧
    (t.passes.map Pass.fired = [[1]] ∧ t.registered = [2, 1]) ∧ (∀ p ∈ t.passes, p.Right) ∧
    (∀ p, t.pc.pass = some p → p.rounds ≤ p.before.length) ∧
    Linked (fun x => (t.nodes x).next) t.stmrs t.registered ∧ t.registered.Nodup ∧
    t.registered = (roundTheClock.filterMap TimerEvent.added).reverse ++
      timersStart.registered := by
  have hsome : (timerMachine.run timersStart roundTheClock).map
      (fun t => (t.passes.map Pass.fired, t.registered)) = some ([[1]], [2, 1]) := by
    decide +kernel
  obtain ⟨t, hrun, hseen⟩ := Option.map_eq_some_iff.mp hsome
  exact ⟨t, hrun, Prod.mk.inj hseen, stmr_fires start_timersStart hrun⟩

end Adhoc
