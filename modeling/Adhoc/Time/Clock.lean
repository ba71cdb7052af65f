import Adhoc.Lib.Sampling
import Mathlib.Algebra.Order.Ring.Int
import Mathlib.Data.List.Basic
import Mathlib.Tactic.Common

/-!
# The clock

`utime` adds what `SysTick` has counted down of a millisecond to the
milliseconds that `HAL_SYSTICK_Callback` has counted.  It reads the counter, then
the two halves of `usAddition`, and reads again where the counter came round
meanwhile.

Between two accesses of `utime` the counter may count and come round and the
callback may run, any number of times each.  A counter that came round has its
callback run before the next access.
-/

namespace Adhoc

open EventMachine Sampling

/-! ## The counter -/

/-- `SysTick`.  `countflag` is the bit `COUNTFLAG` of `CTRL`. -/
structure SysTick where
  load : UInt32
  val : UInt32
  countflag : Bool
deriving DecidableEq, Repr

/-- `SysTick_LOAD_RELOAD_Msk`. -/
def sysTickLoadReloadMsk : UInt32 := 0xFFFFFF

/-- `SysTick_Config`.  `none` says that the reload value is impossible. -/
def sysTickConfig (ticks : UInt32) : Option SysTick :=
  if ticks - 1 > sysTickLoadReloadMsk then none
  else some { load := ticks - 1, val := 0, countflag := false }

/-- The counter counts down.  From `0` it comes round to `LOAD`. -/
def SysTick.count (t : SysTick) : SysTick :=
  if t.val = 0 then { t with val := t.load, countflag := true } else { t with val := t.val - 1 }

/-- `SysTick->CTRL` is read, which clears `COUNTFLAG`. -/
def SysTick.readCtrl (t : SysTick) : SysTick := { t with countflag := false }

/-- A `SystemCoreClock` of whole megahertz. -/
structure CoreClock where
  hz : UInt32
  pos : 0 < hz.toNat
  whole : hz.toNat % 1000000 = 0

/-- `ticksPerUs`. -/
def CoreClock.ticksPerUs (f : CoreClock) : UInt32 := f.hz / 1000000

theorem CoreClock.ticksPerUs_pos (f : CoreClock) : 0 < f.ticksPerUs.toNat := by
  have hpos := f.pos
  have hwhole := f.whole
  simp only [ticksPerUs, UInt32.toNat_div, UInt32.reduceToNat]
  omega

/-- A millisecond has as many ticks as `LOAD` and the tick that comes round. -/
theorem CoreClock.millisecond (f : CoreClock) :
    (f.hz / 1000).toNat = 1000 * f.ticksPerUs.toNat := by
  have hwhole := f.whole
  simp only [ticksPerUs, UInt32.toNat_div, UInt32.reduceToNat]
  omega

/-! ## `usAddition` -/

/-- The low word of an `int64_t`. -/
def lowHalf (x : Int64) : UInt32 := x.toUInt64.toUInt32

/-- The high word of an `int64_t`. -/
def highHalf (x : Int64) : UInt32 := (x.toUInt64 >>> 32).toUInt32

/-- The `int64_t` of two words. -/
def ofHalves (low high : UInt32) : Int64 := (high.toUInt64 <<< 32 ||| low.toUInt64).toInt64

theorem ofHalves_halves (x : Int64) : ofHalves (lowHalf x) (highHalf x) = x := by
  have hlt : x.toUInt64.toNat < 2 ^ 64 := x.toUInt64.toNat_lt
  have hhigh : (highHalf x).toNat = x.toUInt64.toNat / 2 ^ 32 := by
    simp [highHalf, Nat.shiftRight_eq_div_pow]
    omega
  have h : (highHalf x).toUInt64 <<< 32 ||| (lowHalf x).toUInt64 = x.toUInt64 := by
    apply UInt64.toNat_inj.mp
    have hshift : ((highHalf x).toUInt64 <<< 32).toNat = (x.toUInt64.toNat / 2 ^ 32) <<< 32 := by
      simp [hhigh, Nat.shiftLeft_eq]
      omega
    have hlow : (lowHalf x).toUInt64.toNat = x.toUInt64.toNat % 2 ^ 32 := by simp [lowHalf]
    rw [UInt64.toNat_or, hshift, hlow, ← Nat.shiftLeft_add_eq_or_of_lt (Nat.mod_lt _ (by decide)),
      Nat.shiftLeft_eq]
    omega
  rw [ofHalves, h]
  rfl

/-- The sum of an `int64_t` and an `uint32_t`.  `none` is a signed overflow, which C leaves
undefined. -/
def addUInt32 (x : Int64) (n : UInt32) : Option Int64 :=
  if x.toInt + n.toNat < 2 ^ 63 then some (x + .ofNat n.toNat) else none

theorem addUInt32_toInt {x y : Int64} {n : UInt32} (h : addUInt32 x n = some y) :
    y.toInt = x.toInt + n.toNat := by
  simp only [addUInt32] at h
  split at h
  next hlt =>
      cases h
      have hle := x.le_toInt
      have hn : (Int64.ofNat n.toNat).toInt = n.toNat :=
        Int64.toInt_ofNat_of_lt (by have := n.toNat_lt; omega)
      rw [Int64.toInt_add, hn, Int.bmod_eq_of_le] <;> omega
  next => cases h

/-! ## `utime` -/

/-- `cpu_LoadCounterTypeDef`. -/
structure LoadCounter where
  cnt : UInt32
  result : UInt32
deriving DecidableEq, Repr

/-- Where `utime` stands, before its next access. -/
inductive UtimePc where
  /-- No call is under way. -/
  | idle
  /-- At `read`. -/
  | read
  /-- `VAL` was read. -/
  | loaded (ticks : UInt32)
  /-- One half of `usAddition` was read. -/
  | halved (ticks half : UInt32)
  /-- Both were. -/
  | added (ticks : UInt32) (res : Int64)
deriving DecidableEq, Repr

/-- The clock.  `pending` counts the callbacks that are still to run, and
`returned` has what `utime` returned since `time_init`, the last value first. -/
structure Clock where
  tick : SysTick
  pending : Nat
  usAddition : Int64
  cpuLoad : LoadCounter
  pc : UtimePc
  returned : List Int64
deriving DecidableEq, Repr

/-- `time_init`.  `none` is its endless loop. -/
def timeInit (f : CoreClock) (c : Clock) : Option Clock :=
  (sysTickConfig (f.hz / 1000)).map fun t => { c with tick := t, pc := .idle, returned := [] }

/-- `HAL_SYSTICK_Callback`. -/
def halSystickCallback (c : Clock) : Option Clock :=
  (addUInt32 c.usAddition 1000).map fun usAddition =>
    if usAddition &&& 0x03FF = 0 then
      { c with usAddition, cpuLoad := { cnt := 0, result := c.cpuLoad.cnt } }
    else { c with usAddition }

/-- The half of `usAddition` that is read first. -/
def firstHalf (low : Bool) (x : Int64) : UInt32 := if low then lowHalf x else highHalf x

/-- The value of which `half` was read first, when the other half is read from `x`. -/
def secondHalf (low : Bool) (half : UInt32) (x : Int64) : Int64 :=
  if low then ofHalves half (highHalf x) else ofHalves (lowHalf x) half

/-- The next access of `utime`, from its call to its return.  Whether the compiler has the `low`
half of `usAddition` read first is left open. -/
def utime (f : CoreClock) (low : Bool) (c : Clock) : Option Clock :=
  match c.pc with
  | .idle => some { c with tick := c.tick.readCtrl, pc := .read }
  | .read => some { c with pc := .loaded c.tick.val }
  | .loaded ticks => some { c with pc := .halved ticks (firstHalf low c.usAddition) }
  | .halved ticks half => some { c with pc := .added ticks (secondHalf low half c.usAddition) }
  | .added ticks res =>
      if c.tick.countflag then some { c with tick := c.tick.readCtrl, pc := .read }
      else (addUInt32 res (1000 - ticks / f.ticksPerUs)).map fun res =>
        { c with tick := c.tick.readCtrl, pc := .idle, returned := res :: c.returned }

/-- What can happen to the clock. -/
inductive ClockEvent where
  /-- The counter counts. -/
  | count
  /-- A callback that is due runs. -/
  | callback
  /-- `utime` makes its next access, or is called. -/
  | access
  /-- `main` counts a round of its loop. -/
  | round
deriving DecidableEq, Repr

/-- The step of an event.  `main` goes on when no callback is due. -/
def clockStep (f : CoreClock) (low : Bool) (c : Clock) : ClockEvent → Option Clock
  | .count => some { c with
      tick := c.tick.count, pending := if c.tick.val = 0 then c.pending + 1 else c.pending }
  | .callback =>
      if 0 < c.pending then halSystickCallback { c with pending := c.pending - 1 } else none
  | .access => if c.pending = 0 then utime f low c else none
  | .round =>
      if c.pending = 0 ∧ c.pc = .idle then
        some { c with cpuLoad := { c.cpuLoad with cnt := c.cpuLoad.cnt + 1 } }
      else none

/-- The clock and everything around it. -/
def clockMachine (f : CoreClock) (low : Bool) : Machine Clock ClockEvent := ⟨clockStep f low⟩

/-! ## The time -/

/-- The time, in microseconds. -/
def Clock.now (f : CoreClock) (c : Clock) : Int :=
  c.usAddition.toInt + 1000 * c.pending + 1000 - (c.tick.val / f.ticksPerUs).toNat

/-- The time that `utime` will return, unless the counter comes round before. -/
def Clock.sample (f : CoreClock) (c : Clock) : Option Int :=
  if c.tick.countflag then none
  else
    match c.pc with
    | .idle | .read => none
    | .loaded ticks | .halved ticks _ | .added ticks _ =>
        some (c.usAddition.toInt + 1000 - (ticks / f.ticksPerUs).toNat)

/-- The value of the counter that `utime` has read. -/
def UtimePc.ticks? : UtimePc → Option UInt32
  | .idle | .read => none
  | .loaded ticks | .halved ticks _ | .added ticks _ => some ticks

/-- What `utime` has read of `usAddition` is what `usAddition` is. -/
def UtimePc.Fresh (low : Bool) (x : Int64) : UtimePc → Prop
  | .halved _ half => half = firstHalf low x
  | .added _ res => res = x
  | _ => True

/-- The counter and what `utime` has read of it stay within `LOAD`, and as long as the counter
does not come round, `usAddition` stays as it was when `VAL` was read. -/
structure Clock.Sound (f : CoreClock) (low : Bool) (c : Clock) : Prop where
  load : c.tick.load.toNat + 1 = 1000 * f.ticksPerUs.toNat
  val_le : c.tick.val ≤ c.tick.load
  ticks_le : ∀ ticks, c.pc.ticks? = some ticks → ticks ≤ c.tick.load
  settled : c.tick.countflag = false → c.pc.ticks? ≠ none → c.pending = 0
  fresh : c.tick.countflag = false → c.pc.Fresh low c.usAddition

theorem secondHalf_firstHalf (low : Bool) (x : Int64) :
    secondHalf low (firstHalf low x) x = x := by
  cases low with
  | false => exact ofHalves_halves x
  | true => exact ofHalves_halves x

/-- Up to `LOAD` there are less than 1000 microseconds. -/
theorem Clock.Sound.div_lt {f : CoreClock} {low : Bool} {c : Clock} (h : c.Sound f low)
    {ticks : UInt32} (hle : ticks ≤ c.tick.load) : (ticks / f.ticksPerUs).toNat < 1000 := by
  have hload := h.load
  have hticks : ticks.toNat ≤ c.tick.load.toNat := UInt32.le_iff_toNat_le.mp hle
  rw [UInt32.toNat_div, Nat.div_lt_iff_lt_mul f.ticksPerUs_pos]
  omega

theorem SysTick.count_of_ne {t : SysTick} (h : t.val ≠ 0) :
    t.count = { t with val := t.val - 1 } := if_neg h

theorem SysTick.count_of_eq {t : SysTick} (h : t.val = 0) :
    t.count = { t with val := t.load, countflag := true } := if_pos h

theorem SysTick.count_val_toNat {t : SysTick} (h : t.val ≠ 0) :
    t.count.val.toNat = t.val.toNat - 1 := by
  have hne : t.val.toNat ≠ 0 := fun hzero => h (UInt32.toNat_inj.mp hzero)
  have hpos : 1 ≤ t.val := UInt32.le_iff_toNat_le.mpr (Nat.one_le_iff_ne_zero.mpr hne)
  rw [SysTick.count_of_ne h]
  exact UInt32.toNat_sub_of_le _ _ hpos

/-- What the callback leaves of the clock. -/
theorem halSystickCallback_eq {c d : Clock} (h : halSystickCallback c = some d) :
    d.tick = c.tick ∧ d.pending = c.pending ∧ d.usAddition.toInt = c.usAddition.toInt + 1000 ∧
      d.pc = c.pc ∧ d.returned = c.returned := by
  obtain ⟨x, hx, rfl⟩ := Option.map_eq_some_iff.mp h
  have hadd := addUInt32_toInt hx
  split
  · exact ⟨rfl, rfl, hadd, rfl, rfl⟩
  · exact ⟨rfl, rfl, hadd, rfl, rfl⟩

/-- An access leaves the time as it is. -/
theorem utime_eq {f : CoreClock} {low : Bool} {c d : Clock} (h : utime f low c = some d) :
    d.tick.val = c.tick.val ∧ d.pending = c.pending ∧ d.usAddition = c.usAddition := by
  simp only [utime] at h
  split at h
  next => exact Option.some.inj h ▸ ⟨rfl, rfl, rfl⟩
  next => exact Option.some.inj h ▸ ⟨rfl, rfl, rfl⟩
  next => exact Option.some.inj h ▸ ⟨rfl, rfl, rfl⟩
  next => exact Option.some.inj h ▸ ⟨rfl, rfl, rfl⟩
  next =>
      split at h
      next => exact Option.some.inj h ▸ ⟨rfl, rfl, rfl⟩
      next =>
          obtain ⟨x, hx, rfl⟩ := Option.map_eq_some_iff.mp h
          exact ⟨rfl, rfl, rfl⟩

theorem Clock.Sound.count {f : CoreClock} {low : Bool} {c d : Clock} (h : c.Sound f low)
    (hstep : clockStep f low c .count = some d) : d.Sound f low := by
  obtain rfl := Option.some.inj hstep
  by_cases hval : c.tick.val = 0
  · refine ⟨?_, ?_, ?_, ?_, ?_⟩ <;> simp only [SysTick.count_of_eq hval]
    · exact h.load
    · exact UInt32.le_refl _
    · exact h.ticks_le
    · exact fun hflag => absurd hflag (by decide)
    · exact fun hflag => absurd hflag (by decide)
  · refine ⟨?_, ?_, ?_, ?_, ?_⟩ <;> simp only [SysTick.count_of_ne hval, if_neg hval]
    · exact h.load
    · have hle := h.val_le
      have hdown := SysTick.count_val_toNat hval
      simp only [SysTick.count_of_ne hval] at hdown
      rw [UInt32.le_iff_toNat_le] at hle ⊢
      omega
    · exact h.ticks_le
    · exact h.settled
    · exact h.fresh

/-- A callback that is due runs while no sample of `utime` counts. -/
theorem Clock.Sound.unsettled {f : CoreClock} {low : Bool} {c : Clock} (h : c.Sound f low)
    (hdue : 0 < c.pending) (hflag : c.tick.countflag = false) : c.pc = .idle ∨ c.pc = .read := by
  cases hpc : c.pc with
  | idle => exact .inl rfl
  | read => exact .inr rfl
  | loaded ticks => exact absurd (h.settled hflag (by simp [hpc, UtimePc.ticks?])) hdue.ne'
  | halved ticks half => exact absurd (h.settled hflag (by simp [hpc, UtimePc.ticks?])) hdue.ne'
  | added ticks res => exact absurd (h.settled hflag (by simp [hpc, UtimePc.ticks?])) hdue.ne'

theorem Clock.Sound.callback {f : CoreClock} {low : Bool} {c d : Clock} (h : c.Sound f low)
    (hstep : clockStep f low c .callback = some d) : d.Sound f low := by
  obtain ⟨hdue, hrun⟩ := Option.ite_none_right_eq_some.mp hstep
  obtain ⟨htick, hpending, hadd, hpc, hret⟩ := halSystickCallback_eq hrun
  refine ⟨?_, ?_, ?_, ?_, ?_⟩ <;> rw [htick]
  · exact h.load
  · exact h.val_le
  · exact hpc ▸ h.ticks_le
  · intro hflag hticks
    rw [hpc] at hticks
    exact absurd (h.settled hflag hticks) hdue.ne'
  · intro hflag
    rw [hpc]
    obtain hidle | hread := h.unsettled hdue hflag
    · exact hidle ▸ trivial
    · exact hread ▸ trivial

/-- A clock at rest or about to read `VAL` is sound when its counter is. -/
theorem Clock.Sound.of_no_ticks {f : CoreClock} {low : Bool} {c : Clock}
    (hload : c.tick.load.toNat + 1 = 1000 * f.ticksPerUs.toNat) (hval : c.tick.val ≤ c.tick.load)
    (hpc : c.pc = .idle ∨ c.pc = .read) : c.Sound f low := by
  have hnone : c.pc.ticks? = none := by
    cases hpc with
    | inl h => rw [h]; rfl
    | inr h => rw [h]; rfl
  refine ⟨hload, hval, ?_, fun _ h => absurd hnone h, ?_⟩
  · exact fun ticks h => absurd (hnone.symm.trans h) (Option.some_ne_none ticks).symm
  · cases hpc with
    | inl h => exact fun _ => h ▸ trivial
    | inr h => exact fun _ => h ▸ trivial

theorem Clock.Sound.access {f : CoreClock} {low : Bool} {c d : Clock} (h : c.Sound f low)
    (hstep : clockStep f low c .access = some d) : d.Sound f low := by
  obtain ⟨hsettled, hrun⟩ := Option.ite_none_right_eq_some.mp hstep
  have hfresh := h.fresh
  have hticks := h.ticks_le
  simp only [utime] at hrun
  split at hrun
  next =>
      obtain rfl := Option.some.inj hrun
      exact .of_no_ticks h.load h.val_le (.inr rfl)
  next =>
      obtain rfl := Option.some.inj hrun
      refine ⟨h.load, h.val_le, ?_, fun _ _ => hsettled, fun _ => trivial⟩
      rintro ticks ⟨⟩
      exact h.val_le
  next ticks hpc =>
      obtain rfl := Option.some.inj hrun
      refine ⟨h.load, h.val_le, ?_, fun _ _ => hsettled, fun _ => rfl⟩
      rw [hpc] at hticks
      exact hticks
  next ticks half hpc =>
      obtain rfl := Option.some.inj hrun
      rw [hpc] at hticks hfresh
      refine ⟨h.load, h.val_le, hticks, fun _ _ => hsettled, fun hflag => ?_⟩
      exact (hfresh hflag) ▸ secondHalf_firstHalf low c.usAddition
  next ticks res hpc =>
      split at hrun
      next =>
          obtain rfl := Option.some.inj hrun
          exact .of_no_ticks h.load h.val_le (.inr rfl)
      next =>
          obtain ⟨x, hx, rfl⟩ := Option.map_eq_some_iff.mp hrun
          exact .of_no_ticks h.load h.val_le (.inl rfl)

theorem Clock.Sound.step {f : CoreClock} {low : Bool} {c d : Clock} {e : ClockEvent}
    (h : c.Sound f low) (hstep : clockStep f low c e = some d) : d.Sound f low := by
  cases e with
  | count => exact h.count hstep
  | callback => exact h.callback hstep
  | access => exact h.access hstep
  | round =>
      obtain ⟨_, hrun⟩ := Option.ite_none_right_eq_some.mp hstep
      obtain rfl := Option.some.inj hrun
      exact ⟨h.load, h.val_le, h.ticks_le, h.settled, h.fresh⟩

/-- The time does not go back.  Where the counter comes round, it goes on by one microsecond. -/
theorem Clock.Sound.now_le {f : CoreClock} {low : Bool} {c d : Clock} {e : ClockEvent}
    (h : c.Sound f low) (hstep : clockStep f low c e = some d) : c.now f ≤ d.now f := by
  cases e with
  | count =>
      obtain rfl := Option.some.inj hstep
      have hload := h.div_lt (UInt32.le_refl _)
      by_cases hval : c.tick.val = 0
      · simp only [Clock.now, SysTick.count_of_eq hval, if_pos hval]
        push_cast
        omega
      · have hle : (c.tick.count.val / f.ticksPerUs).toNat ≤ (c.tick.val / f.ticksPerUs).toNat := by
          rw [UInt32.toNat_div, UInt32.toNat_div, SysTick.count_val_toNat hval]
          exact Nat.div_le_div_right (Nat.sub_le _ _)
        simp only [Clock.now, if_neg hval]
        omega
  | callback =>
      obtain ⟨hdue, hrun⟩ := Option.ite_none_right_eq_some.mp hstep
      obtain ⟨htick, hpending, hadd, hpc, hret⟩ := halSystickCallback_eq hrun
      simp only [Clock.now, htick, hpending, hadd]
      omega
  | access =>
      obtain ⟨_, hrun⟩ := Option.ite_none_right_eq_some.mp hstep
      obtain ⟨hval, hpending, hadd⟩ := utime_eq hrun
      simp only [Clock.now, hval, hpending, hadd]
      exact le_rfl
  | round =>
      obtain ⟨_, hrun⟩ := Option.ite_none_right_eq_some.mp hstep
      obtain rfl := Option.some.inj hrun
      exact le_rfl

/-! ## What `utime` returns -/

/-- The time that `utime` may take is the time before it reads `VAL`. -/
def Clock.Ready (c : Clock) : Prop := c.pc = .read ∧ c.pending = 0

/-- What `utime` returned, the last value first. -/
def Clock.times (c : Clock) : List Int := c.returned.map Int64.toInt

theorem Clock.sample_of_flag {f : CoreClock} {c : Clock} (h : c.tick.countflag = true) :
    c.sample f = none := if_pos h

theorem Clock.sample_of_no_ticks {f : CoreClock} {c : Clock} (h : c.pc = .idle ∨ c.pc = .read) :
    c.sample f = none := by
  cases h with
  | inl h => simp [Clock.sample, h]
  | inr h => simp [Clock.sample, h]

/-- The last subtraction of `utime`. -/
theorem Clock.Sound.sub_toNat {f : CoreClock} {low : Bool} {c : Clock} (h : c.Sound f low)
    {ticks : UInt32} (hticks : c.pc.ticks? = some ticks) :
    (1000 - ticks / f.ticksPerUs).toNat = 1000 - (ticks / f.ticksPerUs).toNat := by
  have hlt := h.div_lt (h.ticks_le ticks hticks)
  exact UInt32.toNat_sub_of_le _ _ (UInt32.le_iff_toNat_le.mpr hlt.le)

theorem Clock.Sound.move_access {f : CoreClock} {low : Bool} {c d : Clock} (h : c.Sound f low)
    (hstep : clockStep f low c .access = some d) :
    Move c.Ready (c.now f) (c.sample f) c.times (d.sample f) d.times := by
  obtain ⟨hsettled, hrun⟩ := Option.ite_none_right_eq_some.mp hstep
  have hfresh := h.fresh
  have hticks := h.ticks_le
  simp only [utime] at hrun
  split at hrun
  next hpc =>
      obtain rfl := Option.some.inj hrun
      rw [Clock.sample_of_no_ticks (.inl hpc), Clock.sample_of_no_ticks (.inr rfl)]
      exact .keep none _
  next hpc =>
      obtain rfl := Option.some.inj hrun
      cases hflag : c.tick.countflag with
      | true =>
          rw [Clock.sample_of_flag (c := { c with pc := .loaded c.tick.val }) hflag]
          exact .lose _ _
      | false =>
          have hnow : Clock.sample f { c with pc := .loaded c.tick.val } = some (c.now f) := by
            simp [Clock.sample, Clock.now, hflag, hsettled]
          rw [hnow]
          exact .take _ _ ⟨hpc, hsettled⟩
  next ticks hpc =>
      obtain rfl := Option.some.inj hrun
      have hsame : c.sample f = Clock.sample f
          { c with pc := .halved ticks (firstHalf low c.usAddition) } := by
        simp [Clock.sample, hpc]
      rw [← hsame]
      exact .keep _ _
  next ticks half hpc =>
      obtain rfl := Option.some.inj hrun
      have hsame : c.sample f = Clock.sample f
          { c with pc := .added ticks (secondHalf low half c.usAddition) } := by
        simp [Clock.sample, hpc]
      rw [← hsame]
      exact .keep _ _
  next ticks res hpc =>
      split at hrun
      next hflag =>
          obtain rfl := Option.some.inj hrun
          rw [Clock.sample_of_flag hflag, Clock.sample_of_no_ticks (.inr rfl)]
          exact .keep none _
      next hflag =>
          obtain ⟨x, hx, rfl⟩ := Option.map_eq_some_iff.mp hrun
          have hres : res = c.usAddition := by
            have := hfresh (by simpa using hflag)
            rwa [hpc] at this
          have hsub := h.sub_toNat (congrArg UtimePc.ticks? hpc)
          have hlt := h.div_lt (hticks ticks (congrArg UtimePc.ticks? hpc))
          have hsample : c.sample f = some x.toInt := by
            have hadd := addUInt32_toInt hx
            rw [hsub, hres] at hadd
            have heq : c.usAddition.toInt + 1000 - (ticks / f.ticksPerUs).toNat = x.toInt := by
              omega
            simp only [Clock.sample, hpc, if_neg hflag, heq]
          rw [hsample, Clock.sample_of_no_ticks (.inl rfl)]
          exact .give x.toInt c.times

theorem Clock.Sound.move {f : CoreClock} {low : Bool} {c d : Clock} {e : ClockEvent}
    (h : c.Sound f low) (hstep : clockStep f low c e = some d) :
    Move c.Ready (c.now f) (c.sample f) c.times (d.sample f) d.times := by
  cases e with
  | count =>
      obtain rfl := Option.some.inj hstep
      by_cases hval : c.tick.val = 0
      · have hlost : Clock.sample f { c with
            tick := c.tick.count,
            pending := if c.tick.val = 0 then c.pending + 1 else c.pending } = none :=
          Clock.sample_of_flag (by rw [SysTick.count_of_eq hval])
        rw [hlost]
        exact .lose _ _
      · simp only [SysTick.count_of_ne hval, if_neg hval]
        exact .keep _ _
  | callback =>
      obtain ⟨hdue, hrun⟩ := Option.ite_none_right_eq_some.mp hstep
      obtain ⟨htick, hpending, hadd, hpc, hret⟩ := halSystickCallback_eq hrun
      have htimes : d.times = c.times := congrArg (List.map Int64.toInt) hret
      have hlost : d.sample f = none := by
        cases hflag : c.tick.countflag with
        | true => exact Clock.sample_of_flag (htick ▸ hflag)
        | false => exact Clock.sample_of_no_ticks (hpc ▸ h.unsettled hdue hflag)
      rw [hlost, htimes]
      exact .lose _ _
  | access => exact h.move_access hstep
  | round =>
      obtain ⟨_, hrun⟩ := Option.ite_none_right_eq_some.mp hstep
      obtain rfl := Option.some.inj hrun
      exact .keep _ _

/-- `utime` samples the time. -/
def clockSampler (f : CoreClock) (low : Bool) :
    @Sampler Clock ClockEvent (clockMachine f low) Int Int.instLinearOrder.toPreorder where
  inv c := c.Sound f low
  now c := c.now f
  ready c := c.Ready
  held c := c.sample f
  returned c := c.times
  inv_step h hstep := h.step hstep
  now_le h hstep := h.now_le hstep
  move h hstep := h.move hstep

theorem timeInit_eq {f : CoreClock} {c d : Clock} (h : timeInit f c = some d) :
    d.tick = { load := f.hz / 1000 - 1, val := 0, countflag := false } ∧ d.pc = .idle ∧
      d.returned = [] := by
  obtain ⟨t, ht, rfl⟩ := Option.map_eq_some_iff.mp h
  obtain ⟨_, ht⟩ := Option.ite_none_left_eq_some.mp ht
  exact ⟨(Option.some.inj ht).symm, rfl, rfl⟩

/-- `time_init` leaves a sound clock. -/
theorem Clock.Sound.timeInit {f : CoreClock} {low : Bool} {c d : Clock}
    (h : timeInit f c = some d) : d.Sound f low := by
  obtain ⟨htick, hpc, _⟩ := timeInit_eq h
  refine .of_no_ticks ?_ ?_ (.inl hpc) <;> rw [htick]
  · have hms := f.millisecond
    have hpos := f.ticksPerUs_pos
    have hle : 1 ≤ f.hz / 1000 := by
      rw [UInt32.le_iff_toNat_le, hms]
      show 1 ≤ _
      omega
    rw [UInt32.toNat_sub_of_le _ _ hle, hms]
    show _ - 1 + 1 = _
    omega
  · exact UInt32.zero_le

section Utime

variable {f : CoreClock} {low : Bool} {c₀ c d : Clock} {es : List ClockEvent}

/-- In every state after `time_init` the clock is sound. -/
theorem timeInit_sound (h : timeInit f c₀ = some c)
    (hrun : (clockMachine f low).run c es = some d) : d.Sound f low :=
  (clockSampler f low).inv_run (Clock.Sound.timeInit h) hrun

/-- A call of `utime` returns the time of one instant of the call. -/
theorem Clock.Sound.returns_instant {e : Clock} {v : Int64} (h : d.Sound f low)
    (hidle : d.pc = .idle) (hrun : (clockMachine f low).run d es = some e)
    (hret : e.returned = v :: d.returned) :
    ∃ u, (clockMachine f low).Visits d es u ∧ u.pc ≠ .idle ∧ u.returned = d.returned ∧
      u.pending = 0 ∧
      v.toInt = u.usAddition.toInt + 1000 - (u.tick.val / f.ticksPerUs).toNat := by
  obtain ⟨u, hvisits, ⟨hread, hpending⟩, hsame, hnow⟩ :=
    (clockSampler f low).linearizable h (Clock.sample_of_no_ticks (.inl hidle)) hrun
      (congrArg (List.map Int64.toInt) hret)
  refine ⟨u, hvisits, hread ▸ by decide, ?_, hpending, ?_⟩
  · exact List.map_injective_iff.mpr (fun _ _ => Int64.toInt_inj.mp) hsame
  · rw [← hnow]
    simp [clockSampler, Clock.now, hpending]

/-- Each call of `utime` returns the time of one instant of the call, later calls return later
times, and the subtraction does not wrap. -/
theorem utime_linearizable_monotonic (h : timeInit f c₀ = some c) :
    (∀ front es d e v, (clockMachine f low).run c front = some d → d.pc = .idle →
      (clockMachine f low).run d es = some e → e.returned = v :: d.returned →
      ∃ u, (clockMachine f low).Visits d es u ∧ u.pc ≠ .idle ∧ u.returned = d.returned ∧
        u.pending = 0 ∧
        v.toInt = u.usAddition.toInt + 1000 - (u.tick.val / f.ticksPerUs).toNat) ∧
    (∀ es d, (clockMachine f low).run c es = some d → d.returned.Pairwise (· ≥ ·)) ∧
    ∀ es d ticks, (clockMachine f low).run c es = some d → d.pc.ticks? = some ticks →
      ticks / f.ticksPerUs ≤ 1000 := by
  obtain ⟨_, hidle, hnone⟩ := timeInit_eq h
  refine ⟨?_, ?_, ?_⟩
  · intro front es d e v hfront hpc hrun hret
    exact (timeInit_sound h hfront).returns_instant hpc hrun hret
  · intro es d hrun
    have hsorted := (clockSampler f low).sorted (Clock.Sound.timeInit h)
      (Clock.sample_of_no_ticks (.inl hidle)) (congrArg (List.map Int64.toInt) hnone) hrun
    exact (List.pairwise_map.mp hsorted).imp fun hle => Int64.le_iff_toInt_le.mpr hle
  · intro es d ticks hrun hticks
    have hsound : d.Sound f low := timeInit_sound h hrun
    exact UInt32.le_iff_toNat_le.mpr (hsound.div_lt (hsound.ticks_le ticks hticks)).le

/-- The counter comes round between the reads of `VAL` and `usAddition`.  `utime` reads again. -/
theorem utime_reads_again :
    ∃ f c d es, timeInit f ⟨⟨0, 0, true⟩, 0, 0, ⟨0, 0⟩, .idle, []⟩ = some c ∧
      (clockMachine f true).run c es = some d ∧ d.returned = [1001] ∧
      ∃ u, (clockMachine f true).Visits c es u ∧ u.pc ≠ .idle ∧ u.returned = [] ∧
        u.pending = 0 ∧
        (1001 : Int64).toInt = u.usAddition.toInt + 1000 - (u.tick.val / f.ticksPerUs).toNat := by
  let f : CoreClock := ⟨1000000, by decide, by decide⟩
  let c : Clock := ⟨⟨999, 0, false⟩, 0, 0, ⟨0, 0⟩, .idle, []⟩
  let es : List ClockEvent := [.access, .access, .count, .callback, .access, .access, .access,
    .access, .access, .access, .access]
  have hinit : timeInit f ⟨⟨0, 0, true⟩, 0, 0, ⟨0, 0⟩, .idle, []⟩ = some c := by decide +kernel
  have hret : ((clockMachine f true).run c es).map Clock.returned = some [1001] := by
    decide +kernel
  obtain ⟨d, hrun, hd⟩ := Option.map_eq_some_iff.mp hret
  exact ⟨f, c, d, es, hinit, hrun, hd,
    (utime_linearizable_monotonic hinit).1 [] es c d 1001 rfl rfl hrun hd⟩

end Utime

end Adhoc
