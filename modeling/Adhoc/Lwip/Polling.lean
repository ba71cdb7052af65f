import Adhoc.Lwip.Pbuf
import Adhoc.Rndis.Session

/-!
# The frame that `usb_polling` hands over

`ethernet_input` takes over the reference `usb_polling` has from `pbuf_alloc`:
when it returns, the frame "is freed or consumed, so the caller doesn't have to
free it again".  What the stack does with its references is left open.  It is
any list of operations in which nobody releases or hands on a reference he does
not have, and the same holds for what it does between two polls.

`usb_polling` does free the frame again.  So the counts are right until a frame
is handed over and wrong from then on (`pbufs_sound_iff`).
-/

namespace Adhoc

open RefCount EventMachine

/-! ## The stack -/

/-- What the stack does with the pbufs of the pool.  `pbuf_chain` is a `cat` and
a `ref`. -/
inductive StackOp where
  /-- `pbuf_alloc(PBUF_RAW, length, PBUF_POOL)`. -/
  | alloc (length : UInt16)
  /-- `pbuf_ref`. -/
  | ref (p : Slot)
  /-- `pbuf_free`. -/
  | free (p : Slot)
  /-- `pbuf_cat`, which takes over the reference to `t`. -/
  | cat (h t : Slot)
  /-- `pbuf_dechain`. -/
  | dechain (p : Slot)

/-- Somebody has one more reference to what was allocated. -/
def hold : Option Slot → Pbufs → Pbufs
  | none, s => s
  | some p, s => { s with held := Function.update s.held p (s.held p + 1) }

/-- Somebody has a reference less to `p`. -/
def drop (p : Slot) (s : Pbufs) : Pbufs :=
  { s with held := Function.update s.held p (s.held p - 1) }

/-- An operation of the stack.  A count is not pushed past its type. -/
def stackStep (s : Pbufs) : StackOp → Option Pbufs
  | .alloc length =>
      let (p, s) := pbufAlloc length s
      some (hold p s)
  | .ref p => if s.ref p ≠ 0 ∧ s.ref p < 65535 then some (hold (some p) (pbufRef p s)) else none
  | .free p => if 0 < s.held p then some (pbufFree p (drop p s)).2 else none
  | .cat h t => if s.ref h ≠ 0 ∧ 0 < s.held t then pbufCat h t (drop t s) else none
  | .dechain p => if s.ref p ≠ 0 then some (pbufDechain p s).2 else none

/-- The stack. -/
def stackMachine : Machine Pbufs StackOp := ⟨stackStep⟩

/-! ## The device and the pool -/

/-- The device with the pool of the stack. -/
structure Net where
  device : Device
  pbufs : Pbufs

/-- The state after `init_lwip`. -/
def Net.powerOn : Net := ⟨Device.powerOn, mempInit⟩

/-- `usb_polling`.  `ops` is what happens to the pbufs while `ethernet_input`
runs. -/
def Net.usbPolling (ops : List StackOp) (n : Net) : Option Net :=
  match rndisRxData n.device with
  | none => some n
  | some _ =>
      match pbufAlloc (rndisRxSize n.device) n.pbufs with
      | (none, s) => some ⟨Adhoc.usbPolling false n.device, s⟩
      | (some frame, s) =>
          (stackMachine.run (hold (some frame) s) ops).map fun s =>
            ⟨Adhoc.usbPolling true n.device, (pbufFree frame s).2⟩

/-- An event of the device with its stack. -/
inductive NetEvent where
  /-- An event of the link other than `usb_polling`. -/
  | link (e : LinkEvent)
  /-- The stack does something with its pbufs outside `usb_polling`. -/
  | stack (op : StackOp)
  /-- The main loop calls `usb_polling`. -/
  | poll (ops : List StackOp)

/-- The event is `usb_polling`. -/
def LinkEvent.isPoll : LinkEvent → Bool
  | .poll _ => true
  | _ => false

/-- The step of an event. -/
def netStep (n : Net) : NetEvent → Option Net
  | .link e =>
      if e.isPoll then none else (linkStep n.device e).map fun d => { n with device := d }
  | .stack op => (stackStep n.pbufs op).map fun s => { n with pbufs := s }
  | .poll ops => n.usbPolling ops

/-- The device with its stack. -/
def netMachine : Machine Net NetEvent := ⟨netStep⟩

/-- No frame is handed over: there is none, or there are too few free pbufs for
it. -/
def NoFrame (n : Net) : NetEvent → Prop
  | .poll _ =>
      rndisRxData n.device = none ∨ freeCells n.pbufs.counts < pbufsNeeded (rndisRxSize n.device)
  | _ => True

/-! ## The stack keeps the counts right -/

variable {s t : Pbufs} {p q : Slot} {x : Slot → ℤ}

theorem owed_hold (p : Slot) (s : Pbufs) : (hold (some p) s).owed = s.owed + one p := by
  funext q
  by_cases hq : q = p
  · subst hq
    simp [Pbufs.owed, hold]
  · simp [Pbufs.owed, hold, hq]

theorem owed_drop (hp : 0 < s.held p) : (drop p s).owed = s.owed - one p := by
  funext q
  by_cases hq : q = p
  · subst hq
    simp only [Pbufs.owed, drop, Function.update_self, Pi.sub_apply, one_self]
    omega
  · simp [Pbufs.owed, drop, hq]

theorem owed_congr (h : t.held = s.held) : t.owed = s.owed := by
  funext p
  simp only [Pbufs.owed, h]

theorem Pbufs.Accounts.sound (h : t.Accounts s.owed) (hheld : t.held = s.held) : t.Sound :=
  (congrArg t.Accounts (owed_congr hheld)).mpr h

/-- The counts include the reference somebody is given. -/
theorem Pbufs.Accounts.sound_hold (h : s.Accounts (s.owed + one p)) : (hold (some p) s).Sound := by
  unfold Pbufs.Sound
  rw [owed_hold]
  exact ⟨h.no_underflow, h.books⟩

theorem Pbufs.Sound.alloc (h : s.Sound) (length : UInt16) :
    (hold (pbufAlloc length s).1 (pbufAlloc length s).2).Sound := by
  have hheld := pbufAlloc_held length s
  cases hrun : pbufAlloc length s with
  | mk o t =>
      rw [hrun] at hheld
      obtain ⟨rfl, hacc, -⟩ | ⟨p, rfl, hacc, -⟩ := Pbufs.Accounts.alloc h s.owed_nonneg hrun
      · exact hacc.sound hheld
      · exact Pbufs.Accounts.sound_hold (owed_congr hheld ▸ hacc)

theorem Pbufs.Sound.ref (h : s.Sound) (hp : s.ref p ≠ 0) (hlt : s.ref p < 65535) :
    (hold (some p) (pbufRef p s)).Sound := by
  refine Pbufs.Accounts.sound_hold ⟨h.no_underflow, ?_⟩
  have hcounts : (pbufRef p s).counts = Function.update s.counts p (s.counts p + 1) := by
    rw [counts_of_ref (s := s) (p := p) (c := s.ref p + 1) rfl, UInt16.toNat_add]
    have hbound : (s.ref p).toNat < 65535 := UInt16.lt_iff_toNat_lt.mp hlt
    exact congrArg (Function.update s.counts p) (Nat.mod_eq_of_lt (Nat.succ_lt_succ hbound))
  rw [hcounts]
  exact h.books.increment (counts_ne_zero_iff.mpr hp)

theorem Pbufs.Sound.free (h : s.Sound) (hp : 0 < s.held p) : (pbufFree p (drop p s)).2.Sound := by
  have hdropped : (drop p s).Accounts s.owed := ⟨h.no_underflow, h.books⟩
  have hfreed := hdropped.free s.owed_nonneg (Int.natCast_pos.mpr hp)
  rw [← owed_drop hp] at hfreed
  exact hfreed.sound (pbufFree_held p (drop p s))

/-- The last pbuf of a chain of allocated pbufs is allocated. -/
theorem lastOfChain_allocated {fuel : Nat} (h : s.Accounts x) (hx : 0 ≤ x) (hp : s.ref p ≠ 0)
    (hlast : lastOfChain fuel p s = some q) : s.ref q ≠ 0 ∧ s.next q = none := by
  induction fuel generalizing p with
  | zero => nomatch hlast
  | succ fuel ih =>
      unfold lastOfChain at hlast
      cases hnext : s.next p with
      | none =>
          rw [hnext] at hlast
          obtain rfl := Option.some.inj hlast
          exact ⟨hp, hnext⟩
      | some r =>
          rw [hnext] at hlast
          have hr := h.books.linked_ne_zero (hx r) (counts_ne_zero_iff.mpr hp) hnext
          exact ih (counts_ne_zero_iff.mp hr) hlast

theorem Pbufs.Sound.cat {r : Slot} (h : s.Sound) (hp : s.ref p ≠ 0) (hr : 0 < s.held r)
    (hcat : pbufCat p r (drop r s) = some t) : t.Sound := by
  have hdropped : (drop r s).Accounts s.owed := ⟨h.no_underflow, h.books⟩
  obtain ⟨q, hlast, rfl⟩ := Option.map_eq_some_iff.mp hcat
  obtain ⟨hq, hnext⟩ := lastOfChain_allocated hdropped s.owed_nonneg hp hlast
  have hchained := hdropped.chain hq hnext r
  rw [← owed_drop hr] at hchained
  exact hchained

theorem Pbufs.Sound.dechain (h : s.Sound) (hp : s.ref p ≠ 0) : (pbufDechain p s).2.Sound := by
  unfold pbufDechain
  cases hnext : s.next p with
  | none => exact h
  | some q =>
      have hcut : ({ s with next := Function.update s.next p none } : Pbufs).Accounts
          (s.owed + one q) :=
        ⟨h.no_underflow, h.books.detach (counts_ne_zero_iff.mpr hp) hnext⟩
      exact (hcut.free_given s.owed_nonneg).sound (s := s) (pbufFree_held ..)

/-- No operation of the stack spoils the counts. -/
theorem Pbufs.Sound.step {op : StackOp} (h : s.Sound) (hstep : stackMachine.step s op = some t) :
    t.Sound := by
  cases op with
  | alloc length =>
      obtain rfl := Option.some.inj hstep
      exact h.alloc length
  | ref p =>
      simp only [stackMachine, stackStep, Option.ite_none_right_eq_some, Option.some.injEq] at hstep
      obtain ⟨⟨hp, hlt⟩, rfl⟩ := hstep
      exact h.ref hp hlt
  | free p =>
      simp only [stackMachine, stackStep, Option.ite_none_right_eq_some, Option.some.injEq] at hstep
      obtain ⟨hp, rfl⟩ := hstep
      exact h.free hp
  | cat p r =>
      simp only [stackMachine, stackStep, Option.ite_none_right_eq_some] at hstep
      obtain ⟨⟨hp, hr⟩, hcat⟩ := hstep
      exact h.cat hp hr hcat
  | dechain p =>
      simp only [stackMachine, stackStep, Option.ite_none_right_eq_some, Option.some.injEq] at hstep
      obtain ⟨hp, rfl⟩ := hstep
      exact h.dechain hp

/-- Nothing the stack does spoils the counts. -/
theorem Pbufs.Sound.run {ops : List StackOp} (h : s.Sound)
    (hrun : stackMachine.run s ops = some t) :
    t.Sound :=
  Machine.Reaches.invariant (fun _ _ _ hstep h => Pbufs.Sound.step h hstep) ⟨ops, hrun⟩ h

/-! ## A frame is handed over -/

theorem mempInit_sound : mempInit.Sound := by
  refine ⟨rfl, excess_unused fun _ => rfl, ?_⟩
  refine ⟨(List.finRange pbufPoolSize).reverse, ?_, by decide, ?_⟩
  · decide
  · intro a
    exact iff_of_true (List.mem_reverse.mpr (List.mem_finRange a)) rfl

/-- A poll hands nothing over, or the stack returns with the counts right and the
frame is freed once more. -/
theorem usbPolling_cases {n m : Net} {ops : List StackOp} (h : n.pbufs.Sound)
    (hstep : n.usbPolling ops = some m) :
    NoFrame n (.poll ops) ∧ m.pbufs.Sound ∨
      ¬ NoFrame n (.poll ops) ∧ ∃ frame s, s.Sound ∧ m.pbufs = (pbufFree frame s).2 := by
  unfold Net.usbPolling at hstep
  cases hdata : rndisRxData n.device with
  | none =>
      rw [hdata] at hstep
      obtain rfl := Option.some.inj hstep
      exact .inl ⟨.inl hdata, h⟩
  | some payload =>
      rw [hdata] at hstep
      have hheld := pbufAlloc_held (rndisRxSize n.device) n.pbufs
      cases halloc : pbufAlloc (rndisRxSize n.device) n.pbufs with
      | mk o s =>
          rw [halloc] at hheld
          simp only [halloc] at hstep
          obtain ⟨rfl, hacc, hfew⟩ | ⟨frame, rfl, hacc, hfits⟩ :=
            Pbufs.Accounts.alloc h n.pbufs.owed_nonneg halloc
          · obtain rfl := Option.some.inj hstep
            exact .inl ⟨.inr hfew, hacc.sound hheld⟩
          · obtain ⟨u, hrun, rfl⟩ := Option.map_eq_some_iff.mp hstep
            have hgiven : (hold (some frame) s).Sound :=
              Pbufs.Accounts.sound_hold (owed_congr hheld ▸ hacc)
            refine .inr ⟨?_, frame, u, hgiven.run hrun, rfl⟩
            rintro (hnone | hfew)
            · exact absurd (hdata.symm.trans hnone) (Option.some_ne_none payload)
            · exact absurd hfits (Nat.not_le.mpr hfew)

/-- Where the stack has freed the frame, a count of 0 is decremented.  Where it
has kept the frame and nobody else refers to it, the frame is freed. -/
theorem usbPolling_frees_again {n m : Net} {ops : List StackOp} (h : n.pbufs.Sound)
    (hstep : n.usbPolling ops = some m) (hframe : ¬ NoFrame n (.poll ops)) :
    ∃ frame s, s.Sound ∧ m.pbufs = (pbufFree frame s).2 ∧
      (s.ref frame = 0 → m.pbufs.underflow = true) ∧
      (s.ref frame = 1 → s.held frame = 1 →
        m.pbufs.ref frame = 0 ∧ m.pbufs.held frame = 1) := by
  obtain ⟨hnone, -⟩ | ⟨-, frame, s, hsound, hm⟩ := usbPolling_cases h hstep
  · exact absurd hnone hframe
  · refine ⟨frame, s, hsound, hm, ?_, ?_⟩
    · intro hfreed
      rw [hm]
      exact pbufFreeLoop_underflow hfreed
    · intro hone hheld
      rw [hm, pbufFree_held]
      exact ⟨hsound.free_held hheld hone, hheld⟩

/-- A poll leaves the counts right exactly when it hands nothing over. -/
theorem usbPolling_sound_iff {n m : Net} {ops : List StackOp} (h : n.pbufs.Sound)
    (hstep : n.usbPolling ops = some m) : m.pbufs.Sound ↔ NoFrame n (.poll ops) := by
  obtain ⟨hnone, hsound⟩ | ⟨hframe, frame, s, hsound, hm⟩ := usbPolling_cases h hstep
  · exact iff_of_true hsound hnone
  · refine iff_of_false (fun hafter => ?_) hframe
    refine Pbufs.Accounts.not_free (p := frame) hsound ?_
    rw [hm] at hafter
    exact (congrArg _ (owed_congr (pbufFree_held frame s))).mp hafter

/-- An event leaves the counts right exactly when it hands nothing over. -/
theorem netStep_sound_iff {n m : Net} {e : NetEvent} (h : n.pbufs.Sound)
    (hstep : netMachine.step n e = some m) : m.pbufs.Sound ↔ NoFrame n e := by
  cases e with
  | link e =>
      simp only [netMachine, netStep, Option.ite_none_left_eq_some, Option.map_eq_some_iff] at hstep
      obtain ⟨-, d, -, rfl⟩ := hstep
      exact iff_of_true h trivial
  | stack op =>
      obtain ⟨s, hop, rfl⟩ := Option.map_eq_some_iff.mp hstep
      exact iff_of_true (h.step hop) trivial
  | poll ops => exact usbPolling_sound_iff h hstep

/-- The counts are right throughout a run exactly when no poll of it hands a
frame over. -/
theorem pbufs_sound_iff (es : List NetEvent) (m : Net)
    (hrun : netMachine.run Net.powerOn es = some m) :
    (∀ n, netMachine.Visits Net.powerOn es n → n.pbufs.Sound) ↔
      netMachine.Meets NoFrame Net.powerOn es :=
  Machine.visits_iff_meets (I := fun n : Net => n.pbufs.Sound)
    (fun _ _ _ h hstep => netStep_sound_iff h hstep) hrun mempInit_sound

/-- The device is configured and a frame of 20 octets arrives. -/
def frameArrives : List NetEvent := configuredWithFrame.map .link

/-- The stack frees the frame and `usb_polling` decrements a count of 0, or the
stack keeps the frame and `usb_polling` frees it. -/
theorem frame_freed_again :
    (∃ n, netMachine.run Net.powerOn (frameArrives ++ [.poll [.free 15]]) = some n ∧
      n.pbufs.underflow = true) ∧
    (∃ n, netMachine.run Net.powerOn (frameArrives ++ [.poll []]) = some n ∧
      n.pbufs.held 15 = 1 ∧ n.pbufs.ref 15 = 0 ∧ n.pbufs.mempTab = some 15) := by
  refine ⟨⟨_, rfl, by decide⟩, ⟨_, rfl, by decide, by decide, by decide⟩⟩

/-- Polls before the frame arrives and a stack at work leave the counts right. -/
theorem pbufs_sound_iff_idle :
    let es : List NetEvent := [.poll [], .stack (.alloc 2000), .stack (.free 15)] ++ frameArrives
    ∀ n, netMachine.Visits Net.powerOn es n → n.pbufs.Sound := by
  intro es
  refine (pbufs_sound_iff es _ rfl).mpr ?_
  refine ⟨.inl rfl, fun n _ => ?_⟩
  refine Machine.meets_of_forall fun e he _ => ?_
  obtain rfl | rfl | he := List.mem_cons.mp he |>.imp_right List.mem_cons.mp
  · trivial
  · trivial
  · obtain ⟨_, -, rfl⟩ := List.mem_map.mp he
    trivial

end Adhoc
