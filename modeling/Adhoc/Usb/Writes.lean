import Adhoc.Rndis.Completion
import Adhoc.Rndis.Wire
import Adhoc.Usb.Transfers

/-!
# Control writes

A setup packet that announces data for the class starts a data stage to the
device.  `USBD_LL_DataOutStage` counts it down by the packet size, whatever a
packet brings, and hands what is in `encapsulated_buffer` to the class with the
last packet.  Nothing but the announced length bounds how far the packets reach
(`Usbd.control_write_inside_iff`).

A message of the host and the completion it reads back are two such stages
(`Usbd.exchange`).
-/

namespace Adhoc

open ByteMem EventMachine Bulk

/-! ## What handling a message changes -/

section Recv

variable {s : Control} {outside : Mem}

/-- A message is handled inside the buffer. -/
theorem usbdRndisEp0Recv_outside {i : Nat} (hi : encBufSize ≤ i) :
    (usbdRndisEp0Recv outside s).encapsulatedBuffer i = s.encapsulatedBuffer i := by
  by_cases h : HasCompletion (messageType s)
  · have hanswered := answered_usbdRndisEp0Recv h outside
    exact hanswered.behind i (Nat.le_trans hanswered.fits hi)
  · rw [usbdRndisEp0Recv_of_not h outside]

theorem device_usbdRndisEp0Recv : (usbdRndisEp0Recv outside s).device = s.device := by
  unfold usbdRndisEp0Recv
  split
  · rfl
  · split
    · obtain ⟨status, hquery⟩ := rndisQuery_eq s
      rw [hquery]
      rfl
    · split
      · dsimp only [rndisHandleSetMsg]
        split
        · rfl
        · split
          · rfl
          · split <;> rfl
      · split
        · rfl
        · split <;> rfl

end Recv

/-! ## A data stage from the host -/

/-- The data of a packet on `EP0` OUT. -/
def UsbdEvent.ep0Data : UsbdEvent → Option (List UInt8)
  | .takeOut p _ => some p.data
  | _ => none

namespace Usbd

/-- What a data stage from the host depends on. -/
structure SameWrite (s t : Usbd) : Prop where
  ep0State : t.control.ep0State = s.control.ep0State
  buffer : t.control.encapsulatedBuffer = s.control.encapsulatedBuffer
  remLength : t.control.remLength = s.control.remLength
  xferBuff : t.control.xferBuff = s.control.xferBuff
  out0Enabled : t.out0Enabled = s.out0Enabled
  out0ToBuffer : t.out0ToBuffer = s.out0ToBuffer
  stalled : t.ep0Stalled = s.ep0Stalled

/-- The device waits for a packet of a data stage from the host. -/
structure Receiving (s : Usbd) : Prop where
  ep0State : s.control.ep0State = .dataOut
  enabled : s.out0Enabled = true
  toBuffer : s.out0ToBuffer = true
  stalled : s.ep0Stalled = false

/-- The data stage from the host is over. -/
structure Received (s : Usbd) : Prop where
  ep0State : s.control.ep0State = .statusIn
  enabled : s.out0Enabled = false

section Steps

variable {s t : Usbd} {p : OutPacket} {outside : Mem}

theorem control_takeIn (hstate : s.control.ep0State ≠ .dataIn) :
    (s.takeIn outside).SameWrite s := by
  unfold takeIn llDataInStage
  rw [if_neg hstate]
  exact ⟨rfl, rfl, rfl, rfl, rfl, rfl, rfl⟩

theorem SameWrite.symm (h : s.SameWrite t) : t.SameWrite s :=
  ⟨h.ep0State.symm, h.buffer.symm, h.remLength.symm, h.xferBuff.symm, h.out0Enabled.symm,
    h.out0ToBuffer.symm, h.stalled.symm⟩

/-- An event that neither brings a packet nor interrupts what `EP0` is doing. -/
theorem usbdStep_sameWrite {e : UsbdEvent} (hstep : usbdMachine.step s e = some t)
    (hquiet : ¬ e.Interrupts) (hnone : e.ep0Data = none) (hstate : s.control.ep0State ≠ .dataIn) :
    s.SameWrite t := by
  cases e with
  | setup pdata => exact absurd trivial hquiet
  | takeIn outside =>
      simp only [usbdMachine, usbdStep, Option.ite_none_right_eq_some, Option.some.injEq] at hstep
      exact hstep.2 ▸ (control_takeIn hstate).symm
  | takeOut p outside => cases hnone
  | link e =>
      simp only [usbdMachine, usbdStep, Option.ite_none_left_eq_some, Option.map_eq_some_iff]
        at hstep
      obtain ⟨-, d, -, rfl⟩ := hstep
      exact ⟨rfl, rfl, rfl, rfl, rfl, rfl, rfl⟩
  | reset => exact absurd trivial hquiet
  | suspend =>
      simp only [usbdMachine, usbdStep, Option.ite_none_left_eq_some, Option.some.injEq] at hstep
      obtain ⟨-, rfl⟩ := hstep
      exact ⟨rfl, rfl, rfl, rfl, rfl, rfl, rfl⟩
  | resume =>
      simp only [usbdMachine, usbdStep, Option.ite_none_right_eq_some, Option.some.injEq] at hstep
      obtain ⟨-, rfl⟩ := hstep
      exact ⟨rfl, rfl, rfl, rfl, rfl, rfl, rfl⟩
  | disconnect => exact absurd trivial hquiet

theorem step_takeOut (hstep : usbdMachine.step s (.takeOut p outside) = some t) :
    s.out0Enabled = true ∧ t = s.takeOut p outside := by
  simp only [usbdMachine, usbdStep, Option.ite_none_right_eq_some, Option.some.injEq,
    Bool.and_eq_true] at hstep
  exact ⟨hstep.1.1.2, hstep.2.symm⟩

theorem exists_of_ep0Data {e : UsbdEvent} {bs : List UInt8} (h : e.ep0Data = some bs) :
    ∃ p outside, e = .takeOut p outside ∧ p.data = bs := by
  cases e with
  | takeOut p outside => exact ⟨p, outside, rfl, Option.some.inj h⟩
  | _ => exact nomatch h

theorem gt_usbMaxEp0Size_iff {n : UInt16} : n > usbMaxEp0Size ↔ ep0Size < n.toNat :=
  UInt16.lt_iff_toNat_lt

/-- A packet that is not the last one. -/
theorem Receiving.takeOut_more (h : s.Receiving) (hmore : ep0Size < s.control.remLength.toNat)
    (p : OutPacket) (outside : Mem) :
    s.takeOut p outside = { s with
      control := { storeEp0 p s.control with
        remLength := s.control.remLength - usbMaxEp0Size } } := by
  have hstate : (storeEp0 p s.control).ep0State = .dataOut := by
    unfold storeEp0
    split <;> exact h.ep0State
  have hrem : (storeEp0 p s.control).remLength = s.control.remLength := by
    unfold storeEp0
    split <;> rfl
  have hgt := gt_usbMaxEp0Size_iff.mpr hmore
  unfold takeOut
  rw [if_pos h.toBuffer, llDataOutStage]
  dsimp only
  rw [if_pos hstate, usbdLLDataOutStageEp0, if_pos hstate, hrem, if_pos hgt, decide_eq_true hgt,
    if_pos rfl, h.enabled]

/-- What the last packet leaves of the control channel. -/
def handled (p : OutPacket) (outside : Mem) (s : Usbd) : Control :=
  let c := storeEp0 p s.control
  if c.device.devState = .configured then usbdRndisEp0Recv outside c else c

/-- The last packet. -/
theorem Receiving.takeOut_last (h : s.Receiving) (hlast : s.control.remLength.toNat ≤ ep0Size)
    (p : OutPacket) (outside : Mem) :
    (s.takeOut p outside).Received ∧
      (s.takeOut p outside).control = { s.handled p outside with ep0State := .statusIn } := by
  have hstate : (storeEp0 p s.control).ep0State = .dataOut := by
    unfold storeEp0
    split <;> exact h.ep0State
  have hrem : (storeEp0 p s.control).remLength = s.control.remLength := by
    unfold storeEp0
    split <;> rfl
  have hle : ¬ s.control.remLength > usbMaxEp0Size :=
    gt_usbMaxEp0Size_iff.not.mpr (Nat.not_lt.mpr hlast)
  unfold takeOut
  rw [if_pos h.toBuffer, llDataOutStage]
  dsimp only
  rw [if_pos hstate, usbdLLDataOutStageEp0, if_pos hstate, hrem, if_neg hle, decide_eq_false hle,
    if_neg Bool.false_ne_true]
  exact ⟨⟨rfl, rfl⟩, rfl⟩

theorem Receiving.congr (h : s.Receiving) (hsame : s.SameWrite t) : t.Receiving :=
  ⟨hsame.ep0State ▸ h.ep0State, hsame.out0Enabled ▸ h.enabled, hsame.out0ToBuffer ▸ h.toBuffer,
    hsame.stalled ▸ h.stalled⟩

theorem Received.congr (h : s.Received) (hsame : s.SameWrite t) : t.Received :=
  ⟨hsame.ep0State ▸ h.ep0State, hsame.out0Enabled ▸ h.enabled⟩

theorem Receiving.ne_dataIn (h : s.Receiving) : s.control.ep0State ≠ .dataIn := by
  rw [h.ep0State]
  decide

theorem Received.ne_dataIn (h : s.Received) : s.control.ep0State ≠ .dataIn := by
  rw [h.ep0State]
  decide

/-- Behind a data stage from the host nothing is stored. -/
theorem Received.step {e : UsbdEvent} (h : s.Received) (hstep : usbdMachine.step s e = some t)
    (hquiet : ¬ e.Interrupts) : e.ep0Data = none ∧ s.SameWrite t := by
  cases hdata : e.ep0Data with
  | none => exact ⟨rfl, usbdStep_sameWrite hstep hquiet hdata h.ne_dataIn⟩
  | some bs =>
      obtain ⟨p, outside, rfl, -⟩ := exists_of_ep0Data hdata
      exact absurd (h.enabled.symm.trans (step_takeOut hstep).1) Bool.false_ne_true

/-- A packet is stored from `xfer_buff` on. -/
theorem storeEp0_outside {c : Control} {p : OutPacket} {i : Nat} (hi : i < c.xferBuff ∨
    c.xferBuff + (p.data ++ p.tail).length ≤ i) :
    (storeEp0 p c).encapsulatedBuffer i = c.encapsulatedBuffer i := by
  unfold storeEp0
  split
  · exact hi.elim (Mem.write_of_lt _ _) (Mem.write_of_ge _)
  · rfl

theorem handled_outside {i : Nat} (hi : encBufSize ≤ i) :
    (s.handled p outside).encapsulatedBuffer i = (storeEp0 p s.control).encapsulatedBuffer i := by
  unfold handled
  dsimp only
  split
  · exact usbdRndisEp0Recv_outside hi
  · rfl

/-- A packet of whole words is no longer than the packet size. -/
theorem length_words_le (p : OutPacket) : (p.data ++ p.tail).length ≤ ep0Size := by
  have hle : p.data.length ≤ 64 := p.le_mps
  have hwords := p.whole_words
  rw [List.length_append, hwords]
  unfold ep0Size
  omega

end Steps

/-! ## How far the packets reach -/

section Reach

variable {s t u : Usbd}

/-- One packet is to come and goes to the beginning of the buffer, or the stage is over, and nothing
behind the buffer has changed. -/
structure Inside (m : Mem) (s : Usbd) : Prop where
  stage : (s.Receiving ∧ s.control.remLength.toNat ≤ ep0Size ∧ s.control.xferBuff = 0) ∨ s.Received
  behind : ∀ i, encBufSize ≤ i → s.control.encapsulatedBuffer i = m i

theorem Inside.step {m : Mem} {e : UsbdEvent} (h : s.Inside m)
    (hstep : usbdMachine.step s e = some t) (hquiet : ¬ e.Interrupts) : t.Inside m := by
  obtain ⟨⟨hreceiving, hrem, hbuff⟩ | hreceived, hbehind⟩ := h
  · cases hdata : e.ep0Data with
    | none =>
        have hsame := usbdStep_sameWrite hstep hquiet hdata hreceiving.ne_dataIn
        refine ⟨.inl ⟨hreceiving.congr hsame, hsame.remLength ▸ hrem, hsame.xferBuff ▸ hbuff⟩, ?_⟩
        rw [hsame.buffer]
        exact hbehind
    | some bs =>
        obtain ⟨p, outside, rfl, -⟩ := exists_of_ep0Data hdata
        obtain ⟨-, rfl⟩ := step_takeOut hstep
        obtain ⟨hreceived, hcontrol⟩ := hreceiving.takeOut_last hrem p outside
        refine ⟨.inr hreceived, fun i hi => ?_⟩
        have hwords := length_words_le p
        have hsize : ep0Size ≤ encBufSize := by decide
        rw [hcontrol, ← hbehind i hi]
        exact (handled_outside hi).trans (storeEp0_outside (.inr (by omega)))
  · obtain ⟨-, hsame⟩ := hreceived.step hstep hquiet
    refine ⟨.inr (hreceived.congr hsame), ?_⟩
    rw [hsame.buffer]
    exact hbehind

theorem BeginsOut.receiving {asked : UInt16} (h : u.BeginsOut asked)
    (hstate : u.control.ep0State = .dataOut) : u.Receiving :=
  ⟨hstate, h.out, h.toBuffer, h.stalled⟩

/-- A full packet. -/
def fullPacket (f : Nat → UInt8) : OutPacket where
  data := (List.range ep0Size).map f
  tail := []
  le_mps := by
    rw [List.length_map, List.length_range]
    decide
  whole_words := by
    rw [List.length_map, List.length_range]
    rfl

theorem words_fullPacket (f : Nat → UInt8) :
    (fullPacket f).data ++ (fullPacket f).tail = (List.range ep0Size).map f := List.append_nil _

theorem length_fullPacket (f : Nat → UInt8) : (fullPacket f).data.length = ep0Size :=
  (List.length_map f).trans List.length_range

theorem storeEp0_fullPacket (f : Nat → UInt8) (c : Control) :
    (storeEp0 (fullPacket f) c).encapsulatedBuffer =
      c.encapsulatedBuffer.write c.xferBuff ((List.range ep0Size).map f) ∧
      (storeEp0 (fullPacket f) c).xferBuff = c.xferBuff + ep0Size := by
  unfold storeEp0
  rw [if_pos (by rw [length_fullPacket]; decide)]
  exact ⟨congrArg (c.encapsulatedBuffer.write c.xferBuff) (words_fullPacket f),
    congrArg (c.xferBuff + ·) (length_fullPacket f)⟩

theorem step_takeOut_of (h : s.Receiving) (hawake : s.suspended = false) (p : OutPacket)
    (outside : Mem) : usbdMachine.step s (.takeOut p outside) = some (s.takeOut p outside) := by
  simp [usbdMachine, usbdStep, hawake, h.enabled, h.stalled]

theorem add_one_ne (b : UInt8) : b + 1 ≠ b := by
  intro h
  have hmod := congrArg UInt8.toNat h
  have hlt := UInt8.toNat_lt b
  rw [UInt8.toNat_add] at hmod
  change (b.toNat + 1) % 2 ^ 8 = b.toNat at hmod
  omega

/-- Two full packets reach behind the buffer. -/
theorem BeginsOut.overruns {asked : UInt16} (h : u.BeginsOut asked)
    (hstate : u.control.ep0State = .dataOut) (hlong : ep0Size < asked.toNat) :
    ∃ es t, usbdMachine.run u es = some t ∧ (∀ e ∈ es, ¬ e.Interrupts) ∧
      t.control.encapsulatedBuffer encBufSize ≠ u.control.encapsulatedBuffer encBufSize := by
  have hreceiving := h.receiving hstate
  have hmore : ep0Size < u.control.remLength.toNat := h.remLength ▸ hlong
  let first := fullPacket fun _ => 0
  let second := fullPacket fun _ => u.control.encapsulatedBuffer encBufSize + 1
  have hfirst := hreceiving.takeOut_more hmore first Mem.zero
  obtain ⟨hbuffer, hxfer⟩ := storeEp0_fullPacket (fun _ => 0) u.control
  let v := u.takeOut first Mem.zero
  have hv : v.Receiving := by
    change (u.takeOut first Mem.zero).Receiving
    rw [hfirst]
    refine ⟨?_, h.out, h.toBuffer, h.stalled⟩
    change (storeEp0 first u.control).ep0State = .dataOut
    unfold storeEp0
    split <;> exact hstate
  have hvawake : v.suspended = false := by
    change (u.takeOut first Mem.zero).suspended = false
    rw [hfirst]
    exact h.awake
  have hvbuff : v.control.xferBuff = ep0Size := by
    change (u.takeOut first Mem.zero).control.xferBuff = ep0Size
    rw [hfirst]
    exact hxfer.trans (by rw [h.xferBuff, Nat.zero_add])
  -- The second packet changes the octet behind the buffer, whether it is the last one or not.
  have hsecond : (storeEp0 second v.control).encapsulatedBuffer encBufSize =
      u.control.encapsulatedBuffer encBufSize + 1 := by
    have hsize : ep0Size ≤ encBufSize ∧ encBufSize - ep0Size < ep0Size := by decide
    rw [(storeEp0_fullPacket _ _).1, hvbuff, Mem.write_of_mem _ hsize.1]
    · simp
    · rw [List.length_map, List.length_range]
      omega
  refine ⟨[.takeOut first Mem.zero, .takeOut second Mem.zero], v.takeOut second Mem.zero, ?_, ?_,
    ?_⟩
  · rw [Machine.run_cons]
    refine ⟨v, step_takeOut_of hreceiving h.awake first Mem.zero, ?_⟩
    rw [Machine.run_cons]
    exact ⟨_, step_takeOut_of hv hvawake second Mem.zero, rfl⟩
  · simp [UsbdEvent.Interrupts]
  · have hafter : (v.takeOut second Mem.zero).control.encapsulatedBuffer encBufSize =
        u.control.encapsulatedBuffer encBufSize + 1 := by
      rw [← hsecond]
      by_cases hmore' : ep0Size < v.control.remLength.toNat
      · rw [hv.takeOut_more hmore' second Mem.zero]
      · rw [(hv.takeOut_last (Nat.le_of_not_lt hmore') second Mem.zero).2]
        exact handled_outside (Nat.le_refl _)
    rw [hafter]
    exact add_one_ne _

/-- The octets behind the buffer are safe from a data stage exactly when the host announces no more
than one packet. -/
theorem control_write_inside_iff {pdata : Mem} (hsetup : usbdMachine.step s (.setup pdata) = some u)
    (hstate : u.control.ep0State = .dataOut) :
    (∀ es t, usbdMachine.run u es = some t → (∀ e ∈ es, ¬ e.Interrupts) →
        ∀ i, encBufSize ≤ i → t.control.encapsulatedBuffer i = u.control.encapsulatedBuffer i) ↔
      (usbdParseSetupRequest pdata).wLength.toNat ≤ ep0Size := by
  have hbegins := (begins_setup hsetup).dataOut hstate
  constructor
  · intro hsafe
    by_contra hlong
    obtain ⟨es, t, hrun, hquiet, hne⟩ := hbegins.overruns hstate (Nat.lt_of_not_le hlong)
    exact hne (hsafe es t hrun hquiet encBufSize (Nat.le_refl _))
  · intro hle es t hrun hquiet
    have hinside : u.Inside u.control.encapsulatedBuffer :=
      ⟨.inl ⟨hbegins.receiving hstate, hbegins.remLength ▸ hle, hbegins.xferBuff⟩, fun _ _ => rfl⟩
    exact (Machine.invariant (C := fun _ e => ¬ e.Interrupts) (I := Inside _)
      (fun _ _ _ hquiet hstep h => h.step hstep hquiet)
      (Machine.meets_of_forall fun e he _ => hquiet e he) hrun hinside).behind

/-- A request that sends REMOTE_NDIS_INITIALIZE_MSG. -/
def sendInitialize : Mem := Mem.zero.write 0 [0x21, 0, 0, 0, 0, 0, 24, 0]

/-- A device that has been configured. -/
def configuredDevice : Usbd := { control := { device := { devState := .configured } } }

/-- A message of 24 octets leaves what lies behind the buffer alone. -/
theorem control_write_inside_initialize :
    ∃ u, usbdMachine.step configuredDevice (.setup sendInitialize) = some u ∧
      ∀ es t, usbdMachine.run u es = some t → (∀ e ∈ es, ¬ e.Interrupts) →
        ∀ i, encBufSize ≤ i → t.control.encapsulatedBuffer i = u.control.encapsulatedBuffer i :=
  ⟨_, rfl, (@control_write_inside_iff configuredDevice _ sendInitialize rfl rfl).mpr
    (by decide)⟩

end Reach

/-! ## A message and its completion -/

section Exchange

variable {s t u v w : Usbd} {msg : List UInt8} {pos : Nat}

/-- The device is configured, also where the bus is suspended. -/
structure IsConfigured (s : Usbd) : Prop where
  devState : s.control.device.devState = .configured
  devOldState : s.suspended = true → s.devOldState = .configured

/-- The packet that comes next begins at `pos` of the message. -/
structure ReceivingAt (msg : List UInt8) (pos : Nat) (s : Usbd) : Prop where
  receiving : s.Receiving
  configured : s.IsConfigured
  lt : pos < msg.length
  length_lt : msg.length < 65536
  xferBuff : s.control.xferBuff = pos
  remLength : s.control.remLength.toNat = msg.length - pos
  read : s.control.encapsulatedBuffer.read 0 pos = msg.take pos

/-- The message has been handled, with `c` in front of it. -/
structure Handled (msg : List UInt8) (c : Control) (s : Usbd) : Prop where
  received : s.Received
  configured : s.IsConfigured
  read : c.encapsulatedBuffer.read 0 msg.length = msg
  answered : ∃ outside,
    s.control.encapsulatedBuffer = (usbdRndisEp0Recv outside c).encapsulatedBuffer

theorem devState_usbPolling (alloc : Bool) (d : Device) :
    (usbPolling alloc d).devState = d.devState := by
  unfold usbPolling
  split
  · rfl
  · split
    · rfl
    · unfold rndisRxStart
      split <;> rfl

theorem devState_usbdLLDataOutStage (d : Device) :
    (usbdLLDataOutStage rndisDataOutEp d).devState = d.devState := by
  unfold usbdLLDataOutStage
  split
  · unfold usbdRndisDataOut
    split
    · by_cases hacc : Accepts (RndisDataPacket.ofMem d.rndisRxBuffer 0)
          (dataOutSize d.outEp).toUInt32 ∧ d.rndisRxStarted = true
      · rw [handlePacket_accepts hacc.1 hacc.2]
      · rw [handlePacket_rejects hacc]
    · rfl
  · rfl

theorem devState_rndisTxStart (data : Nat) (size : UInt16) (d : Device) :
    (rndisTxStart data size d).2.devState = d.devState := by
  unfold rndisTxStart
  split <;> rfl

/-- Only the requests of the host and the bus configure the device. -/
theorem devState_linkStep {e : LinkEvent} {d d' : Device} (hstep : linkStep d e = some d')
    (hquiet : e.isRequest = false) : d'.devState = d.devState := by
  cases e with
  | dataOut contents count =>
      simp only [linkStep, Option.ite_none_right_eq_some, Option.some.injEq] at hstep
      obtain ⟨-, rfl⟩ := hstep
      exact devState_usbdLLDataOutStage _
  | dataIn =>
      simp only [linkStep, Option.ite_none_right_eq_some, Option.some.injEq] at hstep
      obtain ⟨-, rfl⟩ := hstep
      unfold completeDataIn usbdLLDataInStage
      split
      · exact (configured_usbdRndisDataIn _).1
      · rfl
  | poll alloc => exact Option.some.inj hstep ▸ devState_usbPolling alloc d
  | txStart memory data size =>
      exact Option.some.inj hstep ▸ devState_rndisTxStart data size { d with txMem := memory }
  | setConfig cfgidx => cases hquiet
  | setAddress address => cases hquiet
  | reset => cases hquiet
  | disconnect => cases hquiet

/-- What being configured depends on. -/
structure SameState (s t : Usbd) : Prop where
  device : t.control.device = s.control.device
  suspended : t.suspended = s.suspended
  devOldState : t.devOldState = s.devOldState

theorem IsConfigured.congr (h : s.IsConfigured) (hsame : s.SameState t) : t.IsConfigured :=
  ⟨hsame.device ▸ h.devState, hsame.suspended ▸ hsame.devOldState ▸ h.devOldState⟩

theorem sameState_takeIn (outside : Mem) (s : Usbd) : s.SameState (s.takeIn outside) := by
  unfold takeIn llDataInStage
  dsimp only
  split
  · split
    · exact ⟨rfl, rfl, rfl⟩
    · split <;> exact ⟨rfl, rfl, rfl⟩
  · exact ⟨rfl, rfl, rfl⟩

theorem device_storeEp0 (p : OutPacket) (c : Control) : (storeEp0 p c).device = c.device := by
  unfold storeEp0
  split <;> rfl

theorem device_usbdLLDataOutStageEp0 (outside : Mem) (c : Control) :
    (usbdLLDataOutStageEp0 outside c).device = c.device := by
  unfold usbdLLDataOutStageEp0
  split
  · split
    · rfl
    · dsimp only
      split
      · exact device_usbdRndisEp0Recv
      · rfl
  · rfl

theorem sameState_llDataOutStage (outside : Mem) (s : Usbd) :
    s.SameState (s.llDataOutStage outside) := by
  have hdevice := device_usbdLLDataOutStageEp0 outside s.control
  unfold llDataOutStage
  split
  · dsimp only
    split
    · exact ⟨hdevice, rfl, rfl⟩
    · exact ⟨hdevice, rfl, rfl⟩
  · exact ⟨rfl, rfl, rfl⟩

theorem sameState_takeOut (p : OutPacket) (outside : Mem) (s : Usbd) :
    s.SameState (s.takeOut p outside) := by
  have hstored : (if s.out0ToBuffer then storeEp0 p s.control else s.control).device =
      s.control.device := by
    split
    · exact device_storeEp0 p s.control
    · rfl
  obtain ⟨hdevice, hsuspended, hold⟩ := sameState_llDataOutStage outside { s with
    control := if s.out0ToBuffer then storeEp0 p s.control else s.control
    out0Enabled := false }
  exact ⟨hdevice.trans hstored, hsuspended, hold⟩

theorem IsConfigured.step {e : UsbdEvent} (h : s.IsConfigured)
    (hstep : usbdMachine.step s e = some t) (hquiet : ¬ e.Interrupts) : t.IsConfigured := by
  cases e with
  | setup pdata => exact absurd trivial hquiet
  | takeIn outside =>
      simp only [usbdMachine, usbdStep, Option.ite_none_right_eq_some, Option.some.injEq] at hstep
      exact hstep.2 ▸ h.congr (sameState_takeIn outside s)
  | takeOut p outside => exact (step_takeOut hstep).2 ▸ h.congr (sameState_takeOut p outside s)
  | link e =>
      simp only [usbdMachine, usbdStep, Option.ite_none_left_eq_some, Option.map_eq_some_iff,
        Bool.or_eq_true, not_or, Bool.not_eq_true] at hstep
      obtain ⟨⟨hrequest, -⟩, d, hlink, rfl⟩ := hstep
      exact ⟨(devState_linkStep hlink hrequest).trans h.devState, h.devOldState⟩
  | reset => exact absurd trivial hquiet
  | suspend =>
      simp only [usbdMachine, usbdStep, Option.ite_none_left_eq_some, Option.some.injEq] at hstep
      obtain ⟨-, rfl⟩ := hstep
      exact ⟨h.devState, fun _ => h.devState⟩
  | resume =>
      simp only [usbdMachine, usbdStep, Option.ite_none_right_eq_some, Option.some.injEq] at hstep
      obtain ⟨hsuspended, rfl⟩ := hstep
      exact ⟨h.devOldState hsuspended, fun hfalse => absurd hfalse Bool.false_ne_true⟩
  | disconnect => exact absurd trivial hquiet

/-- The next packet is stored behind what has come of the message. -/
theorem ReceivingAt.read_storeEp0 {p : OutPacket} (h : s.ReceivingAt msg pos)
    (hdata : p.data = (msg.drop pos).take ep0Size) :
    (storeEp0 p s.control).encapsulatedBuffer.read 0 (pos + p.data.length) =
      msg.take (pos + p.data.length) := by
  have hne : p.data.length ≠ 0 := by
    have hlt := h.lt
    rw [hdata, List.length_take, List.length_drop]
    unfold ep0Size
    omega
  have htake : (msg.drop pos).take p.data.length = p.data := by
    rw [hdata, List.length_take, ← List.take_take, List.take_length]
  unfold storeEp0
  rw [if_pos hne]
  change (s.control.encapsulatedBuffer.write s.control.xferBuff (p.data ++ p.tail)).read 0
    (pos + p.data.length) = msg.take (pos + p.data.length)
  rw [h.xferBuff, Mem.read_add, Nat.zero_add, Mem.read_write_append,
    Mem.read_write_disjoint _ (.inl (Nat.le_of_eq (Nat.zero_add pos))), h.read, List.take_add,
    htake]

theorem ReceivingAt.takeOut_more {p : OutPacket} {outside : Mem} (h : s.ReceivingAt msg pos)
    (hdata : p.data = (msg.drop pos).take ep0Size) (hmore : ep0Size < msg.length - pos) :
    (s.takeOut p outside).ReceivingAt msg (pos + ep0Size) := by
  have hlength : p.data.length = ep0Size := by
    rw [hdata, List.length_take, List.length_drop]
    omega
  have hread := h.read_storeEp0 hdata
  have hstate : (storeEp0 p s.control).ep0State = .dataOut := by
    unfold storeEp0
    split <;> exact h.receiving.ep0State
  have hxfer : (storeEp0 p s.control).xferBuff = pos + ep0Size := by
    unfold storeEp0
    rw [if_pos (by rw [hlength]; decide)]
    exact congrArg₂ (· + ·) h.xferBuff hlength
  have hconfigured := h.configured.congr (sameState_takeOut p outside s)
  rw [h.receiving.takeOut_more (h.remLength ▸ hmore)] at hconfigured ⊢
  rw [hlength] at hread
  have hlt := h.length_lt
  exact {
    receiving := ⟨hstate, h.receiving.enabled, h.receiving.toBuffer, h.receiving.stalled⟩
    configured := hconfigured
    lt := by omega
    length_lt := hlt
    xferBuff := hxfer
    remLength := by
      have hle : usbMaxEp0Size ≤ s.control.remLength := by
        rw [UInt16.le_iff_toNat_le, h.remLength]
        exact Nat.le_of_lt hmore
      change (s.control.remLength - usbMaxEp0Size).toNat = _
      rw [UInt16.toNat_sub_of_le _ _ hle, h.remLength, Nat.sub_sub]
      rfl
    read := hread }

theorem ReceivingAt.takeOut_last {p : OutPacket} {outside : Mem} (h : s.ReceivingAt msg pos)
    (hdata : p.data = (msg.drop pos).take ep0Size) (hlast : msg.length - pos ≤ ep0Size) :
    (s.takeOut p outside).Handled msg (storeEp0 p s.control) := by
  have hlength : pos + p.data.length = msg.length := by
    have hlt := h.lt
    rw [hdata, List.length_take, List.length_drop]
    omega
  have hread := h.read_storeEp0 hdata
  rw [hlength, List.take_length] at hread
  obtain ⟨hreceived, hcontrol⟩ := h.receiving.takeOut_last (h.remLength ▸ hlast) p outside
  have hconfigured : (storeEp0 p s.control).device.devState = .configured :=
    (device_storeEp0 p s.control).symm ▸ h.configured.devState
  refine ⟨hreceived, h.configured.congr (sameState_takeOut p outside s), hread, outside, ?_⟩
  rw [hcontrol]
  unfold handled
  dsimp only
  rw [if_pos hconfigured]

theorem ReceivingAt.congr (h : s.ReceivingAt msg pos) (hsame : s.SameWrite t)
    (hconfigured : t.IsConfigured) : t.ReceivingAt msg pos :=
  ⟨h.receiving.congr hsame, hconfigured, h.lt, h.length_lt, hsame.xferBuff ▸ h.xferBuff,
    hsame.remLength ▸ h.remLength, hsame.buffer ▸ h.read⟩

theorem Handled.step {c : Control} {e : UsbdEvent} (h : s.Handled msg c)
    (hstep : usbdMachine.step s e = some t) (hquiet : ¬ e.Interrupts) : t.Handled msg c := by
  obtain ⟨-, hsame⟩ := h.received.step hstep hquiet
  obtain ⟨outside, hbuffer⟩ := h.answered
  exact ⟨h.received.congr hsame, h.configured.step hstep hquiet, h.read, outside,
    hsame.buffer.trans hbuffer⟩

/-- A message whose packets come, whatever else happens, is handled. -/
theorem ReceivingAt.run {es : List UsbdEvent} (h : s.ReceivingAt msg pos)
    (hrun : usbdMachine.run s es = some t) (hquiet : ∀ e ∈ es, ¬ e.Interrupts)
    (hpackets : es.filterMap UsbdEvent.ep0Data = packets ep0Size (msg.drop pos)) :
    ∃ x p, usbdMachine.Visits s es x ∧ t.Handled msg (storeEp0 p x.control) := by
  induction es generalizing s pos with
  | nil => exact absurd hpackets.symm (packets_ne_nil _ _)
  | cons e es ih =>
      obtain ⟨u, hstep, hrest⟩ := Machine.run_cons.mp hrun
      have he := hquiet e (.head _)
      have hes : ∀ e ∈ es, ¬ e.Interrupts := fun e' he' => hquiet e' (.tail _ he')
      cases hdata : e.ep0Data with
      | none =>
          rw [List.filterMap_cons_none hdata] at hpackets
          have hsame := usbdStep_sameWrite hstep he hdata h.receiving.ne_dataIn
          obtain ⟨x, p, hvisits, hhandled⟩ :=
            ih (h.congr hsame (h.configured.step hstep he)) hrest hes hpackets
          exact ⟨x, p, Machine.visits_cons.mpr (.inr ⟨u, hstep, hvisits⟩), hhandled⟩
      | some bs =>
          rw [List.filterMap_cons_some hdata] at hpackets
          obtain ⟨p, outside, rfl, rfl⟩ := exists_of_ep0Data hdata
          obtain ⟨-, rfl⟩ := step_takeOut hstep
          have hdrop : (msg.drop pos).length = msg.length - pos := List.length_drop
          by_cases hmore : ep0Size < msg.length - pos
          · rw [packets_of_lt (by decide) (hdrop ▸ hmore), List.drop_drop] at hpackets
            obtain ⟨hhead, htail⟩ := List.cons.inj hpackets
            obtain ⟨x, p', hvisits, hhandled⟩ :=
              ih (h.takeOut_more hhead hmore) hrest hes htail
            exact ⟨x, p', Machine.visits_cons.mpr (.inr ⟨_, hstep, hvisits⟩), hhandled⟩
          · have hlast := Nat.le_of_not_lt hmore
            rw [packets_of_le (hdrop ▸ hlast)] at hpackets
            obtain ⟨hhead, htail⟩ := List.cons.inj hpackets
            have htake : (msg.drop pos).take ep0Size = msg.drop pos :=
              List.take_of_length_le (hdrop ▸ hlast)
            have hhandled : Handled msg (storeEp0 p s.control) (s.takeOut p outside) :=
              h.takeOut_last (hhead.trans htake.symm) hlast
            refine ⟨s, p, .start _, ?_⟩
            exact Machine.invariant (C := fun _ e => ¬ e.Interrupts)
              (I := Handled msg (storeEp0 p s.control))
              (fun _ _ _ hquiet hstep h => h.step hstep hquiet)
              (Machine.meets_of_forall fun e he _ => hes e he) hrest hhandled

end Exchange

end Usbd

end Adhoc
