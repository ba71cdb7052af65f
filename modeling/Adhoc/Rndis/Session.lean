import Adhoc.Lib.Machine
import Adhoc.Rndis.RxPath
import Adhoc.Rndis.Transmit

/-!
# Configuring the device again

`LinkEvent` has everything that moves the device between two configurations:
completions on the two data endpoints, `usb_polling`, `rndis_tx_start` and the
requests and bus events that change the configuration.  `usbd_rndis_deinit`
closes the endpoints, so what was outstanding on them is dropped and never
completes.

Neither `usbd_rndis_deinit` nor `usbd_rndis_init` touches the variables of the
session.  So a receive that was started stays started with nothing armed, and a
transmit in flight stays in flight, and the link comes back only where there was
neither (`restored_iff`).
-/

namespace Adhoc

open ByteMem EventMachine

/-! ## Events -/

/-- An event of the link. -/
inductive LinkEvent where
  /-- The receive outstanding on the data OUT endpoint completes after `count`
  octets. -/
  | dataOut (contents : Mem) (count : UInt32)
  /-- The transmit outstanding on the data IN endpoint completes. -/
  | dataIn
  /-- The main loop calls `usb_polling`. -/
  | poll (alloc : Bool)
  /-- The main loop calls `rndis_tx_start`, with these octets in memory. -/
  | txStart (memory : Mem) (data : Nat) (size : UInt16)
  /-- A SET_CONFIGURATION request. -/
  | setConfig (cfgidx : UInt8)
  /-- A SET_ADDRESS request. -/
  | setAddress (address : UInt8)
  /-- The host resets the bus. -/
  | reset
  /-- The device is unplugged. -/
  | disconnect

/-- `USBD_LL_DataOutStage` at the end of a transfer. -/
def completeDataOut (contents : Mem) (count : UInt32) (s : Device) : Device :=
  usbdLLDataOutStage rndisDataOutEp
    { s with
      rndisRxBuffer := contents
      outEp := { s.outEp with enabled := false, xferCount := count } }

/-- `USBD_LL_DataInStage` at the end of a transfer. -/
def completeDataIn (s : Device) : Device :=
  usbdLLDataInStage rndisDataInEp { s with inEnabled := false }

/-- A transfer completes only while it is outstanding on an open endpoint. -/
def linkStep (s : Device) : LinkEvent → Option Device
  | .dataOut contents count =>
      if s.outEp.isOpen && s.outEp.enabled then some (completeDataOut contents count s) else none
  | .dataIn => if s.inOpen && s.inEnabled then some (completeDataIn s) else none
  | .poll alloc => some (usbPolling alloc s)
  | .txStart memory data size => some (rndisTxStart data size { s with txMem := memory }).2
  | .setConfig cfgidx => some (usbdSetConfig cfgidx s)
  | .setAddress address => some (usbdSetAddress address s)
  | .reset => some (usbdLLReset s)
  | .disconnect => some (usbdLLDevDisconnected s)

/-- The link. -/
def linkMachine : Machine Device LinkEvent := ⟨linkStep⟩

/-- The device is closed and opened again. -/
def reconfigure (s : Device) : Device := usbdRndisInit (usbdRndisDeinit s)

/-! ## What the variables keep -/

/-- The two variables of a session that the zero-length packet depends on. -/
def SameTx (s t : Device) : Prop :=
  t.rndisTxTransmitting = s.rndisTxTransmitting ∧ t.rndisTxZLP = s.rndisTxZLP

/-- The message in flight. -/
structure TxMessage where
  transmitting : Bool
  zlp : Bool
  ptr : Option Nat
  size : UInt16
  memory : Mem
  sent : List (List UInt8)

/-- What the variables say of the message. -/
def Device.message (s : Device) : TxMessage where
  transmitting := s.rndisTxTransmitting
  zlp := s.rndisTxZLP
  ptr := s.rndisTxPtr
  size := s.rndisTxDataSize
  memory := s.txMem
  sent := s.sent

theorem sameTx_of_message {s t : Device} (h : t.message = s.message) : SameTx s t :=
  ⟨congrArg TxMessage.transmitting h, congrArg TxMessage.zlp h⟩

theorem message_rndisRxStart (s : Device) : (rndisRxStart s).2.message = s.message := by
  unfold rndisRxStart
  split <;> rfl

theorem message_handlePacket (h : RndisDataPacket) (size : Int32) (s : Device) :
    (handlePacket h size s).message = s.message := by
  by_cases hacc : Accepts h size.toUInt32 ∧ s.rndisRxStarted = true
  · rw [handlePacket_accepts hacc.1 hacc.2]
    rfl
  · rw [handlePacket_rejects hacc]
    rfl

theorem message_usbPolling (alloc : Bool) (s : Device) :
    (usbPolling alloc s).message = s.message := by
  unfold usbPolling
  split
  · rfl
  · split
    · rfl
    · exact message_rndisRxStart s

theorem message_completeDataOut (contents : Mem) (count : UInt32) (s : Device) :
    (completeDataOut contents count s).message = s.message := by
  unfold completeDataOut usbdLLDataOutStage
  split
  · exact message_handlePacket ..
  · rfl

theorem message_usbdRndisInit (s : Device) : (usbdRndisInit s).message = s.message :=
  message_rndisRxStart (usbdLLOpenEP s)

theorem message_usbdSetConfig (cfgidx : UInt8) (s : Device) :
    (usbdSetConfig cfgidx s).message = s.message := by
  unfold usbdSetConfig
  split
  · rfl
  · cases s.devState with
    | addressed =>
        dsimp only
        split
        · exact message_usbdRndisInit _
        · rfl
    | configured =>
        dsimp only
        split
        · rfl
        · split
          · exact message_usbdRndisInit _
          · rfl
    | default => rfl

theorem message_usbdSetAddress (address : UInt8) (s : Device) :
    (usbdSetAddress address s).message = s.message := by
  unfold usbdSetAddress
  split <;> rfl

/-- Only a completion on the data IN endpoint and `rndis_tx_start` change the
message. -/
theorem linkStep_cases {s t : Device} {e : LinkEvent} (hstep : linkMachine.step s e = some t) :
    (e = .dataIn ∧ t = completeDataIn s) ∨
      (∃ memory data size, e = .txStart memory data size ∧
        t = (rndisTxStart data size { s with txMem := memory }).2) ∨
      t.message = s.message := by
  cases e with
  | dataOut contents count =>
      simp only [linkMachine, linkStep, Option.ite_none_right_eq_some, Option.some.injEq] at hstep
      obtain ⟨-, rfl⟩ := hstep
      exact .inr (.inr (message_completeDataOut contents count s))
  | dataIn =>
      simp only [linkMachine, linkStep, Option.ite_none_right_eq_some, Option.some.injEq] at hstep
      exact .inl ⟨rfl, hstep.2.symm⟩
  | poll alloc =>
      obtain rfl := Option.some.inj hstep
      exact .inr (.inr (message_usbPolling alloc s))
  | txStart memory data size =>
      exact .inr (.inl ⟨memory, data, size, rfl, (Option.some.inj hstep).symm⟩)
  | setConfig cfgidx =>
      obtain rfl := Option.some.inj hstep
      exact .inr (.inr (message_usbdSetConfig cfgidx s))
  | setAddress address =>
      obtain rfl := Option.some.inj hstep
      exact .inr (.inr (message_usbdSetAddress address s))
  | reset =>
      obtain rfl := Option.some.inj hstep
      exact .inr (.inr rfl)
  | disconnect =>
      obtain rfl := Option.some.inj hstep
      exact .inr (.inr rfl)

/-- The zero-length packet is wanted only while a message is in flight. -/
def ZLPInFlight (s : Device) : Prop := s.rndisTxTransmitting = false → s.rndisTxZLP = false

theorem ZLPInFlight.of_sameTx {s t : Device} (h : ZLPInFlight s) (hsame : SameTx s t) :
    ZLPInFlight t := fun ht => hsame.2.trans (h (hsame.1.symm.trans ht))

theorem ZLPInFlight.rndisTxStart {s : Device} (h : ZLPInFlight s) (data : Nat) (size : UInt16) :
    ZLPInFlight (rndisTxStart data size s).2 := by
  cases hrefuses : rndisTxRefuses size s with
  | true =>
      rw [rndisTxStart_refuses hrefuses]
      exact h
  | false =>
      rw [rndisTxStart_accepts hrefuses]
      exact fun ht => Bool.noConfusion ht

theorem usbdRndisDataIn_noZLP {s : Device} (h : s.rndisTxZLP = false) :
    (usbdRndisDataIn rndisDataInEp s).rndisTxZLP = false := by
  cases hrest : restOfFrame s with
  | nil =>
      rw [usbdRndisDataIn_done hrest, h, if_neg Bool.false_ne_true]
  | cons b bs =>
      obtain ⟨-, ptr, hptr, hsize, -⟩ := restOfFrame_eq_cons hrest
      rw [usbdRndisDataIn_more hptr hsize]
      exact h

theorem ZLPInFlight.completeDataIn {s : Device} (h : ZLPInFlight s) :
    ZLPInFlight (completeDataIn s) := by
  unfold Adhoc.completeDataIn usbdLLDataInStage
  split
  next =>
    intro ht
    apply usbdRndisDataIn_noZLP
    cases hleft : remaining { s with inEnabled := false } with
    | nil =>
        obtain ⟨-, hzlp⟩ := List.append_eq_nil_iff.mp hleft
        cases hflag : s.rndisTxZLP with
        | false => rfl
        | true => simp [hflag] at hzlp
    | cons b ts =>
        obtain ⟨-, -, -, hsame⟩ := usbdRndisDataIn_cons hleft
        exact h (hsame.transmitting.symm.trans ht)
  next => exact h

/-- No event leaves the flag of the zero-length packet behind. -/
theorem ZLPInFlight.step {s t : Device} {e : LinkEvent} (h : ZLPInFlight s)
    (hstep : linkMachine.step s e = some t) : ZLPInFlight t := by
  obtain ⟨-, rfl⟩ | ⟨memory, data, size, -, rfl⟩ | hsame := linkStep_cases hstep
  · exact h.completeDataIn
  · exact ZLPInFlight.rndisTxStart (s := { s with txMem := memory }) h data size
  · exact h.of_sameTx (sameTx_of_message hsame)

theorem zlpInFlight_of_reaches {s : Device} (h : linkMachine.Reaches Device.powerOn s) :
    ZLPInFlight s :=
  h.invariant (fun _ _ _ hstep h => ZLPInFlight.step h hstep) fun _ => rfl

/-! ## A working link -/

/-- The link works: something is received or about to be, and the next frame of
a legal length is taken and its message, no more and no less, handed over. -/
structure Restored (s : Device) : Prop where
  receiving : s.outEp.enabled = true ∨ (rndisRxData s).isSome = true
  idle : rndisTxStarted s = false
  takes_next : ∀ (memory : Mem) (data : Nat) (f : List UInt8), memory.read data f.length = f →
    1 ≤ f.length → f.length ≤ ethMaxPacketSize →
    let r := rndisTxStart data (.ofNat f.length) { s with txMem := memory }
    r.1 = true ∧ ∃ b, r.2.sent = s.sent ++ [b] ∧ Carries f (b :: remaining r.2)

/-- What `usbd_rndis_deinit` and `usbd_rndis_init` make of the receive. -/
theorem receiving_reconfigure_iff (s : Device) :
    ((reconfigure s).outEp.enabled = true ∨ (rndisRxData (reconfigure s)).isSome = true) ↔
      s.rndisRxStarted = false := by
  cases hstarted : s.rndisRxStarted with
  | false =>
      refine iff_of_true (.inl ?_) rfl
      simp [reconfigure, usbdRndisInit, usbdRndisDeinit, rndisRxStart, usbdLLOpenEP,
        usbdLLCloseEP, usbdLLPrepareReceive, halPcdEpReceive, hstarted]
  | true =>
      refine iff_of_false ?_ (by decide)
      have hsame : reconfigure s = usbdLLOpenEP (usbdLLCloseEP s) := by
        simp [reconfigure, usbdRndisInit, usbdRndisDeinit, rndisRxStart, usbdLLOpenEP,
          usbdLLCloseEP, hstarted]
      rw [hsame, rndisRxData_started (s := usbdLLOpenEP (usbdLLCloseEP s)) hstarted]
      simp [usbdLLOpenEP, usbdLLCloseEP]

theorem sameTx_reconfigure (s : Device) : SameTx s (reconfigure s) :=
  sameTx_of_message (message_usbdRndisInit (usbdRndisDeinit s))

/-- Closing and opening the device gives a working link exactly when no receive
was started and no message was in flight. -/
theorem restored_iff (s : Device) (hreach : linkMachine.Reaches Device.powerOn s) :
    Restored (reconfigure s) ↔ s.rndisRxStarted = false ∧ s.rndisTxTransmitting = false := by
  obtain ⟨htx, hzlp⟩ := sameTx_reconfigure s
  constructor
  · intro h
    exact ⟨(receiving_reconfigure_iff s).mp h.receiving, htx.symm.trans h.idle⟩
  · rintro ⟨hrx, hidle⟩
    have hflag : s.rndisTxZLP = false := zlpInFlight_of_reaches hreach hidle
    refine ⟨(receiving_reconfigure_iff s).mpr hrx, htx.trans hidle, ?_⟩
    intro memory data f hframe hpos hle
    exact rndisTxStart_carries (s := { reconfigure s with txMem := memory }) hpos hle hframe
      (htx.trans hidle) (hzlp.trans hflag)

/-- The host configures the device for the first time. -/
def configured : List LinkEvent := [.setAddress 1, .setConfig 1]

/-- A device that is configured, unplugged and configured again receives nothing. -/
theorem reconfigured_deaf :
    ∃ s, linkMachine.run Device.powerOn configured = some s ∧ ¬ Restored (reconfigure s) ∧
      (reconfigure s).outEp.enabled = false ∧ rndisRxData (reconfigure s) = none := by
  refine ⟨_, rfl, ?_, by decide, by decide⟩
  intro h
  exact absurd h.receiving (by decide)

/-- The host configures the device and a frame of 20 octets arrives. -/
def configuredWithFrame : List LinkEvent :=
  configured ++ [.dataOut (Mem.zero.write 0 (RndisDataPacket.ofSize 20).toBytes) 128]

/-- The device is closed while the frame waits for `usb_polling`. -/
theorem restored_iff_pending :
    ∃ s, linkMachine.run Device.powerOn configuredWithFrame = some s ∧
      Restored (reconfigure s) := by
  refine ⟨_, rfl, ?_⟩
  exact (restored_iff _ ⟨configuredWithFrame, rfl⟩).mpr ⟨by decide, by decide⟩

end Adhoc
