import Adhoc.Lib.Machine
import Adhoc.Rndis.Receive

/-!
# The receive path over a run

`RxEvent` has the two things that move the receive path: an OUT transfer
completes, and the main loop polls.  Between events the path should be in one of
two shapes.  *Armed* has a receive outstanding.  *Pending* has a frame for
`usb_polling`, which arms the endpoint when it takes the frame.

`handle_packet` keeps to these shapes only when it accepts a message that
carries a frame.  Each of its other exits, and an accepted message of length
zero, leaves a third shape, `Wedged`, in which no event arms the endpoint again
(`Wedged.forever`).  So a run stays live exactly when every transfer it completes
carries a frame (`rx_live_iff`).
-/

namespace Adhoc

open ByteMem EventMachine

/-! ## Events -/

/-- An event of the receive path. -/
inductive RxEvent where
  /-- The outstanding receive completes, with these octets in `rndis_rx_buffer`
  and this size for `handle_packet`. -/
  | outComplete (contents : Mem) (size : Int32)
  /-- The main loop calls `usb_polling`. -/
  | poll (alloc : Bool)

/-- The outstanding receive is over and `handle_packet` runs. -/
def completeOut (contents : Mem) (size : Int32) (s : Device) : Device :=
  handlePacket (RndisDataPacket.ofMem contents 0) size
    { s with rndisRxBuffer := contents, outEp := { s.outEp with enabled := false } }

/-- A receive completes only while one is outstanding. -/
def rxStep (s : Device) : RxEvent → Option Device
  | .outComplete contents size =>
      if s.outEp.enabled then some (completeOut contents size s) else none
  | .poll alloc => some (usbPolling alloc s)

/-- The receive path. -/
def rxMachine : Machine Device RxEvent := ⟨rxStep⟩

/-- The state after the first `usbd_rndis_init`. -/
def rxInit : Device := usbdRndisInit Device.powerOn

/-- A receive is outstanding, or the next poll with a pbuf makes one so. -/
def Live (s : Device) : Prop :=
  s.outEp.enabled = true ∨
    ((rndisRxData s).isSome = true ∧ (usbPolling true s).outEp.enabled = true)

/-- The transfer carries a frame: `handle_packet` accepts it, and its length cut
to 16 bits is not zero. -/
def CarriesFrame (contents : Mem) (size : Int32) : Prop :=
  Accepts (RndisDataPacket.ofMem contents 0) size.toUInt32 ∧
    (RndisDataPacket.ofMem contents 0).dataLength.toUInt16 ≠ 0

/-- Every transfer the event completes carries a frame. -/
def RxEvent.Carries : RxEvent → Prop
  | .outComplete contents size => CarriesFrame contents size
  | .poll _ => True

/-! ## Shapes -/

/-- A receive is outstanding and `rndis_rx_start` would refuse. -/
def Armed (s : Device) : Prop := s.outEp.enabled = true ∧ s.rndisRxStarted = true

/-- A frame waits for `usb_polling`. -/
def Pending (s : Device) : Prop :=
  s.outEp.enabled = false ∧ s.rndisRxStarted = false ∧ s.rndisRxDataSize ≠ 0

/-- Nothing is outstanding and no frame waits. -/
def Wedged (s : Device) : Prop := s.outEp.enabled = false ∧ rndisRxData s = none

theorem rndisRxData_started {s : Device} (h : s.rndisRxStarted = true) : rndisRxData s = none := by
  simp [rndisRxData, rndisRxSize, h]

theorem rndisRxData_pending {s : Device} (h : Pending s) :
    rndisRxData s = some rndisHeaderSize := by
  simp [rndisRxData, rndisRxSize, h.2.1, h.2.2]

/-- Taking the frame that waits. -/
theorem Pending.usbPolling_eq {s : Device} (h : Pending s) :
    usbPolling true s =
      { usbdLLPrepareReceive 0 (.ofNat rndisRxBufferSize) { s with rndisRxStarted := true } with
        delivered := s.delivered ++
          [s.rndisRxBuffer.read rndisHeaderSize (rndisRxSize s).toNat] } := by
  simp only [usbPolling, rndisRxData_pending h, rndisRxStart_idle h.2.1]
  rfl

/-- Taking a frame arms the endpoint. -/
theorem Pending.poll {s : Device} (h : Pending s) : Armed (usbPolling true s) := by
  rw [h.usbPolling_eq]
  exact ⟨rfl, rfl⟩

theorem usbPolling_of_none {s : Device} (h : rndisRxData s = none) (alloc : Bool) :
    usbPolling alloc s = s := by
  simp only [usbPolling, h]

theorem usbPolling_noAlloc (s : Device) : usbPolling false s = s := by
  unfold usbPolling
  split <;> rfl

theorem Armed.live {s : Device} (h : Armed s) : Live s := Or.inl h.1

theorem Pending.live {s : Device} (h : Pending s) : Live s :=
  Or.inr ⟨by rw [rndisRxData_pending h]; rfl, h.poll.1⟩

theorem Wedged.not_live {s : Device} (h : Wedged s) : ¬ Live s := by
  rintro (harmed | ⟨hdata, -⟩)
  · rw [h.1] at harmed
    exact Bool.noConfusion harmed
  · rw [h.2] at hdata
    exact Bool.noConfusion hdata

/-! ## Steps -/

/-- The state of an accepted transfer. -/
theorem completeOut_accepts {s : Device} {contents : Mem} {size : Int32}
    (hacc : Accepts (RndisDataPacket.ofMem contents 0) size.toUInt32)
    (hstarted : s.rndisRxStarted = true) :
    completeOut contents size s =
      { s with
        rndisRxBuffer := contents
        outEp := { s.outEp with enabled := false }
        rndisRxDataSize := (RndisDataPacket.ofMem contents 0).dataLength.toUInt16
        rndisRxStarted := false
        rxok := s.rxok + 1 } := by
  rw [completeOut, handlePacket_accepts hacc]
  exact hstarted

/-- The state of a refused one. -/
theorem completeOut_rejects {s : Device} {contents : Mem} {size : Int32}
    (hrej : ¬ Accepts (RndisDataPacket.ofMem contents 0) size.toUInt32) :
    completeOut contents size s =
      { s with
        rndisRxBuffer := contents
        outEp := { s.outEp with enabled := false }
        rxbad := s.rxbad + 1 } :=
  handlePacket_rejects fun h => hrej h.1

/-- A transfer that carries a frame leaves the frame pending. -/
theorem completeOut_pending {s : Device} {contents : Mem} {size : Int32} (h : Armed s)
    (hcarries : CarriesFrame contents size) : Pending (completeOut contents size s) := by
  rw [completeOut_accepts hcarries.1 h.2]
  exact ⟨rfl, rfl, hcarries.2⟩

/-- Any other transfer wedges the path. -/
theorem completeOut_wedged {s : Device} {contents : Mem} {size : Int32} (h : Armed s)
    (hnot : ¬ CarriesFrame contents size) : Wedged (completeOut contents size s) := by
  by_cases hacc : Accepts (RndisDataPacket.ofMem contents 0) size.toUInt32
  · have hzero : (RndisDataPacket.ofMem contents 0).dataLength.toUInt16 = 0 := by
      by_contra hne
      exact hnot ⟨hacc, hne⟩
    rw [completeOut_accepts hacc h.2]
    exact ⟨rfl, by simp [rndisRxData, rndisRxSize, hzero]⟩
  · rw [completeOut_rejects hacc]
    exact ⟨rfl, rndisRxData_started h.2⟩

/-- What one event does to a path that is armed or pending. -/
theorem rxStep_shape {s t : Device} {e : RxEvent} (h : Armed s ∨ Pending s)
    (hstep : rxMachine.step s e = some t) :
    ((Armed t ∨ Pending t) ∧ e.Carries) ∨ (Wedged t ∧ ¬ e.Carries) := by
  cases e with
  | outComplete contents size =>
      simp only [rxMachine, rxStep] at hstep
      split at hstep
      next henabled =>
        obtain rfl := Option.some.inj hstep
        have harmed : Armed s := by
          rcases h with h | h
          · exact h
          · exact absurd (h.1.symm.trans henabled) Bool.false_ne_true
        by_cases hcarries : CarriesFrame contents size
        · exact Or.inl ⟨Or.inr (completeOut_pending harmed hcarries), hcarries⟩
        · exact Or.inr ⟨completeOut_wedged harmed hcarries, hcarries⟩
      next => cases hstep
  | poll alloc =>
      obtain rfl := Option.some.inj hstep
      refine Or.inl ⟨?_, trivial⟩
      rcases h with h | h
      · rw [usbPolling_of_none (rndisRxData_started h.2)]
        exact Or.inl h
      · cases alloc with
        | false =>
            rw [usbPolling_noAlloc]
            exact Or.inr h
        | true => exact Or.inl h.poll

theorem armed_rxInit : Armed rxInit := ⟨rfl, rfl⟩

theorem Wedged.step {s t : Device} {e : RxEvent} (h : Wedged s)
    (hstep : rxMachine.step s e = some t) : t = s := by
  cases e with
  | outComplete contents size => simp [rxMachine, rxStep, h.1] at hstep
  | poll alloc =>
      obtain rfl := Option.some.inj hstep
      exact usbPolling_of_none h.2 alloc

/-- Once wedged, a path stays wedged whatever follows. -/
theorem Wedged.forever {s t : Device} (h : Wedged s) (hreach : rxMachine.Reaches s t) : t = s := by
  refine Machine.Reaches.invariant (I := fun u => u = s) ?_ hreach rfl
  rintro u e v hstep rfl
  exact h.step hstep

/-! ## Runs -/

/-- One of the three shapes. -/
def Shaped (s : Device) : Prop := (Armed s ∨ Pending s) ∨ Wedged s

theorem Shaped.step {s t : Device} {e : RxEvent} (h : Shaped s)
    (hstep : rxMachine.step s e = some t) : Shaped t := by
  rcases h with h | h
  · exact (rxStep_shape h hstep).imp And.left And.left
  · exact Or.inr (h.step hstep ▸ h)

/-- A step from a live state ends in one when it carries a frame. -/
theorem rxStep_live_iff {s t : Device} {e : RxEvent} (h : Shaped s) (hlive : Live s)
    (hstep : rxMachine.step s e = some t) : Live t ↔ e.Carries := by
  have hshape : Armed s ∨ Pending s := h.resolve_right fun hwedged => hwedged.not_live hlive
  rcases rxStep_shape hshape hstep with ⟨hshape', hcarries⟩ | ⟨hwedged, hnot⟩
  · exact iff_of_true (hshape'.elim Armed.live Pending.live) hcarries
  · exact iff_of_false hwedged.not_live hnot

/-- A run is live in every state it visits exactly when every transfer it
completes carries a frame. -/
theorem rx_live_iff (es : List RxEvent) (t : Device) (hrun : rxMachine.run rxInit es = some t) :
    (∀ u, rxMachine.Visits rxInit es u → Live u) ↔ ∀ e ∈ es, e.Carries := by
  rw [← Machine.meets_iff_forall hrun]
  exact Machine.visits_iff_meets_of (J := Shaped) (fun _ _ _ h hstep => h.step hstep)
    (fun _ _ _ h hlive hstep => rxStep_live_iff h hlive hstep) hrun (Or.inl (Or.inl armed_rxInit))
    armed_rxInit.live

/-- A transfer of zeros, reported with size 0, ends all receiving. -/
theorem zero_transfer_wedges :
    ∃ t, rxMachine.run rxInit [.outComplete Mem.zero 0] = some t ∧
      t.rndisRxStarted = true ∧ t.outEp.enabled = false ∧ ¬ Live t := by
  have hnot : ¬ CarriesFrame Mem.zero 0 := fun h => absurd h.1 (by decide)
  refine ⟨_, rfl, by decide, by decide, ?_⟩
  exact (completeOut_wedged armed_rxInit hnot).not_live

/-- A transfer that carries a frame of 20 octets, and the poll that takes it. -/
theorem rx_live_iff_framed :
    let es : List RxEvent :=
      [.outComplete (Mem.zero.write 0 (RndisDataPacket.ofSize 20).toBytes) 64, .poll true]
    ∀ u, rxMachine.Visits rxInit es u → Live u := by
  intro es
  refine (rx_live_iff es _ rfl).mpr ?_
  intro e he
  rcases List.mem_cons.mp he with rfl | he
  · exact ⟨by decide, by decide⟩
  · obtain rfl := List.mem_singleton.mp he
    trivial

end Adhoc
