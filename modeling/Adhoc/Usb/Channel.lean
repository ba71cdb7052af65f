import Adhoc.Rndis.ControlPath
import Adhoc.Usb.Transfers

/-!
# The control channel on the bus

`usbd_rndis_setup` is called for a class request of three kinds.  `USBD_StdItfReq`
hands over what is for an interface of the configured device, `USBD_StdEPReq` what
is for an endpoint, and `USBD_SetFeature` and `USBD_ClrFeature` hand over what is
for the device, since `USBD_StdDevReq` does not look at the type of a request.

Nothing else receives into `encapsulated_buffer` or sends from it, so every run
stays inside exactly when the requests that reach the class fit
(`control_within_iff`).
-/

namespace Adhoc

open ByteMem EventMachine

/-- What the channel has stored, received and sent is the same. -/
structure Control.SameChannel (s t : Control) : Prop where
  buffer : t.encapsulatedBuffer = s.encapsulatedBuffer
  built : t.built = s.built
  byHost : t.lengthByHost = s.lengthByHost
  prepared : t.prepared = s.prepared
  responses : t.responses = s.responses

section Channel

variable {s t u : Control} {req : SetupReq}

theorem Control.SameChannel.refl (s : Control) : s.SameChannel s := ⟨rfl, rfl, rfl, rfl, rfl⟩

theorem Control.SameChannel.trans (h : s.SameChannel t) (h' : t.SameChannel u) :
    s.SameChannel u :=
  ⟨h'.buffer.trans h.buffer, h'.built.trans h.built, h'.byHost.trans h.byHost,
    h'.prepared.trans h.prepared, h'.responses.trans h.responses⟩

theorem Control.SameChannel.leads (h : s.SameChannel t) (hs : s.Consistent) : s.Leads t :=
  ⟨hs.congr h.buffer h.built h.byHost, h.prepared, h.responses⟩

theorem Control.SameChannel.within_iff (h : s.SameChannel t) : t.Within ↔ s.Within :=
  ⟨fun ht => ⟨h.prepared ▸ ht.prepared, h.responses ▸ ht.responses⟩,
    fun hs => ⟨h.prepared.symm ▸ hs.prepared, h.responses.symm ▸ hs.responses⟩⟩

/-- The class does the same with the same channel. -/
theorem Control.SameChannel.rndisSetup (h : s.SameChannel t) (req : SetupReq) :
    (usbdRndisSetup req s).SameChannel (usbdRndisSetup req t) := by
  by_cases hdata : req.HasData
  · by_cases hdir : isDeviceToHost req = true
    · rw [usbdRndisSetup_send hdata hdir, usbdRndisSetup_send hdata hdir]
      refine ⟨h.buffer, h.built, h.byHost, h.prepared, ?_⟩
      unfold usbdCtlSendData messageLength
      rw [h.buffer, h.built, h.byHost, h.responses]
    · rw [usbdRndisSetup_receive hdata hdir, usbdRndisSetup_receive hdata hdir]
      exact ⟨h.buffer, h.built, h.byHost, congrArg (· ++ [req.wLength]) h.prepared,
        h.responses⟩
  · rw [usbdRndisSetup_noData hdata, usbdRndisSetup_noData hdata]
    exact h

end Channel

namespace Usbd

/-- A class request comes to `usbd_rndis_setup`. -/
def reachesClass (req : UsbdSetupReq) (s : Usbd) : Bool :=
  match req.recipient with
  | .device =>
      req.wValue = usbFeatureRemoteWakeup ∧
        (req.bRequest = usbReqSetFeature ∨
          req.bRequest = usbReqClearFeature ∧ s.control.device.devState ≠ .default)
  | .interface =>
      s.control.device.devState = .configured ∧
        (req.wIndex &&& 0xFF).toUInt8 ≤ usbdMaxNumInterfaces
  | .endpoint => true
  | .other => false

/-- What the class makes of a request, when it gets it. -/
def classSetup (req : UsbdSetupReq) (s : Usbd) : Control :=
  if s.reachesClass req then usbdRndisSetup req.toSetupReq s.control else s.control

section Setup

variable {c : Control} {req : UsbdSetupReq} {s t : Usbd} {epAddr : UInt8}

theorem control_rndisSetup (req : UsbdSetupReq) (s : Usbd) :
    (s.rndisSetup req).control = usbdRndisSetup req.toSetupReq s.control := by
  by_cases hdata : req.HasData
  · unfold rndisSetup
    dsimp only
    rw [if_pos hdata.1, if_pos hdata.2]
    split <;> rfl
  · rw [usbdRndisSetup_noData hdata]
    unfold rndisSetup
    dsimp only
    split
    next hclass => rw [if_neg fun hlength => hdata ⟨hclass, hlength⟩]
    next => rfl

theorem rndisSetup_channel (req : UsbdSetupReq) (s : Usbd) :
    (usbdRndisSetup req.toSetupReq s.control).SameChannel (s.rndisSetup req).control := by
  rw [control_rndisSetup]
  exact .refl _

/-- The status stage does not touch the channel. -/
theorem ctlSendStatus_channel (h : c.SameChannel s.control) :
    c.SameChannel s.ctlSendStatus.control :=
  ⟨h.buffer, h.built, h.byHost, h.prepared, h.responses⟩

theorem ctlSendOctets_channel (bs : List UInt8) (len : UInt16) (s : Usbd) :
    s.control.SameChannel (s.ctlSendData (.octets bs) len).control := ⟨rfl, rfl, rfl, rfl, rfl⟩

/-! ## Requests without the class -/

theorem getDescriptor_channel : s.control.SameChannel (s.getDescriptor req).control := by
  unfold getDescriptor
  split
  · exact .refl _
  · dsimp only
    split
    · exact ⟨rfl, rfl, rfl, rfl, rfl⟩
    · exact ⟨rfl, rfl, rfl, rfl, rfl⟩

theorem setAddress_channel : s.control.SameChannel (s.setAddress req).control := by
  unfold setAddress
  split
  · dsimp only
    split
    · exact .refl _
    · exact ⟨rfl, rfl, rfl, rfl, rfl⟩
  · exact .refl _

theorem setConfig_channel : s.control.SameChannel (s.setConfig req).control := by
  unfold setConfig
  dsimp only
  split
  · exact .refl _
  · split
    · exact .refl _
    · exact ⟨rfl, rfl, rfl, rfl, rfl⟩

theorem getConfig_channel : s.control.SameChannel (s.getConfig req).control := by
  unfold getConfig
  split
  · exact .refl _
  · split
    · exact ctlSendOctets_channel _ _ _
    · exact ctlSendOctets_channel _ _ _
    · exact .refl _

theorem getStatus_channel : s.control.SameChannel s.getStatus.control := by
  unfold getStatus
  split
  · exact .refl _
  · exact ctlSendOctets_channel _ _ _

theorem epGetStatus_channel : s.control.SameChannel (s.epGetStatus epAddr).control := by
  unfold epGetStatus
  split
  · split
    · exact .refl _
    · exact .refl _
  · exact ctlSendOctets_channel _ _ _
  · exact .refl _

/-! ## Requests for the class -/

theorem setFeature_channel :
    (if req.wValue = usbFeatureRemoteWakeup then usbdRndisSetup req.toSetupReq s.control
      else s.control).SameChannel (s.setFeature req).control := by
  unfold setFeature
  split
  · exact ctlSendStatus_channel (rndisSetup_channel req { s with devRemoteWakeup := true })
  · exact .refl _

theorem clrFeature_channel :
    (if req.wValue = usbFeatureRemoteWakeup ∧ s.control.device.devState ≠ .default then
      usbdRndisSetup req.toSetupReq s.control else s.control).SameChannel
        (s.clrFeature req).control := by
  by_cases hdefault : s.control.device.devState = .default
  · rw [if_neg fun h => h.2 hdefault, clrFeature, hdefault]
    exact .refl _
  · have hclear : s.clrFeature req =
        if req.wValue = usbFeatureRemoteWakeup then
          ({ s with devRemoteWakeup := false }.rndisSetup req).ctlSendStatus
        else s := by
      unfold clrFeature
      split
      next h => exact absurd h hdefault
      next => rfl
    rw [hclear]
    by_cases hwakeup : req.wValue = usbFeatureRemoteWakeup
    · rw [if_pos ⟨hwakeup, hdefault⟩, if_pos hwakeup]
      exact ctlSendStatus_channel (rndisSetup_channel req { s with devRemoteWakeup := false })
    · rw [if_neg fun h => hwakeup h.1, if_neg hwakeup]
      exact .refl _

/-- A request for the device comes to the class where it is for the feature of the device. -/
theorem stdDevReq_channel (hdevice : req.recipient = .device) :
    (s.classSetup req).SameChannel (s.stdDevReq req).control := by
  have hreaches : s.reachesClass req = true ↔ req.wValue = usbFeatureRemoteWakeup ∧
      (req.bRequest = usbReqSetFeature ∨
        req.bRequest = usbReqClearFeature ∧ s.control.device.devState ≠ .default) := by
    rw [reachesClass, hdevice]
    exact decide_eq_true_iff
  have hother (hrequest : req.bRequest ∉ [usbReqSetFeature, usbReqClearFeature]) :
      s.classSetup req = s.control := by
    refine if_neg fun h => hrequest ?_
    rcases (hreaches.mp h).2 with hset | ⟨hclear, -⟩
    · exact hset ▸ .head _
    · exact hclear ▸ .tail _ (.head _)
  unfold stdDevReq
  split
  next hreq =>
    rw [hother (by rw [hreq]; decide)]
    exact getDescriptor_channel
  split
  next hreq =>
    rw [hother (by rw [hreq]; decide)]
    exact setAddress_channel
  split
  next hreq =>
    rw [hother (by rw [hreq]; decide)]
    exact setConfig_channel
  split
  next hreq =>
    rw [hother (by rw [hreq]; decide)]
    exact getConfig_channel
  split
  next hreq =>
    rw [hother (by rw [hreq]; decide)]
    exact getStatus_channel
  split
  next hset =>
    rw [classSetup, if_congr (hreaches.trans (and_iff_left (.inl hset))) rfl rfl]
    exact setFeature_channel
  next hset =>
    split
    next hclear =>
      rw [or_iff_right hset, and_iff_right hclear] at hreaches
      rw [classSetup, if_congr hreaches rfl rfl]
      exact clrFeature_channel
    next hclear =>
      rw [hother (by simp [hset, hclear])]
      exact .refl _

theorem stdItfReq_channel (hinterface : req.recipient = .interface) :
    (s.classSetup req).SameChannel (s.stdItfReq req).control := by
  have hreaches : s.reachesClass req = true ↔ s.control.device.devState = .configured ∧
      (req.wIndex &&& 0xFF).toUInt8 ≤ usbdMaxNumInterfaces := by
    rw [reachesClass, hinterface]
    exact decide_eq_true_iff
  unfold stdItfReq
  split
  next hconfigured =>
    split
    next hindex =>
      rw [classSetup, if_pos (hreaches.mpr ⟨hconfigured, hindex⟩)]
      dsimp only
      split
      · exact ctlSendStatus_channel (rndisSetup_channel req s)
      · exact rndisSetup_channel req s
    next hindex =>
      rw [classSetup, if_neg fun h => hindex (hreaches.mp h).2]
      exact .refl _
  next hstate =>
    rw [classSetup, if_neg fun h => hstate (hreaches.mp h).1]
    exact .refl _

/-- Of the requests for an endpoint that come to the class, those of another type change
nothing. -/
theorem stdEPReq_channel (hendpoint : req.recipient = .endpoint) :
    (s.classSetup req).SameChannel (s.stdEPReq req).control := by
  have hreaches : s.reachesClass req = true := by
    rw [reachesClass, hendpoint]
  rw [classSetup, if_pos hreaches]
  unfold stdEPReq
  dsimp only
  split
  next => exact rndisSetup_channel req s
  next hclass =>
    have hnone (u : Usbd) : usbdRndisSetup req.toSetupReq u.control = u.control :=
      usbdRndisSetup_noData (fun hdata => hclass hdata.1) u.control
    have hrndis (u : Usbd) : u.control.SameChannel (u.rndisSetup req).control :=
      hnone u ▸ rndisSetup_channel req u
    rw [hnone]
    split
    · unfold epSetFeature
      split
      · split <;> exact .refl _
      · refine ctlSendStatus_channel ?_
        split
        · split
          · exact hrndis (s.llStallEP _)
          · exact hrndis s
        · exact hrndis s
      · exact .refl _
    split
    · unfold epClearFeature
      split
      · split <;> exact .refl _
      · split
        · refine ctlSendStatus_channel ?_
          split
          · exact hrndis (s.llClearStallEP _)
          · exact .refl _
        · exact .refl _
      · exact .refl _
    split
    · exact epGetStatus_channel
    · exact .refl _

/-- A setup packet does to the channel what the class does with its request, if it gets it. -/
theorem llSetupStage_channel (req : UsbdSetupReq) (s : Usbd) :
    (s.classSetup req).SameChannel (s.takeSetup.llSetupStage req).control := by
  have hstage : (s.classSetup req).SameChannel
      (classSetup req { s.takeSetup.setEp0State .setup with
        ep0DataLen := req.wLength.toUInt32 }) := by
    have hsame : s.control.SameChannel { s.control with ep0State := .setup } :=
      ⟨rfl, rfl, rfl, rfl, rfl⟩
    unfold classSetup
    by_cases hreaches : s.reachesClass req = true
    · rw [if_pos hreaches]
      exact (if_pos hreaches).symm ▸ hsame.rndisSetup req.toSetupReq
    · rw [if_neg hreaches]
      exact (if_neg hreaches).symm ▸ hsame
  refine hstage.trans ?_
  unfold llSetupStage
  dsimp only
  split
  next hdevice => exact stdDevReq_channel hdevice
  next hinterface => exact stdItfReq_channel hinterface
  next hendpoint => exact stdEPReq_channel hendpoint
  next hother =>
    have hreaches : ∀ u : Usbd, u.classSetup req = u.control := by
      intro u
      refine if_neg ?_
      rw [reachesClass, hother]
      exact Bool.false_ne_true
    rw [hreaches]
    exact .refl _

end Setup

/-! ## Packets -/

section Packets

variable {s : Usbd} {outside : Mem}

theorem llDataInStage_channel : s.control.SameChannel s.llDataInStage.control := by
  unfold llDataInStage
  split
  · split
    · exact ⟨rfl, rfl, rfl, rfl, rfl⟩
    · split <;> exact ⟨rfl, rfl, rfl, rfl, rfl⟩
  · exact .refl _

theorem takeIn_channel : s.control.SameChannel (s.takeIn outside).control :=
  llDataInStage_channel (s := { s with
    inTaken := s.inTaken ++ [_]
    in0 := { s.in0 with enabled := false, xferBuff := s.in0.xferBuff + s.in0.xferLen.toNat } })

theorem llDataOutStage_leads (h : s.control.Consistent) :
    s.control.Leads (s.llDataOutStage outside).control := by
  have hstage := h.dataOutStage outside
  unfold llDataOutStage
  split
  · dsimp only
    split
    · exact hstage
    · exact ⟨hstage.consistent.congr rfl rfl rfl, hstage.prepared, hstage.responses⟩
  · exact ⟨h, rfl, rfl⟩

/-- A packet is stored where there is a receive into the buffer, whatever stage `EP0` is in. -/
theorem takeOut_leads (h : s.control.Consistent) (p : OutPacket) :
    s.control.Leads (s.takeOut p outside).control := by
  have hstored : s.control.Leads (if s.out0ToBuffer then storeEp0 p s.control else s.control) := by
    split
    · exact h.storeEp0 p
    · exact ⟨h, rfl, rfl⟩
  exact hstored.trans (llDataOutStage_leads (s := { s with
    control := if s.out0ToBuffer then storeEp0 p s.control else s.control
    out0Enabled := false }) hstored.consistent)

end Packets

end Usbd

/-! ## Runs -/

/-- A request that reaches the class fits. -/
def Usbd.Fits (s : Usbd) : UsbdEvent → Prop
  | .setup pdata =>
      let req := usbdParseSetupRequest pdata
      s.reachesClass req = true → req.toSetupReq.Fits s.control
  | _ => True

section Runs

variable {s t : Usbd} {e : UsbdEvent}

/-- A step is a request, or it neither receives nor sends. -/
theorem usbdStep_cases (h : s.control.Consistent) (hstep : usbdMachine.step s e = some t) :
    (∃ pdata, e = .setup pdata ∧
        (s.classSetup (usbdParseSetupRequest pdata)).SameChannel t.control) ∨
      s.Fits e ∧ s.control.Leads t.control := by
  have hdevice {d : Device} : s.control.Leads { s.control with device := d } :=
    ⟨h.congr rfl rfl rfl, rfl, rfl⟩
  cases e with
  | setup pdata =>
      simp only [usbdMachine, usbdStep, Option.ite_none_left_eq_some, Option.some.injEq] at hstep
      exact .inl ⟨pdata, rfl, hstep.2 ▸ Usbd.llSetupStage_channel _ s⟩
  | takeIn outside =>
      simp only [usbdMachine, usbdStep, Option.ite_none_right_eq_some, Option.some.injEq] at hstep
      exact .inr ⟨trivial, hstep.2 ▸ Usbd.takeIn_channel.leads h⟩
  | takeOut p outside =>
      simp only [usbdMachine, usbdStep, Option.ite_none_right_eq_some, Option.some.injEq] at hstep
      exact .inr ⟨trivial, hstep.2 ▸ Usbd.takeOut_leads h p⟩
  | link e =>
      simp only [usbdMachine, usbdStep, Option.ite_none_left_eq_some, Option.map_eq_some_iff]
        at hstep
      obtain ⟨-, d, -, rfl⟩ := hstep
      exact .inr ⟨trivial, hdevice⟩
  | reset =>
      obtain rfl := Option.some.inj hstep
      exact .inr ⟨trivial, hdevice⟩
  | suspend =>
      simp only [usbdMachine, usbdStep, Option.ite_none_left_eq_some, Option.some.injEq] at hstep
      obtain ⟨-, rfl⟩ := hstep
      exact .inr ⟨trivial, hdevice⟩
  | resume =>
      simp only [usbdMachine, usbdStep, Option.ite_none_right_eq_some, Option.some.injEq] at hstep
      obtain ⟨-, rfl⟩ := hstep
      exact .inr ⟨trivial, hdevice⟩
  | disconnect =>
      obtain rfl := Option.some.inj hstep
      exact .inr ⟨trivial, hdevice⟩

theorem Control.Consistent.classSetup (h : s.control.Consistent) (req : UsbdSetupReq) :
    (s.classSetup req).Consistent := by
  unfold Usbd.classSetup
  split
  · exact h.rndisSetup req.toSetupReq
  · exact h

/-- Every step keeps track of who stored `MessageLength`. -/
theorem Control.Consistent.usbdStep (h : s.control.Consistent)
    (hstep : usbdMachine.step s e = some t) : t.control.Consistent := by
  obtain ⟨pdata, -, hsame⟩ | ⟨-, hleads⟩ := usbdStep_cases h hstep
  · exact (hsame.leads (h.classSetup _)).consistent
  · exact hleads.consistent

/-- A step stays within exactly when its request fits. -/
theorem usbdStep_within_iff (h : s.control.Consistent) (hin : s.control.Within)
    (hstep : usbdMachine.step s e = some t) : t.control.Within ↔ s.Fits e := by
  obtain ⟨pdata, rfl, hsame⟩ | ⟨hfits, hleads⟩ := usbdStep_cases h hstep
  · rw [hsame.within_iff, Usbd.classSetup]
    split
    next hreaches =>
      exact (hin.rndisSetup_iff h _).trans ⟨fun hfits _ => hfits, fun hfits => hfits hreaches⟩
    next hreaches => exact iff_of_true hin fun h => absurd h hreaches
  · exact iff_of_true (hin.of_leads hleads) hfits

/-- The control channel stays within the buffer and within the completions
throughout a run exactly when every request of the run fits. -/
theorem control_within_iff (es : List UsbdEvent) (t : Usbd)
    (hrun : usbdMachine.run {} es = some t) :
    (∀ s, usbdMachine.Visits {} es s → s.control.Within) ↔ usbdMachine.Meets Usbd.Fits {} es :=
  Machine.visits_iff_meets_of (I := fun s => s.control.Within) (J := fun s => s.control.Consistent)
    (fun _ _ _ h hstep => h.usbdStep hstep)
    (fun _ _ _ h hin hstep => usbdStep_within_iff h hin hstep) hrun
    ⟨Nat.zero_le _, fun _ => rfl⟩ ⟨List.forall_mem_nil _, List.forall_mem_nil _⟩

/-- The eight octets of a setup packet. -/
def setupPacket (bs : List UInt8) : Mem := Mem.zero.write 0 bs

/-- SET_ADDRESS and SET_CONFIGURATION. -/
def configure : List UsbdEvent :=
  [.setup (setupPacket [0x00, 5, 5, 0, 0, 0, 0, 0]),
    .setup (setupPacket [0x00, 9, 1, 0, 0, 0, 0, 0])]

/-- The length of an unknown message is sent back to a host that asked for eight
octets, and receives of 200 octets are prepared, one of them by SET_FEATURE, whose packet is
stored behind the status stage. -/
theorem control_overruns :
    (∃ t, usbdMachine.run {} (configure ++
        [.setup (setupPacket [0x21, 0, 0, 0, 0, 0, 8, 0]), .takeOut unknownMessage Mem.zero,
          .setup (setupPacket [0xA1, 1, 0, 0, 0, 0, 8, 0])]) = some t ∧
      t.control.responses = [⟨65535, 8, 0, true⟩] ∧ ¬ t.control.Within) ∧
    (∃ t, usbdMachine.run {} (configure ++
        [.setup (setupPacket [0x21, 0, 0, 0, 0, 0, 200, 0])]) = some t ∧
      t.control.prepared = [200] ∧ ¬ t.control.Within) ∧
    ∃ t, usbdMachine.run {} [.setup (setupPacket [0x20, 3, 1, 0, 0, 0, 200, 0]),
        .takeOut unknownMessage Mem.zero] = some t ∧
      t.control.prepared = [200] ∧ messageLength t.control = 0xFFFF ∧ ¬ t.control.Within := by
  refine ⟨⟨_, rfl, by decide, fun h => ?_⟩, ⟨_, rfl, by decide, fun h => ?_⟩,
    ⟨_, rfl, by decide, by decide, fun h => ?_⟩⟩
  · exact absurd (h.responses _ (.head [])).1 (by decide)
  · exact absurd (h.prepared 200 (.head [])) (by decide)
  · exact absurd (h.prepared 200 (.head [])) (by decide)

/-- A host that initializes the device and asks for more than the completion. -/
def initialized : List UsbdEvent := configure ++
  [.setup (setupPacket [0x21, 0, 0, 0, 0, 0, 24, 0]), .takeOut initializeMessage Mem.zero,
    .setup (setupPacket [0xA1, 1, 0, 0, 0, 0, 0, 16])]

theorem control_within_iff_initialize : ∃ t, usbdMachine.run {} initialized = some t ∧
    t.control.responses = [⟨52, 4096, 52, false⟩] ∧
      ∀ s, usbdMachine.Visits {} initialized s → s.control.Within := by
  refine ⟨_, rfl, by decide, (control_within_iff initialized _ rfl).mpr ?_⟩
  refine ⟨fun h => absurd h (by decide), fun _ haddressed => Option.some.inj haddressed ▸ ?_⟩
  refine ⟨fun h => absurd h (by decide), fun _ hconfigured =>
    Option.some.inj hconfigured ▸ ?_⟩
  refine ⟨fun _ _ => by decide, fun _ hsent => Option.some.inj hsent ▸ ?_⟩
  refine ⟨trivial, fun _ hanswered => Option.some.inj hanswered ▸ ?_⟩
  exact ⟨fun _ _ => by decide, fun _ _ => trivial⟩

end Runs

end Adhoc
