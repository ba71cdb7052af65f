import Adhoc.Lib.DataStage
import Adhoc.Lib.Machine
import Adhoc.Rndis.Session
import Adhoc.Usb.Core

/-!
# Control reads

A setup packet that asks for data starts a data stage, which `USBD_LL_DataInStage`
goes on with a packet at a time.  Until the next setup packet the packets taken
and those still to come are those of the stage (`Usbd.Sending`), whatever the
rest of the device does in between.
-/

namespace Adhoc

open ByteMem EventMachine Bulk

/-! ## Events -/

/-- The events of the link that a setup packet or the bus makes happen. -/
def LinkEvent.isRequest : LinkEvent → Bool
  | .setConfig _ | .setAddress _ | .reset | .disconnect => true
  | _ => false

/-- A transfer completes on a data endpoint. -/
def LinkEvent.isTransfer : LinkEvent → Bool
  | .dataOut _ _ | .dataIn => true
  | _ => false

/-- An event of the device. -/
inductive UsbdEvent where
  /-- A setup packet. -/
  | setup (pdata : Mem)
  /-- The host takes a packet from `EP0`. -/
  | takeIn (outside : Mem)
  /-- The host sends a packet to `EP0`. -/
  | takeOut (p : OutPacket) (outside : Mem)
  /-- The data endpoints and the main loop. -/
  | link (e : LinkEvent)
  | reset
  | suspend
  | resume
  | disconnect

/-- The step of an event.  Nothing travels on a bus that is suspended. -/
def usbdStep (s : Usbd) : UsbdEvent → Option Usbd
  | .setup pdata =>
      if s.suspended then none
      else some (s.takeSetup.llSetupStage (usbdParseSetupRequest pdata))
  | .takeIn outside =>
      if !s.suspended && s.in0.enabled && !s.ep0Stalled then some (s.takeIn outside) else none
  | .takeOut p outside =>
      if !s.suspended && s.out0Enabled && !s.ep0Stalled then some (s.takeOut p outside) else none
  | .link e =>
      if e.isRequest || s.suspended && e.isTransfer then none
      else (linkStep s.control.device e).map fun d =>
        { s with control := { s.control with device := d } }
  | .reset => some s.llReset
  | .suspend => if s.suspended then none else some s.llSuspend
  | .resume => if s.suspended then some s.llResume else none
  | .disconnect => some s.llDevDisconnected

/-- The device on the bus. -/
def usbdMachine : Machine Usbd UsbdEvent := ⟨usbdStep⟩

/-- The event ends what `EP0` is doing. -/
def UsbdEvent.Interrupts : UsbdEvent → Prop
  | .setup _ | .reset | .disconnect => True
  | _ => False

namespace Usbd

/-! ## A data stage to the host -/

/-- The packet size of `EP0`. -/
def ep0Size : Nat := 64

theorem toNat_usbMaxEp0Size : usbMaxEp0Size.toUInt32.toNat = ep0Size := rfl

/-- The source holds the data. -/
def Holds (s : Usbd) (data : List UInt8) : Prop :=
  ∀ outside off n, off + n ≤ data.length →
    readSource outside s s.in0.source off n = (data.drop off).take n

/-- The packet that is outstanding begins at `pos` of the data. -/
structure SendingAt (data : List UInt8) (asked pos : Nat) (s : Usbd) : Prop where
  holds : s.Holds data
  dvd : ep0Size ∣ pos
  lt : pos < data.length ∨ pos = 0
  xferBuff : s.in0.xferBuff = pos
  remLength : s.in0.remLength.toNat = data.length - pos
  xferLen : s.in0.xferLen.toNat = min (data.length - pos) ep0Size
  dataLen : s.ep0DataLen.toNat = asked
  taken : s.inTaken ++ stagePackets ep0Size (data.drop pos) (asked - pos) =
    stagePackets ep0Size data asked

/-- The packet that is outstanding is the empty one at the end. -/
structure SendingZLP (data : List UInt8) (asked : Nat) (s : Usbd) : Prop where
  source : s.in0.source = .octets []
  remLength : s.in0.remLength.toNat ≤ ep0Size
  xferLen : s.in0.xferLen = 0
  dataLen : s.ep0DataLen = 0
  taken : s.inTaken ++ [[]] = stagePackets ep0Size data asked

/-- The device sends the data to a host that asked for `asked` octets. -/
structure Sending (data : List UInt8) (asked : Nat) (s : Usbd) : Prop where
  ep0State : s.control.ep0State = .dataIn
  enabled : s.in0.enabled = true
  stalled : s.ep0Stalled = false
  totalLength : s.in0.totalLength.toNat = data.length
  length_lt : data.length < 65536
  outNull : s.out0Enabled = true → s.out0ToBuffer = false
  packet : (∃ pos, s.SendingAt data asked pos) ∨ s.SendingZLP data asked

/-- The data has been sent, and the device waits for the status stage. -/
structure Sent (data : List UInt8) (asked : Nat) (s : Usbd) : Prop where
  ep0State : s.control.ep0State = .statusOut
  enabled : s.in0.enabled = false
  outNull : s.out0Enabled = true → s.out0ToBuffer = false
  taken : s.inTaken = stagePackets ep0Size data asked

section Steps

variable {data : List UInt8} {asked pos : Nat} {s t : Usbd}

theorem wantsZLP_iff :
    s.wantsZLP = true ↔ ep0Size ∣ s.in0.totalLength.toNat ∧ ep0Size ≤ s.in0.totalLength.toNat ∧
      s.in0.totalLength.toNat < s.ep0DataLen.toNat := by
  unfold wantsZLP
  rw [decide_eq_true_eq, ← UInt32.toNat_inj, UInt32.toNat_mod, ge_iff_le, UInt32.le_iff_toNat_le,
    UInt32.lt_iff_toNat_lt, toNat_usbMaxEp0Size, Nat.dvd_iff_mod_eq_zero]
  rfl

/-- The octets of the packet that is outstanding. -/
theorem SendingAt.packet_eq (h : s.SendingAt data asked pos) (outside : Mem) :
    readSource outside s s.in0.source s.in0.xferBuff s.in0.xferLen.toNat =
      (data.drop pos).take ep0Size := by
  have hpos : pos ≤ data.length := by
    rcases h.lt with hlt | rfl
    · exact Nat.le_of_lt hlt
    · exact Nat.zero_le _
  rw [h.xferBuff, h.xferLen, h.holds outside pos _ (by omega)]
  rw [show min (data.length - pos) ep0Size = min ep0Size (data.drop pos).length by
    rw [List.length_drop, Nat.min_comm], ← List.take_take, List.take_length]

theorem toNat_xferLen (size : UInt16) :
    (if size.toUInt32 > usbMaxEp0Size.toUInt32 then usbMaxEp0Size.toUInt32
      else size.toUInt32).toNat = min size.toNat ep0Size := by
  split
  next h =>
    rw [gt_iff_lt, UInt32.lt_iff_toNat_lt, toNat_usbMaxEp0Size, UInt16.toNat_toUInt32] at h
    rw [toNat_usbMaxEp0Size]
    omega
  next h =>
    rw [gt_iff_lt, UInt32.lt_iff_toNat_lt, toNat_usbMaxEp0Size, UInt16.toNat_toUInt32] at h
    rw [UInt16.toNat_toUInt32]
    omega

theorem gt_ep0Size_iff {n : UInt32} : n > usbMaxEp0Size.toUInt32 ↔ ep0Size < n.toNat := by
  rw [gt_iff_lt, UInt32.lt_iff_toNat_lt, toNat_usbMaxEp0Size]

/-- A full packet has been taken, and there is more. -/
theorem SendingAt.next (h : s.SendingAt data asked pos) (hmore : ep0Size < data.length - pos)
    {t : Usbd} (hholds : t.Holds data)
    (hbuff : t.in0.xferBuff = s.in0.xferBuff + s.in0.xferLen.toNat)
    (hrem : t.in0.remLength = s.in0.remLength - usbMaxEp0Size.toUInt32)
    (hlen : t.in0.xferLen.toNat = min t.in0.remLength.toNat ep0Size)
    (hasked : t.ep0DataLen = s.ep0DataLen)
    (htaken : t.inTaken = s.inTaken ++ [(data.drop pos).take ep0Size]) :
    t.SendingAt data asked (pos + ep0Size) := by
  have hremLength : t.in0.remLength.toNat = data.length - (pos + ep0Size) := by
    have hle : usbMaxEp0Size.toUInt32 ≤ s.in0.remLength := by
      rw [UInt32.le_iff_toNat_le, toNat_usbMaxEp0Size, h.remLength]
      omega
    rw [hrem, UInt32.toNat_sub_of_le _ _ hle, toNat_usbMaxEp0Size, h.remLength]
    omega
  exact {
    holds := hholds
    dvd := Nat.dvd_add h.dvd (Nat.dvd_refl _)
    lt := .inl (by omega)
    xferBuff := by
      rw [hbuff, h.xferBuff, h.xferLen]
      omega
    remLength := hremLength
    xferLen := by rw [hlen, hremLength]
    dataLen := hasked ▸ h.dataLen
    taken := by
      have hdrop : stagePackets ep0Size (data.drop pos) (asked - pos) =
          (data.drop pos).take ep0Size ::
            stagePackets ep0Size ((data.drop pos).drop ep0Size) (asked - pos - ep0Size) :=
        stagePackets_of_lt (by decide) (by rw [List.length_drop]; exact hmore)
      rw [htaken, ← h.taken, hdrop, List.append_assoc, List.drop_drop, Nat.sub_sub]
      rfl }

/-- The packets of the end of a stage. -/
theorem SendingAt.last (h : s.SendingAt data asked pos) (hlast : data.length - pos ≤ ep0Size)
    (htotal : s.in0.totalLength.toNat = data.length) :
    s.inTaken ++ [(data.drop pos).take ep0Size] ++ (if s.wantsZLP = true then [[]] else []) =
      stagePackets ep0Size data asked := by
  have hlength : (data.drop pos).length = data.length - pos := List.length_drop
  have hends : (ep0Size ∣ (data.drop pos).length ∧ ep0Size ≤ (data.drop pos).length ∧
      (data.drop pos).length < asked - pos) ↔ s.wantsZLP = true := by
    obtain ⟨k, hk⟩ := h.dvd
    have hlt := h.lt
    have hasked := h.dataLen
    rw [wantsZLP_iff, htotal, hlength, hasked]
    unfold ep0Size at hk hlast ⊢
    omega
  rw [← h.taken, stagePackets, packets_of_le (hlength ▸ hlast),
    List.take_of_length_le (hlength ▸ hlast), List.append_assoc]
  simp only [hends]

/-- The state after a packet has been taken, before it is handled. -/
def afterIn (packet : List UInt8) (s : Usbd) : Usbd :=
  { s with
    inTaken := s.inTaken ++ [packet]
    in0 := { s.in0 with enabled := false, xferBuff := s.in0.xferBuff + s.in0.xferLen.toNat } }

theorem llDataInStage_more (hstate : s.control.ep0State = .dataIn)
    (hmore : ep0Size < s.in0.remLength.toNat) :
    s.llDataInStage =
      ({ s with in0 := { s.in0 with
          remLength := s.in0.remLength - usbMaxEp0Size.toUInt32 } }.ctlContinueSendData
        (s.in0.remLength - usbMaxEp0Size.toUInt32).toUInt16).llPrepareReceiveNull := by
  rw [llDataInStage, if_pos hstate, if_pos (gt_ep0Size_iff.mpr hmore)]

theorem llDataInStage_zlp (hstate : s.control.ep0State = .dataIn)
    (hlast : s.in0.remLength.toNat ≤ ep0Size) (hzlp : s.wantsZLP = true) :
    s.llDataInStage =
      { s.llTransmit (.octets []) 0 0 with ep0DataLen := 0 }.llPrepareReceiveNull := by
  rw [llDataInStage, if_pos hstate, if_neg (gt_ep0Size_iff.not.mpr (Nat.not_lt.mpr hlast)),
    if_pos hzlp]

theorem llDataInStage_done (hstate : s.control.ep0State = .dataIn)
    (hlast : s.in0.remLength.toNat ≤ ep0Size) (hzlp : s.wantsZLP ≠ true) :
    s.llDataInStage = s.ctlReceiveStatus := by
  rw [llDataInStage, if_pos hstate, if_neg (gt_ep0Size_iff.not.mpr (Nat.not_lt.mpr hlast)),
    if_neg hzlp]

/-- A packet is taken, and the stage goes on or is over. -/
theorem Sending.takeIn (h : s.Sending data asked) (outside : Mem) :
    (s.takeIn outside).Sending data asked ∨ (s.takeIn outside).Sent data asked := by
  obtain ⟨hstate, -, hstalled, htotal, hlt, -, ⟨pos, hat⟩ | hzlp⟩ := h
  · have hpacket := hat.packet_eq outside
    have hremLength := hat.remLength
    have hstep : s.takeIn outside = (s.afterIn ((data.drop pos).take ep0Size)).llDataInStage := by
      rw [← hpacket]
      rfl
    by_cases hmore : ep0Size < data.length - pos
    · rw [hstep, llDataInStage_more (s := s.afterIn _) hstate (hremLength ▸ hmore)]
      refine .inl ⟨hstate, rfl, hstalled, htotal, hlt, fun _ => rfl,
        .inl ⟨_, hat.next hmore hat.holds rfl rfl ?_ rfl rfl⟩⟩
      have hle : usbMaxEp0Size.toUInt32 ≤ s.in0.remLength := by
        rw [UInt32.le_iff_toNat_le, toNat_usbMaxEp0Size, hremLength]
        omega
      have hsub := UInt32.toNat_sub_of_le _ _ hle
      refine (toNat_xferLen _).trans ?_
      rw [UInt32.toNat_toUInt16, Nat.mod_eq_of_lt]
      · rfl
      · change (s.in0.remLength - usbMaxEp0Size.toUInt32).toNat < 65536
        omega
    · have hlast : data.length - pos ≤ ep0Size := Nat.le_of_not_lt hmore
      have hpackets := hat.last hlast htotal
      by_cases hzlp : s.wantsZLP = true
      · rw [hstep, llDataInStage_zlp (s := s.afterIn _) hstate (hremLength ▸ hlast) hzlp]
        rw [if_pos hzlp] at hpackets
        exact .inl ⟨hstate, rfl, hstalled, htotal, hlt, fun _ => rfl,
          .inr ⟨rfl, hremLength ▸ hlast, rfl, rfl, hpackets⟩⟩
      · rw [hstep, llDataInStage_done (s := s.afterIn _) hstate (hremLength ▸ hlast) hzlp]
        rw [if_neg hzlp, List.append_nil] at hpackets
        exact .inr ⟨rfl, rfl, fun _ => rfl, hpackets⟩
  · have hpacket : readSource outside s s.in0.source s.in0.xferBuff s.in0.xferLen.toNat = [] := by
      rw [hzlp.source, hzlp.xferLen]
      rfl
    have hstep : s.takeIn outside = (s.afterIn []).llDataInStage := by
      rw [← hpacket]
      rfl
    have hnone : (s.afterIn []).wantsZLP ≠ true := by
      rw [ne_eq, wantsZLP_iff]
      have hdone : (s.afterIn []).ep0DataLen.toNat = 0 := congrArg UInt32.toNat hzlp.dataLen
      omega
    rw [hstep, llDataInStage_done (s := s.afterIn _) hstate hzlp.remLength hnone]
    exact .inr ⟨rfl, rfl, fun _ => rfl, hzlp.taken⟩

/-- What a data stage depends on. -/
structure SameStage (s t : Usbd) : Prop where
  ep0State : t.control.ep0State = s.control.ep0State
  buffer : t.control.encapsulatedBuffer = s.control.encapsulatedBuffer
  in0 : t.in0 = s.in0
  stalled : t.ep0Stalled = s.ep0Stalled
  ep0DataLen : t.ep0DataLen = s.ep0DataLen
  inTaken : t.inTaken = s.inTaken
  out0 : t.out0Enabled = true → s.out0Enabled = true ∧ t.out0ToBuffer = s.out0ToBuffer

theorem Holds.congr (h : s.Holds data) (hsame : s.SameStage t) : t.Holds data := by
  intro outside off n hn
  have hread := h outside off n hn
  rw [hsame.in0, ← hread]
  cases s.in0.source with
  | octets bs => rfl
  | encapsulated =>
      have hmemory : memoryAt outside t.control = memoryAt outside s.control := by
        unfold memoryAt
        rw [hsame.buffer]
      rw [readSource, readSource, hmemory]

theorem Sending.congr (h : s.Sending data asked) (hsame : s.SameStage t) :
    t.Sending data asked := by
  obtain ⟨hstate, henabled, hstalled, htotal, hlt, hout, hpacket⟩ := h
  refine ⟨hsame.ep0State ▸ hstate, hsame.in0 ▸ henabled, hsame.stalled ▸ hstalled,
    hsame.in0 ▸ htotal, hlt, fun ht => ?_, ?_⟩
  · obtain ⟨henabled, hbuffer⟩ := hsame.out0 ht
    exact hbuffer ▸ hout henabled
  · rcases hpacket with ⟨pos, hat⟩ | hzlp
    · exact .inl ⟨pos, {
        holds := hat.holds.congr hsame
        dvd := hat.dvd
        lt := hat.lt
        xferBuff := hsame.in0 ▸ hat.xferBuff
        remLength := hsame.in0 ▸ hat.remLength
        xferLen := hsame.in0 ▸ hat.xferLen
        dataLen := hsame.ep0DataLen ▸ hat.dataLen
        taken := hsame.inTaken ▸ hat.taken }⟩
    · exact .inr ⟨hsame.in0 ▸ hzlp.source, hsame.in0 ▸ hzlp.remLength, hsame.in0 ▸ hzlp.xferLen,
        hsame.ep0DataLen ▸ hzlp.dataLen, hsame.inTaken ▸ hzlp.taken⟩

theorem Sent.congr (h : s.Sent data asked) (hsame : s.SameStage t) : t.Sent data asked := by
  refine ⟨hsame.ep0State ▸ h.ep0State, hsame.in0 ▸ h.enabled, fun ht => ?_,
    hsame.inTaken ▸ h.taken⟩
  obtain ⟨henabled, hbuffer⟩ := hsame.out0 ht
  exact hbuffer ▸ h.outNull henabled

/-- The stage is not for the host's data. -/
theorem sameStage_takeOut (hstate : s.control.ep0State ≠ .dataOut)
    (hout : s.out0ToBuffer = false) (p : OutPacket) (outside : Mem) :
    s.SameStage (s.takeOut p outside) := by
  have hstep : s.takeOut p outside = { s with out0Enabled := false } := by
    unfold takeOut llDataOutStage
    rw [hout, if_neg Bool.false_ne_true]
    exact if_neg hstate
  rw [hstep]
  exact ⟨rfl, rfl, rfl, rfl, rfl, rfl, nofun⟩

/-- An event that neither is for `EP0` nor interrupts it. -/
theorem usbdStep_sameStage {e : UsbdEvent} (hstep : usbdMachine.step s e = some t)
    (hquiet : ¬ e.Interrupts) (hin : ∀ outside, e ≠ .takeIn outside)
    (hout : s.control.ep0State ≠ .dataOut) (hnull : s.out0Enabled = true → s.out0ToBuffer = false) :
    s.SameStage t := by
  have hsame {u : Usbd} (hcontrol : u.control.ep0State = s.control.ep0State ∧
      u.control.encapsulatedBuffer = s.control.encapsulatedBuffer) (hin0 : u.in0 = s.in0)
      (hstalled : u.ep0Stalled = s.ep0Stalled) (hlen : u.ep0DataLen = s.ep0DataLen)
      (htaken : u.inTaken = s.inTaken) (henabled : u.out0Enabled = s.out0Enabled)
      (hto : u.out0ToBuffer = s.out0ToBuffer) : s.SameStage u :=
    ⟨hcontrol.1, hcontrol.2, hin0, hstalled, hlen, htaken, fun h => ⟨henabled ▸ h, hto⟩⟩
  cases e with
  | setup pdata => exact absurd trivial hquiet
  | takeIn outside => exact absurd rfl (hin outside)
  | takeOut p outside =>
      simp only [usbdMachine, usbdStep, Option.ite_none_right_eq_some, Option.some.injEq,
        Bool.and_eq_true] at hstep
      obtain ⟨⟨⟨-, henabled⟩, -⟩, rfl⟩ := hstep
      exact sameStage_takeOut hout (hnull henabled) p outside
  | link e =>
      simp only [usbdMachine, usbdStep, Option.ite_none_left_eq_some, Option.map_eq_some_iff]
        at hstep
      obtain ⟨-, d, -, rfl⟩ := hstep
      exact hsame ⟨rfl, rfl⟩ rfl rfl rfl rfl rfl rfl
  | reset => exact absurd trivial hquiet
  | suspend =>
      simp only [usbdMachine, usbdStep, Option.ite_none_left_eq_some, Option.some.injEq] at hstep
      obtain ⟨-, rfl⟩ := hstep
      exact hsame ⟨rfl, rfl⟩ rfl rfl rfl rfl rfl rfl
  | resume =>
      simp only [usbdMachine, usbdStep, Option.ite_none_right_eq_some, Option.some.injEq] at hstep
      obtain ⟨-, rfl⟩ := hstep
      exact hsame ⟨rfl, rfl⟩ rfl rfl rfl rfl rfl rfl
  | disconnect => exact absurd trivial hquiet

theorem Sending.step {e : UsbdEvent} (h : s.Sending data asked) (hquiet : ¬ e.Interrupts)
    (hstep : usbdMachine.step s e = some t) : t.Sending data asked ∨ t.Sent data asked := by
  by_cases hin : ∃ outside, e = .takeIn outside
  · obtain ⟨outside, rfl⟩ := hin
    simp only [usbdMachine, usbdStep, Option.ite_none_right_eq_some, Option.some.injEq] at hstep
    exact hstep.2 ▸ h.takeIn outside
  · refine .inl (h.congr (usbdStep_sameStage hstep hquiet (fun o ho => hin ⟨o, ho⟩) ?_ h.outNull))
    rw [h.ep0State]
    decide

theorem Sent.step {e : UsbdEvent} (h : s.Sent data asked) (hquiet : ¬ e.Interrupts)
    (hstep : usbdMachine.step s e = some t) : t.Sent data asked := by
  refine h.congr (usbdStep_sameStage hstep hquiet ?_ ?_ h.outNull)
  · rintro outside rfl
    simp [usbdMachine, usbdStep, h.enabled] at hstep
  · rw [h.ep0State]
    decide

/-- A data stage goes on until it is over or interrupted. -/
theorem Sending.run {es : List UsbdEvent} (h : s.Sending data asked)
    (hrun : usbdMachine.run s es = some t) (hquiet : ∀ e ∈ es, ¬ e.Interrupts) :
    t.Sending data asked ∨ t.Sent data asked :=
  Machine.invariant (C := fun _ e => ¬ e.Interrupts) (I := fun u => u.Sending data asked ∨
    u.Sent data asked) (fun _ _ _ hquiet hstep h => h.elim (fun h => h.step hquiet hstep)
      fun h => .inr (h.step hquiet hstep)) (Machine.meets_of_forall fun e he _ => hquiet e he) hrun
    (.inl h)

end Steps

/-! ## How a data stage begins -/

/-- The octets of the data stage. -/
def stageData (s : Usbd) : List UInt8 :=
  readSource Mem.zero s s.in0.source 0 s.in0.totalLength.toNat

/-- The request is being handled, and nothing has been sent yet. -/
structure Fresh (asked : UInt16) (s : Usbd) : Prop where
  ep0State : s.control.ep0State = .setup
  taken : s.inTaken = []
  out : s.out0Enabled = false
  stalled : s.ep0Stalled = false
  awake : s.suspended = false
  dataLen : s.ep0DataLen = asked.toUInt32

/-- The first packet of a data stage to the host is outstanding. -/
structure BeginsIn (asked : UInt16) (s : Usbd) : Prop where
  in0 : ∃ (u : Usbd) (source : In0Source) (len : UInt16), s.in0 = (u.ctlSendData source len).in0 ∧
    ∀ bs, source = .octets bs → len.toNat ≤ bs.length
  taken : s.inTaken = []
  out : s.out0Enabled = false
  stalled : s.ep0Stalled = false
  dataLen : s.ep0DataLen = asked.toUInt32

/-- The first packet of a data stage from the host can come. -/
structure BeginsOut (asked : UInt16) (s : Usbd) : Prop where
  out : s.out0Enabled = true
  toBuffer : s.out0ToBuffer = true
  stalled : s.ep0Stalled = false
  awake : s.suspended = false
  remLength : s.control.remLength = asked
  xferBuff : s.control.xferBuff = 0
  asked_ne : asked ≠ 0

/-- What there is of a data stage begins. -/
structure Begins (asked : UInt16) (s : Usbd) : Prop where
  dataIn : s.control.ep0State = .dataIn → s.BeginsIn asked
  dataOut : s.control.ep0State = .dataOut → s.BeginsOut asked

section Begin

variable {asked : UInt16} {s : Usbd} {req : UsbdSetupReq} {epAddr : UInt8}

theorem begins_of_ne (hin : s.control.ep0State ≠ .dataIn) (hout : s.control.ep0State ≠ .dataOut) :
    s.Begins asked := ⟨fun h => absurd h hin, fun h => absurd h hout⟩

theorem begins_of_setup (h : s.control.ep0State = .setup) : s.Begins asked :=
  begins_of_ne (by rw [h]; decide) (by rw [h]; decide)

theorem Fresh.begins (h : s.Fresh asked) : s.Begins asked := begins_of_setup h.ep0State

theorem Fresh.llStallEP (h : s.Fresh asked) (epAddr : UInt8) :
    (s.llStallEP epAddr).Begins asked := begins_of_setup h.ep0State

theorem Fresh.ctlError (h : s.Fresh asked) : s.ctlError.Begins asked := begins_of_setup h.ep0State

theorem begins_of_statusIn (h : s.control.ep0State = .statusIn) : s.Begins asked :=
  begins_of_ne (by rw [h]; decide) (by rw [h]; decide)

theorem begins_ctlSendStatus (s : Usbd) : s.ctlSendStatus.Begins asked := begins_of_statusIn rfl

theorem Fresh.sendOctets (h : s.Fresh asked) {bs : List UInt8} {len : UInt16}
    (hlen : len.toNat ≤ bs.length) : (s.ctlSendData (.octets bs) len).Begins asked where
  dataIn _ := by
    refine ⟨⟨s, .octets bs, len, rfl, fun _ heq => ?_⟩, h.taken, h.out, h.stalled, h.dataLen⟩
    obtain rfl := In0Source.octets.inj heq
    exact hlen
  dataOut hstate := absurd hstate (show Ep0State.dataIn ≠ .dataOut by decide)

theorem Fresh.rndisSetup (h : s.Fresh asked) (hasked : req.wLength = asked) :
    (s.rndisSetup req).Begins asked := by
  unfold Usbd.rndisSetup
  dsimp only
  split
  next hclass =>
    split
    next hlength =>
      split
      next hdir =>
        refine ⟨fun _ => ⟨⟨s, .encapsulated, _, rfl, nofun⟩, h.taken, h.out, h.stalled, h.dataLen⟩,
          fun hstate => ?_⟩
        have hsend : (usbdRndisSetup req.toSetupReq s.control).ep0State = .dataIn := by
          rw [usbdRndisSetup, if_pos hclass, if_pos hlength, if_pos hdir]
          rfl
        exact absurd (hsend.symm.trans hstate) (by decide)
      next hdir =>
        have hreceive : usbdRndisSetup req.toSetupReq s.control =
            usbdCtlPrepareRx req.wLength s.control := by
          rw [usbdRndisSetup, if_pos hclass, if_pos hlength, if_neg hdir]
        rw [hreceive]
        refine ⟨fun hstate => absurd hstate (show Ep0State.dataOut ≠ .dataIn by decide),
          fun _ => ⟨rfl, rfl, h.stalled, h.awake, hasked, rfl, hasked ▸ hlength⟩⟩
    next => exact h.begins
  next => exact h.begins

theorem length_le_of_findDescriptor {wValue : UInt16} {strDesc strDesc' : Mem} {bs : List UInt8}
    (h : findDescriptor wValue strDesc = some (bs, strDesc')) : bs.length < 65536 := by
  unfold findDescriptor at h
  split at h
  next =>
    obtain ⟨rfl, -⟩ := Prod.mk.inj (Option.some.inj h)
    decide
  next =>
    split at h
    next =>
      obtain ⟨rfl, -⟩ := Prod.mk.inj (Option.some.inj h)
      decide
    next =>
      split at h
      next =>
        split at h
        next =>
          obtain ⟨rfl, -⟩ := Prod.mk.inj (Option.some.inj h)
          decide
        next =>
          obtain ⟨desc, -, heq⟩ := Option.map_eq_some_iff.mp h
          obtain ⟨rfl, -⟩ := Prod.mk.inj heq
          rw [Mem.length_read]
          exact UInt16.toNat_lt _
      next => exact nomatch h

theorem Fresh.getDescriptor (h : s.Fresh asked) : (s.getDescriptor req).Begins asked := by
  unfold Usbd.getDescriptor
  split
  next => exact h.ctlError
  next bs strDesc hfind =>
    have hfresh : Fresh asked { s with strDesc := strDesc } :=
      ⟨h.ep0State, h.taken, h.out, h.stalled, h.awake, h.dataLen⟩
    dsimp only
    split
    next =>
      refine hfresh.sendOctets ?_
      have hlt := length_le_of_findDescriptor hfind
      have hofNat : (UInt16.ofNat bs.length).toNat = bs.length := UInt16.toNat_ofNat_of_lt' hlt
      split
      next => exact Nat.le_of_eq hofNat
      next hle =>
        rw [UInt16.lt_iff_toNat_lt, Nat.not_lt, hofNat] at hle
        exact hle
    next => exact hfresh.begins

theorem Fresh.stdDevReq (h : s.Fresh asked) : (s.stdDevReq req).Begins asked := by
  unfold Usbd.stdDevReq
  split
  · exact h.getDescriptor
  split
  · unfold setAddress
    split
    · dsimp only
      split
      · exact h.ctlError
      · exact begins_of_statusIn rfl
    · exact h.ctlError
  split
  · unfold setConfig
    dsimp only
    split
    · exact h.ctlError
    · split
      · exact h.ctlError
      · exact begins_ctlSendStatus _
  split
  · unfold getConfig
    split
    · exact h.ctlError
    · split
      · exact h.sendOctets (Nat.le_refl 1)
      · exact h.sendOctets (Nat.le_refl 1)
      · exact h.ctlError
  split
  · unfold getStatus
    split
    · exact h.ctlError
    · exact h.sendOctets (Nat.le_refl 2)
  split
  · unfold setFeature
    split
    · exact begins_ctlSendStatus _
    · exact h.begins
  split
  · unfold clrFeature
    split
    · exact h.ctlError
    · split
      · exact begins_ctlSendStatus _
      · exact h.begins
  · exact h.ctlError

theorem Fresh.stdItfReq (h : s.Fresh asked) (hasked : req.wLength = asked) :
    (s.stdItfReq req).Begins asked := by
  unfold Usbd.stdItfReq
  split
  · split
    · dsimp only
      split
      · exact begins_ctlSendStatus _
      · exact h.rndisSetup hasked
    · exact h.ctlError
  · exact h.ctlError

theorem Fresh.stdEPReq (h : s.Fresh asked) (hasked : req.wLength = asked) :
    (s.stdEPReq req).Begins asked := by
  unfold Usbd.stdEPReq
  dsimp only
  split
  · exact h.rndisSetup hasked
  split
  · unfold epSetFeature
    split
    · split
      · exact h.llStallEP _
      · exact h.begins
    · exact begins_ctlSendStatus _
    · exact h.ctlError
  split
  · unfold epClearFeature
    split
    · split
      · exact h.llStallEP _
      · exact h.begins
    · split
      · exact begins_ctlSendStatus _
      · exact h.begins
    · exact h.ctlError
  split
  · unfold epGetStatus
    split
    · split
      · exact h.llStallEP _
      · exact h.begins
    · exact h.sendOctets (Nat.le_refl 2)
    · exact h.ctlError
  · exact h.begins

/-- Whatever the host asks for, a data stage begins with nothing sent. -/
theorem begins_llSetupStage (hawake : s.suspended = false) (req : UsbdSetupReq) :
    (s.takeSetup.llSetupStage req).Begins req.wLength := by
  have hfresh : Fresh req.wLength
      { s.takeSetup.setEp0State .setup with ep0DataLen := req.wLength.toUInt32 } :=
    ⟨rfl, rfl, rfl, rfl, hawake, rfl⟩
  unfold llSetupStage
  dsimp only
  split
  · exact hfresh.stdDevReq
  · exact hfresh.stdItfReq rfl
  · exact hfresh.stdEPReq rfl
  · exact hfresh.llStallEP _

theorem BeginsIn.holds (h : s.BeginsIn asked)
    (hbuffer : s.in0.source = .encapsulated → s.in0.totalLength.toNat ≤ encBufSize) :
    s.stageData.length = s.in0.totalLength.toNat ∧ s.Holds s.stageData := by
  obtain ⟨⟨u, source, len, hin0, hlen⟩, -, -, -, -⟩ := h
  have hsource : s.in0.source = source := by rw [hin0]; rfl
  have htotal : s.in0.totalLength.toNat = len.toNat := by rw [hin0]; exact UInt16.toNat_toUInt32 len
  cases source with
  | encapsulated =>
      have hlength : s.stageData.length = s.in0.totalLength.toNat := by
        unfold stageData
        rw [hsource, readSource, Mem.length_read]
      refine ⟨hlength, fun outside off n hn => ?_⟩
      have hle := hbuffer hsource
      rw [hlength] at hn
      unfold stageData
      rw [hsource, readSource, readSource, Mem.take_drop_read _ _ hn, Nat.zero_add]
      refine Mem.read_congr fun i _ hi => ?_
      have hin : i < encBufSize := by omega
      unfold memoryAt
      rw [if_pos hin, if_pos hin]
  | octets bs =>
      have hle := hlen bs rfl
      have hdata : s.stageData = bs.take len.toNat := by
        unfold stageData
        rw [hsource, htotal]
        rfl
      have hlength : s.stageData.length = s.in0.totalLength.toNat := by
        rw [hdata, htotal, List.length_take_of_le hle]
      refine ⟨hlength, fun outside off n hn => ?_⟩
      rw [hlength, htotal] at hn
      rw [hsource, readSource, hdata, List.drop_take, List.take_take, Nat.min_eq_left (by omega)]

/-- The data stage that a setup packet begins. -/
theorem BeginsIn.sending (h : s.BeginsIn asked) (hstate : s.control.ep0State = .dataIn)
    (hbuffer : s.in0.source = .encapsulated → s.in0.totalLength.toNat ≤ encBufSize) :
    s.Sending s.stageData asked.toNat := by
  obtain ⟨hlength, hholds⟩ := h.holds hbuffer
  obtain ⟨⟨u, source, len, hin0, -⟩, htaken, hout, hstalled, hasked⟩ := h
  have hlen : s.stageData.length = len.toNat := by
    rw [hlength, hin0]
    exact UInt16.toNat_toUInt32 len
  refine ⟨hstate, hin0 ▸ rfl, hstalled, hlength.symm, hlen ▸ UInt16.toNat_lt len,
    fun ht => absurd (hout.symm.trans ht) Bool.false_ne_true, .inl ⟨0, ?_⟩⟩
  exact {
    holds := hholds
    dvd := Nat.dvd_zero _
    lt := .inr rfl
    xferBuff := hin0 ▸ rfl
    remLength := by
      rw [Nat.sub_zero, hlen, hin0]
      exact UInt16.toNat_toUInt32 len
    xferLen := by
      rw [Nat.sub_zero, hlen, hin0]
      exact toNat_xferLen len
    dataLen := by rw [hasked, UInt16.toNat_toUInt32]
    taken := by rw [htaken, List.drop_zero, Nat.sub_zero, List.nil_append] }

theorem begins_setup {u : Usbd} {pdata : Mem}
    (hsetup : usbdMachine.step s (.setup pdata) = some u) :
    u.Begins (usbdParseSetupRequest pdata).wLength := by
  simp only [usbdMachine, usbdStep, Option.ite_none_left_eq_some, Bool.not_eq_true,
    Option.some.injEq] at hsetup
  exact hsetup.2 ▸ begins_llSetupStage hsetup.1 _

end Begin

/-! ## The stage as a whole -/

theorem inTaken_llDataInStage (s : Usbd) : s.llDataInStage.inTaken = s.inTaken := by
  unfold llDataInStage
  split
  · split
    · rfl
    · split <;> rfl
  · rfl

theorem length_inTaken_takeIn (s : Usbd) (outside : Mem) :
    (s.takeIn outside).inTaken.length = s.inTaken.length + 1 := by
  unfold takeIn
  rw [inTaken_llDataInStage, List.length_append, List.length_singleton]

/-- There is always a packet to come. -/
theorem Sending.exists_rest {data : List UInt8} {asked : Nat} {s : Usbd}
    (h : s.Sending data asked) :
    ∃ rest, s.inTaken ++ rest = stagePackets ep0Size data asked ∧ rest ≠ [] := by
  rcases h.packet with ⟨pos, hat⟩ | hzlp
  · exact ⟨_, hat.taken, stagePackets_ne_nil _ _ _⟩
  · exact ⟨_, hzlp.taken, List.cons_ne_nil _ _⟩

/-- A host that has taken all of a data stage reads the data exactly when that is no more than it
asked for. -/
theorem readStage_of_done {s u t : Usbd} {pdata : Mem} {es : List UsbdEvent}
    (hsetup : usbdMachine.step s (.setup pdata) = some u) (hstate : u.control.ep0State = .dataIn)
    (hbuffer : u.in0.source = .encapsulated → u.in0.totalLength.toNat ≤ encBufSize)
    (hrun : usbdMachine.run u es = some t) (hquiet : ∀ e ∈ es, ¬ e.Interrupts)
    (hdone : t.control.ep0State = .statusOut) :
    readStage ep0Size (usbdParseSetupRequest pdata).wLength.toNat t.inTaken =
        some (u.stageData, []) ↔
      u.stageData.length ≤ (usbdParseSetupRequest pdata).wLength.toNat := by
  have hsending := ((begins_setup hsetup).dataIn hstate).sending hstate hbuffer
  rcases hsending.run hrun hquiet with hsending | hsent
  · exact absurd (hsending.ep0State.symm.trans hdone) (by decide)
  · rw [hsent.taken]
    exact readStage_stagePackets_iff (by decide)

/-- What a host takes between two setup packets is the data stage, whatever the rest of the device
does.  A host that goes on takes all of it, and it reads the data exactly when that is no more than
it asked for. -/
theorem control_read {s u t : Usbd} {pdata : Mem} {es : List UsbdEvent}
    (hsetup : usbdMachine.step s (.setup pdata) = some u) (hstate : u.control.ep0State = .dataIn)
    (hbuffer : u.in0.source = .encapsulated → u.in0.totalLength.toNat ≤ encBufSize)
    (hrun : usbdMachine.run u es = some t) (hquiet : ∀ e ∈ es, ¬ e.Interrupts) :
    let asked := (usbdParseSetupRequest pdata).wLength.toNat
    (∃ rest, t.inTaken ++ rest = stagePackets ep0Size u.stageData asked ∧
        (t.control.ep0State = .statusOut ↔ rest = [])) ∧
      (t.control.ep0State = .statusOut →
        (readStage ep0Size asked t.inTaken = some (u.stageData, []) ↔
          u.stageData.length ≤ asked)) ∧
      (t.control.ep0State ≠ .statusOut → t.suspended = false → ∀ outside, ∃ v,
        usbdMachine.step t (.takeIn outside) = some v ∧
          v.inTaken.length = t.inTaken.length + 1) := by
  intro asked
  have hbegins := begins_setup hsetup
  rcases ((hbegins.dataIn hstate).sending hstate hbuffer).run hrun hquiet with hsending | hsent
  · have hne : t.control.ep0State ≠ .statusOut := by
      rw [hsending.ep0State]
      decide
    obtain ⟨rest, htaken, hrest⟩ := hsending.exists_rest
    refine ⟨⟨rest, htaken, iff_of_false hne hrest⟩,
      readStage_of_done hsetup hstate hbuffer hrun hquiet,
      fun _ hawake outside => ⟨_, ?_, length_inTaken_takeIn t outside⟩⟩
    simp [usbdMachine, usbdStep, hawake, hsending.enabled, hsending.stalled]
  · exact ⟨⟨[], by rw [hsent.taken, List.append_nil], iff_of_true hsent.ep0State rfl⟩,
      readStage_of_done hsetup hstate hbuffer hrun hquiet, fun hne => absurd hsent.ep0State hne⟩

/-- GET_DESCRIPTOR for the descriptor of the device. -/
def getDeviceDescriptor : Mem := Mem.zero.write 0 [0x80, 6, 0, 1, 0, 0, 64, 0]

/-- A host reads the descriptor of the device. -/
theorem control_read_descriptor :
    ∃ t, usbdMachine.run {} [.setup getDeviceDescriptor, .takeIn Mem.zero] = some t ∧
      readStage ep0Size 64 t.inTaken = some (usbdFSDeviceDesc, []) := by
  obtain ⟨-, hread, -⟩ :=
    @control_read {} _ _ getDeviceDescriptor [.takeIn Mem.zero] rfl rfl nofun rfl
      (by simp [UsbdEvent.Interrupts])
  exact ⟨_, rfl, (hread rfl).mpr (by decide)⟩

end Usbd

end Adhoc
