import Mathlib.Tactic.Common
import Adhoc.Rndis.Device

/-!
# What the receive path accepts

`handle_packet` looks at four words of the header and at a size that
`usbd_rndis_data_out` recovers from the endpoint.  `Accepts` collects its guards,
and `handlePacket_accepts` and `handlePacket_rejects` are all that later proofs
use of it.

The size is `RNDIS_RX_BUFFER_SIZE - xfer_len - 64 + xfer_count`.  On an OTG
endpoint `xfer_len` stays at the armed length while `xfer_count` grows, so it
comes out as the number of octets received less 64 (`dataOutSize_armed`).  Two
consequences follow.  A message that says its own length is never accepted
(`complete_message_rejected`).  And a message that is accepted describes the
payload `usb_polling` will copy only under a condition on its header
(`accepted_payload_iff`).
-/

namespace Adhoc

open ByteMem

/-! ## The guards of `handle_packet` -/

/-- The guards of `handle_packet` that read the message and the size. -/
def Accepts (h : RndisDataPacket) (size : UInt32) : Prop :=
  ¬ size < .ofNat rndisHeaderSize ∧ h.messageType = remoteNdisPacketMsg ∧
    (h.messageLength = size ∨ h.messageLength = size - 1) ∧
    h.dataOffset + .ofNat offsetofDataOffset + h.dataLength = h.messageLength

instance (h : RndisDataPacket) (size : UInt32) : Decidable (Accepts h size) :=
  inferInstanceAs (Decidable (_ ∧ _))

theorem handlePacket_accepts {h : RndisDataPacket} {size : Int32} {s : Device}
    (hacc : Accepts h size.toUInt32) (hstarted : s.rndisRxStarted = true) :
    handlePacket h size s =
      { s with
        rndisRxDataSize := h.dataLength.toUInt16
        rndisRxStarted := false
        rxok := s.rxok + 1 } := by
  obtain ⟨hsize, htype, hlen, hsum⟩ := hacc
  have hlen' : h.messageLength = size.toUInt32 ∨ h.messageLength = (size - 1).toUInt32 := hlen
  simp only [handlePacket, if_neg hsize, htype, hstarted, UInt32.toUInt32_toInt32, hsum]
  rcases hlen' with hl | hl <;> simp [hl]

theorem handlePacket_rejects {h : RndisDataPacket} {size : Int32} {s : Device}
    (hrej : ¬ (Accepts h size.toUInt32 ∧ s.rndisRxStarted = true)) :
    handlePacket h size s = { s with rxbad := s.rxbad + 1 } := by
  by_cases hsize : size.toUInt32 < .ofNat rndisHeaderSize
  · rw [handlePacket, if_pos hsize]
  by_cases hguard : h.messageType ≠ remoteNdisPacketMsg ∨
      (h.messageLength ≠ size.toUInt32 ∧ h.messageLength ≠ (size - 1).toUInt32)
  · rw [handlePacket, if_neg hsize, if_pos hguard]
  by_cases hsum : h.dataOffset + .ofNat offsetofDataOffset + h.dataLength ≠
      h.messageLength.toInt32.toUInt32
  · simp only [handlePacket, if_neg hsize, if_neg hguard, if_pos hsum]
  by_cases hstarted : s.rndisRxStarted = true
  · rw [not_or, not_not, not_and_or, not_not, not_not] at hguard
    rw [UInt32.toUInt32_toInt32, not_not] at hsum
    exact absurd ⟨⟨hsize, hguard.1, hguard.2, hsum⟩, hstarted⟩ hrej
  · simp only [handlePacket, if_neg hsize, if_neg hguard, if_neg hsum, hstarted, Bool.not_false,
      if_true]

/-- On an endpoint armed with the whole buffer the size is the count less 64. -/
theorem dataOutSize_armed {ep : OutEp} (hlen : ep.xferLen = .ofNat rndisRxBufferSize) :
    (dataOutSize ep).toUInt32 = ep.xferCount - 64 := by
  rw [dataOutSize, UInt32.toUInt32_toInt32, hlen, UInt32.sub_self, UInt32.zero_sub,
    UInt32.add_comm, ← UInt32.sub_eq_add_neg]
  rfl

/-! ## One transfer -/

/-- A transfer on the armed endpoint: its packets, then the callback. -/
def outTransfer (pkts : List OutPacket) (s : Device) : Device :=
  let s := pkts.foldl halPcdRxflvl s
  usbdRndisDataOut rndisDataOutEp { s with outEp := { s.outEp with enabled := false } }

/-- The octets of a sequence of packets. -/
def packetBytes (pkts : List OutPacket) : List UInt8 := pkts.flatMap OutPacket.data

theorem halPcdRxflvl_eq (s : Device) (p : OutPacket) :
    ∃ m, m.read s.outEp.xferBuff p.data.length = p.data ∧
      (∀ i < s.outEp.xferBuff, m i = s.rndisRxBuffer i) ∧
      halPcdRxflvl s p =
        { s with
          rndisRxBuffer := m
          outEp := { s.outEp with
            xferBuff := s.outEp.xferBuff + p.data.length
            xferCount := s.outEp.xferCount + .ofNat p.data.length } } := by
  by_cases hempty : p.data.length = 0
  · refine ⟨s.rndisRxBuffer, ?_, fun _ _ => rfl, ?_⟩
    · rw [List.length_eq_zero_iff.mp hempty]
      rfl
    · simp [halPcdRxflvl, hempty]
  · refine ⟨usbReadPacket s.outEp.xferBuff p s.rndisRxBuffer, ?_, ?_, ?_⟩
    · exact s.rndisRxBuffer.read_write_append s.outEp.xferBuff p.data p.tail
    · intro i hi
      exact s.rndisRxBuffer.write_of_lt _ hi
    · simp only [halPcdRxflvl, ne_eq, hempty, not_false_eq_true, if_true]

/-- The packets of a transfer lie in the buffer one after the other, and the
count is their total. -/
theorem foldl_halPcdRxflvl (pkts : List OutPacket) (s : Device) :
    ∃ m, m.read s.outEp.xferBuff (packetBytes pkts).length = packetBytes pkts ∧
      (∀ i < s.outEp.xferBuff, m i = s.rndisRxBuffer i) ∧
      pkts.foldl halPcdRxflvl s =
        { s with
          rndisRxBuffer := m
          outEp := { s.outEp with
            xferBuff := s.outEp.xferBuff + (packetBytes pkts).length
            xferCount := s.outEp.xferCount + .ofNat (packetBytes pkts).length } } := by
  induction pkts generalizing s with
  | nil => exact ⟨s.rndisRxBuffer, rfl, fun _ _ => rfl, by simp [packetBytes]⟩
  | cons p pkts ih =>
      obtain ⟨m, hread, hbelow, hstep⟩ := halPcdRxflvl_eq s p
      obtain ⟨m', hread', hbelow', hrest⟩ := ih (halPcdRxflvl s p)
      have hbytes : packetBytes (p :: pkts) = p.data ++ packetBytes pkts := rfl
      rw [hstep] at hread' hbelow' hrest
      refine ⟨m', ?_, ?_, ?_⟩
      · -- the later packets leave the octets of this one where they are
        have hkept : m'.read s.outEp.xferBuff p.data.length = p.data :=
          (Mem.read_congr fun i _ h₂ => hbelow' i h₂).trans hread
        rw [hbytes, List.length_append, Mem.read_add, hkept]
        exact congrArg (p.data ++ ·) hread'
      · intro i hi
        rw [hbelow' i (by dsimp only; omega), ← hbelow i hi]
      · rw [List.foldl_cons, hstep, hrest, hbytes, List.length_append]
        simp [Nat.add_assoc, UInt32.add_assoc]

/-- `rndis_rx_start` arms the endpoint while no receive is started. -/
theorem rndisRxStart_idle {s : Device} (hidle : s.rndisRxStarted = false) :
    (rndisRxStart s).2 =
      usbdLLPrepareReceive 0 (.ofNat rndisRxBufferSize) { s with rndisRxStarted := true } := by
  simp [rndisRxStart, hidle]

/-- The callback sees the octets of the transfer at the start of the buffer, and
their number less 64. -/
theorem outTransfer_eq (pkts : List OutPacket) {s : Device}
    (hidle : s.rndisRxStarted = false) :
    ∃ t : Device, t.rndisRxStarted = true ∧ t.rxok = s.rxok ∧ t.rxbad = s.rxbad ∧
      t.rndisRxBuffer.read 0 (packetBytes pkts).length = packetBytes pkts ∧
      (dataOutSize t.outEp).toUInt32 = .ofNat (packetBytes pkts).length - 64 ∧
      outTransfer pkts (rndisRxStart s).2 =
        handlePacket (RndisDataPacket.ofMem t.rndisRxBuffer 0) (dataOutSize t.outEp) t := by
  have harmed := rndisRxStart_idle hidle
  obtain ⟨m, hread, -, hfold⟩ := foldl_halPcdRxflvl pkts (rndisRxStart s).2
  rw [harmed] at hread hfold
  refine ⟨_, ?_, ?_, ?_, ?_, ?_, by rw [outTransfer, harmed, hfold]; exact if_pos rfl⟩
  · rfl
  · rfl
  · rfl
  · exact hread
  · rw [dataOutSize_armed rfl]
    simp [usbdLLPrepareReceive, halPcdEpReceive]

/-! ## Messages that say their own length -/

/-- A well-formed data message as the host sends it: a header, a frame, and the
octet a message that fills its last packet may carry in place of a zero-length
packet. -/
structure HostMessage where
  header : RndisDataPacket
  payload : List UInt8
  extra : List UInt8
  type_eq : header.messageType = remoteNdisPacketMsg
  dataOffset_eq : header.dataOffset = 36
  dataLength_eq : header.dataLength = .ofNat payload.length
  messageLength_eq : header.messageLength = .ofNat (rndisHeaderSize + payload.length)
  payload_pos : 1 ≤ payload.length
  payload_le : payload.length ≤ ethMaxPacketSize
  extra_eq : extra = [] ∨
    (extra.length = 1 ∧ rndisDataOutSz ∣ rndisHeaderSize + payload.length)

/-- The octets on the bus. -/
def HostMessage.bytes (msg : HostMessage) : List UInt8 :=
  msg.header.toBytes ++ msg.payload ++ msg.extra

theorem HostMessage.length_bytes (msg : HostMessage) :
    msg.bytes.length = rndisHeaderSize + msg.payload.length + msg.extra.length := by
  simp [HostMessage.bytes, Nat.add_assoc]

/-- What a receive owes the host: the message is handed on, and counted as good. -/
def Received (msg : HostMessage) (s t : Device) : Prop :=
  t.rndisRxStarted = false ∧ (rndisRxSize t).toUInt32 = msg.header.dataLength ∧
    t.rxok = s.rxok + 1 ∧ t.rxbad = s.rxbad

/-- The size a whole message yields is none its header admits. -/
theorem HostMessage.not_accepts (msg : HostMessage) :
    ¬ Accepts msg.header (.ofNat msg.bytes.length - 64) := by
  rintro ⟨-, -, hlen, -⟩
  have hle := msg.payload_le
  have hextra : msg.extra.length ≤ 1 := by
    rcases msg.extra_eq with h | h
    · simp [h]
    · exact Nat.le_of_eq h.1
  rw [msg.messageLength_eq, msg.length_bytes] at hlen
  simp only [rndisHeaderSize, ethMaxPacketSize, ethHeaderSize, ethMtu] at hlen hle
  rcases hlen with h | h
  · have h' := congrArg UInt32.toNat h
    simp only [UInt32.toNat_ofNat', UInt32.toNat_sub, UInt32.reduceToNat] at h'
    omega
  · have h' := congrArg UInt32.toNat h
    simp only [UInt32.toNat_ofNat', UInt32.toNat_sub, UInt32.reduceToNat] at h'
    omega

/-- A complete message is counted as bad and the receive stays started. -/
theorem outTransfer_rejects (msg : HostMessage) {pkts : List OutPacket} {s : Device}
    (hbytes : packetBytes pkts = msg.bytes) (hidle : s.rndisRxStarted = false) :
    (outTransfer pkts (rndisRxStart s).2).rndisRxStarted = true ∧
      (outTransfer pkts (rndisRxStart s).2).rxok = s.rxok ∧
      (outTransfer pkts (rndisRxStart s).2).rxbad = s.rxbad + 1 := by
  obtain ⟨t, hstarted, hok, hbad, hread, hsize, heq⟩ := outTransfer_eq pkts hidle
  have hheader : RndisDataPacket.ofMem t.rndisRxBuffer 0 = msg.header := by
    apply RndisDataPacket.ofMem_of_read
    rw [hbytes, msg.length_bytes, Nat.add_assoc, Mem.read_add, HostMessage.bytes,
      List.append_assoc] at hread
    exact (List.append_inj hread (by simp)).1
  rw [heq, handlePacket_rejects]
  · exact ⟨hstarted, hok, by rw [← hbad]⟩
  · rw [hheader, hsize, hbytes]
    exact fun h => msg.not_accepts h.1

/-- No well-formed message is received, however it is cut into packets. -/
theorem complete_message_rejected (msg : HostMessage) (pkts : List OutPacket) (s : Device)
    (hbytes : packetBytes pkts = msg.bytes) (hidle : s.rndisRxStarted = false) :
    ¬ Received msg s (outTransfer pkts (rndisRxStart s).2) := by
  rintro ⟨hstarted, -⟩
  rw [(outTransfer_rejects msg hbytes hidle).1] at hstarted
  exact Bool.noConfusion hstarted

/-- A frame of one octet. -/
def oneOctetMessage : HostMessage where
  header := RndisDataPacket.ofSize 1
  payload := [0x5A]
  extra := []
  type_eq := rfl
  dataOffset_eq := rfl
  dataLength_eq := rfl
  messageLength_eq := rfl
  payload_pos := by decide
  payload_le := by decide
  extra_eq := .inl rfl

/-- The one packet that carries it. -/
def oneOctetPacket : OutPacket where
  data := oneOctetMessage.bytes
  tail := [0, 0, 0]
  le_mps := by decide
  whole_words := by decide

theorem oneOctetMessage_rejected :
    packetBytes [oneOctetPacket] = oneOctetMessage.bytes ∧
      ¬ Received oneOctetMessage Device.powerOn
        (outTransfer [oneOctetPacket] (rndisRxStart Device.powerOn).2) :=
  ⟨rfl, complete_message_rejected oneOctetMessage [oneOctetPacket] Device.powerOn rfl rfl⟩

/-- The frame of one octet is in the buffer, and `handle_packet` counts it as bad. -/
theorem oneOctetMessage_counted_bad :
    let t := outTransfer [oneOctetPacket] (rndisRxStart Device.powerOn).2
    t.rndisRxBuffer 44 = 0x5A ∧ t.rxbad = 1 ∧ t.rxok = 0 ∧ t.rndisRxStarted = true ∧
      ¬ Received oneOctetMessage Device.powerOn t := by
  refine ⟨by decide, by decide, by decide, by decide, ?_⟩
  intro h
  exact absurd h.1 (by decide)

/-! ## What an accepted message describes -/

/-- What an accepted message owes `usb_polling`: the header and the payload it
describes lie in the `n` octets received, and the frame copied is that payload. -/
structure SoundlyAccepted (h : RndisDataPacket) (n : UInt32) (s : Device) : Prop where
  header_received : rndisHeaderSize ≤ n.toNat
  payload_received : offsetofDataOffset + h.dataOffset.toNat + h.dataLength.toNat ≤ n.toNat
  size_eq : (rndisRxSize s).toNat = h.dataLength.toNat
  size_le : h.dataLength.toNat ≤ ethMaxPacketSize
  data_eq : rndisRxData s = some (offsetofDataOffset + h.dataOffset.toNat)
  frame_eq : (usbPolling true s).delivered = s.delivered ++
    [s.rndisRxBuffer.read (offsetofDataOffset + h.dataOffset.toNat) h.dataLength.toNat]

/-- The header describes one frame right behind itself. -/
def DescribesFrame (h : RndisDataPacket) : Prop :=
  h.dataOffset = 36 ∧ 1 ≤ h.dataLength.toNat ∧ h.dataLength.toNat ≤ ethMaxPacketSize

instance (h : RndisDataPacket) : Decidable (DescribesFrame h) :=
  inferInstanceAs (Decidable (_ ∧ _))

/-- An accepted message moves the receive from started to pending. -/
theorem usbdRndisDataOut_accepted_iff {s : Device} :
    (s.rndisRxStarted = true ∧ (usbdRndisDataOut rndisDataOutEp s).rndisRxStarted = false) ↔
      s.rndisRxStarted = true ∧
        Accepts (RndisDataPacket.ofMem s.rndisRxBuffer 0) (dataOutSize s.outEp).toUInt32 := by
  rw [usbdRndisDataOut, if_pos rfl]
  refine and_congr_right fun hstarted => ⟨fun h => ?_, fun h => ?_⟩
  · by_contra hacc
    rw [handlePacket_rejects fun h => hacc h.1] at h
    exact Bool.noConfusion (hstarted.symm.trans h)
  · rw [handlePacket_accepts h hstarted]

/-- The frame `usb_polling` takes out of a pending receive. -/
theorem usbPolling_delivered {s : Device} {a : Nat} (hdata : rndisRxData s = some a) :
    (usbPolling true s).delivered =
      s.delivered ++ [s.rndisRxBuffer.read a (rndisRxSize s).toNat] := by
  simp only [usbPolling, hdata, Bool.not_true, Bool.false_eq_true, if_false]
  unfold rndisRxStart
  split <;> rfl

/-- A message that describes a frame is accepted only when the frame has arrived. -/
theorem DescribesFrame.received {h : RndisDataPacket} {n : UInt32} (hd : DescribesFrame h)
    (hacc : Accepts h (n - 64)) : rndisHeaderSize + h.dataLength.toNat ≤ n.toNat := by
  obtain ⟨hoff, hpos, hle⟩ := hd
  obtain ⟨-, -, hlen, hsum⟩ := hacc
  rw [hoff] at hsum
  have hn := n.toNat_lt
  have hsum' := congrArg UInt32.toNat hsum
  simp only [rndisHeaderSize, ethMaxPacketSize, ethHeaderSize, ethMtu, offsetofDataOffset,
    UInt32.toNat_add, UInt32.toNat_ofNat', UInt32.reduceToNat] at *
  rcases hlen with hl | hl
  · have hl' := congrArg UInt32.toNat hl
    simp only [UInt32.toNat_sub, UInt32.reduceToNat] at hl'
    omega
  · have hl' := congrArg UInt32.toNat hl
    simp only [UInt32.toNat_sub, UInt32.reduceToNat] at hl'
    omega

/-- What is pending after a message is accepted: its length, cut to 16 bits. -/
theorem accepted_pending {s : Device} (hstarted : s.rndisRxStarted = true)
    (hacc : Accepts (RndisDataPacket.ofMem s.rndisRxBuffer 0) (dataOutSize s.outEp).toUInt32) :
    (rndisRxSize (usbdRndisDataOut rndisDataOutEp s)).toNat =
        (RndisDataPacket.ofMem s.rndisRxBuffer 0).dataLength.toNat % 65536 ∧
      (usbdRndisDataOut rndisDataOutEp s).rndisRxBuffer = s.rndisRxBuffer := by
  rw [usbdRndisDataOut, if_pos rfl, handlePacket_accepts hacc hstarted]
  exact ⟨UInt32.toNat_toUInt16 _, rfl⟩

/-- A pending frame of a length other than zero starts behind the header. -/
theorem rndisRxData_eq_some {s : Device} {a : Nat} :
    rndisRxData s = some a ↔ (rndisRxSize s).toNat ≠ 0 ∧ a = rndisHeaderSize := by
  have hzero : rndisRxSize s = 0 ↔ (rndisRxSize s).toNat = 0 := UInt16.toNat_inj.symm
  unfold rndisRxData
  split
  next h => simp [← hzero, h, eq_comm]
  next h => simp [not_not.mp h]

/-- What `handle_packet` accepts is what the host sent exactly when the header
describes one frame right behind itself. -/
theorem accepted_payload_iff (s : Device) (hlen : s.outEp.xferLen = .ofNat rndisRxBufferSize) :
    (s.rndisRxStarted = true ∧ (usbdRndisDataOut rndisDataOutEp s).rndisRxStarted = false →
        SoundlyAccepted (RndisDataPacket.ofMem s.rndisRxBuffer 0) s.outEp.xferCount
          (usbdRndisDataOut rndisDataOutEp s)) ↔
      (s.rndisRxStarted = true →
        Accepts (RndisDataPacket.ofMem s.rndisRxBuffer 0) (s.outEp.xferCount - 64) →
        DescribesFrame (RndisDataPacket.ofMem s.rndisRxBuffer 0)) := by
  rw [usbdRndisDataOut_accepted_iff]
  constructor
  · intro h hstarted hacc
    rw [← dataOutSize_armed hlen] at hacc
    have hsound := h ⟨hstarted, hacc⟩
    obtain ⟨hpos, hoff⟩ := rndisRxData_eq_some.mp hsound.data_eq
    rw [hsound.size_eq] at hpos
    simp only [offsetofDataOffset, rndisHeaderSize] at hoff
    have hoff' : (RndisDataPacket.ofMem s.rndisRxBuffer 0).dataOffset.toNat = 36 := by omega
    exact ⟨UInt32.toNat_inj.mp hoff', Nat.pos_of_ne_zero hpos, hsound.size_le⟩
  · rintro h ⟨hstarted, hacc⟩
    obtain ⟨hsize, hbuffer⟩ := accepted_pending hstarted hacc
    rw [dataOutSize_armed hlen] at hacc
    have hframe := h hstarted hacc
    have harrived := hframe.received hacc
    obtain ⟨hoff, hpos, hle⟩ := hframe
    simp only [ethMaxPacketSize, ethHeaderSize, ethMtu] at hle
    rw [Nat.mod_eq_of_lt (by omega)] at hsize
    have hdata : rndisRxData (usbdRndisDataOut rndisDataOutEp s) = some rndisHeaderSize :=
      rndisRxData_eq_some.mpr ⟨by omega, rfl⟩
    have hoff' : offsetofDataOffset +
        (RndisDataPacket.ofMem s.rndisRxBuffer 0).dataOffset.toNat = rndisHeaderSize := by
      rw [hoff]
      rfl
    exact
      { header_received := by omega
        payload_received := by rw [hoff']; exact harrived
        size_eq := hsize
        size_le := hle
        data_eq := by rw [hoff', hdata]
        frame_eq := by rw [usbPolling_delivered hdata, hsize, hoff'] }

/-- A header whose offset wraps the sum of `handle_packet` around. -/
def wrappingHeader : RndisDataPacket where
  messageType := remoteNdisPacketMsg
  messageLength := 108
  dataOffset := 108 - 8 - 65535
  dataLength := 65535
  oobDataOffset := 0
  oobDataLength := 0
  numOOBDataElements := 0
  perPacketInfoOffset := 0
  perPacketInfoLength := 0
  deviceVcHandle := 0
  reserved := 0

/-- A started receive that has taken `n` octets, the header `h` first. -/
def startedWith (h : RndisDataPacket) (n : UInt32) : Device :=
  { Device.powerOn with
    rndisRxStarted := true
    rndisRxBuffer := Mem.zero.write 0 h.toBytes
    outEp := { Device.powerOn.outEp with
      isOpen := true
      xferBuff := n.toNat
      xferLen := .ofNat rndisRxBufferSize
      xferCount := n } }

/-- A transfer of 172 octets is accepted as a frame of 65535. -/
theorem wrappingHeader_accepted :
    let s := startedWith wrappingHeader 172
    let t := usbdRndisDataOut rndisDataOutEp s
    s.rndisRxStarted = true ∧ t.rndisRxStarted = false ∧ rndisRxSize t = 65535 ∧
      ¬ SoundlyAccepted (RndisDataPacket.ofMem s.rndisRxBuffer 0) s.outEp.xferCount t := by
  refine ⟨by decide, by decide, by decide, ?_⟩
  intro h
  exact absurd h.size_le (by decide)

/-- A transfer that carries 64 octets behind a frame of 20. -/
theorem accepted_payload_iff_framed :
    (startedWith (RndisDataPacket.ofSize 20) 128).outEp.xferLen = .ofNat rndisRxBufferSize ∧
      SoundlyAccepted (RndisDataPacket.ofSize 20) 128
        (usbdRndisDataOut rndisDataOutEp (startedWith (RndisDataPacket.ofSize 20) 128)) := by
  refine ⟨rfl, ?_⟩
  have hheader : RndisDataPacket.ofMem (startedWith (RndisDataPacket.ofSize 20) 128).rndisRxBuffer
      0 = RndisDataPacket.ofSize 20 := RndisDataPacket.ofMem_of_read rfl
  have h := (accepted_payload_iff (startedWith (RndisDataPacket.ofSize 20) 128) rfl).mpr
    (fun _ _ => by rw [hheader]; decide)
  rw [hheader] at h
  exact h ⟨rfl, by decide⟩

end Adhoc
