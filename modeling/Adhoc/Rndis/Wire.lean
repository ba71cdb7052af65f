import Adhoc.Lib.Bulk
import Adhoc.Rndis.Session

/-!
# The message on the wire

`rndis_tx_start` builds a message and `handle_packet` takes one apart.  `OnWire`
says that the transfers of a message are what `handle_packet` asks for: the
header and the frame and nothing else, cut into packets so that a receiver sees
the end of the message.

The transfers of a message are those handed over from the call to
`rndis_tx_start` to the completion that leaves the transmitter idle
(`Completes`), whatever else the link does in between (`sent_of_completes`).
The first transfer has 64 octets even where the message is shorter, so a frame of
fewer than 20 octets is not `OnWire` and every other frame is (`onWire_iff`).
-/

namespace Adhoc

open ByteMem EventMachine Bulk

/-! ## What a message should be -/

/-- `handle_packet` takes the octets for a message with the frame `f`. -/
def DecodesTo (bytes f : List UInt8) : Prop :=
  ∀ (m : Mem) (s : Device), m.read 0 bytes.length = bytes → s.rndisRxStarted = true →
    let r := handlePacket (RndisDataPacket.ofMem m 0) (UInt32.ofNat bytes.length).toInt32 s
    r.rxok = s.rxok + 1 ∧ r.rxbad = s.rxbad ∧
      (RndisDataPacket.ofMem m 0).dataLength.toNat = f.length ∧
      (rndisRxSize r).toNat = f.length ∧ rndisRxData r = some rndisHeaderSize ∧
      m.read rndisHeaderSize f.length = f

/-- The transfers `ts` are the message of the frame `f` and nothing else. -/
structure OnWire (f : List UInt8) (ts : List (List UInt8)) : Prop where
  octets : ts.flatten = (RndisDataPacket.ofSize (.ofNat f.length)).toBytes ++ f
  length : ts.flatten.length = rndisHeaderSize + f.length
  messageLength :
    (RndisDataPacket.ofSize (.ofNat f.length)).messageLength.toNat = ts.flatten.length
  ends : EndsShort rndisDataInSz (ts.flatMap (packets rndisDataInSz))
  decodes : DecodesTo ts.flatten f

/-- A receiver reads such a message off the wire and stops behind it. -/
theorem OnWire.readMessage {f : List UInt8} {ts : List (List UInt8)} (h : OnWire f ts)
    (rest : List (List UInt8)) :
    readMessage rndisDataInSz (ts.flatMap (packets rndisDataInSz) ++ rest) =
      some ((RndisDataPacket.ofSize (.ofNat f.length)).toBytes ++ f, rest) := by
  rw [readMessage_append h.ends, flatten_flatMap_packets, h.octets]

/-! ## The transfers of a frame -/

/-- The header of a frame passes the guards of `handle_packet` with the length of
its message. -/
theorem accepts_ofSize {n : Nat} (h : n ≤ ethMaxPacketSize) :
    Accepts (RndisDataPacket.ofSize (.ofNat n)) (.ofNat (rndisHeaderSize + n)) := by
  have hlength : (RndisDataPacket.ofSize (.ofNat n)).messageLength =
      .ofNat (rndisHeaderSize + n) := by
    rw [← UInt32.toNat_inj, toNat_messageLength h]
    simp only [ethMaxPacketSize, ethHeaderSize, ethMtu] at h
    rw [UInt32.toNat_ofNat']
    simp only [rndisHeaderSize]
    omega
  refine ⟨?_, rfl, .inl hlength, rfl⟩
  rw [← hlength, UInt32.lt_iff_toNat_lt, toNat_messageLength h]
  have hheader : (UInt32.ofNat rndisHeaderSize).toNat = rndisHeaderSize := rfl
  omega

theorem toNat_ofNat_frame {n : Nat} (h : n ≤ ethMaxPacketSize) : (UInt16.ofNat n).toNat = n := by
  simp only [ethMaxPacketSize, ethHeaderSize, ethMtu] at h
  rw [UInt16.toNat_ofNat']
  omega

/-- `handle_packet` takes a header and a frame behind it for the frame. -/
theorem decodesTo_message {f : List UInt8} (hpos : 1 ≤ f.length)
    (hle : f.length ≤ ethMaxPacketSize) :
    DecodesTo ((RndisDataPacket.ofSize (.ofNat f.length)).toBytes ++ f) f := by
  intro m s hread hstarted
  rw [List.length_append, RndisDataPacket.length_toBytes] at hread ⊢
  rw [Mem.read_add, Nat.zero_add] at hread
  obtain ⟨hheader, hframe⟩ := List.append_inj hread (by simp)
  have hofMem : RndisDataPacket.ofMem m 0 = RndisDataPacket.ofSize (.ofNat f.length) :=
    RndisDataPacket.ofMem_of_read hheader
  have hsize := toNat_ofNat_frame hle
  have hacc : Accepts (RndisDataPacket.ofMem m 0)
      (UInt32.ofNat (rndisHeaderSize + f.length)).toInt32.toUInt32 := by
    rw [hofMem, UInt32.toUInt32_toInt32]
    exact accepts_ofSize hle
  have hdata : (RndisDataPacket.ofMem m 0).dataLength.toUInt16 = .ofNat f.length := by
    rw [hofMem]
    exact UInt16.toUInt16_toUInt32 _
  have hne : (UInt16.ofNat f.length) ≠ 0 := fun h0 => by
    rw [h0, UInt16.toNat_zero] at hsize
    omega
  rw [handlePacket_accepts hacc hstarted, hdata]
  refine ⟨rfl, rfl, ?_, hsize, if_pos hne, hframe⟩
  rw [hofMem]
  exact (UInt16.toNat_toUInt32 _).trans hsize

/-- The transfers of a frame end with a short packet. -/
theorem endsShort_messageTransfers {f : List UInt8} (h : 20 ≤ f.length) :
    EndsShort rndisDataInSz ((messageTransfers f []).flatMap (packets rndisDataInSz)) := by
  have hfirst : ((RndisDataPacket.ofSize (.ofNat f.length)).toBytes ++ f.take 20 ++ []).length =
      rndisDataInSz := by
    simp [List.length_append, RndisDataPacket.length_toBytes]
    omega
  have hrest : (f.drop 20).length = f.length - 20 := List.length_drop
  rw [messageTransfers]
  generalize (RndisDataPacket.ofSize (.ofNat f.length)).toBytes ++ f.take 20 ++ [] = first at hfirst
  have hwhole : first ≠ [] ∧ rndisDataInSz ∣ first.length := by
    rw [← List.length_pos_iff, hfirst]
    exact ⟨by decide, Nat.dvd_refl rndisDataInSz⟩
  by_cases hzlp : (rndisHeaderSize + f.length) % rndisDataInSz = 0
  · rw [if_pos hzlp, ← List.cons_append]
    refine endsShort_transfers (by decide) (fun b hb => ?_) (.inl rfl)
    rcases List.mem_cons.mp hb with rfl | hb
    · exact hwhole
    · obtain ⟨hlong, hb⟩ := List.mem_ite_nil_right.mp hb
      rw [List.mem_singleton.mp hb, ← List.length_pos_iff, hrest]
      simp only [rndisHeaderSize, rndisDataInSz] at hzlp ⊢
      omega
  · have hlong : 20 < f.length := by
      simp only [rndisHeaderSize, rndisDataInSz] at hzlp
      omega
    rw [if_neg hzlp, if_pos hlong, List.append_nil]
    show EndsShort rndisDataInSz (([first] ++ [f.drop 20]).flatMap (packets rndisDataInSz))
    refine endsShort_transfers (by decide) (fun b hb => ?_) (.inr ?_)
    · rw [List.mem_singleton.mp hb]
      exact hwhole
    · rw [hrest]
      simp only [rndisHeaderSize, rndisDataInSz] at hzlp ⊢
      omega

/-- The octets that fill up the first transfer are one too many. -/
theorem onWire_messageTransfers_iff {f stale : List UInt8} (hstale : stale.length = 20 - f.length)
    (hpos : 1 ≤ f.length) (hle : f.length ≤ ethMaxPacketSize) :
    OnWire f (messageTransfers f stale) ↔ 20 ≤ f.length := by
  have hflatten := flatten_messageTransfers hstale
  constructor
  · intro h
    have hlength := h.length
    rw [hflatten, List.length_append, List.length_append, RndisDataPacket.length_toBytes,
      hstale] at hlength
    omega
  · intro h
    obtain rfl : stale = [] := List.length_eq_zero_iff.mp (by omega)
    rw [List.append_nil] at hflatten
    have hlength : ((RndisDataPacket.ofSize (.ofNat f.length)).toBytes ++ f).length =
        rndisHeaderSize + f.length := by
      rw [List.length_append, RndisDataPacket.length_toBytes]
    exact {
      octets := hflatten
      length := hflatten ▸ hlength
      messageLength := by rw [toNat_messageLength hle, hflatten, hlength]
      ends := endsShort_messageTransfers h
      decodes := hflatten ▸ decodesTo_message hpos hle }

/-! ## The run of a message -/

/-- The octets of the frame `f` at `data` stay as they are.  `linkoutput_fn` waits
for the transmitter before it fills its buffer again. -/
def LinkEvent.Keeps (data : Nat) (f : List UInt8) : LinkEvent → Prop
  | .txStart memory _ _ => memory.read data f.length = f
  | _ => True

/-- The run ends where the transmitter becomes idle, and no earlier. -/
inductive Completes : Device → List LinkEvent → Device → Prop where
  | idle (s : Device) (h : s.rndisTxTransmitting = false) : Completes s [] s
  | step (s u t : Device) (e : LinkEvent) (es : List LinkEvent)
      (h : s.rndisTxTransmitting = true) (hstep : linkMachine.step s e = some u)
      (hrest : Completes u es t) : Completes s (e :: es) t

/-- What is left of the frame lies in the frame `f` at `data`. -/
def FrameHeld (data : Nat) (f : List UInt8) (s : Device) : Prop :=
  ∀ memory : Mem, memory.read data f.length = f →
    restOfFrame { s with txMem := memory } = restOfFrame s

section Message

variable {data : Nat} {f : List UInt8} {s t u : Device} {e : LinkEvent} {es : List LinkEvent}

/-- What is left of the frame is told by the message. -/
theorem restOfFrame_of_message (h : t.message = s.message) : restOfFrame t = restOfFrame s := by
  have hptr : t.rndisTxPtr = s.rndisTxPtr := congrArg TxMessage.ptr h
  have hsize : t.rndisTxDataSize = s.rndisTxDataSize := congrArg TxMessage.size h
  have hmemory : t.txMem = s.txMem := congrArg TxMessage.memory h
  rw [restOfFrame, restOfFrame, hptr, hsize, hmemory]

theorem remaining_of_message (h : t.message = s.message) : remaining t = remaining s := by
  have hzlp : t.rndisTxZLP = s.rndisTxZLP := congrArg TxMessage.zlp h
  rw [remaining, remaining, restOfFrame_of_message h, hzlp]

theorem FrameHeld.of_message (hheld : FrameHeld data f s) (h : t.message = s.message) :
    FrameHeld data f t := by
  intro memory hmemory
  have hmoved : ({ t with txMem := memory } : Device).message =
      ({ s with txMem := memory } : Device).message :=
    congrArg (fun m : TxMessage => { m with memory }) h
  rw [restOfFrame_of_message hmoved, hheld memory hmemory, restOfFrame_of_message h]

/-- A completion leaves the frame in its place. -/
theorem FrameHeld.dataIn (hheld : FrameHeld data f s) :
    FrameHeld data f (usbdRndisDataIn rndisDataInEp s) := by
  intro memory hmemory
  cases hrest : restOfFrame s with
  | cons b bs =>
      obtain ⟨-, ptr, hptr, hsize, -⟩ := restOfFrame_eq_cons hrest
      rw [usbdRndisDataIn_more hptr hsize]
      rfl
  | nil =>
      rw [usbdRndisDataIn_done hrest]
      split
      · exact hheld memory hmemory
      · exact hheld memory hmemory

theorem Ready.frameHeld (h : Ready data f s) (hlen : f.length ≤ ethMaxPacketSize) :
    FrameHeld data f s := by
  intro memory hmemory
  have hready : Ready data f { s with txMem := memory } :=
    ⟨h.first_eq, h.ptr_eq, h.size_eq, h.zlp_eq, hmemory⟩
  rw [hready.restOfFrame_eq hlen, h.restOfFrame_eq hlen]

/-- What holds of a message from one event to the next: its frame stays, no
transfer is lost, and it ends when all are handed over. -/
structure MessageInFlight (data : Nat) (f : List UInt8) (ts : List (List UInt8)) (s : Device) :
    Prop where
  held : FrameHeld data f s
  sent : s.sent ++ remaining s = ts
  ended : s.rndisTxTransmitting = false → remaining s = []

variable {ts : List (List UInt8)}

theorem MessageInFlight.of_message (h : MessageInFlight data f ts s)
    (hsame : t.message = s.message) : MessageInFlight data f ts t where
  held := h.held.of_message hsame
  sent := by
    rw [remaining_of_message hsame, show t.sent = s.sent from congrArg TxMessage.sent hsame, h.sent]
  ended hidle := by
    have htx : t.rndisTxTransmitting = s.rndisTxTransmitting :=
      congrArg TxMessage.transmitting hsame
    rw [remaining_of_message hsame, h.ended (htx ▸ hidle)]

theorem MessageInFlight.dataIn (h : MessageInFlight data f ts s)
    (htx : s.rndisTxTransmitting = true) : MessageInFlight data f ts (completeDataIn s) := by
  unfold completeDataIn usbdLLDataInStage
  split
  next =>
    refine ⟨FrameHeld.dataIn (s := { s with inEnabled := false }) h.held, ?_, ?_⟩
    · cases hleft : remaining { s with inEnabled := false } with
      | nil =>
          rw [usbdRndisDataIn_nil hleft]
          exact h.sent
      | cons b bs =>
          obtain ⟨hrest, hsent, -⟩ := usbdRndisDataIn_cons hleft
          rw [hrest, hsent, List.append_assoc, List.singleton_append, ← hleft]
          exact h.sent
    · intro hidle
      cases hleft : remaining { s with inEnabled := false } with
      | nil =>
          rw [usbdRndisDataIn_nil hleft]
          exact hleft
      | cons b bs =>
          obtain ⟨-, -, -, hsame⟩ := usbdRndisDataIn_cons hleft
          rw [hsame.transmitting] at hidle
          exact absurd (htx.symm.trans hidle) (by decide)
  next => exact h.of_message rfl

/-- No event loses a transfer of a message in flight. -/
theorem MessageInFlight.step (h : MessageInFlight data f ts s)
    (htx : s.rndisTxTransmitting = true) (hkept : e.Keeps data f)
    (hstep : linkMachine.step s e = some t) : MessageInFlight data f ts t := by
  obtain ⟨-, rfl⟩ | ⟨memory, data', size, rfl, rfl⟩ | hsame := linkStep_cases hstep
  · exact h.dataIn htx
  · have hrefuses : rndisTxRefuses size { s with txMem := memory } = true := by
      simp [rndisTxRefuses, htx]
    have hrest := h.held memory hkept
    rw [rndisTxStart_refuses hrefuses]
    refine ⟨fun memory' hmemory' => (h.held memory' hmemory').trans hrest.symm, ?_, ?_⟩
    · rw [← h.sent, remaining, remaining, ← hrest]
      rfl
    · exact fun hidle => absurd (htx.symm.trans hidle) (by decide)
  · exact h.of_message hsame

/-- At the end of a message all its transfers are handed over. -/
theorem sent_of_completes (h : MessageInFlight data f ts s) (hkept : ∀ e ∈ es, e.Keeps data f)
    (hrun : Completes s es t) : t.sent = ts := by
  induction hrun with
  | idle s hidle => rw [← h.sent, h.ended hidle, List.append_nil]
  | step s u t e es htx hstep hrest ih =>
      exact ih (h.step htx (hkept e List.mem_cons_self) hstep)
        fun e' he' => hkept e' (List.mem_cons_of_mem e he')

/-- A completion leaves the device as it is configured. -/
theorem configured_usbdRndisDataIn (s : Device) :
    (usbdRndisDataIn rndisDataInEp s).devState = s.devState ∧
      (usbdRndisDataIn rndisDataInEp s).inOpen = s.inOpen := by
  cases hrest : restOfFrame s with
  | cons b bs =>
      obtain ⟨-, ptr, hptr, hsize, -⟩ := restOfFrame_eq_cons hrest
      rw [usbdRndisDataIn_more hptr hsize]
      exact ⟨rfl, rfl⟩
  | nil =>
      rw [usbdRndisDataIn_done hrest]
      split <;> exact ⟨rfl, rfl⟩

/-- The completions alone bring a message to its end. -/
theorem completes_dataIn (hconf : s.devState = .configured) (hopen : s.inOpen = true)
    (henabled : s.inEnabled = true) (htx : s.rndisTxTransmitting = true) :
    ∃ t, Completes s (List.replicate ((remaining s).length + 1) .dataIn) t := by
  induction hleft : remaining s generalizing s with
  | nil =>
      have hstep : linkMachine.step s .dataIn = some (completeDataIn s) := by
        simp [linkMachine, linkStep, hopen, henabled]
      refine ⟨_, .step s _ _ _ _ htx hstep (.idle _ ?_)⟩
      rw [completeDataIn, usbdLLDataInStage, if_pos hconf,
        usbdRndisDataIn_nil (s := { s with inEnabled := false }) hleft]
  | cons b bs ih =>
      obtain ⟨hrest, -, henabled', hsame⟩ :=
        usbdRndisDataIn_cons (s := { s with inEnabled := false }) hleft
      have hkeeps := configured_usbdRndisDataIn { s with inEnabled := false }
      have hstep : linkMachine.step s .dataIn =
          some (usbdRndisDataIn rndisDataInEp { s with inEnabled := false }) := by
        simp [linkMachine, linkStep, completeDataIn, usbdLLDataInStage, hconf, hopen, henabled]
      obtain ⟨t, ht⟩ := ih (hkeeps.1.trans hconf) (hkeeps.2.trans hopen) henabled'
        (hsame.transmitting.trans htx) hrest
      exact ⟨t, .step s _ t _ _ htx hstep ht⟩

end Message

/-- What `rndis_tx_start` has checked where it accepts. -/
theorem of_not_rndisTxRefuses {size : UInt16} {s : Device} (h : rndisTxRefuses size s = false) :
    s.rndisTxTransmitting = false ∧ 1 ≤ size.toNat ∧ size.toNat ≤ ethMaxPacketSize := by
  simp only [rndisTxRefuses, Bool.or_eq_false_iff, decide_eq_false_iff_not] at h
  obtain ⟨⟨hidle, hmax⟩, hzero⟩ := h
  refine ⟨hidle, Nat.pos_of_ne_zero fun h0 => hzero (UInt16.toNat_inj.mp h0), ?_⟩
  exact Nat.le_of_not_lt hmax

/-- `rndis_tx_start` hands over the first transfer of the message of its frame. -/
theorem messageInFlight_rndisTxStart {data : Nat} {size : UInt16} {f : List UInt8} {s : Device}
    (hzlp : ZLPInFlight s) (haccepts : rndisTxRefuses size s = false)
    (hframe : s.txMem.read data size.toNat = f) :
    ∃ stale, stale.length = 20 - f.length ∧
      MessageInFlight data f (s.sent ++ messageTransfers f stale) (rndisTxStart data size s).2 := by
  obtain ⟨hidle, -, hle⟩ := of_not_rndisTxRefuses haccepts
  have hlength : f.length = size.toNat := by rw [← hframe, Mem.length_read]
  obtain rfl : .ofNat f.length = size := by rw [hlength, UInt16.ofNat_toNat]
  have hlen : f.length ≤ ethMaxPacketSize := hlength ▸ hle
  have hready : Ready data f (rndisTxLoad data (.ofNat f.length) s) :=
    ready_rndisTxLoad hlen (hlength ▸ hframe) (hzlp hidle)
  obtain ⟨stale, hstale, hts⟩ := hready.messageTransfers_eq hlen
  refine ⟨stale, hstale, ?_⟩
  rw [rndisTxStart_accepts haccepts, ← hts]
  exact {
    held := hready.frameHeld hlen
    sent := List.append_assoc s.sent [_] _
    ended := fun h => Bool.noConfusion h }

/-- The transfers of a message are the message, and nothing else, exactly where
the frame fills the first of them. -/
theorem onWire_iff {s t : Device} {memory : Mem} {data : Nat} {size : UInt16} {es : List LinkEvent}
    (hreach : linkMachine.Reaches Device.powerOn s)
    (haccepts : rndisTxRefuses size { s with txMem := memory } = false)
    (hkept : ∀ e ∈ es, e.Keeps data (memory.read data size.toNat))
    (hrun : Completes (rndisTxStart data size { s with txMem := memory }).2 es t) :
    (∃ ts, t.sent = s.sent ++ ts ∧ OnWire (memory.read data size.toNat) ts) ↔
      20 ≤ size.toNat := by
  obtain ⟨-, hpos, hle⟩ := of_not_rndisTxRefuses haccepts
  have hlink : ZLPInFlight s := zlpInFlight_of_reaches hreach
  have hzlp : ZLPInFlight { s with txMem := memory } := hlink
  obtain ⟨stale, hstale, hflight⟩ := messageInFlight_rndisTxStart hzlp haccepts rfl
  have hsent : t.sent = s.sent ++ messageTransfers (memory.read data size.toNat) stale :=
    sent_of_completes hflight hkept hrun
  have hlength : (memory.read data size.toNat).length = size.toNat := Mem.length_read ..
  have hiff := onWire_messageTransfers_iff hstale (hlength.symm ▸ hpos) (hlength.symm ▸ hle)
  rw [hlength] at hiff
  constructor
  · rintro ⟨ts, hts, hwire⟩
    rw [List.append_cancel_left (hsent.symm.trans hts)] at hiff
    exact hiff.mp hwire
  · exact fun h => ⟨_, hsent, hiff.mpr h⟩

/-- The device once it is configured. -/
def linkUp : Device := usbdSetConfig 1 (usbdSetAddress 1 Device.powerOn)

/-- A frame of 20 octets fills the first transfer. -/
theorem onWire_iff_filled :
    ∃ t, Completes (rndisTxStart 0 20 linkUp).2 [.dataIn, .dataIn] t ∧
      ∃ ts, t.sent = linkUp.sent ++ ts ∧ OnWire (Mem.zero.read 0 20) ts := by
  obtain ⟨t, hrun⟩ : ∃ t, Completes (rndisTxStart 0 20 linkUp).2 [.dataIn, .dataIn] t :=
    completes_dataIn (s := (rndisTxStart 0 20 linkUp).2) rfl rfl rfl rfl
  refine ⟨t, hrun, ?_⟩
  refine (onWire_iff ⟨configured, rfl⟩ (by decide) (fun e he => ?_) hrun).mpr (by decide)
  cases he with
  | head => trivial
  | tail _ he =>
      cases he with
      | head => trivial
      | tail _ he => cases he

/-- A frame of 20 octets, each of them 170, and then one of a single octet. -/
def afterFrame : List LinkEvent :=
  configured ++ [.txStart (Mem.zero.write 0 (List.replicate 20 170)) 0 20, .dataIn, .dataIn]

/-- The message of the single octet has 19 octets of the earlier frame behind it. -/
theorem octets_of_earlier_frame :
    ∃ s t, linkMachine.run Device.powerOn afterFrame = some s ∧
      rndisTxRefuses 1 { s with txMem := Mem.zero } = false ∧
      Completes (rndisTxStart 0 1 { s with txMem := Mem.zero }).2 [.dataIn] t ∧
      (∃ b, t.sent = s.sent ++ [b] ∧ b.length = 64 ∧ b.drop 45 = List.replicate 19 170) ∧
      ¬ ∃ ts, t.sent = s.sent ++ ts ∧ OnWire (Mem.zero.read 0 1) ts := by
  refine ⟨_, _, rfl, by decide, .step _ _ _ _ _ rfl rfl (.idle _ rfl), ?_, ?_⟩
  · exact ⟨_, rfl, by decide +kernel, by decide +kernel⟩
  · rintro ⟨ts, hts, hwire⟩
    obtain rfl := List.append_cancel_left hts
    exact absurd hwire.length (by decide +kernel)

end Adhoc
