import Adhoc.Lib.Machine
import Adhoc.Rndis.Receive

/-!
# Where a receive is stored

`rndis_rx_start` hands `rndis_rx_buffer` and its length to the HAL, which can tell
the endpoint only how many whole packets to take.  `USB_EPStartXfer` rounds the
1558 octets up to 25 packets of 64, and `USB_ReadPacket` stores each packet in
whole words at the running `xfer_buff`.

`bulkOut` is the endpoint with the handler behind it: a step is one packet, and
`stored` collects the indices of the buffer that are written.  What is not
collected keeps its octet (`run_unchanged`).  A short packet ends the receive, so
a packet lies behind full ones only, and just the last of the 25 can leave the
buffer (`staysInside_iff`).
-/

namespace Adhoc

open ByteMem EventMachine

/-! ## Programming the endpoint -/

/-- `USB_OTG_DOEPTSIZ_XFRSIZ`. -/
def doeptsizXfrsiz : UInt32 := 0x0007FFFF

/-- `USB_OTG_DOEPTSIZ_PKTCNT`. -/
def doeptsizPktcnt : UInt32 := 0x1FF80000

/-- What the OUT branch of `USB_EPStartXfer` leaves in `DOEPTSIZ`. -/
def usbEpStartXferOut (doeptsiz maxpacket xferLen : UInt32) : UInt32 :=
  let doeptsiz := doeptsiz &&& ~~~doeptsizXfrsiz
  let doeptsiz := doeptsiz &&& ~~~doeptsizPktcnt
  if xferLen = 0 then
    let doeptsiz := doeptsiz ||| (doeptsizXfrsiz &&& maxpacket)
    doeptsiz ||| (doeptsizPktcnt &&& ((1 : UInt32) <<< 19))
  else
    let pktcnt := ((xferLen + maxpacket - 1) / maxpacket).toUInt16
    let doeptsiz := doeptsiz ||| (doeptsizPktcnt &&& (pktcnt.toUInt32 <<< 19))
    doeptsiz ||| (doeptsizXfrsiz &&& (maxpacket * pktcnt.toUInt32))

/-- The packet count in `DOEPTSIZ`. -/
def pktcntField (doeptsiz : UInt32) : Nat := ((doeptsiz &&& doeptsizPktcnt) >>> 19).toNat

/-- The transfer size in `DOEPTSIZ`. -/
def xfrsizField (doeptsiz : UInt32) : Nat := (doeptsiz &&& doeptsizXfrsiz).toNat

/-- The packets that fit in the buffer whole. -/
def wholePackets : Nat := rndisRxBufferSize / rndisDataOutSz

/-- The octets behind them that take whole words. -/
def roomBehind : Nat := rndisRxBufferSize % rndisDataOutSz / 4 * 4

theorem or_and_distrib (a b c : UInt32) : (a ||| b) &&& c = a &&& c ||| b &&& c :=
  UInt32.toBitVec_inj.mp BitVec.and_or_distrib_right

/-- The packets the endpoint is programmed for: one more than fit in the buffer. -/
theorem pktcntField_armed (doeptsiz : UInt32) :
    pktcntField (usbEpStartXferOut doeptsiz (.ofNat rndisDataOutSz) (.ofNat rndisRxBufferSize)) =
      wholePackets + 1 := by
  have hcleared : doeptsiz &&& ~~~doeptsizXfrsiz &&& ~~~doeptsizPktcnt &&& doeptsizPktcnt = 0 := by
    rw [UInt32.and_assoc _ (~~~doeptsizPktcnt), UInt32.not_and_self, UInt32.and_zero]
  simp only [pktcntField, usbEpStartXferOut]
  rw [if_neg (by decide), or_and_distrib, or_and_distrib, hcleared]
  decide

theorem xfrsizField_armed (doeptsiz : UInt32) :
    xfrsizField (usbEpStartXferOut doeptsiz (.ofNat rndisDataOutSz) (.ofNat rndisRxBufferSize)) =
      rndisDataOutSz * (wholePackets + 1) := by
  have hcleared : doeptsiz &&& ~~~doeptsizXfrsiz &&& ~~~doeptsizPktcnt &&& doeptsizXfrsiz = 0 := by
    rw [UInt32.and_assoc doeptsiz, UInt32.and_comm (~~~doeptsizXfrsiz), ← UInt32.and_assoc,
      UInt32.and_assoc, UInt32.not_and_self, UInt32.and_zero]
  simp only [xfrsizField, usbEpStartXferOut]
  rw [if_neg (by decide), or_and_distrib, or_and_distrib, hcleared]
  decide

/-! ## The receive -/

/-- A receive in progress. -/
structure Receiving where
  device : Device
  /-- The packets the endpoint still takes. -/
  pktcnt : Nat
  /-- The octets the endpoint still takes. -/
  xfrsiz : Nat
  /-- The indices of `rndis_rx_buffer` stored to. -/
  stored : List Nat

/-- `rndis_rx_start`, down to the registers of the endpoint. -/
def armed (doeptsiz : UInt32) (s : Device) : Receiving :=
  let t := (rndisRxStart s).2
  let doeptsiz := usbEpStartXferOut doeptsiz (.ofNat rndisDataOutSz) t.outEp.xferLen
  { device := t, pktcnt := pktcntField doeptsiz, xfrsiz := xfrsizField doeptsiz, stored := [] }

/-- The indices `USB_ReadPacket` stores to: `count32b` words from `dest` on. -/
def usbReadPacketStores (dest len : Nat) : List Nat := List.range' dest (4 * ((len + 3) / 4))

/-- The indices the RXFLVL branch stores to. -/
def rxflvlStores (s : Device) (p : OutPacket) : List Nat :=
  if p.data.length ≠ 0 then usbReadPacketStores s.outEp.xferBuff p.data.length else []

/-- What one packet leaves.  A packet shorter than the packet size ends the
receive, and so does the end of either count. -/
def afterPacket (r : Receiving) (p : OutPacket) : Receiving :=
  let s := halPcdRxflvl r.device p
  let pktcnt := r.pktcnt - 1
  let xfrsiz := r.xfrsiz - p.data.length
  let more :=
    decide (p.data.length = rndisDataOutSz) && decide (0 < pktcnt) && decide (0 < xfrsiz)
  { device := { s with outEp := { s.outEp with enabled := more } }
    pktcnt := pktcnt
    xfrsiz := xfrsiz
    stored := r.stored ++ rxflvlStores r.device p }

/-- One packet on the endpoint, if the endpoint accepts it. -/
def takePacket (r : Receiving) (p : OutPacket) : Option Receiving :=
  if r.device.outEp.isOpen && r.device.outEp.enabled && decide (0 < r.pktcnt) &&
      decide (p.data.length ≤ r.xfrsiz) then
    some (afterPacket r p)
  else none

/-- The data OUT endpoint. -/
def bulkOut : Machine Receiving OutPacket := ⟨takePacket⟩

/-- Every index stored to is an index of `rndis_rx_buffer`. -/
def StaysInside (r : Receiving) : Prop := ∀ a ∈ r.stored, a < rndisRxBufferSize

instance (r : Receiving) : Decidable (StaysInside r) :=
  inferInstanceAs (Decidable (∀ a ∈ r.stored, a < rndisRxBufferSize))

/-- The twenty-fifth packet, if there is one, leaves at most 20 octets. -/
def LastFits (pkts : List OutPacket) : Prop :=
  ∀ p ∈ pkts[wholePackets]?, p.data.length ≤ roomBehind

/-! ## What one packet stores -/

variable {r t : Receiving} {p : OutPacket} {k : Nat}

theorem takePacket_eq_some :
    takePacket r p = some t ↔
      (r.device.outEp.isOpen = true ∧ r.device.outEp.enabled = true ∧ 0 < r.pktcnt ∧
        p.data.length ≤ r.xfrsiz) ∧ afterPacket r p = t := by
  simp only [takePacket, Option.ite_none_right_eq_some, Option.some.injEq, Bool.and_eq_true,
    decide_eq_true_eq, and_assoc]

/-- The endpoint takes more only behind a full packet. -/
theorem afterPacket_enabled (hmore : (afterPacket r p).device.outEp.enabled = true) :
    p.data.length = rndisDataOutSz ∧ 0 < (afterPacket r p).pktcnt := by
  simp only [afterPacket, Bool.and_eq_true, decide_eq_true_eq] at hmore
  exact hmore.1

@[simp] theorem afterPacket_xferBuff :
    (afterPacket r p).device.outEp.xferBuff = r.device.outEp.xferBuff + p.data.length := by
  obtain ⟨m, -, -, hstep⟩ := halPcdRxflvl_eq r.device p
  simp only [afterPacket, hstep]

/-- The words of a packet are its octets and the filling of the last word. -/
theorem rxflvlStores_eq (s : Device) (p : OutPacket) :
    rxflvlStores s p = List.range' s.outEp.xferBuff (p.data ++ p.tail).length := by
  rw [rxflvlStores, usbReadPacketStores, List.length_append, p.whole_words]
  split
  next => rfl
  next h =>
    rw [not_not.mp h]
    rfl

/-- The RXFLVL branch changes the buffer only where it stores. -/
theorem halPcdRxflvl_unchanged (s : Device) (p : OutPacket) {i : Nat}
    (hi : i ∉ rxflvlStores s p) : (halPcdRxflvl s p).rndisRxBuffer i = s.rndisRxBuffer i := by
  rw [rxflvlStores_eq, List.mem_range'_1, not_and_or, Nat.not_le, Nat.not_lt] at hi
  unfold halPcdRxflvl
  split
  next => exact s.rndisRxBuffer.write_of_notMem hi
  next => rfl

/-- Over a whole receive the buffer changes only at the indices collected. -/
theorem run_unchanged {pkts : List OutPacket} (hrun : bulkOut.run r pkts = some t) {i : Nat}
    (hi : i ∉ t.stored) : t.device.rndisRxBuffer i = r.device.rndisRxBuffer i := by
  have hreach : bulkOut.Reaches r t := ⟨pkts, hrun⟩
  refine hreach.invariant
    (I := fun u => i ∉ u.stored → u.device.rndisRxBuffer i = r.device.rndisRxBuffer i)
    ?_ (fun _ => rfl) hi
  intro u p v hstep hu hv
  obtain ⟨-, rfl⟩ := takePacket_eq_some.mp hstep
  obtain ⟨hbefore, hnow⟩ := not_or.mp (mt List.mem_append.mpr hv)
  exact (halPcdRxflvl_unchanged u.device p hnow).trans (hu hbefore)

/-! ## What a receive stores -/

/-- `k` full packets have been taken. -/
structure Filling (k : Nat) (r : Receiving) : Prop where
  xferBuff_eq : r.device.outEp.xferBuff = rndisDataOutSz * k
  pktcnt_add : r.pktcnt + k = wholePackets + 1
  xfrsiz_eq : r.xfrsiz = rndisDataOutSz * r.pktcnt

/-- Behind a full packet there is one more. -/
theorem Filling.full (h : Filling k r) (hcount : 0 < r.pktcnt)
    (hfull : p.data.length = rndisDataOutSz) : Filling (k + 1) (afterPacket r p) where
  xferBuff_eq := by rw [afterPacket_xferBuff, h.xferBuff_eq, hfull, Nat.mul_add_one]
  pktcnt_add := by
    have hadd := h.pktcnt_add
    change r.pktcnt - 1 + (k + 1) = _
    omega
  xfrsiz_eq := by
    change r.xfrsiz - p.data.length = rndisDataOutSz * (r.pktcnt - 1)
    rw [h.xfrsiz_eq, hfull, Nat.mul_sub_one]

theorem forall_mem_range'_lt {start len bound : Nat} :
    (∀ a ∈ List.range' start len, a < bound) ↔ len = 0 ∨ start + len ≤ bound := by
  simp only [List.mem_range'_1]
  constructor
  · intro h
    rcases Nat.eq_zero_or_pos len with hzero | hpos
    · exact .inl hzero
    · have hlast := h (start + len - 1) (by omega)
      omega
  · intro h a ha
    omega

/-- The packets before the last stay inside, and the last does in its whole words. -/
theorem Filling.stores_iff (h : Filling k r) (hcount : 0 < r.pktcnt) (p : OutPacket) :
    (∀ a ∈ rxflvlStores r.device p, a < rndisRxBufferSize) ↔
      (k = wholePackets → p.data.length ≤ roomBehind) := by
  have hadd := h.pktcnt_add
  have hle := p.le_mps
  rw [rxflvlStores_eq, forall_mem_range'_lt, h.xferBuff_eq, List.length_append, p.whole_words]
  simp only [wholePackets, roomBehind, rndisRxBufferSize, ethMaxPacketSize, ethHeaderSize, ethMtu,
    rndisHeaderSize, rndisDataOutSz] at *
  omega

theorem staysInside_afterPacket :
    StaysInside (afterPacket r p) ↔
      StaysInside r ∧ ∀ a ∈ rxflvlStores r.device p, a < rndisRxBufferSize :=
  List.forall_mem_append

/-- Nothing is taken once the receive has ended. -/
theorem run_ended {pkts : List OutPacket} (hended : ¬ r.device.outEp.enabled = true)
    (hrun : bulkOut.run r pkts = some t) : pkts = [] ∧ t = r := by
  cases pkts with
  | nil => exact ⟨rfl, (Option.some.inj hrun).symm⟩
  | cons p pkts =>
      obtain ⟨u, hu, -⟩ := Machine.run_cons.mp hrun
      exact absurd (takePacket_eq_some.mp hu).1.2.1 hended

/-- A receive stays inside when the packet behind the whole ones fits. -/
theorem Filling.run_iff (h : Filling k r) {pkts : List OutPacket}
    (hrun : bulkOut.run r pkts = some t) :
    StaysInside t ↔
      StaysInside r ∧ ∀ p ∈ pkts[wholePackets - k]?, p.data.length ≤ roomBehind := by
  -- by induction on the packets: each one but the last is full
  induction pkts generalizing k r with
  | nil =>
      cases Option.some.inj hrun
      simp
  | cons p pkts ih =>
      obtain ⟨u, hu, hrest⟩ := Machine.run_cons.mp hrun
      obtain ⟨⟨-, -, hcount, -⟩, rfl⟩ := takePacket_eq_some.mp hu
      have hstores := h.stores_iff hcount p
      have hadd := h.pktcnt_add
      by_cases hmore : (afterPacket r p).device.outEp.enabled = true
      · obtain ⟨hfull, hleft⟩ := afterPacket_enabled hmore
        have hnext := h.full hcount hfull
        have hadd' := hnext.pktcnt_add
        have hindex : wholePackets - k = wholePackets - (k + 1) + 1 := by omega
        have hinside := hstores.mpr fun hk => absurd hk (by omega)
        rw [ih hnext hrest, staysInside_afterPacket, hindex, List.getElem?_cons_succ]
        exact and_congr_left' (and_iff_left hinside)
      · obtain ⟨rfl, rfl⟩ := run_ended hmore hrest
        rw [staysInside_afterPacket, hstores]
        refine and_congr_right fun _ => ?_
        rcases Nat.eq_zero_or_pos (wholePackets - k) with hlast | hbefore
        · have hk : k = wholePackets := by omega
          simp [hk]
        · have hk : k ≠ wholePackets := by omega
          obtain ⟨n, hn⟩ := Nat.exists_eq_succ_of_ne_zero (Nat.ne_of_gt hbefore)
          simp [hk, hn]

/-- The endpoint accepts full packets and one more, up to the count programmed. -/
theorem Filling.run_full (h : Filling k r) (hopen : r.device.outEp.isOpen = true)
    (henabled : r.device.outEp.enabled = true) {pkts : List OutPacket}
    (hfull : ∀ p ∈ pkts, p.data.length = rndisDataOutSz) (hlen : k + pkts.length ≤ wholePackets)
    (p : OutPacket) : ∃ t, bulkOut.run r (pkts ++ [p]) = some t := by
  induction pkts generalizing k r with
  | nil =>
      refine ⟨afterPacket r p, Machine.run_cons.mpr ⟨_, takePacket_eq_some.mpr ⟨?_, rfl⟩, rfl⟩⟩
      have hadd := h.pktcnt_add
      have hsize := h.xfrsiz_eq
      have hle := p.le_mps
      simp only [List.length_nil, rndisDataOutSz] at *
      exact ⟨hopen, henabled, by omega, by omega⟩
  | cons q pkts ih =>
      rw [List.length_cons] at hlen
      have hadd := h.pktcnt_add
      have hcount : 0 < r.pktcnt := by omega
      have hq := hfull q (.head _)
      have hnext := h.full hcount hq
      have hadd' := hnext.pktcnt_add
      have hleft : 0 < (afterPacket r q).pktcnt := by omega
      have hsize : 0 < (afterPacket r q).xfrsiz := by
        rw [hnext.xfrsiz_eq]
        exact Nat.mul_pos (by decide) hleft
      have hstep : bulkOut.step r q = some (afterPacket r q) := by
        refine takePacket_eq_some.mpr ⟨⟨hopen, henabled, hcount, ?_⟩, rfl⟩
        rw [hq, h.xfrsiz_eq]
        exact Nat.le_mul_of_pos_right _ hcount
      have hopen' : (afterPacket r q).device.outEp.isOpen = true := by
        obtain ⟨m, -, -, heq⟩ := halPcdRxflvl_eq r.device q
        simp only [afterPacket, heq, hopen]
      have henabled' : (afterPacket r q).device.outEp.enabled = true := by
        change (decide _ && decide _ && decide _) = true
        simp only [Bool.and_eq_true, decide_eq_true_eq]
        exact ⟨⟨hq, hleft⟩, hsize⟩
      obtain ⟨t, hrun⟩ := ih hnext hopen' henabled' (fun p hp => hfull p (.tail _ hp)) (by omega)
      exact ⟨t, Machine.run_cons.mpr ⟨_, hstep, hrun⟩⟩

/-- The receive `rndis_rx_start` arms has taken nothing. -/
theorem armed_filling (doeptsiz : UInt32) {s : Device} (harm : (rndisRxStart s).1 = true) :
    Filling 0 (armed doeptsiz s) := by
  have hidle : s.rndisRxStarted = false := by
    rw [rndisRxStart] at harm
    split at harm
    next => exact Bool.noConfusion harm
    next h => exact Bool.eq_false_iff.mpr h
  have hstart := rndisRxStart_idle hidle
  constructor
  · rw [armed, hstart]
    rfl
  · rw [armed, hstart]
    exact pktcntField_armed doeptsiz
  · rw [armed, hstart]
    exact (xfrsizField_armed doeptsiz).trans
      (congrArg (rndisDataOutSz * ·) (pktcntField_armed doeptsiz).symm)

/-- A receive stays inside `rndis_rx_buffer` exactly when its twenty-fifth packet is
missing or short enough. -/
theorem staysInside_iff (doeptsiz : UInt32) {s : Device} (harm : (rndisRxStart s).1 = true)
    {pkts : List OutPacket} {t : Receiving}
    (hrun : bulkOut.run (armed doeptsiz s) pkts = some t) : StaysInside t ↔ LastFits pkts := by
  have h := (armed_filling doeptsiz harm).run_iff hrun
  have hnone : StaysInside (armed doeptsiz s) := fun a ha => absurd ha List.not_mem_nil
  rw [h, and_iff_right hnone]
  rfl

/-! ## A full transfer -/

/-- A packet of `n` octets of zero. -/
def zeroPacket (n : Nat) (hle : n ≤ rndisDataOutSz) : OutPacket where
  data := List.replicate n 0
  tail := List.replicate (4 * ((n + 3) / 4) - n) 0
  le_mps := by rwa [List.length_replicate]
  whole_words := by
    rw [List.length_replicate, List.length_replicate]
    omega

/-- Twenty-four full packets, and one of `n` octets. -/
def longTransfer (n : Nat) (hle : n ≤ rndisDataOutSz) : List OutPacket :=
  List.replicate wholePackets (zeroPacket rndisDataOutSz (Nat.le_refl _)) ++ [zeroPacket n hle]

/-- A device whose endpoints have been opened. -/
def opened : Device := usbdLLOpenEP Device.powerOn

theorem longTransfer_accepted (n : Nat) (hle : n ≤ rndisDataOutSz) :
    ∃ t, bulkOut.run (armed 0 opened) (longTransfer n hle) = some t := by
  refine (armed_filling 0 rfl).run_full rfl rfl ?_ (by rw [List.length_replicate]; omega) _
  intro p hp
  rw [List.eq_of_mem_replicate hp]
  exact List.length_replicate

/-- With 20 octets in the last packet the transfer stays inside. -/
theorem staysInside_longTransfer :
    (rndisRxStart opened).1 = true ∧
      ∃ t, bulkOut.run (armed 0 opened) (longTransfer 20 (by decide)) = some t ∧
        StaysInside t := by
  obtain ⟨t, hrun⟩ := longTransfer_accepted 20 (by decide)
  refine ⟨rfl, t, hrun, (staysInside_iff 0 rfl hrun).mpr fun p hp => ?_⟩
  obtain rfl : p = zeroPacket 20 (by decide) := Option.mem_unique hp rfl
  decide

/-- With a full packet at the end it does not. -/
theorem not_staysInside_longTransfer :
    (rndisRxStart opened).1 = true ∧
      ∃ t, bulkOut.run (armed 0 opened) (longTransfer 64 (by decide)) = some t ∧
        ¬ StaysInside t := by
  obtain ⟨t, hrun⟩ := longTransfer_accepted 64 (by decide)
  refine ⟨rfl, t, hrun, fun hinside => ?_⟩
  have hlast := (((armed_filling 0 rfl).run_iff hrun).mp hinside).2
  exact absurd (hlast (zeroPacket 64 (by decide)) rfl) (by decide)

end Adhoc
