import Mathlib.Data.List.Forall2
import Adhoc.Rndis.Device

/-!
# What the transmit path puts on the endpoint

One frame travels as one message, cut into transfers.  The first is the whole of
`first`, 64 octets: the header, the first 20 octets of the frame and, behind a
shorter frame, whatever `first` held there before.  The second is the rest of the
frame.  A message whose length is a multiple of 64 ends with an empty transfer.

`rndis_tx_start` hands over the first transfer and `usbd_rndis_data_in` one more
at each completion.  What is left to hand over is a function of the state,
`remaining`, and `usbd_rndis_data_in` takes its head (`usbdRndisDataIn_cons`) or
finds it empty and ends the message (`usbdRndisDataIn_nil`).
-/

namespace Adhoc

open ByteMem

/-! ## Messages -/

/-- The transfers of the frame `f`, with `stale` behind it in the first. -/
def messageTransfers (f stale : List UInt8) : List (List UInt8) :=
  ((RndisDataPacket.ofSize (.ofNat f.length)).toBytes ++ f.take 20 ++ stale) ::
    ((if 20 < f.length then [f.drop 20] else []) ++
      (if (rndisHeaderSize + f.length) % rndisDataInSz = 0 then [[]] else []))

/-- The transfers `ts` are one message that carries `f`: its octets are the
header, the frame, and nothing but stale octets behind it. -/
def Carries (f : List UInt8) (ts : List (List UInt8)) : Prop :=
  ∃ stale, ts = messageTransfers f stale ∧
    ts.flatten = (RndisDataPacket.ofSize (.ofNat f.length)).toBytes ++ f ++ stale

/-- The transfers `ts` are one message for each frame, in order. -/
def Delivered (fs : List (List UInt8)) (ts : List (List UInt8)) : Prop :=
  ∃ msgs : List (List (List UInt8)), ts = msgs.flatten ∧ List.Forall₂ Carries fs msgs

/-- The octets of the transfers. -/
theorem flatten_messageTransfers {f stale : List UInt8} (h : stale.length = 20 - f.length) :
    (messageTransfers f stale).flatten =
      (RndisDataPacket.ofSize (.ofNat f.length)).toBytes ++ f ++ stale := by
  have hzlp : (if (rndisHeaderSize + f.length) % rndisDataInSz = 0 then [([] : List UInt8)]
      else []).flatten = [] := by
    split <;> rfl
  rw [messageTransfers, List.flatten_cons, List.flatten_append, hzlp, List.append_nil]
  by_cases hlong : 20 < f.length
  · have hstale : stale = [] := List.length_eq_zero_iff.mp (by omega)
    rw [if_pos hlong, hstale, List.flatten_singleton, List.append_nil, List.append_nil,
      List.append_assoc, List.take_append_drop]
  · rw [if_neg hlong, List.flatten_nil, List.append_nil, List.take_of_length_le (by omega)]

theorem carries_messageTransfers {f stale : List UInt8} (h : stale.length = 20 - f.length) :
    Carries f (messageTransfers f stale) :=
  ⟨stale, rfl, flatten_messageTransfers h⟩

theorem Delivered.nil : Delivered [] [] := ⟨[], rfl, .nil⟩

theorem Delivered.concat {fs ts : List (List UInt8)} {f : List UInt8} {ts' : List (List UInt8)}
    (h : Delivered fs ts) (hf : Carries f ts') : Delivered (fs ++ [f]) (ts ++ ts') := by
  obtain ⟨msgs, rfl, hall⟩ := h
  refine ⟨msgs ++ [ts'], by simp, ?_⟩
  exact List.rel_append hall (.cons hf .nil)

/-! ## One completion -/

/-- The rest of the frame, if it is still to be handed over. -/
def restOfFrame (s : Device) : List (List UInt8) :=
  match s.rndisTxPtr, decide (s.rndisTxDataSize ≠ 0) with
  | some ptr, true => [s.txMem.read ptr s.rndisTxDataSize.toNat]
  | _, _ => []

/-- The transfers of the current message still to be handed over. -/
def remaining (s : Device) : List (List UInt8) :=
  restOfFrame s ++ (if s.rndisTxZLP then [[]] else [])

theorem restOfFrame_more {s : Device} {ptr : Nat} (hptr : s.rndisTxPtr = some ptr)
    (hsize : s.rndisTxDataSize ≠ 0) :
    restOfFrame s = [s.txMem.read ptr s.rndisTxDataSize.toNat] := by
  rw [restOfFrame, hptr, decide_eq_true hsize]

theorem restOfFrame_done {s : Device} (h : s.rndisTxDataSize = 0) : restOfFrame s = [] := by
  have hsize : decide (s.rndisTxDataSize ≠ 0) = false := decide_eq_false (not_not.mpr h)
  cases hptr : s.rndisTxPtr with
  | none => rw [restOfFrame, hptr]
  | some ptr => rw [restOfFrame, hptr, hsize]

/-- The rest of the frame is one transfer. -/
theorem restOfFrame_eq_cons {s : Device} {b : List UInt8} {bs : List (List UInt8)}
    (h : restOfFrame s = b :: bs) :
    bs = [] ∧ ∃ ptr, s.rndisTxPtr = some ptr ∧ s.rndisTxDataSize ≠ 0 ∧
      b = s.txMem.read ptr s.rndisTxDataSize.toNat := by
  by_cases hsize : s.rndisTxDataSize = 0
  · rw [restOfFrame_done hsize] at h
    cases h
  · cases hptr : s.rndisTxPtr with
    | none =>
        rw [restOfFrame, hptr] at h
        cases h
    | some ptr =>
        rw [restOfFrame_more hptr hsize] at h
        obtain ⟨rfl, rfl⟩ := List.cons.inj h
        exact ⟨rfl, ptr, rfl, hsize, rfl⟩

/-- `usbd_rndis_data_in` hands over the rest of the frame. -/
theorem usbdRndisDataIn_more {s : Device} {ptr : Nat} (hptr : s.rndisTxPtr = some ptr)
    (hsize : s.rndisTxDataSize ≠ 0) :
    usbdRndisDataIn rndisDataInEp s =
      { usbdLLTransmit (s.txMem.read ptr s.rndisTxDataSize.toNat) s with
        rndisTxDataSize := 0
        rndisTxPtr := none } := by
  rw [usbdRndisDataIn, if_pos rfl, hptr, decide_eq_true hsize]

/-- `usbd_rndis_data_in` with no frame left. -/
theorem usbdRndisDataIn_done {s : Device} (h : restOfFrame s = []) :
    usbdRndisDataIn rndisDataInEp s =
      if s.rndisTxZLP then { usbdLLTransmit [] s with rndisTxZLP := false }
      else
        { s with
          txbad := s.txbad - 1
          txok := s.txok + 1
          rndisTxTransmitting := false } := by
  by_cases hsize : s.rndisTxDataSize = 0
  · have hdone : decide (s.rndisTxDataSize ≠ 0) = false := decide_eq_false (not_not.mpr hsize)
    cases hptr : s.rndisTxPtr with
    | none => rw [usbdRndisDataIn, if_pos rfl, hptr]
    | some ptr => rw [usbdRndisDataIn, if_pos rfl, hptr, hdone]
  · cases hptr : s.rndisTxPtr with
    | none => rw [usbdRndisDataIn, if_pos rfl, hptr]
    | some ptr =>
        rw [restOfFrame_more hptr hsize] at h
        cases h

/-- What a completion leaves alone. -/
structure SameOutsideTx (s t : Device) : Prop where
  txMem : t.txMem = s.txMem
  txok : t.txok = s.txok
  txbad : t.txbad = s.txbad
  transmitting : t.rndisTxTransmitting = s.rndisTxTransmitting

/-- A completion in the middle of a message hands over its next transfer. -/
theorem usbdRndisDataIn_cons {s : Device} {b : List UInt8} {ts : List (List UInt8)}
    (h : remaining s = b :: ts) :
    remaining (usbdRndisDataIn rndisDataInEp s) = ts ∧
      (usbdRndisDataIn rndisDataInEp s).sent = s.sent ++ [b] ∧
      (usbdRndisDataIn rndisDataInEp s).inEnabled = true ∧
      SameOutsideTx s (usbdRndisDataIn rndisDataInEp s) := by
  cases hrest : restOfFrame s with
  | cons b' bs =>
      obtain ⟨rfl, ptr, hptr, hsize, rfl⟩ := restOfFrame_eq_cons hrest
      rw [remaining, hrest] at h
      obtain ⟨rfl, rfl⟩ := List.cons.inj h
      rw [usbdRndisDataIn_more hptr hsize]
      exact ⟨rfl, rfl, rfl, rfl, rfl, rfl, rfl⟩
  | nil =>
      rw [remaining, hrest, List.nil_append] at h
      cases hzlp : s.rndisTxZLP with
      | false =>
          rw [hzlp] at h
          cases h
      | true =>
          rw [hzlp] at h
          obtain ⟨rfl, rfl⟩ := List.cons.inj h
          rw [usbdRndisDataIn_done hrest, if_pos hzlp]
          refine ⟨?_, rfl, rfl, rfl, rfl, rfl, rfl⟩
          exact (List.append_nil _).trans hrest

/-- A completion with nothing left ends the message. -/
theorem usbdRndisDataIn_nil {s : Device} (h : remaining s = []) :
    usbdRndisDataIn rndisDataInEp s =
      { s with
        txbad := s.txbad - 1
        txok := s.txok + 1
        rndisTxTransmitting := false } := by
  obtain ⟨hrest, hzlp⟩ := List.append_eq_nil_iff.mp h
  have hflag : s.rndisTxZLP = false := by
    cases hz : s.rndisTxZLP with
    | false => rfl
    | true =>
        rw [hz] at hzlp
        cases hzlp
  rw [usbdRndisDataIn_done hrest, hflag, if_neg Bool.false_ne_true]

/-! ## Starting -/

theorem toNat_sended (size : UInt16) : (sended size).toNat = min 20 size.toNat := by
  unfold sended
  split
  next h =>
    have h' : size.toNat < 20 := h
    omega
  next h =>
    have h' : ¬ size.toNat < 20 := h
    have h20 : (UInt16.ofNat (rndisDataInSz - rndisHeaderSize)).toNat = 20 := rfl
    omega

/-- The message length of a frame the transmitter takes. -/
theorem toNat_messageLength {n : Nat} (h : n ≤ ethMaxPacketSize) :
    (RndisDataPacket.ofSize (.ofNat n)).messageLength.toNat = rndisHeaderSize + n := by
  simp only [ethMaxPacketSize, ethHeaderSize, ethMtu] at h
  simp only [RndisDataPacket.ofSize, UInt32.toNat_add, UInt32.toNat_ofNat', UInt16.toNat_toUInt32,
    UInt16.toNat_ofNat', rndisHeaderSize]
  omega

theorem needsZLP_ofNat {n : Nat} (h : n ≤ ethMaxPacketSize) :
    needsZLP (.ofNat n) = decide ((rndisHeaderSize + n) % rndisDataInSz = 0) := by
  have hmod : ((RndisDataPacket.ofSize (.ofNat n)).messageLength % .ofNat rndisDataInSz).toNat =
      (rndisHeaderSize + n) % rndisDataInSz := by
    rw [UInt32.toNat_mod, toNat_messageLength h]
    rfl
  rw [needsZLP, decide_eq_decide, ← hmod]
  exact UInt32.toNat_inj.symm

/-- `first` holds the header of the frame `f` and the octets behind it. -/
def FirstFilled (f : List UInt8) (first : Mem) : Prop :=
  ∃ stale, stale.length = 20 - f.length ∧ first.read 0 rndisDataInSz =
    (RndisDataPacket.ofSize (.ofNat f.length)).toBytes ++ f.take 20 ++ stale

/-- What is set up for the frame `f` at `data` just before the first transfer is
handed over. -/
structure Ready (data : Nat) (f : List UInt8) (s : Device) : Prop where
  first_eq : FirstFilled f s.first
  ptr_eq : s.rndisTxPtr = some (data + (sended (.ofNat f.length)).toNat)
  size_eq : s.rndisTxDataSize = .ofNat f.length - sended (.ofNat f.length)
  zlp_eq : s.rndisTxZLP = needsZLP (.ofNat f.length)
  frame_eq : s.txMem.read data f.length = f

/-- A header and a piece of a frame behind it, in a buffer of 64 octets. -/
theorem read_first {m : Mem} {hdr body : List UInt8} (hhdr : m.read 0 rndisHeaderSize = hdr)
    (hbody : body.length ≤ 20) : ∃ stale, stale.length = 20 - body.length ∧
      (m.write rndisHeaderSize body).read 0 rndisDataInSz = hdr ++ body ++ stale := by
  refine ⟨m.read (rndisHeaderSize + body.length) (20 - body.length), Mem.length_read .., ?_⟩
  have hsplit : rndisDataInSz = rndisHeaderSize + body.length + (20 - body.length) := by
    simp only [rndisDataInSz, rndisHeaderSize]
    omega
  rw [hsplit, Mem.read_add, Mem.read_add, Nat.zero_add, Nat.zero_add, Mem.read_write_self,
    Mem.read_write_disjoint _ (.inl (by omega)), Mem.read_write_disjoint _ (.inr (by omega)), hhdr]

theorem toNat_sended_ofNat {n : Nat} (h : n ≤ ethMaxPacketSize) :
    (sended (.ofNat n)).toNat = min 20 n := by
  simp only [ethMaxPacketSize, ethHeaderSize, ethMtu] at h
  rw [toNat_sended, UInt16.toNat_ofNat']
  omega

/-- The second `memcpy` of `rndis_tx_start` fills `first`. -/
theorem firstFilled_write {m first : Mem} {data : Nat} {f : List UInt8}
    (hle : f.length ≤ ethMaxPacketSize) (hframe : m.read data f.length = f)
    (hhdr : first.read 0 rndisHeaderSize = (RndisDataPacket.ofSize (.ofNat f.length)).toBytes) :
    FirstFilled f (first.write rndisHeaderSize (m.read data (sended (.ofNat f.length)).toNat)) := by
  have hbody : m.read data (sended (.ofNat f.length)).toNat = f.take 20 := by
    rw [toNat_sended_ofNat hle, show min 20 f.length = (f.take 20).length by simp]
    have hcut : f.length = (f.take 20).length + (f.drop 20).length := by simp; omega
    rw [hcut, Mem.read_add] at hframe
    exact (List.append_inj (hframe.trans (List.take_append_drop 20 f).symm) (by simp)).1
  obtain ⟨stale, hstale, hread⟩ := read_first hhdr (List.length_take_le 20 f)
  refine ⟨stale, ?_, ?_⟩
  · rw [hstale, List.length_take]
    omega
  · rw [hbody, hread]

/-- What is left of the frame behind the first transfer. -/
theorem Ready.restOfFrame_eq {data : Nat} {f : List UInt8} {s : Device} (h : Ready data f s)
    (hlen : f.length ≤ ethMaxPacketSize) :
    restOfFrame s = if 20 < f.length then [f.drop 20] else [] := by
  have hsended := toNat_sended_ofNat hlen
  simp only [ethMaxPacketSize, ethHeaderSize, ethMtu] at hlen
  have hsize : (UInt16.ofNat f.length).toNat = f.length := by
    rw [UInt16.toNat_ofNat']
    omega
  have hleft : s.rndisTxDataSize.toNat = f.length - min 20 f.length := by
    rw [h.size_eq, UInt16.toNat_sub_of_le _ _ (UInt16.le_iff_toNat_le.mpr (by omega)), hsize,
      hsended]
  by_cases hlong : 20 < f.length
  · have hmin : min 20 f.length = 20 := by omega
    have hne : s.rndisTxDataSize ≠ 0 := fun h0 => by
      rw [h0, UInt16.toNat_zero] at hleft
      omega
    have hread : s.txMem.read (data + 20) (f.length - 20) = f.drop 20 := by
      have hall := h.frame_eq
      rw [show f.length = 20 + (f.length - 20) by omega, Mem.read_add] at hall
      nth_rewrite 2 [← hall]
      exact (List.drop_left' (Mem.length_read ..)).symm
    rw [if_pos hlong, restOfFrame, h.ptr_eq, hsended, hmin, decide_eq_true hne]
    simp only [hleft, hmin, hread]
  · rw [if_neg hlong]
    exact restOfFrame_done (UInt16.toNat_inj.mp (by rw [hleft, UInt16.toNat_zero]; omega))

/-- The first transfer and what is left behind it are the message of the frame. -/
theorem Ready.messageTransfers_eq {data : Nat} {f : List UInt8} {s : Device} (h : Ready data f s)
    (hlen : f.length ≤ ethMaxPacketSize) : ∃ stale, stale.length = 20 - f.length ∧
      s.first.read 0 rndisDataInSz :: remaining s = messageTransfers f stale := by
  obtain ⟨stale, hstale, hfirst⟩ := h.first_eq
  refine ⟨stale, hstale, ?_⟩
  rw [remaining, h.restOfFrame_eq hlen, hfirst, h.zlp_eq, needsZLP_ofNat hlen]
  simp only [decide_eq_true_eq]
  rfl

theorem Ready.carries {data : Nat} {f : List UInt8} {s : Device} (h : Ready data f s)
    (hlen : f.length ≤ ethMaxPacketSize) :
    Carries f (s.first.read 0 rndisDataInSz :: remaining s) := by
  obtain ⟨stale, hstale, hts⟩ := h.messageTransfers_eq hlen
  exact hts ▸ carries_messageTransfers hstale

/-- The state in which `rndis_tx_start` hands over the first transfer. -/
def rndisTxLoad (data : Nat) (size : UInt16) (s : Device) : Device :=
  { s with
    rndisTxTransmitting := true
    rndisTxPtr := some (data + (sended size).toNat)
    rndisTxDataSize := size - sended size
    first := firstTransfer data size s
    rndisTxZLP := if needsZLP size then true else s.rndisTxZLP }

theorem rndisTxStart_accepts {data : Nat} {size : UInt16} {s : Device}
    (h : rndisTxRefuses size s = false) :
    rndisTxStart data size s =
      (true,
        { usbdLLTransmit ((rndisTxLoad data size s).first.read 0 rndisDataInSz)
            (rndisTxLoad data size s) with
          txbad := s.txbad + 1 }) := by
  rw [rndisTxStart, h]
  rfl

theorem rndisTxStart_refuses {data : Nat} {size : UInt16} {s : Device}
    (h : rndisTxRefuses size s = true) :
    rndisTxStart data size s = (false, { s with txbad := s.txbad + 1 }) := by
  rw [rndisTxStart, h]
  rfl

/-- The transmitter refuses a frame of a legal length only while it is busy. -/
theorem rndisTxRefuses_ofNat {n : Nat} (hpos : 1 ≤ n) (hle : n ≤ ethMaxPacketSize) (s : Device) :
    rndisTxRefuses (.ofNat n) s = s.rndisTxTransmitting := by
  simp only [ethMaxPacketSize, ethHeaderSize, ethMtu] at hle
  have hsize : (UInt16.ofNat n).toNat = n := by
    rw [UInt16.toNat_ofNat']
    omega
  have hmax : ¬ UInt16.ofNat n > .ofNat ethMaxPacketSize := fun h => by
    have h' : (1514 : Nat) < (UInt16.ofNat n).toNat := h
    omega
  have hzero : ¬ UInt16.ofNat n = 0 := fun h => by
    rw [h, UInt16.toNat_zero] at hsize
    omega
  simp only [rndisTxRefuses, decide_eq_false hmax, decide_eq_false hzero, Bool.or_false]

theorem ready_rndisTxLoad {data : Nat} {f : List UInt8} {s : Device}
    (hle : f.length ≤ ethMaxPacketSize) (hframe : s.txMem.read data f.length = f)
    (hzlp : s.rndisTxZLP = false) : Ready data f (rndisTxLoad data (.ofNat f.length) s) where
  first_eq := firstFilled_write hle hframe (s.first.read_write_self 0 _)
  ptr_eq := rfl
  size_eq := rfl
  zlp_eq := by
    show (if needsZLP (.ofNat f.length) then true else s.rndisTxZLP) = _
    rw [hzlp]
    cases needsZLP (.ofNat f.length) <;> rfl
  frame_eq := hframe

/-- An idle transmitter takes a frame and hands over its message. -/
theorem rndisTxStart_carries {data : Nat} {f : List UInt8} {s : Device}
    (hpos : 1 ≤ f.length) (hle : f.length ≤ ethMaxPacketSize)
    (hframe : s.txMem.read data f.length = f) (hidle : s.rndisTxTransmitting = false)
    (hzlp : s.rndisTxZLP = false) :
    (rndisTxStart data (.ofNat f.length) s).1 = true ∧
      ∃ b, (rndisTxStart data (.ofNat f.length) s).2.sent = s.sent ++ [b] ∧
        Carries f (b :: remaining (rndisTxStart data (.ofNat f.length) s).2) := by
  have haccepts : rndisTxRefuses (.ofNat f.length) s = false :=
    (rndisTxRefuses_ofNat hpos hle s).trans hidle
  rw [rndisTxStart_accepts haccepts]
  exact ⟨rfl, _, rfl, (ready_rndisTxLoad hle hframe hzlp).carries hle⟩

end Adhoc
