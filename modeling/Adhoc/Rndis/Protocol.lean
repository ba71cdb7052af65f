import Adhoc.Lib.Mem

/-!
# The RNDIS data message

`rndis_data_packet_t` is the 44-octet header in front of every Ethernet frame on
the bulk endpoints.  It is eleven 32-bit words, least significant octet first.
`RndisDataPacket.ofMem` reads a header from a memory, `toBytes` lays one out, and
`ofMem_of_read` says the two agree.

The sizes are those of `usbd_rndis.h` and `usbd_conf.h`.  They are numbers here,
and each use converts them to the width the C expression has.
-/

namespace Adhoc

open ByteMem

/-! ## Sizes -/

/-- `ETH_HEADER_SIZE`. -/
@[simp] def ethHeaderSize : Nat := 14

/-- `ETH_MTU`. -/
@[simp] def ethMtu : Nat := 1500

/-- `ETH_MAX_PACKET_SIZE`. -/
@[simp] def ethMaxPacketSize : Nat := ethHeaderSize + ethMtu

/-- `RNDIS_HEADER_SIZE`, the size of `rndis_data_packet_t`. -/
@[simp] def rndisHeaderSize : Nat := 44

/-- `RNDIS_RX_BUFFER_SIZE`. -/
@[simp] def rndisRxBufferSize : Nat := ethMaxPacketSize + rndisHeaderSize

/-- `RNDIS_DATA_IN_SZ`. -/
@[simp] def rndisDataInSz : Nat := 64

/-- `RNDIS_DATA_OUT_SZ`. -/
@[simp] def rndisDataOutSz : Nat := 64

/-- `RNDIS_DATA_IN_EP`. -/
def rndisDataInEp : UInt8 := 0x82

/-- `RNDIS_DATA_OUT_EP`. -/
def rndisDataOutEp : UInt8 := 0x03

/-- `REMOTE_NDIS_PACKET_MSG`. -/
def remoteNdisPacketMsg : UInt32 := 0x00000001

/-- `offsetof(rndis_data_packet_t, DataOffset)`. -/
@[simp] def offsetofDataOffset : Nat := 8

/-! ## The header -/

/-- `rndis_data_packet_t`. -/
structure RndisDataPacket where
  messageType : UInt32
  messageLength : UInt32
  dataOffset : UInt32
  dataLength : UInt32
  oobDataOffset : UInt32
  oobDataLength : UInt32
  numOOBDataElements : UInt32
  perPacketInfoOffset : UInt32
  perPacketInfoLength : UInt32
  deviceVcHandle : UInt32
  reserved : UInt32

/-- The header a pointer to `off` points at. -/
def RndisDataPacket.ofMem (m : Mem) (off : Nat) : RndisDataPacket where
  messageType := m.word off
  messageLength := m.word (off + 4)
  dataOffset := m.word (off + 8)
  dataLength := m.word (off + 12)
  oobDataOffset := m.word (off + 16)
  oobDataLength := m.word (off + 20)
  numOOBDataElements := m.word (off + 24)
  perPacketInfoOffset := m.word (off + 28)
  perPacketInfoLength := m.word (off + 32)
  deviceVcHandle := m.word (off + 36)
  reserved := m.word (off + 40)

/-- The octets of a header. -/
def RndisDataPacket.toBytes (h : RndisDataPacket) : List UInt8 :=
  wordBytes h.messageType ++ wordBytes h.messageLength ++ wordBytes h.dataOffset ++
    wordBytes h.dataLength ++ wordBytes h.oobDataOffset ++ wordBytes h.oobDataLength ++
    wordBytes h.numOOBDataElements ++ wordBytes h.perPacketInfoOffset ++
    wordBytes h.perPacketInfoLength ++ wordBytes h.deviceVcHandle ++ wordBytes h.reserved

@[simp] theorem RndisDataPacket.length_toBytes (h : RndisDataPacket) :
    h.toBytes.length = rndisHeaderSize := rfl

/-- The header `rndis_tx_start` builds for a frame of `size` octets. -/
def RndisDataPacket.ofSize (size : UInt16) : RndisDataPacket where
  messageType := remoteNdisPacketMsg
  messageLength := .ofNat rndisHeaderSize + size.toUInt32
  dataOffset := .ofNat rndisHeaderSize - .ofNat offsetofDataOffset
  dataLength := size.toUInt32
  oobDataOffset := 0
  oobDataLength := 0
  numOOBDataElements := 0
  perPacketInfoOffset := 0
  perPacketInfoLength := 0
  deviceVcHandle := 0
  reserved := 0

/-- The words of a header. -/
def RndisDataPacket.words (h : RndisDataPacket) : List UInt32 :=
  [h.messageType, h.messageLength, h.dataOffset, h.dataLength, h.oobDataOffset, h.oobDataLength,
    h.numOOBDataElements, h.perPacketInfoOffset, h.perPacketInfoLength, h.deviceVcHandle,
    h.reserved]

theorem RndisDataPacket.toBytes_eq (h : RndisDataPacket) :
    h.toBytes = h.words.flatMap wordBytes := by
  simp only [RndisDataPacket.toBytes, RndisDataPacket.words, List.flatMap_cons, List.flatMap_nil,
    List.append_nil, List.append_assoc]

/-- A memory that holds the octets of a header holds its words. -/
theorem RndisDataPacket.ofMem_of_read {m : Mem} {off : Nat} {h : RndisDataPacket}
    (hread : m.read off rndisHeaderSize = h.toBytes) : RndisDataPacket.ofMem m off = h := by
  have hwords : m.read off (4 * h.words.length) = h.words.flatMap wordBytes :=
    hread.trans h.toBytes_eq
  have hword : ∀ k (hk : k < 11), m.word (off + 4 * k) = h.words.get ⟨k, hk⟩ := fun k hk =>
    Mem.word_of_read_flatMap hwords hk
  simp only [RndisDataPacket.ofMem]
  obtain ⟨w₀, w₁, w₂, w₃, w₄, w₅, w₆, w₇, w₈, w₉, w₁₀⟩ := h
  simp only [RndisDataPacket.mk.injEq]
  exact ⟨hword 0 (by decide), hword 1 (by decide), hword 2 (by decide), hword 3 (by decide),
    hword 4 (by decide), hword 5 (by decide), hword 6 (by decide), hword 7 (by decide),
    hword 8 (by decide), hword 9 (by decide), hword 10 (by decide)⟩

end Adhoc
