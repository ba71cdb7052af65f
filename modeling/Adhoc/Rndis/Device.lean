import Adhoc.Rndis.Protocol

/-!
# The RNDIS device

`Device` holds the file-level variables of `usbd_rndis.c`, the two bulk
endpoints as the OTG HAL keeps them, the configuration state of the USB device
library, and the memory `rndis_tx_ptr` points into.  Every function of the
source that moves one of them is a function on `Device` under its own name.

Three things are observed and not stored by the code.  `sent` is the sequence of
transfers handed to `USBD_LL_Transmit` on the data IN endpoint, `delivered` the
sequence of frames handed to `ethernet_input`, and an endpoint is *enabled*
while a transfer the device has started on it has not completed (`EPENA`).

A buffer has its first octet at address 0 of its own memory, so a pointer into
it is an index.
-/

namespace Adhoc

open ByteMem

/-! ## State -/

/-- The states of `pdev->dev_state` that the functions below distinguish. -/
inductive UsbdState where
  /-- `USBD_STATE_DEFAULT`. -/
  | default
  /-- `USBD_STATE_ADDRESSED`. -/
  | addressed
  /-- `USBD_STATE_CONFIGURED`. -/
  | configured
deriving DecidableEq, Repr

/-- A non-DMA OUT endpoint, `USB_OTG_EPTypeDef`. -/
structure OutEp where
  /-- The endpoint is active (`USBAEP`). -/
  isOpen : Bool := false
  /-- A receive is outstanding (`EPENA`). -/
  enabled : Bool := false
  /-- Where the next packet is stored, an index into the buffer armed. -/
  xferBuff : Nat := 0
  /-- The length armed. -/
  xferLen : UInt32 := 0
  /-- The octets received so far. -/
  xferCount : UInt32 := 0

/-- The device. -/
structure Device where
  /-- `usb_eth_stat`. -/
  txok : UInt32 := 0
  rxok : UInt32 := 0
  txbad : UInt32 := 0
  rxbad : UInt32 := 0
  /-- `rndis_tx_ptr`, an address of `txMem` or `NULL`. -/
  rndisTxPtr : Option Nat := none
  rndisTxDataSize : UInt16 := 0
  rndisTxTransmitting : Bool := false
  rndisTxZLP : Bool := false
  /-- The static `first` of `rndis_tx_start`. -/
  first : Mem := Mem.zero
  /-- The memory `rndis_tx_ptr` points into. -/
  txMem : Mem := Mem.zero
  rndisRxBuffer : Mem := Mem.zero
  rndisRxDataSize : UInt16 := 0
  rndisRxStarted : Bool := false
  /-- The data OUT endpoint. -/
  outEp : OutEp := {}
  /-- The data IN endpoint is active. -/
  inOpen : Bool := false
  /-- A transmit is outstanding on the data IN endpoint. -/
  inEnabled : Bool := false
  devState : UsbdState := .default
  devConfig : UInt8 := 0
  /-- The transfers handed to the data IN endpoint, oldest first. -/
  sent : List (List UInt8) := []
  /-- The frames handed to `ethernet_input`, oldest first. -/
  delivered : List (List UInt8) := []

/-- The state at power-on. -/
def Device.powerOn : Device := {}

/-! ## The OTG HAL -/

/-- What the FIFO yields for one bulk OUT packet: its octets, and the filling of
its last 32-bit word. -/
structure OutPacket where
  data : List UInt8
  tail : List UInt8
  /-- A packet is at most the endpoint's packet size. -/
  le_mps : data.length ≤ rndisDataOutSz
  /-- The FIFO is read in whole words. -/
  whole_words : data.length + tail.length = 4 * ((data.length + 3) / 4)

/-- `HAL_PCD_EP_Receive` on the data OUT endpoint. -/
def halPcdEpReceive (pBuf : Nat) (len : UInt32) (ep : OutEp) : OutEp :=
  { ep with xferBuff := pBuf, xferLen := len, xferCount := 0, enabled := true }

/-- `USB_ReadPacket`: the words of one packet, stored from `dest` on. -/
def usbReadPacket (dest : Nat) (p : OutPacket) (m : Mem) : Mem := m.write dest (p.data ++ p.tail)

/-- The RXFLVL branch of `HAL_PCD_IRQHandler` for one data packet. -/
def halPcdRxflvl (s : Device) (p : OutPacket) : Device :=
  if p.data.length ≠ 0 then
    { s with
      rndisRxBuffer := usbReadPacket s.outEp.xferBuff p s.rndisRxBuffer
      outEp := { s.outEp with
        xferBuff := s.outEp.xferBuff + p.data.length
        xferCount := s.outEp.xferCount + .ofNat p.data.length } }
  else s

/-- `USBD_LL_PrepareReceive` on the data OUT endpoint. -/
def usbdLLPrepareReceive (pBuf : Nat) (size : UInt16) (s : Device) : Device :=
  { s with outEp := halPcdEpReceive pBuf size.toUInt32 s.outEp }

/-- `USBD_LL_Transmit` on the data IN endpoint. -/
def usbdLLTransmit (bytes : List UInt8) (s : Device) : Device :=
  { s with inEnabled := true, sent := s.sent ++ [bytes] }

/-- `USBD_LL_OpenEP` on the two data endpoints. -/
def usbdLLOpenEP (s : Device) : Device :=
  { s with inOpen := true, outEp := { s.outEp with isOpen := true } }

/-- `USBD_LL_CloseEP` on the two data endpoints.  What was outstanding on them is
dropped. -/
def usbdLLCloseEP (s : Device) : Device :=
  { s with
    inOpen := false
    inEnabled := false
    outEp := { s.outEp with isOpen := false, enabled := false } }

/-! ## Receiving -/

/-- `rndis_rx_start`. -/
def rndisRxStart (s : Device) : Bool × Device :=
  if s.rndisRxStarted then (false, s)
  else (true, usbdLLPrepareReceive 0 (.ofNat rndisRxBufferSize) { s with rndisRxStarted := true })

/-- `rndis_rx_size`. -/
def rndisRxSize (s : Device) : UInt16 := if !s.rndisRxStarted then s.rndisRxDataSize else 0

/-- `rndis_rx_data`, an index into `rndis_rx_buffer` or `NULL`. -/
def rndisRxData (s : Device) : Option Nat :=
  if rndisRxSize s ≠ 0 then some rndisHeaderSize else none

/-- `handle_packet`.  The comparisons are those of C: `size` is an `int`, and
each of them converts it to an unsigned word. -/
def handlePacket (pheader : RndisDataPacket) (size : Int32) (s : Device) : Device :=
  if size.toUInt32 < .ofNat rndisHeaderSize then { s with rxbad := s.rxbad + 1 }
  else if pheader.messageType ≠ remoteNdisPacketMsg ∨
      (pheader.messageLength ≠ size.toUInt32 ∧ pheader.messageLength ≠ (size - 1).toUInt32) then
    { s with rxbad := s.rxbad + 1 }
  else
    let size := pheader.messageLength.toInt32
    if pheader.dataOffset + .ofNat offsetofDataOffset + pheader.dataLength ≠ size.toUInt32 then
      { s with rxbad := s.rxbad + 1 }
    else if !s.rndisRxStarted then { s with rxbad := s.rxbad + 1 }
    else
      { s with
        rndisRxDataSize := pheader.dataLength.toUInt16
        rndisRxStarted := false
        rxok := s.rxok + 1 }

/-- The size `usbd_rndis_data_out` computes from the endpoint. -/
def dataOutSize (ep : OutEp) : Int32 :=
  (UInt32.ofNat rndisRxBufferSize - ep.xferLen - .ofNat rndisDataOutSz + ep.xferCount).toInt32

/-- `usbd_rndis_data_out`. -/
def usbdRndisDataOut (epnum : UInt8) (s : Device) : Device :=
  if epnum = rndisDataOutEp then
    handlePacket (RndisDataPacket.ofMem s.rndisRxBuffer 0) (dataOutSize s.outEp) s
  else s

/-- `usb_polling`.  `alloc` says whether `pbuf_alloc` yields a pbuf. -/
def usbPolling (alloc : Bool) (s : Device) : Device :=
  match rndisRxData s with
  | none => s
  | some payload =>
      if !alloc then s
      else
        let frame := s.rndisRxBuffer.read payload (rndisRxSize s).toNat
        let s := (rndisRxStart s).2
        { s with delivered := s.delivered ++ [frame] }

/-! ## Transmitting -/

/-- `rndis_tx_start` refuses: the transmitter is busy, or the length is wrong. -/
def rndisTxRefuses (size : UInt16) (s : Device) : Bool :=
  s.rndisTxTransmitting || decide (size > .ofNat ethMaxPacketSize) || decide (size = 0)

/-- `sended`: the frame octets that travel in the first transfer. -/
def sended (size : UInt16) : UInt16 :=
  if .ofNat (rndisDataInSz - rndisHeaderSize) > size then size
  else .ofNat (rndisDataInSz - rndisHeaderSize)

/-- The contents of `first` when it is handed over. -/
def firstTransfer (data : Nat) (size : UInt16) (s : Device) : Mem :=
  (s.first.write 0 (RndisDataPacket.ofSize size).toBytes).write rndisHeaderSize
    (s.txMem.read data (sended size).toNat)

/-- A message of this length ends with a zero-length packet. -/
def needsZLP (size : UInt16) : Bool :=
  (RndisDataPacket.ofSize size).messageLength % .ofNat rndisDataInSz = 0

/-- `rndis_tx_start`. -/
def rndisTxStart (data : Nat) (size : UInt16) (s : Device) : Bool × Device :=
  if rndisTxRefuses size s then (false, { s with txbad := s.txbad + 1 })
  else
    let first := firstTransfer data size s
    let s := { s with
      rndisTxTransmitting := true
      rndisTxPtr := some (data + (sended size).toNat)
      rndisTxDataSize := size - sended size
      first := first
      rndisTxZLP := if needsZLP size then true else s.rndisTxZLP }
    let s := usbdLLTransmit (first.read 0 rndisDataInSz) s
    (true, { s with txbad := s.txbad + 1 })

/-- `rndis_tx_started`. -/
def rndisTxStarted (s : Device) : Bool := s.rndisTxTransmitting

/-- `usbd_rndis_data_in`. -/
def usbdRndisDataIn (epnum : UInt8) (s : Device) : Device :=
  if epnum &&& 0x0F = rndisDataInEp &&& 0x0F then
    match s.rndisTxPtr, decide (s.rndisTxDataSize ≠ 0) with
    | some ptr, true =>
        { usbdLLTransmit (s.txMem.read ptr s.rndisTxDataSize.toNat) s with
          rndisTxDataSize := 0
          rndisTxPtr := none }
    | _, _ =>
        if s.rndisTxZLP then { usbdLLTransmit [] s with rndisTxZLP := false }
        else
          { s with
            txbad := s.txbad - 1
            txok := s.txok + 1
            rndisTxTransmitting := false }
  else s

/-! ## Configuring -/

/-- `usbd_rndis_init`. -/
def usbdRndisInit (s : Device) : Device := (rndisRxStart (usbdLLOpenEP s)).2

/-- `usbd_rndis_deinit`. -/
def usbdRndisDeinit (s : Device) : Device := usbdLLCloseEP s

/-- `USBD_MAX_NUM_CONFIGURATION`. -/
def usbdMaxNumConfiguration : UInt8 := 1

/-- `USBD_SetConfig`. -/
def usbdSetConfig (cfgidx : UInt8) (s : Device) : Device :=
  if cfgidx > usbdMaxNumConfiguration then s
  else
    match s.devState with
    | .addressed =>
        if cfgidx ≠ 0 then
          usbdRndisInit { s with devConfig := cfgidx, devState := .configured }
        else s
    | .configured =>
        if cfgidx = 0 then
          usbdRndisDeinit { s with devState := .addressed, devConfig := cfgidx }
        else if cfgidx ≠ s.devConfig then
          usbdRndisInit { usbdRndisDeinit s with devConfig := cfgidx }
        else s
    | .default => s

/-- `USBD_SetAddress`.  In the configured state the request is an error. -/
def usbdSetAddress (address : UInt8) (s : Device) : Device :=
  match s.devState with
  | .configured => s
  | _ => { s with devState := if address ≠ 0 then .addressed else .default }

/-- `USBD_LL_Reset`.  The class never sets `pClassData`, so it is not closed. -/
def usbdLLReset (s : Device) : Device := { s with devState := .default }

/-- `USBD_LL_DevDisconnected`. -/
def usbdLLDevDisconnected (s : Device) : Device := usbdRndisDeinit { s with devState := .default }

/-- `USBD_LL_DataOutStage` for a data endpoint. -/
def usbdLLDataOutStage (epnum : UInt8) (s : Device) : Device :=
  if s.devState = .configured then usbdRndisDataOut epnum s else s

/-- `USBD_LL_DataInStage` for a data endpoint. -/
def usbdLLDataInStage (epnum : UInt8) (s : Device) : Device :=
  if s.devState = .configured then usbdRndisDataIn epnum s else s

end Adhoc
