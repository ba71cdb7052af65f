import Adhoc.Rndis.Device

/-!
# The control channel

RNDIS messages travel over `EP0`.  The host writes a request into
`encapsulated_buffer` (a class request with a data stage to the device),
`usbd_rndis_ep0_recv` overwrites it with the completion, and the host reads that
back (a class request with a data stage from the device).

Five things are observed and not stored by the code: the lengths
`encapsulated_buffer` was prepared to receive, the responses sent from it, how
many octets the completion last laid out has, whether the host has stored into
its `MessageLength` since, and how often `response_available` was called.

`encapsulated_buffer` has its first octet at address 0 of its memory, and what
lies at `encBufSize` and after is not part of it.  A pointer the host chooses
may point anywhere, so the rest of the address space is an argument where such
a pointer is read.
-/

namespace Adhoc

open ByteMem

/-! ## Constants -/

def oidGenSupportedList : UInt32 := 0x00010101
def oidGenHardwareStatus : UInt32 := 0x00010102
def oidGenMediaSupported : UInt32 := 0x00010103
def oidGenMediaInUse : UInt32 := 0x00010104
def oidGenMaximumFrameSize : UInt32 := 0x00010106
def oidGenLinkSpeed : UInt32 := 0x00010107
def oidGenTransmitBlockSize : UInt32 := 0x0001010A
def oidGenReceiveBlockSize : UInt32 := 0x0001010B
def oidGenVendorId : UInt32 := 0x0001010C
def oidGenVendorDescription : UInt32 := 0x0001010D
def oidGenCurrentPacketFilter : UInt32 := 0x0001010E
def oidGenCurrentLookahead : UInt32 := 0x0001010F
def oidGenMaximumTotalSize : UInt32 := 0x00010111
def oidGenProtocolOptions : UInt32 := 0x00010112
def oidGenMacOptions : UInt32 := 0x00010113
def oidGenMediaConnectStatus : UInt32 := 0x00010114
def oidGenMaximumSendPackets : UInt32 := 0x00010115
def oidGenVendorDriverVersion : UInt32 := 0x00010116
def oidGenRndisConfigParameter : UInt32 := 0x0001021B
def oidGenPhysicalMedium : UInt32 := 0x00010202
def oidGenXmitOk : UInt32 := 0x00020101
def oidGenRcvOk : UInt32 := 0x00020102
def oidGenXmitError : UInt32 := 0x00020103
def oidGenRcvError : UInt32 := 0x00020104
def oidGenRcvNoBuffer : UInt32 := 0x00020105
def oid8023PermanentAddress : UInt32 := 0x01010101
def oid8023CurrentAddress : UInt32 := 0x01010102
def oid8023MulticastList : UInt32 := 0x01010103
def oid8023MaximumListSize : UInt32 := 0x01010104
def oid8023MacOptions : UInt32 := 0x01010105
def oid8023RcvErrorAlignment : UInt32 := 0x01020101
def oid8023XmitOneCollision : UInt32 := 0x01020102
def oid8023XmitMoreCollisions : UInt32 := 0x01020103

/-- `OIDSupportedList`. -/
def oidSupportedList : List UInt32 :=
  [oidGenSupportedList, oidGenHardwareStatus, oidGenMediaSupported, oidGenMediaInUse,
    oidGenMaximumFrameSize, oidGenLinkSpeed, oidGenTransmitBlockSize, oidGenReceiveBlockSize,
    oidGenVendorId, oidGenVendorDescription, oidGenVendorDriverVersion,
    oidGenCurrentPacketFilter, oidGenMaximumTotalSize, oidGenProtocolOptions, oidGenMacOptions,
    oidGenMediaConnectStatus, oidGenMaximumSendPackets, oid8023PermanentAddress,
    oid8023CurrentAddress, oid8023MulticastList, oid8023MaximumListSize, oid8023MacOptions]

/-- `OID_LIST_LENGTH`. -/
def oidListLength : Nat := oidSupportedList.length

/-- `ENC_BUF_SIZE`. -/
def encBufSize : Nat := oidListLength * 4 + 32

def rndisStatusSuccess : UInt32 := 0x00000000
def rndisStatusFailure : UInt32 := 0xC0000001
def rndisStatusNotSupported : UInt32 := 0xC00000BB

def remoteNdisInitializeMsg : UInt32 := 0x00000002
def remoteNdisQueryMsg : UInt32 := 0x00000004
def remoteNdisSetMsg : UInt32 := 0x00000005
def remoteNdisResetMsg : UInt32 := 0x00000006
def remoteNdisKeepaliveMsg : UInt32 := 0x00000008
def remoteNdisInitializeCmplt : UInt32 := 0x80000002
def remoteNdisQueryCmplt : UInt32 := 0x80000004
def remoteNdisSetCmplt : UInt32 := 0x80000005
def remoteNdisResetCmplt : UInt32 := 0x80000006
def remoteNdisKeepaliveCmplt : UInt32 := 0x80000008

def rndisMajorVersion : UInt32 := 1
def rndisMinorVersion : UInt32 := 0
def rndisDfConnectionless : UInt32 := 1
def rndisMedium8023 : UInt32 := 0
def ndisMedium8023 : UInt32 := 0
def ndisMediaStateConnected : UInt32 := 0

/-- `ETH_LINK_SPEED`. -/
def ethLinkSpeed : UInt32 := 250000

/-- `RNDIS_VENDOR`, with the octet that ends it. -/
def rndisVendor : List UInt8 := [0x66, 0x65, 0x74, 0x69, 0x73, 0x6F, 0x76, 0x00]

/-- `STATION_HWADDR`. -/
def stationHwaddr : List UInt8 := [0x20, 0x89, 0x84, 0x6A, 0x96, 0xAA]

/-- `PERMANENT_HWADDR`. -/
def permanentHwaddr : List UInt8 := [0x20, 0x89, 0x84, 0x6A, 0x96, 0xAA]

/-- `USB_MAX_EP0_SIZE`. -/
def usbMaxEp0Size : UInt16 := 64

/-- `USBD_MAX_NUM_INTERFACES`. -/
def usbdMaxNumInterfaces : UInt8 := 1

/-! ## State -/

/-- `rndis_state_t`. -/
inductive RndisState where
  | uninitialized
  | initialized
  | dataInitialized
deriving DecidableEq, Repr

/-- `pdev->ep0_state`. -/
inductive Ep0State where
  | idle
  | setup
  | dataIn
  | dataOut
  | statusIn
  | statusOut
  | stall
deriving DecidableEq, Repr

/-- `USBD_SetupReqTypedef`, as far as the functions below read it. -/
structure SetupReq where
  bmRequest : UInt8
  wIndex : UInt16
  wLength : UInt16

/-- A response: the length handed to `USBD_CtlSendData`, and what it is judged
by. -/
structure Response where
  length : UInt16
  wLength : UInt16
  /-- The octets of the completion last laid out. -/
  built : Nat
  /-- The host has stored into `MessageLength` since. -/
  byHost : Bool
deriving DecidableEq, Repr

/-- The device with its control channel. -/
structure Control where
  device : Device := {}
  encapsulatedBuffer : Mem := Mem.zero
  oidPacketFilter : UInt32 := 0
  rndisState : RndisState := .uninitialized
  ep0State : Ep0State := .idle
  /-- `ep_out[0].rem_length`. -/
  remLength : UInt16 := 0
  /-- Where the next `EP0` packet is stored, an index into `encapsulated_buffer`. -/
  xferBuff : Nat := 0
  prepared : List UInt16 := []
  responses : List Response := []
  built : Nat := 0
  lengthByHost : Bool := false
  notifications : Nat := 0

/-- `MessageType` of the message in the buffer. -/
def messageType (s : Control) : UInt32 := s.encapsulatedBuffer.word 0

/-- `MessageLength` of the message in the buffer. -/
def messageLength (s : Control) : UInt32 := s.encapsulatedBuffer.word 4

/-- `response_available`. -/
def responseAvailable (s : Control) : Control := { s with notifications := s.notifications + 1 }

/-- A completion of `size` octets is laid out: its type, its length and the other
words the source stores, in its order. -/
def layOut (type : UInt32) (size : Nat) (fields : List (Nat × UInt32)) (s : Control) : Control :=
  { s with
    encapsulatedBuffer :=
      s.encapsulatedBuffer.writeWords ((0, type) :: (4, .ofNat size) :: fields)
    built := size
    lengthByHost := false }

/-! ## Queries -/

/-- `rndis_query_cmplt`. -/
def rndisQueryCmplt (status : UInt32) (data : List UInt8) (s : Control) : Control :=
  let s := layOut remoteNdisQueryCmplt (24 + data.length)
    [(16, .ofNat data.length), (20, 16), (12, status)] s
  responseAvailable { s with encapsulatedBuffer := s.encapsulatedBuffer.write 24 data }

/-- `rndis_query_cmplt32`, which does the same with the four octets of a word. -/
def rndisQueryCmplt32 (status data : UInt32) (s : Control) : Control :=
  rndisQueryCmplt status (wordBytes data) s

/-- What an object is answered with. -/
inductive QueryValue where
  /-- By `rndis_query_cmplt32`. -/
  | word (data : UInt32)
  /-- By `rndis_query_cmplt`. -/
  | octets (data : List UInt8)

/-- The cases of `rndis_query`: the object, the status and the value. -/
def queryTable (s : Control) : List (UInt32 × UInt32 × QueryValue) :=
  [(oidGenSupportedList, rndisStatusSuccess, .octets (oidSupportedList.flatMap wordBytes)),
    (oidGenVendorDriverVersion, rndisStatusSuccess, .word 0x00001000),
    (oid8023CurrentAddress, rndisStatusSuccess, .octets stationHwaddr),
    (oid8023PermanentAddress, rndisStatusSuccess, .octets permanentHwaddr),
    (oidGenMediaSupported, rndisStatusSuccess, .word ndisMedium8023),
    (oidGenMediaInUse, rndisStatusSuccess, .word ndisMedium8023),
    (oidGenPhysicalMedium, rndisStatusSuccess, .word ndisMedium8023),
    (oidGenHardwareStatus, rndisStatusSuccess, .word 0),
    (oidGenLinkSpeed, rndisStatusSuccess, .word (ethLinkSpeed / 100)),
    (oidGenVendorId, rndisStatusSuccess, .word 0x00FFFFFF),
    (oidGenVendorDescription, rndisStatusSuccess, .octets rndisVendor),
    (oidGenCurrentPacketFilter, rndisStatusSuccess, .word s.oidPacketFilter),
    (oidGenMaximumFrameSize, rndisStatusSuccess,
      .word (.ofNat (ethMaxPacketSize - ethHeaderSize))),
    (oidGenMaximumTotalSize, rndisStatusSuccess, .word (.ofNat ethMaxPacketSize)),
    (oidGenTransmitBlockSize, rndisStatusSuccess, .word (.ofNat ethMaxPacketSize)),
    (oidGenReceiveBlockSize, rndisStatusSuccess, .word (.ofNat ethMaxPacketSize)),
    (oidGenMediaConnectStatus, rndisStatusSuccess, .word ndisMediaStateConnected),
    (oidGenRndisConfigParameter, rndisStatusSuccess, .word 0),
    (oid8023MaximumListSize, rndisStatusSuccess, .word 1),
    (oid8023MulticastList, rndisStatusNotSupported, .word 0),
    (oid8023MacOptions, rndisStatusNotSupported, .word 0),
    (oidGenMacOptions, rndisStatusSuccess, .word 0),
    (oid8023RcvErrorAlignment, rndisStatusSuccess, .word 0),
    (oid8023XmitOneCollision, rndisStatusSuccess, .word 0),
    (oid8023XmitMoreCollisions, rndisStatusSuccess, .word 0),
    (oidGenXmitOk, rndisStatusSuccess, .word s.device.txok),
    (oidGenRcvOk, rndisStatusSuccess, .word s.device.rxok),
    (oidGenRcvError, rndisStatusSuccess, .word s.device.rxbad),
    (oidGenXmitError, rndisStatusSuccess, .word s.device.txbad),
    (oidGenRcvNoBuffer, rndisStatusSuccess, .word 0)]

/-- `rndis_query`. -/
def rndisQuery (s : Control) : Control :=
  match (queryTable s).lookup (s.encapsulatedBuffer.word 12) with
  | some (status, .word data) => rndisQueryCmplt32 status data s
  | some (status, .octets data) => rndisQueryCmplt status data s
  | none => rndisQueryCmplt rndisStatusFailure [] s

/-! ## Sets -/

/-- The memory around the buffer, by the distance from its first octet. -/
def memoryAt (outside : Mem) (s : Control) : Mem := fun i =>
  if i < encBufSize then s.encapsulatedBuffer i else outside i

/-- The word a pointer points at.  Addresses wrap around. -/
def wordAt (m : Mem) (a : UInt32) : UInt32 := Mem.word (fun i => m (a + .ofNat i).toNat) 0

/-- `INFBUF`, as the distance from the first octet of the buffer. -/
def infbuf (s : Control) : UInt32 := 8 + s.encapsulatedBuffer.word 20

/-- `rndis_handle_set_msg`.  `INFBUF` is read after the completion is laid out.
`rndis_handle_config_parm`, `rndis_packetFilter` and `rndis_initialized_cb` have
nothing in their bodies. -/
def rndisHandleSetMsg (outside : Mem) (s : Control) : Control :=
  let oid := s.encapsulatedBuffer.word 12
  let s := layOut remoteNdisSetCmplt 16 [(12, rndisStatusSuccess)] s
  if oid = oidGenRndisConfigParameter then responseAvailable s
  else if oid = oidGenCurrentPacketFilter then
    let filter := wordAt (memoryAt outside s) (infbuf s)
    responseAvailable { s with
      oidPacketFilter := filter
      rndisState := if filter ≠ 0 then .dataInitialized else .initialized }
  else if oid = oidGenCurrentLookahead ∨ oid = oidGenProtocolOptions ∨
      oid = oid8023MulticastList then responseAvailable s
  else
    responseAvailable { s with
      encapsulatedBuffer := s.encapsulatedBuffer.write 12 (wordBytes rndisStatusFailure) }

/-! ## Requests -/

/-- `usbd_rndis_ep0_recv`. -/
def usbdRndisEp0Recv (outside : Mem) (s : Control) : Control :=
  if messageType s = remoteNdisInitializeMsg then
    responseAvailable { layOut remoteNdisInitializeCmplt 52
      [(16, rndisMajorVersion), (20, rndisMinorVersion), (12, rndisStatusSuccess),
        (24, rndisDfConnectionless), (28, rndisMedium8023), (32, 1),
        (36, .ofNat rndisRxBufferSize), (40, 0), (44, 0), (48, 0)] s with
      rndisState := .initialized }
  else if messageType s = remoteNdisQueryMsg then rndisQuery s
  else if messageType s = remoteNdisSetMsg then rndisHandleSetMsg outside s
  else if messageType s = remoteNdisResetMsg then
    responseAvailable { layOut remoteNdisResetCmplt 16
      [(8, rndisStatusSuccess), (12, 1)] s with
      rndisState := .uninitialized }
  else if messageType s = remoteNdisKeepaliveMsg then
    responseAvailable (layOut remoteNdisKeepaliveCmplt 16 [(12, rndisStatusSuccess)] s)
  else s

/-- `USBD_CtlSendData` from `encapsulated_buffer`. -/
def usbdCtlSendData (len : UInt16) (req : SetupReq) (s : Control) : Control :=
  { s with
    ep0State := .dataIn
    responses := s.responses ++ [⟨len, req.wLength, s.built, s.lengthByHost⟩] }

/-- `USBD_CtlPrepareRx` into `encapsulated_buffer`. -/
def usbdCtlPrepareRx (len : UInt16) (s : Control) : Control :=
  { s with ep0State := .dataOut, remLength := len, xferBuff := 0, prepared := s.prepared ++ [len] }

/-- The request is a class request (`USB_REQ_TYPE_CLASS`). -/
def isClassReq (req : SetupReq) : Bool := req.bmRequest &&& 0x60 = 0x20

/-- The data stage goes from the device to the host. -/
def isDeviceToHost (req : SetupReq) : Bool := req.bmRequest &&& 0x80 ≠ 0

/-- `usbd_rndis_setup`. -/
def usbdRndisSetup (req : SetupReq) (s : Control) : Control :=
  if isClassReq req then
    if req.wLength ≠ 0 then
      if isDeviceToHost req then usbdCtlSendData (messageLength s).toUInt16 req s
      else usbdCtlPrepareRx req.wLength s
    else s
  else s

/-- An `EP0` packet is stored. -/
def storeEp0 (p : OutPacket) (s : Control) : Control :=
  if p.data.length ≠ 0 then
    { s with
      encapsulatedBuffer := usbReadPacket s.xferBuff p s.encapsulatedBuffer
      xferBuff := s.xferBuff + p.data.length
      lengthByHost := s.lengthByHost ||
        decide (s.xferBuff < 8 ∧ 4 < s.xferBuff + (p.data ++ p.tail).length) }
  else s

/-- `USBD_LL_DataOutStage` for `EP0`. -/
def usbdLLDataOutStageEp0 (outside : Mem) (s : Control) : Control :=
  if s.ep0State = .dataOut then
    if s.remLength > usbMaxEp0Size then { s with remLength := s.remLength - usbMaxEp0Size }
    else
      let s := if s.device.devState = .configured then usbdRndisEp0Recv outside s else s
      { s with ep0State := .statusIn }
  else s

end Adhoc
