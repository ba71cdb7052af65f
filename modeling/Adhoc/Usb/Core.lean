import Adhoc.Rndis.Control

/-!
# The USB device core

`usbd_core.c`, `usbd_ctlreq.c` and `usbd_ioreq.c` answer every request of the
host on `EP0`, and hand some of them to the class.  `Usbd` is the handle of the
device beside the class and what the HAL keeps of `EP0`.  What the handle shares
with the class (`ep0_state`, `ep_out[0].rem_length`, `dev_state` while the bus is
not suspended, and the running `xfer_buff` of a receive into
`encapsulated_buffer`) is in `Control`.

The HAL sends one packet of at most 64 octets for each transfer it is given on
`EP0`, and moves `xfer_buff` past it.  A setup packet drops what is outstanding
and clears the stall of `EP0`, as the controller does.

`dev_speed` is full speed from the first reset on.  The class has no
`EP0_TxSent`, and its `SOF` and isochronous callbacks do nothing.
-/

namespace Adhoc

open ByteMem

/-! ## Requests -/

/-- `USBD_SetupReqTypedef`. -/
structure UsbdSetupReq extends SetupReq where
  bRequest : UInt8
  wValue : UInt16

/-- `USBD_ParseSetupRequest`. -/
def usbdParseSetupRequest (pdata : Mem) : UsbdSetupReq where
  bmRequest := pdata 0
  bRequest := pdata 1
  wValue := pdata.half 2
  wIndex := pdata.half 4
  wLength := pdata.half 6

/-- The cases of `bmRequest & 0x1F`. -/
inductive Recipient where
  /-- `USB_REQ_RECIPIENT_DEVICE`. -/
  | device
  /-- `USB_REQ_RECIPIENT_INTERFACE`. -/
  | interface
  /-- `USB_REQ_RECIPIENT_ENDPOINT`. -/
  | endpoint
  | other
deriving DecidableEq

/-- Whom a request is for. -/
def UsbdSetupReq.recipient (req : UsbdSetupReq) : Recipient :=
  if req.bmRequest &&& 0x1F = 0 then .device
  else if req.bmRequest &&& 0x1F = 1 then .interface
  else if req.bmRequest &&& 0x1F = 2 then .endpoint
  else .other

def usbReqGetStatus : UInt8 := 0x00
def usbReqClearFeature : UInt8 := 0x01
def usbReqSetFeature : UInt8 := 0x03
def usbReqSetAddress : UInt8 := 0x05
def usbReqGetDescriptor : UInt8 := 0x06
def usbReqGetConfiguration : UInt8 := 0x08
def usbReqSetConfiguration : UInt8 := 0x09

def usbFeatureEpHalt : UInt16 := 0
def usbFeatureRemoteWakeup : UInt16 := 1

/-! ## Descriptors -/

/-- `USBD_FS_DeviceDesc`. -/
def usbdFSDeviceDesc : List UInt8 :=
  [18, 1, 0x00, 0x02, 0xE0, 0x00, 0x00, 64, 0x83, 0x04, 0x23, 0x11, 0xFF, 0xFF, 1, 2, 3, 1]

/-- `USBD_LangIDDesc`. -/
def usbdLangIDDesc : List UInt8 := [4, 3, 0x09, 0x04]

/-- `usbd_rndis_CfgDesc`. -/
def usbdRndisCfgDesc : List UInt8 :=
  [9, 2, 0x4B, 0x00, 0x02, 0x01, 0x00, 0x80, 0x64] ++
    [0x08, 0x0B, 0x00, 0x02, 0xE0, 0x01, 0x03, 0x00] ++
    [9, 4, 0x00, 0x00, 0x01, 0xE0, 0x01, 0x03, 0x00] ++
    [0x05, 0x24, 0x00, 0x10, 0x01] ++ [0x05, 0x24, 0x01, 0x00, 0x01] ++
    [0x04, 0x24, 0x02, 0x00] ++ [0x05, 0x24, 0x06, 0x00, 0x01] ++
    [7, 5, 0x81, 3, 0x08, 0x00, 1] ++
    [9, 4, 0x01, 0x00, 0x02, 0x0A, 0x00, 0x00, 0x00] ++
    [7, 5, 0x82, 2, 0x40, 0x00, 0] ++ [7, 5, 0x03, 2, 0x40, 0x00, 0]

/-- `USBD_GetLen`. -/
def usbdGetLen (buf : List UInt8) : UInt8 := .ofNat (cString buf).length

/-- The loop of `USBD_GetString`, from the index the next octet is stored at. -/
def usbdGetStringLoop : List UInt8 → UInt8 → Mem → Mem
  | [], _, unicode => unicode
  | c :: desc, idx, unicode =>
      usbdGetStringLoop desc (idx + 2)
        ((unicode.write idx.toNat [c]).write (idx + 1).toNat [0])

/-- `USBD_GetString`: what it leaves in `unicode`, and the length. -/
def usbdGetString (desc : List UInt8) (unicode : Mem) : Mem × UInt16 :=
  let len : UInt16 := (usbdGetLen desc).toUInt16 * 2 + 2
  let unicode := (unicode.write 0 [len.toUInt8]).write 1 [3]
  (usbdGetStringLoop (cString desc) 2 unicode, len)

/-- `USBD_MANUFACTURER_STRING`. -/
def usbdManufacturerString : List UInt8 :=
  [0x46, 0x65, 0x74, 0x69, 0x73, 0x6F, 0x76, 0x20, 0x53, 0x65, 0x72, 0x67, 0x65, 0x79]

/-- `USBD_PRODUCT_STRING_FS`. -/
def usbdProductStringFS : List UInt8 :=
  [0x53, 0x54, 0x4D, 0x33, 0x32, 0x46, 0x34, 0x20, 0x52, 0x4E, 0x44, 0x49, 0x53]

/-- `USBD_SERIALNUMBER_STRING_FS`. -/
def usbdSerialnumberStringFS : List UInt8 :=
  [0x30, 0x30, 0x30, 0x30, 0x30, 0x30, 0x30, 0x30, 0x30, 0x30, 0x31, 0x41]

/-- `USBD_CONFIGURATION_STRING_FS`. -/
def usbdConfigurationStringFS : List UInt8 :=
  [0x52, 0x4E, 0x44, 0x49, 0x53, 0x20, 0x43, 0x6F, 0x6E, 0x66, 0x69, 0x67]

/-- `USBD_INTERFACE_STRING_FS`. -/
def usbdInterfaceStringFS : List UInt8 :=
  [0x52, 0x4E, 0x44, 0x49, 0x53, 0x20, 0x49, 0x6E, 0x74, 0x65, 0x72, 0x66, 0x61, 0x63, 0x65]

/-- The string behind an index of a string descriptor, but for index 0. -/
def stringOf (idx : UInt8) : Option (List UInt8) :=
  if idx = 1 then some usbdManufacturerString
  else if idx = 2 then some usbdProductStringFS
  else if idx = 3 then some usbdSerialnumberStringFS
  else if idx = 4 then some usbdConfigurationStringFS
  else if idx = 5 then some usbdInterfaceStringFS
  else none

/-! ## State -/

/-- What a transfer on `EP0` IN is read from: `encapsulated_buffer` and what follows it, or
something else that does not change while it is sent. -/
inductive In0Source where
  | encapsulated
  | octets (bs : List UInt8)

/-- `EP0` IN: `ep_in[0]` of the handle, and `IN_ep[0]` of the HAL. -/
structure In0 where
  totalLength : UInt32 := 0
  remLength : UInt32 := 0
  source : In0Source := .octets []
  /-- `xfer_buff`, as a distance into the source. -/
  xferBuff : Nat := 0
  xferLen : UInt32 := 0
  /-- A packet is outstanding (`EPENA`). -/
  enabled : Bool := false

/-- The device. -/
structure Usbd where
  control : Control := {}
  in0 : In0 := {}
  /-- A receive is outstanding on `EP0` OUT. -/
  out0Enabled : Bool := false
  /-- It goes to `encapsulated_buffer`, not to `NULL`. -/
  out0ToBuffer : Bool := false
  ep0DataLen : UInt32 := 0
  /-- `EP0` answers with a stall. -/
  ep0Stalled : Bool := false
  /-- `is_stall` of `IN_ep` and `OUT_ep`, by the endpoint address. -/
  isStall : UInt8 → Bool := fun _ => false
  devAddress : UInt8 := 0
  devRemoteWakeup : Bool := false
  /-- `dev_state` is `USBD_STATE_SUSPENDED`. -/
  suspended : Bool := false
  devOldState : UsbdState := .default
  strDesc : Mem := Mem.zero
  /-- The packets the host has taken since the last setup packet. -/
  inTaken : List (List UInt8) := []

namespace Usbd

/-- A store to `ep0_state`. -/
def setEp0State (state : Ep0State) (s : Usbd) : Usbd :=
  { s with control := { s.control with ep0State := state } }

/-! ## The data and the status stage -/

/-- `USBD_LL_Transmit` on `EP0`, of which `USB_EP0StartXfer` sends one packet. -/
def llTransmit (source : In0Source) (xferBuff : Nat) (size : UInt16) (s : Usbd) : Usbd :=
  let len := size.toUInt32
  { s with in0 := { s.in0 with
      source := source
      xferBuff := xferBuff
      xferLen := if len > usbMaxEp0Size.toUInt32 then usbMaxEp0Size.toUInt32 else len
      enabled := true } }

/-- `USBD_LL_PrepareReceive` on `EP0` into `NULL`. -/
def llPrepareReceiveNull (s : Usbd) : Usbd :=
  { s with out0Enabled := true, out0ToBuffer := false }

/-- `USBD_CtlSendData`. -/
def ctlSendData (source : In0Source) (len : UInt16) (s : Usbd) : Usbd :=
  let s := s.setEp0State .dataIn
  let s := { s with in0 := { s.in0 with totalLength := len.toUInt32, remLength := len.toUInt32 } }
  s.llTransmit source 0 len

/-- `USBD_CtlContinueSendData`, from where the last packet ended. -/
def ctlContinueSendData (len : UInt16) (s : Usbd) : Usbd :=
  s.llTransmit s.in0.source s.in0.xferBuff len

/-- `USBD_CtlSendStatus`. -/
def ctlSendStatus (s : Usbd) : Usbd := (s.setEp0State .statusIn).llTransmit (.octets []) 0 0

/-- `USBD_CtlReceiveStatus`. -/
def ctlReceiveStatus (s : Usbd) : Usbd := (s.setEp0State .statusOut).llPrepareReceiveNull

/-- `USBD_LL_StallEP`. -/
def llStallEP (epAddr : UInt8) (s : Usbd) : Usbd :=
  { s with
    isStall := Function.update s.isStall epAddr true
    ep0Stalled := s.ep0Stalled || decide (epAddr &&& 0x7F = 0) }

/-- `USBD_LL_ClearStallEP`. -/
def llClearStallEP (epAddr : UInt8) (s : Usbd) : Usbd :=
  { s with isStall := Function.update s.isStall epAddr false }

/-- `USBD_CtlError`. -/
def ctlError (s : Usbd) : Usbd := (s.llStallEP 0x80).llStallEP 0

/-- `usbd_rndis_setup`, down to the endpoint. -/
def rndisSetup (req : UsbdSetupReq) (s : Usbd) : Usbd :=
  let control := usbdRndisSetup req.toSetupReq s.control
  if isClassReq req.toSetupReq then
    if req.wLength ≠ 0 then
      if isDeviceToHost req.toSetupReq then
        { s.ctlSendData .encapsulated (messageLength s.control).toUInt16 with control := control }
      else { s with control := control, out0Enabled := true, out0ToBuffer := true }
    else s
  else s

/-! ## Requests for the device -/

/-- The descriptor `USBD_GetDescriptor` finds for `wValue`, with what its callback leaves in
`USBD_StrDesc`. -/
def findDescriptor (wValue : UInt16) (strDesc : Mem) : Option (List UInt8 × Mem) :=
  if wValue >>> 8 = 1 then some (usbdFSDeviceDesc, strDesc)
  else if wValue >>> 8 = 2 then some (usbdRndisCfgDesc, strDesc)
  else if wValue >>> 8 = 3 then
    if wValue.toUInt8 = 0 then some (usbdLangIDDesc, strDesc)
    else (stringOf wValue.toUInt8).map fun desc =>
      let (strDesc, len) := usbdGetString desc strDesc
      (strDesc.read 0 len.toNat, strDesc)
  else none

/-- `USBD_GetDescriptor`. -/
def getDescriptor (req : UsbdSetupReq) (s : Usbd) : Usbd :=
  match findDescriptor req.wValue s.strDesc with
  | none => s.ctlError
  | some (bs, strDesc) =>
      let s := { s with strDesc := strDesc }
      let len : UInt16 := .ofNat bs.length
      if len ≠ 0 ∧ req.wLength ≠ 0 then
        s.ctlSendData (.octets bs) (if len < req.wLength then len else req.wLength)
      else s

/-- `USBD_SetAddress`. -/
def setAddress (req : UsbdSetupReq) (s : Usbd) : Usbd :=
  if req.wIndex = 0 ∧ req.wLength = 0 then
    let devAddr := req.wValue.toUInt8 &&& 0x7F
    if s.control.device.devState = .configured then s.ctlError
    else
      let s := { s with devAddress := devAddr }.ctlSendStatus
      { s with control := { s.control with device := usbdSetAddress devAddr s.control.device } }
  else s.ctlError

/-- `USBD_SetConfig`. -/
def setConfig (req : UsbdSetupReq) (s : Usbd) : Usbd :=
  let cfgidx := req.wValue.toUInt8
  if cfgidx > usbdMaxNumConfiguration then s.ctlError
  else if s.control.device.devState = .default then s.ctlError
  else
    { s with control := { s.control with
      device := usbdSetConfig cfgidx s.control.device } }.ctlSendStatus

/-- `USBD_GetConfig`. -/
def getConfig (req : UsbdSetupReq) (s : Usbd) : Usbd :=
  if req.wLength ≠ 1 then s.ctlError
  else
    match s.control.device.devState with
    | .addressed => s.ctlSendData (.octets [0]) 1
    | .configured => s.ctlSendData (.octets [s.control.device.devConfig]) 1
    | .default => s.ctlError

/-- `USBD_GetStatus`. -/
def getStatus (s : Usbd) : Usbd :=
  match s.control.device.devState with
  | .default => s.ctlError
  | _ => s.ctlSendData (.octets [if s.devRemoteWakeup then 3 else 1, 0]) 2

/-- `USBD_SetFeature`. -/
def setFeature (req : UsbdSetupReq) (s : Usbd) : Usbd :=
  if req.wValue = usbFeatureRemoteWakeup then
    ({ s with devRemoteWakeup := true }.rndisSetup req).ctlSendStatus
  else s

/-- `USBD_ClrFeature`. -/
def clrFeature (req : UsbdSetupReq) (s : Usbd) : Usbd :=
  match s.control.device.devState with
  | .default => s.ctlError
  | _ =>
      if req.wValue = usbFeatureRemoteWakeup then
        ({ s with devRemoteWakeup := false }.rndisSetup req).ctlSendStatus
      else s

/-- `USBD_StdDevReq`. -/
def stdDevReq (req : UsbdSetupReq) (s : Usbd) : Usbd :=
  if req.bRequest = usbReqGetDescriptor then s.getDescriptor req
  else if req.bRequest = usbReqSetAddress then s.setAddress req
  else if req.bRequest = usbReqSetConfiguration then s.setConfig req
  else if req.bRequest = usbReqGetConfiguration then s.getConfig req
  else if req.bRequest = usbReqGetStatus then s.getStatus
  else if req.bRequest = usbReqSetFeature then s.setFeature req
  else if req.bRequest = usbReqClearFeature then s.clrFeature req
  else s.ctlError

/-! ## Requests for an interface or an endpoint -/

/-- `USBD_StdItfReq`. -/
def stdItfReq (req : UsbdSetupReq) (s : Usbd) : Usbd :=
  match s.control.device.devState with
  | .configured =>
      if (req.wIndex &&& 0xFF).toUInt8 ≤ usbdMaxNumInterfaces then
        let s := s.rndisSetup req
        if req.wLength = 0 then s.ctlSendStatus else s
      else s.ctlError
  | _ => s.ctlError

/-- The endpoint is not `EP0`. -/
def notEp0 (epAddr : UInt8) : Bool := epAddr ≠ 0x00 ∧ epAddr ≠ 0x80

/-- `USB_REQ_SET_FEATURE` of `USBD_StdEPReq`. -/
def epSetFeature (req : UsbdSetupReq) (epAddr : UInt8) (s : Usbd) : Usbd :=
  match s.control.device.devState with
  | .addressed => if notEp0 epAddr then s.llStallEP epAddr else s
  | .configured =>
      let s :=
        if req.wValue = usbFeatureEpHalt then
          if notEp0 epAddr then s.llStallEP epAddr else s
        else s
      (s.rndisSetup req).ctlSendStatus
  | .default => s.ctlError

/-- `USB_REQ_CLEAR_FEATURE` of `USBD_StdEPReq`. -/
def epClearFeature (req : UsbdSetupReq) (epAddr : UInt8) (s : Usbd) : Usbd :=
  match s.control.device.devState with
  | .addressed => if notEp0 epAddr then s.llStallEP epAddr else s
  | .configured =>
      if req.wValue = usbFeatureEpHalt then
        let s :=
          if epAddr &&& 0x7F ≠ 0x00 then (s.llClearStallEP epAddr).rndisSetup req else s
        s.ctlSendStatus
      else s
  | .default => s.ctlError

/-- `USB_REQ_GET_STATUS` of `USBD_StdEPReq`. -/
def epGetStatus (epAddr : UInt8) (s : Usbd) : Usbd :=
  match s.control.device.devState with
  | .addressed => if epAddr &&& 0x7F ≠ 0x00 then s.llStallEP epAddr else s
  | .configured => s.ctlSendData (.octets [if s.isStall epAddr then 1 else 0, 0]) 2
  | .default => s.ctlError

/-- `USBD_StdEPReq`. -/
def stdEPReq (req : UsbdSetupReq) (s : Usbd) : Usbd :=
  let epAddr := (req.wIndex &&& 0xFF).toUInt8
  if isClassReq req.toSetupReq then s.rndisSetup req
  else if req.bRequest = usbReqSetFeature then s.epSetFeature req epAddr
  else if req.bRequest = usbReqClearFeature then s.epClearFeature req epAddr
  else if req.bRequest = usbReqGetStatus then s.epGetStatus epAddr
  else s

/-! ## Stages -/

/-- What a setup packet does to `EP0` before it is handled. -/
def takeSetup (s : Usbd) : Usbd :=
  { s with
    in0 := { s.in0 with enabled := false }
    out0Enabled := false
    ep0Stalled := false
    inTaken := [] }

/-- `USBD_LL_SetupStage`. -/
def llSetupStage (req : UsbdSetupReq) (s : Usbd) : Usbd :=
  let s := { s.setEp0State .setup with ep0DataLen := req.wLength.toUInt32 }
  match req.recipient with
  | .device => s.stdDevReq req
  | .interface => s.stdItfReq req
  | .endpoint => s.stdEPReq req
  | .other => s.llStallEP (req.bmRequest &&& 0x80)

/-- `USBD_LL_DataOutStage` for `EP0`.  The data stage goes on, the message is handled, or nothing
happens. -/
def llDataOutStage (outside : Mem) (s : Usbd) : Usbd :=
  if s.control.ep0State = .dataOut then
    let more := decide (s.control.remLength > usbMaxEp0Size)
    let s := { s with control := usbdLLDataOutStageEp0 outside s.control }
    if more then { s with out0Enabled := true } else s.ctlSendStatus
  else s

/-- The last packet was full, and the host asked for more than there is. -/
def wantsZLP (s : Usbd) : Bool :=
  s.in0.totalLength % usbMaxEp0Size.toUInt32 = 0 ∧ s.in0.totalLength ≥ usbMaxEp0Size.toUInt32 ∧
    s.in0.totalLength < s.ep0DataLen

/-- `USBD_LL_DataInStage` for `EP0`. -/
def llDataInStage (s : Usbd) : Usbd :=
  if s.control.ep0State = .dataIn then
    if s.in0.remLength > usbMaxEp0Size.toUInt32 then
      let rem := s.in0.remLength - usbMaxEp0Size.toUInt32
      let s := { s with in0 := { s.in0 with remLength := rem } }
      (s.ctlContinueSendData rem.toUInt16).llPrepareReceiveNull
    else if s.wantsZLP then
      { s.llTransmit (.octets []) 0 0 with ep0DataLen := 0 }.llPrepareReceiveNull
    else s.ctlReceiveStatus
  else s

/-! ## Packets and the bus -/

/-- The octets at a place of a source. -/
def readSource (outside : Mem) (s : Usbd) : In0Source → Nat → Nat → List UInt8
  | .encapsulated, off, n => (memoryAt outside s.control).read off n
  | .octets bs, off, n => (bs.drop off).take n

/-- The host takes the packet that is outstanding on `EP0` IN. -/
def takeIn (outside : Mem) (s : Usbd) : Usbd :=
  let packet := readSource outside s s.in0.source s.in0.xferBuff s.in0.xferLen.toNat
  let s := { s with
    inTaken := s.inTaken ++ [packet]
    in0 := { s.in0 with enabled := false, xferBuff := s.in0.xferBuff + s.in0.xferLen.toNat } }
  s.llDataInStage

/-- A packet comes on `EP0` OUT. -/
def takeOut (p : OutPacket) (outside : Mem) (s : Usbd) : Usbd :=
  let s := { s with
    control := if s.out0ToBuffer then storeEp0 p s.control else s.control
    out0Enabled := false }
  s.llDataOutStage outside

/-- `USBD_LL_Reset`. -/
def llReset (s : Usbd) : Usbd :=
  { s.takeSetup with
    control := { s.control with device := usbdLLReset s.control.device }
    suspended := false }

/-- `USBD_LL_Suspend`. -/
def llSuspend (s : Usbd) : Usbd :=
  { s with devOldState := s.control.device.devState, suspended := true }

/-- `USBD_LL_Resume`. -/
def llResume (s : Usbd) : Usbd :=
  { s with
    control := { s.control with device := { s.control.device with devState := s.devOldState } }
    suspended := false }

/-- `USBD_LL_DevDisconnected`. -/
def llDevDisconnected (s : Usbd) : Usbd :=
  { s with
    control := { s.control with device := usbdLLDevDisconnected s.control.device }
    suspended := false }

end Usbd

end Adhoc
