import Adhoc.Http.Request

/-!
# Connections

A slot of `htserv.c` and what is done to one.  `con->buff` begins at address 0 of a
memory of its own, and `wbuff` is an offset into it, or none for `NULL`.

The counters are integers.  The program keeps them in an `int`, and what a run can add
to one before it is cleared is left unbounded here.
-/

namespace Adhoc

open ByteMem

/-! ## Responses -/

/-- `HTTP_SERVER_MAX_CON`. -/
def httpServerMaxCon : Nat := 3

/-- `HTTP_CON_BUFF_SIZE`. -/
def httpConBuffSize : Nat := 2048

/-- `HTTP_REQ_MAX_SIZE`. -/
def httpReqMaxSize : Nat := 1024

def httpServerName : List UInt8 := ascii ['l', 'r', 'n', 'd', 'i', 's']
def httpDefContLang : List UInt8 := ascii ['e', 'n']
def mimeTextHtml : List UInt8 := ascii ['t', 'e', 'x', 't', '/', 'h', 't', 'm', 'l']

/-- `http_resp_t`. -/
structure HttpResp where
  code : Int
  server : List UInt8
  contLang : List UInt8
  mime : List UInt8
  contLen : Int
  connType : HttpConnType

/-- `http_prepare_resp`. -/
def httpPrepareResp (code : Int) : HttpResp :=
  ⟨code, httpServerName, httpDefContLang, mimeTextHtml, 0, .close⟩

/-- `%d`. -/
def printInt : Int → List UInt8
  | .ofNat n => ascii (Nat.toDigits 10 n)
  | .negSucc n => '-'.toUInt8 :: ascii (Nat.toDigits 10 (n + 1))

/-- The text of `http_resp_str`. -/
def httpRespStr (resp : HttpResp) : List UInt8 :=
  ascii ['H', 'T', 'T', 'P', '/', '1', '.', '1', ' '] ++ printInt resp.code ++
  ascii ['\r', '\n', 'S', 'e', 'r', 'v', 'e', 'r', ':', ' '] ++ resp.server ++
  ascii ['\r', '\n'] ++ contentTypeName ++ ascii [':', ' '] ++ resp.mime ++
  ascii ['\r', '\n'] ++ contentLengthName ++ ascii [':', ' '] ++ printInt resp.contLen ++
  ascii ['\r', '\n'] ++ connectionName ++ ascii [':', ' '] ++ resp.connType.str ++
  ascii ['\r', '\n', '\r', '\n']

/-- What `snprintf` stores of a text.  It takes the size for a `size_t`. -/
def snprintf (mem : Mem) (str : Nat) (size : Int) (text : List UInt8) : Mem :=
  let size := (size % 4294967296).toNat
  if size = 0 then mem else mem.write str (text.take (size - 1) ++ [0])

/-! ## Slots -/

/-- `htcon_state_t`. -/
inductive ConState where
  | active | closing | closed
deriving DecidableEq

/-- `htcon_state_priv_t`. -/
inductive ConStatePriv where
  | active | closing | closed | rdReq | wrResp | none
deriving DecidableEq

/-- A `struct tcp_pcb *` that is not `NULL`. -/
abbrev Pcb : Type := Nat

/-- `htcon_priv_t`.  `conState` and `conWrited` are `htcon.state` and `htcon.writed`. -/
structure Con where
  conState : ConState
  conWrited : Int
  buff : Mem
  state : ConStatePriv
  pcb : Option Pcb
  reqb : HttpReqb
  resp : HttpResp
  wbuff : Option Nat
  wsize : Int
  writed : Int
  wsended : Int
  wacksize : Int

namespace Con

variable (con : Con)

/-- What `htserv_accept` does to a slot.  It leaves `writed`. -/
def accept (newpcb : Pcb) : Con :=
  { con with
    pcb := some newpcb
    reqb := httpReqbInit httpReqMaxSize (by decide)
    wbuff := none
    wsize := 0
    wsended := 0
    wacksize := 0
    state := .rdReq
    conWrited := 0 }

/-- `con->htcon.state = CON_CLOSING; con->state = CSP_CLOSING`. -/
def closing : Con := { con with conState := .closing, state := .closing }

/-- `htcon_req_finished` behind a `htserv_on_req` that agreed and left `resp`, up to the test of
the length. -/
def printResp (resp : HttpResp) : Con :=
  { con with
    resp := resp
    wbuff := some con.reqb.size
    wsize := httpConBuffSize - con.reqb.size
    buff := snprintf con.buff con.reqb.size (httpConBuffSize - con.reqb.size) (httpRespStr resp) }

/-- The response does not fit. -/
def RespNomem : Prop := con.wsize ≤ (httpRespStr con.resp).length

/-- It fits. -/
def startResp : Con :=
  { con with
    state := .wrResp
    wacksize := 0
    writed := (httpRespStr con.resp).length
    wsended := 0 }

/-- Have data to send? -/
def HasData : Prop := con.state ≠ .closing ∧ con.wsended < con.writed

/-- The `count` of `htserv_io`. -/
def count (sndbuf : UInt16) : Int :=
  if (sndbuf.toNat : Int) < con.writed - con.wsended then sndbuf.toNat
  else con.writed - con.wsended

/-- The region of the slot's buffer that `htserv_io` passes to `tcp_write`: its offset and its
size. -/
def region (sndbuf : UInt16) : Option Nat × Nat :=
  (con.wbuff.map (· + con.wsended.toNat), (con.count sndbuf).toNat)

/-- The octets of a region. -/
def octets : Option Nat × Nat → List UInt8
  | (none, _) => []
  | (some off, n) => con.buff.read off n

instance : Decidable con.HasData := inferInstanceAs (Decidable (_ ∧ _))
instance : Decidable con.RespNomem := inferInstanceAs (Decidable (_ ≤ _))

/-- The first `if` of `htserv_io`.  `ok` is what `tcp_write` returns. -/
def send (sndbuf : UInt16) (ok : Bool) : Con :=
  if con.HasData ∧ ok then { con with wsended := con.wsended + con.count sndbuf } else con

/-- What it passed on. -/
def passes (sndbuf : UInt16) (ok : Bool) : List UInt8 :=
  if con.HasData ∧ ok then con.octets (con.region sndbuf) else []

/-- Data was successfully sended? -/
def Sended : Prop := con.state ≠ .closing ∧ con.wsended ≤ con.wacksize ∧ 0 < con.wsended

instance : Decidable con.Sended := inferInstanceAs (Decidable (_ ∧ _ ∧ _))

/-- The three counters cleared. -/
def reset : Con := { con with writed := 0, wsended := 0, wacksize := 0 }

/-- The document is complete, and the connection is not kept. -/
def Complete : Prop :=
  con.state = .active ∧ con.resp.connType ≠ .keepAlive ∧ con.resp.contLen ≤ con.conWrited

instance : Decidable con.Complete := inferInstanceAs (Decidable (_ ∧ _ ∧ _))

/-- The second `if` of `htserv_io`. -/
def ack : Con :=
  if con.Sended then
    if con.state = .wrResp then { con.reset with conState := .active, state := .active }
    else if con.Complete then con.reset.closing
    else con.reset
  else con

/-- The last `if` of `htserv_io`. -/
def shut : Con :=
  if con.state = .closing then { con with conState := .closed, state := .closed, pcb := none }
  else con

/-- The result of `htcon_write` for an active connection. -/
def writeCount (size : Int) : Int :=
  let res := con.resp.contLen - con.conWrited
  let res := if size < res then size else res
  let res := if con.wsize - con.writed < res then con.wsize - con.writed else res
  if res ≤ 0 then 0 else res

/-- `htcon_write` for an active connection. -/
def write (data : List UInt8) : Con :=
  let res := con.writeCount data.length
  { con with
    buff := match con.wbuff with
      | none => con.buff
      | some wbuff => con.buff.write (wbuff + con.writed.toNat) (data.take res.toNat)
    writed := con.writed + res
    conWrited := con.conWrited + res }

/-! ## What the state machine does to a slot -/

/-- What the first `if` of `htserv_io` makes of a slot, and what it passes on. -/
inductive Send (sndbuf : UInt16) (ok : Bool) (con' : Con) (data : List UInt8) : Prop where
  | passes : con.HasData → ok → con' = { con with wsended := con.wsended + con.count sndbuf } →
      data = con.octets (con.region sndbuf) → Send sndbuf ok con' data
  | nothing : ¬ (con.HasData ∧ ok) → con' = con → data = [] → Send sndbuf ok con' data

/-- What the second `if` makes of it. -/
inductive Ack (con' : Con) : Prop where
  | waits : ¬ con.Sended → con' = con → Ack con'
  | head : con.Sended → con.state = .wrResp →
      con' = { con.reset with conState := .active, state := .active } → Ack con'
  | complete : con.Sended → con.Complete → con' = con.reset.closing → Ack con'
  | more : con.Sended → con.state ≠ .wrResp → con' = con.reset → Ack con'

theorem send_spec (sndbuf : UInt16) (ok : Bool) :
    con.Send sndbuf ok (con.send sndbuf ok) (con.passes sndbuf ok) := by
  by_cases h : con.HasData ∧ ok
  · exact .passes h.1 h.2 (if_pos h) (if_pos h)
  · exact .nothing h (if_neg h) (if_neg h)

theorem send_state (sndbuf : UInt16) (ok : Bool) : (con.send sndbuf ok).state = con.state := by
  cases con.send_spec sndbuf ok with
  | passes _ _ hcon _ => rw [hcon]
  | nothing _ hcon _ => rw [hcon]

theorem ack_spec : con.Ack con.ack := by
  unfold ack
  split
  next hsended =>
    split
    next hstate => exact .head hsended hstate rfl
    next hstate =>
      split
      next hcomplete => exact .complete hsended hcomplete rfl
      next => exact .more hsended hstate rfl
  next hsended => exact .waits hsended rfl

/-- The state machine leaves the request alone, and a connection that reads one goes on to. -/
theorem io_reads (sndbuf : UInt16) (ok : Bool) :
    ((con.send sndbuf ok).ack.state = .rdReq ↔ con.state = .rdReq) ∧
      (con.send sndbuf ok).ack.buff = con.buff ∧ (con.send sndbuf ok).ack.reqb = con.reqb := by
  have hsend : ∃ n, con.send sndbuf ok = { con with wsended := n } := by
    cases con.send_spec sndbuf ok with
    | passes _ _ hcon _ => exact ⟨_, hcon⟩
    | nothing _ hcon _ => exact ⟨con.wsended, hcon⟩
  obtain ⟨n, hsend⟩ := hsend
  rw [hsend]
  cases ack_spec { con with wsended := n } with
  | waits _ hcon =>
      rw [hcon]
      exact ⟨.rfl, rfl, rfl⟩
  | head _ hstate hcon =>
      rw [hcon]
      refine ⟨⟨fun hrd => ?_, fun hrd => ?_⟩, rfl, rfl⟩
      · cases hrd
      · cases hstate.symm.trans hrd
  | complete _ hcomplete hcon =>
      rw [hcon]
      refine ⟨⟨fun hrd => ?_, fun hrd => ?_⟩, rfl, rfl⟩
      · cases hrd
      · cases hcomplete.1.symm.trans hrd
  | more _ _ hcon =>
      rw [hcon]
      exact ⟨.rfl, rfl, rfl⟩

end Con

end Adhoc
