import Adhoc.Http.Parser

/-!
# HTTP requests

The request buffer of `http_req.c`.  `rb->buff` begins at address 0 of a memory, and
a `char *` into it is an offset.  `httpReqbPush` yields the memory and the buffer
after one push.  Its parser reads the very octets it has just stored zeros into, so
during a push the memory is the one of the parser.

The loops have more rounds than the buffer has characters.
-/

namespace Adhoc

open ByteMem Scanner

/-- The octets of a text. -/
def ascii (cs : List Char) : List UInt8 := cs.map Char.toUInt8

/-! ## Strings -/

/-- `strcmp(a, s) == 0`. -/
def strcmpEq (mem : Mem) (a : Nat) (s : List UInt8) : Bool :=
  mem.read a (s.length + 1) = s ++ [0]

/-- `isspace`. -/
def isSpace (c : UInt8) : Bool := c = 0x20 || (9 ≤ c && c ≤ 13)

/-- The number some digits make. -/
def decimal (ds : List UInt8) : Nat := ds.foldl (fun n d => 10 * n + (d.toNat - 48)) 0

/-- `strtol(s, NULL, 10)` of the string that begins the octets.  A `long` has 32 bits. -/
def strtol (s : List UInt8) : Int :=
  match s.dropWhile isSpace with
  | [] => 0
  | c :: rest =>
      if c = '-'.toUInt8 then max (-2147483648) (-(decimal (rest.takeWhile isDigit) : Int))
      else if c = '+'.toUInt8 then min 2147483647 (decimal (rest.takeWhile isDigit))
      else min 2147483647 (decimal ((c :: rest).takeWhile isDigit))

/-- The size of the address space. -/
def addressSpace : Nat := 4294967296

/-- `strtol` of a pointer.  No string is longer than the address space. -/
def strtolAt (mem : Mem) (val : Nat) : Int := strtol (mem.read val addressSpace)

/-! ## Data -/

/-- `http_mt_t`. -/
inductive HttpMethod where
  | none | get | post | head | put | connect | options | delete | trace | patch
deriving DecidableEq

/-- `METHODS_STR`. -/
def HttpMethod.str : HttpMethod → List UInt8
  | none => []
  | get => ascii ['G', 'E', 'T']
  | post => ascii ['P', 'O', 'S', 'T']
  | head => ascii ['H', 'E', 'A', 'D']
  | put => ascii ['P', 'U', 'T']
  | connect => ascii ['C', 'O', 'N', 'N', 'E', 'C', 'T']
  | options => ascii ['O', 'P', 'T', 'I', 'O', 'N', 'S']
  | delete => ascii ['D', 'E', 'L', 'E', 'T', 'E']
  | trace => ascii ['T', 'R', 'A', 'C', 'E']
  | patch => ascii ['P', 'A', 'T', 'C', 'H']

/-- `METHOD_GET` to `METHOD_PATCH`. -/
def HttpMethod.known : List HttpMethod :=
  [get, post, head, put, connect, options, delete, trace, patch]

/-- `http_ct_t`. -/
inductive HttpConnType where
  | none | close | keepAlive
deriving DecidableEq

/-- `CONN_TYPE_STR`. -/
def HttpConnType.str : HttpConnType → List UInt8
  | none => []
  | close => ascii ['c', 'l', 'o', 's', 'e']
  | keepAlive => ascii ['k', 'e', 'e', 'p', '-', 'a', 'l', 'i', 'v', 'e']

/-- `HTTP_REQ_MAX_PARAMS`. -/
def httpReqMaxParams : Nat := 32

/-- `http_req_t`. -/
structure HttpReq where
  method : HttpMethod
  uri : Option Nat
  numParams : Nat
  params : List (Option Nat)
  values : List (Option Nat)
  ver : Option Nat
  host : Option Nat
  userAgent : Option Nat
  mime : Option Nat
  contLen : Int
  accept : Option Nat
  acceptLang : Option Nat
  acceptEnc : Option Nat
  cookie : Option Nat
  connType : HttpConnType
  keepAlive : Int
deriving DecidableEq

/-- `http_reqb_state_t`. -/
inductive ReqbState where
  | unfinished | finished | syntError | reqToBig
deriving DecidableEq

/-- `http_reqb_t`, the pointer to the buffer left out.  `bsize` is an `int`. -/
structure HttpReqb where
  req : HttpReq
  state : ReqbState
  bsize : Nat
  bsize_lt : bsize < 2147483648
  size : Nat
  pos : Nat
  parsingState : Nat

/-- `http_req_t` of zeros. -/
def HttpReq.zero : HttpReq where
  method := .none
  uri := none
  numParams := 0
  params := List.replicate httpReqMaxParams none
  values := List.replicate httpReqMaxParams none
  ver := none
  host := none
  userAgent := none
  mime := none
  contLen := 0
  accept := none
  acceptLang := none
  acceptEnc := none
  cookie := none
  connType := .none
  keepAlive := 0

/-- `http_reqb_init`. -/
def httpReqbInit (size : Nat) (h : size < 2147483648) : HttpReqb :=
  ⟨.zero, .unfinished, size, h, 0, 0, 0⟩

/-- `req_ident`. -/
def reqIdent (c : UInt8) : Bool :=
  c = '%'.toUInt8 || c = '-'.toUInt8 || c = '.'.toUInt8 || c = '/'.toUInt8 || isDigit c ||
    ('A'.toUInt8 ≤ c && c ≤ 'Z'.toUInt8) || c = '_'.toUInt8 ||
    ('a'.toUInt8 ≤ c && c ≤ 'z'.toUInt8)

/-! ## What strings mean -/

/-- `str_to_method`. -/
def strToMethod (mem : Mem) (str : Nat) : HttpMethod :=
  (HttpMethod.known.find? fun res => strcmpEq mem str res.str).getD .none

/-- `str_to_ct`. -/
def strToCt (mem : Mem) (str : Nat) : HttpConnType :=
  if strcmpEq mem str HttpConnType.close.str then .close
  else if strcmpEq mem str HttpConnType.keepAlive.str then .keepAlive
  else .none

def hostName : List UInt8 := ascii ['H', 'o', 's', 't']
def userAgentName : List UInt8 := ascii ['U', 's', 'e', 'r', '-', 'A', 'g', 'e', 'n', 't']
def contentTypeName : List UInt8 :=
  ascii ['C', 'o', 'n', 't', 'e', 'n', 't', '-', 'T', 'y', 'p', 'e']
def contentLengthName : List UInt8 :=
  ascii ['C', 'o', 'n', 't', 'e', 'n', 't', '-', 'L', 'e', 'n', 'g', 't', 'h']
def acceptName : List UInt8 := ascii ['A', 'c', 'c', 'e', 'p', 't']
def acceptLanguageName : List UInt8 :=
  ascii ['A', 'c', 'c', 'e', 'p', 't', '-', 'L', 'a', 'n', 'g', 'u', 'a', 'g', 'e']
def acceptEncodingName : List UInt8 :=
  ascii ['A', 'c', 'c', 'e', 'p', 't', '-', 'E', 'n', 'c', 'o', 'd', 'i', 'n', 'g']
def cookieName : List UInt8 := ascii ['C', 'o', 'o', 'k', 'i', 'e']
def connectionName : List UInt8 := ascii ['C', 'o', 'n', 'n', 'e', 'c', 't', 'i', 'o', 'n']
def keepAliveName : List UInt8 := ascii ['K', 'e', 'e', 'p', '-', 'A', 'l', 'i', 'v', 'e']

/-- `http_req_set_param`. -/
def httpReqSetParam (mem : Mem) (req : HttpReq) (name val : Nat) : HttpReq :=
  if strcmpEq mem name hostName then { req with host := some val }
  else if strcmpEq mem name userAgentName then { req with userAgent := some val }
  else if strcmpEq mem name contentTypeName then { req with mime := some val }
  else if strcmpEq mem name contentLengthName then { req with contLen := strtolAt mem val }
  else if strcmpEq mem name acceptName then { req with accept := some val }
  else if strcmpEq mem name acceptLanguageName then { req with acceptLang := some val }
  else if strcmpEq mem name acceptEncodingName then { req with acceptEnc := some val }
  else if strcmpEq mem name cookieName then { req with cookie := some val }
  else if strcmpEq mem name connectionName then { req with connType := strToCt mem val }
  else if strcmpEq mem name keepAliveName then { req with keepAlive := strtolAt mem val }
  else req

/-! ## Pushing -/

/-- The parser of a push. -/
abbrev reqSource : Source (Parser Unit) UInt8 := parserSource noRead

/-- `rb->buff[i] = 0`. -/
def Parser.store (p : Parser Unit) (i : Nat) : Parser Unit := { p with mem := p.mem.write i [0] }

/-- Behind a token in states 0 to 3: `rb->buff[p.total] = 0`, and on behind the delimiter. -/
def endToken (rb : HttpReqb) (p : Parser Unit) (state : Nat) : HttpReqb × Parser Unit :=
  let p := (parserSkipN reqSource 1 (p.store p.total)).1
  ({ rb with pos := p.total, parsingState := state }, p)

/-- `case 0`: the method. -/
def pushMethod (fuel : Nat) (rb : HttpReqb) (p : Parser Unit) :
    Option (HttpReqb × Parser Unit) := do
  let (p, _) ← parserSkipWs reqSource fuel p
  let total := p.total
  let (p, _) ← parserSkipBefore reqSource fuel ' '.toUInt8 p
  let (p, eof) := parserEof reqSource p
  if eof then some (rb, p)
  else
    let method := strToMethod (p.store p.total).mem total
    some (endToken { rb with req := { rb.req with method := method } } p 1)

/-- Behind the `parser_skip(&p, req_ident)` of the cases 1 to 3: nothing at the end of the data,
and else the state that the delimiter leads to, an error or `req` and the next state. -/
def endIdent (stateOf : UInt8 → Nat) (req : HttpReq) (rb : HttpReqb) (p : Parser Unit) :
    HttpReqb × Parser Unit :=
  let (p, eof) := parserEof reqSource p
  if eof then (rb, p)
  else
    let (p, c) := parserCurr reqSource p
    if 10 ≤ stateOf c then ({ rb with parsingState := stateOf c }, p)
    else endToken { rb with req := req } p (stateOf c)

/-- The state behind a URI that the delimiter ends. -/
def uriState (c : UInt8) : Nat :=
  if c = '?'.toUInt8 then 2 else if c = ' '.toUInt8 then 4 else 11

/-- The state behind the name of a parameter. -/
def paramState (c : UInt8) : Nat :=
  if c = '&'.toUInt8 then 2 else if c = '='.toUInt8 then 3 else if c = ' '.toUInt8 then 4 else 12

/-- The state behind the value of a parameter. -/
def valueState (c : UInt8) : Nat :=
  if c = '&'.toUInt8 then 2 else if c = ' '.toUInt8 then 4 else 13

/-- `case 1`: the URI. -/
def pushUri (fuel : Nat) (rb : HttpReqb) (p : Parser Unit) : Option (HttpReqb × Parser Unit) := do
  let (p, _) ← parserSkipWs reqSource fuel p
  let total := p.total
  let (p, _) ← parserSkip reqSource fuel reqIdent p
  some (endIdent uriState { rb.req with uri := some total } rb p)

/-- A parameter without a value, as the next one. -/
def HttpReq.addParam (req : HttpReq) (name : Nat) : HttpReq :=
  let req := { req with numParams := req.numParams + 1 }
  if req.numParams ≤ httpReqMaxParams then
    { req with
      params := req.params.set (req.numParams - 1) (some name)
      values := req.values.set (req.numParams - 1) none }
  else req

theorem HttpReq.addParam_of_le {req : HttpReq} (h : req.numParams + 1 ≤ httpReqMaxParams)
    (name : Nat) :
    req.addParam name = { req with
      numParams := req.numParams + 1
      params := req.params.set req.numParams (some name)
      values := req.values.set req.numParams none } := if_pos h

theorem HttpReq.addParam_of_not_le {req : HttpReq} (h : ¬ req.numParams + 1 ≤ httpReqMaxParams)
    (name : Nat) : req.addParam name = { req with numParams := req.numParams + 1 } := if_neg h

/-- A value, for the last parameter. -/
def HttpReq.setValue (req : HttpReq) (value : Nat) : HttpReq :=
  if req.numParams ≤ httpReqMaxParams then
    { req with values := req.values.set (req.numParams - 1) (some value) }
  else req

theorem HttpReq.setValue_of_le {req : HttpReq} (h : req.numParams ≤ httpReqMaxParams)
    (value : Nat) :
    req.setValue value = { req with values := req.values.set (req.numParams - 1) (some value) } :=
  if_pos h

theorem HttpReq.setValue_of_not_le {req : HttpReq} (h : ¬ req.numParams ≤ httpReqMaxParams)
    (value : Nat) : req.setValue value = req := if_neg h

/-- `case 2`: the name of a parameter. -/
def pushParam (fuel : Nat) (rb : HttpReqb) (p : Parser Unit) :
    Option (HttpReqb × Parser Unit) := do
  let total := p.total
  let (p, _) ← parserSkip reqSource fuel reqIdent p
  some (endIdent paramState (rb.req.addParam total) rb p)

/-- `case 3`: the value of a parameter. -/
def pushValue (fuel : Nat) (rb : HttpReqb) (p : Parser Unit) :
    Option (HttpReqb × Parser Unit) := do
  let total := p.total
  let (p, _) ← parserSkip reqSource fuel reqIdent p
  some (endIdent valueState (rb.req.setValue total) rb p)

/-- `case 4`: the version. -/
def pushVersion (fuel : Nat) (rb : HttpReqb) (p : Parser Unit) :
    Option (HttpReqb × Parser Unit) := do
  let (p, _) ← parserSkipWs reqSource fuel p
  let total := p.total
  let (p, line) ← parserSkipLine reqSource fuel p
  if !line then some (rb, p)
  else
    some ({ rb with req := { rb.req with ver := some total }, pos := p.total, parsingState := 5 },
      p.store (p.total - 2))

/-- `case 5`: a header, or the end of the request. -/
def pushHeader (fuel : Nat) (rb : HttpReqb) (p : Parser Unit) :
    Option (HttpReqb × Parser Unit) := do
  let (p, _) ← parserSkipWsInLine reqSource fuel p
  let (p, cr) := parserSkipChar reqSource '\r'.toUInt8 p
  if cr then some ({ rb with state := .finished }, p)
  else
    let (p, lf) := parserSkipChar reqSource '\n'.toUInt8 p
    if lf then some ({ rb with state := .finished }, p)
    else
      let (p, _) ← parserSkipWsInLine reqSource fuel p
      let index0 := p.total
      let (p, _) ← parserSkip reqSource fuel reqIdent p
      let (p, eof) := parserEof reqSource p
      if eof then some (rb, p)
      else
        let (p, c) := parserCurr reqSource p
        if c ≠ ':'.toUInt8 then some ({ rb with parsingState := 15 }, p)
        else
          let index1 := p.total
          let p := (parserSkipN reqSource 1 p).1
          let (p, _) ← parserSkipWsInLine reqSource fuel p
          let index2 := p.total
          let (p, line) ← parserSkipLine reqSource fuel p
          if !line then some (rb, p)
          else
            let index3 := p.total
            let p := (p.store index1).store (index3 - 2)
            some ({ rb with
              req := httpReqSetParam p.mem rb.req index0 index2
              pos := p.total }, p)

/-- The `switch`.  Every state but 0 to 5 is a syntax error. -/
def pushRound (fuel : Nat) (rb : HttpReqb) (p : Parser Unit) : Option (HttpReqb × Parser Unit) :=
  match rb.parsingState with
  | 0 => pushMethod fuel rb p
  | 1 => pushUri fuel rb p
  | 2 => pushParam fuel rb p
  | 3 => pushValue fuel rb p
  | 4 => pushVersion fuel rb p
  | 5 => pushHeader fuel rb p
  | _ => some ({ rb with state := .syntError }, p)

/-- The loop of `http_reqb_push`.  The rounds that set a state return. -/
def pushLoop (fuel : Nat) : Nat → HttpReqb → Parser Unit → Option (Mem × HttpReqb)
  | 0, _, _ => none
  | rounds + 1, rb, p =>
      let (p, eof) := parserEof reqSource p
      if eof then some (p.mem, rb)
      else
        (pushRound fuel rb p).bind fun (rb, p) =>
          if rb.state = .unfinished then pushLoop fuel rounds rb p else some (p.mem, rb)

/-- `http_reqb_push`. -/
def httpReqbPush (mem : Mem) (rb : HttpReqb) (data : List UInt8) : Option (Mem × HttpReqb) :=
  if rb.bsize ≤ rb.size + data.length then some (mem, { rb with state := .reqToBig })
  else if rb.state ≠ .unfinished then some (mem, rb)
  else
    let rb' := { rb with size := rb.size + data.length }
    let p := (parserSkipN reqSource rb.pos (parserInit (mem.write rb.size data) 0 rb'.size)).1
    pushLoop (2 * rb'.size + 2) (rb'.size + 3) rb' p

/-- One push after the other. -/
def pushAll (mem : Mem) (rb : HttpReqb) : List (List UInt8) → Option (Mem × HttpReqb)
  | [] => some (mem, rb)
  | data :: pieces => (httpReqbPush mem rb data).bind fun (mem, rb) => pushAll mem rb pieces

end Adhoc
