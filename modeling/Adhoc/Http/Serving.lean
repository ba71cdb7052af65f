import Mathlib.Data.List.FinRange
import Mathlib.Logic.Function.Basic
import Adhoc.Lib.Machine
import Adhoc.Http.Connection
import Adhoc.Http.Push

/-!
# The HTTP server

Everything that moves `htserv.c`: the callbacks of lwIP, the timer, the calls of the
user and the answers to what the server calls.  A hook of the user may call the server
again, so an entry point does not run at once.  `entry` is what a callback of lwIP has
yet to do behind the hook it called, and `calls` are the calls of `htserv_io` that are
under way, with the innermost first.  `go` takes one of them a step on.

`args` are the slots that `tcp_arg` gave the pcbs.  `History` is not in the program.  It
has what the response of a connection consists of and what of it was passed to TCP.
-/

namespace Adhoc

open ByteMem EventMachine

/-- An index of `htcons`. -/
abbrev ConSlot : Type := Fin httpServerMaxCon

/-- A call of `htserv_io` at the head of its loop or at its last `if`, or a hook it called. -/
inductive Call where
  | io (i : Nat)
  | shut (i : ConSlot)
  | hook
deriving DecidableEq

/-- What a callback of lwIP does behind its hook: `htcon_req_finished` behind `htserv_on_req` and
behind `htserv_on_err`, `htcon_received` and `htcon_err` behind `htserv_on_err`.  `stale` tells
that the callback was not for the pcb of the slot. -/
inductive Entry where
  | onReq (i : ConSlot)
  | respNomem (i : ConSlot)
  | badReq (i : ConSlot)
  | err (i : ConSlot) (stale : Bool)

/-- The response of a connection: the head and the data that were accepted, what of it was passed
to `tcp_write`, and how much was acknowledged. -/
structure History where
  accepted : List UInt8
  passed : List UInt8
  acked : Nat

namespace History

variable (h : History)

/-- More of the response was accepted. -/
def accept (data : List UInt8) : History := { h with accepted := h.accepted ++ data }

/-- More of it was passed on. -/
def pass (data : List UInt8) : History := { h with passed := h.passed ++ data }

/-- More of it was acknowledged. -/
def ack (len : UInt16) : History := { h with acked := h.acked + len.toNat }

end History

/-- The server, and its surroundings. -/
structure HttpServer where
  cons : ConSlot → Con
  args : Pcb → Option ConSlot
  entry : Option Entry
  calls : List Call
  hist : ConSlot → History

/-- What happens.  `recv` is a received buffer and `fin` the end of the client's stream.  `onReq`
tells whether `htserv_on_req` is set.  A hook that is not set is one that returns at once. -/
inductive HttpEvent where
  | accept (newpcb : Pcb)
  | recv (pcb : Pcb) (data : List UInt8) (onReq : Bool)
  | fin (pcb : Pcb)
  | sent (pcb : Pcb) (len : UInt16)
  | err (pcb : Pcb)
  /-- lwIP frees a pcb without a callback. -/
  | freed (pcb : Pcb)
  | tmr
  | write (index : Int) (data : List UInt8)
  | close (index : Int)
  | free (index : Int)
  /-- `htserv_on_req` returns. -/
  | answer (resp : HttpResp) (agrees : Bool)
  /-- Another hook returns. -/
  | ret
  /-- The program goes on.  `sndbuf` and `ok` are for `tcp_write`. -/
  | go (sndbuf : UInt16) (ok : Bool)

namespace HttpServer

variable (s : HttpServer)

/-- The main loop runs. -/
def Idle : Prop := s.entry.isNone ∧ s.calls.isEmpty

instance : Decidable s.Idle := inferInstanceAs (Decidable (_ ∧ _))

/-- Code of the user runs: the main loop or a hook. -/
def inUser : Bool :=
  match s.calls, s.entry with
  | [], none => true
  | [], some (.onReq _) => true
  | .hook :: _, _ => true
  | _, _ => false

/-- A slot changed. -/
def setCon (i : ConSlot) (con : Con) : HttpServer :=
  { s with cons := Function.update s.cons i con }

/-- `htserv_io` is called. -/
def callIo : HttpServer := { s with calls := .io 0 :: s.calls }

/-- `find_free_con`. -/
def findFreeCon : Option ConSlot := (List.finRange httpServerMaxCon).find? fun i =>
  (s.cons i).state = .none

/-- `htcon`: a slot whose state is at most `CSP_CLOSED`. -/
def htcon (index : Int) : Option ConSlot :=
  if h : 0 ≤ index ∧ index < httpServerMaxCon then
    let i : ConSlot := ⟨index.toNat, by omega⟩
    if (s.cons i).state = .active ∨ (s.cons i).state = .closing ∨ (s.cons i).state = .closed
    then some i else none
  else none

/-- The callback is not for the pcb of the slot. -/
def Stale (i : ConSlot) (pcb : Pcb) : Prop :=
  (s.cons i).pcb ≠ some pcb ∨ (s.cons i).state = .none ∨ (s.cons i).state = .closed

instance (i : ConSlot) (pcb : Pcb) : Decidable (s.Stale i pcb) :=
  inferInstanceAs (Decidable (_ ∨ _ ∨ _))

/-- `htserv_accept`. -/
def htservAccept (newpcb : Pcb) : HttpServer :=
  match s.findFreeCon with
  | none => s
  | some i =>
      { s.setCon i ((s.cons i).accept newpcb) with
        args := Function.update s.args newpcb (some i)
        hist := Function.update s.hist i ⟨[], [], 0⟩ }

/-- `htcon_req_finished`, up to `htserv_on_req`. -/
def htconReqFinished (i : ConSlot) (onReq : Bool) : HttpServer :=
  if (s.cons i).reqb.req.method ≠ .get ∨ !onReq then
    (s.setCon i { s.cons i with state := .closing }).callIo
  else
    { s.setCon i { s.cons i with resp := httpPrepareResp 200 } with entry := some (.onReq i) }

/-- `htcon_received`. -/
def htconReceived (i : ConSlot) (data : List UInt8) (onReq : Bool) : Option HttpServer :=
  if (s.cons i).state ≠ .rdReq then some s
  else
    (httpReqbPush (s.cons i).buff (s.cons i).reqb data).map fun (buff, reqb) =>
      let s := s.setCon i { s.cons i with buff := buff, reqb := reqb }
      match reqb.state with
      | .unfinished => s
      | .finished => s.htconReqFinished i onReq
      | .syntError | .reqToBig => { s with entry := some (.badReq i), calls := [.hook] }

/-- `htcon_recv` without a buffer. -/
def htconFin (i : ConSlot) : HttpServer :=
  if (s.cons i).state ≠ .closed then s.setCon i (s.cons i).closing else s

/-- `htcon_sent`. -/
def htconSent (i : ConSlot) (len : UInt16) : HttpServer :=
  { s.setCon i { s.cons i with wacksize := (s.cons i).wacksize + len.toNat } with
    hist := Function.update s.hist i ((s.hist i).ack len) }

/-- `htcon_err`, up to `htserv_on_err`. -/
def htconErr (i : ConSlot) (pcb : Pcb) : HttpServer :=
  { s with entry := some (.err i (s.Stale i pcb)), calls := [.hook] }

/-- `htcon_write`. -/
def htconWrite (index : Int) (data : List UInt8) : HttpServer :=
  match s.htcon index with
  | none => s
  | some i =>
      if (s.cons i).state ≠ .active then s
      else
        let res := (s.cons i).writeCount data.length
        if res = 0 then s
        else
          { s.setCon i ((s.cons i).write data) with
            hist := Function.update s.hist i ((s.hist i).accept (data.take res.toNat)) }.callIo

/-- `htcon_close`. -/
def htconClose (index : Int) : HttpServer :=
  match s.htcon index with
  | none => s
  | some i => if (s.cons i).state = .closed then s else (s.setCon i (s.cons i).closing).callIo

/-- `htcon_free`. -/
def htconFree (index : Int) : HttpServer :=
  match s.htcon index with
  | none => s
  | some i =>
      if (s.cons i).state ≠ .closed then s else s.setCon i { s.cons i with state := .none }

/-- `htcon_req_finished` behind `htserv_on_req`. -/
def answered (i : ConSlot) (resp : HttpResp) (agrees : Bool) : HttpServer :=
  if agrees then
    let con := (s.cons i).printResp resp
    if con.RespNomem then
      { s.setCon i con with entry := some (.respNomem i), calls := [.hook] }
    else
      { s.setCon i con.startResp with
        entry := none
        hist := Function.update s.hist i ((s.hist i).accept (httpRespStr resp)) }.callIo
  else
    { s.setCon i { s.cons i with resp := resp, state := .closing } with entry := none }.callIo

/-- The loop of `htserv_io`, up to the last `if`. -/
def htservIo (i : ConSlot) (sndbuf : UInt16) (ok : Bool) (rest : List Call) : HttpServer :=
  if (s.cons i).state = .none ∨ (s.cons i).state = .closed then
    { s with calls := .io (i + 1) :: rest }
  else
    let con := (s.cons i).send sndbuf ok
    { s.setCon i con.ack with
      calls := if con.Sended ∧ con.state = .wrResp then .hook :: .shut i :: rest
        else .shut i :: rest
      hist := Function.update s.hist i ((s.hist i).pass ((s.cons i).passes sndbuf ok)) }

/-- What an entry point does behind its hook. -/
def leave : Entry → Option HttpServer
  | .onReq _ => none
  | .respNomem i =>
      some { s.setCon i { s.cons i with state := .closing } with entry := none }.callIo
  | .badReq i => some { s.setCon i (s.cons i).closing with entry := none }.callIo
  | .err i _ => some { s.setCon i (s.cons i).closing with entry := none }

/-- The program goes on. -/
def resume (sndbuf : UInt16) (ok : Bool) : Option HttpServer :=
  match s.calls with
  | .io i :: rest =>
      if h : i < httpServerMaxCon then some (s.htservIo ⟨i, h⟩ sndbuf ok rest)
      else some { s with calls := rest }
  | .shut i :: rest => some { s.setCon i (s.cons i).shut with calls := .io (i + 1) :: rest }
  | .hook :: _ => none
  | [] => s.entry.bind s.leave

/-- One event.  lwIP calls back only from the main loop, with a slot that `tcp_arg` gave.  A buffer
it delivers has octets, and a pcb it accepts is a new one. -/
def step : HttpEvent → Option HttpServer
  | .accept newpcb => if s.Idle ∧ s.args newpcb = none then some (s.htservAccept newpcb) else none
  | .recv pcb data onReq =>
      if s.Idle ∧ data ≠ [] then (s.args pcb).bind fun i => s.htconReceived i data onReq else none
  | .fin pcb => if s.Idle then (s.args pcb).map s.htconFin else none
  | .sent pcb len => if s.Idle then (s.args pcb).map fun i => s.htconSent i len else none
  | .err pcb =>
      if s.Idle then (s.args pcb).map fun i =>
        { s.htconErr i pcb with args := Function.update s.args pcb none }
      else none
  | .freed pcb => if s.Idle then some { s with args := Function.update s.args pcb none } else none
  | .tmr => if s.Idle then some s.callIo else none
  | .write index data => if s.inUser then some (s.htconWrite index data) else none
  | .close index => if s.inUser then some (s.htconClose index) else none
  | .free index => if s.inUser then some (s.htconFree index) else none
  | .answer resp agrees =>
      match s.calls, s.entry with
      | [], some (.onReq i) => some (s.answered i resp agrees)
      | _, _ => none
  | .ret =>
      match s.calls with
      | .hook :: rest => some { s with calls := rest }
      | _ => none
  | .go sndbuf ok => s.resume sndbuf ok

end HttpServer

/-- The slot whose request a callback has yet to do with. -/
def HttpServer.pending (s : HttpServer) : Option ConSlot :=
  match s.entry with
  | some (.onReq i) | some (.respNomem i) | some (.badReq i) => some i
  | some (.err _ _) | none => none

/-- The server as a machine. -/
def httpMachine : Machine HttpServer HttpEvent := ⟨HttpServer.step⟩

/-- Behind `htserv_init`, which clears the states only.  No connection has had a response. -/
def HttpServer.Initialized (s : HttpServer) : Prop :=
  s.Idle ∧ ∀ i, (s.cons i).state = .none ∧ s.hist i = ⟨[], [], 0⟩

/-- The server behind the first `htserv_init`: memory is zero but for the states. -/
def httpStart : HttpServer where
  cons := fun _ => {
    conState := .active
    conWrited := 0
    buff := fun _ => 0
    state := .none
    pcb := none
    reqb := httpReqbInit 0 (by decide)
    resp := ⟨0, [], [], [], 0, .none⟩
    wbuff := none
    wsize := 0
    writed := 0
    wsended := 0
    wacksize := 0 }
  args := fun _ => none
  entry := none
  calls := []
  hist := fun _ => ⟨[], [], 0⟩

/-- The slot that its first connection gets. -/
def firstSlot : ConSlot := ⟨0, by decide⟩

theorem initialized_httpStart : httpStart.Initialized := ⟨⟨rfl, rfl⟩, fun _ => ⟨rfl, rfl⟩⟩

/-! ## What each function does -/

section Change

variable {s t : HttpServer} {e : HttpEvent} {i j : ConSlot}

@[simp] theorem HttpServer.setCon_self (con : Con) : (s.setCon j con).cons j = con :=
  Function.update_self ..

@[simp] theorem HttpServer.setCon_setCon (con con' : Con) :
    (s.setCon j con).setCon j con' = s.setCon j con' := by
  simp only [setCon, Function.update_idem]

@[simp] theorem HttpServer.callIo_cons : s.callIo.cons = s.cons := rfl

/-- What `htcon_received` does for the slot `j`.  A request that is read gets the data, and waits
for more, is refused, goes to the user or is bad. -/
inductive Receipt (s : HttpServer) (j : ConSlot) (data : List UInt8) : HttpServer → Prop where
  | ignored : (s.cons j).state ≠ .rdReq → Receipt s j data s
  | unfinished (buff : Mem) (reqb : HttpReqb) : (s.cons j).state = .rdReq →
      httpReqbPush (s.cons j).buff (s.cons j).reqb data = some (buff, reqb) →
        reqb.state = .unfinished →
          Receipt s j data (s.setCon j { s.cons j with buff := buff, reqb := reqb })
  | refused (buff : Mem) (reqb : HttpReqb) : (s.cons j).state = .rdReq →
      httpReqbPush (s.cons j).buff (s.cons j).reqb data = some (buff, reqb) →
        Receipt s j data
          (s.setCon j { s.cons j with buff := buff, reqb := reqb, state := .closing }).callIo
  | asked (buff : Mem) (reqb : HttpReqb) : (s.cons j).state = .rdReq →
      httpReqbPush (s.cons j).buff (s.cons j).reqb data = some (buff, reqb) →
        Receipt s j data { s.setCon j
          { s.cons j with buff := buff, reqb := reqb, resp := httpPrepareResp 200 } with
            entry := some (.onReq j) }
  | bad (buff : Mem) (reqb : HttpReqb) : (s.cons j).state = .rdReq →
      httpReqbPush (s.cons j).buff (s.cons j).reqb data = some (buff, reqb) →
        Receipt s j data { s.setCon j { s.cons j with buff := buff, reqb := reqb } with
          entry := some (.badReq j), calls := [.hook] }

theorem receipt_of {data : List UInt8} {onReq : Bool}
    (h : s.htconReceived j data onReq = some t) : Receipt s j data t := by
  unfold HttpServer.htconReceived at h
  split at h
  next hother =>
    cases h
    exact .ignored hother
  next hrd =>
    rw [not_not] at hrd
    obtain ⟨⟨buff, reqb⟩, hpush, ht⟩ := Option.map_eq_some_iff.mp h
    dsimp only at ht
    cases hstate : reqb.state with
    | unfinished =>
        rw [hstate] at ht
        cases ht
        exact .unfinished buff reqb hrd hpush hstate
    | finished =>
        rw [hstate] at ht
        simp only [HttpServer.htconReqFinished, HttpServer.setCon_self,
          HttpServer.setCon_setCon] at ht
        split at ht
        next =>
          cases ht
          exact .refused buff reqb hrd hpush
        next =>
          cases ht
          exact .asked buff reqb hrd hpush
    | syntError | reqToBig =>
        rw [hstate] at ht
        cases ht
        exact .bad buff reqb hrd hpush

theorem HttpServer.htconFin_cases (s : HttpServer) (j : ConSlot) :
    (s.cons j).state = .closed ∧ s.htconFin j = s ∨
      (s.cons j).state ≠ .closed ∧ s.htconFin j = s.setCon j (s.cons j).closing := by
  unfold HttpServer.htconFin
  split
  next hopen => exact .inr ⟨hopen, rfl⟩
  next hclosed => exact .inl ⟨not_not.mp hclosed, rfl⟩

/-- The user gets at a slot by its index. -/
theorem HttpServer.htcon_eq_some {index : Int} : s.htcon index = some j ↔ index = j ∧
    ((s.cons j).state = .active ∨ (s.cons j).state = .closing ∨ (s.cons j).state = .closed) := by
  constructor
  · intro h
    unfold HttpServer.htcon at h
    split at h
    next hindex =>
      obtain ⟨hstate, ⟨⟩⟩ := Option.ite_none_right_eq_some.mp h
      exact ⟨(Int.toNat_of_nonneg hindex.1).symm, hstate⟩
    next => cases h
  · rintro ⟨rfl, hstate⟩
    have hindex : (0 : Int) ≤ j ∧ (j : Int) < httpServerMaxCon :=
      ⟨Int.natCast_nonneg _, Int.ofNat_lt.mpr j.isLt⟩
    rw [HttpServer.htcon, dif_pos hindex]
    exact if_pos hstate

/-- The user does not get at a request that is read. -/
theorem HttpServer.htcon_ne_rdReq {index : Int} (h : s.htcon index = some j) :
    (s.cons j).state ≠ .rdReq := by
  intro hrd
  rcases (HttpServer.htcon_eq_some.mp h).2 with h | h | h <;> cases h.symm.trans hrd

theorem HttpServer.htconWrite_cases (s : HttpServer) (index : Int) (data : List UInt8) :
    s.htconWrite index data = s ∨ ∃ j, s.htcon index = some j ∧ (s.cons j).state = .active ∧
      s.htconWrite index data = { s.setCon j ((s.cons j).write data) with
        hist := Function.update s.hist j ((s.hist j).accept
          (data.take ((s.cons j).writeCount data.length).toNat)) }.callIo := by
  unfold HttpServer.htconWrite
  split
  next => exact .inl rfl
  next j hcon =>
    split
    next => exact .inl rfl
    next hactive =>
      dsimp only
      split
      next => exact .inl rfl
      next => exact .inr ⟨j, hcon, not_not.mp hactive, rfl⟩

theorem HttpServer.htconClose_cases (s : HttpServer) (index : Int) :
    s.htconClose index = s ∨ ∃ j, s.htcon index = some j ∧
      s.htconClose index = (s.setCon j (s.cons j).closing).callIo := by
  unfold HttpServer.htconClose
  split
  next => exact .inl rfl
  next j hcon =>
    split
    next => exact .inl rfl
    next => exact .inr ⟨j, hcon, rfl⟩

theorem HttpServer.htconFree_cases (s : HttpServer) (index : Int) :
    s.htconFree index = s ∨ ∃ j, s.htcon index = some j ∧
      s.htconFree index = s.setCon j { s.cons j with state := .none } := by
  unfold HttpServer.htconFree
  split
  next => exact .inl rfl
  next j hcon =>
    split
    next => exact .inl rfl
    next => exact .inr ⟨j, hcon, rfl⟩

/-- What the program does when it goes on: the innermost call of `htserv_io` has a slot, or what is
left of it, and behind the last call the callback ends. -/
inductive Resumed (s : HttpServer) (sndbuf : UInt16) (ok : Bool) : HttpServer → Prop where
  | skips (j : ConSlot) (rest : List Call) : s.calls = .io j :: rest →
      ((s.cons j).state = .none ∨ (s.cons j).state = .closed) →
        Resumed s sndbuf ok { s with calls := .io (j + 1) :: rest }
  | io (j : ConSlot) (rest calls : List Call) : s.calls = .io j :: rest →
      ¬ ((s.cons j).state = .none ∨ (s.cons j).state = .closed) →
        (calls = .shut j :: rest ∨ calls = .hook :: .shut j :: rest) →
          Resumed s sndbuf ok { s.setCon j ((s.cons j).send sndbuf ok).ack with
            calls := calls
            hist := Function.update s.hist j ((s.hist j).pass ((s.cons j).passes sndbuf ok)) }
  | ends (k : Nat) (rest : List Call) : s.calls = .io k :: rest → httpServerMaxCon ≤ k →
      Resumed s sndbuf ok { s with calls := rest }
  | shut (j : ConSlot) (rest : List Call) : s.calls = .shut j :: rest →
      Resumed s sndbuf ok { s.setCon j (s.cons j).shut with calls := .io (j + 1) :: rest }
  | leaves (entry : Entry) (t : HttpServer) : s.calls = [] → s.entry = some entry →
      s.leave entry = some t → Resumed s sndbuf ok t

theorem resumed_of {sndbuf : UInt16} {ok : Bool} (h : s.resume sndbuf ok = some t) :
    Resumed s sndbuf ok t := by
  unfold HttpServer.resume at h
  split at h
  next k rest hcalls =>
    split at h
    next hk =>
      cases h
      unfold HttpServer.htservIo
      split
      next hunused => exact .skips ⟨k, hk⟩ rest hcalls hunused
      next hlive =>
        refine .io ⟨k, hk⟩ rest _ hcalls hlive ?_
        split
        next => exact .inr rfl
        next => exact .inl rfl
    next hk =>
      cases h
      exact .ends k rest hcalls (Nat.le_of_not_lt hk)
  next j rest hcalls =>
    cases h
    exact .shut j rest hcalls
  next => cases h
  next hcalls =>
    obtain ⟨entry, hentry, ht⟩ := Option.bind_eq_some_iff.mp h
    exact .leaves entry t hcalls hentry ht

/-! ## What a step does to a slot -/

/-- The states in which a connection does nothing more. -/
def ConStatePriv.Ended : ConStatePriv → Prop
  | .closing | .closed | .none => True
  | .active | .rdReq | .wrResp => False

/-- What an event does to a slot and to the history of its connection, and whether the slot is
pending behind it. -/
inductive Change (s t : HttpServer) (e : HttpEvent) (i : ConSlot) : Prop where
  | same : (t.pending = some i ↔ s.pending = some i) → t.cons i = s.cons i → t.hist i = s.hist i →
      Change s t e i
  | accept (newpcb : Pcb) : t.pending = none → e = .accept newpcb → s.findFreeCon = some i →
      t.cons i = (s.cons i).accept newpcb → t.hist i = ⟨[], [], 0⟩ → Change s t e i
  | push (data : List UInt8) (buff : Mem) (reqb : HttpReqb) (resp : HttpResp)
      (state : ConStatePriv) : s.Idle → (s.cons i).state = .rdReq →
        httpReqbPush (s.cons i).buff (s.cons i).reqb data = some (buff, reqb) →
          (state = .rdReq ∧ (reqb.state = .unfinished ∨ t.pending = some i) ∨
            state = .closing ∧ t.pending = none) →
            t.cons i = { s.cons i with buff := buff, reqb := reqb, resp := resp, state := state } →
              t.hist i = s.hist i → Change s t e i
  | ended (conState : ConState) (state : ConStatePriv) (pcb : Option Pcb) (resp : HttpResp) :
      (t.pending = some i → s.pending = some i ∧ (s.cons i).state ≠ .rdReq) → state.Ended →
        t.cons i =
          { s.cons i with conState := conState, state := state, pcb := pcb, resp := resp } →
          t.hist i = s.hist i → Change s t e i
  | respNomem (resp : HttpResp) : s.entry = some (.onReq i) → t.pending = some i →
      t.cons i = (s.cons i).printResp resp → t.hist i = s.hist i → Change s t e i
  | respond (resp : HttpResp) : s.entry = some (.onReq i) → t.pending = none →
      ¬ ((s.cons i).printResp resp).RespNomem →
        t.cons i = ((s.cons i).printResp resp).startResp →
          t.hist i = (s.hist i).accept (httpRespStr resp) → Change s t e i
  | sent (pcb : Pcb) (len : UInt16) : t.pending = s.pending → e = .sent pcb len →
      s.args pcb = some i →
        t.cons i = { s.cons i with wacksize := (s.cons i).wacksize + len.toNat } →
          t.hist i = (s.hist i).ack len → Change s t e i
  | io (sndbuf : UInt16) (ok : Bool) (rest : List Call) : t.pending = s.pending →
      e = .go sndbuf ok → s.calls = .io i :: rest →
        ¬ ((s.cons i).state = .none ∨ (s.cons i).state = .closed) →
          t.cons i = ((s.cons i).send sndbuf ok).ack →
            t.hist i = (s.hist i).pass ((s.cons i).passes sndbuf ok) → Change s t e i
  | write (data : List UInt8) : t.pending = s.pending → (s.cons i).state = .active →
      t.cons i = (s.cons i).write data →
        t.hist i = (s.hist i).accept (data.take ((s.cons i).writeCount data.length).toNat) →
          Change s t e i

/-- A step that changes one slot and its history. -/
theorem Change.of_update {con : Con} {hist : History}
    (hpending : ∀ i, i ≠ j → (t.pending = some i ↔ s.pending = some i))
    (hcons : t.cons = Function.update s.cons j con)
    (hhist : t.hist = Function.update s.hist j hist)
    (hj : t.cons j = con → t.hist j = hist → Change s t e j) : Change s t e i := by
  by_cases hi : i = j
  · subst hi
    exact hj (by rw [hcons, Function.update_self]) (by rw [hhist, Function.update_self])
  · refine .same (hpending i hi) ?_ ?_
    · rw [hcons, Function.update_of_ne hi]
    · rw [hhist, Function.update_of_ne hi]

/-- A step that changes one slot and no history. -/
theorem Change.of_setCon {con : Con}
    (hpending : ∀ i, i ≠ j → (t.pending = some i ↔ s.pending = some i))
    (hcons : t.cons = Function.update s.cons j con) (hhist : t.hist = s.hist)
    (hj : t.cons j = con → t.hist j = s.hist j → Change s t e j) : Change s t e i :=
  .of_update hpending hcons (hhist.trans (Function.update_eq_self j s.hist).symm) hj

theorem HttpServer.Idle.pending (h : s.Idle) : s.pending = none := by
  rw [HttpServer.pending, Option.isNone_iff_eq_none.mp h.1]

theorem HttpServer.pending_onReq (h : s.entry = some (.onReq i)) : s.pending = some i := by
  rw [HttpServer.pending, h]

theorem change_htservAccept (hidle : s.Idle) (newpcb : Pcb) (i : ConSlot) :
    Change s (s.htservAccept newpcb) (.accept newpcb) i := by
  unfold HttpServer.htservAccept
  split
  next => exact .same .rfl rfl rfl
  next j hfree =>
    exact .of_update (fun _ _ => .rfl) rfl rfl (.accept newpcb hidle.pending rfl hfree)

theorem change_htconReceived {data : List UInt8} {onReq : Bool} (hidle : s.Idle)
    (h : s.htconReceived j data onReq = some t) (i : ConSlot) : Change s t e i := by
  have hnone := hidle.pending
  have hother {i : ConSlot} (hi : i ≠ j) : some j = some i ↔ s.pending = some i := by
    rw [hnone]
    exact iff_of_false (fun heq => hi (Option.some.inj heq).symm)
      (Option.some_ne_none i).symm
  have hkept (hrd : (s.cons j).state = .rdReq) (buff : Mem) (reqb : HttpReqb) (resp : HttpResp) :
      { s.cons j with buff := buff, reqb := reqb, resp := resp } =
        { s.cons j with buff := buff, reqb := reqb, resp := resp, state := .rdReq } := by
    rw [← hrd]
  cases receipt_of h with
  | ignored => exact .same .rfl rfl rfl
  | unfinished buff reqb hrd hpush hstate =>
      refine .of_setCon (fun _ _ => .rfl) rfl rfl fun hcon => ?_
      exact .push data buff reqb _ .rdReq hidle hrd hpush (.inl ⟨rfl, .inl hstate⟩)
        (hcon.trans (hkept hrd buff reqb _))
  | refused buff reqb hrd hpush =>
      exact .of_setCon (fun _ _ => .rfl) rfl rfl
        (.push data buff reqb _ .closing hidle hrd hpush (.inr ⟨rfl, hnone⟩))
  | asked buff reqb hrd hpush =>
      refine .of_setCon (fun _ hi => hother hi) rfl rfl fun hcon => ?_
      exact .push data buff reqb _ .rdReq hidle hrd hpush (.inl ⟨rfl, .inr rfl⟩)
        (hcon.trans (hkept hrd buff reqb _))
  | bad buff reqb hrd hpush =>
      refine .of_setCon (fun _ hi => hother hi) rfl rfl fun hcon => ?_
      exact .push data buff reqb _ .rdReq hidle hrd hpush (.inl ⟨rfl, .inr rfl⟩)
        (hcon.trans (hkept hrd buff reqb _))

theorem change_htconFin (hidle : s.Idle) (i : ConSlot) : Change s (s.htconFin j) e i := by
  rcases s.htconFin_cases j with ⟨-, heq⟩ | ⟨-, heq⟩
  · rw [heq]
    exact .same .rfl rfl rfl
  · rw [heq]
    refine .of_setCon (fun _ _ => .rfl) rfl rfl (.ended .closing .closing _ _ ?_ trivial)
    exact fun hpending => by cases hidle.pending.symm.trans hpending

theorem change_htconWrite (index : Int) (data : List UInt8) (i : ConSlot) :
    Change s (s.htconWrite index data) e i := by
  rcases s.htconWrite_cases index data with heq | ⟨j, -, hactive, heq⟩
  · rw [heq]
    exact .same .rfl rfl rfl
  · rw [heq]
    exact .of_update (fun _ _ => .rfl) rfl rfl (.write data rfl hactive)

theorem change_htconClose (index : Int) (i : ConSlot) : Change s (s.htconClose index) e i := by
  rcases s.htconClose_cases index with heq | ⟨j, hcon, heq⟩
  · rw [heq]
    exact .same .rfl rfl rfl
  · rw [heq]
    exact .of_setCon (fun _ _ => .rfl) rfl rfl (.ended .closing .closing _ _
      (fun hpending => ⟨hpending, HttpServer.htcon_ne_rdReq hcon⟩) trivial)

theorem change_htconFree (index : Int) (i : ConSlot) : Change s (s.htconFree index) e i := by
  rcases s.htconFree_cases index with heq | ⟨j, hcon, heq⟩
  · rw [heq]
    exact .same .rfl rfl rfl
  · rw [heq]
    exact .of_setCon (fun _ _ => .rfl) rfl rfl (.ended _ .none _ _
      (fun hpending => ⟨hpending, HttpServer.htcon_ne_rdReq hcon⟩) trivial)

/-- Where `j` was pending and nothing is, no other slot's pendency changes. -/
theorem pending_of_none (hs : s.pending = some j) (ht : t.pending = none) (hi : i ≠ j) :
    t.pending = some i ↔ s.pending = some i := by
  rw [hs, ht]
  exact iff_of_false (Option.some_ne_none i).symm fun heq => hi (Option.some.inj heq).symm

theorem change_answered (hentry : s.entry = some (.onReq j)) (resp : HttpResp) (agrees : Bool)
    (i : ConSlot) : Change s (s.answered j resp agrees) e i := by
  have hs := HttpServer.pending_onReq hentry
  unfold HttpServer.answered
  split
  next =>
    dsimp only
    split
    next =>
      exact .of_setCon (fun _ _ => by rw [hs]; exact .rfl) rfl rfl (.respNomem resp hentry rfl)
    next hfits =>
      exact .of_update (fun _ hi => pending_of_none hs rfl hi) rfl rfl
        (.respond resp hentry rfl hfits)
  next =>
    exact .of_setCon (fun _ hi => pending_of_none hs rfl hi) rfl rfl
      (.ended _ .closing _ resp nofun trivial)

theorem change_leave {entry : Entry} (hentry : s.entry = some entry) (h : s.leave entry = some t)
    (i : ConSlot) : Change s t e i := by
  cases entry with
  | onReq j => cases h
  | respNomem j =>
      have hs : s.pending = some j := by rw [HttpServer.pending, hentry]
      cases h
      exact .of_setCon (fun _ hi => pending_of_none hs rfl hi) rfl rfl
        (.ended _ .closing _ _ nofun trivial)
  | badReq j =>
      have hs : s.pending = some j := by rw [HttpServer.pending, hentry]
      cases h
      exact .of_setCon (fun _ hi => pending_of_none hs rfl hi) rfl rfl
        (.ended .closing .closing _ _ nofun trivial)
  | err j stale =>
      have hs : s.pending = none := by rw [HttpServer.pending, hentry]
      cases h
      exact .of_setCon (fun _ _ => by rw [hs]; exact .rfl) rfl rfl
        (.ended .closing .closing _ _ nofun trivial)

theorem change_resume {sndbuf : UInt16} {ok : Bool} (h : s.resume sndbuf ok = some t)
    (he : e = .go sndbuf ok) (i : ConSlot) : Change s t e i := by
  cases resumed_of h with
  | skips j rest hcalls hunused => exact .same .rfl rfl rfl
  | io j rest calls hcalls hlive _ =>
      exact .of_update (fun _ _ => .rfl) rfl rfl (.io sndbuf ok rest rfl he hcalls hlive)
  | ends k rest hcalls hk => exact .same .rfl rfl rfl
  | shut j rest hcalls =>
      by_cases hclosing : (s.cons j).state = .closing
      · refine .of_setCon (fun _ _ => .rfl) rfl rfl fun hcon => ?_
        refine .ended .closed .closed none _ (fun hpending => ⟨hpending, ?_⟩) trivial
          (hcon.trans (if_pos hclosing))
        exact fun hrd => by cases hclosing.symm.trans hrd
      · refine .of_setCon (fun _ _ => .rfl) rfl rfl fun hcon hhist => ?_
        exact .same .rfl (hcon.trans (if_neg hclosing)) hhist
  | leaves entry _ hcalls hentry hleave => exact change_leave hentry hleave i

/-- What a step does to a slot. -/
theorem change_of_step (h : s.step e = some t) (i : ConSlot) : Change s t e i := by
  cases e with
  | accept newpcb =>
      obtain ⟨⟨hidle, -⟩, ⟨⟩⟩ := Option.ite_none_right_eq_some.mp h
      exact change_htservAccept hidle newpcb i
  | recv pcb data onReq =>
      obtain ⟨⟨hidle, -⟩, hbind⟩ := Option.ite_none_right_eq_some.mp h
      obtain ⟨j, -, ht⟩ := Option.bind_eq_some_iff.mp hbind
      exact change_htconReceived hidle ht i
  | fin pcb =>
      obtain ⟨hidle, hmap⟩ := Option.ite_none_right_eq_some.mp h
      obtain ⟨j, -, rfl⟩ := Option.map_eq_some_iff.mp hmap
      exact change_htconFin hidle i
  | sent pcb len =>
      obtain ⟨-, hmap⟩ := Option.ite_none_right_eq_some.mp h
      obtain ⟨j, hj, rfl⟩ := Option.map_eq_some_iff.mp hmap
      exact .of_update (fun _ _ => .rfl) rfl rfl (.sent pcb len rfl rfl hj)
  | err pcb =>
      obtain ⟨hidle, hmap⟩ := Option.ite_none_right_eq_some.mp h
      obtain ⟨j, -, rfl⟩ := Option.map_eq_some_iff.mp hmap
      exact .same (by rw [hidle.pending]; exact .rfl) rfl rfl
  | freed pcb =>
      obtain ⟨-, ⟨⟩⟩ := Option.ite_none_right_eq_some.mp h
      exact .same .rfl rfl rfl
  | tmr =>
      obtain ⟨-, ⟨⟩⟩ := Option.ite_none_right_eq_some.mp h
      exact .same .rfl rfl rfl
  | write index data =>
      obtain ⟨-, ⟨⟩⟩ := Option.ite_none_right_eq_some.mp h
      exact change_htconWrite index data i
  | close index =>
      obtain ⟨-, ⟨⟩⟩ := Option.ite_none_right_eq_some.mp h
      exact change_htconClose index i
  | free index =>
      obtain ⟨-, ⟨⟩⟩ := Option.ite_none_right_eq_some.mp h
      exact change_htconFree index i
  | answer resp agrees =>
      simp only [HttpServer.step] at h
      split at h
      next j hcalls hentry =>
        cases h
        exact change_answered hentry resp agrees i
      next => cases h
  | ret =>
      simp only [HttpServer.step] at h
      split at h
      next =>
        cases h
        exact .same .rfl rfl rfl
      next => cases h
  | go sndbuf ok => exact change_resume h rfl i

end Change

end Adhoc
