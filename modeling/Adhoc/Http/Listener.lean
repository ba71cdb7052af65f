import Mathlib.Data.List.Nodup
import Adhoc.Http.Serving

/-!
# The listener

`htserv_init` binds a pcb, and every `htserv_tmr` passes what it holds to `tcp_listen`.
The first time this gives the pcb that listens.  `tcp_listen` returns `NULL` for a pcb
that listens already, because it asks for the state `CLOSED` before it asks for `LISTEN`,
so the second time the server loses its handle, and the third time it passes `NULL`.

Here are the functions of `tcp.c` that the server calls for a pcb without a connection,
with the four lists that `tcp_bind` searches for the port.  `LWIP_ERROR` returns where its
test fails, and does nothing else in this configuration.
-/

namespace Adhoc

open EventMachine

/-! ## Pcbs -/

/-- `enum tcp_state`. -/
inductive TcpState where
  | closed | listen | synSent | synRcvd | established | finWait1 | finWait2 | closeWait | closing
  | lastAck | timeWait
deriving DecidableEq

/-- A `tcp_accept_fn` that is not `NULL`. -/
inductive AcceptFn where
  | tcpAcceptNull | htservAccept
deriving DecidableEq

/-- A `struct tcp_pcb` or a `struct tcp_pcb_listen`. -/
structure TcpPcb where
  state : TcpState
  localPort : UInt16
  accept : Option AcceptFn
deriving DecidableEq

/-- A pcb that has a connection, or had one. -/
def TcpState.Connected : TcpState → Prop
  | .closed | .listen => False
  | _ => True

/-- What the functions return. -/
inductive TcpErr where
  | ok | mem | buf | val | use
deriving DecidableEq

/-- The pcbs that are allocated, `tcp_pcb_lists`, and `tcp_port`. -/
structure Tcp where
  pcbs : Pcb → Option TcpPcb
  listening : List Pcb
  bound : List Pcb
  active : List Pcb
  tw : List Pcb
  port : UInt16

/-- `TCP_LOCAL_PORT_RANGE_START`. -/
def tcpLocalPortRangeStart : UInt16 := 0xc000

/-- `TCP_LOCAL_PORT_RANGE_END`. -/
def tcpLocalPortRangeEnd : UInt16 := 0xffff

namespace Tcp

variable (s : Tcp)

/-- The pcbs of the four lists. -/
def listed : List Pcb := s.listening ++ s.bound ++ s.active ++ s.tw

/-- The port of a pcb. -/
def portOf (p : Pcb) : Option UInt16 := (s.pcbs p).map TcpPcb.localPort

/-- A pcb of the lists has the port. -/
def Uses (port : UInt16) : Prop := ∃ p ∈ s.listed, s.portOf p = some port

instance (port : UInt16) : Decidable (s.Uses port) :=
  inferInstanceAs (Decidable (∃ p ∈ s.listed, _))

/-- `tcp_new_port`, with the number of ports it may still try. -/
def newPort : Nat → Tcp → UInt16 × Tcp
  | 0, s => (0, s)
  | n + 1, s =>
      let port := if s.port = tcpLocalPortRangeEnd then tcpLocalPortRangeStart else s.port + 1
      let s := { s with port := port }
      if s.Uses port then newPort n s else (port, s)

/-- `tcp_new`, where `memp_malloc` gives `p`. -/
def new (p : Pcb) : Tcp := { s with pcbs := Function.update s.pcbs p (some ⟨.closed, 0, none⟩) }

/-- `tcp_bind` with `IP_ADDR_ANY`. -/
def bind (p : Pcb) (port : UInt16) : Option (TcpErr × Tcp) :=
  (s.pcbs p).map fun pcb =>
    if pcb.state ≠ .closed then (.val, s)
    else
      let (port, s) := if port = 0 then
        newPort ((tcpLocalPortRangeEnd - tcpLocalPortRangeStart).toNat + 1) s else (port, s)
      if port = 0 then (.buf, s)
      else if s.Uses port then (.use, s)
      else (.ok, { s with
        pcbs := Function.update s.pcbs p (some { pcb with localPort := port })
        bound := p :: s.bound })

/-- `if (pcb->local_port != 0) TCP_RMV(&tcp_bound_pcbs, pcb)`. -/
def rmvBound (p : Pcb) (pcb : TcpPcb) : List Pcb :=
  if pcb.localPort ≠ 0 then s.bound.erase p else s.bound

/-- `tcp_listen`, where `memp_malloc` gives `l`. -/
def listen (p l : Pcb) : Option (Option Pcb × Tcp) :=
  (s.pcbs p).map fun pcb =>
    if pcb.state ≠ .closed then (none, s)
    else if pcb.state = .listen then (some p, s)
    else
      let lpcb : TcpPcb := ⟨.listen, pcb.localPort, some .tcpAcceptNull⟩
      (some l, { s with
        pcbs := Function.update (Function.update s.pcbs p none) l (some lpcb)
        bound := s.rmvBound p pcb
        listening := l :: s.listening })

/-- `tcp_accept`. -/
def accept (p : Pcb) (accept : AcceptFn) : Tcp :=
  { s with pcbs := Function.update s.pcbs p ((s.pcbs p).map ({ · with accept := some accept })) }

/-- `tcp_close` of a pcb that has no connection. -/
def close (p : Pcb) : Option (TcpErr × Tcp) :=
  (s.pcbs p).bind fun pcb =>
    match pcb.state with
    | .closed => some (.ok, { s with
        pcbs := Function.update s.pcbs p none
        bound := s.rmvBound p pcb })
    | .listen => some (.ok, { s with
        pcbs := Function.update s.pcbs p none
        listening := s.listening.erase p })
    | _ => none

end Tcp

/-! ## The server -/

/-- The server, TCP, and `http_pcb`.  `nullListen` is not in the program: since `htserv_init`, a
`htserv_tmr` has passed `NULL` to `tcp_listen`. -/
structure ListenServer where
  server : HttpServer
  tcp : Tcp
  httpPcb : Option Pcb
  nullListen : Bool

namespace ListenServer

variable (s : ListenServer)

/-- `htserv_free`. -/
def htservFree : Option ListenServer :=
  match s.httpPcb with
  | none => some s
  | some p =>
      (s.tcp.close p).map fun (err, tcp) =>
        { s with tcp := tcp, httpPcb := if err = .ok then none else some p }

/-- `htserv_init`, where `tcp_new` has `p` from `memp_malloc`. -/
def htservInit (port : UInt16) (p : Option Pcb) : Option (TcpErr × ListenServer) :=
  s.htservFree.bind fun s =>
    if s.httpPcb.isSome then some (.use, s)
    else
      match p with
      | none => some (.mem, s)
      | some p =>
          ((s.tcp.new p).bind p port).bind fun (err, tcp) =>
            let s := { s with tcp := tcp, httpPcb := some p }
            if err ≠ .ok then s.htservFree.map fun s => (err, s)
            else
              let cons := fun i => { s.server.cons i with state := ConStatePriv.none }
              some (.ok, { s with
                server := { s.server with cons := cons }
                nullListen := false })

/-- `htserv_tmr`, where `tcp_listen` has `l` from `memp_malloc`.  What `tcp_listen` does with `NULL`
is not defined, and only that it got it is kept. -/
def htservTmr (l : Pcb) : Option ListenServer :=
  match s.httpPcb with
  | none => some { s with nullListen := true }
  | some p =>
      (s.tcp.listen p l).bind fun (http, tcp) =>
        let tcp := match http with
          | none => tcp
          | some q => tcp.accept q .htservAccept
        (s.server.step .tmr).map fun server =>
          { s with server := server, tcp := tcp, httpPcb := http }

end ListenServer

/-- What happens.  `syn` is a connection that comes to a pcb that listens, and `established` where
the callback is told of it.  `moves` and `gone` are what becomes of one afterwards.  `other` is
any other event of the server. -/
inductive ListenEvent where
  | tmr (l : Pcb)
  | syn (q p : Pcb)
  | established (p : Pcb)
  | moves (p : Pcb) (state : TcpState)
  | gone (p : Pcb)
  | other (e : HttpEvent)

/-- A tick. -/
def ListenEvent.isTmr : ListenEvent → Bool
  | .tmr _ => true
  | _ => false

/-- An event of the server that comes with a tick or with a new connection. -/
def HttpEvent.isListen : HttpEvent → Bool
  | .tmr | .accept _ => true
  | _ => false

namespace Tcp

variable (s : Tcp)

/-- `tcp_listen_input` for a new connection. -/
def syn (q p : Pcb) : Option Tcp :=
  if q ∈ s.listening ∧ (s.pcbs p).isNone then
    (s.pcbs q).map fun pcb => { s with
      pcbs := Function.update s.pcbs p (some { pcb with state := .synRcvd })
      active := p :: s.active }
  else none

/-- A connection takes another state, and another list with the state `TIME_WAIT`. -/
def moves (p : Pcb) (state : TcpState) : Tcp :=
  { s with
    pcbs := Function.update s.pcbs p ((s.pcbs p).map ({ · with state := state }))
    active := if state = .timeWait then s.active.erase p else s.active
    tw := if state = .timeWait ∧ p ∈ s.active then p :: s.tw else s.tw }

/-- The pcb of a connection is freed. -/
def gone (p : Pcb) : Tcp :=
  { s with
    pcbs := Function.update s.pcbs p none
    active := s.active.erase p
    tw := s.tw.erase p }

end Tcp

namespace ListenServer

variable (s : ListenServer)

/-- `TCP_EVENT_ACCEPT`.  A connection that the callback does not take is aborted. -/
def established (p : Pcb) : Option ListenServer :=
  (s.tcp.pcbs p).bind fun pcb =>
    if pcb.accept = some .htservAccept ∧ s.server.findFreeCon.isSome then
      (s.server.step (.accept p)).map fun server =>
        { s with server := server, tcp := s.tcp.moves p .established }
    else some { s with tcp := s.tcp.gone p }

/-- One event. -/
def step : ListenEvent → Option ListenServer
  | .tmr l => if (s.tcp.pcbs l).isNone then s.htservTmr l else none
  | .syn q p => (s.tcp.syn q p).map fun tcp => { s with tcp := tcp }
  | .established p => if p ∈ s.tcp.active then s.established p else none
  | .moves p state =>
      if p ∈ s.tcp.active ++ s.tcp.tw ∧ state ≠ .closed ∧ state ≠ .listen then
        some { s with tcp := s.tcp.moves p state }
      else none
  | .gone p =>
      if p ∈ s.tcp.active ++ s.tcp.tw then some { s with tcp := s.tcp.gone p } else none
  | .other e =>
      if e.isListen then none else (s.server.step e).map fun server => { s with server := server }

end ListenServer

/-- The server and its listener as a machine. -/
def listenMachine : Machine ListenServer ListenEvent := ⟨ListenServer.step⟩

/-! ## The lists -/

/-- The lists have the pcbs that belong in them, each once. -/
structure Tcp.Sound (s : Tcp) : Prop where
  finite : ∃ n, ∀ p, n ≤ p → s.pcbs p = none
  listening : ∀ p ∈ s.listening, ∃ pcb, s.pcbs p = some pcb ∧ pcb.state = .listen
  bound : ∀ p ∈ s.bound, ∃ pcb, s.pcbs p = some pcb ∧ pcb.state = .closed ∧ pcb.localPort ≠ 0
  connected : ∀ p ∈ s.active ++ s.tw, ∃ pcb, s.pcbs p = some pcb ∧ pcb.state.Connected
  listening_nodup : s.listening.Nodup
  bound_nodup : s.bound.Nodup
  connected_nodup : (s.active ++ s.tw).Nodup

namespace Tcp

variable {s : Tcp} {p q : Pcb} {pcb : TcpPcb}

/-- A pcb that is not allocated is in no list. -/
theorem Sound.notMem (h : s.Sound) (hp : s.pcbs p = none) : p ∉ s.listed := by
  intro hmem
  simp only [listed, List.mem_append] at hmem
  have hsome : ∃ pcb, s.pcbs p = some pcb := by
    rcases hmem with ((hl | hb) | ha) | ht
    · exact (h.listening p hl).imp fun _ => And.left
    · exact (h.bound p hb).imp fun _ => And.left
    · exact (h.connected p (List.mem_append_left _ ha)).imp fun _ => And.left
    · exact (h.connected p (List.mem_append_right _ ht)).imp fun _ => And.left
  obtain ⟨pcb, hpcb⟩ := hsome
  cases hp.symm.trans hpcb

theorem Sound.fresh_ne (h : s.Sound) (hp : s.pcbs p = none) (hq : q ∈ s.listed) : q ≠ p :=
  fun heq => h.notMem hp (heq ▸ hq)

theorem mem_listed_left (h : q ∈ s.listening ++ s.bound) : q ∈ s.listed :=
  List.mem_append_left _ (List.mem_append_left _ h)

theorem mem_listed_right (h : q ∈ s.active ++ s.tw) : q ∈ s.listed := by
  rw [listed, List.append_assoc]
  exact List.mem_append_right _ h

/-- A pcb that has a connection neither listens nor waits to. -/
theorem Sound.connected_ne (h : s.Sound) (hp : p ∈ s.active ++ s.tw)
    (hq : q ∈ s.listening ++ s.bound) : q ≠ p := by
  rintro rfl
  obtain ⟨pcb, hpcb, hconn⟩ := h.connected q hp
  rcases List.mem_append.mp hq with hl | hb
  · obtain ⟨pcb', hpcb', hstate⟩ := h.listening q hl
    cases hpcb.symm.trans hpcb'
    rw [hstate] at hconn
    exact hconn
  · obtain ⟨pcb', hpcb', hstate, -⟩ := h.bound q hb
    cases hpcb.symm.trans hpcb'
    rw [hstate] at hconn
    exact hconn

theorem Sound.bound_ne (h : s.Sound) (hp : p ∈ s.bound) (hq : q ∈ s.listening) : q ≠ p := by
  rintro rfl
  obtain ⟨pcb, hpcb, hclosed, -⟩ := h.bound q hp
  obtain ⟨pcb', hpcb', hlisten⟩ := h.listening q hq
  cases hpcb.symm.trans hpcb'
  cases hclosed.symm.trans hlisten

theorem finite_update (h : ∃ n, ∀ p, n ≤ p → s.pcbs p = none) (p : Pcb) (x : Option TcpPcb) :
    ∃ n, ∀ q, n ≤ q → Function.update s.pcbs p x q = none := by
  obtain ⟨n, hn⟩ := h
  refine ⟨max n (p + 1), fun q hq => ?_⟩
  have hlt : p < q := Nat.lt_of_succ_le (le_trans (le_max_right n (p + 1)) hq)
  rw [Function.update_of_ne hlt.ne']
  exact hn q (le_trans (le_max_left n (p + 1)) hq)

/-- What is done to pcbs with connections leaves the others. -/
theorem Sound.reconnect (h : s.Sound) {t : Tcp} (hlistening : t.listening = s.listening)
    (hbound : t.bound = s.bound)
    (hkept : ∀ q ∈ s.listening ++ s.bound, t.pcbs q = s.pcbs q)
    (hfinite : ∃ n, ∀ p, n ≤ p → t.pcbs p = none)
    (hconnected : ∀ p ∈ t.active ++ t.tw, ∃ pcb, t.pcbs p = some pcb ∧ pcb.state.Connected)
    (hnodup : (t.active ++ t.tw).Nodup) : t.Sound where
  finite := hfinite
  listening p hp := by
    rw [hlistening] at hp
    rw [hkept p (List.mem_append_left _ hp)]
    exact h.listening p hp
  bound p hp := by
    rw [hbound] at hp
    rw [hkept p (List.mem_append_right _ hp)]
    exact h.bound p hp
  connected := hconnected
  listening_nodup := hlistening ▸ h.listening_nodup
  bound_nodup := hbound ▸ h.bound_nodup
  connected_nodup := hnodup

/-- What is done to pcbs without a connection leaves the connections.  A pcb in one of their lists
was there before, or is as it belongs there. -/
theorem Sound.relist (h : s.Sound) {t : Tcp} (hconnected : t.active ++ t.tw = s.active ++ s.tw)
    (hkept : ∀ q ∈ s.active ++ s.tw, t.pcbs q = s.pcbs q)
    (hfinite : ∃ n, ∀ p, n ≤ p → t.pcbs p = none)
    (hlistening : ∀ q ∈ t.listening, q ∈ s.listening ∧ t.pcbs q = s.pcbs q ∨
      ∃ pcb, t.pcbs q = some pcb ∧ pcb.state = .listen)
    (hbound : ∀ q ∈ t.bound, q ∈ s.bound ∧ t.pcbs q = s.pcbs q ∨
      ∃ pcb, t.pcbs q = some pcb ∧ pcb.state = .closed ∧ pcb.localPort ≠ 0)
    (hlisteningNodup : t.listening.Nodup) (hboundNodup : t.bound.Nodup) : t.Sound where
  finite := hfinite
  listening q hq := by
    rcases hlistening q hq with ⟨hold, hpcb⟩ | hnew
    · rw [hpcb]
      exact h.listening q hold
    · exact hnew
  bound q hq := by
    rcases hbound q hq with ⟨hold, hpcb⟩ | hnew
    · rw [hpcb]
      exact h.bound q hold
    · exact hnew
  connected q hq := by
    rw [hconnected] at hq
    rw [hkept q hq]
    exact h.connected q hq
  listening_nodup := hlisteningNodup
  bound_nodup := hboundNodup
  connected_nodup := hconnected ▸ h.connected_nodup

theorem Sound.syn (h : s.Sound) {t : Tcp} (hsyn : s.syn q p = some t) :
    t.Sound ∧ t.listening = s.listening ∧ t.bound = s.bound ∧
      ∀ r ∈ s.listening ++ s.bound, t.pcbs r = s.pcbs r := by
  obtain ⟨⟨hq, hp⟩, hmap⟩ := Option.ite_none_right_eq_some.mp hsyn
  obtain ⟨pcb, hpcb, rfl⟩ := Option.map_eq_some_iff.mp hmap
  have hnone := Option.isNone_iff_eq_none.mp hp
  have hkept {r : Pcb} (hr : r ∈ s.listed) :
      Function.update s.pcbs p (some { pcb with state := .synRcvd }) r = s.pcbs r :=
    Function.update_of_ne (h.fresh_ne hnone hr) ..
  have hleft (r : Pcb) (hr : r ∈ s.listening ++ s.bound) := hkept (mem_listed_left hr)
  refine ⟨h.reconnect rfl rfl hleft (finite_update h.finite p _) ?_ ?_, rfl, rfl, hleft⟩
  · intro r hr
    rcases List.mem_cons.mp hr with rfl | hr
    · exact ⟨_, Function.update_self .., trivial⟩
    · obtain ⟨pcb', hpcb', hconn⟩ := h.connected r hr
      exact ⟨pcb', (hkept (mem_listed_right hr)).trans hpcb', hconn⟩
  · exact List.nodup_cons.mpr ⟨fun hmem => h.fresh_ne hnone (mem_listed_right hmem) rfl,
      h.connected_nodup⟩

/-- A connection stays in one of its lists. -/
theorem moves_perm (s : Tcp) (p : Pcb) (state : TcpState) :
    ((s.moves p state).active ++ (s.moves p state).tw).Perm (s.active ++ s.tw) := by
  by_cases htw : state = .timeWait
  · by_cases hp : p ∈ s.active
    · have hlists : (s.moves p state).active ++ (s.moves p state).tw =
          s.active.erase p ++ p :: s.tw := by
        simp only [moves, if_pos htw, if_pos (And.intro htw hp)]
      rw [hlists]
      exact List.perm_middle.trans (.append_right s.tw (List.perm_cons_erase hp).symm)
    · simp only [moves, htw, hp, List.erase_of_not_mem hp, if_true, and_false, if_false]
      exact .rfl
  · simp only [moves, htw, if_false, false_and]
    exact .rfl

theorem Sound.moves (h : s.Sound) (hp : p ∈ s.active ++ s.tw) {state : TcpState}
    (hstate : state.Connected) : (s.moves p state).Sound ∧
      ∀ r ∈ s.listening ++ s.bound, (s.moves p state).pcbs r = s.pcbs r := by
  have hleft (r : Pcb) (hr : r ∈ s.listening ++ s.bound) :
      (s.moves p state).pcbs r = s.pcbs r :=
    Function.update_of_ne (h.connected_ne hp hr) ..
  have hperm := s.moves_perm p state
  refine ⟨h.reconnect rfl rfl hleft (finite_update h.finite p _) ?_ ?_, hleft⟩
  · intro r hr
    obtain ⟨pcb, hpcb, hconn⟩ := h.connected r (hperm.mem_iff.mp hr)
    by_cases hrp : r = p
    · subst hrp
      refine ⟨{ pcb with state := state }, (Function.update_self ..).trans ?_, hstate⟩
      rw [hpcb]
      rfl
    · exact ⟨pcb, (Function.update_of_ne hrp ..).trans hpcb, hconn⟩
  · exact hperm.nodup_iff.mpr h.connected_nodup

theorem Sound.gone (h : s.Sound) (hp : p ∈ s.active ++ s.tw) : (s.gone p).Sound ∧
    ∀ r ∈ s.listening ++ s.bound, (s.gone p).pcbs r = s.pcbs r := by
  have hleft (r : Pcb) (hr : r ∈ s.listening ++ s.bound) : (s.gone p).pcbs r = s.pcbs r :=
    Function.update_of_ne (h.connected_ne hp hr) ..
  have hsub : (s.active.erase p ++ s.tw.erase p).Sublist (s.active ++ s.tw) :=
    List.Sublist.append List.erase_sublist List.erase_sublist
  refine ⟨h.reconnect rfl rfl hleft (finite_update h.finite p _) ?_ ?_, hleft⟩
  · intro r hr
    have hne : r ≠ p := by
      rintro rfl
      rcases List.mem_append.mp hr with ha | ht
      · exact (List.nodup_append.mp h.connected_nodup).1.not_mem_erase ha
      · exact (List.nodup_append.mp h.connected_nodup).2.1.not_mem_erase ht
    rw [show (s.gone p).pcbs r = s.pcbs r from Function.update_of_ne hne ..]
    exact h.connected r (hsub.subset hr)
  · exact h.connected_nodup.sublist hsub

/-- A pcb that was bound is freed, and another that listens is allocated. -/
theorem Sound.listen (h : s.Sound) {l : Pcb} (hp : p ∈ s.bound) (hl : s.pcbs l = none) {t : Tcp}
    {port : UInt16} {accept : Option AcceptFn}
    (hpcbs : t.pcbs = Function.update (Function.update s.pcbs p none) l
      (some ⟨.listen, port, accept⟩))
    (hlistening : t.listening = l :: s.listening) (hbound : t.bound = s.bound.erase p)
    (hactive : t.active = s.active) (htw : t.tw = s.tw) :
    t.Sound ∧ ∀ q ∈ s.listening ++ s.bound.erase p, t.pcbs q = s.pcbs q := by
  have hkept {q : Pcb} (hq : q ∈ s.listed) (hne : q ≠ p) : t.pcbs q = s.pcbs q := by
    rw [hpcbs, Function.update_of_ne (h.fresh_ne hl hq), Function.update_of_ne hne]
  have hlisten {q : Pcb} (hq : q ∈ s.listening) : t.pcbs q = s.pcbs q :=
    hkept (mem_listed_left (List.mem_append_left _ hq)) (h.bound_ne hp hq)
  have hbind {q : Pcb} (hq : q ∈ s.bound.erase p) : t.pcbs q = s.pcbs q := by
    refine hkept (mem_listed_left (List.mem_append_right _ (List.mem_of_mem_erase hq))) ?_
    rintro rfl
    exact h.bound_nodup.not_mem_erase hq
  have hconnect {q : Pcb} (hq : q ∈ s.active ++ s.tw) : t.pcbs q = s.pcbs q :=
    hkept (mem_listed_right hq) (h.connected_ne hq (List.mem_append_right _ hp)).symm
  refine ⟨h.relist (by rw [hactive, htw]) (fun q hq => hconnect hq) ?_ ?_ ?_ ?_ ?_, ?_⟩
  · rw [hpcbs]
    exact finite_update (s := { s with pcbs := Function.update s.pcbs p none })
      (finite_update h.finite p none) l _
  · intro q hq
    rw [hlistening] at hq
    rcases List.mem_cons.mp hq with rfl | hq
    · exact .inr ⟨_, (congrFun hpcbs q).trans (Function.update_self ..), rfl⟩
    · exact .inl ⟨hq, hlisten hq⟩
  · intro q hq
    rw [hbound] at hq
    exact .inl ⟨List.mem_of_mem_erase hq, hbind hq⟩
  · rw [hlistening]
    exact List.nodup_cons.mpr ⟨fun hmem =>
      h.fresh_ne hl (mem_listed_left (List.mem_append_left _ hmem)) rfl, h.listening_nodup⟩
  · rw [hbound]
    exact h.bound_nodup.erase p
  · intro q hq
    rcases List.mem_append.mp hq with hq | hq
    · exact hlisten hq
    · exact hbind hq

/-- Only the counter changes. -/
theorem newPort_eq (n : Nat) (s : Tcp) :
    (newPort n s).2 = { s with port := (newPort n s).2.port } := by
  induction n generalizing s with
  | zero => rfl
  | succ n ih =>
      simp only [newPort]
      generalize (if s.port = tcpLocalPortRangeEnd then tcpLocalPortRangeStart
        else s.port + 1) = c
      split
      next => exact ih _
      next => rfl

/-- A `tcp_bind` that succeeds gives the pcb a port that none of the lists had. -/
theorem bind_ok {t : Tcp} {port : UInt16} (hpcb : s.pcbs p = some pcb)
    (h : s.bind p port = some (.ok, t)) :
    ∃ b c, b ≠ 0 ∧ (port ≠ 0 → b = port) ∧ ¬ s.Uses b ∧ t = { s with
      port := c
      pcbs := Function.update s.pcbs p (some { pcb with localPort := b })
      bound := p :: s.bound } := by
  have hnew := newPort_eq ((tcpLocalPortRangeEnd - tcpLocalPortRangeStart).toNat + 1) s
  simp only [bind, hpcb, Option.map_some, Option.some.injEq] at h
  split at h
  next => cases h
  next =>
    by_cases hport : port = 0
    · simp only [hport, if_true] at h
      generalize newPort ((tcpLocalPortRangeEnd - tcpLocalPortRangeStart).toNat + 1) s = r at h hnew
      obtain ⟨b, u⟩ := r
      split at h
      next => cases h
      next hb =>
        split at h
        next => cases h
        next huses =>
          obtain ⟨-, rfl⟩ := Prod.mk.inj h
          rw [show u = { s with port := u.port } from hnew] at huses ⊢
          exact ⟨b, u.port, hb, fun h => absurd hport h, huses, rfl⟩
    · simp only [hport, if_false] at h
      split at h
      next => cases h
      next huses =>
        obtain ⟨-, rfl⟩ := Prod.mk.inj h
        exact ⟨port, s.port, hport, fun _ => rfl, huses, rfl⟩

theorem portOf_new (hne : q ≠ p) : (s.new p).portOf q = s.portOf q := by
  have hpcbs : (s.new p).pcbs q = s.pcbs q := Function.update_of_ne hne ..
  rw [portOf, hpcbs]
  rfl

theorem Sound.uses_new (h : s.Sound) (hp : s.pcbs p = none) (port : UInt16) :
    (s.new p).Uses port ↔ s.Uses port := by
  have hport (q : Pcb) (hq : q ∈ s.listed) : (s.new p).portOf q = s.portOf q :=
    portOf_new (h.fresh_ne hp hq)
  constructor
  · rintro ⟨q, hq, hq'⟩
    exact ⟨q, hq, (hport q hq).symm.trans hq'⟩
  · rintro ⟨q, hq, hq'⟩
    exact ⟨q, hq, (hport q hq).trans hq'⟩

theorem Sound.bindNew (h : s.Sound) {t : Tcp} {b : UInt16} (hb : b ≠ 0) (hp : s.pcbs p = none)
    (hpcbs : t.pcbs = Function.update s.pcbs p (some ⟨.closed, b, none⟩))
    (hlistening : t.listening = s.listening) (hbound : t.bound = p :: s.bound)
    (hactive : t.active = s.active) (htw : t.tw = s.tw) : t.Sound := by
  have hkept {q : Pcb} (hq : q ∈ s.listed) : t.pcbs q = s.pcbs q := by
    rw [hpcbs, Function.update_of_ne (h.fresh_ne hp hq)]
  refine h.relist (by rw [hactive, htw]) (fun q hq => hkept (mem_listed_right hq)) ?_ ?_ ?_ ?_ ?_
  · rw [hpcbs]
    exact finite_update h.finite p _
  · intro q hq
    rw [hlistening] at hq
    exact .inl ⟨hq, hkept (mem_listed_left (List.mem_append_left _ hq))⟩
  · intro q hq
    rw [hbound] at hq
    rcases List.mem_cons.mp hq with rfl | hq
    · exact .inr ⟨_, (congrFun hpcbs q).trans (Function.update_self ..), rfl, hb⟩
    · exact .inl ⟨hq, hkept (mem_listed_left (List.mem_append_right _ hq))⟩
  · rw [hlistening]
    exact h.listening_nodup
  · rw [hbound]
    exact List.nodup_cons.mpr ⟨fun hmem =>
      h.fresh_ne hp (mem_listed_left (List.mem_append_right _ hmem)) rfl, h.bound_nodup⟩

/-- A pcb that has no connection is freed, and leaves its list. -/
theorem Sound.close (h : s.Sound) (hp : p ∈ s.listening ++ s.bound) :
    ∃ t, s.close p = some (.ok, t) ∧ t.Sound ∧ t.pcbs = Function.update s.pcbs p none ∧
      t.listening = s.listening.erase p ∧ t.bound = s.bound.erase p ∧ t.active = s.active ∧
      t.tw = s.tw ∧ t.port = s.port := by
  have hsound {t : Tcp} (hpcbs : t.pcbs = Function.update s.pcbs p none)
      (hlistening : t.listening = s.listening.erase p) (hbound : t.bound = s.bound.erase p)
      (hactive : t.active = s.active) (htw : t.tw = s.tw) : t.Sound := by
    have hkept {q : Pcb} (hne : q ≠ p) : t.pcbs q = s.pcbs q := by
      rw [hpcbs, Function.update_of_ne hne]
    refine h.relist (by rw [hactive, htw]) (fun q hq => hkept (h.connected_ne hq hp).symm)
      ?_ ?_ ?_ ?_ ?_
    · rw [hpcbs]
      exact finite_update h.finite p none
    · intro q hq
      rw [hlistening] at hq
      obtain ⟨hne, hmem⟩ := h.listening_nodup.mem_erase_iff.mp hq
      exact .inl ⟨hmem, hkept hne⟩
    · intro q hq
      rw [hbound] at hq
      obtain ⟨hne, hmem⟩ := h.bound_nodup.mem_erase_iff.mp hq
      exact .inl ⟨hmem, hkept hne⟩
    · rw [hlistening]
      exact h.listening_nodup.erase p
    · rw [hbound]
      exact h.bound_nodup.erase p
  rcases List.mem_append.mp hp with hlist | hbound
  · obtain ⟨pcb, hpcb, hstate⟩ := h.listening p hlist
    have hnot : p ∉ s.bound := fun hmem => h.bound_ne hmem hlist rfl
    refine ⟨{ s with pcbs := Function.update s.pcbs p none, listening := s.listening.erase p },
      ?_, hsound rfl rfl (List.erase_of_not_mem hnot).symm rfl rfl, rfl, rfl,
      (List.erase_of_not_mem hnot).symm, rfl, rfl, rfl⟩
    simp only [Tcp.close, hpcb, Option.bind_some, hstate]
  · obtain ⟨pcb, hpcb, hstate, hport⟩ := h.bound p hbound
    have hnot : p ∉ s.listening := fun hmem => h.bound_ne hbound hmem rfl
    refine ⟨{ s with pcbs := Function.update s.pcbs p none, bound := s.bound.erase p },
      ?_, hsound rfl (List.erase_of_not_mem hnot).symm rfl rfl rfl, rfl,
      (List.erase_of_not_mem hnot).symm, rfl, rfl, rfl, rfl⟩
    simp only [Tcp.close, hpcb, Option.bind_some, hstate, rmvBound, hport, ne_eq,
      not_false_eq_true, if_true]

end Tcp

/-! ## Runs -/

/-- The server after `n` ticks, with a pcb that was bound to `port`: before the first tick the pcb
is bound, after it the server listens, and after the second it has no handle. -/
structure ListenServer.Ticked (s : ListenServer) (port : UInt16) (n : Nat) : Prop where
  sound : s.tcp.Sound
  port_ne : port ≠ 0
  nullListen : s.nullListen = decide (3 ≤ n)
  binds : n = 0 → ∃ p ∈ s.tcp.bound, s.httpPcb = some p ∧ s.tcp.portOf p = some port
  listens : n = 1 → ∃ l ∈ s.tcp.listening, s.httpPcb = some l ∧
    s.tcp.pcbs l = some ⟨.listen, port, some .htservAccept⟩
  lost : 2 ≤ n → s.httpPcb = none
  alone : n ≤ 1 → ∀ q ∈ s.tcp.listening ++ s.tcp.bound, s.tcp.portOf q = some port →
    s.httpPcb = some q

namespace ListenServer

variable {s t u : ListenServer} {port : UInt16} {n : Nat} {e : ListenEvent} {p l : Pcb}

/-- Where the pcbs without a connection are left alone, nothing changes for the listener. -/
theorem Ticked.of_kept (h : s.Ticked port n) (hsound : t.tcp.Sound) (hhttp : t.httpPcb = s.httpPcb)
    (hnull : t.nullListen = s.nullListen) (hlistening : t.tcp.listening = s.tcp.listening)
    (hbound : t.tcp.bound = s.tcp.bound)
    (hkept : ∀ q ∈ s.tcp.listening ++ s.tcp.bound, t.tcp.pcbs q = s.tcp.pcbs q) :
    t.Ticked port n where
  sound := hsound
  port_ne := h.port_ne
  nullListen := hnull.trans h.nullListen
  binds hn := by
    obtain ⟨p, hp, hp', hport⟩ := h.binds hn
    refine ⟨p, hbound ▸ hp, hhttp.trans hp', ?_⟩
    rw [Tcp.portOf, hkept p (List.mem_append_right _ hp)]
    exact hport
  listens hn := by
    obtain ⟨l, hl, hl', hpcb⟩ := h.listens hn
    exact ⟨l, hlistening ▸ hl, hhttp.trans hl', (hkept l (List.mem_append_left _ hl)).trans hpcb⟩
  lost hn := hhttp.trans (h.lost hn)
  alone hn q hq hport := by
    rw [hlistening, hbound] at hq
    rw [Tcp.portOf, hkept q hq] at hport
    exact hhttp.trans (h.alone hn q hq hport)

/-- The first tick: the pcb that was bound is freed, and one that listens takes its place. -/
theorem Ticked.first (h : s.Ticked port 0) (hl : s.tcp.pcbs l = none)
    (ht : s.htservTmr l = some t) : t.Ticked port 1 := by
  obtain ⟨p, hp, hhttp, hport⟩ := h.binds rfl
  obtain ⟨pcb, hpcb, hclosed, -⟩ := h.sound.bound p hp
  have hlocal : pcb.localPort = port := by
    rw [Tcp.portOf, hpcb] at hport
    exact Option.some.inj hport
  simp only [htservTmr, hhttp, Tcp.listen, hpcb, Option.map_some, hclosed, ne_eq, not_true,
    if_false, reduceCtorEq, Option.bind_some, hlocal, Tcp.rmvBound, h.port_ne, not_false_eq_true,
    if_true] at ht
  obtain ⟨server, -, rfl⟩ := Option.map_eq_some_iff.mp ht
  have hpcbs : (Tcp.accept { s.tcp with
      pcbs := Function.update (Function.update s.tcp.pcbs p none) l
        (some ⟨.listen, port, some .tcpAcceptNull⟩)
      bound := s.tcp.bound.erase p
      listening := l :: s.tcp.listening } l .htservAccept).pcbs =
        Function.update (Function.update s.tcp.pcbs p none) l
          (some ⟨.listen, port, some .htservAccept⟩) := by
    simp only [Tcp.accept, Function.update_self, Option.map_some, Function.update_idem]
  obtain ⟨hsound, hkept⟩ := h.sound.listen hp hl hpcbs rfl rfl rfl rfl
  refine ⟨hsound, h.port_ne, h.nullListen, fun hn => absurd hn (by decide), fun _ => ?_,
    fun hn => absurd hn (by decide), fun _ q hq hport' => ?_⟩
  · exact ⟨l, List.mem_cons_self, rfl, (congrFun hpcbs l).trans (Function.update_self ..)⟩
  · rcases List.mem_cons.mp hq with rfl | hq
    · rfl
    · -- No other pcb without a connection had the port.
      rw [Tcp.portOf, hkept q hq] at hport'
      have hmem : q ∈ s.tcp.listening ++ s.tcp.bound :=
        List.mem_append.mpr ((List.mem_append.mp hq).imp_right List.mem_of_mem_erase)
      cases hhttp.symm.trans (h.alone (Nat.zero_le 1) q hmem hport')
      rcases List.mem_append.mp hq with hlist | hbound
      · exact absurd rfl (h.sound.bound_ne hp hlist)
      · exact absurd hbound h.sound.bound_nodup.not_mem_erase

/-- The second tick: `tcp_listen` does not take a pcb that listens. -/
theorem Ticked.second (h : s.Ticked port 1) (ht : s.htservTmr l = some t) : t.Ticked port 2 := by
  obtain ⟨p, hp, hhttp, hpcb⟩ := h.listens rfl
  simp only [htservTmr, hhttp, Tcp.listen, hpcb, Option.map_some, ne_eq, reduceCtorEq,
    not_false_eq_true, if_true, Option.bind_some] at ht
  obtain ⟨server, -, rfl⟩ := Option.map_eq_some_iff.mp ht
  exact ⟨h.sound, h.port_ne, h.nullListen, fun hn => absurd hn (by decide),
    fun hn => absurd hn (by decide), fun _ => rfl, fun hn => absurd hn (by decide)⟩

/-- Any further tick passes `NULL`. -/
theorem Ticked.further (h : s.Ticked port n) (hn : 2 ≤ n) (ht : s.htservTmr l = some t) :
    t.Ticked port (n + 1) := by
  simp only [htservTmr, h.lost hn, Option.some.injEq] at ht
  subst ht
  exact ⟨h.sound, h.port_ne, (decide_eq_true (by omega)).symm, fun hn => by omega,
    fun hn => by omega, fun _ => rfl, fun hn => by omega⟩

theorem Ticked.tmr (h : s.Ticked port n) (hl : s.tcp.pcbs l = none)
    (ht : s.htservTmr l = some t) : t.Ticked port (n + 1) := by
  cases n with
  | zero => exact h.first hl ht
  | succ n =>
      cases n with
      | zero => exact h.second ht
      | succ n => exact h.further (Nat.le_add_left 2 n) ht

/-- One event.  Only a tick counts. -/
theorem Ticked.step (h : s.Ticked port n) (ht : s.step e = some t) :
    t.Ticked port (n + if e.isTmr then 1 else 0) := by
  cases e with
  | tmr l =>
      obtain ⟨hl, ht⟩ := Option.ite_none_right_eq_some.mp ht
      exact h.tmr (Option.isNone_iff_eq_none.mp hl) ht
  | syn q p =>
      obtain ⟨tcp, hsyn, rfl⟩ := Option.map_eq_some_iff.mp ht
      obtain ⟨hsound, hlistening, hbound, hkept⟩ := h.sound.syn hsyn
      exact h.of_kept hsound rfl rfl hlistening hbound hkept
  | established p =>
      obtain ⟨hp, ht⟩ := Option.ite_none_right_eq_some.mp ht
      have hmem : p ∈ s.tcp.active ++ s.tcp.tw := List.mem_append_left _ hp
      obtain ⟨pcb, -, ht⟩ := Option.bind_eq_some_iff.mp ht
      split at ht
      next =>
        obtain ⟨server, -, rfl⟩ := Option.map_eq_some_iff.mp ht
        have hstate : TcpState.Connected .established := trivial
        obtain ⟨hsound, hkept⟩ := h.sound.moves hmem hstate
        exact h.of_kept hsound rfl rfl rfl rfl hkept
      next =>
        cases ht
        obtain ⟨hsound, hkept⟩ := h.sound.gone hmem
        exact h.of_kept hsound rfl rfl rfl rfl hkept
  | moves p state =>
      obtain ⟨⟨hmem, hclosed, hlisten⟩, ⟨⟩⟩ := Option.ite_none_right_eq_some.mp ht
      have hstate : state.Connected := by
        cases state with
        | closed => exact hclosed rfl
        | listen => exact hlisten rfl
        | synSent | synRcvd | established | finWait1 | finWait2 | closeWait | closing | lastAck
        | timeWait => trivial
      obtain ⟨hsound, hkept⟩ := h.sound.moves hmem hstate
      exact h.of_kept hsound rfl rfl rfl rfl hkept
  | gone p =>
      obtain ⟨hmem, ⟨⟩⟩ := Option.ite_none_right_eq_some.mp ht
      obtain ⟨hsound, hkept⟩ := h.sound.gone hmem
      exact h.of_kept hsound rfl rfl rfl rfl hkept
  | other e =>
      obtain ⟨-, ht⟩ := Option.ite_none_left_eq_some.mp ht
      obtain ⟨server, -, rfl⟩ := Option.map_eq_some_iff.mp ht
      exact h.of_kept h.sound rfl rfl rfl rfl fun _ _ => rfl

theorem Ticked.run {es : List ListenEvent} (h : s.Ticked port n)
    (hrun : listenMachine.run s es = some t) :
    t.Ticked port (n + es.countP ListenEvent.isTmr) := by
  induction es generalizing s n with
  | nil =>
      cases hrun
      exact h
  | cons e es ih =>
      obtain ⟨u, hstep, hrest⟩ := Machine.run_cons.mp hrun
      have hnext := ih (h.step hstep) hrest
      rw [List.countP_cons, Nat.add_comm (es.countP _), ← Nat.add_assoc]
      exact hnext

/-- What `http_pcb` may be when the user calls: `NULL`, or a pcb without a connection. -/
structure Sound (s : ListenServer) : Prop where
  tcp : s.tcp.Sound
  httpPcb : ∀ p, s.httpPcb = some p → p ∈ s.tcp.listening ++ s.tcp.bound

theorem htservFree_none (hhttp : s.httpPcb = none) : s.htservFree = some s := by
  simp only [htservFree, hhttp]

/-- `htserv_free` closes the pcb. -/
theorem htservFree_some (h : s.Sound) (hp : s.httpPcb = some p) :
    ∃ tcp, s.tcp.close p = some (.ok, tcp) ∧
      s.htservFree = some { s with tcp := tcp, httpPcb := none } := by
  obtain ⟨tcp, hclose, -⟩ := h.tcp.close (h.httpPcb p hp)
  refine ⟨tcp, hclose, ?_⟩
  simp only [htservFree, hp, hclose, Option.map_some, if_true]

theorem Sound.htservFree (h : s.Sound) :
    ∃ u, s.htservFree = some u ∧ u.tcp.Sound ∧ u.httpPcb = none := by
  cases hhttp : s.httpPcb with
  | none => exact ⟨s, htservFree_none hhttp, h.tcp, hhttp⟩
  | some q =>
      obtain ⟨tcp, hclose, hsound, -⟩ := h.tcp.close (h.httpPcb q hhttp)
      obtain ⟨tcp', hclose', hfree⟩ := htservFree_some h hhttp
      cases hclose.symm.trans hclose'
      exact ⟨_, hfree, hsound, rfl⟩

/-- `htserv_init` with no pcb that is held. -/
theorem htservInit_eq (hfree : s.htservFree = some u) (hhttp : u.httpPcb = none) :
    s.htservInit port (some p) = ((u.tcp.new p).bind p port).bind fun (err, tcp) =>
      let u := { u with tcp := tcp, httpPcb := some p }
      if err ≠ .ok then u.htservFree.map fun u => (err, u)
      else some (.ok, { u with
        server := { u.server with cons := fun i => { u.server.cons i with state := .none } }
        nullListen := false }) := by
  simp only [htservInit, hfree, Option.bind_some, hhttp, Option.isSome_none, Bool.false_eq_true,
    if_false]

/-- What a `htserv_init` that succeeds does to TCP. -/
theorem htservInit_inv (hfree : s.htservFree = some u) (hhttp : u.httpPcb = none)
    (hinit : s.htservInit port (some p) = some (.ok, t)) :
    ∃ b c, b ≠ 0 ∧ (port ≠ 0 → b = port) ∧ ¬ (u.tcp.new p).Uses b ∧ t.httpPcb = some p ∧
      t.nullListen = false ∧ t.tcp = { u.tcp with
        port := c
        pcbs := Function.update u.tcp.pcbs p (some ⟨.closed, b, none⟩)
        bound := p :: u.tcp.bound } := by
  rw [htservInit_eq hfree hhttp] at hinit
  obtain ⟨⟨err, tcp⟩, hbind, hinit⟩ := Option.bind_eq_some_iff.mp hinit
  have herr : err = .ok := by
    by_contra hne
    obtain ⟨v, -, heq⟩ := Option.map_eq_some_iff.mp ((if_pos hne).symm.trans hinit)
    exact hne (Prod.mk.inj heq).1
  subst herr
  cases hinit
  obtain ⟨b, c, hb, hport, huses, rfl⟩ := Tcp.bind_ok (Function.update_self ..) hbind
  refine ⟨b, c, hb, hport, huses, rfl, rfl, ?_⟩
  simp only [Tcp.new, Function.update_idem]

/-- After a `htserv_init` that succeeded no other pcb without a connection has the port. -/
theorem Ticked.init (h : s.Sound) (hp : ∀ u, s.htservFree = some u → u.tcp.pcbs p = none)
    (hinit : s.htservInit port (some p) = some (.ok, t)) :
    ∃ b, (port ≠ 0 → b = port) ∧ t.Ticked b 0 := by
  obtain ⟨u, hfree, hsound, hhttp⟩ := h.htservFree
  obtain ⟨b, c, hb, hport, huses, hhttp', hnull, htcp⟩ := htservInit_inv hfree hhttp hinit
  have hpcbs : t.tcp.pcbs = Function.update u.tcp.pcbs p (some ⟨.closed, b, none⟩) := by rw [htcp]
  have hlistening : t.tcp.listening = u.tcp.listening := by rw [htcp]
  have hbound : t.tcp.bound = p :: u.tcp.bound := by rw [htcp]
  refine ⟨b, hport, hsound.bindNew hb (hp u hfree) hpcbs hlistening hbound (by rw [htcp])
    (by rw [htcp]), hb, hnull, fun _ => ?_, fun hn => absurd hn (by decide),
    fun hn => absurd hn (by decide), fun _ q hq hq' => ?_⟩
  · refine ⟨p, ?_, hhttp', ?_⟩
    · rw [hbound]
      exact List.mem_cons_self
    · rw [Tcp.portOf, hpcbs, Function.update_self]
      rfl
  · by_cases hqp : q = p
    · rw [hqp]
      exact hhttp'
    · rw [hlistening, hbound] at hq
      have hmem : q ∈ u.tcp.listening ++ u.tcp.bound := by
        rcases List.mem_append.mp hq with hq | hq
        · exact List.mem_append_left _ hq
        · exact List.mem_append_right _ (List.mem_of_ne_of_mem hqp hq)
      rw [Tcp.portOf, hpcbs, Function.update_of_ne hqp] at hq'
      exact absurd ⟨q, Tcp.mem_listed_left hmem, (Tcp.portOf_new hqp).trans hq'⟩ huses

/-- The server keeps its listener: it holds the pcb that listens on the port, it has not passed
`NULL` to `tcp_listen`, `htserv_free` closes the listener, and another `htserv_init` succeeds. -/
structure KeepsListener (s : ListenServer) (port : UInt16) : Prop where
  listens : ∃ l ∈ s.tcp.listening, s.httpPcb = some l ∧
    s.tcp.pcbs l = some ⟨.listen, port, some .htservAccept⟩
  nullListen : s.nullListen = false
  closes : ∃ t, s.htservFree = some t ∧ t.httpPcb = none ∧
    ∀ q ∈ t.tcp.listening, t.tcp.portOf q ≠ some port
  again : ∀ t p, s.htservFree = some t → t.tcp.pcbs p = none →
    ∃ u, t.htservInit port (some p) = some (.ok, u)

/-- A server that has no listener on a port, and no connection, gets the port. -/
theorem htservInit_ok (hhttp : s.httpPcb = none) (hport : port ≠ 0) (hp : s.tcp.pcbs p = none)
    (hsound : s.tcp.Sound) (huses : ¬ s.tcp.Uses port) :
    ∃ t, s.htservInit port (some p) = some (.ok, t) := by
  have hpcb : (s.tcp.new p).pcbs p = some ⟨.closed, 0, none⟩ := Function.update_self ..
  rw [htservInit_eq (htservFree_none hhttp) hhttp]
  simp only [Tcp.bind, hpcb, Option.map_some, ne_eq, not_true, if_false, hport,
    hsound.uses_new hp, huses, Option.bind_some]
  exact ⟨_, rfl⟩

theorem Ticked.sound_of_listens (h : s.Ticked port 1) : s.Sound := by
  obtain ⟨l, hl, hhttp, -⟩ := h.listens rfl
  refine ⟨h.sound, fun p hp => ?_⟩
  cases hhttp.symm.trans hp
  exact List.mem_append_left _ hl

/-- What is left of the port when the listener is closed is what the connections have of it. -/
theorem Ticked.uses_iff (h : s.Ticked port 1) (hfree : s.htservFree = some t) :
    t.tcp.Sound ∧ t.httpPcb = none ∧
    (∀ q ∈ t.tcp.listening ++ t.tcp.bound, t.tcp.portOf q ≠ some port) ∧
    (t.tcp.Uses port ↔ ∃ q ∈ s.tcp.active ++ s.tcp.tw, s.tcp.portOf q = some port) := by
  obtain ⟨l, hl, hhttp, -⟩ := h.listens rfl
  have hmem : l ∈ s.tcp.listening ++ s.tcp.bound := List.mem_append_left _ hl
  obtain ⟨tcp, hclose, hsound, hpcbs, hlistening, hbound, hactive, htw, -⟩ := h.sound.close hmem
  obtain ⟨tcp', hclose', hfree'⟩ := htservFree_some h.sound_of_listens hhttp
  cases hclose.symm.trans hclose'
  cases hfree'.symm.trans hfree
  have hkept {q : Pcb} (hne : q ≠ l) : tcp.portOf q = s.tcp.portOf q := by
    rw [Tcp.portOf, hpcbs, Function.update_of_ne hne]
    rfl
  have hfreed (q : Pcb) (hq : q ∈ tcp.listening ++ tcp.bound) : tcp.portOf q ≠ some port := by
    intro hport
    have hne : q ≠ l := by
      rintro rfl
      rw [Tcp.portOf, hpcbs, Function.update_self] at hport
      cases hport
    rw [hkept hne] at hport
    refine hne (Option.some.inj ((h.alone le_rfl q ?_ hport).symm.trans hhttp))
    rw [hlistening, hbound] at hq
    exact List.mem_append.mpr
      ((List.mem_append.mp hq).imp List.mem_of_mem_erase List.mem_of_mem_erase)
  refine ⟨hsound, rfl, hfreed, ?_, ?_⟩
  · rintro ⟨q, hq, hport⟩
    rw [Tcp.listed, List.append_assoc] at hq
    rcases List.mem_append.mp hq with hq | hq
    · exact absurd hport (hfreed q hq)
    · rw [hactive, htw] at hq
      exact ⟨q, hq, (hkept (h.sound.connected_ne hq hmem).symm).symm.trans hport⟩
  · rintro ⟨q, hq, hport⟩
    refine ⟨q, Tcp.mem_listed_right ?_, (hkept (h.sound.connected_ne hq hmem).symm).trans hport⟩
    rw [hactive, htw]
    exact hq

/-- After one tick the server keeps its listener unless a connection still has the port. -/
theorem Ticked.keeps_iff (h : s.Ticked port 1) :
    s.KeepsListener port ↔ ∀ q ∈ s.tcp.active ++ s.tcp.tw, s.tcp.portOf q ≠ some port := by
  obtain ⟨t, hfree, -⟩ := h.sound_of_listens.htservFree
  obtain ⟨hsound, hhttp, hfreed, huses⟩ := h.uses_iff hfree
  constructor
  · rintro hkeeps q hq hport
    obtain ⟨n, hn⟩ := hsound.finite
    have hfresh : t.tcp.pcbs n = none := hn n le_rfl
    obtain ⟨u, hinit⟩ := hkeeps.again t n hfree hfresh
    obtain ⟨b, c, -, hb, hnot, -⟩ := htservInit_inv (htservFree_none hhttp) hhttp hinit
    rw [hb h.port_ne, hsound.uses_new hfresh] at hnot
    exact hnot (huses.mpr ⟨q, hq, hport⟩)
  · intro hnot
    refine ⟨h.listens rfl, h.nullListen, ⟨t, hfree, hhttp, fun q hq =>
      hfreed q (List.mem_append_left _ hq)⟩, fun t' p hfree' hp => ?_⟩
    cases hfree.symm.trans hfree'
    refine htservInit_ok hhttp h.port_ne hp hsound fun hused => ?_
    obtain ⟨q, hq, hport⟩ := huses.mp hused
    exact hnot q hq hport

end ListenServer

/-- After `htserv_init` and at least one tick, the server keeps its listener where there was one
tick only, and no connection has the port.  No pcb listens on port 0.  `memp_malloc` gives a pcb
that is free behind `htserv_free`, so it may give the one that was closed there. -/
theorem keepsListener_iff {s t u : ListenServer} {port : UInt16} {p : Pcb}
    {es : List ListenEvent} (hs : s.Sound)
    (hp : ∀ v, s.htservFree = some v → v.tcp.pcbs p = none)
    (hinit : s.htservInit port (some p) = some (.ok, t))
    (hrun : listenMachine.run t es = some u) (hn : 1 ≤ es.countP ListenEvent.isTmr) :
    u.KeepsListener port ↔ port ≠ 0 ∧ es.countP ListenEvent.isTmr = 1 ∧
      ∀ q ∈ u.tcp.active ++ u.tcp.tw, u.tcp.portOf q ≠ some port := by
  obtain ⟨b, hb, hticked⟩ := ListenServer.Ticked.init hs hp hinit
  have hlast := hticked.run hrun
  rw [Nat.zero_add] at hlast
  constructor
  · intro hkeeps
    obtain ⟨l, -, hhttp, hpcb⟩ := hkeeps.listens
    have hone : es.countP ListenEvent.isTmr = 1 := by
      refine le_antisymm (Nat.le_of_lt_succ (Nat.lt_of_not_le fun htwo => ?_)) hn
      cases hhttp.symm.trans (hlast.lost htwo)
    rw [hone] at hlast
    obtain ⟨l', -, hhttp', hpcb'⟩ := hlast.listens rfl
    cases hhttp.symm.trans hhttp'
    cases hpcb.symm.trans hpcb'
    exact ⟨hlast.port_ne, hone, hlast.keeps_iff.mp hkeeps⟩
  · rintro ⟨hport, hone, hnot⟩
    rw [hone, hb hport] at hlast
    exact hlast.keeps_iff.mpr hnot

/-- At boot: no pcb is allocated. -/
def listenStart : ListenServer :=
  ⟨httpStart, ⟨fun _ => none, [], [], [], [], tcpLocalPortRangeStart⟩, none, false⟩

theorem sound_listenStart : listenStart.Sound :=
  ⟨⟨⟨0, fun _ _ => rfl⟩, by simp [listenStart], by simp [listenStart], by simp [listenStart],
    List.nodup_nil, List.nodup_nil, List.nodup_nil⟩, by simp [listenStart]⟩

theorem listenStart_free {p : Pcb} (v : ListenServer) (hfree : listenStart.htservFree = some v) :
    v.tcp.pcbs p = none := by
  obtain rfl := Option.some.inj hfree
  rfl

/-- `htserv_init` of port 80 at boot, and a run behind it. -/
def bootRun (es : List ListenEvent) : Option ListenServer :=
  (listenStart.htservInit 80 (some 1)).bind fun (err, t) =>
    if err = .ok then listenMachine.run t es else none

theorem bootRun_eq_some {es : List ListenEvent} {u : ListenServer} (h : bootRun es = some u) :
    ∃ t, listenStart.htservInit 80 (some 1) = some (.ok, t) ∧ listenMachine.run t es = some u := by
  obtain ⟨⟨err, t⟩, hinit, h⟩ := Option.bind_eq_some_iff.mp h
  obtain ⟨rfl, hrun⟩ := Option.ite_none_right_eq_some.mp h
  exact ⟨t, hinit, hrun⟩

/-- A tick, and `htserv_io` to its end when there is no connection. -/
def quietTick (l : Pcb) : List ListenEvent :=
  .tmr l :: List.replicate (httpServerMaxCon + 1) (.other (.go 0 false))

theorem keepsListener_bootRun : ∃ t u, listenStart.htservInit 80 (some 1) = some (.ok, t) ∧
    listenMachine.run t (quietTick 2) = some u ∧ u.KeepsListener 80 := by
  have hsome : ((bootRun (quietTick 2)).map fun u => u.tcp.active ++ u.tcp.tw) = some [] := by
    decide +kernel
  obtain ⟨u, hu, hnone⟩ := Option.map_eq_some_iff.mp hsome
  obtain ⟨t, hinit, hrun⟩ := bootRun_eq_some hu
  refine ⟨t, u, hinit, hrun,
    (keepsListener_iff sound_listenStart listenStart_free hinit hrun (by decide)).mpr
      ⟨by decide, rfl, ?_⟩⟩
  intro q hq
  rw [hnone] at hq
  cases hq

/-- The second tick loses the handle. -/
theorem not_keepsListener_bootRun : ¬ ∀ {s t u : ListenServer} {port : UInt16} {p : Pcb}
    {es : List ListenEvent}, s.Sound → (∀ v, s.htservFree = some v → v.tcp.pcbs p = none) →
    s.htservInit port (some p) = some (.ok, t) → listenMachine.run t es = some u →
    1 ≤ es.countP ListenEvent.isTmr → u.KeepsListener port := by
  intro h
  have hsome : ((bootRun (quietTick 2 ++ quietTick 3)).map ListenServer.httpPcb) = some none := by
    decide +kernel
  obtain ⟨u, hu, hnone⟩ := Option.map_eq_some_iff.mp hsome
  obtain ⟨t, hinit, hrun⟩ := bootRun_eq_some hu
  obtain ⟨l, -, hhttp, -⟩ := (h sound_listenStart listenStart_free hinit hrun (by decide)).listens
  cases hnone.symm.trans hhttp

end Adhoc
