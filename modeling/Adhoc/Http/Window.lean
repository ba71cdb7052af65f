import Mathlib.Data.List.Infix
import Adhoc.Http.Isolation

/-!
# The write window

What `htserv_io` sends is `[wbuff + wsended, wbuff + writed)`, and `wsize` octets are there.
`htcon_req_finished` sets all of this, and `htserv_accept` all but `writed`.  Here is which
octets these are, in a server where a slot is not used again before its `writed` is 0.
-/

namespace Adhoc

open ByteMem EventMachine

/-! ## Slots -/

/-- The counters are in order, and what is written is behind the request. -/
structure Con.Windowed (con : Con) : Prop where
  sended_nonneg : 0 ≤ con.wsended
  sended_le : con.wsended ≤ con.writed
  writed_le : con.writed ≤ con.wsize
  behind : 0 < con.writed →
    con.wbuff = some con.reqb.size ∧ con.wsize = httpConBuffSize - con.reqb.size

/-- A slot that reads a request has nothing to send. -/
structure Con.Asks (con : Con) (h : History) : Prop where
  bsize : con.reqb.bsize = httpReqMaxSize
  size_lt : con.reqb.size < httpReqMaxSize
  writed : con.writed = 0
  wsended : con.wsended = 0
  wsize : 0 ≤ con.wsize
  accepted : h.accepted = []
  passed : h.passed = []

/-- A slot that responds: the written octets are the end of what was accepted. -/
structure Con.Responds (con : Con) (h : History) : Prop where
  sended_nonneg : 0 ≤ con.wsended
  sended_le : con.wsended ≤ con.writed
  writed_le : con.writed ≤ con.wsize
  wbuff : con.wbuff = some con.reqb.size
  wsize : con.wsize = httpConBuffSize - con.reqb.size
  octets : con.buff.read con.reqb.size con.writed.toNat <:+ h.accepted

/-- A slot and the history of its connection. -/
structure Con.Sound (con : Con) (h : History) : Prop where
  asks : con.state = .rdReq → con.Asks h
  responds : con.state = .wrResp ∨ con.state = .active → con.Responds h

namespace Con

variable {con : Con} {h : History} {sndbuf : UInt16} {ok : Bool}

theorem sound_of_ended (hended : con.state.Ended) : con.Sound h where
  asks hstate := by
    rw [hstate] at hended
    exact hended.elim
  responds hstate := by
    rcases hstate with hstate | hstate <;> rw [hstate] at hended <;> exact hended.elim

theorem sound_of_asks (hstate : con.state = .rdReq) (hasks : con.Asks h) : con.Sound h where
  asks _ := hasks
  responds hother := by
    rcases hother with hother | hother <;> cases hstate.symm.trans hother

theorem sound_of_responds (hstate : con.state ≠ .rdReq) (hresponds : con.Responds h) :
    con.Sound h where
  asks hrd := absurd hrd hstate
  responds _ := hresponds

/-- A connection that has not ended reads a request or responds. -/
theorem Sound.cases (hsound : con.Sound h) (hlive : ¬ con.state.Ended) :
    con.state = .rdReq ∧ con.Asks h ∨ con.state ≠ .rdReq ∧ con.Responds h := by
  cases hstate : con.state with
  | rdReq => exact .inl ⟨rfl, hsound.asks hstate⟩
  | wrResp => exact .inr ⟨by decide, hsound.responds (.inl hstate)⟩
  | active => exact .inr ⟨by decide, hsound.responds (.inr hstate)⟩
  | closing | closed | none =>
      rw [hstate] at hlive
      exact absurd trivial hlive

theorem Sound.windowed (hsound : con.Sound h) (hlive : ¬ con.state.Ended) : con.Windowed := by
  rcases hsound.cases hlive with ⟨-, hasks⟩ | ⟨-, hresponds⟩
  · refine ⟨?_, ?_, ?_, ?_⟩
    · exact hasks.wsended.ge
    · rw [hasks.wsended, hasks.writed]
    · rw [hasks.writed]
      exact hasks.wsize
    · intro hpos
      rw [hasks.writed] at hpos
      exact absurd hpos (lt_irrefl 0)
  · exact ⟨hresponds.sended_nonneg, hresponds.sended_le, hresponds.writed_le, fun _ =>
      ⟨hresponds.wbuff, hresponds.wsize⟩⟩

/-! ## What the state machine keeps -/

theorem count_le (sndbuf : UInt16) : con.count sndbuf ≤ con.writed - con.wsended := by
  unfold count
  split <;> omega

theorem count_nonneg (hle : con.wsended ≤ con.writed) (sndbuf : UInt16) : 0 ≤ con.count sndbuf := by
  unfold count
  split <;> omega

theorem send_eq (hnone : ¬ con.HasData) : con.send sndbuf ok = con :=
  if_neg fun hand => hnone hand.1

/-- With nothing to send and nothing sent, the state machine leaves a slot alone. -/
theorem io_eq (hnone : ¬ con.HasData) (hwaits : ¬ con.Sended) (sndbuf : UInt16) (ok : Bool) :
    (con.send sndbuf ok).ack = con ∧ con.passes sndbuf ok = [] := by
  rw [send_eq hnone]
  exact ⟨if_neg hwaits, if_neg fun hand => hnone hand.1⟩

theorem Asks.not_hasData (hasks : con.Asks h) : ¬ con.HasData := by
  rintro ⟨-, hlt⟩
  rw [hasks.wsended, hasks.writed] at hlt
  exact lt_irrefl 0 hlt

theorem Asks.not_sended (hasks : con.Asks h) : ¬ con.Sended := by
  rintro ⟨-, -, hpos⟩
  rw [hasks.wsended] at hpos
  exact lt_irrefl 0 hpos

theorem io_closing (hstate : con.state = .closing) (sndbuf : UInt16) (ok : Bool) :
    (con.send sndbuf ok).ack = con ∧ con.passes sndbuf ok = [] :=
  io_eq (fun hdata => hdata.1 hstate) (fun hsended => hsended.1 hstate) sndbuf ok

theorem closing_of_ended (hended : con.state.Ended)
    (hlive : ¬ (con.state = .none ∨ con.state = .closed)) : con.state = .closing := by
  cases hstate : con.state with
  | closing => rfl
  | closed => exact absurd (.inr hstate) hlive
  | none => exact absurd (.inl hstate) hlive
  | active | rdReq | wrResp =>
      rw [hstate] at hended
      exact hended.elim

theorem Responds.send (hresponds : con.Responds h) :
    (con.send sndbuf ok).Responds (h.pass (con.passes sndbuf ok)) := by
  have hnonneg := hresponds.sended_nonneg
  have hcount := count_nonneg hresponds.sended_le sndbuf
  have hle := con.count_le sndbuf
  cases con.send_spec sndbuf ok with
  | passes _ _ hcon _ =>
      rw [hcon]
      exact { hresponds with
        sended_nonneg := Int.add_nonneg hnonneg hcount
        sended_le := show con.wsended + con.count sndbuf ≤ con.writed by omega }
  | nothing _ hcon _ =>
      rw [hcon]
      exact { hresponds with }

/-- With the counters cleared. -/
theorem Responds.reset (hresponds : con.Responds h) : con.reset.Responds h where
  sended_nonneg := le_refl 0
  sended_le := le_refl 0
  writed_le := Int.le_trans (Int.le_trans hresponds.sended_nonneg hresponds.sended_le)
    hresponds.writed_le
  wbuff := hresponds.wbuff
  wsize := hresponds.wsize
  octets := List.nil_suffix

theorem Responds.ack (hresponds : con.Responds h) (hstate : con.state ≠ .rdReq) :
    con.ack.Sound h := by
  cases con.ack_spec with
  | waits _ hcon =>
      rw [hcon]
      exact sound_of_responds hstate hresponds
  | head _ _ hcon =>
      rw [hcon]
      exact sound_of_responds (fun hrd => by cases hrd) { hresponds.reset with }
  | complete _ _ hcon =>
      rw [hcon]
      exact sound_of_ended trivial
  | more _ _ hcon =>
      rw [hcon]
      exact sound_of_responds hstate hresponds.reset

theorem Sound.io (hsound : con.Sound h) (hlive : ¬ (con.state = .none ∨ con.state = .closed)) :
    (con.send sndbuf ok).ack.Sound (h.pass (con.passes sndbuf ok)) := by
  by_cases hended : con.state.Ended
  · rw [(io_closing (closing_of_ended hended hlive) sndbuf ok).1]
    exact sound_of_ended hended
  · rcases hsound.cases hended with ⟨hstate, hasks⟩ | ⟨hstate, hresponds⟩
    · obtain ⟨hio, hpasses⟩ := con.io_eq hasks.not_hasData hasks.not_sended sndbuf ok
      rw [hio, hpasses, History.pass, List.append_nil]
      exact sound_of_asks hstate { hasks with }
    · refine hresponds.send.ack fun hrd => hstate ?_
      rwa [← con.send_state sndbuf ok]

/-- What is passed to `tcp_write` is behind the request, in the buffer, and of the response. -/
theorem Responds.region (hresponds : con.Responds h) :
    ∃ off n, con.region sndbuf = (some off, n) ∧ off + n ≤ httpConBuffSize ∧
      con.buff.read off n <:+: h.accepted := by
  have hnonneg := hresponds.sended_nonneg
  have hle := hresponds.writed_le
  have hcount := count_nonneg hresponds.sended_le sndbuf
  have hcount' := con.count_le sndbuf
  have hin : con.wsended.toNat + (con.count sndbuf).toNat ≤ con.writed.toNat := by omega
  refine ⟨con.reqb.size + con.wsended.toNat, (con.count sndbuf).toNat, ?_, ?_, ?_⟩
  · rw [Con.region, hresponds.wbuff]
    rfl
  · rw [hresponds.wsize] at hle
    omega
  · rw [← con.buff.take_drop_read con.reqb.size hin]
    exact (List.take_prefix _ _).isInfix.trans
      ((List.drop_suffix _ _).isInfix.trans hresponds.octets.isInfix)

/-! ## What the program keeps -/

theorem writeCount_nonneg (size : Int) : 0 ≤ con.writeCount size := by
  simp only [writeCount]
  split <;> omega

theorem writeCount_le (size : Int) (hle : con.writed ≤ con.wsize) :
    con.writeCount size ≤ con.wsize - con.writed := by
  simp only [writeCount]
  split <;> split <;> omega

theorem writeCount_le_size {size : Int} (hsize : 0 ≤ size) : con.writeCount size ≤ size := by
  simp only [writeCount]
  split <;> split <;> split <;> omega

/-- What the user writes is stored behind what is written. -/
theorem read_write (hwbuff : con.wbuff = some con.reqb.size) (hnonneg : 0 ≤ con.writed)
    (data : List UInt8) :
    (con.write data).buff.read con.reqb.size (con.write data).writed.toNat =
      con.buff.read con.reqb.size con.writed.toNat ++
        data.take (con.writeCount data.length).toNat := by
  have hcount := con.writeCount_nonneg data.length
  have hle := con.writeCount_le_size (Int.natCast_nonneg data.length)
  have hlen : (data.take (con.writeCount data.length).toNat).length =
      (con.writeCount data.length).toNat := by
    rw [List.length_take]
    omega
  have hbuff : (con.write data).buff = con.buff.write (con.reqb.size + con.writed.toNat)
      (data.take (con.writeCount data.length).toNat) := by
    simp only [Con.write, hwbuff]
  have hwrited : (con.write data).writed.toNat =
      con.writed.toNat + (data.take (con.writeCount data.length).toNat).length := by
    rw [hlen]
    exact Int.toNat_add hnonneg hcount
  rw [hbuff, hwrited, Mem.read_add, Mem.read_write_self,
    Mem.read_write_disjoint _ (.inl (le_refl _))]

/-- What the user writes is more of the response. -/
theorem Responds.write (hresponds : con.Responds h) (data : List UInt8) :
    (con.write data).Responds (h.accept (data.take (con.writeCount data.length).toNat)) := by
  have hnonneg := hresponds.sended_nonneg
  have hle := hresponds.sended_le
  have hcount := con.writeCount_nonneg data.length
  have hcount' := con.writeCount_le data.length hresponds.writed_le
  have hwrited : (con.write data).writed = con.writed + con.writeCount data.length := rfl
  refine ⟨hnonneg, ?_, ?_, hresponds.wbuff, hresponds.wsize, ?_⟩
  · rw [hwrited]
    exact Int.le_trans hle (Int.le_add_of_nonneg_right hcount)
  · rw [hwrited]
    exact Int.add_le_of_le_sub_left hcount'
  · have hread := con.read_write hresponds.wbuff (Int.le_trans hnonneg hle) data
    obtain ⟨front, hfront⟩ := hresponds.octets
    refine ⟨front, ?_⟩
    rw [show (con.write data).reqb = con.reqb from rfl, hread, ← List.append_assoc, hfront]
    rfl

/-- A response that fits is stored as a whole. -/
theorem read_printResp (hsize : con.reqb.size ≤ httpConBuffSize) (resp : HttpResp)
    (hfits : ¬ (con.printResp resp).RespNomem) :
    (con.printResp resp).buff.read con.reqb.size (httpRespStr resp).length = httpRespStr resp := by
  have hlt : (httpRespStr resp).length < (httpConBuffSize - con.reqb.size : Int) := by
    exact not_le.mp hfits
  have hmod : ((httpConBuffSize - con.reqb.size : Int) % 4294967296).toNat =
      httpConBuffSize - con.reqb.size := by
    rw [Int.emod_eq_of_lt (by omega) (by unfold httpConBuffSize; omega)]
    omega
  have hbuff : (con.printResp resp).buff =
      con.buff.write con.reqb.size (httpRespStr resp ++ [0]) := by
    rw [show (con.printResp resp).buff = snprintf con.buff con.reqb.size
      (httpConBuffSize - con.reqb.size) (httpRespStr resp) from rfl, snprintf]
    simp only [hmod]
    rw [if_neg (by omega), List.take_of_length_le (by omega)]
  rw [hbuff, Mem.read_write_append]

/-- The head of a response is what the connection has written. -/
theorem Asks.startResp (hasks : con.Asks h) (resp : HttpResp)
    (hfits : ¬ (con.printResp resp).RespNomem) :
    (con.printResp resp).startResp.Responds (h.accept (httpRespStr resp)) := by
  have hsize : con.reqb.size ≤ httpConBuffSize := le_of_lt (lt_trans hasks.size_lt (by decide))
  have hread := con.read_printResp hsize resp hfits
  have hle : ((httpRespStr resp).length : Int) ≤ (con.printResp resp).wsize :=
    le_of_lt (not_le.mp hfits)
  have hwrited : (con.printResp resp).startResp.writed.toNat = (httpRespStr resp).length :=
    Int.toNat_natCast _
  refine ⟨le_refl 0, Int.natCast_nonneg _, hle, rfl, rfl, [], ?_⟩
  rw [List.nil_append, History.accept, hasks.accepted, List.nil_append, hwrited]
  exact hread

end Con

/-! ## Runs -/

namespace HttpServer

variable (s : HttpServer)

/-- The counters and the pointer of every slot whose connection has not ended are in order. -/
def Windowed : Prop := ∀ i, ¬ (s.cons i).state.Ended → (s.cons i).Windowed

/-- What is passed to `tcp_write` is inside the buffer of the slot, and it is of the response of
the connection. -/
def PassesResponse : HttpEvent → Prop
  | .go sndbuf _ => ∀ (i : ConSlot) rest, s.calls = .io i :: rest → (s.cons i).state ≠ .none →
      (s.cons i).state ≠ .closed → (s.cons i).HasData →
        ∃ off n, (s.cons i).region sndbuf = (some off, n) ∧ off + n ≤ httpConBuffSize ∧
          (s.cons i).buff.read off n <:+: (s.hist i).accepted
  | _ => True

/-- A connection is accepted into a slot whose `writed` is 0. -/
def AcceptsCleared : HttpEvent → Prop
  | .accept _ => ∀ i, s.findFreeCon = some i → (s.cons i).writed = 0
  | _ => True

instance : (e : HttpEvent) → Decidable (s.AcceptsCleared e)
  | .accept _ => inferInstanceAs (Decidable (∀ i, s.findFreeCon = some i → (s.cons i).writed = 0))
  | .recv _ _ _ | .fin _ | .err _ | .freed _ | .sent _ _ | .tmr | .write _ _ | .close _ | .free _
  | .answer _ _ | .ret | .go _ _ => inferInstanceAs (Decidable True)

end HttpServer

/-- A server with its slots in order. -/
structure HttpServer.Sound (s : HttpServer) : Prop where
  reads : s.Reads
  sound : ∀ i, (s.cons i).Sound (s.hist i)

section Sound

variable {s t : HttpServer} {e : HttpEvent} {i : ConSlot}

theorem HttpServer.Sound.asks (h : s.Sound) (hpending : s.pending = some i) :
    (s.cons i).Asks (s.hist i) := (h.sound i).asks (h.reads.pending i hpending)

theorem Change.sound (hchange : Change s t e i) (h : s.Sound) (hC : s.AcceptsCleared e) :
    (t.cons i).Sound (t.hist i) := by
  cases hchange with
  | same _ hcon hhist =>
      rw [hcon, hhist]
      exact h.sound i
  | accept newpcb _ he hfree hcon hhist =>
      subst he
      rw [hcon, hhist]
      have hsize : 0 < httpReqMaxSize := by decide
      exact Con.sound_of_asks rfl ⟨rfl, hsize, hC i hfree, rfl, le_refl 0, rfl, rfl⟩
  | push data buff reqb resp state hidle hrd hpush hstate hcon hhist =>
      rw [hcon, hhist]
      rcases hstate with ⟨rfl, -⟩ | ⟨rfl, -⟩
      · have hasks := (h.sound i).asks hrd
        obtain ⟨hbsize, hsize⟩ := (h.reads.open hidle.pending hrd).push_size hpush
          (hasks.size_lt.trans_eq hasks.bsize.symm)
        exact Con.sound_of_asks rfl { hasks with
          bsize := hbsize.trans hasks.bsize
          size_lt := hsize.trans_eq hasks.bsize }
      · exact Con.sound_of_ended trivial
  | ended conState state pcb resp _ hended hcon _ =>
      rw [hcon]
      exact Con.sound_of_ended hended
  | respNomem resp hentry _ hcon hhist =>
      rw [hcon, hhist]
      have hpending := HttpServer.pending_onReq hentry
      have hasks := h.asks hpending
      refine Con.sound_of_asks (h.reads.pending i hpending) { hasks with wsize := ?_ }
      have hlt := hasks.size_lt
      show (0 : Int) ≤ httpConBuffSize - (s.cons i).reqb.size
      unfold httpConBuffSize
      unfold httpReqMaxSize at hlt
      omega
  | respond resp hentry _ hfits hcon hhist =>
      rw [hcon, hhist]
      exact Con.sound_of_responds (fun hrd => by cases hrd)
        ((h.asks (HttpServer.pending_onReq hentry)).startResp resp hfits)
  | sent pcb len _ _ _ hcon hhist =>
      rw [hcon, hhist]
      exact ⟨fun hrd => { (h.sound i).asks hrd with },
        fun hlive => { (h.sound i).responds hlive with }⟩
  | io sndbuf ok rest _ _ _ hlive hcon hhist =>
      rw [hcon, hhist]
      exact (h.sound i).io hlive
  | write data _ hactive hcon hhist =>
      rw [hcon, hhist]
      exact Con.sound_of_responds (fun hrd => by cases hactive.symm.trans hrd)
        (((h.sound i).responds (.inr hactive)).write data)

theorem sound_step (h : s.Sound) (hC : s.AcceptsCleared e) (hstep : s.step e = some t) :
    t.Sound where
  reads := reads_step h.reads hstep
  sound i := (change_of_step hstep i).sound h hC

theorem HttpServer.Initialized.sound (h : s.Initialized) : s.Sound where
  reads := h.reads
  sound i := Con.sound_of_ended (by rw [(h.2 i).1]; trivial)

theorem HttpServer.Sound.windowed (h : s.Sound) : s.Windowed := fun i => (h.sound i).windowed

theorem HttpServer.Sound.passesResponse (h : s.Sound) (e : HttpEvent) : s.PassesResponse e := by
  cases e with
  | go sndbuf ok =>
      intro i rest _ hnone hclosed hdata
      have hlive : ¬ (s.cons i).state.Ended := fun hended =>
        hdata.1 (Con.closing_of_ended hended (not_or.mpr ⟨hnone, hclosed⟩))
      rcases (h.sound i).cases hlive with ⟨-, hasks⟩ | ⟨-, hresponds⟩
      · exact absurd hdata hasks.not_hasData
      · exact hresponds.region
  | _ => trivial

/-- Only a slot whose `writed` is 0 is in order behind `htserv_accept`. -/
theorem acceptsCleared_of_windowed (hstep : s.step e = some t) (h : t.Windowed) :
    s.AcceptsCleared e := by
  cases e with
  | accept newpcb =>
      intro i hfree
      obtain ⟨-, ⟨⟩⟩ := Option.ite_none_right_eq_some.mp hstep
      have hcon : (s.htservAccept newpcb).cons i = (s.cons i).accept newpcb := by
        simp only [HttpServer.htservAccept, hfree, HttpServer.setCon_self]
      have hwindowed := h i (by rw [hcon]; exact id)
      rw [hcon] at hwindowed
      exact le_antisymm hwindowed.writed_le hwindowed.sended_le
  | _ => trivial

/-- In a run from the start the window of every slot is in order, and what is passed to TCP is of
the response, exactly when no slot is used again while its `writed` is not 0. -/
theorem run_windowed {es : List HttpEvent} (h : s.Initialized)
    (hrun : httpMachine.run s es = some t) :
    ((∀ u, httpMachine.Visits s es u → u.Windowed) ∧
      httpMachine.Meets HttpServer.PassesResponse s es) ↔
        httpMachine.Meets HttpServer.AcceptsCleared s es := by
  have hkeep (s : HttpServer) (e : HttpEvent) (t : HttpServer) (hC : s.AcceptsCleared e)
      (hstep : s.step e = some t) (hs : s.Sound) : t.Sound := sound_step hs hC hstep
  constructor
  · rintro ⟨hwindowed, -⟩
    exact Machine.meets_of_visits (fun _ _ _ hstep ht => acceptsCleared_of_windowed hstep ht) hrun
      hwindowed
  · intro hmeets
    refine ⟨fun u hvisits => ?_, ?_⟩
    · exact (Machine.Visits.invariant hkeep hmeets hvisits h.sound).windowed
    · exact hmeets.imp_of hkeep (fun s e hs _ => hs.passesResponse e) h.sound

/-- A request, and the answer to it. -/
def asked (resp : HttpResp) : List HttpEvent :=
  [.accept 1, .recv 1 (ascii ['G', 'E', 'T', ' ', '/', ' ', 'H', 'T', 'T', 'P', '/', '1', '.', '1',
    '\r', '\n', '\r', '\n']) true, .answer resp true]

/-- The client ends its connection while TCP takes nothing. -/
def aborting : List HttpEvent :=
  asked (httpPrepareResp 200) ++ List.replicate 5 (.go 0 true) ++ [.fin 1, .tmr] ++
    List.replicate 5 (.go 0 true) ++ [.free 0]

/-- The slot is used again. -/
def aborted : List HttpEvent := aborting ++ [.accept 2]

/-- Only the use of the slot by the next connection does harm. -/
theorem run_windowed_aborted :
    ((∀ u, httpMachine.Visits httpStart aborting u → u.Windowed) ∧
      httpMachine.Meets HttpServer.PassesResponse httpStart aborting) ∧
    ¬ ((∀ u, httpMachine.Visits httpStart aborted u → u.Windowed) ∧
      httpMachine.Meets HttpServer.PassesResponse httpStart aborted) := by
  have hruns : (httpMachine.run httpStart aborting).isSome := by decide +kernel
  have hruns' : (httpMachine.run httpStart aborted).isSome := by decide +kernel
  obtain ⟨t, ht⟩ := Option.isSome_iff_exists.mp hruns
  obtain ⟨t', ht'⟩ := Option.isSome_iff_exists.mp hruns'
  exact ⟨(run_windowed initialized_httpStart ht).mpr (by decide +kernel),
    (run_windowed initialized_httpStart ht').not.mpr (by decide +kernel)⟩

/-- The second connection has something to send before its request is there, from no buffer. -/
theorem not_windowed_aborted :
    httpStart.Initialized ∧ ∃ t, httpMachine.run httpStart aborted = some t ∧
      httpMachine.Visits httpStart aborted t ∧ ¬ t.Windowed := by
  have hstate : ((httpMachine.run httpStart aborted).map fun t =>
      decide ((t.cons firstSlot).state = .rdReq ∧
        (t.cons firstSlot).wsize < (t.cons firstSlot).writed)) = some true := by decide +kernel
  obtain ⟨t, ht, hlt⟩ := Option.map_eq_some_iff.mp hstate
  obtain ⟨hrd, hlt⟩ := of_decide_eq_true hlt
  refine ⟨initialized_httpStart, t, ht, ⟨aborted, [], (List.append_nil _).symm, ht⟩, fun h => ?_⟩
  exact absurd (h firstSlot (by rw [hrd]; exact id)).writed_le (not_le.mpr hlt)

end Sound

end Adhoc
