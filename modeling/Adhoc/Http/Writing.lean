import Adhoc.Http.Operations
import Adhoc.Http.Window

/-!
# What `htcon_write` takes

`htcon_write` takes a pointer and a size, which may be negative, and copies what the rest
of the document and the free space of the buffer leave room for.  The space is behind the
request, and `htserv_io` makes it free again.  So the limits move while the program writes.

`Con.Answered` is what holds of a slot from the start of its response on, until it takes
another connection: the request is as it was, and what was copied in all (`total`) is not
more than the length of the document.
-/

namespace Adhoc

open ByteMem EventMachine

/-! ## The call -/

/-- Octets are appended to what is written. -/
def Con.append (con : Con) (octets : List UInt8) (res : Int) : Con :=
  { con with
    buff := match con.wbuff with
      | none => con.buff
      | some wbuff => con.buff.write (wbuff + con.writed.toNat) octets
    writed := con.writed + res
    conWrited := con.conWrited + res }

/-- `htcon_write` for `size` octets at `data`, up to the call of `htserv_io`, and its result. -/
def HttpServer.htconWriteCall (s : HttpServer) (index : Int) (mem : Mem) (data : Nat) (size : Int) :
    Int × HttpServer :=
  match s.htcon index with
  | none => (0, s)
  | some i =>
      if (s.cons i).state ≠ .active then (0, s)
      else
        let res := (s.cons i).writeCount size
        if res = 0 then (0, s)
        else
          let octets := mem.read data res.toNat
          (res, { s.setCon i ((s.cons i).append octets res) with
            hist := Function.update s.hist i ((s.hist i).accept octets) }.callIo)

/-- What happens, with the calls of `htcon_write` as the program makes them.  `other` is any event
of the server but such a call. -/
inductive CallEvent where
  | write (index : Int) (mem : Mem) (data : Nat) (size : Int)
  | other (e : HttpEvent)

/-- A call of `htcon_write`. -/
def HttpEvent.isWrite : HttpEvent → Bool
  | .write _ _ => true
  | _ => false

namespace HttpServer

variable (s : HttpServer)

/-- One event. -/
def callStep : CallEvent → Option HttpServer
  | .write index mem data size =>
      if s.inUser then some (s.htconWriteCall index mem data size).2 else none
  | .other e => if e.isWrite then none else s.step e

/-- What a call for the slot returns. -/
def result (i : ConSlot) : CallEvent → Int
  | .write index mem data size =>
      if index = i then (s.htconWriteCall index mem data size).1 else 0
  | .other _ => 0

/-- The sum of what the calls for a slot return in a run. -/
def resultSum (i : ConSlot) : HttpServer → List CallEvent → Int
  | _, [] => 0
  | s, e :: es =>
      s.result i e + match s.callStep e with
        | none => 0
        | some t => resultSum i t es

/-- The slot does not take another connection. -/
def KeepsSlot (i : ConSlot) : CallEvent → Prop
  | .other (.accept _) => s.findFreeCon ≠ some i
  | _ => True

end HttpServer

instance (s : HttpServer) (i : ConSlot) : (e : CallEvent) → Decidable (s.KeepsSlot i e)
  | .other (.accept _) => inferInstanceAs (Decidable (_ ≠ _))
  | .other (.recv _ _ _) | .other (.fin _) | .other (.sent _ _) | .other (.err _)
  | .other (.freed _) | .other .tmr | .other (.write _ _) | .other (.close _) | .other (.free _)
  | .other (.answer _ _) | .other .ret | .other (.go _ _) | .write _ _ _ _ => .isTrue trivial

/-- The server with the calls of `htcon_write` as the program makes them. -/
def callMachine : Machine HttpServer CallEvent := ⟨HttpServer.callStep⟩

section Call

variable {s t : HttpServer} {index : Int} {i j : ConSlot} {mem : Mem} {data : Nat} {size : Int}
  {con : Con}

theorem Con.write_eq_append (con : Con) (data : List UInt8) : con.write data =
    con.append (data.take (con.writeCount data.length).toNat) (con.writeCount data.length) := rfl

/-- The three limits of a call. -/
theorem Con.writeCount_eq (con : Con) (size : Int) : con.writeCount size =
    max 0 (min size (min (con.resp.contLen - con.conWrited) (con.wsize - con.writed))) := by
  simp only [writeCount]
  split <;> split <;> split <;> omega

/-- A negative size is as good as none. -/
theorem Con.writeCount_toNat (con : Con) (size : Int) :
    con.writeCount size.toNat = con.writeCount size := by
  rw [writeCount_eq, writeCount_eq]
  omega

theorem Con.writeCount_le_max (con : Con) (size : Int) : con.writeCount size ≤ max size 0 := by
  rw [writeCount_eq]
  omega

/-- A call takes what is at most there of the data. -/
theorem Con.take_writeCount (con : Con) (mem : Mem) (data : Nat) (size : Int) :
    (mem.read data size.toNat).take (con.writeCount size).toNat =
      mem.read data (con.writeCount size).toNat := by
  have hle := con.writeCount_le_max size
  have hread := mem.take_drop_read data (k := 0) (j := (con.writeCount size).toNat)
    (n := size.toNat) (by omega)
  exact hread

/-- A call is a write of the data as far as it has a size. -/
theorem HttpServer.htconWriteCall_eq (s : HttpServer) (index : Int) (mem : Mem) (data : Nat)
    (size : Int) :
    (s.htconWriteCall index mem data size).2 = s.htconWrite index (mem.read data size.toNat) := by
  unfold htconWriteCall htconWrite
  cases s.htcon index with
  | none => rfl
  | some i =>
      simp only [Mem.length_read, Con.writeCount_toNat]
      split
      next => rfl
      next =>
        split
        next => rfl
        next =>
          have hcon : (s.cons i).write (mem.read data size.toNat) =
              (s.cons i).append (mem.read data ((s.cons i).writeCount size).toNat)
                ((s.cons i).writeCount size) := by
            rw [Con.write_eq_append, Mem.length_read, Con.writeCount_toNat, Con.take_writeCount]
          rw [hcon, Con.take_writeCount]

end Call

/-! ## A slot that answers -/

/-- What the counters of a slot are while its response goes on. -/
structure Con.Writing (start con : Con) (total : Int) : Prop where
  resp : con.resp = start.resp
  wbuff : con.wbuff = some start.reqb.size
  wsize : con.wsize = httpConBuffSize - start.reqb.size
  writed_nonneg : 0 ≤ con.writed
  writed_le : con.writed ≤ con.wsize
  conWrited : con.conWrited = total

/-- A slot since its response was started, when it was `start`.  `total` is what the calls of
`htcon_write` have returned in all. -/
structure Con.Answered (start con : Con) (total : Int) : Prop where
  state : con.state ≠ .rdReq
  reqb : con.reqb = start.reqb
  below : AgreeBelow start.reqb.size con.buff start.buff
  above : AgreeFrom httpConBuffSize con.buff start.buff
  total_nonneg : 0 ≤ total
  total_le : total ≤ max start.resp.contLen 0
  writing : ¬ con.state.Ended → start.Writing con total

namespace Con

variable {start con : Con} {total : Int}

theorem Writing.reset (h : start.Writing con total) : start.Writing con.reset total :=
  { h with
    writed_nonneg := le_refl 0
    writed_le := Int.le_trans h.writed_nonneg h.writed_le }

theorem io_conWrited (con : Con) (sndbuf : UInt16) (ok : Bool) :
    (con.send sndbuf ok).ack.conWrited = con.conWrited := by
  have hsend : (con.send sndbuf ok).conWrited = con.conWrited := by
    cases con.send_spec sndbuf ok with
    | passes _ _ hcon _ => rw [hcon]
    | nothing _ hcon _ => rw [hcon]
  rw [← hsend]
  cases (con.send sndbuf ok).ack_spec with
  | waits _ hcon => rw [hcon]
  | head _ _ hcon => rw [hcon, reset]
  | complete _ _ hcon => rw [hcon, closing, reset]
  | more _ _ hcon => rw [hcon, reset]

/-- `htserv_io` moves the write position to the start, or leaves it. -/
theorem Writing.io (h : start.Writing con total) (sndbuf : UInt16) (ok : Bool) :
    start.Writing (con.send sndbuf ok).ack total := by
  have hsend : start.Writing (con.send sndbuf ok) total := by
    cases con.send_spec sndbuf ok with
    | passes _ _ hcon _ =>
        rw [hcon]
        exact { h with }
    | nothing _ hcon _ =>
        rw [hcon]
        exact h
  cases (con.send sndbuf ok).ack_spec with
  | waits _ hcon =>
      rw [hcon]
      exact hsend
  | head _ _ hcon =>
      rw [hcon]
      exact { hsend.reset with }
  | complete _ _ hcon =>
      rw [hcon]
      exact { hsend.reset with }
  | more _ _ hcon =>
      rw [hcon]
      exact hsend.reset

theorem Answered.io (h : start.Answered con total)
    (hlive : ¬ (con.state = .none ∨ con.state = .closed)) (sndbuf : UInt16) (ok : Bool) :
    start.Answered (con.send sndbuf ok).ack total := by
  obtain ⟨hstate, hbuff, hreqb⟩ := con.io_reads sndbuf ok
  refine ⟨fun hrd => h.state (hstate.mp hrd), hreqb.trans h.reqb, hbuff ▸ h.below, hbuff ▸ h.above,
    h.total_nonneg, h.total_le, fun hended => ?_⟩
  by_cases hcon : con.state.Ended
  · rw [(io_closing (closing_of_ended hcon hlive) sndbuf ok).1] at hended
    exact absurd hcon hended
  · exact (h.writing hcon).io sndbuf ok

/-- A slot whose connection ends keeps the request. -/
theorem Answered.ended (h : start.Answered con total) {con' : Con} (hended : con'.state.Ended)
    (hreqb : con'.reqb = con.reqb) (hbuff : con'.buff = con.buff) :
    start.Answered con' total where
  state hrd := by
    rw [hrd] at hended
    exact hended
  reqb := hreqb.trans h.reqb
  below := hbuff ▸ h.below
  above := hbuff ▸ h.above
  total_nonneg := h.total_nonneg
  total_le := h.total_le
  writing hlive := absurd hended hlive

/-- Where what a call takes is stored. -/
theorem Writing.append_buff (h : start.Writing con total) (octets : List UInt8) (res : Int) :
    (con.append octets res).buff =
      con.buff.write (start.reqb.size + con.writed.toNat) octets := by
  simp only [Con.append, h.wbuff]

/-- What a call takes fits behind what is written. -/
theorem Writing.fits (h : start.Writing con total) (hsize : start.reqb.size ≤ httpConBuffSize)
    (size : Int) :
    start.reqb.size + con.writed.toNat + (con.writeCount size).toNat ≤ httpConBuffSize := by
  have hnonneg := h.writed_nonneg
  have hle := h.writed_le
  have hwsize := h.wsize
  have hcount := con.writeCount_le size h.writed_le
  omega

/-- A call keeps what holds, with its result added to the sum. -/
theorem Answered.append (h : start.Answered con total) (hactive : con.state = .active)
    (hsize : start.reqb.size ≤ httpConBuffSize) (mem : Mem) (data : Nat) (size : Int) :
    start.Answered (con.append (mem.read data (con.writeCount size).toNat) (con.writeCount size))
      (total + con.writeCount size) := by
  have hlive : ¬ con.state.Ended := by
    rw [hactive]
    exact id
  have hwriting := h.writing hlive
  have hbuff := hwriting.append_buff (mem.read data (con.writeCount size).toNat)
    (con.writeCount size)
  have hfits := hwriting.fits hsize size
  have hnonneg := con.writeCount_nonneg size
  have hcount := con.writeCount_le size hwriting.writed_le
  have hrest : con.writeCount size ≤ max (start.resp.contLen - total) 0 := by
    rw [con.writeCount_eq, hwriting.resp, hwriting.conWrited]
    omega
  have htotal := h.total_nonneg
  have htotal' := h.total_le
  refine ⟨h.state, h.reqb, ?_, ?_, by omega, by omega, fun _ => ?_⟩
  · intro k hk
    rw [hbuff, Mem.write_of_lt _ _ (by omega)]
    exact h.below k hk
  · intro k hk
    rw [hbuff, Mem.write_of_ge _ (by rw [Mem.length_read]; omega)]
    exact h.above k hk
  · have hwrited := hwriting.writed_nonneg
    exact { hwriting with
      writed_nonneg := show 0 ≤ con.writed + con.writeCount size by omega
      writed_le := show con.writed + con.writeCount size ≤ con.wsize by omega
      conWrited := show con.conWrited + con.writeCount size = total + con.writeCount size by
        rw [hwriting.conWrited] }

/-- The difference that a call computes is an `int`, if the length of the document is. -/
theorem Answered.int_range (h : start.Answered con total) (hlive : ¬ con.state.Ended)
    (hmin : -2147483648 ≤ start.resp.contLen) (hmax : start.resp.contLen < 2147483648) :
    -2147483648 ≤ con.resp.contLen - con.conWrited ∧
      con.resp.contLen - con.conWrited < 2147483648 := by
  have hwriting := h.writing hlive
  have htotal := h.total_nonneg
  have htotal' := h.total_le
  rw [hwriting.resp, hwriting.conWrited]
  omega

end Con

/-! ## Runs -/

section Runs

variable {s t u v w : HttpServer} {e : CallEvent} {es : List HttpEvent} {ces : List CallEvent}
  {i : ConSlot} {start : Con} {total : Int} {resp : HttpResp}

/-- What a call does: nothing, where it finds no room in an active connection, or it takes what
there is room for. -/
inductive WriteCall (s : HttpServer) (index : Int) (mem : Mem) (data : Nat) (size : Int) :
    Int × HttpServer → Prop where
  | nothing : (∀ j : ConSlot, index = j → (s.cons j).state = .active →
      (s.cons j).writeCount size = 0) → WriteCall s index mem data size (0, s)
  | takes (j : ConSlot) (t : HttpServer) : index = j → (s.cons j).state = .active →
      (s.cons j).writeCount size ≠ 0 → t.cons = Function.update s.cons j
        ((s.cons j).append (mem.read data ((s.cons j).writeCount size).toNat)
          ((s.cons j).writeCount size)) →
        WriteCall s index mem data size ((s.cons j).writeCount size, t)

theorem HttpServer.writeCall (s : HttpServer) (index : Int) (mem : Mem) (data : Nat)
    (size : Int) : WriteCall s index mem data size (s.htconWriteCall index mem data size) := by
  unfold htconWriteCall
  split
  next hnone =>
    refine .nothing fun j hj hactive => ?_
    have hcon : s.htcon index = some j := htcon_eq_some.mpr ⟨hj, .inl hactive⟩
    cases hnone.symm.trans hcon
  next j hcon =>
    have hindex := (htcon_eq_some.mp hcon).1
    have hsame {k : ConSlot} (hk : index = k) : k = j := by
      rw [hk, Int.ofNat_inj] at hindex
      exact Fin.ext hindex
    split
    next hidle =>
      refine .nothing fun k hk hactive => ?_
      rw [hsame hk] at hactive
      exact absurd hactive hidle
    next hactive =>
      dsimp only
      split
      next hzero =>
        refine .nothing fun k hk _ => ?_
        rw [hsame hk]
        exact hzero
      next hcount => exact .takes j _ hindex (not_not.mp hactive) hcount rfl

/-- An event is one of the server. -/
theorem HttpServer.step_of_callStep (h : s.callStep e = some t) : ∃ e', s.step e' = some t := by
  cases e with
  | write index mem data size =>
      obtain ⟨huser, ⟨⟩⟩ := Option.ite_none_right_eq_some.mp h
      refine ⟨.write index (mem.read data size.toNat), ?_⟩
      rw [s.htconWriteCall_eq]
      exact if_pos huser
  | other e => exact ⟨e, (Option.ite_none_left_eq_some.mp h).2⟩

/-- An event that is not a call adds nothing to the sum. -/
theorem Con.Answered.other (h : start.Answered (s.cons i) total) (hreads : s.Reads)
    {e : HttpEvent} (hkeeps : s.KeepsSlot i (.other e)) (hwrite : ¬ e.isWrite)
    (hstep : s.step e = some t) : start.Answered (t.cons i) total := by
  have hnot {con : Con} (hpending : s.pending = some i) : start.Answered con total :=
    absurd (hreads.pending i hpending) h.state
  rcases (operates_of_step hstep).slot i with hsame | hop
  · rw [hsame]
    exact h
  · generalize hcon : t.cons i = con at hop ⊢
    cases hop with
    | accept newpcb he hfree =>
        rw [he] at hkeeps
        exact absurd hfree hkeeps
    | push _ _ _ _ hrd => exact absurd hrd h.state
    | refuse _ _ _ hrd _ => exact absurd hrd h.state
    | closing => exact h.ended trivial rfl rfl
    | decline _ hpending _ => exact hnot hpending
    | printResp _ hpending => exact hnot hpending
    | startResp _ hpending _ _ => exact hnot hpending
    | sent _ _ _ => exact { h with writing := fun hlive => { h.writing hlive with } }
    | io sndbuf ok _ _ hlive _ => exact h.io hlive sndbuf ok
    | shut _ _ _ =>
        unfold Con.shut
        split
        next => exact h.ended trivial rfl rfl
        next => exact h
    | write index data he _ _ =>
        rw [he] at hwrite
        exact absurd rfl hwrite
    | free _ _ _ => exact h.ended trivial rfl rfl

/-- A call adds its result. -/
theorem Con.Answered.call (h : start.Answered (s.cons i) total)
    (hsize : start.reqb.size ≤ httpConBuffSize) (index : Int) (mem : Mem) (data : Nat)
    (size : Int) :
    start.Answered ((s.htconWriteCall index mem data size).2.cons i)
      (total + s.result i (.write index mem data size)) := by
  have hcall := s.writeCall index mem data size
  have hresult : s.result i (.write index mem data size) =
      if index = i then (s.htconWriteCall index mem data size).1 else 0 := rfl
  rw [hresult]
  generalize s.htconWriteCall index mem data size = x at hcall ⊢
  cases hcall with
  | nothing _ =>
      rw [ite_self, Int.add_zero]
      exact h
  | takes j t hj hactive _ hcons =>
      by_cases hi : i = j
      · subst hi
        rw [if_pos hj, hcons, Function.update_self]
        exact h.append hactive hsize mem data size
      · have hne : index ≠ i := by
          rw [hj, Ne, Int.ofNat_inj]
          exact fun heq => hi (Fin.ext heq.symm)
        rw [if_neg hne, Int.add_zero, hcons, Function.update_of_ne hi]
        exact h

theorem Con.Answered.run (h : start.Answered (s.cons i) total)
    (hsize : start.reqb.size ≤ httpConBuffSize) (hreads : s.Reads)
    (hrun : callMachine.run s ces = some t)
    (hkeeps : callMachine.Meets (fun s e => s.KeepsSlot i e) s ces) :
    start.Answered (t.cons i) (total + s.resultSum i ces) := by
  induction ces generalizing s total with
  | nil =>
      cases hrun
      exact (Int.add_zero total).symm ▸ h
  | cons e ces ih =>
      obtain ⟨u, hstep, hrest⟩ := Machine.run_cons.mp hrun
      obtain ⟨e', hstep'⟩ := HttpServer.step_of_callStep hstep
      have hnext : start.Answered (u.cons i) (total + s.result i e) := by
        cases e with
        | write index mem data size =>
            obtain ⟨-, ⟨⟩⟩ := Option.ite_none_right_eq_some.mp hstep
            exact h.call hsize index mem data size
        | other e =>
            obtain ⟨hwrite, hserver⟩ := Option.ite_none_left_eq_some.mp hstep
            exact (Int.add_zero total).symm ▸ h.other hreads hkeeps.1 hwrite hserver
      have hrest' := ih hnext (reads_step hreads hstep') hrest (hkeeps.2 u hstep)
      have hsum : s.resultSum i (e :: ces) = s.result i e + u.resultSum i ces := by
        rw [HttpServer.resultSum, show s.callStep e = some u from hstep]
      rw [hsum, ← Int.add_assoc]
      exact hrest'

/-- A slot that reads a request, and has not written. -/
structure Con.Unanswered (con : Con) : Prop where
  bsize : con.reqb.bsize = httpReqMaxSize
  size_lt : con.reqb.size < httpReqMaxSize
  conWrited : con.conWrited = 0

/-- The requests are in order. -/
structure HttpServer.Asking (s : HttpServer) : Prop where
  reads : s.Reads
  unanswered : ∀ i, (s.cons i).state = .rdReq → (s.cons i).Unanswered

theorem asking_step {e : HttpEvent} (h : s.Asking) (hstep : s.step e = some t) : t.Asking := by
  refine ⟨reads_step h.reads hstep, fun i hrd => ?_⟩
  cases change_of_step hstep i with
  | same _ hcon _ =>
      rw [hcon] at hrd ⊢
      exact h.unanswered i hrd
  | accept newpcb _ _ _ hcon _ =>
      have hsize : 0 < httpReqMaxSize := by decide
      rw [hcon]
      exact ⟨rfl, hsize, rfl⟩
  | push data buff reqb resp state hidle hs hpush _ hcon _ =>
      rw [hcon]
      have hasks := h.unanswered i hs
      obtain ⟨hbsize, hsize⟩ := (h.reads.open hidle.pending hs).push_size hpush
        (hasks.size_lt.trans_eq hasks.bsize.symm)
      exact ⟨hbsize.trans hasks.bsize, hsize.trans_eq hasks.bsize, hasks.conWrited⟩
  | ended conState state pcb resp _ hended hcon _ =>
      rw [hcon] at hrd
      rw [show state = .rdReq from hrd] at hended
      exact hended.elim
  | respNomem resp hentry _ hcon _ =>
      rw [hcon] at hrd ⊢
      exact { h.unanswered i hrd with }
  | respond resp _ _ _ hcon _ =>
      rw [hcon] at hrd
      cases hrd
  | sent pcb len _ _ _ hcon _ =>
      rw [hcon] at hrd ⊢
      exact { h.unanswered i hrd with }
  | io sndbuf ok rest _ _ _ _ hcon _ =>
      rw [hcon] at hrd ⊢
      have hs := ((s.cons i).io_reads sndbuf ok).1.mp hrd
      have hasks := h.unanswered i hs
      obtain ⟨-, -, hreqb⟩ := (s.cons i).io_reads sndbuf ok
      refine ⟨hreqb ▸ hasks.bsize, hreqb ▸ hasks.size_lt, ?_⟩
      rw [Con.io_conWrited]
      exact hasks.conWrited
  | write data _ hactive hcon _ =>
      rw [hcon] at hrd
      cases hactive.symm.trans hrd

theorem HttpServer.Initialized.asking (h : s.Initialized) : s.Asking where
  reads := h.reads
  unanswered i hrd := by cases (h.2 i).1.symm.trans hrd

/-- The response of a connection is started: `htserv_on_req` agreed, and its answer has room. -/
structure HttpServer.Starts (u v : HttpServer) (i : ConSlot) (resp : HttpResp) : Prop where
  pending : u.pending = some i
  step : u.step (.answer resp true) = some v
  state : (v.cons i).state = .wrResp

theorem HttpServer.Starts.cons (h : u.Starts v i resp) (hreads : u.Reads) :
    v.cons i = ((u.cons i).printResp resp).startResp ∧
      ¬ ((u.cons i).printResp resp).RespNomem := by
  have hstep := h.step
  simp only [HttpServer.step] at hstep
  split at hstep
  next j _ hentry =>
    cases h.pending.symm.trans (HttpServer.pending_onReq hentry)
    cases hstep
    have hstate := h.state
    rw [HttpServer.answered, if_pos rfl] at hstate ⊢
    dsimp only at hstate ⊢
    split at hstate
    next hnomem =>
      rw [HttpServer.setCon_self] at hstate
      have hrd := hreads.pending i h.pending
      cases hstate.symm.trans hrd
    next hfits =>
      rw [if_neg hfits]
      exact ⟨HttpServer.setCon_self _, hfits⟩
  next => cases hstep

/-- The slot when its response is started. -/
theorem HttpServer.Starts.answered (h : u.Starts v i resp) (hasking : u.Asking) :
    (v.cons i).Answered (v.cons i) 0 ∧ (v.cons i).reqb.size ≤ httpConBuffSize ∧
      (v.cons i).resp = resp := by
  obtain ⟨hcon, hfits⟩ := h.cons hasking.reads
  have hrd := hasking.reads.pending i h.pending
  have hasks := hasking.unanswered i hrd
  have hsize : (v.cons i).reqb.size ≤ httpConBuffSize := by
    rw [hcon]
    exact le_of_lt (lt_trans hasks.size_lt (by decide))
  refine ⟨⟨?_, rfl, fun _ _ => rfl, fun _ _ => rfl, le_refl 0, le_max_right _ _, fun _ => ?_⟩,
    hsize, by rw [hcon]; rfl⟩
  · rw [h.state]
    decide
  · rw [hcon]
    refine ⟨rfl, rfl, rfl, Int.natCast_nonneg _, le_of_lt (not_le.mp hfits), hasks.conWrited⟩

/-- What a call of `htcon_write` owes to a slot that was `start` when its response was started and
has taken `total` since.  `x` is the result and what the call leaves. -/
structure HttpServer.WriteBounded (w : HttpServer) (i : ConSlot) (start : Con) (total : Int)
    (mem : Mem) (data : Nat) (size : Int) (x : Int × HttpServer) : Prop where
  nonneg : 0 ≤ x.1
  le_size : x.1 ≤ max size 0
  nothing : x.1 = 0 → x.2 = w
  copied : 0 < x.1 → (x.2.cons i).buff =
    (w.cons i).buff.write (start.reqb.size + (w.cons i).writed.toNat) (mem.read data x.1.toNat)
  inside : 0 < x.1 → start.reqb.size + (w.cons i).writed.toNat + x.1.toNat ≤ httpConBuffSize
  others : ∀ j, j ≠ i → x.2.cons j = w.cons j
  /-- The content length or the free space is exhausted. -/
  short : x.1 < size → (w.cons i).state = .active →
    start.resp.contLen ≤ total + x.1 ∨ (x.2.cons i).writed = (x.2.cons i).wsize

theorem Con.Answered.writeBounded (h : start.Answered (w.cons i) total)
    (hsize : start.reqb.size ≤ httpConBuffSize) (mem : Mem) (data : Nat) (size : Int) :
    w.WriteBounded i start total mem data size (w.htconWriteCall i mem data size) := by
  have hcall := w.writeCall i mem data size
  have hlive (hactive : (w.cons i).state = .active) : ¬ (w.cons i).state.Ended := by
    rw [hactive]
    exact id
  have hlimits (hactive : (w.cons i).state = .active) := by
    have hwriting := h.writing (hlive hactive)
    have hcount := (w.cons i).writeCount_eq size
    rw [hwriting.resp, hwriting.conWrited] at hcount
    exact hcount
  generalize w.htconWriteCall i mem data size = x at hcall ⊢
  cases hcall with
  | nothing hzero =>
      refine ⟨le_refl 0, le_max_right _ _, fun _ => rfl, fun hpos => absurd hpos (lt_irrefl 0),
        fun hpos => absurd hpos (lt_irrefl 0), fun _ _ => rfl, fun hshort hactive => ?_⟩
      have hwriting := h.writing (hlive hactive)
      have hcount := hlimits hactive
      have hle := hwriting.writed_le
      rw [hzero i rfl hactive] at hcount
      dsimp only at hshort ⊢
      omega
  | takes j t hj hactive hpos hcons =>
      obtain rfl : i = j := Fin.ext (Int.ofNat_inj.mp hj)
      have hwriting := h.writing (hlive hactive)
      have hcount := hlimits hactive
      have hle := hwriting.writed_le
      have hcon : t.cons i = (w.cons i).append
          (mem.read data ((w.cons i).writeCount size).toNat) ((w.cons i).writeCount size) := by
        rw [hcons, Function.update_self]
      refine ⟨(w.cons i).writeCount_nonneg size, (w.cons i).writeCount_le_max size, fun hzero => ?_,
        fun _ => ?_, fun _ => hwriting.fits hsize size, fun k hk => ?_, fun hshort _ => ?_⟩
      · exact absurd hzero hpos
      · rw [hcon]
        exact hwriting.append_buff _ _
      · rw [hcons, Function.update_of_ne hk]
      · have hwrited : (t.cons i).writed = (w.cons i).writed + (w.cons i).writeCount size := by
          rw [hcon]
          rfl
        have hwsize : (t.cons i).wsize = (w.cons i).wsize := by
          rw [hcon]
          rfl
        dsimp only at hshort ⊢
        rw [hwrited, hwsize]
        omega

/-- In a run from the start of a response, whatever else happens, the calls of `htcon_write` take
no more than the content length in all, leave the request alone, and take less than they are given
only where there is no room or the connection is not active. -/
theorem run_writes (h : s.Initialized) (hrun : httpMachine.run s es = some u)
    (hstart : u.Starts v i resp) (hcalls : callMachine.run v ces = some w)
    (hkeeps : callMachine.Meets (fun s e => s.KeepsSlot i e) v ces) :
    (0 ≤ v.resultSum i ces ∧ v.resultSum i ces ≤ max resp.contLen 0) ∧
      ((w.cons i).reqb = (v.cons i).reqb ∧
        ∀ k < (v.cons i).reqb.size, (w.cons i).buff k = (v.cons i).buff k) ∧
          ∀ mem data size, w.WriteBounded i (v.cons i) (v.resultSum i ces) mem data size
            (w.htconWriteCall i mem data size) := by
  have hasking : u.Asking := Machine.invariant (C := fun _ _ => True)
    (fun _ _ _ _ hstep hs => asking_step hs hstep)
    (Machine.meets_of_forall fun _ _ _ => trivial) hrun h.asking
  obtain ⟨hanswered, hsize, hresp⟩ := hstart.answered hasking
  have hbounded := hanswered.run hsize (reads_step hasking.reads hstart.step) hcalls hkeeps
  rw [Int.zero_add] at hbounded
  have htotal := hbounded.total_le
  rw [hresp] at htotal
  exact ⟨⟨hbounded.total_nonneg, htotal⟩, ⟨hbounded.reqb, hbounded.below⟩,
    fun mem data size => hbounded.writeBounded hsize mem data size⟩

/-- An answer with a document of five octets. -/
def fiveOctets : HttpResp := { httpPrepareResp 200 with contLen := 5 }

/-- A connection whose request is read. -/
def askedOnce : List HttpEvent := (asked fiveOctets).take 2

/-- The head goes out and is acknowledged, and the program writes with a negative size and then
three octets. -/
def writes : List CallEvent :=
  List.replicate 5 (.other (.go 2000 true)) ++
    [.other (.sent 1 ((httpRespStr fiveOctets).length.toUInt16)), .other .tmr,
      .other (.go 2000 true), .other .ret] ++ List.replicate 4 (.other (.go 2000 true)) ++
        [.write 0 Mem.zero 0 (-1), .write 0 Mem.zero 0 3]

theorem run_writes_three : ∃ u v w, httpMachine.run httpStart askedOnce = some u ∧
    u.Starts v firstSlot fiveOctets ∧ callMachine.run v writes = some w ∧
      v.resultSum firstSlot writes = 3 ∧
        ((0 ≤ v.resultSum firstSlot writes ∧
          v.resultSum firstSlot writes ≤ max fiveOctets.contLen 0) ∧
            ((w.cons firstSlot).reqb = (v.cons firstSlot).reqb ∧ ∀ k <
              (v.cons firstSlot).reqb.size, (w.cons firstSlot).buff k = (v.cons firstSlot).buff k) ∧
                ∀ mem data size, w.WriteBounded firstSlot (v.cons firstSlot)
                  (v.resultSum firstSlot writes) mem data size
                    (w.htconWriteCall firstSlot mem data size)) := by
  have hruns : ((httpMachine.run httpStart askedOnce).bind fun u =>
      (u.step (.answer fiveOctets true)).bind fun v => (callMachine.run v writes).map fun _ =>
        decide (u.pending = some firstSlot ∧ (v.cons firstSlot).state = .wrResp ∧
          callMachine.Meets (fun s e => s.KeepsSlot firstSlot e) v writes ∧
            v.resultSum firstSlot writes = 3)) = some true := by decide +kernel
  obtain ⟨u, hu, hruns⟩ := Option.bind_eq_some_iff.mp hruns
  obtain ⟨v, hv, hruns⟩ := Option.bind_eq_some_iff.mp hruns
  obtain ⟨w, hw, hfacts⟩ := Option.map_eq_some_iff.mp hruns
  obtain ⟨hpending, hstate, hkeeps, hsum⟩ := of_decide_eq_true hfacts
  have hstarts : u.Starts v firstSlot fiveOctets := ⟨hpending, hv, hstate⟩
  exact ⟨u, v, w, hu, hstarts, hw, hsum, run_writes initialized_httpStart hu hstarts hw hkeeps⟩

/-- While the head of the response waits, nothing is taken of three octets, and neither the content
length nor the free space is exhausted. -/
theorem not_run_writes_waiting : ∃ u v w, httpStart.Initialized ∧
    httpMachine.run httpStart askedOnce = some u ∧ u.Starts v firstSlot fiveOctets ∧
      callMachine.run v (List.replicate 5 (.other (.go 0 true))) = some w ∧
        (w.htconWriteCall firstSlot Mem.zero 0 3).1 < 3 ∧
          ¬ (fiveOctets.contLen ≤ v.resultSum firstSlot (List.replicate 5 (.other (.go 0 true))) +
              (w.htconWriteCall firstSlot Mem.zero 0 3).1 ∨
            ((w.htconWriteCall firstSlot Mem.zero 0 3).2.cons firstSlot).writed =
              ((w.htconWriteCall firstSlot Mem.zero 0 3).2.cons firstSlot).wsize) := by
  have hruns : ((httpMachine.run httpStart askedOnce).bind fun u =>
      (u.step (.answer fiveOctets true)).bind fun v =>
        (callMachine.run v (List.replicate 5 (.other (.go 0 true)))).map fun w =>
          decide (u.pending = some firstSlot ∧ (v.cons firstSlot).state = .wrResp ∧
            (w.htconWriteCall firstSlot Mem.zero 0 3).1 < 3 ∧
              ¬ (fiveOctets.contLen ≤
                  v.resultSum firstSlot (List.replicate 5 (.other (.go 0 true))) +
                    (w.htconWriteCall firstSlot Mem.zero 0 3).1 ∨
                ((w.htconWriteCall firstSlot Mem.zero 0 3).2.cons firstSlot).writed =
                  ((w.htconWriteCall firstSlot Mem.zero 0 3).2.cons firstSlot).wsize))) =
                    some true := by decide +kernel
  obtain ⟨u, hu, hruns⟩ := Option.bind_eq_some_iff.mp hruns
  obtain ⟨v, hv, hruns⟩ := Option.bind_eq_some_iff.mp hruns
  obtain ⟨w, hw, hfacts⟩ := Option.map_eq_some_iff.mp hruns
  obtain ⟨hpending, hstate, hless, hroom⟩ := of_decide_eq_true hfacts
  exact ⟨u, v, w, initialized_httpStart, hu, ⟨hpending, hv, hstate⟩, hw, hless, hroom⟩

end Runs

end Adhoc
