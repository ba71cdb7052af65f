import Adhoc.Http.Window

/-!
# What a response becomes

`accepted` is the head of a response and the data of the user, `passed` is what TCP took of
it, and the slot has the rest, as long as `htserv_io` clears the counters only when there is
no rest.  Its test looks at `wsended` and `wacksize`, and not at `writed`.  Here is when the
two come to the same.
-/

namespace Adhoc

open ByteMem EventMachine

namespace Con

/-- The octets that are written and not sent. -/
def left (con : Con) : List UInt8 :=
  (con.buff.read con.reqb.size con.writed.toNat).drop con.wsended.toNat

/-- What was accepted was passed on or is left, and what was acknowledged was passed on. -/
structure Balanced (con : Con) (h : History) : Prop where
  octets : h.accepted = h.passed ++ con.left
  acked_le : h.acked ≤ h.passed.length
  acks : con.wacksize + h.passed.length = h.acked + con.wsended

/-- No octet is lost: what was passed on is the front of the response, and while the connection
has not ended the slot has the rest. -/
structure Lossless (con : Con) (h : History) : Prop where
  passed : h.passed <+: h.accepted
  balanced : ¬ con.state.Ended → con.Balanced h

variable {con con' : Con} {h : History} {sndbuf : UInt16} {ok : Bool}

theorem left_nil (hle : con.writed ≤ con.wsended) : con.left = [] := by
  refine List.drop_eq_nil_of_le ?_
  rw [Mem.length_read]
  exact Int.toNat_le_toNat hle

theorem lossless_of_ended (hended : con.state.Ended) (hpassed : h.passed <+: h.accepted) :
    con.Lossless h := ⟨hpassed, fun hlive => absurd hended hlive⟩

theorem Balanced.lossless (hbalanced : con.Balanced h) : con.Lossless h :=
  ⟨⟨con.left, hbalanced.octets.symm⟩, fun _ => hbalanced⟩

/-- TCP has not acknowledged more than it was sent. -/
theorem Balanced.wacksize_le (hbalanced : con.Balanced h) : con.wacksize ≤ con.wsended := by
  have hacked := hbalanced.acked_le
  have hacks := hbalanced.acks
  omega

/-- What happens to the buffer matters only when something is left. -/
theorem Balanced.of_left_nil (hbalanced : con.Balanced h) (hleft : con.left = [])
    (hleft' : con'.left = []) (hacks : con'.wacksize - con'.wsended = con.wacksize - con.wsended) :
    con'.Balanced h where
  octets := by rw [hleft', ← hleft, hbalanced.octets]
  acked_le := hbalanced.acked_le
  acks := by
    have hsum := hbalanced.acks
    omega

/-- Of what is left, the front is passed on. -/
theorem Responds.octets_region (hresponds : con.Responds h) :
    con.octets (con.region sndbuf) = con.left.take (con.count sndbuf).toNat := by
  have hnonneg := hresponds.sended_nonneg
  have hcount := count_nonneg hresponds.sended_le sndbuf
  have hle := con.count_le sndbuf
  rw [left, con.buff.take_drop_read _ (by omega), Con.region, hresponds.wbuff]
  rfl

theorem Balanced.send (hbalanced : con.Balanced h) (hresponds : con.Responds h)
    (sndbuf : UInt16) (ok : Bool) :
    (con.send sndbuf ok).Balanced (h.pass (con.passes sndbuf ok)) := by
  have hnonneg := hresponds.sended_nonneg
  have hcount := count_nonneg hresponds.sended_le sndbuf
  have hle := con.count_le sndbuf
  cases con.send_spec sndbuf ok with
  | nothing _ hcon hdata =>
      rw [hcon, hdata, History.pass, List.append_nil]
      exact ⟨hbalanced.octets, hbalanced.acked_le, hbalanced.acks⟩
  | passes _ _ hcon hdata =>
      rw [hcon, hdata, hresponds.octets_region]
      have hlength :
          (con.left.take (con.count sndbuf).toNat).length = (con.count sndbuf).toNat := by
        rw [List.length_take, left, List.length_drop, Mem.length_read]
        omega
      have hleft : ({ con with wsended := con.wsended + con.count sndbuf } : Con).left =
          con.left.drop (con.count sndbuf).toNat := by
        rw [left, left, List.drop_drop, Int.toNat_add hnonneg hcount]
      have hacked := hbalanced.acked_le
      have hacks := hbalanced.acks
      refine ⟨?_, ?_, ?_⟩
      · rw [hleft, History.pass, List.append_assoc, List.take_append_drop, hbalanced.octets]
      · rw [History.pass, List.length_append]
        exact Nat.le_add_right_of_le hacked
      · rw [History.pass, List.length_append, hlength]
        dsimp only
        omega

/-- All that was written was sent and is acknowledged. -/
theorem Balanced.reset (hbalanced : con.Balanced h) (hsended : con.Sended)
    (hall : con.writed = con.wsended) : con.reset.Balanced h := by
  refine hbalanced.of_left_nil (left_nil hall.le) (left_nil (le_refl 0)) ?_
  have hacked := hbalanced.wacksize_le
  have hle := hsended.2.1
  show (0 : Int) - 0 = _
  omega

theorem Balanced.ack (hbalanced : con.Balanced h) (hall : con.Sended → con.writed = con.wsended) :
    con.ack.Lossless h := by
  cases con.ack_spec with
  | waits _ hcon =>
      rw [hcon]
      exact hbalanced.lossless
  | head hsended _ hcon =>
      rw [hcon]
      have hreset := hbalanced.reset hsended (hall hsended)
      exact Balanced.lossless ⟨hreset.octets, hreset.acked_le, hreset.acks⟩
  | complete _ _ hcon =>
      rw [hcon]
      exact lossless_of_ended trivial hbalanced.lossless.passed
  | more hsended _ hcon =>
      rw [hcon]
      exact (hbalanced.reset hsended (hall hsended)).lossless

/-- The counters are cleared with nothing left exactly when TCP takes some of what is left where all
that was sent is acknowledged. -/
theorem Balanced.all_sent_iff (hbalanced : con.Balanced h) (hresponds : con.Responds h) :
    ((con.send sndbuf ok).Sended →
      (con.send sndbuf ok).writed = (con.send sndbuf ok).wsended) ↔
        (con.Sended → con.wsended < con.writed → sndbuf ≠ 0 ∧ ok) := by
  have hacked := hbalanced.wacksize_le
  have hle := hresponds.sended_le
  cases con.send_spec sndbuf ok with
  | nothing hstalled hcon _ =>
      rw [hcon]
      constructor
      · intro hall hsended hlt
        exact absurd (hall hsended) hlt.ne'
      · intro htakes hsended
        by_contra hne
        have hlt := lt_of_le_of_ne hle (Ne.symm hne)
        exact hstalled ⟨⟨hsended.1, hlt⟩, (htakes hsended hlt).2⟩
  | passes hdata hok hcon _ =>
      rw [hcon]
      constructor
      · intro hall hsended hlt
        refine ⟨?_, hok⟩
        rintro rfl
        have hzero : con.count 0 = 0 := if_pos (show (0 : Int) < _ by omega)
        rw [hzero, Int.add_zero] at hall
        exact absurd (hall hsended) hlt.ne'
      · rintro htakes ⟨hstate, hsize, hpos⟩
        dsimp only at hstate hsize hpos
        -- What has only just been passed on is not acknowledged, so nothing was passed on.
        have hcount := count_nonneg hle sndbuf
        have hlt := hdata.2
        have hsndbuf := (htakes ⟨hstate, by omega, by omega⟩ hlt).1
        have hsome : 0 < con.count sndbuf := by
          have hnat : sndbuf.toNat ≠ 0 := fun hzero => hsndbuf (UInt16.toNat_inj.mp hzero)
          unfold count
          split <;> omega
        omega

theorem Lossless.io (hlossless : con.Lossless h) (hsound : con.Sound h)
    (hlive : ¬ (con.state = .none ∨ con.state = .closed))
    (hall : (con.send sndbuf ok).Sended →
      (con.send sndbuf ok).writed = (con.send sndbuf ok).wsended) :
    (con.send sndbuf ok).ack.Lossless (h.pass (con.passes sndbuf ok)) := by
  by_cases hended : con.state.Ended
  · obtain ⟨hio, hpasses⟩ := io_closing (closing_of_ended hended hlive) sndbuf ok
    rw [hio, hpasses, History.pass, List.append_nil]
    exact lossless_of_ended hended hlossless.passed
  · rcases hsound.cases hended with ⟨-, hasks⟩ | ⟨-, hresponds⟩
    · obtain ⟨hio, hpasses⟩ := con.io_eq hasks.not_hasData hasks.not_sended sndbuf ok
      rw [hio, hpasses, History.pass, List.append_nil]
      exact hlossless
    · exact ((hlossless.balanced hended).send hresponds sndbuf ok).ack hall

theorem Balanced.write (hbalanced : con.Balanced h) (hresponds : con.Responds h)
    (data : List UInt8) :
    (con.write data).Balanced (h.accept (data.take (con.writeCount data.length).toNat)) where
  octets := by
    have hnonneg := hresponds.sended_nonneg
    have hle := hresponds.sended_le
    have hread := con.read_write hresponds.wbuff (Int.le_trans hnonneg hle) data
    have hfront : con.wsended.toNat ≤ (con.buff.read con.reqb.size con.writed.toNat).length := by
      rw [Mem.length_read]
      exact Int.toNat_le_toNat hle
    have hleft : (con.write data).left =
        con.left ++ data.take (con.writeCount data.length).toNat := by
      rw [left, show (con.write data).reqb = con.reqb from rfl, hread]
      exact List.drop_append_of_le_length hfront
    rw [hleft, History.accept, ← List.append_assoc, hbalanced.octets]
  acked_le := hbalanced.acked_le
  acks := hbalanced.acks

theorem Balanced.startResp (hbalanced : con.Balanced h) (hasks : con.Asks h) (resp : HttpResp)
    (hfits : ¬ (con.printResp resp).RespNomem) :
    (con.printResp resp).startResp.Balanced (h.accept (httpRespStr resp)) := by
  have hsize : con.reqb.size ≤ httpConBuffSize := le_of_lt (lt_trans hasks.size_lt (by decide))
  have hread := con.read_printResp hsize resp hfits
  have hwrited : (con.printResp resp).startResp.writed.toNat = (httpRespStr resp).length :=
    Int.toNat_natCast _
  have hleft : (con.printResp resp).startResp.left = httpRespStr resp := by
    rw [left, hwrited]
    exact hread
  have hacked : h.acked = 0 := by
    have hle := hbalanced.acked_le
    rw [hasks.passed] at hle
    exact Nat.le_zero.mp hle
  refine ⟨?_, hbalanced.acked_le, ?_⟩
  · rw [hleft, History.accept, hasks.accepted, hasks.passed]
  · rw [History.accept, hasks.passed, hacked]
    rfl

end Con

/-! ## Runs -/

namespace HttpServer

variable (s : HttpServer)

/-- Where `htserv_io` clears the counters, what was written was sent, and where it takes the
document for complete, all of the response was passed on. -/
def ResetsSent : HttpEvent → Prop
  | .go sndbuf ok => ∀ (i : ConSlot) rest, s.calls = .io i :: rest → (s.cons i).state ≠ .none →
      (s.cons i).state ≠ .closed → ((s.cons i).send sndbuf ok).Sended →
        ((s.cons i).send sndbuf ok).writed = ((s.cons i).send sndbuf ok).wsended ∧
          (((s.cons i).send sndbuf ok).Complete →
            (s.hist i).passed ++ (s.cons i).passes sndbuf ok = (s.hist i).accepted)
  | _ => True

/-- A connection is accepted into a slot whose `writed` is 0, and TCP acknowledges what it was
passed. -/
def Acknowledges : HttpEvent → Prop
  | .accept _ => ∀ i, s.findFreeCon = some i → (s.cons i).writed = 0
  | .sent pcb len => ∀ i, s.args pcb = some i →
      (s.hist i).acked + len.toNat ≤ (s.hist i).passed.length
  | _ => True

/-- Where all that was sent is acknowledged and more is written, TCP takes some of it. -/
def TakesMore : HttpEvent → Prop
  | .go sndbuf ok => ∀ (i : ConSlot) rest, s.calls = .io i :: rest → (s.cons i).state ≠ .none →
      (s.cons i).state ≠ .closed → (s.cons i).Sended →
        (s.cons i).wsended < (s.cons i).writed → sndbuf ≠ 0 ∧ ok
  | _ => True

instance : (e : HttpEvent) → Decidable (s.Acknowledges e)
  | .accept _ => inferInstanceAs (Decidable (∀ i, s.findFreeCon = some i → (s.cons i).writed = 0))
  | .sent pcb len => inferInstanceAs (Decidable (∀ i, s.args pcb = some i →
      (s.hist i).acked + len.toNat ≤ (s.hist i).passed.length))
  | .recv _ _ _ | .fin _ | .err _ | .freed _ | .tmr | .write _ _ | .close _ | .free _ | .answer _ _
  | .ret | .go _ _ => inferInstanceAs (Decidable True)

instance : (e : HttpEvent) → Decidable (s.TakesMore e)
  | .go sndbuf ok =>
      decidable_of_iff (∀ i : ConSlot, s.calls.head? = some (.io i) → (s.cons i).state ≠ .none →
          (s.cons i).state ≠ .closed → (s.cons i).Sended →
            (s.cons i).wsended < (s.cons i).writed → sndbuf ≠ 0 ∧ ok)
        (forall_congr' fun _ => by rw [List.head?_eq_some_iff, forall_exists_index])
  | .accept _ | .recv _ _ _ | .fin _ | .err _ | .freed _ | .sent _ _ | .tmr | .write _ _
  | .close _ | .free _ | .answer _ _ | .ret => inferInstanceAs (Decidable True)

end HttpServer

/-- A server in which no octet of a response is lost. -/
structure HttpServer.Lossless (s : HttpServer) : Prop where
  sound : s.Sound
  lossless : ∀ i, (s.cons i).Lossless (s.hist i)

section Lossless

variable {s t : HttpServer} {e : HttpEvent} {i : ConSlot}

theorem HttpServer.Lossless.balanced (h : s.Lossless) (hpending : s.pending = some i) :
    (s.cons i).Balanced (s.hist i) := by
  refine (h.lossless i).balanced ?_
  rw [h.sound.reads.pending i hpending]
  exact id

theorem HttpServer.Acknowledges.acceptsCleared (hP : s.Acknowledges e) : s.AcceptsCleared e := by
  cases e with
  | accept newpcb => exact hP
  | _ => trivial

/-- Where the state machine gets to a slot that responds, TCP takes more exactly when it resets
what is sent only. -/
theorem resetsSent_iff (h : s.Lossless) : s.ResetsSent e ↔ s.TakesMore e := by
  cases e with
  | go sndbuf ok =>
      refine forall_congr' fun i => forall_congr' fun rest => forall_congr' fun _ =>
        forall_congr' fun hnone => forall_congr' fun hclosed => ?_
      by_cases hended : (s.cons i).state.Ended
      · have hclosing := Con.closing_of_ended hended (not_or.mpr ⟨hnone, hclosed⟩)
        refine iff_of_true (fun hsended => absurd hclosing ?_) fun hsended =>
          absurd hclosing hsended.1
        rw [← (s.cons i).send_state sndbuf ok]
        exact hsended.1
      · have hbalanced := (h.lossless i).balanced hended
        rcases (h.sound.sound i).cases hended with ⟨-, hasks⟩ | ⟨-, hresponds⟩
        · rw [Con.send_eq hasks.not_hasData]
          exact iff_of_true (fun hsended => absurd hsended hasks.not_sended) fun hsended =>
            absurd hsended hasks.not_sended
        · rw [← hbalanced.all_sent_iff hresponds]
          refine forall_congr' fun _ => and_iff_left_of_imp fun hall _ => ?_
          have hoctets := (hbalanced.send hresponds sndbuf ok).octets
          rw [Con.left_nil hall.le, List.append_nil] at hoctets
          exact hoctets.symm
  | _ => exact .rfl

theorem Change.lossless (hchange : Change s t e i) (h : s.Lossless) (hP : s.Acknowledges e)
    (hC : s.TakesMore e) : (t.cons i).Lossless (t.hist i) := by
  have hi := h.lossless i
  cases hchange with
  | same _ hcon hhist =>
      rw [hcon, hhist]
      exact hi
  | accept newpcb _ he hfree hcon hhist =>
      subst he
      rw [hcon, hhist]
      exact Con.Balanced.lossless ⟨(Con.left_nil (hP i hfree).le).symm, le_refl 0, rfl⟩
  | push data buff reqb resp state hidle hrd hpush hstate hcon hhist =>
      rw [hcon, hhist]
      have hasks := (h.sound.sound i).asks hrd
      -- Nothing is left, whatever happens to the buffer.
      have hleft : (s.cons i).writed ≤ (s.cons i).wsended := by rw [hasks.writed, hasks.wsended]
      rcases hstate with ⟨rfl, -⟩ | ⟨rfl, -⟩
      · have hbalanced := hi.balanced (by rw [hrd]; exact id)
        refine Con.Balanced.lossless (hbalanced.of_left_nil (Con.left_nil hleft) ?_ rfl)
        exact Con.left_nil hleft
      · exact Con.lossless_of_ended trivial hi.passed
  | ended conState state pcb resp _ hended hcon hhist =>
      rw [hcon, hhist]
      exact Con.lossless_of_ended hended hi.passed
  | respNomem resp hentry _ hcon hhist =>
      rw [hcon, hhist]
      have hpending := HttpServer.pending_onReq hentry
      have hasks := h.sound.asks hpending
      have hleft : (s.cons i).writed ≤ (s.cons i).wsended := by rw [hasks.writed, hasks.wsended]
      refine Con.Balanced.lossless ((h.balanced hpending).of_left_nil (Con.left_nil hleft) ?_ rfl)
      exact Con.left_nil hleft
  | respond resp hentry _ hfits hcon hhist =>
      rw [hcon, hhist]
      have hpending := HttpServer.pending_onReq hentry
      exact ((h.balanced hpending).startResp (h.sound.asks hpending) resp hfits).lossless
  | sent pcb len _ he hslot hcon hhist =>
      subst he
      rw [hcon, hhist]
      refine ⟨hi.passed, fun hlive => ?_⟩
      have hbalanced := hi.balanced hlive
      refine ⟨hbalanced.octets, hP i hslot, ?_⟩
      have hacks := hbalanced.acks
      rw [History.ack]
      dsimp only
      omega
  | io sndbuf ok rest _ he hcalls hlive hcon hhist =>
      subst he
      rw [hcon, hhist]
      obtain ⟨hnone, hclosed⟩ := not_or.mp hlive
      exact hi.io (h.sound.sound i) hlive fun hsended =>
        ((resetsSent_iff h).mpr hC i rest hcalls hnone hclosed hsended).1
  | write data _ hactive hcon hhist =>
      rw [hcon, hhist]
      have hbalanced := hi.balanced (by rw [hactive]; exact id)
      exact (hbalanced.write ((h.sound.sound i).responds (.inr hactive)) data).lossless

theorem lossless_step (h : s.Lossless) (hP : s.Acknowledges e) (hC : s.TakesMore e)
    (hstep : s.step e = some t) : t.Lossless where
  sound := sound_step h.sound hP.acceptsCleared hstep
  lossless i := (change_of_step hstep i).lossless h hP hC

theorem HttpServer.Initialized.lossless (h : s.Initialized) : s.Lossless where
  sound := h.sound
  lossless i := by
    obtain ⟨hstate, hhist⟩ := h.2 i
    refine Con.lossless_of_ended (by rw [hstate]; trivial) ?_
    rw [hhist]

/-- In a run from the start in which slots are used again with their counters clear and TCP
acknowledges what it was passed, no octet is lost and none is passed twice exactly when TCP takes
more each time that all of what it took is acknowledged. -/
theorem run_lossless {es : List HttpEvent} (h : s.Initialized)
    (hrun : httpMachine.run s es = some t) (hP : httpMachine.Meets HttpServer.Acknowledges s es) :
    ((∀ u, httpMachine.Visits s es u → ∀ i, (u.hist i).passed <+: (u.hist i).accepted) ∧
      httpMachine.Meets HttpServer.ResetsSent s es) ↔
        httpMachine.Meets HttpServer.TakesMore s es := by
  have hkeep (s : HttpServer) (e : HttpEvent) (t : HttpServer) (hacks : s.Acknowledges e)
      (htakes : s.TakesMore e) (hstep : s.step e = some t) (hs : s.Lossless) : t.Lossless :=
    lossless_step hs hacks htakes hstep
  have hresets : httpMachine.Meets HttpServer.ResetsSent s es ↔
      httpMachine.Meets HttpServer.TakesMore s es :=
    Machine.meets_congr_of (I := HttpServer.Lossless) hkeep
      (fun _ _ _ _ _ hs => resetsSent_iff hs) hrun hP h.lossless
  refine ⟨fun hall => hresets.mp hall.2, fun htakes => ⟨fun u hvisits i => ?_, hresets.mpr htakes⟩⟩
  have hu : u.Lossless := Machine.Visits.invariant (fun s e t hC => hkeep s e t hC.1 hC.2)
    (hP.and htakes) hvisits h.lossless
  exact (hu.lossless i).passed

/-- TCP takes ten octets of a head and acknowledges them, and it takes nothing when the state
machine comes back.  Then it takes the document. -/
def truncated : List HttpEvent :=
  asked { httpPrepareResp 200 with contLen := 2 } ++ [.go 10 true] ++
    List.replicate 4 (.go 0 true) ++
      [.sent 1 10, .tmr, .go 0 true, .write 0 ['o'.toUInt8, 'k'.toUInt8], .go 100 true]

/-- The same response where TCP takes the rest of the head when the state machine comes back. -/
def resumed : List HttpEvent :=
  asked { httpPrepareResp 200 with contLen := 2 } ++ [.go 10 true] ++
    List.replicate 4 (.go 0 true) ++ [.sent 1 10, .tmr, .go 100 true] ++
      List.replicate 4 (.go 0 true) ++
        [.sent 1 85, .tmr, .go 0 true, .write 0 ['o'.toUInt8, 'k'.toUInt8], .go 100 true]

theorem run_lossless_truncated :
    ((∀ u, httpMachine.Visits httpStart resumed u →
        ∀ i, (u.hist i).passed <+: (u.hist i).accepted) ∧
      httpMachine.Meets HttpServer.ResetsSent httpStart resumed) ∧
    ¬ ((∀ u, httpMachine.Visits httpStart truncated u →
        ∀ i, (u.hist i).passed <+: (u.hist i).accepted) ∧
      httpMachine.Meets HttpServer.ResetsSent httpStart truncated) := by
  have hruns : (httpMachine.run httpStart resumed).isSome := by decide +kernel
  have hruns' : (httpMachine.run httpStart truncated).isSome := by decide +kernel
  obtain ⟨t, ht⟩ := Option.isSome_iff_exists.mp hruns
  obtain ⟨t', ht'⟩ := Option.isSome_iff_exists.mp hruns'
  exact ⟨(run_lossless initialized_httpStart ht (by decide +kernel)).mpr (by decide +kernel),
    (run_lossless initialized_httpStart ht' (by decide +kernel)).not.mpr (by decide +kernel)⟩

/-- The document follows the tenth octet of the head. -/
theorem not_lossless_truncated :
    httpStart.Initialized ∧ httpMachine.Meets HttpServer.Acknowledges httpStart truncated ∧
      ∃ t, httpMachine.run httpStart truncated = some t ∧ httpMachine.Visits httpStart truncated t ∧
        ¬ (t.hist firstSlot).passed <+: (t.hist firstSlot).accepted := by
  have hlost : ((httpMachine.run httpStart truncated).map fun t =>
      decide ((t.hist firstSlot).passed <+: (t.hist firstSlot).accepted)) = some false := by
    decide +kernel
  obtain ⟨t, ht, hlost⟩ := Option.map_eq_some_iff.mp hlost
  exact ⟨initialized_httpStart, by decide +kernel, t, ht,
    ⟨truncated, [], (List.append_nil _).symm, ht⟩, of_decide_eq_false hlost⟩

end Lossless

end Adhoc
