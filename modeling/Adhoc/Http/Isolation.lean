import Adhoc.Http.Serving

/-!
# Late callbacks

The slots are used again, and nothing takes the callbacks away from a pcb whose connection
the server has ended.  So a callback may be for a pcb that is not the one of its slot.  Here
is when that leaves the slot alone.
-/

namespace Adhoc

open ByteMem EventMachine

namespace HttpServer

variable (s : HttpServer)

/-- The slot of a callback that is not for the pcb of the slot, where the callback does something
to it.  `htcon_err` does behind `htserv_on_err`. -/
def staleSlot : HttpEvent → Option ConSlot
  | .recv pcb _ _ | .fin pcb | .sent pcb _ => (s.args pcb).filter fun i => s.Stale i pcb
  | .go _ _ =>
      match s.calls, s.entry with
      | [], some (.err i true) => some i
      | _, _ => none
  | _ => none

/-- Such a callback changes nothing in the slot. -/
def Isolated (e : HttpEvent) : Prop :=
  ∀ i t, s.staleSlot e = some i → s.step e = some t → t.cons i = s.cons i

/-- A callback that finds nothing to change in a slot. -/
def HarmlessTo (i : ConSlot) : HttpEvent → Prop
  | .recv _ _ _ => (s.cons i).state ≠ .rdReq
  | .fin _ => (s.cons i).state = .closed ∨
      (s.cons i).state = .closing ∧ (s.cons i).conState = .closing
  | .sent _ len => len = 0
  | _ => (s.cons i).state = .closing ∧ (s.cons i).conState = .closing

instance (i : ConSlot) : (e : HttpEvent) → Decidable (s.HarmlessTo i e)
  | .recv _ _ _ => inferInstanceAs (Decidable (_ ≠ _))
  | .fin _ => inferInstanceAs (Decidable (_ ∨ _))
  | .sent _ _ => inferInstanceAs (Decidable (_ = _))
  | .accept _ | .err _ | .freed _ | .tmr | .write _ _ | .close _ | .free _ | .answer _ _ | .ret
  | .go _ _ => inferInstanceAs (Decidable (_ ∧ _))

/-- A callback that is not for the pcb of its slot finds nothing to change there. -/
def Harmless (e : HttpEvent) : Prop := ∀ i, s.staleSlot e = some i → s.HarmlessTo i e

instance (e : HttpEvent) : Decidable (s.Harmless e) :=
  inferInstanceAs (Decidable (∀ i, s.staleSlot e = some i → s.HarmlessTo i e))

end HttpServer

/-! ## Requests that are read -/

/-- A request buffer that can take more. -/
def HttpReqb.Open (reqb : HttpReqb) (buff : Mem) : Prop :=
  ∃ v r l, Rel v buff reqb r l ∧ r.state = .unfinished

/-- A slot that reads a request can take more of it, unless the request was read and a callback
has yet to do with it. -/
structure HttpServer.Reads (s : HttpServer) : Prop where
  pending : ∀ i, s.pending = some i → (s.cons i).state = .rdReq
  reading : ∀ i, (s.cons i).state = .rdReq →
    s.pending = some i ∨ (s.cons i).reqb.Open (s.cons i).buff

section Reads

variable {s t : HttpServer} {e : HttpEvent} {i : ConSlot} {buff buff' : Mem} {reqb reqb' : HttpReqb}
  {data : List UInt8}

theorem HttpReqb.open_init (buff : Mem) {bsize : Nat} (hb : bsize < 2147483648) :
    (httpReqbInit bsize hb).Open buff := ⟨fun _ => 0, .start, [], rel_start _ _ hb, rfl⟩

theorem HttpReqb.Open.state (h : reqb.Open buff) : reqb.state = .unfinished := by
  obtain ⟨v, r, l, hrel, hlive⟩ := h
  exact hrel.state.trans hlive

/-- What a push makes of an open request: data that fits is behind it, and other data makes it too
big. -/
theorem HttpReqb.Open.push_cases (h : reqb.Open buff)
    (hpush : httpReqbPush buff reqb data = some (buff', reqb')) :
    (reqb.size + data.length < reqb.bsize ∧ reqb'.size = reqb.size + data.length ∧
      reqb'.bsize = reqb.bsize ∧ (reqb'.state = .unfinished → reqb'.Open buff')) ∨
        reqb' = { reqb with state := .reqToBig } := by
  obtain ⟨v, r, l, hrel, hlive⟩ := h
  by_cases hfit : reqb.size + data.length < reqb.bsize
  · obtain ⟨_, _, r', l', hpush', -, hrel', hsize, hbsize⟩ := hrel.push hfit
    cases hpush.symm.trans hpush'
    rw [if_pos hlive] at hsize
    exact .inl ⟨hfit, hsize, hbsize, fun hstate =>
      ⟨_, r', l', hrel', hrel'.state.symm.trans hstate⟩⟩
  · rw [httpReqbPush, if_pos (Nat.not_lt.mp hfit)] at hpush
    cases hpush
    exact .inr rfl

/-- Data changes the request that it is pushed to. -/
theorem HttpReqb.Open.push_ne (h : reqb.Open buff) (hdata : data ≠ [])
    (hpush : httpReqbPush buff reqb data = some (buff', reqb')) : reqb' ≠ reqb := by
  intro heq
  rcases h.push_cases hpush with ⟨-, hsize, -, -⟩ | hbig
  · have hpos := List.length_pos_iff.mpr hdata
    rw [heq] at hsize
    omega
  · have hstate : reqb'.state = .reqToBig := congrArg HttpReqb.state hbig
    rw [heq, h.state] at hstate
    cases hstate

/-- Data that does not end the request leaves it open for more. -/
theorem HttpReqb.Open.push (h : reqb.Open buff)
    (hpush : httpReqbPush buff reqb data = some (buff', reqb'))
    (hstate : reqb'.state = .unfinished) : reqb'.Open buff' := by
  rcases h.push_cases hpush with ⟨-, -, -, hopen⟩ | hbig
  · exact hopen hstate
  · rw [hbig] at hstate
    cases hstate

/-- And what is in the buffer leaves room for more. -/
theorem HttpReqb.Open.push_size (h : reqb.Open buff)
    (hpush : httpReqbPush buff reqb data = some (buff', reqb')) (hlt : reqb.size < reqb.bsize) :
    reqb'.bsize = reqb.bsize ∧ reqb'.size < reqb.bsize := by
  rcases h.push_cases hpush with ⟨hfit, hsize, hbsize, -⟩ | hbig
  · exact ⟨hbsize, hsize.trans_lt hfit⟩
  · rw [hbig]
    exact ⟨rfl, hlt⟩

/-- Nothing pending, the request is open. -/
theorem HttpServer.Reads.open (h : s.Reads) (hnone : s.pending = none)
    (hrd : (s.cons i).state = .rdReq) : (s.cons i).reqb.Open (s.cons i).buff :=
  (h.reading i hrd).resolve_left fun hpending => by
    cases hnone.symm.trans hpending

/-- What a step does to a slot leaves its pendency to a slot that reads a request. -/
theorem Change.pending (hchange : Change s t e i) (h : s.Reads) (hpending : t.pending = some i) :
    (t.cons i).state = .rdReq := by
  cases hchange with
  | same hsame hcon _ =>
      rw [hcon]
      exact h.pending i (hsame.mp hpending)
  | accept newpcb hnone => cases hnone.symm.trans hpending
  | push data buff reqb resp state _ _ _ hstate hcon _ =>
      rw [hcon]
      rcases hstate with ⟨hrd, -⟩ | ⟨-, hnone⟩
      · exact hrd
      · cases hnone.symm.trans hpending
  | ended conState state pcb resp hkept =>
      obtain ⟨hs, hne⟩ := hkept hpending
      exact absurd (h.pending i hs) hne
  | respNomem resp hentry _ hcon _ =>
      rw [hcon]
      exact h.pending i (HttpServer.pending_onReq hentry)
  | respond resp _ hnone => cases hnone.symm.trans hpending
  | sent pcb len hkept _ _ hcon _ =>
      rw [hcon]
      exact h.pending i (hkept.symm.trans hpending)
  | io sndbuf ok rest hkept _ _ _ hcon _ =>
      rw [hcon]
      exact ((s.cons i).io_reads sndbuf ok).1.mpr (h.pending i (hkept.symm.trans hpending))
  | write data hkept hactive =>
      cases hactive.symm.trans (h.pending i (hkept.symm.trans hpending))

/-- And a slot that reads a request has an open one, or is pending. -/
theorem Change.reading (hchange : Change s t e i) (h : s.Reads)
    (hrd : (t.cons i).state = .rdReq) :
    t.pending = some i ∨ (t.cons i).reqb.Open (t.cons i).buff := by
  cases hchange with
  | same hsame hcon _ =>
      rw [hcon] at hrd ⊢
      exact (h.reading i hrd).imp_left hsame.mpr
  | accept newpcb _ _ _ hcon _ =>
      rw [hcon]
      exact .inr (HttpReqb.open_init _ _)
  | push data buff reqb resp state hidle hs hpush hstate hcon _ =>
      rw [hcon] at hrd ⊢
      rcases hstate with ⟨-, hlive | hpending⟩ | ⟨hclosing, -⟩
      · exact .inr ((h.open hidle.pending hs).push hpush hlive)
      · exact .inl hpending
      · cases hclosing.symm.trans hrd
  | ended conState state pcb resp _ hended hcon _ =>
      rw [hcon] at hrd
      rw [show state = .rdReq from hrd] at hended
      exact hended.elim
  | respNomem resp _ hpending => exact .inl hpending
  | respond resp _ _ _ hcon _ =>
      rw [hcon] at hrd
      cases hrd
  | sent pcb len hkept _ _ hcon _ =>
      rw [hcon] at hrd ⊢
      rw [hkept]
      exact h.reading i hrd
  | io sndbuf ok rest hkept _ _ _ hcon _ =>
      obtain ⟨hstate, hbuff, hreqb⟩ := (s.cons i).io_reads sndbuf ok
      rw [hcon] at hrd ⊢
      rw [hkept, hbuff, hreqb]
      exact h.reading i (hstate.mp hrd)
  | write data _ hactive hcon _ =>
      rw [hcon] at hrd
      cases hactive.symm.trans hrd

theorem reads_step (h : s.Reads) (hstep : s.step e = some t) : t.Reads where
  pending i := (change_of_step hstep i).pending h
  reading i := (change_of_step hstep i).reading h

theorem HttpServer.Initialized.reads (h : s.Initialized) : s.Reads where
  pending _ hpending := by cases h.1.pending.symm.trans hpending
  reading i hrd := by cases (h.2 i).1.symm.trans hrd

end Reads

/-! ## What a late callback changes -/

section Isolation

variable {s t : HttpServer} {e : HttpEvent} {i : ConSlot} {con : Con}

theorem Con.closing_eq_iff :
    con.closing = con ↔ con.state = .closing ∧ con.conState = .closing := by
  constructor
  · intro h
    exact ⟨(congrArg Con.state h).symm, (congrArg Con.conState h).symm⟩
  · rintro ⟨hstate, hconState⟩
    cases con
    cases hstate
    cases hconState
    rfl

/-- Received data is pushed to a slot that reads a request, and no step behind the push puts the old
request back. -/
theorem htconReceived_push {data : List UInt8} {onReq : Bool}
    (ht : s.htconReceived i data onReq = some t) (hrd : (s.cons i).state = .rdReq) :
    ∃ buff, httpReqbPush (s.cons i).buff (s.cons i).reqb data = some (buff, (t.cons i).reqb) := by
  have hset (con : Con) : ((s.setCon i con).cons i).reqb = con.reqb :=
    congrArg Con.reqb (s.setCon_self con)
  cases receipt_of ht with
  | ignored hother => exact absurd hrd hother
  | unfinished buff reqb _ hpush _ => exact ⟨buff, hpush.trans (by rw [hset])⟩
  | refused buff reqb _ hpush =>
      exact ⟨buff, hpush.trans (by rw [HttpServer.callIo_cons, hset])⟩
  | asked buff reqb _ hpush => exact ⟨buff, hpush.trans (by rw [hset])⟩
  | bad buff reqb _ hpush => exact ⟨buff, hpush.trans (by rw [hset])⟩

/-- Received data leaves a slot alone unless the slot reads a request. -/
theorem htconReceived_eq_iff {data : List UInt8} {onReq : Bool} (h : s.Reads) (hidle : s.Idle)
    (hdata : data ≠ []) (ht : s.htconReceived i data onReq = some t) :
    t.cons i = s.cons i ↔ (s.cons i).state ≠ .rdReq := by
  by_cases hrd : (s.cons i).state = .rdReq
  · refine iff_of_false (fun heq => ?_) (not_not.mpr hrd)
    obtain ⟨buff, hpush⟩ := htconReceived_push ht hrd
    exact (h.open hidle.pending hrd).push_ne hdata hpush (congrArg Con.reqb heq)
  · rw [HttpServer.htconReceived, if_pos hrd] at ht
    cases ht
    exact iff_of_true rfl hrd

theorem htconFin_eq_iff :
    (s.htconFin i).cons i = s.cons i ↔ (s.cons i).state = .closed ∨
      (s.cons i).state = .closing ∧ (s.cons i).conState = .closing := by
  rcases s.htconFin_cases i with ⟨hclosed, heq⟩ | ⟨hopen, heq⟩
  · rw [heq]
    exact iff_of_true rfl (.inl hclosed)
  · rw [heq, HttpServer.setCon_self, Con.closing_eq_iff, or_iff_right hopen]

theorem htconSent_eq_iff (len : UInt16) :
    (s.htconSent i len).cons i = s.cons i ↔ len = 0 := by
  have hcon : (s.htconSent i len).cons i =
      { s.cons i with wacksize := (s.cons i).wacksize + len.toNat } := s.setCon_self _
  rw [hcon]
  constructor
  · intro heq
    have hsize := congrArg Con.wacksize heq
    dsimp only at hsize
    have hzero : len.toNat = 0 := by omega
    exact UInt16.toNat_inj.mp hzero
  · rintro rfl
    have hsame : (s.cons i).wacksize + ((0 : UInt16).toNat : Int) = (s.cons i).wacksize :=
      Int.add_zero _
    rw [hsame]

/-- The slot of a late callback is as it was when the callback found nothing to change. -/
theorem unchanged_iff_harmless (h : s.Reads) (hstep : s.step e = some t)
    (hstale : s.staleSlot e = some i) : t.cons i = s.cons i ↔ s.HarmlessTo i e := by
  cases e with
  | recv pcb data onReq =>
      obtain ⟨hi, -⟩ := Option.filter_eq_some_iff.mp hstale
      obtain ⟨⟨hidle, hdata⟩, hbind⟩ := Option.ite_none_right_eq_some.mp hstep
      obtain ⟨j, hj, ht⟩ := Option.bind_eq_some_iff.mp hbind
      cases hi.symm.trans hj
      exact htconReceived_eq_iff h hidle hdata ht
  | fin pcb =>
      obtain ⟨hi, -⟩ := Option.filter_eq_some_iff.mp hstale
      obtain ⟨-, hmap⟩ := Option.ite_none_right_eq_some.mp hstep
      obtain ⟨j, hj, rfl⟩ := Option.map_eq_some_iff.mp hmap
      cases hi.symm.trans hj
      exact htconFin_eq_iff
  | sent pcb len =>
      obtain ⟨hi, -⟩ := Option.filter_eq_some_iff.mp hstale
      obtain ⟨-, hmap⟩ := Option.ite_none_right_eq_some.mp hstep
      obtain ⟨j, hj, rfl⟩ := Option.map_eq_some_iff.mp hmap
      cases hi.symm.trans hj
      exact htconSent_eq_iff len
  | go sndbuf ok =>
      -- `htcon_err` goes on behind its hook.
      simp only [HttpServer.staleSlot] at hstale
      split at hstale
      next hcalls hentry =>
        cases hstale
        have hleave : t = { s.setCon i (s.cons i).closing with entry := none } := by
          simp only [HttpServer.step, HttpServer.resume, hcalls, hentry, Option.bind_some,
            HttpServer.leave, Option.some.injEq] at hstep
          exact hstep.symm
        rw [hleave]
        exact (iff_of_eq (congrArg (· = s.cons i) (s.setCon_self _))).trans Con.closing_eq_iff
      next => cases hstale
  | accept _ | err _ | freed _ | tmr | write _ _ | close _ | free _ | answer _ _ | ret =>
      cases hstale

theorem isolated_iff (h : s.Reads) (hstep : s.step e = some t) : s.Isolated e ↔ s.Harmless e := by
  refine forall_congr' fun i => ⟨fun hall hstale => ?_, fun hall t' hstale ht' => ?_⟩
  · exact (unchanged_iff_harmless h hstep hstale).mp (hall t hstale hstep)
  · exact (unchanged_iff_harmless h ht' hstale).mpr (hall hstale)

/-- In a run from the start, a late callback leaves its slot alone every time exactly when it finds
nothing to change there every time. -/
theorem run_isolated {es : List HttpEvent} (h : s.Initialized)
    (hrun : httpMachine.run s es = some t) :
    httpMachine.Meets HttpServer.Isolated s es ↔ httpMachine.Meets HttpServer.Harmless s es :=
  Machine.meets_congr_of (fun _ _ _ _ _ ht hs => reads_step hs ht)
    (fun _ _ _ _ ht hs => isolated_iff hs ht) hrun
    (Machine.meets_of_forall (C := fun _ _ => True) fun _ _ _ => trivial) h.reads

/-- The first connection is ended by its client and by the user, and its slot goes to a second
one. -/
def reused : List HttpEvent :=
  [.accept 1, .fin 1, .tmr, .go 0 true, .go 0 true, .go 0 true, .go 0 true, .go 0 true, .free 0,
    .accept 2]

/-- An octet of the client of the first connection. -/
def late : HttpEvent := .recv 1 ['G'.toUInt8] true

/-- The slot is used again without harm, until that octet comes. -/
theorem run_isolated_reused :
    httpMachine.Meets HttpServer.Isolated httpStart reused ∧
      ¬ httpMachine.Meets HttpServer.Isolated httpStart (reused ++ [late]) := by
  have hruns : (httpMachine.run httpStart reused).isSome := by decide +kernel
  have hruns' : (httpMachine.run httpStart (reused ++ [late])).isSome := by decide +kernel
  obtain ⟨t, ht⟩ := Option.isSome_iff_exists.mp hruns
  obtain ⟨t', ht'⟩ := Option.isSome_iff_exists.mp hruns'
  exact ⟨(run_isolated initialized_httpStart ht).mpr (by decide +kernel),
    (run_isolated initialized_httpStart ht').not.mpr (by decide +kernel)⟩

/-- The octet is appended to the request of the second connection. -/
theorem not_isolated_reused :
    httpStart.Initialized ∧ (httpMachine.run httpStart (reused ++ [late])).isSome ∧
      ¬ httpMachine.Meets HttpServer.Isolated httpStart (reused ++ [late]) := by
  have hlate : ((httpMachine.run httpStart reused).bind fun s => (s.step late).map fun t =>
      decide (s.staleSlot late = some firstSlot ∧
        (t.cons firstSlot).reqb.size ≠ (s.cons firstSlot).reqb.size)) = some true := by
    decide +kernel
  obtain ⟨s, hs, hmap⟩ := Option.bind_eq_some_iff.mp hlate
  obtain ⟨t, ht, hsize⟩ := Option.map_eq_some_iff.mp hmap
  obtain ⟨hstale, hne⟩ := of_decide_eq_true hsize
  refine ⟨initialized_httpStart, by decide +kernel, Machine.not_meets hs fun hisolated => hne ?_⟩
  rw [hisolated firstSlot t hstale ht]

end Isolation

end Adhoc
