import Adhoc.Http.Isolation

/-!
# What a step makes of a slot

A step of the server leaves the slots alone or changes one of them, and what it makes of
that one is one of twelve operations (`SlotOp`).  `Change` says what becomes of the request
and of the response of a slot.  Here it is said which event does what, and how the calls of
`htserv_io` go on where a slot is left to one.
-/

namespace Adhoc

open ByteMem EventMachine

/-- What a step makes of the slot `j`. -/
inductive SlotOp (s t : HttpServer) (e : HttpEvent) (j : ConSlot) : Con → Prop where
  | accept (newpcb : Pcb) : e = .accept newpcb → s.findFreeCon = some j →
      SlotOp s t e j ((s.cons j).accept newpcb)
  /-- Octets of a request, which waits for more or for a hook. -/
  | push (buff : Mem) (reqb : HttpReqb) (resp : HttpResp) : s.Idle →
      (s.cons j).state = .rdReq →
        SlotOp s t e j { s.cons j with buff := buff, reqb := reqb, resp := resp }
  /-- The last octets of a request that is not answered. -/
  | refuse (buff : Mem) (reqb : HttpReqb) : s.Idle → (s.cons j).state = .rdReq →
      t.calls = .io 0 :: s.calls →
        SlotOp s t e j { s.cons j with buff := buff, reqb := reqb, state := .closing }
  | closing : SlotOp s t e j (s.cons j).closing
  /-- The program does not answer, or the answer has no room. -/
  | decline (resp : HttpResp) : s.pending = some j → t.calls = .io 0 :: s.calls →
      SlotOp s t e j { s.cons j with resp := resp, state := .closing }
  | printResp (resp : HttpResp) : s.pending = some j → SlotOp s t e j ((s.cons j).printResp resp)
  | startResp (resp : HttpResp) : s.pending = some j → e = .answer resp true →
      ¬ ((s.cons j).printResp resp).RespNomem →
        SlotOp s t e j ((s.cons j).printResp resp).startResp
  | sent (pcb : Pcb) (len : UInt16) : e = .sent pcb len →
      SlotOp s t e j { s.cons j with wacksize := (s.cons j).wacksize + len.toNat }
  | io (sndbuf : UInt16) (ok : Bool) (rest : List Call) : s.calls = .io j :: rest →
      ¬ ((s.cons j).state = .none ∨ (s.cons j).state = .closed) →
        (t.calls = .shut j :: rest ∨ t.calls = .hook :: .shut j :: rest) →
          SlotOp s t e j ((s.cons j).send sndbuf ok).ack
  | shut (rest : List Call) : s.calls = .shut j :: rest → t.calls = .io (j + 1) :: rest →
      SlotOp s t e j (s.cons j).shut
  | write (index : Int) (data : List UInt8) : e = .write index data → s.htcon index = some j →
      (s.cons j).state = .active → SlotOp s t e j ((s.cons j).write data)
  | free (index : Int) : e = .free index → s.htcon index = some j →
      SlotOp s t e j { s.cons j with state := .none }

/-- A step leaves the slots alone, or does an operation on one. -/
inductive Operates (s t : HttpServer) (e : HttpEvent) : Prop where
  | none : t.cons = s.cons → Operates s t e
  | on (j : ConSlot) (con : Con) : t.cons = Function.update s.cons j con → SlotOp s t e j con →
      Operates s t e

section Operates

variable {s t : HttpServer} {e : HttpEvent} {i j : ConSlot}

/-- What becomes of one slot. -/
theorem Operates.slot (h : Operates s t e) (i : ConSlot) :
    t.cons i = s.cons i ∨ SlotOp s t e i (t.cons i) := by
  cases h with
  | none hcons => exact .inl (congrFun hcons i)
  | on j con hcons hop =>
      by_cases hi : i = j
      · subst hi
        rw [hcons, Function.update_self]
        exact .inr hop
      · rw [hcons, Function.update_of_ne hi]
        exact .inl rfl

theorem operates_htservAccept (newpcb : Pcb) :
    Operates s (s.htservAccept newpcb) (.accept newpcb) := by
  unfold HttpServer.htservAccept
  split
  next => exact .none rfl
  next j hfree => exact .on j _ rfl (.accept newpcb rfl hfree)

theorem operates_htconReceived {data : List UInt8} {onReq : Bool} (hidle : s.Idle)
    (h : s.htconReceived j data onReq = some t) : Operates s t e := by
  cases receipt_of h with
  | ignored => exact .none rfl
  | unfinished buff reqb hrd _ _ => exact .on j _ rfl (.push buff reqb _ hidle hrd)
  | refused buff reqb hrd _ => exact .on j _ rfl (.refuse buff reqb hidle hrd rfl)
  | asked buff reqb hrd _ => exact .on j _ rfl (.push buff reqb _ hidle hrd)
  | bad buff reqb hrd _ => exact .on j _ rfl (.push buff reqb _ hidle hrd)

theorem operates_answered (hpending : s.pending = some j) (resp : HttpResp) (agrees : Bool) :
    Operates s (s.answered j resp agrees) (.answer resp agrees) := by
  unfold HttpServer.answered
  split
  next hagrees =>
    subst hagrees
    dsimp only
    split
    next => exact .on j _ rfl (.printResp resp hpending)
    next hfits => exact .on j _ rfl (.startResp resp hpending rfl hfits)
  next => exact .on j _ rfl (.decline resp hpending rfl)

theorem operates_leave {entry : Entry} (hentry : s.entry = some entry)
    (h : s.leave entry = some t) : Operates s t e := by
  cases entry with
  | onReq j => cases h
  | respNomem j =>
      have hpending : s.pending = some j := by rw [HttpServer.pending, hentry]
      cases h
      exact .on j _ rfl (.decline (s.cons j).resp hpending rfl)
  | badReq j =>
      cases h
      exact .on j _ rfl .closing
  | err j stale =>
      cases h
      exact .on j _ rfl .closing

theorem operates_resume {sndbuf : UInt16} {ok : Bool} (h : s.resume sndbuf ok = some t) :
    Operates s t e := by
  cases resumed_of h with
  | skips => exact .none rfl
  | io j rest calls hcalls hlive hnext =>
      exact .on j _ rfl (.io sndbuf ok rest hcalls hlive hnext)
  | ends => exact .none rfl
  | shut j rest hcalls => exact .on j _ rfl (.shut rest hcalls rfl)
  | leaves entry _ _ hentry hleave => exact operates_leave hentry hleave

theorem operates_htconWrite (index : Int) (data : List UInt8) :
    Operates s (s.htconWrite index data) (.write index data) := by
  rcases s.htconWrite_cases index data with heq | ⟨j, hcon, hactive, heq⟩
  · rw [heq]
    exact .none rfl
  · rw [heq]
    exact .on j _ rfl (.write index data rfl hcon hactive)

theorem operates_htconClose (index : Int) : Operates s (s.htconClose index) e := by
  rcases s.htconClose_cases index with heq | ⟨j, -, heq⟩
  · rw [heq]
    exact .none rfl
  · rw [heq]
    exact .on j _ rfl .closing

theorem operates_htconFree (index : Int) : Operates s (s.htconFree index) (.free index) := by
  rcases s.htconFree_cases index with heq | ⟨j, hcon, heq⟩
  · rw [heq]
    exact .none rfl
  · rw [heq]
    exact .on j _ rfl (.free index rfl hcon)

theorem operates_htconFin : Operates s (s.htconFin j) e := by
  rcases s.htconFin_cases j with ⟨-, heq⟩ | ⟨-, heq⟩
  · rw [heq]
    exact .none rfl
  · rw [heq]
    exact .on j _ rfl .closing

theorem operates_of_step (h : s.step e = some t) : Operates s t e := by
  cases e with
  | accept newpcb =>
      obtain ⟨-, ⟨⟩⟩ := Option.ite_none_right_eq_some.mp h
      exact operates_htservAccept newpcb
  | recv pcb data onReq =>
      obtain ⟨⟨hidle, -⟩, hbind⟩ := Option.ite_none_right_eq_some.mp h
      obtain ⟨j, -, ht⟩ := Option.bind_eq_some_iff.mp hbind
      exact operates_htconReceived hidle ht
  | fin pcb =>
      obtain ⟨-, hmap⟩ := Option.ite_none_right_eq_some.mp h
      obtain ⟨j, -, rfl⟩ := Option.map_eq_some_iff.mp hmap
      exact operates_htconFin
  | sent pcb len =>
      obtain ⟨-, hmap⟩ := Option.ite_none_right_eq_some.mp h
      obtain ⟨j, -, rfl⟩ := Option.map_eq_some_iff.mp hmap
      exact .on j _ rfl (.sent pcb len rfl)
  | err pcb =>
      obtain ⟨-, hmap⟩ := Option.ite_none_right_eq_some.mp h
      obtain ⟨j, -, rfl⟩ := Option.map_eq_some_iff.mp hmap
      exact .none rfl
  | freed pcb =>
      obtain ⟨-, ⟨⟩⟩ := Option.ite_none_right_eq_some.mp h
      exact .none rfl
  | tmr =>
      obtain ⟨-, ⟨⟩⟩ := Option.ite_none_right_eq_some.mp h
      exact .none rfl
  | write index data =>
      obtain ⟨-, ⟨⟩⟩ := Option.ite_none_right_eq_some.mp h
      exact operates_htconWrite index data
  | close index =>
      obtain ⟨-, ⟨⟩⟩ := Option.ite_none_right_eq_some.mp h
      exact operates_htconClose index
  | free index =>
      obtain ⟨-, ⟨⟩⟩ := Option.ite_none_right_eq_some.mp h
      exact operates_htconFree index
  | answer resp agrees =>
      simp only [HttpServer.step] at h
      split at h
      next j _ hentry =>
        cases h
        exact operates_answered (HttpServer.pending_onReq hentry) resp agrees
      next => cases h
  | ret =>
      simp only [HttpServer.step] at h
      split at h
      next =>
        cases h
        exact .none rfl
      next => cases h
  | go sndbuf ok => exact operates_resume h

end Operates

end Adhoc
