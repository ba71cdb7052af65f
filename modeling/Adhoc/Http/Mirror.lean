import Adhoc.Http.Writing

/-!
# The state the user sees

A slot has two states: `htcon.state`, which the user reads through `htcon`, and the private one
behind it.  Most of `htserv.c` sets them together, but `htcon_req_finished` sets only the private
one to `CSP_CLOSING` and calls `htserv_io`.  The hooks of `htserv_io` let the user in before it
gets to the slot.

So the two may differ only in a closing slot that a call of `htserv_io` under way has still
ahead of it (`Ahead`).  A call that passes the slot closes it, and one that begins has every slot
ahead.  `Follows` is that invariant of a slot, `Follows.step` keeps it, and in the main loop there
is no call under way and the two states agree (`mirrors_and_frees`).
-/

namespace Adhoc

open ByteMem EventMachine

/-! ## The two states of a slot -/

/-- The public state for a private one that has one. -/
def ConStatePriv.shown : ConStatePriv → Option ConState
  | .active => some .active
  | .closing => some .closing
  | .closed => some .closed
  | .rdReq | .wrResp | .none => Option.none

/-- The public state is the private one's, and a closed connection has no pcb. -/
structure Con.Mirrors (con : Con) : Prop where
  conState_eq : ∀ state, con.state.shown = some state → con.conState = state
  pcb_eq : con.state = .closed → con.pcb = none

section Slot

variable {con con' : Con}

theorem Con.Mirrors.congr (h : con.Mirrors) (hstate : con'.state = con.state)
    (hconState : con'.conState = con.conState) (hpcb : con'.pcb = con.pcb) : con'.Mirrors where
  conState_eq state hshown := by
    rw [hconState]
    exact h.conState_eq state (hstate ▸ hshown)
  pcb_eq hclosed := by
    rw [hpcb]
    exact h.pcb_eq (hstate ▸ hclosed)

/-- A state that is not shown has nothing to mirror. -/
theorem Con.Mirrors.of_hidden (h : con.state.shown = none) : con.Mirrors where
  conState_eq state hshown := by
    rw [h] at hshown
    cases hshown
  pcb_eq hclosed := by
    rw [hclosed] at h
    cases h

/-- Both states are set, and not to closed. -/
theorem Con.Mirrors.of_shown (h : con.state.shown = some con.conState)
    (hopen : con.state ≠ .closed) : con.Mirrors where
  conState_eq _ hshown := Option.some.inj (h.symm.trans hshown)
  pcb_eq hclosed := absurd hclosed hopen

theorem Con.mirrors_shut (hclosing : con.state = .closing) : con.shut.Mirrors := by
  rw [Con.shut, if_pos hclosing]
  exact ⟨fun _ hshown => Option.some.inj hshown, fun _ => rfl⟩

theorem Con.Mirrors.shut (h : con.Mirrors) : con.shut.Mirrors := by
  by_cases hclosing : con.state = .closing
  · exact Con.mirrors_shut hclosing
  · rw [Con.shut, if_neg hclosing]
    exact h

theorem Con.Mirrors.send (h : con.Mirrors) (sndbuf : UInt16) (ok : Bool) :
    (con.send sndbuf ok).Mirrors := by
  cases con.send_spec sndbuf ok with
  | passes _ _ hcon _ =>
      rw [hcon]
      exact h.congr rfl rfl rfl
  | nothing _ hcon _ =>
      rw [hcon]
      exact h

/-- What is acknowledged sets both states or none. -/
theorem Con.Mirrors.ack (h : con.Mirrors) : con.ack.Mirrors := by
  cases con.ack_spec with
  | waits _ hcon =>
      rw [hcon]
      exact h
  | head _ _ hcon =>
      rw [hcon]
      exact .of_shown rfl ConStatePriv.noConfusion
  | complete _ _ hcon =>
      rw [hcon]
      exact .of_shown rfl ConStatePriv.noConfusion
  | more _ _ hcon =>
      rw [hcon]
      exact h.congr rfl rfl rfl

/-- The state machine does not give a slot up. -/
theorem Con.io_none {sndbuf : UInt16} {ok : Bool} (h : (con.send sndbuf ok).ack.state = .none) :
    con.state = .none := by
  rw [← con.send_state sndbuf ok]
  cases (con.send sndbuf ok).ack_spec with
  | waits _ hcon => exact hcon ▸ h
  | head _ _ hcon =>
      rw [hcon] at h
      cases h
  | complete _ _ hcon =>
      rw [hcon] at h
      cases h
  | more _ _ hcon =>
      rw [hcon] at h
      exact h

theorem Con.shut_none (h : con.shut.state = .none) : con.state = .none := by
  unfold Con.shut at h
  split at h
  next => cases h
  next => exact h

/-- A closing slot has nothing acknowledged. -/
theorem Con.ack_closing (hclosing : con.state = .closing) : con.ack = con :=
  if_neg fun hsended => hsended.1 hclosing

end Slot

/-! ## The calls under way -/

/-- A call of `htserv_io` has the slot still ahead. -/
def Call.Before (i : ConSlot) : Call → Prop
  | .io k => k ≤ i
  | .shut j => j ≤ i
  | .hook => False

/-- One of the calls has. -/
def Ahead (calls : List Call) (i : ConSlot) : Prop := ∃ call ∈ calls, call.Before i

/-- How a step moves the calls on.  Calls may begin in front of the others, or the innermost goes
on. -/
inductive Moves (s t : HttpServer) : Prop where
  | begins : s.calls ⊆ t.calls → Moves s t
  /-- The slot is not in use. -/
  | skips (j : ConSlot) (rest : List Call) : s.calls = .io j :: rest →
      ((s.cons j).state = .none ∨ (s.cons j).state = .closed) → t.calls = .io (j + 1) :: rest →
        Moves s t
  | io (j : ConSlot) (rest : List Call) : s.calls = .io j :: rest → .shut j :: rest ⊆ t.calls →
      Moves s t
  | shut (j : ConSlot) (rest : List Call) : s.calls = .shut j :: rest →
      t.calls = .io (j + 1) :: rest → t.cons j = (s.cons j).shut → Moves s t
  /-- No slot is left. -/
  | ends (k : Nat) (rest : List Call) : s.calls = .io k :: rest → httpServerMaxCon ≤ k →
      t.calls = rest → Moves s t
  | ret (rest : List Call) : s.calls = .hook :: rest → t.calls = rest → Moves s t

section Moves

variable {s t : HttpServer} {e : HttpEvent} {i j : ConSlot}

theorem HttpServer.Idle.calls (h : s.Idle) : s.calls = [] := List.isEmpty_iff.mp h.2

theorem moves_nil (h : s.calls = []) : Moves s t := by
  refine .begins ?_
  rw [h]
  exact List.nil_subset _

/-- A call that begins leaves the others. -/
theorem moves_callIo (h : t.calls = .io 0 :: s.calls) : Moves s t := by
  refine .begins ?_
  rw [h]
  exact List.subset_cons_self _ _

theorem moves_same (h : t.calls = s.calls) : Moves s t := by
  refine .begins ?_
  rw [h]
  exact List.Subset.refl _

theorem moves_resume {sndbuf : UInt16} {ok : Bool} (h : s.resume sndbuf ok = some t) :
    Moves s t := by
  cases resumed_of h with
  | skips j rest hcalls hunused => exact .skips j rest hcalls hunused rfl
  | io j rest calls hcalls _ hnext =>
      refine .io j rest hcalls ?_
      rcases hnext with rfl | rfl
      · exact List.Subset.refl _
      · exact List.subset_cons_self _ _
  | ends k rest hcalls hk => exact .ends k rest hcalls hk rfl
  | shut j rest hcalls => exact .shut j rest hcalls rfl (s.setCon_self _)
  | leaves _ _ hcalls _ _ => exact moves_nil hcalls

theorem moves_htconWrite (index : Int) (data : List UInt8) : Moves s (s.htconWrite index data) := by
  rcases s.htconWrite_cases index data with heq | ⟨j, -, -, heq⟩
  · exact moves_same (congrArg HttpServer.calls heq)
  · exact moves_callIo (congrArg HttpServer.calls heq)

theorem moves_htconClose (index : Int) : Moves s (s.htconClose index) := by
  rcases s.htconClose_cases index with heq | ⟨j, -, heq⟩
  · exact moves_same (congrArg HttpServer.calls heq)
  · exact moves_callIo (congrArg HttpServer.calls heq)

theorem moves_htconFree (index : Int) : Moves s (s.htconFree index) := by
  rcases s.htconFree_cases index with heq | ⟨j, -, heq⟩
  · exact moves_same (congrArg HttpServer.calls heq)
  · rw [heq]
    exact moves_same rfl

theorem moves_of_step (h : s.step e = some t) : Moves s t := by
  cases e with
  | accept _ | recv _ _ _ =>
      obtain ⟨⟨hidle, -⟩, -⟩ := Option.ite_none_right_eq_some.mp h
      exact moves_nil hidle.calls
  | fin _ | sent _ _ | err _ | freed _ | tmr =>
      obtain ⟨hidle, -⟩ := Option.ite_none_right_eq_some.mp h
      exact moves_nil hidle.calls
  | write index data =>
      obtain ⟨-, ⟨⟩⟩ := Option.ite_none_right_eq_some.mp h
      exact moves_htconWrite index data
  | close index =>
      obtain ⟨-, ⟨⟩⟩ := Option.ite_none_right_eq_some.mp h
      exact moves_htconClose index
  | free index =>
      obtain ⟨-, ⟨⟩⟩ := Option.ite_none_right_eq_some.mp h
      exact moves_htconFree index
  | answer resp agrees =>
      simp only [HttpServer.step] at h
      split at h
      next hcalls _ => exact moves_nil hcalls
      next => cases h
  | ret =>
      simp only [HttpServer.step] at h
      split at h
      next rest hcalls =>
        cases h
        exact .ret rest hcalls rfl
      next => cases h
  | go sndbuf ok => exact moves_resume h

/-- A slot that is closing stays ahead of a call, until a call closes it. -/
theorem Moves.ahead (h : Moves s t) (hahead : Ahead s.calls i)
    (hclosing : (s.cons i).state = .closing) :
    Ahead t.calls i ∨ t.cons i = (s.cons i).shut := by
  obtain ⟨call, hmem, hbefore⟩ := hahead
  cases h with
  | begins hsub => exact .inl ⟨call, hsub hmem, hbefore⟩
  | skips j rest hs hunused ht =>
      rw [hs] at hmem
      rw [ht]
      rcases List.mem_cons.mp hmem with rfl | hrest
      · -- the slot skipped is another one
        have hne : j ≠ i := by
          rintro rfl
          rcases hunused with hnone | hclosed
          · cases hclosing.symm.trans hnone
          · cases hclosing.symm.trans hclosed
        have hlt : (j : Nat) < i := Nat.lt_of_le_of_ne hbefore fun heq => hne (Fin.ext heq)
        exact .inl ⟨_, .head _, hlt⟩
      · exact .inl ⟨call, .tail _ hrest, hbefore⟩
  | io j rest hs hsub =>
      rw [hs] at hmem
      rcases List.mem_cons.mp hmem with rfl | hrest
      · exact .inl ⟨.shut j, hsub (.head _), hbefore⟩
      · exact .inl ⟨call, hsub (.tail _ hrest), hbefore⟩
  | shut j rest hs ht hcons =>
      rw [hs] at hmem
      rw [ht]
      rcases List.mem_cons.mp hmem with rfl | hrest
      · by_cases hj : j = i
        · exact .inr (hj ▸ hcons)
        · have hle : j ≤ i := hbefore
          exact .inl ⟨_, .head _, Nat.lt_of_le_of_ne hle fun heq => hj (Fin.ext heq)⟩
      · exact .inl ⟨call, .tail _ hrest, hbefore⟩
  | ends k rest hs hk ht =>
      rw [hs] at hmem
      rw [ht]
      rcases List.mem_cons.mp hmem with rfl | hrest
      · exact absurd (Nat.lt_of_le_of_lt hbefore i.isLt) (Nat.not_lt.mpr hk)
      · exact .inl ⟨call, hrest, hbefore⟩
  | ret rest hs ht =>
      rw [hs] at hmem
      rw [ht]
      rcases List.mem_cons.mp hmem with rfl | hrest
      · exact hbefore.elim
      · exact .inl ⟨call, hrest, hbefore⟩

end Moves

/-! ## What a step keeps -/

/-- The two states of a slot agree, or the slot is closing and a call of `htserv_io` is to
close it. -/
inductive Follows (s : HttpServer) (i : ConSlot) : Prop where
  | mirrors : (s.cons i).Mirrors → Follows s i
  | due : (s.cons i).state = .closing → Ahead s.calls i → Follows s i

section Follows

variable {s t : HttpServer} {e : HttpEvent} {i : ConSlot} {con : Con}

/-- A call that begins has every slot ahead. -/
theorem ahead_io (rest : List Call) (i : ConSlot) : Ahead (.io 0 :: rest) i :=
  ⟨.io 0, .head _, Nat.zero_le _⟩

/-- What an operation makes of a slot whose states agree. -/
theorem SlotOp.mirrors (h : SlotOp s t e i con) (hmirrors : (s.cons i).Mirrors) :
    con.Mirrors ∨ con.state = .closing ∧ Ahead t.calls i := by
  cases h with
  | accept newpcb _ _ => exact .inl (.of_hidden rfl)
  | push buff reqb resp _ _ => exact .inl (hmirrors.congr rfl rfl rfl)
  | refuse buff reqb _ _ hcalls =>
      rw [hcalls]
      exact .inr ⟨rfl, ahead_io _ _⟩
  | closing => exact .inl (.of_shown rfl ConStatePriv.noConfusion)
  | decline resp _ hcalls =>
      rw [hcalls]
      exact .inr ⟨rfl, ahead_io _ _⟩
  | printResp resp _ => exact .inl (hmirrors.congr rfl rfl rfl)
  | startResp resp _ _ _ => exact .inl (.of_hidden rfl)
  | sent pcb len _ => exact .inl (hmirrors.congr rfl rfl rfl)
  | io sndbuf ok _ _ _ _ => exact .inl (hmirrors.send sndbuf ok).ack
  | shut _ _ _ => exact .inl hmirrors.shut
  | write _ data _ _ _ => exact .inl (hmirrors.congr rfl rfl rfl)
  | free _ _ _ => exact .inl (.of_hidden rfl)

/-- What it makes of a slot that is closing. -/
theorem SlotOp.of_closing (h : SlotOp s t e i con) (hclosing : (s.cons i).state = .closing) :
    con.Mirrors ∨ con.state = .closing := by
  cases h with
  | accept newpcb _ _ => exact .inl (.of_hidden rfl)
  | push buff reqb resp _ hrd => cases hclosing.symm.trans hrd
  | refuse buff reqb _ _ _ => exact .inr rfl
  | closing => exact .inr rfl
  | decline resp _ _ => exact .inr rfl
  | printResp resp _ => exact .inr hclosing
  | startResp resp _ _ _ => exact .inl (.of_hidden rfl)
  | sent pcb len _ => exact .inr hclosing
  | io sndbuf ok _ _ _ _ =>
      have hsend : ((s.cons i).send sndbuf ok).state = .closing :=
        ((s.cons i).send_state sndbuf ok).trans hclosing
      rw [Con.ack_closing hsend]
      exact .inr hsend
  | shut _ _ _ => exact .inl (Con.mirrors_shut hclosing)
  | write _ data _ _ _ => exact .inr hclosing
  | free _ _ _ => exact .inl (.of_hidden rfl)

theorem Follows.step (h : Follows s i) (hstep : s.step e = some t) : Follows t i := by
  have hslot := (operates_of_step hstep).slot i
  cases h with
  | mirrors hmirrors =>
      rcases hslot with hsame | hop
      · exact .mirrors (hsame ▸ hmirrors)
      · rcases hop.mirrors hmirrors with hnow | ⟨hclosing, hahead⟩
        · exact .mirrors hnow
        · exact .due hclosing hahead
  | due hclosing hahead =>
      rcases (moves_of_step hstep).ahead hahead hclosing with hstill | hshut
      · rcases hslot with hsame | hop
        · exact .due (hsame ▸ hclosing) hstill
        · rcases hop.of_closing hclosing with hnow | hclosing'
          · exact .mirrors hnow
          · exact .due hclosing' hstill
      · exact .mirrors (hshut ▸ Con.mirrors_shut hclosing)

/-- In the main loop no call is under way. -/
theorem Follows.idle (h : Follows s i) (hidle : s.Idle) : (s.cons i).Mirrors := by
  cases h with
  | mirrors hmirrors => exact hmirrors
  | due _ hahead =>
      obtain ⟨call, hmem, -⟩ := hahead
      rw [hidle.calls] at hmem
      cases hmem

/-- Only `htcon_free` gives a slot up. -/
theorem free_of_step (hstep : s.step e = some t) (hused : (s.cons i).state ≠ .none)
    (hnone : (t.cons i).state = .none) : ∃ index, e = .free index ∧ s.htcon index = some i := by
  rcases (operates_of_step hstep).slot i with hsame | hop
  · exact absurd (hsame ▸ hnone) hused
  generalize t.cons i = con at hop hnone
  cases hop with
  | accept newpcb _ _ => cases hnone
  | push buff reqb resp _ _ => exact absurd hnone hused
  | refuse buff reqb _ _ _ => cases hnone
  | closing => cases hnone
  | decline resp _ _ => cases hnone
  | printResp resp _ => exact absurd hnone hused
  | startResp resp _ _ _ => cases hnone
  | sent pcb len _ => exact absurd hnone hused
  | io sndbuf ok _ _ _ _ => exact absurd (Con.io_none hnone) hused
  | shut _ _ _ => exact absurd (Con.shut_none hnone) hused
  | write _ data _ _ _ => exact absurd hnone hused
  | free index he hcon => exact ⟨index, he, hcon⟩

theorem HttpServer.Initialized.follows (h : s.Initialized) (i : ConSlot) : Follows s i := by
  refine .mirrors (.of_hidden ?_)
  rw [(h.2 i).1]
  rfl

end Follows

/-! ## A whole run -/

/-- What the user sees of the slots. -/
structure HttpServer.Mirrored (s : HttpServer) : Prop where
  cons : ∀ i, (s.cons i).Mirrors
  /-- `htcon` gives the slots whose state is shown. -/
  htcon_iff : ∀ index, s.htcon index ≠ none ↔
    ∃ i : ConSlot, index = i ∧ (s.cons i).state.shown ≠ none

/-- An event of the server, with a call of `htcon_write` as the octets it has. -/
def CallEvent.event : CallEvent → HttpEvent
  | .write index mem data size => .write index (mem.read data size.toNat)
  | .other e => e

section Runs

variable {s t : HttpServer} {i : ConSlot}

theorem callStep_step {ce : CallEvent} (h : s.callStep ce = some t) :
    s.step ce.event = some t := by
  cases ce with
  | write index mem data size =>
      obtain ⟨huser, ht⟩ := Option.ite_none_right_eq_some.mp h
      rw [s.htconWriteCall_eq] at ht
      exact (if_pos huser).trans ht
  | other e => exact (Option.ite_none_left_eq_some.mp h).2

theorem HttpServer.htcon_ne_none (index : Int) :
    s.htcon index ≠ none ↔ ∃ i : ConSlot, index = i ∧ (s.cons i).state.shown ≠ none := by
  have hshown (i : ConSlot) : (s.cons i).state.shown ≠ none ↔ (s.cons i).state = .active ∨
      (s.cons i).state = .closing ∨ (s.cons i).state = .closed := by
    cases (s.cons i).state <;> simp [ConStatePriv.shown]
  rw [Option.ne_none_iff_exists']
  refine exists_congr fun i => ?_
  rw [HttpServer.htcon_eq_some, hshown]

/-- In a run from the start, the user sees the states of the slots whenever the main loop runs, and
a slot is given up by `htcon_free` only. -/
theorem mirrors_and_frees {es : List CallEvent} (h : s.Initialized)
    (hrun : callMachine.run s es = some t) :
    (t.Idle → t.Mirrored) ∧ ∀ e u i, t.callStep e = some u → (t.cons i).state ≠ .none →
      (u.cons i).state = .none → ∃ index, e = .other (.free index) ∧ t.htcon index = some i := by
  have hreach : callMachine.Reaches s t := ⟨es, hrun⟩
  have hfollows : ∀ i, Follows t i :=
    hreach.invariant (I := fun u => ∀ i, Follows u i)
      (fun _ _ _ hstep hu i => (hu i).step (callStep_step hstep)) h.follows
  refine ⟨fun hidle => ⟨fun i => (hfollows i).idle hidle, HttpServer.htcon_ne_none⟩, ?_⟩
  intro e u i hstep hused hnone
  obtain ⟨index, he, hcon⟩ := free_of_step (callStep_step hstep) hused hnone
  cases e with
  | write _ _ _ _ => cases he
  | other e => exact ⟨index, congrArg _ he, hcon⟩

/-- The head of the response goes out, and `htserv_on_con` closes the connection. -/
def closedByHook : List CallEvent :=
  (asked fiveOctets).map .other ++ List.replicate 5 (.other (.go 2000 true)) ++
    [.other (.sent 1 ((httpRespStr fiveOctets).length.toUInt16)), .other .tmr,
      .other (.go 2000 true), .other (.close 0)] ++
        List.replicate 5 (.other (.go 2000 true)) ++ [.other .ret] ++
          List.replicate 4 (.other (.go 2000 true))

theorem mirrors_and_frees_closedByHook : ∃ t, callMachine.run httpStart closedByHook = some t ∧
    t.Idle ∧ (t.cons firstSlot).state = .closed ∧ t.Mirrored := by
  have hruns : ((callMachine.run httpStart closedByHook).map fun t =>
      decide (t.Idle ∧ (t.cons firstSlot).state = .closed)) = some true := by decide +kernel
  obtain ⟨t, ht, hfacts⟩ := Option.map_eq_some_iff.mp hruns
  obtain ⟨hidle, hclosed⟩ := of_decide_eq_true hfacts
  exact ⟨t, ht, hidle, hclosed, (mirrors_and_frees initialized_httpStart ht).1 hidle⟩

end Runs

end Adhoc
