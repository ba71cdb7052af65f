import Adhoc.Http.Stores

/-!
# The loop of a push ends

Most of what can go wrong in the `switch` of `http_reqb_push` is a `break`, which leaves the
`switch` and not the loop.  A round that breaks off has come to the end of the octets or has
set an error state, and every other round returns or moves `parsing.pos` on (`Progress`).  So
the rounds that are left can be counted (`roundsLeft`), and the loop has no more of them than
the buffer has octets, and one.

No round depends on what the buffer holds for that, but only on where the parser stands
(`Parser.Within`).
-/

namespace Adhoc

open ByteMem Scanner EventMachine

/-! ## Where the parser stands -/

/-- The parser stands among the first `size` octets of the buffer, or behind them. -/
structure Parser.Within (size : Nat) (p : Parser Unit) : Prop where
  buff : p.buff = none
  stop : p.stop = size
  curr : p.curr = p.total
  le : p.total ≤ size

/-- The parser has moved from one place to another, not back. -/
structure Parser.Moves (size : Nat) (p p' : Parser Unit) : Prop where
  within : p'.Within size
  le : p.total ≤ p'.total

section Moves

variable {mem : Mem} {size fuel n : Nat} {p p' : Parser Unit} {l : List UInt8} {c : UInt8}

theorem Window.within (h : Window mem size p l) : p.Within size where
  buff := h.buff
  stop := h.stop
  curr := h.curr
  le := by
    rw [← h.total]
    exact Nat.le_add_right ..

/-- A parser has the octets to come that the buffer holds. -/
theorem Parser.Within.window (h : p.Within size) :
    Window p.mem size p (p.mem.read p.total (size - p.total)) where
  buff := h.buff
  mem_eq := rfl
  stop := h.stop
  curr := h.curr
  total := by
    rw [Mem.length_read]
    exact Nat.add_sub_of_le h.le
  octets := by rw [Mem.length_read]

/-- What leaves fewer octets to come has moved the parser. -/
theorem Window.moves {mem' : Mem} {l' : List UInt8} (h : Window mem size p l)
    (h' : Window mem' size p' l') (hle : l'.length ≤ l.length) : p.Moves size p' := by
  have htotal := h.total
  have htotal' := h'.total
  exact ⟨h'.within, by omega⟩

theorem Window.moves_dropWhile {q : UInt8 → Bool} (h : Window mem size p l)
    (h' : Window mem size p' (l.dropWhile q)) : p.Moves size p' :=
  h.moves h' (List.dropWhile_suffix q).length_le

theorem Parser.Within.store (h : p.Within size) (i : Nat) : (p.store i).Within size :=
  ⟨h.buff, h.stop, h.curr, h.le⟩

theorem Parser.Within.eof (h : p.Within size) :
    parserEof reqSource p = (p, decide (p.total = size)) := by
  have hlen : (p.mem.read p.total (size - p.total)).isEmpty = decide (p.total = size) := by
    have hle := h.le
    rw [Bool.eq_iff_iff, List.isEmpty_iff, decide_eq_true_iff, ← List.length_eq_zero_iff,
      Mem.length_read]
    omega
  rw [h.window.eof, hlen]

theorem Parser.Within.curr_eq (h : p.Within size) : (parserCurr reqSource p).1 = p :=
  congrArg Prod.fst h.window.curr_eq

/-- Skipping a number of octets that are there. -/
theorem Parser.Within.skipN (h : p.Within size) (hn : p.total + n ≤ size) :
    ((parserSkipN reqSource n p).1).Within size ∧
      (parserSkipN reqSource n p).1.total = p.total + n := by
  have hwindow := h.window
  have hsplit : size - p.total = n + (size - p.total - n) := by omega
  rw [hsplit, Mem.read_add] at hwindow
  have hskip := hwindow.skipN
  rw [Mem.length_read] at hskip
  refine ⟨hskip.within, hwindow.total_eq hskip ?_⟩
  rw [List.length_append, Mem.length_read]

theorem Parser.Within.skipOne (h : p.Within size) (hlt : p.total < size) :
    ((parserSkipN reqSource 1 p).1).Within size ∧
      (parserSkipN reqSource 1 p).1.total = p.total + 1 := h.skipN hlt

theorem Parser.Within.skipChar (h : p.Within size) (c : UInt8) :
    ∃ p' b, parserSkipChar reqSource c p = (p', b) ∧ p.Moves size p' := by
  obtain ⟨-, hview⟩ := parserSkipChar_view views_window h.window c
  refine ⟨_, _, rfl, h.window.moves hview ?_⟩
  generalize p.mem.read p.total (size - p.total) = l
  cases l with
  | nil =>
      rw [parserSkipChar_nil]
  | cons a l =>
      rw [parserSkipChar_cons]
      split
      · exact Nat.le_succ _
      · exact Nat.le_refl _

theorem length_toCome_lt (hfuel : size < fuel) :
    (p.mem.read p.total (size - p.total)).length < fuel := by
  rw [Mem.length_read]
  omega

variable (h : p.Within size) (hfuel : size < fuel)
include h hfuel

theorem Parser.Within.skip (chatset : UInt8 → Bool) :
    ∃ p' n, parserSkip reqSource fuel chatset p = some (p', n) ∧ p.Moves size p' := by
  obtain ⟨p', n, hp, hw⟩ := h.window.skip (length_toCome_lt hfuel) chatset
  exact ⟨p', n, hp, h.window.moves_dropWhile hw⟩

theorem Parser.Within.skipWs :
    ∃ p' b, parserSkipWs reqSource fuel p = some (p', b) ∧ p.Moves size p' := by
  obtain ⟨p', b, hp, hw⟩ := h.window.skipWs (length_toCome_lt hfuel)
  exact ⟨p', b, hp, h.window.moves_dropWhile hw⟩

theorem Parser.Within.skipWsInLine :
    ∃ p' b, parserSkipWsInLine reqSource fuel p = some (p', b) ∧ p.Moves size p' := by
  obtain ⟨p', b, hp, hw⟩ := h.window.skipWsInLine (length_toCome_lt hfuel)
  exact ⟨p', b, hp, h.window.moves_dropWhile hw⟩

theorem Parser.Within.skipBefore (c : UInt8) :
    ∃ p' b, parserSkipBefore reqSource fuel c p = some (p', b) ∧ p.Moves size p' := by
  obtain ⟨p', b, hp, hw⟩ := h.window.skipBefore (length_toCome_lt hfuel) c
  exact ⟨p', b, hp, h.window.moves_dropWhile hw⟩

/-- Skipping a line comes to the end of the octets or behind a line feed. -/
theorem Parser.Within.skipLine :
    ∃ p' line, parserSkipLine reqSource fuel p = some (p', line) ∧ p.Moves size p' ∧
      if line then p.total < p'.total else p'.total = size := by
  have hlen : (p.mem.read p.total (size - p.total)).length < fuel := length_toCome_lt hfuel
  cases hline : (p.mem.read p.total (size - p.total)).dropWhile (isNot '\n'.toUInt8) with
  | nil =>
      obtain ⟨p', hp, hw⟩ := h.window.skipLine_none hlen hline
      exact ⟨p', false, hp, h.window.moves hw (Nat.zero_le _), hw.total⟩
  | cons c rest =>
      obtain ⟨p', hp, hw⟩ := h.window.skipLine_some hlen hline
      have hsuffix : c :: rest <:+ p.mem.read p.total (size - p.total) :=
        hline ▸ List.dropWhile_suffix _
      have hlt := hsuffix.length_le
      rw [List.length_cons] at hlt
      have htotal := h.window.total
      have htotal' := hw.total
      refine ⟨p', true, hp, h.window.moves hw (by omega), ?_⟩
      rw [if_pos rfl]
      omega

end Moves

/-! ## Rounds -/

/-- What a round of the loop leaves. -/
inductive Progress (size : Nat) (rb : HttpReqb) : HttpReqb × Parser Unit → Prop where
  /-- The call returns. -/
  | returns {rb' p'} : rb'.state ≠ .unfinished → Progress size rb (rb', p')
  /-- The parser is at the end of the octets. -/
  | atEnd {p'} : p'.Within size → p'.total = size → Progress size rb (rb, p')
  /-- An error state, in which the next round returns. -/
  | fails {k p'} : rb.parsingState ≤ 5 → 10 ≤ k → p'.Within size →
      (∀ fuel p, pushRound fuel { rb with parsingState := k } p =
        some ({ rb with parsingState := k, state := .syntError }, p)) →
      Progress size rb ({ rb with parsingState := k }, p')
  /-- `parsing.pos` is where the parser stands, behind where it was. -/
  | advances {rb' p'} : rb'.state = rb.state → p'.Within size → rb'.pos = p'.total →
      rb.pos < rb'.pos → Progress size rb (rb', p')

/-- A round that comes to its end, with progress. -/
def Progresses (size : Nat) (rb : HttpReqb) (x : Option (HttpReqb × Parser Unit)) : Prop :=
  ∃ y, x = some y ∧ Progress size rb y

theorem ReqbState.finished_ne : ReqbState.finished ≠ .unfinished := by decide

theorem ReqbState.syntError_ne : ReqbState.syntError ≠ .unfinished := by decide

theorem pushRound_error {rb : HttpReqb} (h : 6 ≤ rb.parsingState) (fuel : Nat) (p : Parser Unit) :
    pushRound fuel rb p = some ({ rb with state := .syntError }, p) := by
  obtain ⟨k, hk⟩ := Nat.exists_eq_add_of_le' h
  rw [pushRound, hk]
  rfl

section Rounds

variable {size fuel : Nat} {rb : HttpReqb} {p p' : Parser Unit}

theorem progress_fails (h : rb.parsingState ≤ 5) {k : Nat} (hk : 10 ≤ k) (hp : p.Within size) :
    Progress size rb ({ rb with parsingState := k }, p) := by
  have herror : 6 ≤ ({ rb with parsingState := k } : HttpReqb).parsingState :=
    Nat.le_trans (by decide) hk
  exact .fails h hk hp (pushRound_error herror)

/-- Behind a token the parser is behind its delimiter. -/
theorem Parser.Within.endToken (h : p.Within size) (hlt : p.total < size) (hpos : rb.pos ≤ p.total)
    {rb' : HttpReqb} (hstate : rb'.state = rb.state) (k : Nat) :
    Progress size rb (Adhoc.endToken rb' p k) := by
  obtain ⟨hwithin, htotal⟩ := (h.store p.total).skipOne hlt
  refine .advances hstate hwithin rfl ?_
  show rb.pos < (parserSkipN reqSource 1 (p.store p.total)).1.total
  rw [htotal]
  exact Nat.lt_succ_of_le hpos

theorem Parser.Within.endIdent (h : p.Within size) (hpos : rb.pos ≤ p.total)
    (hstate : rb.parsingState ≤ 5) (stateOf : UInt8 → Nat) (req : HttpReq) :
    Progress size rb (Adhoc.endIdent stateOf req rb p) := by
  have hcurr := h.curr_eq
  simp only [Adhoc.endIdent, h.eof, decide_eq_true_eq, hcurr]
  split
  next hend => exact .atEnd h hend
  next hend =>
    split
    next herror => exact progress_fails hstate herror h
    next => exact h.endToken (Nat.lt_of_le_of_ne h.le hend) hpos (by rfl) _

variable (h : p.Within size) (hfuel : size < fuel) (hpos : rb.pos = p.total)
  (hstate : rb.parsingState ≤ 5)
include h hfuel hpos

theorem Parser.Within.pushMethod : Progresses size rb (Adhoc.pushMethod fuel rb p) := by
  obtain ⟨p₁, b₁, hp₁, hm₁⟩ := h.skipWs hfuel
  obtain ⟨p₂, b₂, hp₂, hm₂⟩ := hm₁.within.skipBefore hfuel ' '.toUInt8
  have hle : rb.pos ≤ p₂.total := hpos ▸ Nat.le_trans hm₁.le hm₂.le
  simp only [Adhoc.pushMethod, hp₁, hp₂, Option.bind_eq_bind, Option.bind_some, hm₂.within.eof,
    decide_eq_true_eq]
  split
  next hend => exact ⟨_, rfl, .atEnd hm₂.within hend⟩
  next hend =>
    exact ⟨_, rfl, hm₂.within.endToken (Nat.lt_of_le_of_ne hm₂.within.le hend) hle (by rfl) 1⟩

theorem Parser.Within.pushVersion : Progresses size rb (Adhoc.pushVersion fuel rb p) := by
  obtain ⟨p₁, b₁, hp₁, hm₁⟩ := h.skipWs hfuel
  obtain ⟨p₂, line, hp₂, hm₂, hline⟩ := hm₁.within.skipLine hfuel
  simp only [Adhoc.pushVersion, hp₁, hp₂, Option.bind_eq_bind, Option.bind_some]
  cases line with
  | false => exact ⟨_, rfl, .atEnd hm₂.within hline⟩
  | true =>
      have hlt : rb.pos < p₂.total := hpos ▸ Nat.lt_of_le_of_lt hm₁.le hline
      exact ⟨_, rfl, .advances rfl (hm₂.within.store _) rfl hlt⟩

include hstate

theorem Parser.Within.pushUri : Progresses size rb (Adhoc.pushUri fuel rb p) := by
  obtain ⟨p₁, b₁, hp₁, hm₁⟩ := h.skipWs hfuel
  obtain ⟨p₂, b₂, hp₂, hm₂⟩ := hm₁.within.skip hfuel reqIdent
  have hle : rb.pos ≤ p₂.total := hpos ▸ Nat.le_trans hm₁.le hm₂.le
  simp only [Adhoc.pushUri, hp₁, hp₂, Option.bind_eq_bind, Option.bind_some]
  exact ⟨_, rfl, hm₂.within.endIdent hle hstate ..⟩

theorem Parser.Within.pushParam : Progresses size rb (Adhoc.pushParam fuel rb p) := by
  obtain ⟨p₁, b₁, hp₁, hm₁⟩ := h.skip hfuel reqIdent
  simp only [Adhoc.pushParam, hp₁, Option.bind_eq_bind, Option.bind_some]
  exact ⟨_, rfl, hm₁.within.endIdent (hpos ▸ hm₁.le) hstate ..⟩

theorem Parser.Within.pushValue : Progresses size rb (Adhoc.pushValue fuel rb p) := by
  obtain ⟨p₁, b₁, hp₁, hm₁⟩ := h.skip hfuel reqIdent
  simp only [Adhoc.pushValue, hp₁, Option.bind_eq_bind, Option.bind_some]
  exact ⟨_, rfl, hm₁.within.endIdent (hpos ▸ hm₁.le) hstate ..⟩

/-- A header ends behind its line, or the request does. -/
theorem Parser.Within.pushHeader : Progresses size rb (Adhoc.pushHeader fuel rb p) := by
  obtain ⟨p₁, b₁, hp₁, hm₁⟩ := h.skipWsInLine hfuel
  obtain ⟨p₂, cr, hp₂, hm₂⟩ := hm₁.within.skipChar '\r'.toUInt8
  obtain ⟨p₃, lf, hp₃, hm₃⟩ := hm₂.within.skipChar '\n'.toUInt8
  obtain ⟨p₄, b₄, hp₄, hm₄⟩ := hm₃.within.skipWsInLine hfuel
  obtain ⟨p₅, b₅, hp₅, hm₅⟩ := hm₄.within.skip hfuel reqIdent
  have hcurr := hm₅.within.curr_eq
  have hpos₅ : rb.pos ≤ p₅.total :=
    calc rb.pos = p.total := hpos
      _ ≤ p₂.total := Nat.le_trans hm₁.le hm₂.le
      _ ≤ p₄.total := Nat.le_trans hm₃.le hm₄.le
      _ ≤ p₅.total := hm₅.le
  simp only [Adhoc.pushHeader, hp₁, hp₂, Option.bind_eq_bind, Option.bind_some]
  cases cr with
  | true => exact ⟨_, rfl, .returns ReqbState.finished_ne⟩
  | false =>
      simp only [hp₃, Bool.false_eq_true, if_false]
      cases lf with
      | true => exact ⟨_, rfl, .returns ReqbState.finished_ne⟩
      | false =>
          simp only [hp₄, hp₅, hm₅.within.eof, hcurr, Option.bind_some, decide_eq_true_eq,
            Bool.false_eq_true, if_false]
          split
          next hend => exact ⟨_, rfl, .atEnd hm₅.within hend⟩
          next hend =>
            split
            next => exact ⟨_, rfl, progress_fails hstate (by decide) hm₅.within⟩
            next =>
              obtain ⟨hw₆, htotal⟩ := hm₅.within.skipOne (Nat.lt_of_le_of_ne hm₅.within.le hend)
              obtain ⟨p₇, b₇, hp₇, hm₇⟩ := hw₆.skipWsInLine hfuel
              obtain ⟨p₈, line, hp₈, hm₈, hline⟩ := hm₇.within.skipLine hfuel
              simp only [hp₇, hp₈, Option.bind_some]
              cases line with
              | false => exact ⟨_, rfl, .atEnd hm₈.within hline⟩
              | true =>
                  have hlt : rb.pos < p₈.total :=
                    calc rb.pos ≤ p₅.total := hpos₅
                      _ ≤ p₇.total := Nat.le_trans (htotal ▸ Nat.le_succ _) hm₇.le
                      _ < p₈.total := hline
                  exact ⟨_, rfl, .advances rfl ((hm₈.within.store _).store _) rfl hlt⟩

omit hstate in
/-- Every round makes progress. -/
theorem Parser.Within.pushRound : Progresses size rb (Adhoc.pushRound fuel rb p) := by
  unfold Adhoc.pushRound
  split
  next => exact h.pushMethod hfuel hpos
  next hk => exact h.pushUri hfuel hpos (by omega)
  next hk => exact h.pushParam hfuel hpos (by omega)
  next hk => exact h.pushValue hfuel hpos (by omega)
  next => exact h.pushVersion hfuel hpos
  next hk => exact h.pushHeader hfuel hpos (by omega)
  next => exact ⟨_, rfl, .returns ReqbState.syntError_ne⟩

end Rounds

/-! ## The loop -/

/-- The loop has come to its end: the call has returned, or there is nothing more to read. -/
def LoopEnded (x : HttpReqb × Parser Unit) : Prop :=
  x.1.state ≠ .unfinished ∨ (parserEof reqSource x.2).2 = true

instance : DecidablePred LoopEnded := fun x =>
  inferInstanceAs (Decidable (x.1.state ≠ .unfinished ∨ (parserEof reqSource x.2).2 = true))

/-- The rounds of the loop. -/
def pushRounds (fuel : Nat) : Machine (HttpReqb × Parser Unit) Unit where
  step x _ := if LoopEnded x then none else pushRound fuel x.1 x.2

/-- As long as the loop goes on, the parser stands at `parsing.pos`, but for an error state. -/
structure LoopInv (size : Nat) (x : HttpReqb × Parser Unit) : Prop where
  within : x.1.state = .unfinished → x.2.Within size
  pos : ¬ LoopEnded x → x.1.parsingState ≤ 5 → x.1.pos = x.2.total

/-- The rounds that the loop has left. -/
def roundsLeft (size : Nat) (x : HttpReqb × Parser Unit) : Nat :=
  if LoopEnded x then 0 else if x.1.parsingState ≤ 5 then size - x.1.pos + 1 else 1

section Loop

variable {size fuel : Nat} {x y : HttpReqb × Parser Unit}

theorem roundsLeft_le : roundsLeft size x ≤ size - x.1.pos + 1 := by
  unfold roundsLeft
  split
  · exact Nat.zero_le _
  · split
    · exact Nat.le_refl _
    · exact Nat.le_add_left ..

theorem pushRounds_of_ended (h : LoopEnded x) (e : Unit) : (pushRounds fuel).step x e = none :=
  if_pos h

theorem pushRounds_of_not_ended (h : ¬ LoopEnded x) (e : Unit) :
    (pushRounds fuel).step x e = pushRound fuel x.1 x.2 := if_neg h

theorem state_of_not_ended (h : ¬ LoopEnded x) : x.1.state = .unfinished :=
  not_not.mp fun hne => h (.inl hne)

theorem LoopInv.within_of_not_ended (h : LoopInv size x) (hlive : ¬ LoopEnded x) :
    x.2.Within size ∧ x.2.total < size := by
  have hwithin := h.within (state_of_not_ended hlive)
  refine ⟨hwithin, Nat.lt_of_le_of_ne hwithin.le fun hend => hlive (.inr ?_)⟩
  rw [hwithin.eof]
  exact decide_eq_true hend

/-- Every round comes to its end. -/
theorem LoopInv.progresses (h : LoopInv size x) (hlive : ¬ LoopEnded x) (hfuel : size < fuel) :
    Progresses size x.1 (pushRound fuel x.1 x.2) := by
  by_cases hstate : x.1.parsingState ≤ 5
  · exact (h.within_of_not_ended hlive).1.pushRound hfuel (h.pos hlive hstate)
  · exact ⟨_, pushRound_error (Nat.lt_of_not_le hstate) fuel x.2, .returns ReqbState.syntError_ne⟩

/-- A round that returns leaves no rounds. -/
theorem loopInv_of_returned (hlive : ¬ LoopEnded x) (hend : y.1.state ≠ .unfinished) :
    LoopInv size y ∧ roundsLeft size y < roundsLeft size x := by
  refine ⟨⟨fun hstate => absurd hstate hend, fun hgoes => absurd (.inl hend) hgoes⟩, ?_⟩
  rw [roundsLeft, roundsLeft, if_pos (.inl hend), if_neg hlive]
  split
  · exact Nat.zero_lt_succ _
  · exact Nat.zero_lt_one

/-- A round keeps the invariant and leaves fewer rounds. -/
theorem LoopInv.round (h : LoopInv size x) (hlive : ¬ LoopEnded x) (hfuel : size < fuel)
    (hround : pushRound fuel x.1 x.2 = some y) :
    LoopInv size y ∧ roundsLeft size y < roundsLeft size x := by
  by_cases hstate : x.1.parsingState ≤ 5
  · obtain ⟨hwithin, hlt⟩ := h.within_of_not_ended hlive
    have hpos := h.pos hlive hstate
    have hleft : roundsLeft size x = size - x.1.pos + 1 := by
      rw [roundsLeft, if_neg hlive, if_pos hstate]
    obtain ⟨y', hy', hprogress⟩ := h.progresses hlive hfuel
    obtain rfl := Option.some.inj (hround.symm.trans hy')
    cases hprogress with
    | returns hend => exact loopInv_of_returned hlive hend
    | atEnd hp htotal =>
        have hended : LoopEnded (x.1, _) := .inr (by rw [hp.eof]; exact decide_eq_true htotal)
        refine ⟨⟨fun _ => hp, fun hgoes => absurd hended hgoes⟩, ?_⟩
        rw [hleft, roundsLeft, if_pos hended]
        exact Nat.zero_lt_succ _
    | @fails k p' _ hk hp _ =>
        have herror : ¬ k ≤ 5 := Nat.not_le_of_lt (Nat.lt_of_lt_of_le (by decide) hk)
        refine ⟨⟨fun _ => hp, fun _ hle => absurd hle herror⟩, ?_⟩
        rw [hleft, roundsLeft, if_neg herror]
        split <;> omega
    | @advances rb' p' _ hp hpos' hgrows =>
        refine ⟨⟨fun _ => hp, fun _ _ => hpos'⟩, ?_⟩
        have hle := hp.le
        have hrest : roundsLeft size (rb', p') ≤ size - rb'.pos + 1 := roundsLeft_le
        omega
  · rw [pushRound_error (Nat.lt_of_not_le hstate)] at hround
    obtain rfl := Option.some.inj hround
    exact loopInv_of_returned hlive ReqbState.syntError_ne

theorem LoopInv.step (h : LoopInv size x) (hfuel : size < fuel)
    (hstep : (pushRounds fuel).step x () = some y) :
    LoopInv size y ∧ roundsLeft size y < roundsLeft size x := by
  by_cases hended : LoopEnded x
  · rw [pushRounds_of_ended hended] at hstep
    cases hstep
  · rw [pushRounds_of_not_ended hended] at hstep
    exact h.round hended hfuel hstep

/-- Where no round is possible the loop has ended. -/
theorem LoopInv.ended (h : LoopInv size x) (hfuel : size < fuel)
    (hnone : (pushRounds fuel).step x () = none) : LoopEnded x := by
  by_contra hlive
  obtain ⟨y, hy, -⟩ := h.progresses hlive hfuel
  rw [pushRounds_of_not_ended hlive, hy] at hnone
  cases hnone

/-- The loop does the rounds, and returns what the last one leaves. -/
theorem LoopInv.pushLoop (h : LoopInv size x) (hfuel : size < fuel)
    (hstate : x.1.state = .unfinished) {es : List Unit}
    (hrun : (pushRounds fuel).run x es = some y) (hend : LoopEnded y) {rounds : Nat}
    (hrounds : es.length < rounds) :
    Adhoc.pushLoop fuel rounds x.1 x.2 = some (y.2.mem, y.1) := by
  induction es generalizing x rounds with
  | nil =>
      obtain rfl := Option.some.inj hrun
      obtain ⟨more, rfl⟩ := Nat.exists_eq_succ_of_ne_zero (Nat.ne_of_gt hrounds)
      have heof := (h.within hstate).eof
      have htotal : decide (x.2.total = size) = true := by
        have hlast := hend.resolve_left (not_not.mpr hstate)
        rwa [heof] at hlast
      simp only [Adhoc.pushLoop, heof, htotal, if_true]
  | cons e es ih =>
      obtain ⟨z, hstep, hrest⟩ := Machine.run_cons.mp hrun
      obtain ⟨more, rfl⟩ := Nat.exists_eq_succ_of_ne_zero (Nat.ne_of_gt (Nat.zero_lt_of_lt hrounds))
      rw [List.length_cons] at hrounds
      have hlive : ¬ LoopEnded x := by
        intro hended
        rw [pushRounds_of_ended hended] at hstep
        cases hstep
      have hz := (h.step hfuel hstep).1
      rw [pushRounds_of_not_ended hlive] at hstep
      obtain ⟨hwithin, hlt⟩ := h.within_of_not_ended hlive
      simp only [Adhoc.pushLoop, hwithin.eof, decide_eq_true_eq, if_neg (Nat.ne_of_lt hlt), hstep,
        Option.bind_some]
      split
      next hgoes => exact ih hz hgoes hrest (by omega)
      next hreturned =>
        -- No round is behind a return.
        cases es with
        | nil =>
            obtain rfl := Option.some.inj hrest
            rfl
        | cons e' es =>
            obtain ⟨w, hstep', -⟩ := Machine.run_cons.mp hrest
            rw [pushRounds_of_ended (.inl hreturned)] at hstep'
            cases hstep'

end Loop

/-! ## Pushes -/

/-- Where the loop of a push begins: the octets are copied, and the parser has skipped to
`parsing.pos`. -/
def pushStart (mem : Mem) (rb : HttpReqb) (data : List UInt8) : HttpReqb × Parser Unit :=
  ({ rb with size := rb.size + data.length },
    (parserSkipN reqSource rb.pos
      (parserInit (mem.write rb.size data) 0 (rb.size + data.length))).1)

/-- A push returns.  If it comes to its loop, every round makes progress, and there are no more
rounds than octets from `parsing.pos` on, and one. -/
structure Returns (mem : Mem) (rb : HttpReqb) (data : List UInt8) : Prop where
  returns : ∃ r, httpReqbPush mem rb data = some r
  rounds : rb.size + data.length < rb.bsize → rb.state = .unfinished →
    let size := rb.size + data.length
    let M := pushRounds (2 * size + 2)
    ∃ es x, M.run (pushStart mem rb data) es = some x ∧ LoopEnded x ∧
      httpReqbPush mem rb data = some (x.2.mem, x.1) ∧ es.length ≤ size - rb.pos + 1 ∧
        ∀ y, M.Visits (pushStart mem rb data) es y → ¬ LoopEnded y →
          Progresses size y.1 (pushRound (2 * size + 2) y.1 y.2)

section Pushes

variable {rb : HttpReqb}

theorem loopInv_pushStart (mem : Mem) (hpos : rb.pos ≤ rb.size) (data : List UInt8) :
    LoopInv (rb.size + data.length) (pushStart mem rb data) := by
  have hinit : (parserInit (mem.write rb.size data) 0 (rb.size + data.length)).Within
      (rb.size + data.length) := ⟨rfl, Nat.zero_add _, rfl, Nat.zero_le _⟩
  have hle : 0 + rb.pos ≤ rb.size + data.length := by omega
  obtain ⟨hwithin, htotal⟩ := hinit.skipN hle
  exact ⟨fun _ => hwithin, fun _ _ => (Nat.zero_add rb.pos).symm.trans htotal.symm⟩

/-- Whatever the memory holds, a push returns to a buffer whose `parsing.pos` is in its octets. -/
theorem returns_of_pos_le (mem : Mem) (data : List UInt8)
    (hpos : rb.state = .unfinished → rb.pos ≤ rb.size) : Returns mem rb data := by
  by_cases hfit : rb.size + data.length < rb.bsize ∧ rb.state = .unfinished
  · obtain ⟨hlt, hstate⟩ := hfit
    have hpush : httpReqbPush mem rb data =
        pushLoop (2 * (rb.size + data.length) + 2) (rb.size + data.length + 3)
          (pushStart mem rb data).1 (pushStart mem rb data).2 := by
      rw [httpReqbPush, if_neg (Nat.not_le.mpr hlt), if_neg (not_not.mpr hstate)]
      rfl
    have hinv := loopInv_pushStart mem (hpos hstate) data
    have hfuel : rb.size + data.length < 2 * (rb.size + data.length) + 2 := by omega
    obtain ⟨es, x, hrun, hnone, hx, hlen⟩ :=
      (pushRounds (2 * (rb.size + data.length) + 2)).exists_run_ended
        (fun _ _ _ h hstep => h.step hfuel hstep) hinv
    have hend := hx.ended hfuel (hnone ())
    have hlen' : es.length ≤ rb.size + data.length - rb.pos + 1 := hlen.trans roundsLeft_le
    have hrounds : es.length < rb.size + data.length + 3 := by omega
    have hloop := hinv.pushLoop hfuel hstate hrun hend hrounds
    refine ⟨⟨_, hpush.trans hloop⟩, fun _ _ => ⟨es, x, hrun, hend, hpush.trans hloop, hlen', ?_⟩⟩
    intro y hvisits hlive
    have hy : LoopInv (rb.size + data.length) y := hvisits.invariant
      (fun s e t _ hstep h => (h.step hfuel hstep).1)
      (Machine.meets_of_forall (C := fun _ _ => True) fun _ _ _ => trivial) hinv
    exact hy.progresses hlive hfuel
  · refine ⟨?_, fun hlt hstate => absurd ⟨hlt, hstate⟩ hfit⟩
    unfold httpReqbPush
    split
    next => exact ⟨_, rfl⟩
    next hbig =>
      rw [if_pos fun hstate => hfit ⟨Nat.not_le.mp hbig, hstate⟩]
      exact ⟨_, rfl⟩

theorem PushInv.pos_le {t : PushState} (h : PushInv t) (hlive : t.rb.state = .unfinished) :
    t.rb.pos ≤ t.rb.size := by
  obtain ⟨v, r, l, -, hrel⟩ := h.live hlive
  rw [hrel.pos, ← hrel.size (hrel.state.symm.trans hlive)]
  exact Nat.le_add_right ..

/-- Whatever was pushed into a buffer of any size, the next push returns. -/
theorem httpReqbPush_returns (mem : Mem) (bsize : Nat) (hb : bsize < 2147483648)
    (pieces : List (List UInt8)) (data : List UInt8) :
    ∃ t, pushMachine.run (.start mem bsize hb) pieces = some t ∧ Returns t.mem t.rb data := by
  obtain ⟨t, hrun, ht⟩ := run_pushes mem hb pieces
  exact ⟨t, hrun, returns_of_pos_le t.mem data ht.pos_le⟩

/-- A request whose URI has a character that may not be there, in two pieces. -/
theorem httpReqbPush_returns_error :
    ∃ t, pushMachine.run (.start Mem.zero 64 (by decide)) [ascii ['G', 'E', 'T', ' ']] = some t ∧
      Returns t.mem t.rb (ascii ['/', '#', ' ']) :=
  httpReqbPush_returns Mem.zero 64 (by decide) [ascii ['G', 'E', 'T', ' ']] (ascii ['/', '#', ' '])

end Pushes

end Adhoc
