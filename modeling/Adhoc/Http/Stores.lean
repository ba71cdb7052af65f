import Adhoc.Lib.Machine
import Adhoc.Http.Push

/-!
# Where a push stores

`http_reqb_push` stores a zero behind each token, and the places are sums and
differences of parser positions.  `checkedHttpReqbPush` is the push with every such
place checked against the octets of the buffer: it yields nothing where a zero would
be stored anywhere else.  It never does in a buffer that has been pushed to
(`Rel.checkedPush`).

So pushes are the events of a machine with one run for every sequence of pieces
(`run_pushes`).  Its states have, beside the memory and the buffer, what was stored of
the pieces before there were zeros in it, and `PushInv` says that the buffer has what
the request reader reads of that.
-/

namespace Adhoc

open ByteMem Scanner Incremental EventMachine

/-! ## Checked stores -/

/-- `rb->buff[i] = 0`, for an index of the first `size` octets. -/
def Parser.checkedStore (size : Nat) (i : Int) (p : Parser Unit) : Option (Parser Unit) :=
  if 0 ≤ i ∧ i < size then some (p.store i.toNat) else none

def checkedEndToken (rb : HttpReqb) (p : Parser Unit) (state : Nat) :
    Option (HttpReqb × Parser Unit) := do
  let p ← p.checkedStore rb.size p.total
  let p := (parserSkipN reqSource 1 p).1
  some ({ rb with pos := p.total, parsingState := state }, p)

def checkedPushMethod (fuel : Nat) (rb : HttpReqb) (p : Parser Unit) :
    Option (HttpReqb × Parser Unit) := do
  let (p, _) ← parserSkipWs reqSource fuel p
  let total := p.total
  let (p, _) ← parserSkipBefore reqSource fuel ' '.toUInt8 p
  let (p, eof) := parserEof reqSource p
  if eof then some (rb, p)
  else
    let stored ← p.checkedStore rb.size p.total
    let method := strToMethod stored.mem total
    checkedEndToken { rb with req := { rb.req with method := method } } p 1

def checkedEndIdent (stateOf : UInt8 → Nat) (req : HttpReq) (rb : HttpReqb) (p : Parser Unit) :
    Option (HttpReqb × Parser Unit) :=
  let (p, eof) := parserEof reqSource p
  if eof then some (rb, p)
  else
    let (p, c) := parserCurr reqSource p
    if 10 ≤ stateOf c then some ({ rb with parsingState := stateOf c }, p)
    else checkedEndToken { rb with req := req } p (stateOf c)

def checkedPushUri (fuel : Nat) (rb : HttpReqb) (p : Parser Unit) :
    Option (HttpReqb × Parser Unit) := do
  let (p, _) ← parserSkipWs reqSource fuel p
  let total := p.total
  let (p, _) ← parserSkip reqSource fuel reqIdent p
  checkedEndIdent uriState { rb.req with uri := some total } rb p

def checkedPushParam (fuel : Nat) (rb : HttpReqb) (p : Parser Unit) :
    Option (HttpReqb × Parser Unit) := do
  let total := p.total
  let (p, _) ← parserSkip reqSource fuel reqIdent p
  checkedEndIdent paramState (rb.req.addParam total) rb p

def checkedPushValue (fuel : Nat) (rb : HttpReqb) (p : Parser Unit) :
    Option (HttpReqb × Parser Unit) := do
  let total := p.total
  let (p, _) ← parserSkip reqSource fuel reqIdent p
  checkedEndIdent valueState (rb.req.setValue total) rb p

def checkedPushVersion (fuel : Nat) (rb : HttpReqb) (p : Parser Unit) :
    Option (HttpReqb × Parser Unit) := do
  let (p, _) ← parserSkipWs reqSource fuel p
  let total := p.total
  let (p, line) ← parserSkipLine reqSource fuel p
  if !line then some (rb, p)
  else
    let stored ← p.checkedStore rb.size (p.total - 2)
    some ({ rb with req := { rb.req with ver := some total }, pos := p.total, parsingState := 5 },
      stored)

def checkedPushHeader (fuel : Nat) (rb : HttpReqb) (p : Parser Unit) :
    Option (HttpReqb × Parser Unit) := do
  let (p, _) ← parserSkipWsInLine reqSource fuel p
  let (p, cr) := parserSkipChar reqSource '\r'.toUInt8 p
  if cr then some ({ rb with state := .finished }, p)
  else
    let (p, lf) := parserSkipChar reqSource '\n'.toUInt8 p
    if lf then some ({ rb with state := .finished }, p)
    else
      let (p, _) ← parserSkipWsInLine reqSource fuel p
      let index0 := p.total
      let (p, _) ← parserSkip reqSource fuel reqIdent p
      let (p, eof) := parserEof reqSource p
      if eof then some (rb, p)
      else
        let (p, c) := parserCurr reqSource p
        if c ≠ ':'.toUInt8 then some ({ rb with parsingState := 15 }, p)
        else
          let index1 := p.total
          let p := (parserSkipN reqSource 1 p).1
          let (p, _) ← parserSkipWsInLine reqSource fuel p
          let index2 := p.total
          let (p, line) ← parserSkipLine reqSource fuel p
          if !line then some (rb, p)
          else
            let index3 := p.total
            let p ← p.checkedStore rb.size index1
            let p ← p.checkedStore rb.size (index3 - 2)
            some ({ rb with
              req := httpReqSetParam p.mem rb.req index0 index2
              pos := p.total }, p)

def checkedPushRound (fuel : Nat) (rb : HttpReqb) (p : Parser Unit) :
    Option (HttpReqb × Parser Unit) :=
  match rb.parsingState with
  | 0 => checkedPushMethod fuel rb p
  | 1 => checkedPushUri fuel rb p
  | 2 => checkedPushParam fuel rb p
  | 3 => checkedPushValue fuel rb p
  | 4 => checkedPushVersion fuel rb p
  | 5 => checkedPushHeader fuel rb p
  | _ => some ({ rb with state := .syntError }, p)

def checkedPushLoop (fuel : Nat) : Nat → HttpReqb → Parser Unit → Option (Mem × HttpReqb)
  | 0, _, _ => none
  | rounds + 1, rb, p =>
      let (p, eof) := parserEof reqSource p
      if eof then some (p.mem, rb)
      else
        (checkedPushRound fuel rb p).bind fun (rb, p) =>
          if rb.state = .unfinished then checkedPushLoop fuel rounds rb p else some (p.mem, rb)

/-- `http_reqb_push`, with the places of its zeros checked. -/
def checkedHttpReqbPush (mem : Mem) (rb : HttpReqb) (data : List UInt8) :
    Option (Mem × HttpReqb) :=
  if rb.bsize ≤ rb.size + data.length then some (mem, { rb with state := .reqToBig })
  else if rb.state ≠ .unfinished then some (mem, rb)
  else
    let rb' := { rb with size := rb.size + data.length }
    let p := (parserSkipN reqSource rb.pos (parserInit (mem.write rb.size data) 0 rb'.size)).1
    checkedPushLoop (2 * rb'.size + 2) (rb'.size + 3) rb' p

/-! ## The places of the zeros -/

section Places

variable {mem : Mem} {size fuel i : Nat} {rb : HttpReqb} {p : Parser Unit} {l : List UInt8}
  {c : UInt8}

theorem checkedStore_of_lt (h : i < size) (p : Parser Unit) :
    p.checkedStore size i = some (p.store i) :=
  if_pos ⟨Int.natCast_nonneg i, Int.ofNat_lt.mpr h⟩

/-- Two octets before a place that has two before it. -/
theorem checkedStore_sub_two (hi : 2 ≤ i) (h : i ≤ size) (p : Parser Unit) :
    p.checkedStore size ((i : Int) - 2) = some (p.store (i - 2)) := by
  rw [show ((i : Int) - 2) = ((i - 2 : Nat) : Int) by omega]
  exact checkedStore_of_lt (by omega) p

theorem Window.total_lt (h : Window mem size p (c :: l)) : p.total < size := by
  rw [← h.total, List.length_cons]
  omega

theorem Window.checkedEndToken (h : Window mem size p (c :: l)) (hsize : rb.size = size)
    (state : Nat) : checkedEndToken rb p state = some (endToken rb p state) := by
  rw [Adhoc.checkedEndToken, checkedStore_of_lt (hsize.symm ▸ h.total_lt)]
  rfl

theorem Window.checkedEndIdent (h : Window mem rb.size p l) (stateOf : UInt8 → Nat)
    (req : HttpReq) : checkedEndIdent stateOf req rb p = some (endIdent stateOf req rb p) := by
  cases l with
  | nil => simp only [Adhoc.checkedEndIdent, endIdent, h.eof, List.isEmpty_nil, if_true]
  | cons c l =>
      simp only [Adhoc.checkedEndIdent, endIdent, h.eof, h.curr_eq, List.isEmpty_cons,
        Bool.false_eq_true, if_false, List.headD_cons]
      split
      · rfl
      · exact h.checkedEndToken (by rfl) (stateOf c)

variable (h : Window mem rb.size p l) (hfuel : l.length < fuel)
include h hfuel

theorem Window.checkedMethod : checkedPushMethod fuel rb p = pushMethod fuel rb p := by
  obtain ⟨p₁, b₁, hp₁, hw₁⟩ := h.skipWs hfuel
  obtain ⟨p₂, b₂, hp₂, hw₂⟩ := hw₁.skipBefore (lt_of_dropWhile hfuel) ' '.toUInt8
  simp only [checkedPushMethod, pushMethod, hp₁, hp₂, Option.bind_eq_bind, Option.bind_some]
  cases hleft : (l.dropWhile isWs).dropWhile (isNot ' '.toUInt8) with
  | nil =>
      rw [hleft] at hw₂
      simp only [hw₂.eof, List.isEmpty_nil, if_true]
  | cons c rest =>
      rw [hleft] at hw₂
      simp only [hw₂.eof, List.isEmpty_cons, Bool.false_eq_true, if_false,
        checkedStore_of_lt hw₂.total_lt, Option.bind_some]
      exact hw₂.checkedEndToken (by rfl) 1

theorem Window.checkedUri : checkedPushUri fuel rb p = pushUri fuel rb p := by
  obtain ⟨p₁, b₁, hp₁, hw₁⟩ := h.skipWs hfuel
  obtain ⟨p₂, b₂, hp₂, hw₂⟩ := hw₁.skip (lt_of_dropWhile hfuel) reqIdent
  simp only [checkedPushUri, pushUri, hp₁, hp₂, Option.bind_eq_bind, Option.bind_some,
    hw₂.checkedEndIdent]

theorem Window.checkedParam : checkedPushParam fuel rb p = pushParam fuel rb p := by
  obtain ⟨p₂, b₂, hp₂, hw₂⟩ := h.skip hfuel reqIdent
  simp only [checkedPushParam, pushParam, hp₂, Option.bind_eq_bind, Option.bind_some,
    hw₂.checkedEndIdent]

theorem Window.checkedValue : checkedPushValue fuel rb p = pushValue fuel rb p := by
  obtain ⟨p₂, b₂, hp₂, hw₂⟩ := h.skip hfuel reqIdent
  simp only [checkedPushValue, pushValue, hp₂, Option.bind_eq_bind, Option.bind_some,
    hw₂.checkedEndIdent]

/-- The line of the version has a character before its line feed. -/
theorem Window.checkedVersion : checkedPushVersion fuel rb p = pushVersion fuel rb p := by
  obtain ⟨p₁, b₁, hp₁, hw₁⟩ := h.skipWs hfuel
  simp only [checkedPushVersion, pushVersion, hp₁, Option.bind_eq_bind, Option.bind_some]
  cases ht : token isWs (isNot '\n'.toUInt8) l with
  | none =>
      obtain ⟨p₂, hp₂, -⟩ := hw₁.skipLine_none (lt_of_dropWhile hfuel) (token_eq_none.mp ht)
      simp only [hp₂, Option.bind_some, Bool.not_false, if_true]
  | some x =>
      obtain ⟨t, rest⟩ := x
      obtain ⟨-, hstr, hdelim⟩ := token_eq_some ht
      obtain ⟨p₂, hp₂, hw₂⟩ := hw₁.skipLine_some (lt_of_dropWhile hfuel) hdelim
      have hlf : t.delim = '\n'.toUInt8 := by
        simpa [isNot] using (token_kinds ht).2
      have hpos := List.length_pos_iff.mpr (token_str_ne_nil ht (by rw [hlf]; decide))
      have htotal := hw₁.total
      rw [hstr, List.length_append, List.length_cons] at htotal
      have htotal' := hw₂.total
      have hstore : p₂.checkedStore rb.size ((p₂.total : Int) - 2) =
          some (p₂.store (p₂.total - 2)) := checkedStore_sub_two (by omega) (by omega) p₂
      simp only [hp₂, Option.bind_some, Bool.not_true, Bool.false_eq_true, if_false, hstore]

/-- The colon and the line feed lie between the two zeros of a header and its end. -/
theorem Window.checkedHeader : checkedPushHeader fuel rb p = pushHeader fuel rb p := by
  obtain ⟨p₀, b₀, hp₀, hw₀⟩ := h.skipWsInLine hfuel
  simp only [checkedPushHeader, pushHeader, hp₀, Option.bind_eq_bind, Option.bind_some]
  cases hdrop : l.dropWhile isWsInLine with
  | nil =>
      rw [hdrop] at hw₀
      have hfuel₀ : ([] : List UInt8).length < fuel := Nat.zero_lt_of_lt hfuel
      obtain ⟨p₁, b₁, hp₁, hw₁⟩ := hw₀.skipWsInLine hfuel₀
      obtain ⟨p₂, b₂, hp₂, hw₂⟩ := hw₁.skip hfuel₀ reqIdent
      have hchar (c : UInt8) : parserSkipChar reqSource c p₀ = (p₀, false) :=
        hw₀.skipChar_of_ne (by rintro a ⟨⟩)
      simp only [hchar, hp₁, hp₂, hw₂.eof, Option.bind_some, Bool.false_eq_true, if_false,
        List.dropWhile_nil, List.isEmpty_nil, if_true]
  | cons c rest =>
      rw [hdrop] at hw₀
      by_cases hcr : c = '\r'.toUInt8
      · obtain ⟨p₁, hp₁, -⟩ := (hcr ▸ hw₀).skipChar_eq
        simp only [hp₁, if_true]
      rw [hw₀.skipChar_of_ne (by rintro a ⟨⟩; exact hcr)]
      by_cases hlf : c = '\n'.toUInt8
      · obtain ⟨p₁, hp₁, -⟩ := (hlf ▸ hw₀).skipChar_eq
        simp only [hp₁, Bool.false_eq_true, if_false, if_true]
      simp only [hw₀.skipChar_of_ne (show ∀ a ∈ (c :: rest).head?, a ≠ '\n'.toUInt8 by
        rintro a ⟨⟩; exact hlf), Bool.false_eq_true, if_false]
      rw [← hdrop] at hw₀
      obtain ⟨p₁, b₁, hp₁, hw₁⟩ := hw₀.skipWsInLine (lt_of_dropWhile hfuel)
      rw [List.dropWhile_idempotent] at hw₁
      obtain ⟨p₂, b₂, hp₂, hw₂⟩ := hw₁.skip (lt_of_dropWhile hfuel) reqIdent
      simp only [hp₁, hp₂, Option.bind_some]
      cases hname : token isWsInLine reqIdent l with
      | none =>
          rw [token_eq_none.mp hname] at hw₂
          simp only [hw₂.eof, List.isEmpty_nil, if_true]
      | some x =>
          obtain ⟨name, l₁⟩ := x
          rw [(token_eq_some hname).2.2] at hw₂
          simp only [hw₂.eof, hw₂.curr_eq, List.isEmpty_cons, Bool.false_eq_true, if_false,
            List.headD_cons]
          by_cases hcolon : name.delim = ':'.toUInt8
          · simp only [hcolon, ne_eq, not_true, if_false]
            have hfuel₁ : l₁.length < fuel := by
              have hlen := token_length hname
              omega
            obtain ⟨p₃, b₃, hp₃, hw₃⟩ := hw₂.skipOne.skipWsInLine hfuel₁
            rw [hp₃, Option.bind_some, Option.bind_some]
            cases hvalue : token isWsInLine (isNot '\n'.toUInt8) l₁ with
            | none =>
                obtain ⟨p₄, hp₄, -⟩ :=
                  hw₃.skipLine_none (lt_of_dropWhile hfuel₁) (token_eq_none.mp hvalue)
                simp only [hp₄, Option.bind_some, Bool.not_false, if_true]
            | some x =>
                obtain ⟨value, l₂⟩ := x
                obtain ⟨p₄, hp₄, hw₄⟩ :=
                  hw₃.skipLine_some (lt_of_dropWhile hfuel₁) (token_eq_some hvalue).2.2
                have hfirst := checkedStore_of_lt hw₂.total_lt p₄
                have htotal := hw₂.total
                have htotal' := hw₄.total
                have hlen := token_length hvalue
                rw [Token.width] at hlen
                rw [List.length_cons] at htotal
                have hsecond := checkedStore_sub_two (show 2 ≤ p₄.total by omega)
                  (show p₄.total ≤ rb.size by omega) (p₄.store p₂.total)
                simp only [hp₄, Option.bind_some, Bool.not_true, Bool.false_eq_true, if_false,
                  hfirst, hsecond]
          · simp only [hcolon, ne_eq, not_false_eq_true, if_true]

theorem Window.checkedRound : checkedPushRound fuel rb p = pushRound fuel rb p := by
  rw [checkedPushRound, h.checkedMethod hfuel, h.checkedUri hfuel, h.checkedParam hfuel,
    h.checkedValue hfuel, h.checkedVersion hfuel, h.checkedHeader hfuel]
  rfl

end Places

section Loop

variable {v : Nat → Int} {mem M : Mem} {fuel rounds : Nat} {rb : HttpReqb} {p : Parser Unit}
  {r : Reading} {l data : List UInt8}

/-- A round is the same with its places checked, and so is the loop if the rounds behind are. -/
theorem Window.checkedLoop_succ (hw : Window mem rb.size p l) (hfuel : l.length < fuel)
    (hnext : ∀ rb' p', pushRound fuel rb p = some (rb', p') → rb'.state = .unfinished →
      checkedPushLoop fuel rounds rb' p' = pushLoop fuel rounds rb' p') :
    checkedPushLoop fuel (rounds + 1) rb p = pushLoop fuel (rounds + 1) rb p := by
  simp only [checkedPushLoop, pushLoop, hw.eof, hw.checkedRound hfuel]
  split
  · rfl
  · cases hround : pushRound fuel rb p with
    | none => rw [Option.bind_none, Option.bind_none]
    | some x =>
        obtain ⟨rb', p'⟩ := x
        simp only [Option.bind_some]
        split
        next hgoes => exact hnext rb' p' hround hgoes
        next => rfl

/-- Nothing to come: the loop ends. -/
theorem Window.checkedLoop_nil (hw : Window mem rb.size p []) :
    checkedPushLoop fuel rounds rb p = pushLoop fuel rounds rb p := by
  cases rounds with
  | zero => rfl
  | succ rounds => simp only [checkedPushLoop, pushLoop, hw.eof, List.isEmpty_nil, if_true]

/-- After an error one more round ends the loop. -/
theorem checkedLoop_error (herror : 10 ≤ rb.parsingState) :
    checkedPushLoop fuel rounds rb p = pushLoop fuel rounds rb p := by
  obtain ⟨d, hd⟩ := Nat.exists_eq_add_of_le' herror
  cases rounds with
  | zero => rfl
  | succ rounds => simp only [checkedPushLoop, pushLoop, checkedPushRound, pushRound, hd,
      Option.bind_some, reduceCtorEq, if_false]

/-- The loop stores nothing outside the octets of the buffer. -/
theorem Rel.checkedLoop (h : Rel v mem rb r l) (hlive : r.state = .unfinished)
    (hw : Window mem rb.size p l) (hM : AgreeFrom r.pos mem M) (hfuel : l.length < fuel)
    (hv : ∀ off, r.pos ≤ off → v off = strtolAt M off) (hspace : rb.size < addressSpace) :
    checkedPushLoop fuel rounds rb p = pushLoop fuel rounds rb p := by
  induction rounds generalizing mem rb p r l with
  | zero => rfl
  | succ rounds ih =>
      by_cases hnil : l = []
      · subst hnil
        exact hw.checkedLoop_nil
      apply hw.checkedLoop_succ hfuel
      intro rb₁ p₁ hx hgoes
      have hround := h.round hlive hw hM hfuel hnil hv hspace
      rw [hx] at hround
      cases hround with
      | waits _ hw' _ _ => exact hw'.checkedLoop_nil
      | fails _ hk _ _ _ => exact checkedLoop_error hk
      | goes _ hpos hsize _ _ hrel hgo hM₁ =>
          obtain ⟨hlt, hw₁⟩ := hgo (hrel.state.symm.trans hgoes)
          rw [← hsize] at hw₁
          exact ih hrel (hrel.state.symm.trans hgoes) hw₁ hM₁ (Nat.lt_trans hlt hfuel)
            (fun off hoff => hv off (Nat.le_trans hpos hoff)) (hsize ▸ hspace)

/-- A push stores nothing outside the octets of the buffer. -/
theorem Rel.checkedPush (h : Rel v mem rb r l) (data : List UInt8) :
    checkedHttpReqbPush mem rb data = httpReqbPush mem rb data := by
  unfold checkedHttpReqbPush httpReqbPush
  split
  next => rfl
  next hfit =>
    split
    next => rfl
    next hstate =>
      have hlive : r.state = .unfinished := h.state.symm.trans (not_not.mp hstate)
      have hwindow := h.window hlive data
      have hspace : rb.size + data.length < addressSpace :=
        Nat.lt_trans (Nat.lt_trans (Nat.not_le.mp hfit) rb.bsize_lt) (by decide)
      have hlen : (l ++ data).length < 2 * (rb.size + data.length) + 2 := by
        have htotal := hwindow.total
        omega
      exact (h.received hlive data).checkedLoop hlive hwindow (fun _ _ => rfl) hlen
        (fun off hoff => if_neg (Nat.not_lt.mpr hoff)) hspace

end Loop

/-! ## Runs of pushes -/

/-- A buffer that is pushed to. -/
structure PushState where
  mem : Mem
  rb : HttpReqb
  /-- What the buffer has taken of the pieces. -/
  input : List UInt8

/-- Before the first push. -/
def PushState.start (mem : Mem) (bsize : Nat) (hb : bsize < 2147483648) : PushState :=
  ⟨mem, httpReqbInit bsize hb, []⟩

/-- A push.  It takes its piece if there is room and the request is not at its end. -/
def pushStep (t : PushState) (data : List UInt8) : Option PushState :=
  (checkedHttpReqbPush t.mem t.rb data).map fun (mem, rb) =>
    ⟨mem, rb, if t.rb.bsize ≤ t.rb.size + data.length ∨ t.rb.state ≠ .unfinished then t.input
      else t.input ++ data⟩

/-- The pushes. -/
def pushMachine : Machine PushState (List UInt8) := ⟨pushStep⟩

/-- The buffer has what the request reader reads, but for the state of a buffer that was too
small. -/
structure PushInv (t : PushState) : Prop where
  size_eq : t.rb.size = t.input.length
  reads : ∃ v r l, requestReader.Reads (.start, t.input) (r, l) ∧
    Rel v t.mem { t.rb with state := r.state } r l ∧
      (t.rb.state = r.state ∨ t.rb.state = .reqToBig)

section Runs

variable {t u : PushState}

theorem pushInv_of_rel {v : Nat → Int} {r : Reading} {l : List UInt8}
    (hsize : t.rb.size = t.input.length) (hreads : requestReader.Reads (.start, t.input) (r, l))
    (hrel : Rel v t.mem t.rb r l) : PushInv t := by
  refine ⟨hsize, v, r, l, hreads, ?_, .inl hrel.state⟩
  rw [← hrel.state]
  exact hrel

theorem pushInv_start (mem : Mem) {bsize : Nat} (hb : bsize < 2147483648) :
    PushInv (.start mem bsize hb) :=
  pushInv_of_rel rfl ⟨.refl, (step_nil : Reading.start.step [] = none)⟩
    (rel_start (fun _ => 0) mem hb)

/-- The buffer has what the reader reads as long as the request is not at its end. -/
theorem PushInv.live (h : PushInv t) (hlive : t.rb.state = .unfinished) :
    ∃ v r l, requestReader.Reads (.start, t.input) (r, l) ∧ Rel v t.mem t.rb r l := by
  obtain ⟨-, v, r, l, hreads, hrel, hstate⟩ := h
  have hsame : t.rb.state = r.state := hstate.resolve_right (by rw [hlive]; decide)
  rw [← hsame] at hrel
  exact ⟨v, r, l, hreads, hrel⟩

/-- The stores of a push are stores in the buffer. -/
theorem PushInv.checkedPush (h : PushInv t) (data : List UInt8) :
    checkedHttpReqbPush t.mem t.rb data = httpReqbPush t.mem t.rb data := by
  cases hstate : t.rb.state with
  | unfinished =>
      obtain ⟨v, r, l, -, hrel⟩ := h.live hstate
      exact hrel.checkedPush data
  | finished | syntError | reqToBig =>
      have hend : t.rb.state ≠ .unfinished := by
        rw [hstate]
        decide
      rw [checkedHttpReqbPush, httpReqbPush, if_pos hend, if_pos hend]

/-- A push can be made, leaves the size below that of the buffer or as it was, and keeps what
holds. -/
theorem PushInv.step (h : PushInv t) (data : List UInt8) :
    ∃ u, pushMachine.step t data = some u ∧ PushInv u ∧
      (u.rb.size < u.rb.bsize ∨ u.rb.size = t.rb.size) := by
  have hsize := h.size_eq
  rcases Nat.lt_or_ge (t.rb.size + data.length) t.rb.bsize with hfit | hfull
  swap
  · obtain ⟨-, v, r, l, hreads, hrel, hstate⟩ := h
    refine ⟨{ t with rb := { t.rb with state := .reqToBig } }, ?_,
      ⟨hsize, v, r, l, hreads, hrel, .inr rfl⟩, .inr rfl⟩
    show pushStep t data = some _
    rw [pushStep, checkedHttpReqbPush, if_pos hfull, if_pos (.inl hfull)]
    rfl
  by_cases hlive : t.rb.state = .unfinished
  · obtain ⟨v, r, l, hreads, hrel⟩ := h.live hlive
    obtain ⟨mem', rb', r', l', hrun, hreads', hrel', hsize', hbsize⟩ := hrel.push hfit
    rw [← hrel.state, if_pos hlive] at hsize'
    have hinput : rb'.size = (t.input ++ data).length := by
      rw [hsize', hsize, List.length_append]
    have hlt : rb'.size < rb'.bsize := by
      rw [hsize', hbsize]
      exact hfit
    refine ⟨⟨mem', rb', t.input ++ data⟩, ?_,
      pushInv_of_rel hinput (hreads.append hreads') hrel', .inl hlt⟩
    show pushStep t data = some _
    rw [pushStep, hrel.checkedPush data, hrun,
      if_neg (not_or.mpr ⟨Nat.not_le.mpr hfit, not_not.mpr hlive⟩)]
    rfl
  · refine ⟨t, ?_, h, .inr rfl⟩
    show pushStep t data = some _
    rw [pushStep, checkedHttpReqbPush, if_neg (Nat.not_le.mpr hfit), if_pos hlive,
      if_pos (.inr hlive)]
    rfl

/-- Whatever is pushed, the pushes can be made. -/
theorem PushInv.run (h : PushInv t) (pieces : List (List UInt8)) :
    ∃ u, pushMachine.run t pieces = some u ∧ PushInv u := by
  induction pieces generalizing t with
  | nil => exact ⟨t, rfl, h⟩
  | cons data pieces ih =>
      obtain ⟨u, hstep, hu, -⟩ := h.step data
      obtain ⟨w, hrun, hw⟩ := ih hu
      exact ⟨w, Machine.run_cons.mpr ⟨u, hstep, hrun⟩, hw⟩

/-- A new buffer has one run for every sequence of pieces. -/
theorem run_pushes (mem : Mem) {bsize : Nat} (hb : bsize < 2147483648)
    (pieces : List (List UInt8)) :
    ∃ t, pushMachine.run (.start mem bsize hb) pieces = some t ∧ PushInv t :=
  (pushInv_start mem hb).run pieces

end Runs

end Adhoc
