import Adhoc.Http.Fragments
import Adhoc.Http.RoundTrip
import Adhoc.Http.Stores

/-!
# The strings of a request

What the pointers of a request point to, said of the octets that were pushed: a token
of identifier characters, or a line without its end.  `Placed` says it of what the
request reader reads, and `Rel.texts` that the buffer has that with a zero behind it.

The zero of a line is stored two octets before its end, where the carriage return is.
Without one it is stored in the place of the last character of the line, and before
the line if there is none (`EndsCrLf`).
-/

namespace Adhoc

open ByteMem Scanner Incremental EventMachine

/-! ## Tokens and lines of the input -/

/-- The identifier characters from a place on. -/
def tokenAt (s : List UInt8) (q : Nat) : List UInt8 := (s.drop q).takeWhile reqIdent

/-- The octets from a place up to a line feed. -/
def lineAt (s : List UInt8) (q : Nat) : List UInt8 := (s.drop q).takeWhile (isNot '\n'.toUInt8)

/-- A carriage return stands before the line feed. -/
def EndsInCr (line : List UInt8) : Prop := line.getLast? = some '\r'.toUInt8

instance : DecidablePred EndsInCr := fun line => inferInstanceAs (Decidable (line.getLast? = _))

/-- A line without its carriage return, if it has one. -/
def lineContent (line : List UInt8) : List UInt8 :=
  if EndsInCr line then line.dropLast else line

/-- The octet before a place is no identifier character, so that no token goes on there. -/
def Apart (s : List UInt8) (q : Nat) : Prop :=
  ∃ k c, q = k + 1 ∧ s[k]? = some c ∧ reqIdent c = false

section Places

variable {ws p : UInt8 → Bool} {s rest : List UInt8} {n : Nat} {t : Token}

/-- The characters of a token, its delimiter and the rest are behind its blanks. -/
theorem drop_token (h : token ws p (s.drop n) = some (t, rest)) :
    s.drop (n + t.blanks) = t.str ++ t.delim :: rest := by
  obtain ⟨hlen, hstr, -⟩ := token_eq_some h
  have hsuffix := List.suffix_iff_eq_drop.mp (List.dropWhile_suffix (l := s.drop n) ws)
  rw [hlen, Nat.add_sub_cancel, hstr, List.drop_drop] at hsuffix
  exact hsuffix.symm

theorem takeWhile_token (h : token ws p (s.drop n) = some (t, rest)) :
    (s.drop (n + t.blanks)).takeWhile p = t.str := by
  obtain ⟨hkind, hdelim⟩ := token_kinds h
  rw [drop_token h]
  exact (span_mk hkind hdelim rest).1

theorem rest_token (h : token ws p (s.drop n) = some (t, rest)) : rest = s.drop (n + t.width) := by
  have hwidth : n + t.width = n + t.blanks + (t.str.length + 1) := by
    rw [Token.width]
    omega
  rw [hwidth, ← List.drop_drop, drop_token h, List.drop_append]
  simp

theorem token_le (h : token ws p (s.drop n) = some (t, rest)) : n + t.width ≤ s.length := by
  have hlen := token_length h
  have hwidth : 0 < t.width := Nat.succ_pos _
  rw [List.length_drop] at hlen
  omega

/-- What is behind a token is apart from it. -/
theorem apart_behind (h : token ws p (s.drop n) = some (t, rest))
    (hdelim : reqIdent t.delim = false) : Apart s (n + t.width) := by
  refine ⟨n + t.blanks + t.str.length, t.delim, by rw [Token.width]; omega, ?_, hdelim⟩
  rw [← List.getElem?_drop, drop_token h, List.getElem?_append_right (Nat.le_refl _)]
  simp

theorem length_blanks (h : token ws p (s.drop n) = some (t, rest)) :
    ((s.drop n).takeWhile ws).length = t.blanks := by
  have hlen := congrArg List.length (List.takeWhile_append_dropWhile (p := ws) (l := s.drop n))
  rw [List.length_append, (token_eq_some h).1] at hlen
  exact Nat.add_right_cancel hlen

/-- Behind blanks a token is apart, too. -/
theorem Apart.blanks (hn : Apart s n) (h : token ws p (s.drop n) = some (t, rest))
    (hws : ∀ c, ws c = true → reqIdent c = false) : Apart s (n + t.blanks) := by
  have hlen := length_blanks h
  cases hcount : t.blanks with
  | zero => exact hn
  | succ k =>
      have hlt : k < ((s.drop n).takeWhile ws).length := by omega
      refine ⟨n + k, ((s.drop n).takeWhile ws).get ⟨k, hlt⟩, rfl, ?_, ?_⟩
      · rw [← List.getElem?_drop]
        conv_lhs => rw [← List.takeWhile_append_dropWhile (p := ws) (l := s.drop n)]
        rw [List.getElem?_append_left hlt, List.getElem?_eq_getElem hlt]
        rfl
      · exact hws _ (List.mem_takeWhile_imp (List.get_mem ..))

theorem not_ident_of_isWs {c : UInt8} (hc : isWs c = true) : reqIdent c = false := by
  cases hident : reqIdent c with
  | false => rfl
  | true => exact absurd (isWs_of_ident hident) (by rw [hc]; decide)

theorem not_ident_of_isWsInLine {c : UInt8} (hc : isWsInLine c = true) : reqIdent c = false := by
  cases hident : reqIdent c with
  | false => rfl
  | true => exact absurd (isWsInLine_of_ident hident).1 (by rw [hc]; decide)

end Places

/-! ## Where the reader finds them -/

/-- The texts of a reading that are tokens. -/
def Reading.tokens (r : Reading) : List Text :=
  r.uri.toList ++ r.params.flatMap fun param => param.name :: param.value.toList

/-- The texts of a reading that are lines. -/
def Reading.lines (r : Reading) : List Text := r.ver.toList ++ r.headers.map Header.value

/-- The octets a reading says it has read are where it says, and `l` is behind them. -/
structure Placed (s : List UInt8) (r : Reading) (l : List UInt8) : Prop where
  pos_le : r.pos ≤ s.length
  rest : r.state = .unfinished → l = s.drop r.pos
  apart : r.parsing = 0 ∨ Apart s r.pos
  tokens : ∀ x ∈ r.tokens, Apart s x.off ∧ x.str = tokenAt s x.off
  lines : ∀ x ∈ r.lines, Apart s x.off ∧ x.str = (lineAt s x.off).dropLast
  closed : ∀ x ∈ r.headers, x.closed = true ↔ lineAt s x.value.off ≠ []

section Reader

variable {s l l' rest : List UInt8} {r r' : Reading} {t : Token} {x : Text}

theorem mem_tokens :
    x ∈ r.tokens ↔ r.uri = some x ∨ ∃ param ∈ r.params, param.name = x ∨ param.value = some x := by
  simp only [Reading.tokens, List.mem_append, Option.mem_toList, List.mem_flatMap, List.mem_cons,
    eq_comm (a := x)]

theorem mem_lines : x ∈ r.lines ↔ r.ver = some x ∨ ∃ y ∈ r.headers, y.value = x := by
  simp only [Reading.lines, List.mem_append, Option.mem_toList, List.mem_map]

theorem placed_start (s : List UInt8) : Placed s .start s where
  pos_le := Nat.zero_le _
  rest := fun _ => rfl
  apart := .inl rfl
  tokens := fun _ hx => by cases hx
  lines := fun _ hx => by cases hx
  closed := fun _ hx => by cases hx

/-- Behind a token: what it adds to the tokens and lines has to be in its place. -/
theorem Placed.behind {ws p : UInt8 → Bool} (ht : token ws p (s.drop r.pos) = some (t, rest))
    (hdelim : reqIdent t.delim = false) (hpos : r'.pos = r.pos + t.width)
    (htokens : ∀ x ∈ r'.tokens, Apart s x.off ∧ x.str = tokenAt s x.off)
    (hlines : ∀ x ∈ r'.lines, Apart s x.off ∧ x.str = (lineAt s x.off).dropLast)
    (hclosed : ∀ y ∈ r'.headers, y.closed = true ↔ lineAt s y.value.off ≠ []) :
    Placed s r' rest where
  pos_le := hpos ▸ token_le ht
  rest := fun _ => hpos ▸ rest_token ht
  apart := .inr (hpos ▸ apart_behind ht hdelim)
  tokens := htokens
  lines := hlines
  closed := hclosed

/-- After an error nothing is read. -/
theorem Placed.fail (h : Placed s r l) (l' : List UInt8) : Placed s r.fail l' :=
  { h with rest := fun hlive => by cases hlive }

theorem ident_delim {ws : UInt8 → Bool} (h : token ws reqIdent l = some (t, rest)) :
    reqIdent t.delim = false := (token_kinds h).2

theorem delim_of_isNot {ws : UInt8 → Bool} {c : UInt8}
    (h : token ws (isNot c) l = some (t, rest)) : t.delim = c := by
  simpa [isNot] using (token_kinds h).2

/-- A token of identifier characters is in its place. -/
theorem Placed.text (h : Placed s r l) {ws : UInt8 → Bool}
    (hws : ∀ c, ws c = true → reqIdent c = false) (hparsing : r.parsing ≠ 0)
    (ht : token ws reqIdent (s.drop r.pos) = some (t, rest)) :
    Apart s (r.text t).off ∧ (r.text t).str = tokenAt s (r.text t).off :=
  ⟨(h.apart.resolve_left hparsing).blanks ht hws, (takeWhile_token ht).symm⟩

theorem Placed.readUri (h : Placed s r (s.drop r.pos)) (hparsing : r.parsing = 1)
    (hread : r.readUri (s.drop r.pos) = some (r', l')) : Placed s r' l' := by
  obtain ⟨⟨t, rest⟩, ht, hr⟩ := Option.map_eq_some_iff.mp hread
  cases hr
  simp only [id]
  split
  · exact h.fail rest
  · have htext := h.text (fun _ => not_ident_of_isWs) (by rw [hparsing]; decide) ht
    refine .behind ht (ident_delim ht) rfl ?_ h.lines h.closed
    intro x hx
    rcases mem_tokens.mp hx with huri | hparam
    · cases huri
      exact htext
    · exact h.tokens x (mem_tokens.mpr (.inr hparam))

theorem Placed.readParam (h : Placed s r (s.drop r.pos)) (hparsing : r.parsing = 2)
    (hread : r.readParam (s.drop r.pos) = some (r', l')) : Placed s r' l' := by
  obtain ⟨⟨t, rest⟩, ht, hr⟩ := Option.map_eq_some_iff.mp hread
  cases hr
  simp only [id]
  split
  · exact h.fail rest
  · have htext := h.text (fun _ hc => by cases hc) (by rw [hparsing]; decide) ht
    refine .behind ht (ident_delim ht) rfl ?_ h.lines h.closed
    intro x hx
    rcases mem_tokens.mp hx with huri | ⟨param, hparam, hx⟩
    · exact h.tokens x (mem_tokens.mpr (.inl huri))
    · rcases List.mem_append.mp hparam with hold | hnew
      · exact h.tokens x (mem_tokens.mpr (.inr ⟨param, hold, hx⟩))
      · cases List.mem_singleton.mp hnew
        rcases hx with rfl | hvalue
        · exact htext
        · cases hvalue

theorem Placed.readValue (h : Placed s r (s.drop r.pos)) (hparsing : r.parsing = 3)
    (hread : r.readValue (s.drop r.pos) = some (r', l')) : Placed s r' l' := by
  obtain ⟨⟨t, rest⟩, ht, hr⟩ := Option.map_eq_some_iff.mp hread
  cases hr
  simp only [id]
  split
  · exact h.fail rest
  · have htext := h.text (fun _ hc => by cases hc) (by rw [hparsing]; decide) ht
    refine .behind ht (ident_delim ht) rfl ?_ h.lines h.closed
    intro x hx
    rcases mem_tokens.mp hx with huri | ⟨param, hparam, hx⟩
    · exact h.tokens x (mem_tokens.mpr (.inl huri))
    · obtain ⟨old, hold, rfl | rfl⟩ := Reading.mem_giveValue hparam
      · exact h.tokens x (mem_tokens.mpr (.inr ⟨param, hold, hx⟩))
      · rcases hx with rfl | hvalue
        · exact h.tokens _ (mem_tokens.mpr (.inr ⟨old, hold, .inl rfl⟩))
        · cases hvalue
          exact htext

/-- What is read of a line is in its place. -/
theorem apart_line {ws : UInt8 → Bool} {n : Nat} (hn : Apart s n)
    (hws : ∀ c, ws c = true → reqIdent c = false)
    (ht : token ws (isNot '\n'.toUInt8) (s.drop n) = some (t, rest)) :
    Apart s (n + t.blanks) ∧ t.str = lineAt s (n + t.blanks) :=
  ⟨hn.blanks ht hws, (takeWhile_token ht).symm⟩

theorem Placed.readVersion (h : Placed s r (s.drop r.pos)) (hparsing : r.parsing = 4)
    (hread : r.readVersion (s.drop r.pos) = some (r', l')) : Placed s r' l' := by
  obtain ⟨⟨t, rest⟩, ht, hr⟩ := Option.map_eq_some_iff.mp hread
  cases hr
  have hapart : Apart s r.pos := h.apart.resolve_left (by rw [hparsing]; decide)
  obtain ⟨hbegins, hline⟩ := apart_line hapart (fun _ => not_ident_of_isWs) ht
  refine .behind ht (by rw [delim_of_isNot ht]; decide) rfl h.tokens ?_ h.closed
  intro x hx
  rcases mem_lines.mp hx with hver | hheader
  · cases hver
    exact ⟨hbegins, congrArg List.dropLast hline⟩
  · exact h.lines x (mem_lines.mpr (.inr hheader))

theorem Placed.readHeader (h : Placed s r (s.drop r.pos))
    (hread : r.readHeader (s.drop r.pos) = some (r', l')) : Placed s r' l' := by
  obtain ⟨c, -, -, rfl⟩ | ⟨name, rest, -, hname, hvalue⟩ := Reading.readHeader_cases hread
  · exact { h with rest := fun hlive => by cases hlive }
  split at hvalue
  next =>
    cases hvalue
    exact h.fail l'
  next hcolon =>
    obtain ⟨⟨value, rest'⟩, htoken, hr⟩ := Option.map_eq_some_iff.mp hvalue
    cases hr
    have hdelim : name.delim = ':'.toUInt8 := not_not.mp hcolon
    have hapart := apart_behind hname (by rw [hdelim]; decide)
    rw [rest_token hname] at htoken
    obtain ⟨hbegins, hline⟩ := apart_line hapart (fun _ => not_ident_of_isWsInLine) htoken
    constructor
    · exact token_le htoken
    · exact fun _ => rest_token htoken
    · exact .inr (apart_behind htoken (by rw [delim_of_isNot htoken]; decide))
    · exact h.tokens
    · intro x hx
      rcases mem_lines.mp hx with hver | ⟨y, hy, rfl⟩
      · exact h.lines x (mem_lines.mpr (.inl hver))
      · cases hy with
        | head => exact ⟨hbegins, congrArg List.dropLast hline⟩
        | tail _ hold => exact h.lines _ (mem_lines.mpr (.inr ⟨y, hold, rfl⟩))
    · intro y hy
      cases hy with
      | head => exact decide_eq_true_iff.trans (not_congr (Eq.congr_left hline))
      | tail _ hold => exact h.closed y hold

/-- A step leaves everything in its place. -/
theorem Placed.step (h : Placed s r l) (hstep : r.step l = some (r', l')) : Placed s r' l' := by
  obtain ⟨hlive, -, hread⟩ := Reading.step_eq_some.mp hstep
  cases h.rest hlive
  unfold Reading.read at hread
  split at hread
  next =>
    obtain ⟨⟨t, rest⟩, ht, hr⟩ := Option.map_eq_some_iff.mp hread
    cases hr
    exact .behind ht (by rw [delim_of_isNot ht]; decide) rfl h.tokens h.lines h.closed
  next hparsing => exact h.readUri hparsing hread
  next hparsing => exact h.readParam hparsing hread
  next hparsing => exact h.readValue hparsing hread
  next hparsing => exact h.readVersion hparsing hread
  next => exact h.readHeader hread
  next =>
    cases hread
    exact h.fail _

theorem placed_of_steps (h : requestReader.Steps (.start, s) (r, l)) : Placed s r l := by
  suffices hplaced : ∀ y, requestReader.Steps (.start, s) y → Placed s y.1 y.2 from hplaced _ h
  intro y hy
  induction hy with
  | refl => exact placed_start s
  | tail _ hstep ih => exact ih.step hstep

end Reader

/-! ## What the pointers of a request point to -/

/-- The pointers to tokens. -/
def HttpReq.tokens (req : HttpReq) : List (Option Nat) := req.uri :: (req.params ++ req.values)

/-- The pointers to lines. -/
def HttpReq.lines (req : HttpReq) : List (Option Nat) :=
  [req.ver, req.host, req.userAgent, req.mime, req.accept, req.acceptLang, req.acceptEnc,
    req.cookie]

/-- The headers a request points to. -/
def Field.isString : Field → Bool
  | .contLen | .connType | .keepAlive => false
  | _ => true

/-- A string with a zero behind it, before the place where the next push reads on. -/
def PushState.StringAt (t : PushState) (q : Nat) (str : List UInt8) : Prop :=
  HoldsAt t.mem q str ∧ q + str.length < t.rb.pos

/-- A push stores within the octets of the buffer, and leaves the size below that of the buffer
or as it was. -/
structure WithinBuffer (t : PushState) : Prop where
  pos_le : t.rb.pos ≤ t.rb.size
  push : ∀ data, ∃ mem rb, httpReqbPush t.mem t.rb data = some (mem, rb) ∧
    checkedHttpReqbPush t.mem t.rb data = some (mem, rb) ∧
      (rb.size < rb.bsize ∨ rb.size = t.rb.size)

/-- What the request points to as a token is the token, with a zero behind it. -/
def TokensStored (t : PushState) : Prop :=
  ∀ q, some q ∈ t.rb.req.tokens → Apart t.input q ∧ t.StringAt q (tokenAt t.input q)

/-- What the request points to as a line is the line without its end, with a zero behind it. -/
def LinesStored (t : PushState) : Prop :=
  ∀ q, some q ∈ t.rb.req.lines →
    Apart t.input q ∧ t.StringAt q (lineContent (lineAt t.input q))

/-- The lines that a request points to have a carriage return before the line feed: that of the
version, and the last one of each header. -/
def EndsCrLf (s : List UInt8) : Prop :=
  ∀ r l, requestReader.Reads (.start, s) (r, l) →
    (∀ x, r.ver = some x → EndsInCr (lineAt s x.off)) ∧
      ∀ f y, f.isString = true → lastOf r.headers f = some y → EndsInCr (lineAt s y.value.off)

section Pointers

variable {s l : List UInt8} {r : Reading} {t : PushState} {v : Nat → Int} {q : Nat}

/-- A pointer to a token. -/
theorem tokens_req (h : some q ∈ (r.req v).tokens) : ∃ x ∈ r.tokens, x.off = q := by
  rcases List.mem_cons.mp h with huri | h
  · obtain ⟨x, hx, rfl⟩ := Option.map_eq_some_iff.mp huri.symm
    exact ⟨x, mem_tokens.mpr (.inl hx), rfl⟩
  · rcases List.mem_append.mp h with hparam | hvalue
    · obtain ⟨i, -, hi⟩ := List.mem_map.mp hparam
      obtain ⟨param, hget, rfl⟩ := Option.map_eq_some_iff.mp hi
      exact ⟨param.name, mem_tokens.mpr (.inr ⟨param, List.mem_of_getElem? hget, .inl rfl⟩), rfl⟩
    · obtain ⟨i, -, hi⟩ := List.mem_map.mp hvalue
      obtain ⟨param, hget, hoff⟩ := Option.bind_eq_some_iff.mp hi
      obtain ⟨x, hx, rfl⟩ := Option.map_eq_some_iff.mp hoff
      exact ⟨x, mem_tokens.mpr (.inr ⟨param, List.mem_of_getElem? hget, .inr hx⟩), rfl⟩

/-- A pointer to a line: of the version, or of a header. -/
theorem lines_req (h : some q ∈ (r.req v).lines) :
    (∃ x, r.ver = some x ∧ x.off = q) ∨
      ∃ f y, f.isString = true ∧ lastOf r.headers f = some y ∧ y.value.off = q := by
  have hfield {f : Field} (hf : f.isString = true)
      (hq : some q = (lastOf r.headers f).map (·.value.off)) :
      ∃ f y, f.isString = true ∧ lastOf r.headers f = some y ∧ y.value.off = q := by
    obtain ⟨y, hy, hoff⟩ := Option.map_eq_some_iff.mp hq.symm
    exact ⟨f, y, hf, hy, hoff⟩
  simp only [HttpReq.lines, List.mem_cons, List.not_mem_nil, or_false] at h
  rcases h with hver | h | h | h | h | h | h | h
  · exact .inl (Option.map_eq_some_iff.mp hver.symm)
  · exact .inr (hfield (f := .host) rfl h)
  · exact .inr (hfield (f := .userAgent) rfl h)
  · exact .inr (hfield (f := .mime) rfl h)
  · exact .inr (hfield (f := .accept) rfl h)
  · exact .inr (hfield (f := .acceptLang) rfl h)
  · exact .inr (hfield (f := .acceptEnc) rfl h)
  · exact .inr (hfield (f := .cookie) rfl h)

theorem mem_texts_of_tokens {x : Text} (h : x ∈ r.tokens) : x ∈ r.texts :=
  Reading.mem_texts.mpr <| (mem_tokens.mp h).imp_right fun hparam => .inr (.inl hparam)

theorem lineContent_of_endsInCr {line : List UInt8} (h : EndsInCr line) :
    lineContent line = line.dropLast := if_pos h

theorem PushInv.within (h : PushInv t) : WithinBuffer t := by
  constructor
  · obtain ⟨hsize, v, r, l, hreads, hrel, -⟩ := h
    have hpos : t.rb.pos = r.pos := hrel.pos
    rw [hpos, hsize]
    exact (placed_of_steps hreads.1).pos_le
  · intro data
    obtain ⟨u, hstep, -, hroom⟩ := h.step data
    obtain ⟨x, hchecked, rfl⟩ := Option.map_eq_some_iff.mp hstep
    exact ⟨x.1, x.2, (h.checkedPush data).symm.trans hchecked, hchecked, hroom⟩

/-- The tokens of what was pushed are stored. -/
theorem PushInv.tokens (h : PushInv t) : TokensStored t := by
  obtain ⟨hsize, v, r, l, hreads, hrel, -⟩ := h
  have hplaced := placed_of_steps hreads.1
  intro q hq
  have hreq : t.rb.req = r.req v := hrel.req
  rw [hreq] at hq
  obtain ⟨x, hx, rfl⟩ := tokens_req hq
  obtain ⟨hapart, hstr⟩ := hplaced.tokens x hx
  obtain ⟨hholds, hlt⟩ := hrel.texts x (mem_texts_of_tokens hx)
  rw [← hstr]
  exact ⟨hapart, hholds, hlt.trans_eq hrel.pos.symm⟩

/-- The lines of what was pushed are stored if they end with a carriage return and a line
feed. -/
theorem PushInv.lines (h : PushInv t) (hcrlf : EndsCrLf t.input) : LinesStored t := by
  obtain ⟨hsize, v, r, l, hreads, hrel, -⟩ := h
  have hplaced := placed_of_steps hreads.1
  have hstored {x : Text} (hx : x ∈ r.lines) (htext : x ∈ r.texts)
      (hcr : EndsInCr (lineAt t.input x.off)) :
      Apart t.input x.off ∧ t.StringAt x.off (lineContent (lineAt t.input x.off)) := by
    obtain ⟨hapart, hstr⟩ := hplaced.lines x hx
    obtain ⟨hholds, hlt⟩ := hrel.texts x htext
    rw [lineContent_of_endsInCr hcr, ← hstr]
    exact ⟨hapart, hholds, hlt.trans_eq hrel.pos.symm⟩
  obtain ⟨hver, hheaders⟩ := hcrlf r l hreads
  intro q hq
  have hreq : t.rb.req = r.req v := hrel.req
  rw [hreq] at hq
  rcases lines_req hq with ⟨x, hx, rfl⟩ | ⟨f, y, hf, hy, rfl⟩
  · exact hstored (mem_lines.mpr (.inl hx)) (Reading.mem_texts.mpr (.inr (.inl hx))) (hver x hx)
  · have hmem := List.mem_of_find?_eq_some hy
    have hcr := hheaders f y hf hy
    have hclosed : y.closed = true := (hplaced.closed y hmem).mpr fun hnil => by
      rw [hnil] at hcr
      cases hcr
    exact hstored (mem_lines.mpr (.inr ⟨y, hmem, rfl⟩))
      (Reading.mem_texts.mpr (.inr (.inr (.inr ⟨y, hmem, hclosed, rfl⟩)))) hcr

/-- Whatever is pushed into a buffer of any size, the stores are within the buffer, and every
string the request points to is stored, the lines if they end with a carriage return and a line
feed. -/
theorem strings_of_pushes (mem : Mem) (bsize : Nat) (hb : bsize < 2147483648)
    (pieces : List (List UInt8)) :
    ∃ t, pushMachine.run (.start mem bsize hb) pieces = some t ∧ WithinBuffer t ∧
      TokensStored t ∧ (EndsCrLf t.input → LinesStored t) := by
  obtain ⟨t, hrun, ht⟩ := run_pushes mem hb pieces
  exact ⟨t, hrun, ht.within, ht.tokens, ht.lines⟩

/-- `GET / 1`, and a host, with a carriage return before each line feed. -/
def hostRequest : List UInt8 :=
  ascii ['G', 'E', 'T', ' ', '/', ' ', '1', '\r', '\n'] ++ hostName ++
    ascii [':', ' ', 'c', '\r', '\n', '\r', '\n']

theorem strings_of_host :
    ∃ t, pushMachine.run (.start Mem.zero 64 (by decide)) [hostRequest] = some t ∧
      WithinBuffer t ∧ TokensStored t ∧ LinesStored t := by
  obtain ⟨t, hrun, hwithin, htokens, hlines⟩ :=
    strings_of_pushes Mem.zero 64 (by decide) [hostRequest]
  refine ⟨t, hrun, hwithin, htokens, hlines ?_⟩
  have hinput : (pushMachine.run (.start Mem.zero 64 (by decide)) [hostRequest]).map
      PushState.input = some hostRequest := by decide +kernel
  rw [hrun] at hinput
  rw [Option.some.inj hinput]
  have hreads : requestReader.Reads (.start, hostRequest)
      (requestReader.run 6 (.start, hostRequest)) := Reader.reads_run (by decide +kernel)
  have hends : ∀ x ∈ (requestReader.run 6 (.start, hostRequest)).1.lines,
      EndsInCr (lineAt hostRequest x.off) := by decide +kernel
  intro r l hr
  rw [← hr.unique hreads] at hends
  exact ⟨fun x hx => hends x (mem_lines.mpr (.inl hx)), fun f y _ hy =>
    hends _ (mem_lines.mpr (.inr ⟨y, List.mem_of_find?_eq_some hy, rfl⟩))⟩

/-- `GET / 1`, and an empty host that only a line feed ends. -/
def bareRequest : List UInt8 :=
  ascii ['G', 'E', 'T', ' ', '/', ' ', '1', '\r', '\n'] ++ hostName ++ ascii [':', '\n']

theorem not_strings_of_bare :
    ¬ ∀ (mem : Mem) (bsize : Nat) (hb : bsize < 2147483648) (pieces : List (List UInt8)),
      ∃ t, pushMachine.run (.start mem bsize hb) pieces = some t ∧ WithinBuffer t ∧
        TokensStored t ∧ LinesStored t := by
  intro h
  obtain ⟨t, hrun, -, -, hlines⟩ := h Mem.zero 64 (by decide) [bareRequest]
  have hbare : (pushMachine.run (.start Mem.zero 64 (by decide)) [bareRequest]).map
      (fun t => (t.rb.req.host, t.rb.pos, t.mem 14)) = some (some 14, 15, '\n'.toUInt8) := by
    decide +kernel
  rw [hrun] at hbare
  obtain ⟨hhost, hrest⟩ := Prod.mk.inj (Option.some.inj hbare)
  obtain ⟨hpos, hoctet⟩ := Prod.mk.inj hrest
  obtain ⟨-, hholds, hlt⟩ := hlines 14 (by simp [HttpReq.lines, hhost])
  -- The host is at the line feed, the last octet that was read.
  have hempty : lineContent (lineAt t.input 14) = [] := List.length_eq_zero_iff.mp (by omega)
  rw [hempty] at hholds
  rw [(List.cons.inj hholds).1] at hoctet
  cases hoctet

end Pointers

end Adhoc
