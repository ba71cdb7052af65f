import Adhoc.Http.Strings

/-!
# The parameters of a query

`queryParams` says what the parameters of a query string are: its pieces between
ampersands, and of a piece what stands before and behind the first equals sign.
`InQuery` keeps that the request reader reads these, some of the values missing.

The reader counts a parameter when its name ends, and so does `http_reqb_push`, also
when the arrays of the request are full.  So the count is one of parameters in the
arrays exactly if no more names end than the arrays have entries
(`params_of_pushes`).
-/

namespace Adhoc

open ByteMem Scanner Incremental EventMachine

/-! ## Query strings -/

/-- The parameter that a piece of a query string is. -/
def paramOf (off : Nat) (piece : List UInt8) : Param where
  name := ⟨off, piece.takeWhile (isNot '='.toUInt8)⟩
  value :=
    match piece.dropWhile (isNot '='.toUInt8) with
    | [] => none
    | _ :: value => some ⟨off + (piece.takeWhile (isNot '='.toUInt8)).length + 1, value⟩

/-- The parameters that pieces are, with an octet between them. -/
def paramsOf : Nat → List (List UInt8) → List Param
  | _, [] => []
  | off, piece :: pieces => paramOf off piece :: paramsOf (off + piece.length + 1) pieces

/-- The parameters of a query string. -/
def queryParams (off : Nat) (query : List UInt8) : List Param :=
  paramsOf off (query.splitOn '&'.toUInt8)

/-- A query up to the blank that ends it. -/
def queryString (l : List UInt8) : List UInt8 := l.takeWhile (isNot ' '.toUInt8)

/-- Where the query of a request begins, and the octets from there on. -/
def queryOf (s : List UInt8) : Option (Nat × List UInt8) :=
  (token isWs (isNot ' '.toUInt8) s).bind fun (method, rest) =>
    (token isWs reqIdent rest).bind fun (uri, rest) =>
      if uri.delim = '?'.toUInt8 then some (method.width + uri.width, rest) else none

/-- The parameters of the query of a request. -/
def paramsIn (s : List UInt8) : List Param :=
  (queryOf s).elim [] fun (off, l) => queryParams off (queryString l)

/-- How many names of parameters come to their end.  A character that may not be where it is ends
the query. -/
def countNames : Bool → List UInt8 → Nat
  | _, [] => 0
  | inValue, c :: l =>
      if reqIdent c then countNames inValue l
      else if inValue then if c = '&'.toUInt8 then countNames false l else 0
      else if c = '&'.toUInt8 then countNames false l + 1
      else if c = '='.toUInt8 then countNames true l + 1
      else if c = ' '.toUInt8 then 1
      else 0

/-- How many names of parameters come to their end in a request. -/
def paramCount (s : List UInt8) : Nat := (queryOf s).elim 0 fun (_, l) => countNames false l

section Pieces

variable {off : Nat} {str query piece : List UInt8} {pieces : List (List UInt8)}

theorem ident_ne {c : UInt8} (hc : reqIdent c = true) :
    c ≠ '&'.toUInt8 ∧ c ≠ '='.toUInt8 ∧ c ≠ ' '.toUInt8 :=
  forall_octet (P := fun c => reqIdent c = true →
      c ≠ '&'.toUInt8 ∧ c ≠ '='.toUInt8 ∧ c ≠ ' '.toUInt8) (by decide +kernel) c hc

theorem IsIdent.amp_notMem (h : IsIdent str) : '&'.toUInt8 ∉ str :=
  fun hmem => (ident_ne (h _ hmem)).1 rfl

theorem IsIdent.isNot_eq (h : IsIdent str) : ∀ c ∈ str, isNot '='.toUInt8 c = true :=
  fun c hc => decide_eq_true (ident_ne (h c hc)).2.1

theorem IsIdent.isNot_blank (h : IsIdent str) : ∀ c ∈ str, isNot ' '.toUInt8 c = true :=
  fun c hc => decide_eq_true (ident_ne (h c hc)).2.2

/-- A name without a value. -/
theorem paramOf_name (h : IsIdent str) : paramOf off str = ⟨⟨off, str⟩, none⟩ := by
  rw [paramOf, List.takeWhile_eq_self_iff.mpr h.isNot_eq,
    List.dropWhile_eq_nil_iff.mpr h.isNot_eq]

/-- A name and its value. -/
theorem paramOf_value (h : IsIdent str) :
    paramOf off (str ++ '='.toUInt8 :: piece) =
      ⟨⟨off, str⟩, some ⟨off + str.length + 1, piece⟩⟩ := by
  obtain ⟨htake, hdrop⟩ := span_mk (c := '='.toUInt8) h.isNot_eq (by decide) piece
  rw [paramOf, htake, hdrop]

/-- A piece that ends with an ampersand. -/
theorem queryParams_amp (h : '&'.toUInt8 ∉ piece) :
    queryParams off (piece ++ '&'.toUInt8 :: query) =
      paramOf off piece :: queryParams (off + piece.length + 1) query := by
  rw [queryParams, List.splitOn_append_cons_self_of_not_mem h]
  rfl

/-- The last piece. -/
theorem queryParams_last (h : '&'.toUInt8 ∉ piece) :
    queryParams off piece = [paramOf off piece] := by
  rw [queryParams, List.splitOn_eq_singleton h]
  rfl

/-- Characters without an ampersand belong to the first piece. -/
theorem splitOn_append (h : '&'.toUInt8 ∉ str)
    (hpieces : query.splitOn '&'.toUInt8 = piece :: pieces) :
    (str ++ query).splitOn '&'.toUInt8 = (str ++ piece) :: pieces := by
  induction str with
  | nil => exact hpieces
  | cons c str ih =>
      rw [List.mem_cons, not_or] at h
      rw [List.cons_append, List.splitOn_cons_eq_if_modifyHead, ih h.2,
        if_neg (by simpa using Ne.symm h.1)]
      rfl

/-- A name, and the value in front of the other pieces. -/
theorem queryParams_eq (h : IsIdent str) (hpieces : query.splitOn '&'.toUInt8 = piece :: pieces) :
    queryParams off (str ++ '='.toUInt8 :: query) =
      ⟨⟨off, str⟩, some ⟨off + str.length + 1, piece⟩⟩ ::
        paramsOf (off + str.length + 1 + piece.length + 1) pieces := by
  have hamp : '&'.toUInt8 ∉ str ++ ['='.toUInt8] := by
    rw [List.mem_append, not_or]
    exact ⟨h.amp_notMem, by decide⟩
  have hsplit := splitOn_append hamp hpieces
  rw [List.append_assoc, List.append_assoc] at hsplit
  have hlen : (str ++ '='.toUInt8 :: piece).length = str.length + 1 + piece.length := by
    rw [List.length_append, List.length_cons]
    omega
  rw [queryParams, List.singleton_append.symm, hsplit, paramsOf, List.singleton_append,
    paramOf_value h, hlen, ← Nat.add_assoc, ← Nat.add_assoc]

/-- A query string up to a character that does not end it. -/
theorem queryString_append (h : IsIdent str) {c : UInt8} (hc : c ≠ ' '.toUInt8)
    (l : List UInt8) : queryString (str ++ c :: l) = str ++ c :: queryString l := by
  have hkeep : isNot ' '.toUInt8 c = true := decide_eq_true hc
  rw [queryString, List.takeWhile_append_of_pos h.isNot_blank, List.takeWhile_cons_of_pos hkeep]
  rfl

theorem queryString_blank (h : IsIdent str) (l : List UInt8) :
    queryString (str ++ ' '.toUInt8 :: l) = str :=
  (span_mk h.isNot_blank (by decide) l).1

/-- Names do not end at characters of identifiers. -/
theorem countNames_append (h : IsIdent str) (inValue : Bool) (l : List UInt8) :
    countNames inValue (str ++ l) = countNames inValue l := by
  induction str with
  | nil => rfl
  | cons c str ih =>
      rw [List.cons_append, countNames, if_pos (h c (.head _))]
      exact ih fun a ha => h a (.tail _ ha)

theorem countNames_ident (h : IsIdent str) (inValue : Bool) : countNames inValue str = 0 := by
  have hcount := countNames_append h inValue []
  rw [List.append_nil] at hcount
  exact hcount

theorem countNames_amp (l : List UInt8) :
    countNames false ('&'.toUInt8 :: l) = countNames false l + 1 := rfl

theorem countNames_eq (l : List UInt8) :
    countNames false ('='.toUInt8 :: l) = countNames true l + 1 := rfl

theorem countNames_blank (l : List UInt8) : countNames false (' '.toUInt8 :: l) = 1 := rfl

theorem countNames_of_ne {c : UInt8} (hc : reqIdent c = false) (hamp : c ≠ '&'.toUInt8)
    (heq : c ≠ '='.toUInt8) (hblank : c ≠ ' '.toUInt8) (l : List UInt8) :
    countNames false (c :: l) = 0 := by
  simp [countNames, hc, hamp, heq, hblank]

theorem countNames_value_amp (l : List UInt8) :
    countNames true ('&'.toUInt8 :: l) = countNames false l := rfl

theorem countNames_value_of_ne {c : UInt8} (hc : reqIdent c = false) (hamp : c ≠ '&'.toUInt8)
    (l : List UInt8) : countNames true (c :: l) = 0 := by
  simp [countNames, hc, hamp]

end Pieces

/-! ## Reading a query -/

/-- Parameters that were read agree with those of a query: the names are the same, and a value is
the same or was not read. -/
inductive ParamsAgree : List Param → List Param → Prop where
  | nil {given} : ParamsAgree [] given
  | cons {x y read given} : x.name = y.name → x.value = none ∨ x.value = y.value →
      ParamsAgree read given → ParamsAgree (x :: read) (y :: given)

section ParamsAgree

variable {read given : List Param} {x y : Param}

theorem paramsAgree_append (read rest : List Param) : ParamsAgree read (read ++ rest) := by
  induction read with
  | nil => exact .nil
  | cons x read ih => exact .cons rfl (.inr rfl) ih

theorem paramsAgree_refl (read : List Param) : ParamsAgree read read := by
  simpa using paramsAgree_append read []

/-- The value of the last parameter was not read. -/
theorem paramsAgree_concat (read : List Param) {x y : Param} (rest : List Param)
    (hname : x.name = y.name) (hvalue : x.value = none) :
    ParamsAgree (read ++ [x]) (read ++ y :: rest) := by
  induction read with
  | nil => exact .cons hname (.inl hvalue) .nil
  | cons z read ih => exact .cons rfl (.inr rfl) ih

theorem ParamsAgree.get (h : ParamsAgree read given) {i : Nat} (hx : read[i]? = some x) :
    ∃ y, given[i]? = some y ∧ x.name = y.name ∧ (x.value = none ∨ x.value = y.value) := by
  induction h generalizing i with
  | nil => cases hx
  | @cons _ y _ _ hname hvalue _ ih =>
      cases i with
      | zero =>
          cases hx
          exact ⟨y, rfl, hname, hvalue⟩
      | succ i => exact ih hx

end ParamsAgree

/-- The reader is somewhere in a request, with `l` to come, and has read the parameters of the
query up to there. -/
inductive InQuery (s : List UInt8) (r : Reading) (l : List UInt8) : Prop where
  | method : r.state = .unfinished → r.parsing = 0 → r.pos = 0 → l = s → r.params = [] →
      InQuery s r l
  | uri {method : Token} : r.state = .unfinished → r.parsing = 1 → r.pos = method.width →
      token isWs (isNot ' '.toUInt8) s = some (method, l) → r.params = [] → InQuery s r l
  | name : r.state = .unfinished → r.parsing = 2 →
      paramsIn s = r.params ++ queryParams r.pos (queryString l) →
        paramCount s = r.params.length + countNames false l → InQuery s r l
  | value {params : List Param} {name : Text} {piece : List UInt8}
      {pieces : List (List UInt8)} : r.state = .unfinished → r.parsing = 3 →
      r.params = params ++ [⟨name, none⟩] →
        (queryString l).splitOn '&'.toUInt8 = piece :: pieces →
          paramsIn s = params ++
            ⟨name, some ⟨r.pos, piece⟩⟩ :: paramsOf (r.pos + piece.length + 1) pieces →
            paramCount s = r.params.length + countNames true l → InQuery s r l
  /-- The query is over, or the request is. -/
  | behind : (r.state = .unfinished → 4 ≤ r.parsing) → ParamsAgree r.params (paramsIn s) →
      paramCount s = r.params.length → InQuery s r l

section Reader

variable {s l l' rest : List UInt8} {r r' : Reading} {t : Token}

/-- Where a token without blanks before it is. -/
theorem token_noWs {p : UInt8 → Bool} (h : token noWs p l = some (t, rest)) :
    l = t.str ++ t.delim :: rest ∧ t.blanks = 0 := by
  obtain ⟨hlen, hstr, -⟩ := token_eq_some h
  rw [dropWhile_noWs] at hlen hstr
  exact ⟨hstr, by omega⟩

theorem paramState_cases (c : UInt8) :
    (c = '&'.toUInt8 ∧ paramState c = 2) ∨ (c = '='.toUInt8 ∧ paramState c = 3) ∨
      (c = ' '.toUInt8 ∧ paramState c = 4) ∨
        (c ≠ '&'.toUInt8 ∧ c ≠ '='.toUInt8 ∧ c ≠ ' '.toUInt8 ∧ paramState c = 12) := by
  rw [paramState]
  split
  next hamp => exact .inl ⟨hamp, rfl⟩
  next hamp =>
    split
    next heq => exact .inr (.inl ⟨heq, rfl⟩)
    next heq =>
      split
      next hblank => exact .inr (.inr (.inl ⟨hblank, rfl⟩))
      next hblank => exact .inr (.inr (.inr ⟨hamp, heq, hblank, rfl⟩))

theorem valueState_cases (c : UInt8) :
    (c = '&'.toUInt8 ∧ valueState c = 2) ∨ (c = ' '.toUInt8 ∧ valueState c = 4) ∨
      (c ≠ '&'.toUInt8 ∧ valueState c = 13) := by
  rw [valueState]
  split
  next hamp => exact .inl ⟨hamp, rfl⟩
  next hamp =>
    split
    next hblank => exact .inr (.inl ⟨hblank, rfl⟩)
    next => exact .inr (.inr ⟨hamp, rfl⟩)

theorem uriState_cases (c : UInt8) :
    (c = '?'.toUInt8 ∧ uriState c = 2) ∨ (c ≠ '?'.toUInt8 ∧ uriState c = 4) ∨
      (c ≠ '?'.toUInt8 ∧ uriState c = 11) := by
  rw [uriState]
  split
  next hmark => exact .inl ⟨hmark, rfl⟩
  next hmark =>
    split
    next => exact .inr (.inl ⟨hmark, rfl⟩)
    next => exact .inr (.inr ⟨hmark, rfl⟩)

/-- A request without a query. -/
theorem InQuery.of_none (hquery : queryOf s = none) (hparams : r.params = [])
    (hlive : r.state = .unfinished → 4 ≤ r.parsing) : InQuery s r l := by
  refine .behind hlive ?_ ?_
  · rw [hparams]
    exact .nil
  · rw [paramCount, hquery, hparams]
    rfl

/-- Behind the URI. -/
theorem InQuery.readUri {method : Token} (hlive : r.state = .unfinished)
    (hpos : r.pos = method.width) (hmethod : token isWs (isNot ' '.toUInt8) s = some (method, l))
    (hparams : r.params = []) (hread : r.readUri l = some (r', l')) : InQuery s r' l' := by
  obtain ⟨⟨uri, rest⟩, ht, hr⟩ := Option.map_eq_some_iff.mp hread
  cases hr
  have hquery : queryOf s =
      if uri.delim = '?'.toUInt8 then some (method.width + uri.width, rest) else none := by
    simp only [queryOf, hmethod, ht, Option.bind_some]
  obtain ⟨hdelim, hstate⟩ | ⟨hdelim, hstate⟩ | ⟨hdelim, hstate⟩ := uriState_cases uri.delim
  · rw [if_pos hdelim] at hquery
    simp only [hstate, id]
    refine .name hlive rfl ?_ ?_
    · show paramsIn s = r.params ++ queryParams (r.pos + uri.width) (queryString rest)
      rw [paramsIn, hquery, hparams, hpos]
      rfl
    · show paramCount s = r.params.length + countNames false rest
      rw [paramCount, hquery, hparams]
      exact (Nat.zero_add _).symm
  · rw [if_neg hdelim] at hquery
    simp only [hstate, id]
    exact .of_none hquery hparams fun _ => Nat.le_refl 4
  · rw [if_neg hdelim] at hquery
    simp only [hstate, id]
    exact .of_none hquery hparams fun hfail => by cases hfail

/-- Behind a name. -/
theorem InQuery.readParam (hlive : r.state = .unfinished)
    (hgiven : paramsIn s = r.params ++ queryParams r.pos (queryString l))
    (hcount : paramCount s = r.params.length + countNames false l)
    (hread : r.readParam l = some (r', l')) : InQuery s r' l' := by
  obtain ⟨⟨⟨blanks, str, delim⟩, rest⟩, ht, hr⟩ := Option.map_eq_some_iff.mp hread
  cases hr
  have hident : IsIdent str := (token_kinds ht).1
  have hdelim : reqIdent delim = false := (token_kinds ht).2
  obtain ⟨rfl, hblanks⟩ := token_noWs ht
  cases hblanks
  rw [countNames_append hident] at hcount
  obtain ⟨rfl, hstate⟩ | ⟨rfl, hstate⟩ | ⟨rfl, hstate⟩ | ⟨hamp, heq, hblank, hstate⟩ :=
    paramState_cases delim
  · have hkeep : '&'.toUInt8 ≠ ' '.toUInt8 := by decide
    rw [queryString_append hident hkeep, queryParams_amp hident.amp_notMem,
      paramOf_name hident] at hgiven
    rw [countNames_amp] at hcount
    simp only [hstate, id]
    refine .name hlive rfl ?_ ?_
    · rw [hgiven]
      simp [Reading.behind, Reading.text, Token.width, Nat.add_assoc]
    · rw [hcount]
      simp [Reading.behind, Nat.add_comm, Nat.add_left_comm]
  · have hkeep : '='.toUInt8 ≠ ' '.toUInt8 := by decide
    obtain ⟨piece, pieces, hpieces⟩ :=
      List.exists_cons_of_ne_nil (List.splitOn_ne_nil '&'.toUInt8 (queryString rest))
    rw [queryString_append hident hkeep, queryParams_eq hident hpieces] at hgiven
    rw [countNames_eq] at hcount
    simp only [hstate, id]
    refine .value hlive rfl rfl hpieces ?_ ?_
    · rw [hgiven]
      simp [Reading.behind, Reading.text, Token.width, Nat.add_assoc]
    · rw [hcount]
      simp [Reading.behind, Nat.add_comm, Nat.add_left_comm]
  · rw [queryString_blank hident, queryParams_last hident.amp_notMem, paramOf_name hident] at hgiven
    rw [countNames_blank] at hcount
    simp only [hstate, id]
    refine .behind (fun _ => Nat.le_refl 4) ?_ ?_
    · rw [hgiven]
      exact paramsAgree_refl _
    · rw [hcount]
      simp [Reading.behind]
  · rw [countNames_of_ne hdelim hamp heq hblank] at hcount
    simp only [hstate, id]
    refine .behind (fun hfail => by cases hfail) ?_ hcount
    rw [hgiven]
    exact paramsAgree_append _ _

/-- Behind a value. -/
theorem InQuery.readValue {params : List Param} {name : Text} {piece : List UInt8}
    {pieces : List (List UInt8)} (hlive : r.state = .unfinished)
    (hparams : r.params = params ++ [⟨name, none⟩])
    (hpieces : (queryString l).splitOn '&'.toUInt8 = piece :: pieces)
    (hgiven : paramsIn s = params ++
      ⟨name, some ⟨r.pos, piece⟩⟩ :: paramsOf (r.pos + piece.length + 1) pieces)
    (hcount : paramCount s = r.params.length + countNames true l)
    (hread : r.readValue l = some (r', l')) : InQuery s r' l' := by
  obtain ⟨⟨⟨blanks, str, delim⟩, rest⟩, ht, hr⟩ := Option.map_eq_some_iff.mp hread
  cases hr
  have hident : IsIdent str := (token_kinds ht).1
  have hdelim : reqIdent delim = false := (token_kinds ht).2
  obtain ⟨rfl, hblanks⟩ := token_noWs ht
  cases hblanks
  rw [countNames_append hident] at hcount
  have hlen (x : Text) : (Reading.giveValue r.params x).length = r.params.length :=
    List.length_modify ..
  have hgive (x : Text) : Reading.giveValue r.params x = params ++ [⟨name, some x⟩] := by
    rw [hparams, Reading.giveValue_concat]
  obtain ⟨rfl, hstate⟩ | ⟨rfl, hstate⟩ | ⟨hamp, hstate⟩ := valueState_cases delim
  · have hkeep : '&'.toUInt8 ≠ ' '.toUInt8 := by decide
    rw [queryString_append hident hkeep,
      List.splitOn_append_cons_self_of_not_mem hident.amp_notMem] at hpieces
    obtain ⟨rfl, rfl⟩ := List.cons.inj hpieces
    rw [countNames_value_amp] at hcount
    simp only [hstate, id]
    refine .name hlive rfl ?_ (hcount.trans (congrArg (· + _) (hlen _).symm))
    rw [hgiven]
    simp [Reading.behind, Reading.text, Token.width, hgive, queryParams, Nat.add_assoc]
  · rw [queryString_blank hident, List.splitOn_eq_singleton hident.amp_notMem] at hpieces
    obtain ⟨rfl, rfl⟩ := List.cons.inj hpieces
    simp only [hstate, id]
    refine .behind (fun _ => Nat.le_refl 4) ?_ (hcount.trans (hlen _).symm)
    rw [hgiven]
    simp only [Reading.behind, Reading.text, hgive]
    exact paramsAgree_refl _
  · rw [countNames_value_of_ne hdelim hamp] at hcount
    simp only [hstate, id]
    refine .behind (fun hfail => by cases hfail) ?_ hcount
    rw [hgiven]
    show ParamsAgree r.params _
    rw [hparams]
    exact paramsAgree_concat params _ rfl rfl

/-- Behind the query a step keeps the parameters. -/
theorem params_of_step (hparsing : 4 ≤ r.parsing) (hstep : r.step l = some (r', l')) :
    r'.params = r.params ∧ (r'.state = .unfinished → 4 ≤ r'.parsing) := by
  obtain ⟨-, -, hread⟩ := Reading.step_eq_some.mp hstep
  unfold Reading.read at hread
  split at hread
  next h => omega
  next h => omega
  next h => omega
  next h => omega
  next =>
    obtain ⟨⟨t, rest⟩, -, hr⟩ := Option.map_eq_some_iff.mp hread
    cases hr
    exact ⟨rfl, fun _ => show 4 ≤ 5 by decide⟩
  next =>
    obtain ⟨c, -, -, rfl⟩ | ⟨name, rest, -, -, hvalue⟩ := Reading.readHeader_cases hread
    · exact ⟨rfl, fun _ => hparsing⟩
    · split at hvalue
      next =>
        cases hvalue
        exact ⟨rfl, fun _ => hparsing⟩
      next =>
        obtain ⟨⟨t, rest⟩, -, hr⟩ := Option.map_eq_some_iff.mp hvalue
        cases hr
        exact ⟨rfl, fun _ => hparsing⟩
  next =>
    cases hread
    exact ⟨rfl, fun _ => hparsing⟩

theorem InQuery.step (h : InQuery s r l) (hstep : r.step l = some (r', l')) :
    InQuery s r' l' := by
  obtain ⟨hlive, -, hread⟩ := Reading.step_eq_some.mp hstep
  cases h with
  | method _ hparsing hpos hl hparams =>
      simp only [Reading.read, hparsing] at hread
      obtain ⟨⟨t, rest⟩, ht, hr⟩ := Option.map_eq_some_iff.mp hread
      cases hr
      rw [hl] at ht
      exact .uri hlive rfl ((congrArg (· + t.width) hpos).trans (Nat.zero_add _)) ht hparams
  | uri _ hparsing hpos hmethod hparams =>
      simp only [Reading.read, hparsing] at hread
      exact .readUri hlive hpos hmethod hparams hread
  | name _ hparsing hgiven hcount =>
      simp only [Reading.read, hparsing] at hread
      exact .readParam hlive hgiven hcount hread
  | value _ hparsing hparams hpieces hgiven hcount =>
      simp only [Reading.read, hparsing] at hread
      exact .readValue hlive hparams hpieces hgiven hcount hread
  | behind hparsing hagree hcount =>
      obtain ⟨hparams, hparsing'⟩ := params_of_step (hparsing hlive) hstep
      exact .behind hparsing' (by rw [hparams]; exact hagree) (by rw [hparams]; exact hcount)

theorem inQuery_of_steps (h : requestReader.Steps (.start, s) (r, l)) : InQuery s r l := by
  suffices hquery : ∀ y, requestReader.Steps (.start, s) y → InQuery s y.1 y.2 from hquery _ h
  intro y hy
  induction hy with
  | refl => exact .method rfl rfl rfl rfl rfl
  | tail _ hstep ih => exact ih.step hstep

/-- Where no step can be taken, no token has come. -/
theorem token_of_stopped {ws p : UInt8 → Bool} {f : Token → Reading}
    (hlive : r.state = .unfinished) (hread : ∀ l, r.read l = (token ws p l).map (.map f id))
    (hstop : r.step l = none) : token ws p l = none := by
  cases l with
  | nil => rfl
  | cons c l =>
      rw [Reading.step_of_live hlive (List.cons_ne_nil c l), hread] at hstop
      exact Option.map_eq_none_iff.mp hstop

/-- A name or value that has not come to its end. -/
theorem isIdent_of_none (h : token noWs reqIdent l = none) : IsIdent l := by
  rw [token_eq_none, dropWhile_noWs, List.dropWhile_eq_nil_iff] at h
  exact h

/-- The parameters read are those of the query, and as many as there are names. -/
theorem params_of_reads (h : requestReader.Reads (.start, s) (r, l)) :
    ParamsAgree r.params (paramsIn s) ∧ paramCount s = r.params.length := by
  obtain ⟨hsteps, hstop⟩ := h
  have hnone (hquery : queryOf s = none) (hparams : r.params = []) :
      ParamsAgree r.params (paramsIn s) ∧ paramCount s = r.params.length := by
    rw [hparams, paramCount, hquery]
    exact ⟨.nil, rfl⟩
  cases inQuery_of_steps hsteps with
  | method hlive hparsing hpos hl hparams =>
      have ht := token_of_stopped hlive (fun l => by rw [Reading.read, hparsing]; rfl) hstop
      rw [hl] at ht
      exact hnone (by rw [queryOf, ht]; rfl) hparams
  | uri hlive hparsing hpos hmethod hparams =>
      have ht := token_of_stopped hlive (fun l => by rw [Reading.read, hparsing]; rfl) hstop
      exact hnone (by simp only [queryOf, hmethod, ht, Option.bind_some, Option.bind_none]) hparams
  | name hlive hparsing hgiven hcount =>
      have ht := token_of_stopped hlive (fun l => by rw [Reading.read, hparsing]; rfl) hstop
      rw [countNames_ident (isIdent_of_none ht)] at hcount
      rw [hgiven]
      exact ⟨paramsAgree_append _ _, hcount⟩
  | value hlive hparsing hparams hpieces hgiven hcount =>
      have ht := token_of_stopped hlive (fun l => by rw [Reading.read, hparsing]; rfl) hstop
      rw [countNames_ident (isIdent_of_none ht)] at hcount
      refine ⟨?_, hcount⟩
      rw [hgiven, hparams]
      exact paramsAgree_concat _ _ rfl rfl
  | behind _ hagree hcount => exact ⟨hagree, hcount⟩

end Reader

/-! ## The arrays of a request -/

/-- The parameters that are counted are in the arrays: of each the name, and its value or none. -/
structure ParamsStored (t : PushState) : Prop where
  count : t.rb.req.numParams ≤ httpReqMaxParams
  param : ∀ i < t.rb.req.numParams, ∃ x, (paramsIn t.input)[i]? = some x ∧
    t.rb.req.params[i]? = some (some x.name.off) ∧ HoldsAt t.mem x.name.off x.name.str ∧
      (t.rb.req.values[i]? = some none ∨ ∃ value, x.value = some value ∧
        t.rb.req.values[i]? = some (some value.off) ∧ HoldsAt t.mem value.off value.str)

section Arrays

variable {t : PushState}

theorem params_req {v : Nat → Int} {r : Reading} {i : Nat} (hi : i < httpReqMaxParams) :
    (r.req v).params[i]? = some ((r.params[i]?).map (·.name.off)) :=
  slots_get? (fun i => (r.params[i]?).map fun p : Param => p.name.off) hi

theorem values_req {v : Nat → Int} {r : Reading} {i : Nat} (hi : i < httpReqMaxParams) :
    (r.req v).values[i]? = some ((r.params[i]?).bind (·.value.map Text.off)) :=
  slots_get? (fun i => (r.params[i]?).bind fun p : Param => p.value.map Text.off) hi

/-- The arrays have the parameters exactly if there are enough entries for the names. -/
theorem PushInv.params (h : PushInv t) :
    ParamsStored t ↔ paramCount t.input ≤ httpReqMaxParams := by
  obtain ⟨-, v, r, l, hreads, hrel, -⟩ := h
  obtain ⟨hagree, hcount⟩ := params_of_reads hreads
  have hreq : t.rb.req = r.req v := hrel.req
  have hnum : t.rb.req.numParams = paramCount t.input := by
    rw [hreq, hcount]
    rfl
  constructor
  · intro hstored
    rw [← hnum]
    exact hstored.count
  · intro hfit
    refine ⟨hnum.trans_le hfit, fun i hi => ?_⟩
    have hslot : i < httpReqMaxParams := Nat.lt_of_lt_of_le (hnum ▸ hi) hfit
    have hlt : i < r.params.length := by
      rw [← hcount, ← hnum]
      exact hi
    obtain ⟨y, hy⟩ : ∃ y, r.params[i]? = some y := ⟨_, List.getElem?_eq_getElem hlt⟩
    obtain ⟨x, hx, hname, hvalue⟩ := hagree.get hy
    have hmem := List.mem_of_getElem? hy
    have hholds {text : Text} (htext : y.name = text ∨ y.value = some text) :
        HoldsAt t.mem text.off text.str :=
      (hrel.texts text (mem_texts_of_tokens (mem_tokens.mpr (.inr ⟨y, hmem, htext⟩)))).1
    have hparam : t.rb.req.params[i]? = some (some y.name.off) := by
      rw [hreq, params_req hslot, hy]
      rfl
    have hentry : t.rb.req.values[i]? = some (y.value.map Text.off) := by
      rw [hreq, values_req hslot, hy]
      rfl
    refine ⟨x, hx, hname ▸ hparam, hholds (.inl hname), ?_⟩
    cases hread : y.value with
    | none =>
        rw [hread] at hentry
        exact .inl hentry
    | some value =>
        rw [hread] at hentry hvalue
        exact .inr ⟨value, (hvalue.resolve_left (Option.some_ne_none _)).symm, hentry,
          hholds (.inr hread)⟩

/-- Whatever is pushed into a buffer of any size, the parameters that are counted are those in the
arrays exactly if no more names come to their end than the arrays have entries. -/
theorem params_of_pushes (mem : Mem) (bsize : Nat) (hb : bsize < 2147483648)
    (pieces : List (List UInt8)) :
    ∃ t, pushMachine.run (.start mem bsize hb) pieces = some t ∧
      (ParamsStored t ↔ paramCount t.input ≤ httpReqMaxParams) := by
  obtain ⟨t, hrun, ht⟩ := run_pushes mem hb pieces
  exact ⟨t, hrun, ht.params⟩

/-- `GET /?a=b&c 1`. -/
def queryRequest : List UInt8 :=
  ascii ['G', 'E', 'T', ' ', '/', '?', 'a', '=', 'b', '&', 'c', ' ', '1', '\r', '\n']

theorem params_of_query :
    ∃ t, pushMachine.run (.start Mem.zero 64 (by decide)) [queryRequest] = some t ∧
      ParamsStored t := by
  obtain ⟨t, hrun, hstored⟩ := params_of_pushes Mem.zero 64 (by decide) [queryRequest]
  have hcount : (pushMachine.run (.start Mem.zero 64 (by decide)) [queryRequest]).map
      (fun t => paramCount t.input) = some 2 := by decide +kernel
  rw [hrun] at hcount
  have htwo : paramCount t.input = 2 := Option.some.inj hcount
  refine ⟨t, hrun, hstored.mpr ?_⟩
  rw [htwo]
  decide

/-- A query of `n` empty names. -/
def emptyNames (n : Nat) : List UInt8 :=
  ascii ['G', 'E', 'T', ' ', '/', '?'] ++ List.replicate n '&'.toUInt8

theorem not_params_of_pushes :
    ¬ ∀ (mem : Mem) (bsize : Nat) (hb : bsize < 2147483648) (pieces : List (List UInt8)),
      ∃ t, pushMachine.run (.start mem bsize hb) pieces = some t ∧ ParamsStored t := by
  intro h
  obtain ⟨t, hrun, hcount, -⟩ := h Mem.zero 64 (by decide) [emptyNames (httpReqMaxParams + 1)]
  have hnum : (pushMachine.run (.start Mem.zero 64 (by decide))
      [emptyNames (httpReqMaxParams + 1)]).map (fun t => t.rb.req.numParams) =
        some (httpReqMaxParams + 1) := by decide +kernel
  rw [hrun] at hnum
  have hmore : t.rb.req.numParams = httpReqMaxParams + 1 := Option.some.inj hnum
  rw [hmore] at hcount
  exact absurd hcount (Nat.not_succ_le_self _)

end Arrays

end Adhoc
