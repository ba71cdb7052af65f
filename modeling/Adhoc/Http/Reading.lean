import Mathlib.Data.Bool.AllAny
import Mathlib.Data.List.TakeWhile
import Adhoc.Lib.Incremental
import Adhoc.Http.Request

/-!
# Reading a request

What a request says, read off the list of its octets, with no buffer.  A token is
what a state of `http_reqb_push` reads: blanks, the characters of a kind, and the
first of another.  It is read when that one is there, so a reader of tokens does not
depend on what follows (`token_append`), and `requestReader` is one.

Of a header it keeps whether a zero comes to stand behind the value (`closed`).  None
does where the line ends with a bare line feed and the value is empty: the zero is
stored two octets before the end of the line, on the blank or colon before the value.
-/

namespace Adhoc

open ByteMem Scanner Incremental

/-! ## Tokens -/

/-- A token: how many blanks before it, its characters, and what ended it. -/
structure Token where
  blanks : Nat
  str : List UInt8
  delim : UInt8
deriving DecidableEq

/-- The octets from the blanks to the delimiter. -/
def Token.width (t : Token) : Nat := t.blanks + t.str.length + 1

/-- The token that begins a list, and what is behind it. -/
def token (ws p : UInt8 → Bool) (l : List UInt8) : Option (Token × List UInt8) :=
  match (l.dropWhile ws).dropWhile p with
  | [] => none
  | c :: rest => some (⟨(l.takeWhile ws).length, (l.dropWhile ws).takeWhile p, c⟩, rest)

/-- No blanks. -/
def noWs (_ : UInt8) : Bool := false

/-- Every character but one. -/
def isNot (c a : UInt8) : Bool := a ≠ c

section Token

variable {ws p : UInt8 → Bool} {l rest : List UInt8} {t : Token}

theorem dropWhile_append_of_ne_nil {q : UInt8 → Bool} (h : l.dropWhile q ≠ []) (m : List UInt8) :
    (l ++ m).dropWhile q = l.dropWhile q ++ m := by
  rw [List.dropWhile_append, if_neg (by simpa using h)]

theorem takeWhile_append_of_ne_nil {q : UInt8 → Bool} (h : l.dropWhile q ≠ []) (m : List UInt8) :
    (l ++ m).takeWhile q = l.takeWhile q := by
  rw [List.takeWhile_append, if_neg]
  intro hlen
  apply h
  have := congrArg List.length (List.takeWhile_append_dropWhile (p := q) (l := l))
  rw [List.length_append, hlen] at this
  exact List.length_eq_zero_iff.mp (by omega)

/-- A token does not depend on what comes behind it. -/
theorem token_append (h : token ws p l = some (t, rest)) (m : List UInt8) :
    token ws p (l ++ m) = some (t, rest ++ m) := by
  unfold token at h ⊢
  split at h
  next => cases h
  next c rest' hdrop =>
    cases h
    have hne : (l.dropWhile ws).dropWhile p ≠ [] := by
      rw [hdrop]
      exact List.cons_ne_nil c rest
    have hne' : l.dropWhile ws ≠ [] := by
      intro hnil
      rw [hnil] at hne
      exact hne rfl
    rw [dropWhile_append_of_ne_nil hne' m, dropWhile_append_of_ne_nil hne m,
      takeWhile_append_of_ne_nil hne' m, takeWhile_append_of_ne_nil hne m, hdrop]
    rfl

/-- There is no token where nothing ends it. -/
theorem token_eq_none : token ws p l = none ↔ (l.dropWhile ws).dropWhile p = [] := by
  unfold token
  split
  next h => exact iff_of_true rfl h
  next h => exact iff_of_false (Option.some_ne_none _) (by rw [h]; exact List.cons_ne_nil _ _)

/-- What is left at a token's characters and at its delimiter. -/
theorem token_eq_some (h : token ws p l = some (t, rest)) :
    l.length = t.blanks + (l.dropWhile ws).length ∧
      l.dropWhile ws = t.str ++ t.delim :: rest ∧
        (l.dropWhile ws).dropWhile p = t.delim :: rest := by
  unfold token at h
  split at h
  next => cases h
  next c rest' hdrop =>
    cases h
    refine ⟨?_, ?_, hdrop⟩
    · have hws := congrArg List.length (List.takeWhile_append_dropWhile (p := ws) (l := l))
      rw [List.length_append] at hws
      exact hws.symm
    · simp only [← hdrop, List.takeWhile_append_dropWhile]

/-- The characters of a kind, up to the first of another. -/
theorem span_mk {q : UInt8 → Bool} {xs : List UInt8} {c : UInt8} (hxs : ∀ a ∈ xs, q a = true)
    (hc : q c = false) (rest : List UInt8) :
    (xs ++ c :: rest).takeWhile q = xs ∧ (xs ++ c :: rest).dropWhile q = c :: rest := by
  rw [List.takeWhile_append_of_pos hxs, List.dropWhile_append_of_pos hxs,
    List.takeWhile_cons_of_neg (by simp [hc]), List.dropWhile_cons_of_neg (by simp [hc]),
    List.append_nil]
  exact ⟨rfl, rfl⟩

/-- What is read of blanks, characters and a delimiter. -/
theorem token_mk {blanks str : List UInt8} {delim : UInt8} (hblanks : ∀ c ∈ blanks, ws c = true)
    (hhead : ∀ c ∈ (str ++ [delim]).head?, ws c = false) (hstr : ∀ c ∈ str, p c = true)
    (hdelim : p delim = false) (rest : List UInt8) :
    token ws p (blanks ++ (str ++ delim :: rest)) = some (⟨blanks.length, str, delim⟩, rest) := by
  obtain ⟨c, tail, hhd⟩ := List.exists_cons_of_ne_nil (List.concat_ne_nil delim str)
  rw [hhd] at hhead
  have hlist : str ++ delim :: rest = c :: (tail ++ rest) := by
    rw [← List.cons_append, ← hhd, List.append_assoc]
    rfl
  obtain ⟨htake, hdrop⟩ := span_mk hblanks (hhead c rfl) (tail ++ rest)
  rw [← hlist] at htake hdrop
  obtain ⟨htake', hdrop'⟩ := span_mk hstr hdelim rest
  rw [token, hdrop, hdrop']
  simp only [htake, htake']

theorem dropWhile_head {q : UInt8 → Bool} {c : UInt8} {rest : List UInt8}
    (h : l.dropWhile q = c :: rest) : q c = false := by
  have hhead := List.head?_dropWhile_not q l
  rw [h] at hhead
  exact hhead

/-- The characters of a token are of its kind, and its delimiter is not. -/
theorem token_kinds (h : token ws p l = some (t, rest)) :
    (∀ c ∈ t.str, p c = true) ∧ p t.delim = false := by
  refine ⟨fun c hc => ?_, dropWhile_head (token_eq_some h).2.2⟩
  unfold token at h
  split at h
  next => cases h
  next =>
    cases h
    exact List.mem_takeWhile_imp hc

/-- A token can be read as soon as its delimiter is there, which is then the last octet. -/
theorem token_front (h : token ws p l = some (t, rest)) :
    ∃ k, l = k ++ rest ∧ token ws p k = some (t, []) ∧ k.getLast? = some t.delim := by
  obtain ⟨hlen, hstr, hdrop⟩ := token_eq_some h
  obtain ⟨hkind, hdelim⟩ := token_kinds h
  have hsplit := List.takeWhile_append_dropWhile (p := ws) (l := l)
  rw [hstr] at hsplit
  refine ⟨l.takeWhile ws ++ (t.str ++ [t.delim]), ?_, ?_, ?_⟩
  · simp only [List.append_assoc, List.singleton_append, hsplit]
  · have hhead : ∀ c ∈ (t.str ++ [t.delim]).head?, ws c = false := by
      intro c hc
      cases hcase : t.str with
      | nil =>
          rw [hcase] at hc hstr
          cases hc
          exact dropWhile_head hstr
      | cons a str =>
          rw [hcase] at hc hstr
          cases hc
          exact dropWhile_head hstr
    have hblanks : (l.takeWhile ws).length = t.blanks := by
      have hcount := congrArg List.length hsplit
      rw [List.length_append, hlen, hstr] at hcount
      exact Nat.add_right_cancel hcount
    rw [token_mk (fun c hc => List.mem_takeWhile_imp hc) hhead hkind hdelim, hblanks]
  · rw [← List.append_assoc, List.getLast?_concat]

/-- A token that ends at a blank has characters. -/
theorem token_str_ne_nil (h : token ws p l = some (t, rest)) (hdelim : ws t.delim = true) :
    t.str ≠ [] := by
  intro hnil
  have hstr := (token_eq_some h).2.1
  rw [hnil, List.nil_append] at hstr
  rw [dropWhile_head hstr] at hdelim
  cases hdelim

/-- A token and what is behind it make the list. -/
theorem token_length (h : token ws p l = some (t, rest)) :
    l.length = t.width + rest.length := by
  obtain ⟨hlen, hstr, -⟩ := token_eq_some h
  rw [hlen, hstr, List.length_append, List.length_cons, Token.width]
  omega

end Token

/-! ## What is read -/

/-- A string: where it begins, and its octets. -/
structure Text where
  off : Nat
  str : List UInt8
deriving DecidableEq

/-- A parameter. -/
structure Param where
  name : Text
  value : Option Text
deriving DecidableEq

/-- A header.  `closed`: a zero comes to stand behind the value. -/
structure Header where
  name : List UInt8
  value : Text
  closed : Bool
deriving DecidableEq

/-- What was read of a request.  Headers stand in front of earlier ones. -/
structure Reading where
  state : ReqbState
  parsing : Nat
  pos : Nat
  method : HttpMethod
  uri : Option Text
  params : List Param
  ver : Option Text
  headers : List Header
deriving DecidableEq

/-- Before the first octet. -/
def Reading.start : Reading := ⟨.unfinished, 0, 0, .none, none, [], none, []⟩

/-- `str_to_method` of a string. -/
def methodOf (str : List UInt8) : HttpMethod :=
  (HttpMethod.known.find? fun res => cString str = res.str).getD .none

/-- `str_to_ct` of a string. -/
def connTypeOf (str : List UInt8) : HttpConnType :=
  if cString str = HttpConnType.close.str then .close
  else if cString str = HttpConnType.keepAlive.str then .keepAlive
  else .none

namespace Reading

/-- A syntax error. -/
def fail (r : Reading) : Reading := { r with state := .syntError }

/-- Behind a token. -/
def behind (r : Reading) (t : Token) (parsing : Nat) : Reading :=
  { r with pos := r.pos + t.width, parsing := parsing }

/-- The text of a token. -/
def text (r : Reading) (t : Token) : Text := ⟨r.pos + t.blanks, t.str⟩

theorem behind_pos (r : Reading) (t : Token) (parsing : Nat) :
    (r.behind t parsing).pos = r.pos + t.width := rfl

theorem text_off (r : Reading) (t : Token) : (r.text t).off = r.pos + t.blanks := rfl

/-- State 0. -/
def readMethod (r : Reading) (l : List UInt8) : Option (Reading × List UInt8) :=
  (token isWs (isNot ' '.toUInt8) l).map <| .map (fun t =>
    { r with method := methodOf t.str }.behind t 1) id

/-- State 1. -/
def readUri (r : Reading) (l : List UInt8) : Option (Reading × List UInt8) :=
  (token isWs reqIdent l).map <| .map (fun t =>
    if 10 ≤ uriState t.delim then r.fail
    else { r with uri := some (r.text t) }.behind t (uriState t.delim)) id

/-- State 2. -/
def readParam (r : Reading) (l : List UInt8) : Option (Reading × List UInt8) :=
  (token noWs reqIdent l).map <| .map (fun t =>
    if 10 ≤ paramState t.delim then r.fail
    else { r with params := r.params ++ [Param.mk (r.text t) none] }.behind t
      (paramState t.delim)) id

/-- The last parameter is given a value. -/
def giveValue (params : List Param) (value : Text) : List Param :=
  params.modify (params.length - 1) fun param => { param with value := some value }

/-- State 3. -/
def readValue (r : Reading) (l : List UInt8) : Option (Reading × List UInt8) :=
  (token noWs reqIdent l).map <| .map (fun t =>
    if 10 ≤ valueState t.delim then r.fail
    else { r with params := giveValue r.params (r.text t) }.behind t (valueState t.delim)) id

/-- State 4.  The octet before the line feed is taken for a carriage return. -/
def readVersion (r : Reading) (l : List UInt8) : Option (Reading × List UInt8) :=
  (token isWs (isNot '\n'.toUInt8) l).map <| .map (fun t =>
    { r with ver := some ⟨r.pos + t.blanks, t.str.dropLast⟩ }.behind t 5) id

/-- The header that a name and a value make. -/
def header (r : Reading) (name value : Token) : Header :=
  ⟨name.str, ⟨r.pos + name.width + value.blanks, value.str.dropLast⟩, value.str ≠ []⟩

/-- The value of a header, behind its name. -/
def readHeaderValue (r : Reading) (name : Token) (l : List UInt8) :
    Option (Reading × List UInt8) :=
  (token isWsInLine (isNot '\n'.toUInt8) l).map <| .map (fun value =>
    { r with
      headers := r.header name value :: r.headers
      pos := r.pos + name.width + value.width }) id

/-- State 5. -/
def readHeader (r : Reading) (l : List UInt8) : Option (Reading × List UInt8) :=
  match l.dropWhile isWsInLine with
  | [] => none
  | c :: rest =>
      if c = '\r'.toUInt8 ∨ c = '\n'.toUInt8 then some ({ r with state := .finished }, rest)
      else
        (token isWsInLine reqIdent l).bind fun (name, rest) =>
          if name.delim ≠ ':'.toUInt8 then some (r.fail, rest) else r.readHeaderValue name rest

/-- The `switch`. -/
def read (r : Reading) (l : List UInt8) : Option (Reading × List UInt8) :=
  match r.parsing with
  | 0 => r.readMethod l
  | 1 => r.readUri l
  | 2 => r.readParam l
  | 3 => r.readValue l
  | 4 => r.readVersion l
  | 5 => r.readHeader l
  | _ => some (r.fail, l.tail)

/-- One step.  There is one while the request is neither finished nor in error. -/
def step (r : Reading) (l : List UInt8) : Option (Reading × List UInt8) :=
  if r.state ≠ .unfinished ∨ l = [] then none else r.read l

/-- A step of an unfinished request. -/
theorem step_of_live {r : Reading} {l : List UInt8} (hlive : r.state = .unfinished) (hne : l ≠ []) :
    r.step l = r.read l :=
  if_neg fun h => h.elim (fun hend => hend hlive) hne

theorem step_eq_some {r : Reading} {l : List UInt8} {x : Reading × List UInt8} :
    r.step l = some x ↔ r.state = .unfinished ∧ l ≠ [] ∧ r.read l = some x := by
  rw [step]
  split
  next h => exact iff_of_false nofun fun ⟨hlive, hne, _⟩ => h.elim (fun hend => hend hlive) hne
  next h =>
    rw [not_or, not_not] at h
    exact ⟨fun hread => ⟨h.1, h.2, hread⟩, fun hread => hread.2.2⟩

section Stable

variable {r r' : Reading} {l l' : List UInt8}

/-- What is made of a token does not depend on what comes behind it. -/
theorem map_token_append {ws p : UInt8 → Bool} {f : Token → Reading}
    (h : (token ws p l).map (.map f id) = some (r', l')) (m : List UInt8) :
    (token ws p (l ++ m)).map (.map f id) = some (r', l' ++ m) := by
  obtain ⟨⟨t, rest⟩, ht, hr⟩ := Option.map_eq_some_iff.mp h
  cases hr
  rw [token_append ht m]
  rfl

/-- The line has a character that does not end it. -/
def BeginsLine (l : List UInt8) : Prop :=
  ∃ c rest, l.dropWhile isWsInLine = c :: rest ∧ ¬ (c = '\r'.toUInt8 ∨ c = '\n'.toUInt8)

theorem readHeader_of_end {c : UInt8} (h : l.dropWhile isWsInLine = c :: l')
    (hc : c = '\r'.toUInt8 ∨ c = '\n'.toUInt8) :
    r.readHeader l = some ({ r with state := .finished }, l') := by
  rw [readHeader, h]
  exact if_pos hc

theorem readHeader_of_name {name : Token} (hl : BeginsLine l)
    (hname : token isWsInLine reqIdent l = some (name, l')) :
    r.readHeader l =
      if name.delim ≠ ':'.toUInt8 then some (r.fail, l') else r.readHeaderValue name l' := by
  obtain ⟨c, rest, hdrop, hc⟩ := hl
  rw [readHeader, hdrop]
  simp only
  rw [if_neg hc, hname]
  rfl

/-- What state 5 reads: the end, or a name, and a value if a colon ends it. -/
theorem readHeader_cases (h : r.readHeader l = some (r', l')) :
    (∃ c, l.dropWhile isWsInLine = c :: l' ∧ (c = '\r'.toUInt8 ∨ c = '\n'.toUInt8) ∧
      r' = { r with state := .finished }) ∨
    ∃ name rest, BeginsLine l ∧ token isWsInLine reqIdent l = some (name, rest) ∧
      (if name.delim ≠ ':'.toUInt8 then some (r.fail, rest) else r.readHeaderValue name rest) =
        some (r', l') := by
  rw [readHeader] at h
  cases hdrop : l.dropWhile isWsInLine with
  | nil =>
      rw [hdrop] at h
      cases h
  | cons c rest =>
      rw [hdrop] at h
      simp only at h
      by_cases hc : c = '\r'.toUInt8 ∨ c = '\n'.toUInt8
      · rw [if_pos hc] at h
        cases h
        exact .inl ⟨c, rfl, hc, rfl⟩
      · rw [if_neg hc] at h
        obtain ⟨⟨name, rest'⟩, hname, hvalue⟩ := Option.bind_eq_some_iff.mp h
        exact .inr ⟨name, rest', ⟨c, rest, hdrop, hc⟩, hname, hvalue⟩

theorem BeginsLine.append (hl : BeginsLine l) (m : List UInt8) : BeginsLine (l ++ m) := by
  obtain ⟨c, rest, hdrop, hc⟩ := hl
  refine ⟨c, rest ++ m, ?_, hc⟩
  rw [dropWhile_append_of_ne_nil (by rw [hdrop]; exact List.cons_ne_nil c rest), hdrop]
  rfl

theorem readHeader_append (h : r.readHeader l = some (r', l')) (m : List UInt8) :
    r.readHeader (l ++ m) = some (r', l' ++ m) := by
  obtain ⟨c, hdrop, hc, rfl⟩ | ⟨name, rest, hl, hname, hvalue⟩ := readHeader_cases h
  · refine readHeader_of_end ?_ hc
    rw [dropWhile_append_of_ne_nil (by rw [hdrop]; exact List.cons_ne_nil c l'), hdrop]
    rfl
  · rw [readHeader_of_name (hl.append m) (token_append hname m)]
    split at hvalue
    next hdelim =>
      cases hvalue
      rw [if_pos hdelim]
    next hdelim =>
      rw [if_neg hdelim]
      exact map_token_append hvalue m

/-- A step does not depend on what comes behind the octets it reads. -/
theorem step_append (h : r.step l = some (r', l')) (m : List UInt8) :
    r.step (l ++ m) = some (r', l' ++ m) := by
  obtain ⟨hlive, hne, hread⟩ := step_eq_some.mp h
  refine step_eq_some.mpr ⟨hlive, List.append_ne_nil_of_left_ne_nil hne m, ?_⟩
  unfold read at hread ⊢
  split at hread
  next => exact map_token_append hread m
  next => exact map_token_append hread m
  next => exact map_token_append hread m
  next => exact map_token_append hread m
  next => exact map_token_append hread m
  next => exact readHeader_append hread m
  next =>
    cases hread
    rw [List.tail_append_of_ne_nil hne]

theorem map_token_front {ws p : UInt8 → Bool} {f : Token → Reading}
    (h : (token ws p l).map (.map f id) = some (r', l')) :
    ∃ k, l = k ++ l' ∧ (token ws p k).map (.map f id) = some (r', []) := by
  obtain ⟨⟨t, rest⟩, ht, hr⟩ := Option.map_eq_some_iff.mp h
  cases hr
  obtain ⟨k, hl, hk, -⟩ := token_front ht
  exact ⟨k, hl, by rw [hk]; rfl⟩

theorem BeginsLine.front {k m : List UInt8} (hl : BeginsLine (k ++ m))
    (hk : k.dropWhile isWsInLine ≠ []) : BeginsLine k := by
  obtain ⟨c, rest, hdrop, hc⟩ := hl
  rw [dropWhile_append_of_ne_nil hk] at hdrop
  obtain ⟨a, tail, hcons⟩ := List.exists_cons_of_ne_nil hk
  rw [hcons] at hdrop
  cases hdrop
  exact ⟨c, tail, hcons, hc⟩

theorem readHeader_front (h : r.readHeader l = some (r', l')) :
    ∃ k, l = k ++ l' ∧ r.readHeader k = some (r', []) := by
  obtain ⟨c, hdrop, hc, rfl⟩ | ⟨name, rest, hl, hname, hvalue⟩ := readHeader_cases h
  · refine ⟨l.takeWhile isWsInLine ++ [c], ?_, readHeader_of_end ?_ hc⟩
    · rw [List.append_assoc, List.singleton_append, ← hdrop, List.takeWhile_append_dropWhile]
    · exact (span_mk (fun a ha => List.mem_takeWhile_imp ha) (dropWhile_head hdrop) []).2
  · obtain ⟨k, rfl, hk, -⟩ := token_front hname
    have hkne : k.dropWhile isWsInLine ≠ [] := by
      rw [(token_eq_some hk).2.1]
      exact List.append_ne_nil_of_right_ne_nil _ (List.cons_ne_nil _ _)
    have hbegins := hl.front hkne
    split at hvalue
    next hdelim =>
      cases hvalue
      exact ⟨k, rfl, by rw [readHeader_of_name hbegins hk, if_pos hdelim]⟩
    next hdelim =>
      obtain ⟨k', rfl, hk'⟩ := map_token_front hvalue
      refine ⟨k ++ k', (List.append_assoc ..).symm, ?_⟩
      rw [readHeader_of_name (hbegins.append k') (token_append hk k'), if_neg hdelim]
      exact hk'

theorem front_ne_nil {f : List UInt8 → Option (Reading × List UInt8)} (hnil : f [] = none)
    (h : ∃ k, l = k ++ l' ∧ f k = some (r', [])) :
    ∃ k, l = k ++ l' ∧ f k = some (r', []) ∧ k ≠ [] := by
  obtain ⟨k, hl, hk⟩ := h
  refine ⟨k, hl, hk, ?_⟩
  rintro rfl
  rw [hnil] at hk
  cases hk

/-- A step can be taken as soon as the octets it reads are there. -/
theorem step_front (h : r.step l = some (r', l')) :
    ∃ k, l = k ++ l' ∧ r.step k = some (r', []) := by
  obtain ⟨hlive, hne, hread⟩ := step_eq_some.mp h
  have hfront : ∃ k, l = k ++ l' ∧ r.read k = some (r', []) ∧ k ≠ [] := by
    unfold read at hread ⊢
    split at hread
    next => exact front_ne_nil rfl (map_token_front hread)
    next => exact front_ne_nil rfl (map_token_front hread)
    next => exact front_ne_nil rfl (map_token_front hread)
    next => exact front_ne_nil rfl (map_token_front hread)
    next => exact front_ne_nil rfl (map_token_front hread)
    next => exact front_ne_nil rfl (readHeader_front hread)
    next =>
      cases hread
      obtain ⟨c, tail, rfl⟩ := List.exists_cons_of_ne_nil hne
      exact ⟨[c], rfl, rfl, List.cons_ne_nil c []⟩
  obtain ⟨k, hl, hk, hkne⟩ := hfront
  exact ⟨k, hl, step_eq_some.mpr ⟨hlive, hkne, hk⟩⟩

end Stable

end Reading

/-- The reader of requests. -/
def requestReader : Reader Reading UInt8 := ⟨Reading.step, fun m h => Reading.step_append h m⟩

theorem requestReader_local : requestReader.Local := Reading.step_front

/-! ## The request of a reading -/

/-- The headers `http_req_set_param` knows. -/
inductive Field where
  | host | userAgent | mime | contLen | accept | acceptLang | acceptEnc | cookie | connType
  | keepAlive
deriving DecidableEq

/-- Their names. -/
def fieldOf (name : List UInt8) : Option Field :=
  if name = hostName then some .host
  else if name = userAgentName then some .userAgent
  else if name = contentTypeName then some .mime
  else if name = contentLengthName then some .contLen
  else if name = acceptName then some .accept
  else if name = acceptLanguageName then some .acceptLang
  else if name = acceptEncodingName then some .acceptEnc
  else if name = cookieName then some .cookie
  else if name = connectionName then some .connType
  else if name = keepAliveName then some .keepAlive
  else none

/-- The `HTTP_REQ_MAX_PARAMS` entries of `params` or `values`. -/
def slots (f : Nat → Option Nat) : List (Option Nat) := (List.range httpReqMaxParams).map f

theorem slots_get? (f : Nat → Option Nat) {i : Nat} (hi : i < httpReqMaxParams) :
    (slots f)[i]? = some (f i) := by
  rw [slots, List.getElem?_map, List.getElem?_range hi, Option.map_some]

/-- What `strtol` makes of a header, `v` being what it makes of those without a closing zero. -/
def numberOf (v : Nat → Int) : Option Header → Int
  | none => 0
  | some h => if h.closed then strtol h.value.str else v h.value.off

/-- The last header of a name. -/
def lastOf (headers : List Header) (f : Field) : Option Header :=
  headers.find? fun h => fieldOf h.name = some f

namespace Reading

/-- The request. -/
def req (v : Nat → Int) (r : Reading) : HttpReq where
  method := r.method
  uri := r.uri.map Text.off
  numParams := r.params.length
  params := slots fun i => (r.params[i]?).map (·.name.off)
  values := slots fun i => (r.params[i]?).bind (·.value.map Text.off)
  ver := r.ver.map Text.off
  host := (lastOf r.headers .host).map (·.value.off)
  userAgent := (lastOf r.headers .userAgent).map (·.value.off)
  mime := (lastOf r.headers .mime).map (·.value.off)
  contLen := numberOf v (lastOf r.headers .contLen)
  accept := (lastOf r.headers .accept).map (·.value.off)
  acceptLang := (lastOf r.headers .acceptLang).map (·.value.off)
  acceptEnc := (lastOf r.headers .acceptEnc).map (·.value.off)
  cookie := (lastOf r.headers .cookie).map (·.value.off)
  connType := ((lastOf r.headers .connType).map fun h => connTypeOf h.value.str).getD .none
  keepAlive := numberOf v (lastOf r.headers .keepAlive)

/-- The strings the buffer has with a zero behind them. -/
def texts (r : Reading) : List Text :=
  r.uri.toList ++ r.ver.toList ++ r.params.flatMap (fun p => p.name :: p.value.toList) ++
    (r.headers.filter Header.closed).map Header.value

theorem mem_texts {r : Reading} {x : Text} :
    x ∈ r.texts ↔ r.uri = some x ∨ r.ver = some x ∨
      (∃ param ∈ r.params, param.name = x ∨ param.value = some x) ∨
        ∃ h ∈ r.headers, h.closed ∧ h.value = x := by
  simp only [texts, List.mem_append, Option.mem_toList, List.mem_flatMap,
    List.mem_cons, List.mem_map, List.mem_filter, and_assoc, or_assoc, eq_comm (a := x)]

end Reading

section Slots

variable {f g : Nat → Option Nat}

theorem slots_congr (h : ∀ i < httpReqMaxParams, f i = g i) : slots f = slots g :=
  List.map_congr_left fun i hi => h i (List.mem_range.mp hi)

theorem slots_set (f : Nat → Option Nat) (n : Nat) (x : Option Nat) :
    (slots f).set n x = slots fun i => if i = n then x else f i := by
  apply List.ext_getElem (by simp [slots])
  intro i h h'
  rw [List.getElem_set]
  simp only [slots, List.getElem_map, List.getElem_range, eq_comm (a := n)]

end Slots

namespace Reading

variable {v : Nat → Int} {r : Reading}

theorem req_start : start.req v = HttpReq.zero := rfl

/-- A parameter is added. -/
theorem req_addParam (t : Text) :
    { r with params := r.params ++ [Param.mk t none] }.req v = (r.req v).addParam t.off := by
  have hlen : (r.params ++ [Param.mk t none]).length = r.params.length + 1 := by
    rw [List.length_append, List.length_singleton]
  by_cases hfit : r.params.length + 1 ≤ httpReqMaxParams
  · rw [HttpReq.addParam_of_le hfit]
    simp only [req, slots_set, hlen, HttpReq.mk.injEq, true_and, and_true]
    refine ⟨slots_congr fun i _ => ?_, slots_congr fun i _ => ?_⟩
    all_goals
      rcases Nat.lt_trichotomy i r.params.length with hlt | rfl | hgt
      · rw [List.getElem?_append_left hlt, if_neg (Nat.ne_of_lt hlt)]
      · rw [List.getElem?_concat_length, if_pos rfl]
        rfl
      · rw [List.getElem?_eq_none (by omega), if_neg (Nat.ne_of_gt hgt),
          List.getElem?_eq_none (Nat.le_of_lt hgt)]
  · rw [HttpReq.addParam_of_not_le hfit]
    simp only [req, hlen, HttpReq.mk.injEq, true_and, and_true]
    refine ⟨slots_congr fun i hi => ?_, slots_congr fun i hi => ?_⟩
    all_goals rw [List.getElem?_append_left (by omega)]

theorem getElem?_giveValue (params : List Param) (t : Text) (i : Nat) :
    (giveValue params t)[i]? = (params[i]?).map fun param =>
      if i = params.length - 1 then { param with value := some t } else param := by
  rw [giveValue, List.getElem?_modify, Option.map_eq_map]
  simp only [eq_comm (b := i)]

theorem giveValue_concat (params : List Param) (param : Param) (t : Text) :
    giveValue (params ++ [param]) t = params ++ [{ param with value := some t }] := by
  rw [giveValue, List.length_append, List.length_singleton, Nat.add_sub_cancel]
  exact List.modifyTailIdx_add _ 0 params [param]

/-- The last parameter is given its value. -/
theorem req_giveValue (h : r.params ≠ []) (t : Text) :
    { r with params := giveValue r.params t }.req v = (r.req v).setValue t.off := by
  have hpos : 0 < r.params.length := List.length_pos_iff.mpr h
  have hlen : (giveValue r.params t).length = r.params.length := List.length_modify ..
  have hname (i : Nat) : ((giveValue r.params t)[i]?).map (·.name.off) =
      (r.params[i]?).map (·.name.off) := by
    rw [getElem?_giveValue, Option.map_map]
    congr 1
    funext param
    simp only [Function.comp]
    split <;> rfl
  have hvalue (i : Nat) : ((giveValue r.params t)[i]?).bind (·.value.map Text.off) =
      if i = r.params.length - 1 then some t.off
      else (r.params[i]?).bind (·.value.map Text.off) := by
    rw [getElem?_giveValue]
    by_cases hi : i = r.params.length - 1
    · rw [List.getElem?_eq_getElem (by omega), Option.map_some, Option.bind_some, if_pos hi,
        if_pos hi]
      rfl
    · simp only [if_neg hi, Option.map_id']
  by_cases hfit : r.params.length ≤ httpReqMaxParams
  · rw [HttpReq.setValue_of_le hfit]
    simp only [req, slots_set, hlen, hname, hvalue]
  · rw [HttpReq.setValue_of_not_le hfit]
    simp only [req, hlen, hname, HttpReq.mk.injEq, true_and, and_true]
    exact slots_congr fun i hi => by rw [hvalue, if_neg (by omega)]

theorem mem_giveValue {params : List Param} {t : Text} {param : Param}
    (h : param ∈ giveValue params t) :
    ∃ old ∈ params, param = old ∨ param = { old with value := some t } := by
  obtain ⟨i, hi⟩ := List.mem_iff_getElem?.mp h
  rw [getElem?_giveValue] at hi
  obtain ⟨old, hold, rfl⟩ := Option.map_eq_some_iff.mp hi
  refine ⟨old, List.mem_of_getElem? hold, ?_⟩
  split
  · exact .inr rfl
  · exact .inl rfl

theorem giveValue_ne_nil {params : List Param} (h : params ≠ []) (t : Text) :
    giveValue params t ≠ [] := by
  rw [← List.length_pos_iff, giveValue, List.length_modify]
  exact List.length_pos_iff.mpr h

end Reading

/-! ## Strings in a memory -/

section Strings

variable {mem : Mem} {off : Nat} {str : List UInt8}

/-- A memory holds a string, with a zero behind it. -/
def HoldsAt (mem : Mem) (off : Nat) (str : List UInt8) : Prop :=
  mem.read off (str.length + 1) = str ++ [0]

/-- Comparing a string with a text that has no zero. -/
theorem HoldsAt.strcmpEq (h : HoldsAt mem off str) {text : List UInt8}
    (htext : ∀ c ∈ text, c ≠ 0) : strcmpEq mem off text = decide (cString str = text) :=
  decide_eq_decide.mpr (Mem.read_eq_text_iff h htext)

theorem HttpMethod.str_ne_zero {res : HttpMethod} : ∀ c ∈ res.str, c ≠ 0 := by
  cases res <;> exact List.all_iff_forall_prop.mp rfl

theorem HoldsAt.strToMethod (h : HoldsAt mem off str) : strToMethod mem off = methodOf str := by
  simp only [Adhoc.strToMethod, methodOf, h.strcmpEq HttpMethod.str_ne_zero]

theorem HoldsAt.strToCt (h : HoldsAt mem off str) : strToCt mem off = connTypeOf str := by
  have hclose : Adhoc.strcmpEq mem off HttpConnType.close.str =
      decide (cString str = HttpConnType.close.str) := h.strcmpEq (List.all_iff_forall_prop.mp rfl)
  have hkeep : Adhoc.strcmpEq mem off HttpConnType.keepAlive.str =
      decide (cString str = HttpConnType.keepAlive.str) :=
    h.strcmpEq (List.all_iff_forall_prop.mp rfl)
  simp only [Adhoc.strToCt, connTypeOf, hclose, hkeep, decide_eq_true_eq]

/-- Digits end at a zero. -/
theorem takeWhile_digit_append_zero (l rest : List UInt8) :
    (l ++ 0 :: rest).takeWhile isDigit = l.takeWhile isDigit := by
  induction l with
  | nil => rfl
  | cons c l ih =>
      rw [List.cons_append, List.takeWhile_cons, List.takeWhile_cons, ih]

/-- `strtol` does not look behind the zero. -/
theorem strtol_append_zero (str rest : List UInt8) : strtol (str ++ 0 :: rest) = strtol str := by
  induction str with
  | nil => rfl
  | cons c str ih =>
      unfold strtol at ih ⊢
      cases hc : isSpace c with
      | true =>
          rw [List.cons_append, List.dropWhile_cons_of_pos hc, List.dropWhile_cons_of_pos hc]
          exact ih
      | false =>
          rw [List.cons_append, List.dropWhile_cons_of_neg (by simp [hc]),
            List.dropWhile_cons_of_neg (by simp [hc])]
          simp only [takeWhile_digit_append_zero, ← List.cons_append]

theorem HoldsAt.strtolAt (h : HoldsAt mem off str) (hlen : str.length < addressSpace) :
    strtolAt mem off = strtol str := by
  obtain ⟨k, hk⟩ := Nat.exists_eq_add_of_lt hlen
  rw [Adhoc.strtolAt, hk, Nat.add_right_comm, Mem.read_add, h, List.append_assoc]
  exact strtol_append_zero str _

end Strings

/-! ## Headers -/

/-- `http_req_set_param` for a header it knows. -/
def setField (mem : Mem) (req : HttpReq) (val : Nat) : Field → HttpReq
  | .host => { req with host := some val }
  | .userAgent => { req with userAgent := some val }
  | .mime => { req with mime := some val }
  | .contLen => { req with contLen := strtolAt mem val }
  | .accept => { req with accept := some val }
  | .acceptLang => { req with acceptLang := some val }
  | .acceptEnc => { req with acceptEnc := some val }
  | .cookie => { req with cookie := some val }
  | .connType => { req with connType := strToCt mem val }
  | .keepAlive => { req with keepAlive := strtolAt mem val }

theorem cString_of_ne_zero {str : List UInt8} (h : ∀ c ∈ str, c ≠ 0) : cString str = str :=
  List.takeWhile_eq_self_iff.mpr fun c hc => decide_eq_true (h c hc)

theorem httpReqSetParam_eq {mem : Mem} {name : Nat} {str : List UInt8} (h : HoldsAt mem name str)
    (hstr : ∀ c ∈ str, c ≠ 0) (req : HttpReq) (val : Nat) :
    httpReqSetParam mem req name val = (fieldOf str).elim req (setField mem req val) := by
  have hcmp {text : List UInt8} (htext : (text.all fun c => c ≠ 0) = true) :
      strcmpEq mem name text = decide (str = text) := by
    rw [h.strcmpEq (List.all_iff_forall_prop.mp htext), cString_of_ne_zero hstr]
  have helim (p : Prop) [Decidable p] (f : Field) (x : Option Field) :
      (if p then some f else x).elim req (setField mem req val) =
        if p then setField mem req val f else x.elim req (setField mem req val) := by
    split <;> rfl
  rw [httpReqSetParam, hcmp (by decide), hcmp (by decide), hcmp (by decide), hcmp (by decide),
    hcmp (by decide), hcmp (by decide), hcmp (by decide), hcmp (by decide), hcmp (by decide),
    hcmp (by decide)]
  simp only [fieldOf, helim, decide_eq_true_eq]
  rfl

theorem lastOf_cons (h : Header) (headers : List Header) (f : Field) :
    lastOf (h :: headers) f = if fieldOf h.name = some f then some h else lastOf headers f := by
  rw [lastOf, List.find?_cons]
  by_cases hf : fieldOf h.name = some f
  · rw [if_pos hf, decide_eq_true hf]
  · rw [if_neg hf, decide_eq_false hf]
    rfl

/-- A header is added. -/
theorem Reading.req_addHeader {v : Nat → Int} {r : Reading} {mem : Mem} {h : Header}
    (hnumber : numberOf v (some h) = strtolAt mem h.value.off)
    (hconn : connTypeOf h.value.str = strToCt mem h.value.off) (pos : Nat) :
    { r with headers := h :: r.headers, pos := pos }.req v =
      (fieldOf h.name).elim (r.req v) (setField mem (r.req v) h.value.off) := by
  cases hfield : fieldOf h.name with
  | none => simp only [req, lastOf_cons, hfield, reduceCtorEq, if_false, Option.elim]
  | some f =>
      cases f <;>
        simp only [req, lastOf_cons, hfield, Option.some.injEq, reduceCtorEq, if_false, if_true,
          Option.elim, setField, Option.map_some, Option.getD_some, hnumber, hconn]

end Adhoc
