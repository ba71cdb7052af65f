import Adhoc.Http.Push

/-!
# Rendering and reading back

A request is rendered as a client does, and the buffer it is pushed into then says what
the request says, however it was cut (`push_render`).  The reader takes a step for every
token of the rendering, and `At` keeps what its reading says after some of them.
-/

namespace Adhoc

open ByteMem Scanner Incremental

/-! ## Requests and their rendering -/

/-- A request. -/
structure Request where
  method : HttpMethod
  uri : List UInt8
  params : List (List UInt8 × Option (List UInt8))
  ver : List UInt8
  headers : List (List UInt8 × List UInt8)

/-- The characters of ASCII that are printed, the blank with them. -/
def isPrintable (c : UInt8) : Bool := 0x20 ≤ c && c ≤ 0x7e

/-- A text of such characters that does not begin with a blank. -/
def IsText (s : List UInt8) : Prop :=
  (∀ c ∈ s, isPrintable c = true) ∧ s.head? ≠ some ' '.toUInt8

/-- A text of characters of `req_ident`. -/
def IsIdent (s : List UInt8) : Prop := ∀ c ∈ s, reqIdent c = true

instance : DecidablePred IsText := fun s =>
  decidable_of_iff (s.all isPrintable = true ∧ s.head? ≠ some ' '.toUInt8)
    (and_congr_left' List.all_eq_true)

instance : DecidablePred IsIdent := fun s =>
  decidable_of_iff (s.all reqIdent = true) List.all_eq_true

/-- What is rendered. -/
structure Request.WellFormed (q : Request) : Prop where
  method : q.method ∈ HttpMethod.known
  uri_ne_nil : q.uri ≠ []
  uri : IsIdent q.uri
  length_params : q.params.length ≤ httpReqMaxParams
  params : ∀ p ∈ q.params, IsIdent p.1 ∧ ∀ value ∈ p.2, IsIdent value
  ver_ne_nil : q.ver ≠ []
  ver : IsText q.ver
  headers : ∀ h ∈ q.headers, h.1 ≠ [] ∧ IsIdent h.1 ∧ IsText h.2

/-- `p=v`, or `p`. -/
def renderParam : List UInt8 × Option (List UInt8) → List UInt8
  | (name, none) => name
  | (name, some value) => name ++ '='.toUInt8 :: value

/-- Parameters with an ampersand between them. -/
def renderParams : List (List UInt8 × Option (List UInt8)) → List UInt8
  | [] => []
  | [p] => renderParam p
  | p :: p' :: ps => renderParam p ++ '&'.toUInt8 :: renderParams (p' :: ps)

/-- The question mark and the parameters, if there are any. -/
def renderQuery (ps : List (List UInt8 × Option (List UInt8))) : List UInt8 :=
  if ps.isEmpty then [] else '?'.toUInt8 :: renderParams ps

/-- `Name: value`. -/
def renderHeader (h : List UInt8 × List UInt8) : List UInt8 :=
  h.1 ++ ascii [':', ' '] ++ h.2 ++ ascii ['\r', '\n']

/-- The rendering up to the last line. -/
def Request.renderLines (q : Request) : List UInt8 :=
  q.method.str ++ ascii [' '] ++ q.uri ++ renderQuery q.params ++ ascii [' '] ++ q.ver ++
    ascii ['\r', '\n'] ++ q.headers.flatMap renderHeader

/-- The rendering. -/
def Request.render (q : Request) : List UInt8 := q.renderLines ++ ascii ['\r', '\n']

/-- The value of the last header of a name. -/
def Request.last (q : Request) (name : List UInt8) : Option (List UInt8) :=
  (q.headers.reverse.find? fun h => h.1 = name).map Prod.snd

/-! ## Characters -/

theorem forall_octet {P : UInt8 → Prop} (h : ∀ n : Fin 256, P (.ofFin n)) (c : UInt8) : P c :=
  h c.toFin

section Characters

variable {c : UInt8}

theorem isWs_of_ident (hc : reqIdent c = true) : isWs c = false :=
  forall_octet (P := fun c => reqIdent c = true → isWs c = false) (by decide +kernel) c hc

theorem isWsInLine_of_not_isWs (hc : isWs c = false) : isWsInLine c = false := by
  have hle : decide (c ≤ 0x20) = false := hc
  rw [isWsInLine, hle]
  rfl

theorem isWsInLine_of_ident (hc : reqIdent c = true) :
    isWsInLine c = false ∧ ¬ (c = '\r'.toUInt8 ∨ c = '\n'.toUInt8) := by
  have hws := isWs_of_ident hc
  refine ⟨isWsInLine_of_not_isWs hws, ?_⟩
  rintro (rfl | rfl)
  · exact absurd hws (by decide)
  · exact absurd hws (by decide)

theorem le_of_printable (hc : isPrintable c = true) : 0x20 ≤ c.toNat := by
  rw [isPrintable, Bool.and_eq_true, decide_eq_true_iff] at hc
  exact UInt8.le_iff_toNat_le.mp hc.1

theorem isNot_lf_of_printable (hc : isPrintable c = true) : isNot '\n'.toUInt8 c = true := by
  have hle := le_of_printable hc
  refine decide_eq_true ?_
  rintro rfl
  exact absurd hle (by decide)

theorem isWs_of_printable (hc : isPrintable c = true) (hblank : c ≠ ' '.toUInt8) :
    isWs c = false := by
  have hle := le_of_printable hc
  have hne : c.toNat ≠ 0x20 := fun h => hblank (UInt8.toNat_inj.mp h)
  refine decide_eq_false fun hws => ?_
  have hge : c.toNat ≤ 0x20 := UInt8.le_iff_toNat_le.mp hws
  omega

end Characters

/-! ## What a reading says -/

/-- What a parameter says. -/
def Param.said (p : Param) : List UInt8 × Option (List UInt8) := (p.name.str, p.value.map Text.str)

/-- What a reading says. -/
def Reading.said (r : Reading) : Request where
  method := r.method
  uri := (r.uri.map Text.str).getD []
  params := r.params.map Param.said
  ver := (r.ver.map Text.str).getD []
  headers := (r.headers.map fun h => (h.name, h.value.str)).reverse

/-- A reading that says `q` and reads on in a state. -/
structure At (k : Nat) (q : Request) (r : Reading) : Prop where
  state : r.state = .unfinished
  parsing : r.parsing = k
  said : r.said = q
  closed : ∀ h ∈ r.headers, h.closed = true

section Stages

variable {q : Request} {r r' : Reading} {c : UInt8} {str : List UInt8}

/-- A token without blanks before it. -/
theorem token_bare {ws p : UInt8 → Bool} (hhead : ∀ a ∈ (str ++ [c]).head?, ws a = false)
    (hstr : ∀ a ∈ str, p a = true) (hc : p c = false) (rest : List UInt8) :
    token ws p (str ++ c :: rest) = some (⟨0, str, c⟩, rest) := by
  have hblanks : ∀ a ∈ ([] : List UInt8), ws a = true := nofun
  exact token_mk hblanks hhead hstr hc rest

/-- The step at a token. -/
theorem At.step {k : Nat} (h : At k q r) {rest : List UInt8}
    (hread : r.read (str ++ c :: rest) = some (r', rest)) :
    r.step (str ++ c :: rest) = some (r', rest) :=
  Reading.step_eq_some.mpr
    ⟨h.state, List.append_ne_nil_of_right_ne_nil _ (List.cons_ne_nil c rest), hread⟩

/-- The method. -/
theorem At.method (h : At 0 q r) {m : HttpMethod} (hm : m ∈ HttpMethod.known) (rest : List UInt8) :
    ∃ r', r.step (m.str ++ ' '.toUInt8 :: rest) = some (r', rest) ∧
      At 1 { q with method := m } r' := by
  have hkinds : (∀ a ∈ (m.str ++ [' '.toUInt8]).head?, isWs a = false) ∧
      (∀ a ∈ m.str, isNot ' '.toUInt8 a = true) ∧ methodOf m.str = m := by
    cases m with
    | none => exact absurd hm (by decide)
    | _ => exact ⟨by rintro a ⟨⟩; rfl, List.all_eq_true.mp rfl, rfl⟩
  obtain ⟨hhead, hstr, hmethod⟩ := hkinds
  have hread (l : List UInt8) : r.read l = r.readMethod l := by
    simp only [Reading.read, h.parsing]
  refine ⟨{ r with method := m }.behind ⟨0, m.str, ' '.toUInt8⟩ 1, h.step ?_, ?_⟩
  · rw [hread, Reading.readMethod, token_bare hhead hstr rfl, Option.map_some]
    simp only [Prod.map, hmethod, id]
  · exact ⟨h.state, rfl, by rw [← h.said]; rfl, h.closed⟩

/-- The step at a token of `req_ident`. -/
theorem At.identStep {k : Nat} (h : At k q r) {ws : UInt8 → Bool} {stateOf : UInt8 → Nat}
    {f : Token → Reading} {rest : List UInt8}
    (hread : r.read (str ++ c :: rest) = (token ws reqIdent (str ++ c :: rest)).map (.map (fun t =>
      if 10 ≤ stateOf t.delim then r.fail else (f t).behind t (stateOf t.delim)) id))
    (hws : ∀ a, reqIdent a = true → ws a = false) (hstr : IsIdent str)
    (hc : reqIdent c = false ∧ ¬ 10 ≤ stateOf c) (hhead : str = [] → ws c = false) :
    r.step (str ++ c :: rest) = some ((f ⟨0, str, c⟩).behind ⟨0, str, c⟩ (stateOf c), rest) := by
  refine h.step (hread.trans ?_)
  have hfirst : ∀ a ∈ (str ++ [c]).head?, ws a = false := by
    intro a ha
    cases hcase : str with
    | nil =>
        rw [hcase] at ha
        cases ha
        exact hhead hcase
    | cons b tail =>
        rw [hcase] at ha
        cases ha
        exact hws _ (hstr _ (hcase ▸ List.mem_cons_self))
  rw [token_bare hfirst hstr hc.1, Option.map_some]
  simp only [Prod.map, if_neg hc.2, id]

/-- The URI. -/
theorem At.uri (h : At 1 q r) (hne : str ≠ []) (hstr : IsIdent str)
    (hc : c = '?'.toUInt8 ∨ c = ' '.toUInt8) (rest : List UInt8) :
    ∃ r', r.step (str ++ c :: rest) = some (r', rest) ∧
      At (uriState c) { q with uri := str } r' := by
  have hread : r.read (str ++ c :: rest) = r.readUri (str ++ c :: rest) := by
    simp only [Reading.read, h.parsing]
  refine ⟨_, h.identStep hread (fun _ => isWs_of_ident) hstr ?_ (absurd · hne), ?_⟩
  · rcases hc with rfl | rfl <;> decide
  · exact ⟨h.state, rfl, by rw [← h.said]; rfl, h.closed⟩

/-- The name of a parameter. -/
theorem At.paramName (h : At 2 q r) (hstr : IsIdent str)
    (hc : c = '&'.toUInt8 ∨ c = '='.toUInt8 ∨ c = ' '.toUInt8) (rest : List UInt8) :
    ∃ r', r.step (str ++ c :: rest) = some (r', rest) ∧
      At (paramState c) { q with params := q.params ++ [(str, none)] } r' := by
  have hread : r.read (str ++ c :: rest) = r.readParam (str ++ c :: rest) := by
    simp only [Reading.read, h.parsing]
  refine ⟨_, h.identStep hread (fun _ _ => rfl) hstr ?_ (fun _ => rfl), ?_⟩
  · rcases hc with rfl | rfl | rfl <;> decide
  · refine ⟨h.state, rfl, ?_, h.closed⟩
    rw [← h.said]
    simp only [Reading.said, Reading.behind, List.map_append]
    rfl

/-- The value of the last parameter. -/
theorem At.paramValue {ps : List (List UInt8 × Option (List UInt8))} {name : List UInt8}
    (h : At 3 { q with params := ps ++ [(name, none)] } r) (hstr : IsIdent str)
    (hc : c = '&'.toUInt8 ∨ c = ' '.toUInt8) (rest : List UInt8) :
    ∃ r', r.step (str ++ c :: rest) = some (r', rest) ∧
      At (valueState c) { q with params := ps ++ [(name, some str)] } r' := by
  have hread : r.read (str ++ c :: rest) = r.readValue (str ++ c :: rest) := by
    simp only [Reading.read, h.parsing]
  refine ⟨_, h.identStep hread (fun _ _ => rfl) hstr ?_ (fun _ => rfl), ?_⟩
  · rcases hc with rfl | rfl <;> decide
  · refine ⟨h.state, rfl, ?_, h.closed⟩
    have hparams : r.params.map Param.said = ps ++ [(name, none)] := congrArg Request.params h.said
    obtain ⟨init, last, hsplit, rfl, hlast⟩ := List.map_eq_append_iff.mp hparams
    obtain ⟨param, rfl, hparam⟩ := List.map_eq_singleton_iff.mp hlast
    obtain ⟨hname, -⟩ := Prod.mk.inj hparam
    have hsaid : (Reading.giveValue r.params (r.text ⟨0, str, c⟩)).map Param.said =
        init.map Param.said ++ [(name, some str)] := by
      rw [hsplit, Reading.giveValue_concat, List.map_append, ← hname]
      rfl
    calc
      _ = { r.said with
          params := (Reading.giveValue r.params (r.text ⟨0, str, c⟩)).map Param.said } := rfl
      _ = _ := by rw [hsaid, h.said]

/-- The characters of a text and the carriage return behind it. -/
theorem IsText.line (hstr : IsText str) {ws : UInt8 → Bool}
    (hcr : str = [] → ws '\r'.toUInt8 = false)
    (hws : ∀ a, isPrintable a = true → a ≠ ' '.toUInt8 → ws a = false) :
    (∀ a ∈ (str ++ ['\r'.toUInt8] ++ ['\n'.toUInt8]).head?, ws a = false) ∧
      ∀ a ∈ str ++ ['\r'.toUInt8], isNot '\n'.toUInt8 a = true := by
  constructor
  · intro a ha
    cases hcase : str with
    | nil =>
        rw [hcase] at ha
        cases ha
        exact hcr hcase
    | cons b tail =>
        rw [hcase] at ha
        cases ha
        refine hws _ (hstr.1 _ (hcase ▸ List.mem_cons_self)) fun hblank => hstr.2 ?_
        rw [hcase, hblank]
        rfl
  · intro a ha
    rcases List.mem_append.mp ha with ha | ha
    · exact isNot_lf_of_printable (hstr.1 a ha)
    · obtain rfl := List.mem_singleton.mp ha
      rfl

/-- The version. -/
theorem At.version (h : At 4 q r) (hne : str ≠ []) (hstr : IsText str) (rest : List UInt8) :
    ∃ r', r.step (str ++ ascii ['\r', '\n'] ++ rest) = some (r', rest) ∧
      At 5 { q with ver := str } r' := by
  obtain ⟨hhead, hkind⟩ := hstr.line (absurd · hne) (fun _ => isWs_of_printable)
  have hline : str ++ ascii ['\r', '\n'] ++ rest =
      (str ++ ['\r'.toUInt8]) ++ '\n'.toUInt8 :: rest := by
    rw [List.append_assoc, List.append_assoc]
    rfl
  rw [hline]
  refine ⟨{ r with ver := some ⟨r.pos, str⟩ }.behind ⟨0, str ++ ['\r'.toUInt8], '\n'.toUInt8⟩ 5,
    h.step ?_, ?_⟩
  · simp only [Reading.read, h.parsing]
    rw [Reading.readVersion, token_bare hhead hkind rfl, Option.map_some]
    simp only [Prod.map, List.dropLast_concat, id]
    rfl
  · exact ⟨h.state, rfl, by rw [← h.said]; rfl, h.closed⟩

/-- A header. -/
theorem At.header (h : At 5 q r) {x : List UInt8 × List UInt8} (hne : x.1 ≠ [])
    (hname : IsIdent x.1)
    (hvalue : IsText x.2) (rest : List UInt8) :
    ∃ r', r.step (renderHeader x ++ rest) = some (r', rest) ∧
      At 5 { q with headers := q.headers ++ [x] } r' := by
  obtain ⟨name, value⟩ := x
  obtain ⟨hhead, hkind⟩ := hvalue.line (fun _ => rfl)
    (fun a ha hblank => isWsInLine_of_not_isWs (isWs_of_printable ha hblank))
  obtain ⟨c, tail, rfl⟩ := List.exists_cons_of_ne_nil hne
  have hc := isWsInLine_of_ident (hname c List.mem_cons_self)
  have hline : renderHeader (c :: tail, value) ++ rest = (c :: tail) ++ ':'.toUInt8 ::
      ([' '.toUInt8] ++ ((value ++ ['\r'.toUInt8]) ++ '\n'.toUInt8 :: rest)) := by
    simp only [renderHeader, ascii, List.map_cons, List.map_nil, List.append_assoc,
      List.cons_append, List.nil_append]
  rw [hline]
  have hbegins : Reading.BeginsLine ((c :: tail) ++ ':'.toUInt8 ::
      ([' '.toUInt8] ++ ((value ++ ['\r'.toUInt8]) ++ '\n'.toUInt8 :: rest))) :=
    ⟨c, _, List.dropWhile_cons_of_neg (by rw [hc.1]; exact Bool.false_ne_true), hc.2⟩
  have hnameToken (l : List UInt8) : token isWsInLine reqIdent ((c :: tail) ++ ':'.toUInt8 :: l) =
      some (⟨0, c :: tail, ':'.toUInt8⟩, l) :=
    token_bare (by rintro a ⟨⟩; exact hc.1) hname rfl l
  have hvalueToken : token isWsInLine (isNot '\n'.toUInt8)
      ([' '.toUInt8] ++ ((value ++ ['\r'.toUInt8]) ++ '\n'.toUInt8 :: rest)) =
        some (⟨1, value ++ ['\r'.toUInt8], '\n'.toUInt8⟩, rest) :=
    token_mk (List.all_eq_true.mp rfl) hhead hkind rfl rest
  have hread (l : List UInt8) : r.read l = r.readHeader l := by
    simp only [Reading.read, h.parsing]
  refine ⟨{ r with
      headers := r.header ⟨0, c :: tail, ':'.toUInt8⟩ ⟨1, value ++ ['\r'.toUInt8], '\n'.toUInt8⟩ ::
        r.headers
      pos := r.pos + Token.width ⟨0, c :: tail, ':'.toUInt8⟩ +
        Token.width ⟨1, value ++ ['\r'.toUInt8], '\n'.toUInt8⟩ },
    Reading.step_eq_some.mpr ⟨h.state, List.cons_ne_nil _ _, ?_⟩, ?_⟩
  · rw [hread, Reading.readHeader_of_name hbegins (hnameToken _), if_neg (not_not.mpr rfl),
      Reading.readHeaderValue, hvalueToken]
    rfl
  · refine ⟨h.state, h.parsing, ?_, fun y hy => ?_⟩
    · rw [← h.said]
      simp only [Reading.said, Reading.header, List.map_cons, List.reverse_cons,
        List.dropLast_concat]
    · rcases List.mem_cons.mp hy with rfl | hy
      · exact decide_eq_true (List.concat_ne_nil _ _)
      · exact h.closed y hy

/-- The last line. -/
theorem At.ends (h : At 5 q r) (rest : List UInt8) :
    ∃ r', r.step ('\r'.toUInt8 :: rest) = some (r', rest) ∧ r'.state = .finished ∧ r'.said = q ∧
      ∀ h ∈ r'.headers, h.closed = true := by
  refine ⟨{ r with state := .finished },
    Reading.step_eq_some.mpr ⟨h.state, List.cons_ne_nil _ _, ?_⟩, rfl, h.said, h.closed⟩
  have hread : r.read ('\r'.toUInt8 :: rest) = r.readHeader ('\r'.toUInt8 :: rest) := by
    simp only [Reading.read, h.parsing]
  rw [hread]
  exact Reading.readHeader_of_end (List.dropWhile_cons_of_neg (by decide)) (.inl rfl)

end Stages

/-! ## What the rendering is read as -/

section Runs

variable {q : Request} {r : Reading} {c : UInt8}

/-- A parameter. -/
theorem At.param (h : At 2 q r) {p : List UInt8 × Option (List UInt8)}
    (hp : IsIdent p.1 ∧ ∀ value ∈ p.2, IsIdent value) (hc : c = '&'.toUInt8 ∨ c = ' '.toUInt8)
    (rest : List UInt8) :
    ∃ r', requestReader.Steps (r, renderParam p ++ c :: rest) (r', rest) ∧
      At (valueState c) { q with params := q.params ++ [p] } r' := by
  obtain ⟨name, value⟩ := p
  cases value with
  | none =>
      obtain ⟨r', hstep, h'⟩ := h.paramName hp.1 (hc.elim .inl fun hc => .inr (.inr hc)) rest
      have hstate : paramState c = valueState c := by
        rcases hc with rfl | rfl <;> rfl
      exact ⟨r', .head hstep .refl, hstate ▸ h'⟩
  | some value =>
      obtain ⟨r₁, hstep₁, h₁⟩ := h.paramName hp.1 (.inr (.inl rfl)) (value ++ c :: rest)
      obtain ⟨r', hstep, h'⟩ := At.paramValue h₁ (hp.2 value rfl) hc rest
      refine ⟨r', .head ?_ (.head hstep .refl), h'⟩
      rw [renderParam, List.append_assoc]
      exact hstep₁

/-- The parameters. -/
theorem At.params (h : At 2 q r) {ps : List (List UInt8 × Option (List UInt8))} (hne : ps ≠ [])
    (hps : ∀ p ∈ ps, IsIdent p.1 ∧ ∀ value ∈ p.2, IsIdent value) (rest : List UInt8) :
    ∃ r', requestReader.Steps (r, renderParams ps ++ ' '.toUInt8 :: rest) (r', rest) ∧
      At 4 { q with params := q.params ++ ps } r' := by
  induction ps generalizing q r with
  | nil => exact absurd rfl hne
  | cons p ps ih =>
      cases ps with
      | nil => exact h.param (hps p List.mem_cons_self) (.inr rfl) rest
      | cons p' ps =>
          obtain ⟨r₁, hsteps₁, h₁⟩ := h.param (hps p List.mem_cons_self) (.inl rfl)
            (renderParams (p' :: ps) ++ ' '.toUInt8 :: rest)
          obtain ⟨r', hsteps, h'⟩ := ih h₁ (List.cons_ne_nil p' ps)
            (fun x hx => hps x (List.mem_cons_of_mem p hx))
          refine ⟨r', .trans ?_ hsteps, ?_⟩
          · rw [renderParams, List.append_assoc]
            exact hsteps₁
          · rw [List.append_assoc] at h'
            exact h'

/-- The headers. -/
theorem At.headers (h : At 5 q r) {xs : List (List UInt8 × List UInt8)}
    (hxs : ∀ x ∈ xs, x.1 ≠ [] ∧ IsIdent x.1 ∧ IsText x.2) (rest : List UInt8) :
    ∃ r', requestReader.Steps (r, xs.flatMap renderHeader ++ rest) (r', rest) ∧
      At 5 { q with headers := q.headers ++ xs } r' := by
  induction xs generalizing q r with
  | nil => exact ⟨r, .refl, by rw [List.append_nil]; exact h⟩
  | cons x xs ih =>
      obtain ⟨hne, hname, hvalue⟩ := hxs x List.mem_cons_self
      obtain ⟨r₁, hstep₁, h₁⟩ := h.header hne hname hvalue (xs.flatMap renderHeader ++ rest)
      obtain ⟨r', hsteps, h'⟩ := ih h₁ (fun y hy => hxs y (List.mem_cons_of_mem x hy))
      refine ⟨r', .head ?_ hsteps, ?_⟩
      · rw [List.flatMap_cons, List.append_assoc]
        exact hstep₁
      · rw [List.append_assoc] at h'
        exact h'

/-- The URI and the parameters behind it. -/
theorem At.query (h : At 1 q r) {uri : List UInt8} (hne : uri ≠ []) (huri : IsIdent uri)
    {ps : List (List UInt8 × Option (List UInt8))} (hq : q.params = [])
    (hps : ∀ p ∈ ps, IsIdent p.1 ∧ ∀ value ∈ p.2, IsIdent value) (rest : List UInt8) :
    ∃ r', requestReader.Steps (r, uri ++ (renderQuery ps ++ ' '.toUInt8 :: rest)) (r', rest) ∧
      At 4 { q with uri := uri, params := ps } r' := by
  cases ps with
  | nil =>
      obtain ⟨r', hstep, h'⟩ := h.uri hne huri (.inr rfl) rest
      refine ⟨r', .head hstep .refl, ?_⟩
      rw [← hq]
      exact h'
  | cons p ps =>
      obtain ⟨r₁, hstep₁, h₁⟩ := h.uri hne huri (.inl rfl)
        (renderParams (p :: ps) ++ ' '.toUInt8 :: rest)
      obtain ⟨r', hsteps, h'⟩ := At.params h₁ (List.cons_ne_nil p ps) hps rest
      refine ⟨r', .head hstep₁ hsteps, ?_⟩
      rw [hq] at h'
      exact h'

/-- The rendering is read as a request that says what was rendered. -/
theorem steps_render (hq : q.WellFormed) (rest : List UInt8) :
    ∃ r, requestReader.Steps (.start, q.renderLines ++ '\r'.toUInt8 :: rest) (r, rest) ∧
      r.state = .finished ∧ r.said = q ∧ ∀ h ∈ r.headers, h.closed = true := by
  have h₀ : At 0 Reading.start.said .start := ⟨rfl, rfl, rfl, nofun⟩
  have hlines : q.renderLines ++ '\r'.toUInt8 :: rest = q.method.str ++ ' '.toUInt8 ::
      (q.uri ++ (renderQuery q.params ++ ' '.toUInt8 :: (q.ver ++ ascii ['\r', '\n'] ++
        (q.headers.flatMap renderHeader ++ '\r'.toUInt8 :: rest)))) := by
    simp only [Request.renderLines, ascii, List.map_cons, List.map_nil, List.append_assoc,
      List.cons_append, List.nil_append]
  obtain ⟨r₁, hstep₁, h₁⟩ := h₀.method hq.method (q.uri ++ (renderQuery q.params ++
    ' '.toUInt8 :: (q.ver ++ ascii ['\r', '\n'] ++
      (q.headers.flatMap renderHeader ++ '\r'.toUInt8 :: rest))))
  obtain ⟨r₂, hsteps₂, h₂⟩ := h₁.query hq.uri_ne_nil hq.uri rfl hq.params
    (q.ver ++ ascii ['\r', '\n'] ++ (q.headers.flatMap renderHeader ++ '\r'.toUInt8 :: rest))
  obtain ⟨r₃, hstep₃, h₃⟩ := At.version h₂ hq.ver_ne_nil hq.ver
    (q.headers.flatMap renderHeader ++ '\r'.toUInt8 :: rest)
  obtain ⟨r₄, hsteps₄, h₄⟩ := At.headers h₃ hq.headers ('\r'.toUInt8 :: rest)
  obtain ⟨r, hstep, hstate, hsaid, hclosed⟩ := h₄.ends rest
  refine ⟨r, ?_, hstate, hsaid, hclosed⟩
  rw [hlines]
  exact .head hstep₁ (hsteps₂.trans (.head hstep₃ (hsteps₄.trans (.head hstep .refl))))

end Runs

/-! ## What the buffer holds -/

/-- A pointer to a string, or none where there is no string. -/
def HoldsText (mem : Mem) : Option Nat → Option (List UInt8) → Prop := Option.Rel (HoldsAt mem)

/-- A request in a buffer says what `q` says. -/
structure Says (mem : Mem) (req : HttpReq) (q : Request) : Prop where
  method : req.method = q.method
  uri : HoldsText mem req.uri (some q.uri)
  numParams : req.numParams = q.params.length
  params : ∀ (i : Nat) p, q.params[i]? = some p → ∃ name value,
    req.params[i]? = some name ∧ req.values[i]? = some value ∧
      HoldsText mem name (some p.1) ∧ HoldsText mem value p.2
  ver : HoldsText mem req.ver (some q.ver)
  host : HoldsText mem req.host (q.last hostName)
  userAgent : HoldsText mem req.userAgent (q.last userAgentName)
  mime : HoldsText mem req.mime (q.last contentTypeName)
  contLen : req.contLen = ((q.last contentLengthName).map strtol).getD 0
  accept : HoldsText mem req.accept (q.last acceptName)
  acceptLang : HoldsText mem req.acceptLang (q.last acceptLanguageName)
  acceptEnc : HoldsText mem req.acceptEnc (q.last acceptEncodingName)
  cookie : HoldsText mem req.cookie (q.last cookieName)
  connType : req.connType = ((q.last connectionName).map connTypeOf).getD .none
  keepAlive : req.keepAlive = ((q.last keepAliveName).map strtol).getD 0

/-- The name of a header. -/
def Field.name : Field → List UInt8
  | .host => hostName
  | .userAgent => userAgentName
  | .mime => contentTypeName
  | .contLen => contentLengthName
  | .accept => acceptName
  | .acceptLang => acceptLanguageName
  | .acceptEnc => acceptEncodingName
  | .cookie => cookieName
  | .connType => connectionName
  | .keepAlive => keepAliveName

section Buffer

variable {v : Nat → Int} {mem : Mem} {rb : HttpReqb} {r : Reading} {l : List UInt8} {q : Request}
  {f : Field}

theorem fieldOf_eq_some {name : List UInt8} : fieldOf name = some f ↔ name = f.name := by
  constructor
  · intro h
    -- Either the first name is the one, or a later one is.
    have hor {p : Prop} [Decidable p] {g : Field} {x : Option Field}
        (hx : (if p then some g else x) = some f) : (p ∧ g = f) ∨ x = some f := by
      split at hx
      next hp => exact .inl ⟨hp, Option.some.inj hx⟩
      next => exact .inr hx
    unfold fieldOf at h
    iterate 10
      obtain ⟨hname, rfl⟩ | h := hor h
      · exact hname
    cases h
  · rintro rfl
    cases f <;> decide

/-- The last header of a name, in a reading and in what it says. -/
theorem last_said (f : Field) :
    r.said.last f.name = (lastOf r.headers f).map (·.value.str) := by
  simp only [Request.last, lastOf, Reading.said, List.reverse_reverse, List.find?_map,
    Option.map_map, fieldOf_eq_some]
  rfl

variable (h : Rel v mem rb r l) (hclosed : ∀ x ∈ r.headers, x.closed = true)
include h

/-- A text of the reading. -/
theorem Rel.holds {t : Option Text} (ht : ∀ x ∈ t, x ∈ r.texts) :
    HoldsText mem (t.map Text.off) (t.map Text.str) := by
  cases t with
  | none => exact .none
  | some x => exact .some (h.texts x (ht x rfl)).1

include hclosed

/-- The value of the last header of a name. -/
theorem Rel.holds_last (f : Field) :
    HoldsText mem ((lastOf r.headers f).map (·.value.off)) (r.said.last f.name) := by
  rw [last_said]
  cases hlast : lastOf r.headers f with
  | none => exact .none
  | some x =>
      have hx := List.mem_of_find?_eq_some hlast
      exact .some (h.texts _ (Reading.mem_texts.mpr
        (.inr (.inr (.inr ⟨x, hx, hclosed x hx, rfl⟩))))).1

omit h in
theorem numberOf_last (f : Field) :
    numberOf v (lastOf r.headers f) = ((r.said.last f.name).map strtol).getD 0 := by
  rw [last_said]
  cases hlast : lastOf r.headers f with
  | none => rfl
  | some x => exact if_pos (hclosed x (List.mem_of_find?_eq_some hlast))

/-- The buffer says what the reading says. -/
theorem Rel.says (huri : r.said.uri ≠ []) (hver : r.said.ver ≠ [])
    (hlen : r.params.length ≤ httpReqMaxParams) : Says mem rb.req r.said := by
  have hlast := h.holds_last hclosed
  rw [h.req]
  refine ⟨rfl, ?_, (List.length_map _).symm, fun i p hp => ?_, ?_, hlast .host, hlast .userAgent,
    hlast .mime, numberOf_last hclosed .contLen, hlast .accept, hlast .acceptLang,
    hlast .acceptEnc, hlast .cookie, ?_, numberOf_last hclosed .keepAlive⟩
  · cases hcase : r.uri with
    | none => exact absurd (by rw [Reading.said, hcase]; rfl) huri
    | some t =>
        have ht := (h.texts t (Reading.mem_texts.mpr (.inl hcase))).1
        simp only [Reading.req, Reading.said, hcase, Option.map_some, Option.getD_some]
        exact .some ht
  · have hp' : (r.params.map Param.said)[i]? = some p := hp
    rw [List.getElem?_map] at hp'
    obtain ⟨param, hparam, rfl⟩ := Option.map_eq_some_iff.mp hp'
    have hi : i < httpReqMaxParams :=
      Nat.lt_of_lt_of_le (List.getElem?_eq_some_iff.mp hparam).1 hlen
    have htext {x : Text} (hx : param.name = x ∨ param.value = some x) : x ∈ r.texts :=
      Reading.mem_texts.mpr (.inr (.inr (.inl ⟨param, List.mem_of_getElem? hparam, hx⟩)))
    refine ⟨some param.name.off, param.value.map Text.off, ?_, ?_, ?_, ?_⟩
    · simp only [Reading.req, slots_get? _ hi, hparam, Option.map_some]
    · simp only [Reading.req, slots_get? _ hi, hparam, Option.bind_some]
    · exact .some (h.texts _ (htext (.inl rfl))).1
    · exact h.holds fun x hx => htext (.inr hx)
  · cases hcase : r.ver with
    | none => exact absurd (by rw [Reading.said, hcase]; rfl) hver
    | some t =>
        have ht := (h.texts t (Reading.mem_texts.mpr (.inr (.inl hcase)))).1
        simp only [Reading.req, Reading.said, hcase, Option.map_some, Option.getD_some]
        exact .some ht
  · show _ = ((r.said.last (Field.name .connType)).map connTypeOf).getD .none
    rw [last_said, Option.map_map]
    rfl

end Buffer

/-! ## Round trip -/

theorem length_render (q : Request) : q.render.length = q.renderLines.length + 2 :=
  List.length_append

/-- The state that a front part of a rendering is read to. -/
theorem state_of_front {q : Request} (hq : q.WellFormed) {k m l : List UInt8} {r : Reading}
    (hk : k ++ m = q.render) (hreads : requestReader.Reads (.start, k) (r, l)) :
    r.state = if q.render.length ≤ k.length + 1 then .finished else .unfinished := by
  have hlen := congrArg List.length hk
  rw [List.length_append] at hlen
  split
  next hle =>
    -- The carriage return is in the front part.
    have hlines : q.renderLines ++ ['\r'.toUInt8] <+: q.render :=
      ⟨['\n'.toUInt8], List.append_assoc ..⟩
    have hcount : (q.renderLines ++ ['\r'.toUInt8]).length ≤ k.length := by
      rw [length_render] at hle
      rw [List.length_append, List.length_singleton]
      omega
    obtain ⟨rest, rfl⟩ := List.prefix_of_prefix_length_le hlines ⟨m, hk⟩ hcount
    obtain ⟨r', hsteps, hstate, -⟩ := steps_render hq rest
    have hreads' : requestReader.Reads (.start, q.renderLines ++ ['\r'.toUInt8] ++ rest)
        (r', rest) := by
      rw [List.append_assoc]
      exact ⟨hsteps, step_of_not_live (by rw [hstate]; decide)⟩
    obtain ⟨rfl, -⟩ := Prod.mk.inj (hreads.unique hreads')
    exact hstate
  next hlt =>
    -- An end in the front part is the end, with one octet left at most.
    by_contra hend
    obtain ⟨r', hsteps, hstate, -⟩ := steps_render hq ['\n'.toUInt8]
    have hwhole : requestReader.Reads (.start, q.render) (r', ['\n'.toUInt8]) :=
      ⟨hsteps, step_of_not_live (by rw [hstate]; decide)⟩
    have hfront : requestReader.Reads (.start, k ++ m) (r, l ++ m) :=
      hreads.append ⟨.refl, step_of_not_live hend⟩
    rw [hk] at hfront
    have hrest := congrArg List.length (Prod.mk.inj (hfront.unique hwhole)).2
    rw [List.length_append, List.length_singleton] at hrest
    omega

/-- What is rendered and pushed in any pieces comes back.  The request is finished once the
carriage return of the last line has come, and not before. -/
theorem push_render (q : Request) (hq : q.WellFormed) (mem : Mem) (bsize : Nat)
    (hb : bsize < 2147483648) (hfit : q.render.length < bsize) (pieces : List (List UInt8))
    (hpieces : pieces.flatten = q.render) :
    (∀ front back, pieces = front ++ back →
      ∃ m rb, pushAll mem (httpReqbInit bsize hb) front = some (m, rb) ∧
        rb.state = if q.render.length ≤ front.flatten.length + 1 then .finished
          else .unfinished) ∧
      ∃ m rb, pushAll mem (httpReqbInit bsize hb) pieces = some (m, rb) ∧
        rb.state = .finished ∧ Says m rb.req q := by
  obtain ⟨r, hsteps, hstate, hsaid, hclosed⟩ := steps_render hq ['\n'.toUInt8]
  have hreads : requestReader.Reads (.start, q.render) (r, ['\n'.toUInt8]) :=
    ⟨hsteps, step_of_not_live (by rw [hstate]; decide)⟩
  constructor
  · rintro front back rfl
    rw [List.flatten_append] at hpieces
    have hlen := congrArg List.length hpieces
    rw [List.length_append] at hlen
    obtain ⟨w, m, rb, r', l', hrun, hreads', hrel⟩ :=
      pushAll_init mem hb (show front.flatten.length < bsize by omega)
    exact ⟨m, rb, hrun, hrel.state.trans (state_of_front hq hpieces hreads')⟩
  · obtain ⟨w, m, rb, r', l', hrun, hreads', hrel⟩ := pushAll_init mem hb (hpieces ▸ hfit)
    rw [hpieces] at hreads'
    obtain ⟨rfl, rfl⟩ := Prod.mk.inj (hreads'.unique hreads)
    refine ⟨m, rb, hrun, hrel.state.trans hstate, ?_⟩
    have hlen : r'.params.length = q.params.length := by
      rw [← hsaid]
      exact (List.length_map _).symm
    have hsays := hrel.says hclosed (hsaid ▸ hq.uri_ne_nil) (hsaid ▸ hq.ver_ne_nil)
      (hlen ▸ hq.length_params)
    exact hsaid ▸ hsays

/-- `GET /led?on=1&all 1`, with a header. -/
def ledRequest : Request where
  method := .get
  uri := ascii ['/', 'l', 'e', 'd']
  params := [(ascii ['o', 'n'], some (ascii ['1'])), (ascii ['a', 'l', 'l'], none)]
  ver := ascii ['1']
  headers := [(contentLengthName, ascii ['7'])]

theorem ledRequest_wellFormed : ledRequest.WellFormed := by
  constructor <;> decide

theorem push_led : ∃ m rb,
    pushAll .zero (httpReqbInit 100 (by decide)) [ledRequest.render] = some (m, rb) ∧
      rb.state = .finished ∧ Says m rb.req ledRequest :=
  (push_render ledRequest ledRequest_wellFormed .zero 100 (by decide) (by decide)
    [ledRequest.render] List.flatten_singleton).2

end Adhoc
