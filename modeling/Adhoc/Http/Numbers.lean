import Adhoc.Http.Stream

/-!
# The shapes of numbers

The comment of `parser_read_value` draws what it takes as a diagram, and the flags of the
format say which paths of the diagram are open.  The paths are the grammar here (`Shape`): digits
with a point and an exponent, behind a sign, or a zero with the letter of a base and digits of
that base.

Two things keep the function from the diagram.  It asks for `VAL_FMT_FLOAT` before an
exponent, and `VAL_FMT_EXP` is not used.  And where a sign came first, a letter of a base
behind it is taken if `last`, which nothing has set, happens to hold a zero digit.
-/

namespace Adhoc

open ByteMem Scanner

/-- `VAL_FMT_EXP`. -/
def valFmtExp : UInt32 := 16

/-! ## The diagram -/

/-- Digits. -/
def Digits (w : List UInt8) : Prop := ∀ d ∈ w, isDigit d

/-- Digits of base sixteen. -/
def HexDigits (w : List UInt8) : Prop := ∀ d ∈ w, isDigit d ∨ isHexLetter d

/-- Digits of base two. -/
def BinDigits (w : List UInt8) : Prop := ∀ d ∈ w, isEither '0'.toUInt8 '1'.toUInt8 d

/-- What is behind the `e` of an exponent. -/
inductive Exponent : List UInt8 → Prop where
  | unsigned {w : List UInt8} : Digits w → Exponent w
  | signed {c : UInt8} {w : List UInt8} : isSign c → Digits w → Exponent (c :: w)

/-- What is behind the point.  `exp` tells whether an exponent may follow. -/
inductive Fraction (exp : Bool) : List UInt8 → Prop where
  | nil : Fraction exp []
  | digit {c : UInt8} {w : List UInt8} : isDigit c → Fraction exp w → Fraction exp (c :: w)
  | exp {c : UInt8} {w : List UInt8} : exp → isEither 'e'.toUInt8 'E'.toUInt8 c → Exponent w →
      Fraction exp (c :: w)

/-- A number without its sign.  `float` tells whether a point may follow. -/
inductive Decimal (float exp : Bool) : List UInt8 → Prop where
  | nil : Decimal float exp []
  | digit {c : UInt8} {w : List UInt8} : isDigit c → Decimal float exp w →
      Decimal float exp (c :: w)
  | point {c : UInt8} {w : List UInt8} : c = '.'.toUInt8 → float → Fraction exp w →
      Decimal float exp (c :: w)
  | exp {c : UInt8} {w : List UInt8} : exp → isEither 'e'.toUInt8 'E'.toUInt8 c → Exponent w →
      Decimal float exp (c :: w)

/-- What is behind the zero of a number of another base. -/
inductive Based (fmt : UInt32) : List UInt8 → Prop where
  | hex {c : UInt8} {w : List UInt8} :
      (hasFmt fmt valFmt0X ∧ isEither 'x'.toUInt8 'X'.toUInt8 c) ∨
        (hasFmt fmt valFmt0H ∧ isEither 'h'.toUInt8 'H'.toUInt8 c) →
      HexDigits w → Based fmt (c :: w)
  | bin {c : UInt8} {w : List UInt8} : hasFmt fmt valFmt0B → isEither 'b'.toUInt8 'B'.toUInt8 c →
      BinDigits w → Based fmt (c :: w)

/-- A number, with an exponent if `exp` holds. -/
inductive Shape (fmt : UInt32) (exp : Bool) : List UInt8 → Prop where
  | unsigned {w : List UInt8} : Decimal (hasFmt fmt valFmtFloat) exp w → Shape fmt exp w
  | signed {c : UInt8} {w : List UInt8} : hasFmt fmt valFmtSign → isSign c →
      Decimal (hasFmt fmt valFmtFloat) exp w → Shape fmt exp (c :: w)
  | based {c : UInt8} {w : List UInt8} : c = '0'.toUInt8 → Based fmt w → Shape fmt exp (c :: w)

/-- The part of a number before its exponent. -/
inductive Mantissa (fmt : UInt32) : List UInt8 → Prop where
  | unsigned {w : List UInt8} : Decimal (hasFmt fmt valFmtFloat) false w → Mantissa fmt w
  | signed {c : UInt8} {w : List UInt8} : hasFmt fmt valFmtSign → isSign c →
      Decimal (hasFmt fmt valFmtFloat) false w → Mantissa fmt (c :: w)

/-! ## The first character -/

section First

variable {fmt : UInt32} {float exp : Bool} {c : UInt8} {w : List UInt8}

theorem digits_cons : Digits (c :: w) ↔ isDigit c ∧ Digits w := List.forall_mem_cons

theorem exponent_cons : Exponent (c :: w) ↔ Digits (c :: w) ∨ (isSign c ∧ Digits w) := by
  constructor
  · intro h
    cases h with
    | unsigned hw => exact .inl hw
    | signed hc hw => exact .inr ⟨hc, hw⟩
  · rintro (hw | ⟨hc, hw⟩)
    · exact .unsigned hw
    · exact .signed hc hw

theorem fraction_cons : Fraction exp (c :: w) ↔ (isDigit c ∧ Fraction exp w) ∨
    (exp ∧ isEither 'e'.toUInt8 'E'.toUInt8 c ∧ Exponent w) := by
  constructor
  · intro h
    cases h with
    | digit hc hw => exact .inl ⟨hc, hw⟩
    | exp hexp hc hw => exact .inr ⟨hexp, hc, hw⟩
  · rintro (⟨hc, hw⟩ | ⟨hexp, hc, hw⟩)
    · exact .digit hc hw
    · exact .exp hexp hc hw

theorem decimal_cons : Decimal float exp (c :: w) ↔ (isDigit c ∧ Decimal float exp w) ∨
    (c = '.'.toUInt8 ∧ float ∧ Fraction exp w) ∨
    (exp ∧ isEither 'e'.toUInt8 'E'.toUInt8 c ∧ Exponent w) := by
  constructor
  · intro h
    cases h with
    | digit hc hw => exact .inl ⟨hc, hw⟩
    | point hc hfloat hw => exact .inr (.inl ⟨hc, hfloat, hw⟩)
    | exp hexp hc hw => exact .inr (.inr ⟨hexp, hc, hw⟩)
  · rintro (⟨hc, hw⟩ | ⟨hc, hfloat, hw⟩ | ⟨hexp, hc, hw⟩)
    · exact .digit hc hw
    · exact .point hc hfloat hw
    · exact .exp hexp hc hw

theorem shape_cons : Shape fmt exp (c :: w) ↔ Decimal (hasFmt fmt valFmtFloat) exp (c :: w) ∨
    (hasFmt fmt valFmtSign ∧ isSign c ∧ Decimal (hasFmt fmt valFmtFloat) exp w) ∨
    (c = '0'.toUInt8 ∧ Based fmt w) := by
  constructor
  · intro h
    cases h with
    | unsigned hw => exact .inl hw
    | signed hfmt hc hw => exact .inr (.inl ⟨hfmt, hc, hw⟩)
    | based hc hw => exact .inr (.inr ⟨hc, hw⟩)
  · rintro (hw | ⟨hfmt, hc, hw⟩ | ⟨hc, hw⟩)
    · exact .unsigned hw
    · exact .signed hfmt hc hw
    · exact .based hc hw

/-- A letter of a base takes the function to the state of that base. -/
theorem based_cons : Based fmt (c :: w) ↔ (baseState fmt c = some 6 ∧ HexDigits w) ∨
    (baseState fmt c = some 7 ∧ BinDigits w) := by
  have hcomm (x y : UInt8) : isEither x y c = isEither y x c := Bool.or_comm ..
  constructor
  · intro h
    cases h with
    | hex hc hw =>
        refine .inl ⟨if_pos ?_, hw⟩
        rw [hcomm 'H'.toUInt8]
        exact hc.symm.imp_right And.symm
    | bin hfmt hc hw =>
        refine .inr ⟨(if_neg ?_).trans (if_pos ⟨hfmt, hc⟩), hw⟩
        simp only [isEither, Bool.or_eq_true, decide_eq_true_eq] at hc
        rcases hc with rfl | rfl
        · rintro (⟨-, hx⟩ | ⟨hx, -⟩) <;> cases hx
        · rintro (⟨-, hx⟩ | ⟨hx, -⟩) <;> cases hx
  · rintro (⟨hstate, hw⟩ | ⟨hstate, hw⟩)
    · unfold baseState at hstate
      split at hstate
      next hc =>
        rw [hcomm 'H'.toUInt8] at hc
        exact .hex (hc.symm.imp_left And.symm) hw
      next => split at hstate <;> cases hstate
    · unfold baseState at hstate
      split at hstate
      next => cases hstate
      next =>
        split at hstate
        next hc => exact .bin hc.1 hc.2 hw
        next => cases hstate

theorem based_singleton (h : baseState fmt c ≠ none) : Based fmt [c] := by
  obtain ⟨state, hstate⟩ := Option.ne_none_iff_exists'.mp h
  rcases baseState_eq hstate with rfl | rfl
  · exact based_cons.mpr (.inl ⟨hstate, List.forall_mem_nil _⟩)
  · exact based_cons.mpr (.inr ⟨hstate, List.forall_mem_nil _⟩)

/-- It begins with such a letter. -/
theorem Based.exists_cons (h : Based fmt w) : ∃ c w', w = c :: w' ∧ baseState fmt c ≠ none := by
  cases h with
  | hex hc hw =>
      refine ⟨_, _, rfl, ?_⟩
      rcases based_cons.mp (.hex hc hw) with ⟨hstate, -⟩ | ⟨hstate, -⟩
      · exact fun hnone => Option.some_ne_none 6 (hstate.symm.trans hnone)
      · exact fun hnone => Option.some_ne_none 7 (hstate.symm.trans hnone)
  | bin hfmt hc hw =>
      refine ⟨_, _, rfl, ?_⟩
      rcases based_cons.mp (.bin hfmt hc hw) with ⟨hstate, -⟩ | ⟨hstate, -⟩
      · exact fun hnone => Option.some_ne_none 6 (hstate.symm.trans hnone)
      · exact fun hnone => Option.some_ne_none 7 (hstate.symm.trans hnone)

/-- A digit is nothing else. -/
theorem of_isDigit (h : isDigit c) : c ≠ '.'.toUInt8 ∧ isEither 'e'.toUInt8 'E'.toUInt8 c = false ∧
    isSign c = false ∧ ∀ fmt, baseState fmt c = none := by
  refine ⟨?_, ?_, ?_, fun fmt => ?_⟩
  · rintro rfl
    cases h
  · by_contra hexp
    simp only [isEither, Bool.not_eq_false, Bool.or_eq_true, decide_eq_true_eq] at hexp
    rcases hexp with rfl | rfl <;> cases h
  · by_contra hsign
    cases h.symm.trans (of_isSign (Bool.not_eq_false _ ▸ hsign)).1
  · by_contra hbase
    cases h.symm.trans (of_baseState hbase).1

/-- The letter of an exponent is nothing else. -/
theorem of_isExp (h : isEither 'e'.toUInt8 'E'.toUInt8 c) :
    isDigit c = false ∧ c ≠ '.'.toUInt8 ∧ isSign c = false ∧ ∀ fmt, baseState fmt c = none := by
  refine ⟨?_, ?_, ?_, fun fmt => ?_⟩
  · by_contra hdigit
    cases h.symm.trans (of_isDigit (Bool.not_eq_false _ ▸ hdigit)).2.1
  · rintro rfl
    cases h
  · by_contra hsign
    cases h.symm.trans (of_isSign (Bool.not_eq_false _ ▸ hsign)).2.2
  · by_contra hbase
    cases h.symm.trans (of_baseState hbase).2.2

end First

/-! ## What the function takes -/

/-- A number of another base behind a sign, where `last` holds a zero digit at first. -/
inductive Stray (fmt : UInt32) (last : UInt8) : List UInt8 → Prop where
  | mk {c : UInt8} {w : List UInt8} : last = '0'.toUInt8 → hasFmt fmt valFmtSign → isSign c →
      Based fmt w → Stray fmt last (c :: w)

/-- What the function takes from a state of its loop.  `VAL_FMT_FLOAT` opens the exponent. -/
def Value.Lang (fmt : UInt32) (v : Value) (w : List UInt8) : Prop :=
  let float := hasFmt fmt valFmtFloat
  if v.state = 0 then
    if v.dest.res = 0 then Shape fmt float w ∨ Stray fmt v.last w
    else Decimal float float w ∨ (v.dest.res = 1 ∧ v.last = '0'.toUInt8 ∧ Based fmt w)
  else if v.state = 2 then Fraction float w
  else if v.state = 4 then Exponent w
  else if v.state = 5 then Digits w
  else if v.state = 6 then HexDigits w
  else if v.state = 7 then BinDigits w
  else w = []

/-- Behind state 0 something is stored. -/
def Value.Begun (v : Value) : Prop := v.state = 0 ∨ v.dest.res ≠ 0

/-- A number begins with a digit, a point or an exponent. -/
theorem not_decimal_of {float exp : Bool} {c : UInt8} {w : List UInt8}
    (hdigit : isDigit c = false) (hpoint : ¬ (c = '.'.toUInt8 ∧ float))
    (hexp : ¬ (isEither 'e'.toUInt8 'E'.toUInt8 c ∧ exp)) : ¬ Decimal float exp (c :: w) := by
  rw [decimal_cons, hdigit]
  rintro (⟨hfalse, -⟩ | ⟨hc, hfloat, -⟩ | ⟨hfmt, hc, -⟩)
  · cases hfalse
  · exact hpoint ⟨hc, hfloat⟩
  · exact hexp ⟨hc, hfmt⟩

/-- It does not begin with the letter of a base. -/
theorem not_decimal_cons {float exp : Bool} {c : UInt8} {w : List UInt8}
    (hdigit : isDigit c = false) (hpoint : c ≠ '.'.toUInt8)
    (hexp : isEither 'e'.toUInt8 'E'.toUInt8 c = false) : ¬ Decimal float exp (c :: w) :=
  not_decimal_of hdigit (fun h => hpoint h.1) fun h => by cases hexp.symm.trans h.1

theorem ne_zero_of_not_digit {c : UInt8} (h : isDigit c = false) : c ≠ '0'.toUInt8 := by
  rintro rfl
  cases h

section Rounds

variable {destSize : Nat} {fmt : UInt32} {c last : UInt8} {d : Dest} {w : List UInt8}

theorem stray_cons : Stray fmt last (c :: w) ↔
    last = '0'.toUInt8 ∧ hasFmt fmt valFmtSign ∧ isSign c ∧ Based fmt w := by
  constructor
  · intro h
    cases h with
    | mk hlast hfmt hc hw => exact ⟨hlast, hfmt, hc, hw⟩
  · exact fun ⟨hlast, hfmt, hc, hw⟩ => .mk hlast hfmt hc hw

theorem readDecimal_zero : (readDecimal destSize fmt ⟨d, 0, last⟩ c).Takes (Value.Lang fmt)
    (·.dest.res) ⟨d, 0, last⟩ c := by
  unfold readDecimal
  split
  next hdigit =>
    obtain ⟨hpoint, hexp, hsign, hbase⟩ := of_isDigit hdigit
    refine ⟨rfl, fun w => ?_⟩
    by_cases hres : d.res = 0
    · simp [Value.Lang, Value.put, Dest.put, hres, shape_cons, stray_cons, decimal_cons, hdigit,
        hpoint, hexp, hsign]
    · simp [Value.Lang, Value.put, Dest.put, hres, decimal_cons, based_cons, hdigit,
        hpoint, hexp, hbase]
  next hdigit =>
    rw [Bool.not_eq_true] at hdigit
    split
    next hc =>
      obtain ⟨-, rfl, hfloat⟩ := hc
      have hbase : baseState fmt '.'.toUInt8 = none := by
        by_contra hne
        exact (of_baseState hne).2.1 rfl
      have hexp : isEither 'e'.toUInt8 'E'.toUInt8 '.'.toUInt8 = false := rfl
      have hsign : isSign '.'.toUInt8 = false := rfl
      have hzero : '.'.toUInt8 ≠ '0'.toUInt8 := by decide
      refine ⟨rfl, fun w => ?_⟩
      by_cases hres : d.res = 0
      · simp [Value.Lang, Value.put, Dest.put, hres, shape_cons, stray_cons, decimal_cons, hdigit,
          hexp, hsign, hfloat, hzero]
      · simp [Value.Lang, Value.put, Dest.put, hres, decimal_cons, based_cons, hdigit, hexp,
          hfloat, hbase]
    next hpoint =>
      split
      next hc =>
        obtain ⟨-, hexp, hfloat⟩ := hc
        obtain ⟨-, hne, hsign, hbase⟩ := of_isExp hexp
        have hzero := ne_zero_of_not_digit hdigit
        refine ⟨rfl, fun w => ?_⟩
        by_cases hres : d.res = 0
        · simp [Value.Lang, Value.put, Dest.put, hres, shape_cons, stray_cons, decimal_cons,
            hdigit, hexp, hsign, hfloat, hzero, hne]
        · simp [Value.Lang, Value.put, Dest.put, hres, decimal_cons, based_cons, hdigit, hexp,
            hfloat, hbase, hne]
      next hexp =>
        have hdecimal (w : List UInt8) :
            ¬ Decimal (hasFmt fmt valFmtFloat) (hasFmt fmt valFmtFloat) (c :: w) :=
          not_decimal_of hdigit (fun h => hpoint ⟨rfl, h⟩) fun h => hexp ⟨.inl rfl, h⟩
        have hzero := ne_zero_of_not_digit hdigit
        split
        next state hstate =>
          obtain ⟨⟨-, hlast, hres⟩, hbase⟩ := Option.ite_none_right_eq_some.mp hstate
          dsimp only at hlast hres
          refine ⟨rfl, fun w => ?_⟩
          rcases baseState_eq hbase with rfl | rfl
          · simp [Value.Lang, Value.put, hres, hlast, hdecimal, based_cons, hbase]
          · simp [Value.Lang, Value.put, hres, hlast, hdecimal, based_cons, hbase]
        next hstate =>
          split
          next hsign =>
            obtain ⟨hfmt, hres, hsign⟩ := hsign
            dsimp only at hres
            refine ⟨rfl, fun w => ?_⟩
            simp [Value.Lang, Value.put, Dest.put, hres, shape_cons, stray_cons, hdecimal, hzero,
              hfmt, hsign]
          next hsign =>
            refine ⟨rfl, fun w => ?_⟩
            by_cases hres : d.res = 0
            · simp only [Value.Lang, hres, if_true, shape_cons, stray_cons, hdecimal, hzero]
              rintro ((hfalse | ⟨hfmt, hc, -⟩ | ⟨hfalse, -⟩) | ⟨-, hfmt, hc, -⟩)
              · exact hfalse
              · exact hsign ⟨hfmt, hres, hc⟩
              · exact hfalse
              · exact hsign ⟨hfmt, hres, hc⟩
            · simp only [Value.Lang, hres, if_true, if_false, hdecimal, false_or, based_cons]
              rintro ⟨hone, hlast, hbased⟩
              rw [if_pos ⟨rfl, hlast, hone⟩] at hstate
              simp [hstate] at hbased

theorem readDecimal_two (hres : d.res ≠ 0) : (readDecimal destSize fmt ⟨d, 2, last⟩ c).Takes
    (Value.Lang fmt) (·.dest.res) ⟨d, 2, last⟩ c := by
  cases hdigit : isDigit c with
  | true =>
      have hround : readDecimal destSize fmt ⟨d, 2, last⟩ c = .next ⟨d.put destSize c, 2, c⟩ := by
        simp [readDecimal, Value.put, hdigit]
      rw [hround]
      exact ⟨rfl, fun w => by simp [Value.Lang, fraction_cons, hdigit, of_isDigit hdigit]⟩
  | false =>
      by_cases hexp : isEither 'e'.toUInt8 'E'.toUInt8 c = true ∧ hasFmt fmt valFmtFloat = true
      · have hround : readDecimal destSize fmt ⟨d, 2, last⟩ c =
            .next ⟨d.put destSize c, 4, last⟩ := by
          simp [readDecimal, Value.put, hdigit, hexp]
        rw [hround]
        exact ⟨rfl, fun w => by simp [Value.Lang, fraction_cons, hdigit, hexp]⟩
      · have hround : readDecimal destSize fmt ⟨d, 2, last⟩ c = .stop ⟨d, 2, last⟩ := by
          simp [readDecimal, hdigit, hexp, hres]
        rw [hround]
        refine ⟨rfl, fun w hw => ?_⟩
        rcases fraction_cons.mp hw with ⟨hc, -⟩ | ⟨hfloat, hc, -⟩
        · cases hdigit.symm.trans hc
        · exact hexp ⟨hc, hfloat⟩

theorem readDecimal_five (hres : d.res ≠ 0) : (readDecimal destSize fmt ⟨d, 5, last⟩ c).Takes
    (Value.Lang fmt) (·.dest.res) ⟨d, 5, last⟩ c := by
  cases hdigit : isDigit c with
  | true =>
      have hround : readDecimal destSize fmt ⟨d, 5, last⟩ c = .next ⟨d.put destSize c, 5, c⟩ := by
        simp [readDecimal, Value.put, hdigit]
      rw [hround]
      exact ⟨rfl, fun w => by simp [Value.Lang, digits_cons, hdigit]⟩
  | false =>
      have hround : readDecimal destSize fmt ⟨d, 5, last⟩ c = .stop ⟨d, 5, last⟩ := by
        simp [readDecimal, hdigit, hres]
      rw [hround]
      refine ⟨rfl, fun w hw => ?_⟩
      cases hdigit.symm.trans (digits_cons.mp hw).1

/-- The states 6 and 7. -/
theorem digits_takes {state : Nat} {p : UInt8 → Prop} [DecidablePred p]
    (hstate : ∀ d w, Value.Lang fmt ⟨d, state, last⟩ w ↔ ∀ c ∈ w, p c) :
    (if p c then Act.next (Value.put ⟨d, state, last⟩ destSize c state)
      else .stop ⟨d, state, last⟩).Takes (Value.Lang fmt) (·.dest.res) ⟨d, state, last⟩ c := by
  split
  next hc =>
    refine ⟨rfl, fun w => ?_⟩
    rw [hstate, Value.put, hstate, List.forall_mem_cons]
    exact and_iff_right hc
  next hc =>
    refine ⟨rfl, fun w hw => hc ?_⟩
    exact (hstate d (c :: w)).mp hw c List.mem_cons_self

/-- One round is for the languages of the states. -/
theorem readValueBody_takes (v : Value) (c : UInt8) (hv : v.Begun) :
    (readValueBody destSize fmt v c).Takes (Value.Lang fmt) (·.dest.res) v c := by
  obtain ⟨d, state, last⟩ := v
  by_cases h0 : state = 0
  · subst h0
    exact readDecimal_zero
  have hres : d.res ≠ 0 := hv.resolve_left h0
  by_cases h2 : state = 2
  · subst h2
    exact readDecimal_two hres
  by_cases h5 : state = 5
  · subst h5
    exact readDecimal_five hres
  by_cases h4 : state = 4
  · subst h4
    cases hsign : isSign c with
    | true =>
        have hround : readValueBody destSize fmt ⟨d, 4, last⟩ c =
            .next ⟨d.put destSize c, 5, last⟩ := by
          simp [readValueBody, Value.put, hsign]
        rw [hround]
        exact ⟨rfl, fun w => by
          simp [Value.Lang, exponent_cons, digits_cons, hsign, of_isSign hsign]⟩
    | false =>
        have hround : readValueBody destSize fmt ⟨d, 4, last⟩ c = .again ⟨d, 5, last⟩ := by
          simp [readValueBody, hsign]
        rw [hround]
        exact ⟨rfl, fun w => by simp [Value.Lang, exponent_cons, hsign]⟩
  by_cases h6 : state = 6
  · subst h6
    have hround : readValueBody destSize fmt ⟨d, 6, last⟩ c =
        if isDigit c ∨ isHexLetter c then .next (Value.put ⟨d, 6, last⟩ destSize c 6)
        else .stop ⟨d, 6, last⟩ := by
      simp [readValueBody]
    rw [hround]
    exact digits_takes (p := fun c => isDigit c ∨ isHexLetter c) fun _ _ => Iff.rfl
  by_cases h7 : state = 7
  · subst h7
    have hround : readValueBody destSize fmt ⟨d, 7, last⟩ c =
        if isEither '0'.toUInt8 '1'.toUInt8 c then .next (Value.put ⟨d, 7, last⟩ destSize c 7)
        else .stop ⟨d, 7, last⟩ := by
      simp [readValueBody]
    rw [hround]
    exact digits_takes (p := fun c => isEither '0'.toUInt8 '1'.toUInt8 c) fun _ _ => Iff.rfl
  · have hround : readValueBody destSize fmt ⟨d, state, last⟩ c = .stop ⟨d, state, last⟩ := by
      simp [readValueBody, h0, h2, h5, h4, h6, h7]
    rw [hround]
    refine ⟨rfl, fun w hw => ?_⟩
    simp [Value.Lang, h0, h2, h5, h4, h6, h7] at hw

theorem readValueBody_begun (v : Value) (c : UInt8) (hv : v.Begun) :
    (readValueBody destSize fmt v c).All Value.Begun := by
  have hput (state : Nat) : (v.put destSize c state).Begun := .inr (Nat.succ_ne_zero v.dest.res)
  unfold readValueBody readDecimal
  split
  next =>
    split
    next => exact .inr (Nat.succ_ne_zero v.dest.res)
    next =>
      split
      next => exact hput 2
      next =>
        split
        next => exact hput 4
        next =>
          split
          next => exact hput _
          next =>
            split
            next => exact hput _
            next => exact hv
  next hstate =>
    have hres : v.dest.res ≠ 0 := hv.resolve_left fun h0 => hstate (.inl h0)
    split
    next =>
      split
      next => exact hput 5
      next => exact .inr hres
    next =>
      split
      next => exact hput 6
      next =>
        split
        next => exact hput 7
        next => exact hv

end Rounds

theorem Value.lang_nil (fmt : UInt32) (v : Value) : v.Lang fmt [] := by
  unfold Value.Lang
  dsimp only
  repeat' split
  · exact .inl (.unsigned .nil)
  · exact .inl .nil
  · exact .nil
  · exact .unsigned (List.forall_mem_nil _)
  all_goals simp [Digits, HexDigits, BinDigits]

/-! ## Exponents -/

section Exponents

variable {fmt : UInt32} {float exp : Bool} {c : UInt8} {l m t w : List UInt8}

theorem Fraction.mono (h : Fraction false w) : Fraction exp w := by
  induction h with
  | nil => exact .nil
  | digit hc _ ih => exact .digit hc ih
  | exp hexp => cases hexp

theorem Decimal.mono (h : Decimal float false w) : Decimal float exp w := by
  induction h with
  | nil => exact .nil
  | digit hc _ ih => exact .digit hc ih
  | point hc hfloat hw => exact .point hc hfloat hw.mono
  | exp hexp => cases hexp

theorem Shape.mono (h : Shape fmt false w) : Shape fmt exp w := by
  cases h with
  | unsigned hw => exact .unsigned hw.mono
  | signed hfmt hc hw => exact .signed hfmt hc hw.mono
  | based hc hw => exact .based hc hw

/-- Without an exponent there are digits and a point. -/
theorem Fraction.mem (h : Fraction false w) : ∀ c ∈ w, isDigit c ∨ c = '.'.toUInt8 := by
  induction h with
  | nil => exact List.forall_mem_nil _
  | digit hc _ ih => exact List.forall_mem_cons.mpr ⟨.inl hc, ih⟩
  | exp hexp => cases hexp

theorem Decimal.mem (h : Decimal float false w) : ∀ c ∈ w, isDigit c ∨ c = '.'.toUInt8 := by
  induction h with
  | nil => exact List.forall_mem_nil _
  | digit hc _ ih => exact List.forall_mem_cons.mpr ⟨.inl hc, ih⟩
  | point hc _ hw => exact List.forall_mem_cons.mpr ⟨.inr hc, hw.mem⟩
  | exp hexp => cases hexp

theorem Mantissa.tail_mem (h : Mantissa fmt (c :: w)) : ∀ d ∈ w, isDigit d ∨ d = '.'.toUInt8 := by
  cases h with
  | unsigned hw => exact fun d hd => hw.mem d (List.mem_cons_of_mem c hd)
  | signed _ _ hw => exact hw.mem

theorem Decimal.not_isExp (h : Decimal float false w) (hc : isEither 'e'.toUInt8 'E'.toUInt8 c) :
    c ∉ w := by
  obtain ⟨hdigit, hpoint, -⟩ := of_isExp hc
  intro hmem
  rcases h.mem c hmem with hd | hd
  · cases hdigit.symm.trans hd
  · exact hpoint hd

/-- A mantissa with the letter of an exponent. -/
theorem Fraction.snoc (h : Fraction false w) (hc : isEither 'e'.toUInt8 'E'.toUInt8 c) :
    Fraction true (w ++ [c]) := by
  have hexp : Exponent [] := .unsigned (List.forall_mem_nil _)
  induction h with
  | nil => exact .exp rfl hc hexp
  | digit hd _ ih => exact .digit hd ih
  | exp hfalse => cases hfalse

theorem Decimal.snoc (h : Decimal float false w) (hc : isEither 'e'.toUInt8 'E'.toUInt8 c) :
    Decimal float true (w ++ [c]) := by
  have hexp : Exponent [] := .unsigned (List.forall_mem_nil _)
  induction h with
  | nil => exact .exp rfl hc hexp
  | digit hd _ ih => exact .digit hd ih
  | point hd hfloat hw => exact .point hd hfloat (hw.snoc hc)
  | exp hfalse => cases hfalse

theorem Mantissa.snoc (h : Mantissa fmt m) (hc : isEither 'e'.toUInt8 'E'.toUInt8 c) :
    Shape fmt true (m ++ [c]) := by
  cases h with
  | unsigned hw => exact .unsigned (hw.snoc hc)
  | signed hfmt hs hw => exact .signed hfmt hs (hw.snoc hc)

/-- A number without an exponent does not go on behind its mantissa with the letter of one. -/
theorem Mantissa.not_shape (h : Mantissa fmt m) (hc : isEither 'e'.toUInt8 'E'.toUInt8 c) :
    ¬ Shape fmt false (m ++ c :: w) := by
  have hmem : c ∈ m ++ c :: w := List.mem_append_right m List.mem_cons_self
  obtain ⟨hdigit, -, hsign, hbase⟩ := of_isExp hc
  intro hshape
  generalize hx : m ++ c :: w = x at hshape hmem
  cases hshape with
  | unsigned hw => exact hw.not_isExp hc hmem
  | signed _ hs hw =>
      rcases List.mem_cons.mp hmem with rfl | hmem
      · cases hsign.symm.trans hs
      · exact hw.not_isExp hc hmem
  | based hzero hw =>
      cases m with
      | nil =>
          obtain ⟨rfl, -⟩ := List.cons.inj hx
          rw [hzero] at hdigit
          cases hdigit
      | cons a m =>
          obtain ⟨-, rfl⟩ := List.cons.inj hx
          cases m with
          | nil =>
              obtain ⟨c', w', heq, hne⟩ := hw.exists_cons
              cases heq
              exact hne (hbase fmt)
          | cons b m =>
              obtain ⟨b', w', heq, hne⟩ := hw.exists_cons
              cases heq
              obtain ⟨hb, hb', -⟩ := of_baseState hne
              rcases h.tail_mem b List.mem_cons_self with hd | hd
              · cases hb.symm.trans hd
              · exact hb' hd

/-- An exponent is behind a mantissa. -/
theorem Fraction.split (h : Fraction true w) : Fraction false w ∨
    ∃ m c w', w = m ++ c :: w' ∧ Fraction false m ∧ isEither 'e'.toUInt8 'E'.toUInt8 c := by
  induction h with
  | nil => exact .inl .nil
  | digit hd _ ih =>
      rcases ih with hw | ⟨m, c, w', rfl, hm, hc⟩
      · exact .inl (.digit hd hw)
      · exact .inr ⟨_, c, w', rfl, .digit hd hm, hc⟩
  | exp _ hc _ => exact .inr ⟨[], _, _, rfl, .nil, hc⟩

theorem Decimal.split (h : Decimal float true w) : Decimal float false w ∨
    ∃ m c w', w = m ++ c :: w' ∧ Decimal float false m ∧ isEither 'e'.toUInt8 'E'.toUInt8 c := by
  induction h with
  | nil => exact .inl .nil
  | digit hd _ ih =>
      rcases ih with hw | ⟨m, c, w', rfl, hm, hc⟩
      · exact .inl (.digit hd hw)
      · exact .inr ⟨_, c, w', rfl, .digit hd hm, hc⟩
  | point hd hfloat hw =>
      rcases hw.split with hw | ⟨m, c, w', rfl, hm, hc⟩
      · exact .inl (.point hd hfloat hw)
      · exact .inr ⟨_, c, w', rfl, .point hd hfloat hm, hc⟩
  | exp _ hc _ => exact .inr ⟨[], _, _, rfl, .nil, hc⟩

/-- The letter of an exponent follows a mantissa in the list. -/
def ExpBehind (fmt : UInt32) (l : List UInt8) : Prop :=
  ∃ m c w, l = m ++ c :: w ∧ Mantissa fmt m ∧ isEither 'e'.toUInt8 'E'.toUInt8 c

theorem Shape.split (h : Shape fmt true w) (hw : w <+: l) :
    Shape fmt false w ∨ ExpBehind fmt l := by
  obtain ⟨rest, rfl⟩ := hw
  cases h with
  | unsigned hw =>
      rcases hw.split with hw | ⟨m, c, w', rfl, hm, hc⟩
      · exact .inl (.unsigned hw)
      · exact .inr ⟨m, c, w' ++ rest, by simp, .unsigned hm, hc⟩
  | signed hfmt hs hw =>
      rcases hw.split with hw | ⟨m, c, w', rfl, hm, hc⟩
      · exact .inl (.signed hfmt hs hw)
      · exact .inr ⟨_ :: m, c, w' ++ rest, by simp, .signed hfmt hs hm, hc⟩
  | based hc hw => exact .inl (.based hc hw)

/-- Where no exponent follows, it does not matter whether one may. -/
theorem shape_iff (hl : ¬ ExpBehind fmt l) (hw : w <+: l) (exp exp' : Bool) :
    Shape fmt exp w ↔ Shape fmt exp' w := by
  have hfalse (exp : Bool) : Shape fmt exp w ↔ Shape fmt false w := by
    refine ⟨fun h => ?_, Shape.mono⟩
    cases exp with
    | false => exact h
    | true => exact (h.split hw).resolve_right hl
  exact (hfalse exp).trans (hfalse exp').symm

/-- Where one follows, the longest number with it is none without. -/
theorem ExpBehind.not_shape (hl : ExpBehind fmt l) (ht : Longest (Shape fmt true) l t) :
    ¬ Shape fmt false t := by
  obtain ⟨m, c, w, rfl, hm, hc⟩ := hl
  have hprefix : m ++ [c] <+: m ++ c :: w := ⟨w, by simp⟩
  have hlen := ht.length_le _ hprefix (hm.snoc hc)
  obtain ⟨w', rfl⟩ := List.prefix_of_prefix_length_le hprefix ht.isPrefix hlen
  rw [List.append_assoc]
  exact hm.not_shape hc

end Exponents

/-! ## The parser -/

section Parsers

variable {κ : Type} {readCb : ParserRead κ} {feeds : κ → List UInt8 → Prop}
  {input l w : List UInt8} {p : Parser κ} {fuel dest destSize : Nat} {mem : Mem} {fmt : UInt32}
  {last : UInt8}

/-- The function takes the longest number, whatever `last` holds at first, and returns its length.
An exponent belongs to the number if `VAL_FMT_EXP` is set. -/
def HonoursFormat (readCb : ParserRead κ) (feeds : κ → List UInt8 → Prop) (fuel : Nat) (mem : Mem)
    (dest destSize : Nat) (fmt : UInt32) (input : List UInt8) (p : Parser κ) (l : List UInt8) :
    Prop :=
  ∃ t, Longest (Shape fmt (hasFmt fmt valFmtExp)) l t ∧ ∀ last, ∃ p' d,
    parserReadValue (parserSource readCb) fuel mem dest destSize fmt last p = some (p', d) ∧
      d.res = t.length ∧ View feeds input p' (l.drop t.length)

/-- What the function takes at first. -/
theorem lang_start (d : Dest) (hd : d.res = 0) (last : UInt8) (w : List UInt8) :
    Value.Lang fmt ⟨d, 0, last⟩ w ↔
      Shape fmt (hasFmt fmt valFmtFloat) w ∨ Stray fmt last w := by
  simp only [Value.Lang, hd, if_true]

/-- What the function does in any case. -/
theorem parserReadValue_longest (hread : Feeds readCb feeds) (h : View feeds input p l)
    (hfuel : 2 * l.length + 1 < fuel) (mem : Mem) (dest destSize : Nat) (fmt : UInt32)
    (last : UInt8) :
    ∃ w p' d, parserReadValue (parserSource readCb) fuel mem dest destSize fmt last p =
        some (p', d) ∧ d.res = w.length ∧ View feeds input p' (l.drop w.length) ∧
      Longest (fun w => Shape fmt (hasFmt fmt valFmtFloat) w ∨ Stray fmt last w) l w := by
  have hagain (v : Value) (c : UInt8) (v' : Value)
      (h : readValueBody destSize fmt v c = .again v') : v.state = 4 ∧ ¬ v'.state = 4 := by
    obtain ⟨hstate, hstate'⟩ := readValueBody_again h
    exact ⟨hstate, by rw [hstate']; decide⟩
  obtain ⟨⟨l', v⟩, hscan⟩ := Option.isSome_iff_exists.mp
    (scan_list_isSome (t := ⟨⟨mem, dest, 0⟩, 0, last⟩) hagain hfuel)
  obtain ⟨p', hp', hview⟩ := scan_follows (views_parserSource input hread) h l' v hscan
  obtain ⟨w, rfl, hlong, hres⟩ := scan_list_longest (Value.lang_nil fmt)
    (fun v c hv => ⟨readValueBody_takes v c hv, readValueBody_begun v c hv⟩) (.inl rfl) hscan
  refine ⟨w, p', v.dest.finish destSize, ?_, hres.trans (Nat.zero_add _), ?_,
    hlong.congr fun w _ => lang_start _ rfl last w⟩
  · rw [parserReadValue, hp']
    rfl
  · rw [List.drop_left]
    exact hview

/-- Where the operation is not ambiguous, nothing stray is taken. -/
theorem not_stray (hl : ¬ (Op.readValue dest destSize fmt).Ambiguous l) (hw : w <+: l) :
    ¬ Stray fmt last w := by
  intro hstray
  obtain ⟨rest, rfl⟩ := hw
  cases hstray with
  | mk _ hfmt hs hbased =>
      obtain ⟨c, w', rfl, hne⟩ := hbased.exists_cons
      exact hl ⟨hfmt, hs, hne⟩

/-- Where it is, the letter of the base may be taken, and it belongs to no number. -/
theorem ambiguous_length {t w : List UInt8} {exp : Bool}
    (hl : (Op.readValue dest destSize fmt).Ambiguous l)
    (hw : Longest (fun w => Shape fmt exp w ∨ Stray fmt '0'.toUInt8 w) l w)
    (ht : t <+: l) (hshape : Shape fmt exp t) : t.length < w.length := by
  cases l with
  | nil => exact hl.elim
  | cons s l =>
      cases l with
      | nil => exact hl.elim
      | cons c l =>
          obtain ⟨hfmt, hs, hne⟩ := hl
          have hlen := hw.length_le [s, c] ⟨l, rfl⟩
            (.inr (.mk rfl hfmt hs (based_singleton hne)))
          refine Nat.lt_of_lt_of_le (Nat.lt_of_not_le fun htwo => ?_) hlen
          obtain ⟨t', rfl⟩ := List.prefix_of_prefix_length_le ⟨l, rfl⟩ ht htwo
          obtain ⟨hdigit, hpoint, hexp⟩ := of_isSign hs
          obtain ⟨hdigit', hpoint', hexp'⟩ := of_baseState hne
          rcases shape_cons.mp hshape with hdec | ⟨-, -, hdec⟩ | ⟨rfl, -⟩
          · exact not_decimal_cons hdigit hpoint hexp hdec
          · exact not_decimal_cons hdigit' hpoint' hexp' hdec
          · cases hdigit

/-- The function takes the longest number of its format where a sign is not followed by the letter
of a base, and where no exponent follows the mantissa unless the two flags agree. -/
theorem honoursFormat_iff (hread : Feeds readCb feeds) (h : View feeds input p l)
    (hfuel : 2 * l.length + 1 < fuel) (mem : Mem) (dest destSize : Nat) (fmt : UInt32) :
    HonoursFormat readCb feeds fuel mem dest destSize fmt input p l ↔
      ¬ (Op.readValue dest destSize fmt).Ambiguous l ∧
        (hasFmt fmt valFmtExp = hasFmt fmt valFmtFloat ∨ ¬ ExpBehind fmt l) := by
  have hlongest := parserReadValue_longest hread h hfuel mem dest destSize fmt
  constructor
  · rintro ⟨t, ht, hruns⟩
    -- Whatever `last` holds, the function takes the same.
    have hsame {last : UInt8} {w : List UInt8} (hw : ∃ p' d,
        parserReadValue (parserSource readCb) fuel mem dest destSize fmt last p = some (p', d) ∧
          d.res = w.length) : w.length = t.length := by
      obtain ⟨p', d, hrun, hres⟩ := hw
      obtain ⟨p'', d', hrun', hres', -⟩ := hruns last
      cases hrun.symm.trans hrun'
      exact hres.symm.trans hres'
    obtain ⟨w, p', d, hrun, hres, -, hw⟩ := hlongest 0
    have hlen : w.length = t.length := hsame ⟨p', d, hrun, hres⟩
    obtain rfl := (List.prefix_of_prefix_length_le hw.isPrefix ht.isPrefix
      (Nat.le_of_eq hlen)).eq_of_length hlen
    have hzero : ∀ w', ¬ Stray fmt 0 w' := by
      rintro _ ⟨hlast, -⟩
      cases hlast
    have hfloat : Longest (Shape fmt (hasFmt fmt valFmtFloat)) l w :=
      hw.congr fun w' _ => or_iff_left (hzero w')
    refine ⟨fun hl => ?_, ?_⟩
    · obtain ⟨w', p', d, hrun, hres, -, hw'⟩ := hlongest '0'.toUInt8
      have hlt := ambiguous_length hl hw' hfloat.isPrefix hfloat.mem
      exact Nat.ne_of_gt hlt (hsame ⟨p', d, hrun, hres⟩)
    · by_contra hnot
      obtain ⟨hne, hl⟩ := not_or.mp hnot
      rw [not_not] at hl
      cases hexp : hasFmt fmt valFmtExp with
      | true =>
          cases hflag : hasFmt fmt valFmtFloat with
          | true => exact hne (hexp.trans hflag.symm)
          | false =>
              rw [hexp] at ht
              rw [hflag] at hfloat
              exact hl.not_shape ht hfloat.mem
      | false =>
          cases hflag : hasFmt fmt valFmtFloat with
          | true =>
              rw [hexp] at ht
              rw [hflag] at hfloat
              exact hl.not_shape hfloat ht.mem
          | false => exact hne (hexp.trans hflag.symm)
  · rintro ⟨hl, hexp⟩
    have hshape {last : UInt8} {w : List UInt8} (hw : Longest (fun w =>
        Shape fmt (hasFmt fmt valFmtFloat) w ∨ Stray fmt last w) l w) :
        Longest (Shape fmt (hasFmt fmt valFmtExp)) l w := by
      refine hw.congr fun w hw => ?_
      rw [or_iff_left (not_stray hl hw)]
      rcases hexp with heq | hnot
      · rw [heq]
      · exact shape_iff hnot hw _ _
    obtain ⟨t, -, -, -, -, -, ht⟩ := hlongest 0
    refine ⟨t, hshape ht, fun last => ?_⟩
    obtain ⟨w, p', d, hrun, hres, hview, hw⟩ := hlongest last
    obtain rfl := (hshape hw).unique (hshape ht)
    exact ⟨p', d, hrun, hres, hview⟩

end Parsers

theorem honoursFormat_negativeHex :
    HonoursFormat noRead (fun _ l => l = []) 20 Mem.zero 0 8 0xFF negativeHex
      (stringParser negativeHex) negativeHex := by
  have hclear : ¬ (Op.readValue 0 8 0xFF).Ambiguous negativeHex := fun h => h.2.2 (by decide)
  exact (honoursFormat_iff feeds_noRead (view_stringParser negativeHex) (by decide) Mem.zero 0 8
    0xFF).mpr ⟨hclear, .inl (by decide)⟩

/-- The characters `1e5`. -/
def oneExp : List UInt8 := [0x31, 0x65, 0x35]

/-- An exponent is taken although the format has none. -/
theorem not_honoursFormat_oneExp : ¬ ∀ {κ : Type} {readCb : ParserRead κ}
    {feeds : κ → List UInt8 → Prop} {input l : List UInt8} {p : Parser κ} {fuel : Nat},
    Feeds readCb feeds → View feeds input p l → 2 * l.length + 1 < fuel →
    ∀ (mem : Mem) (dest destSize : Nat) (fmt : UInt32),
      HonoursFormat readCb feeds fuel mem dest destSize fmt input p l := by
  intro h
  have hfuel : 2 * oneExp.length + 1 < 20 := by decide
  obtain ⟨t, ht, hruns⟩ :=
    h feeds_noRead (view_stringParser oneExp) hfuel Mem.zero 0 8 valFmtFloat
  obtain ⟨p', d, hrun, hres, -⟩ := hruns 0
  have hthree : (parserReadValue (parserSource noRead) 20 Mem.zero 0 8 valFmtFloat 0
      (stringParser oneExp)).map (·.2.res) = some 3 := by decide +kernel
  rw [hrun, Option.map_some, hres] at hthree
  obtain rfl : t = oneExp := ht.isPrefix.eq_of_length (Option.some.inj hthree)
  have hone : Mantissa valFmtFloat [0x31] := .unsigned (.digit rfl .nil)
  have hexp : isEither 'e'.toUInt8 'E'.toUInt8 0x65 = true := rfl
  exact hone.not_shape hexp ht.mem

end Adhoc
