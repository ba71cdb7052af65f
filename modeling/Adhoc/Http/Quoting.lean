import Adhoc.Http.Stream

/-!
# Strings in quotes

`STR_FMT_ESC` is for strings that were escaped: a backslash stands before the quote and
before a backslash, and control characters are written as a backslash and a letter
(`escape`).  The `switch` of `parser_read_string` has no case for the apostrophe, so it leaves
an escaped one as it found it (`readBack`).

A string without quotes is an identifier.  `is_ident_char` asks for the small letters where
it should ask for the capitals, and a character 0 behind the identifier is taken for the
quote that the identifier does not have.
-/

namespace Adhoc

open ByteMem Scanner

/-! ## Escaping -/

/-- How a character is written between two quotes `q`. -/
def escapeChar (q c : UInt8) : List UInt8 :=
  if c = q ∨ c = '\\'.toUInt8 then ['\\'.toUInt8, c]
  else if c = 13 then ['\\'.toUInt8, 'r'.toUInt8]
  else if c = 10 then ['\\'.toUInt8, 'n'.toUInt8]
  else if c = 9 then ['\\'.toUInt8, 't'.toUInt8]
  else if c = 8 then ['\\'.toUInt8, 'b'.toUInt8]
  else if c = 12 then ['\\'.toUInt8, 'f'.toUInt8]
  else [c]

/-- How a string is written. -/
def escape (q : UInt8) (s : List UInt8) : List UInt8 := s.flatMap (escapeChar q)

/-- What is read where a character was written. -/
def readBackChar (q c : UInt8) : List UInt8 :=
  if q = '\''.toUInt8 ∧ c = '\''.toUInt8 then ['\\'.toUInt8, c] else [c]

/-- What is read where a string was written. -/
def readBack (q : UInt8) (s : List UInt8) : List UInt8 := s.flatMap (readBackChar q)

/-- The two quotes. -/
def IsQuote (q : UInt8) : Prop := q = '"'.toUInt8 ∨ q = '\''.toUInt8

theorem length_readBack (q : UInt8) (s : List UInt8) :
    (readBack q s).length =
      s.length + if q = '\''.toUInt8 then s.count '\''.toUInt8 else 0 := by
  induction s with
  | nil => simp [readBack]
  | cons c s ih =>
      rw [readBack, List.flatMap_cons, List.length_append]
      rw [show (s.flatMap (readBackChar q)).length = _ from ih, List.length_cons, List.count_cons]
      by_cases hq : q = '\''.toUInt8
      · by_cases hc : c = '\''.toUInt8
        · simp only [readBackChar, hq, hc, and_self, if_true, List.length_cons, List.length_nil,
            beq_self_eq_true]
          omega
        · simp only [readBackChar, hq, hc, and_false, if_false, if_true, List.length_cons,
            List.length_nil, beq_eq_false_iff_ne.mpr hc, Bool.false_eq_true]
          omega
      · simp only [readBackChar, hq, false_and, if_false, List.length_cons, List.length_nil]
        omega

/-- A string is read back where it has no apostrophe or is not between apostrophes. -/
theorem readBack_eq {q : UInt8} {s : List UInt8} (h : q ≠ '\''.toUInt8 ∨ '\''.toUInt8 ∉ s) :
    readBack q s = s := by
  have hchar (c : UInt8) (hc : c ∈ s) : readBackChar q c = [c] := by
    refine if_neg fun ⟨hq, hc'⟩ => ?_
    rcases h with hne | hnot
    · exact hne hq
    · exact hnot (hc' ▸ hc)
  rw [readBack, List.flatMap_def, List.map_congr_left hchar, ← List.flatMap_def,
    List.flatMap_singleton']

/-! ## The destination -/

/-- Characters are put one behind the other. -/
def Dest.puts (d : Dest) (bound : Nat) (cs : List UInt8) : Dest := cs.foldl (·.put bound ·) d

section Puts

variable (d : Dest) (bound : Nat) (cs : List UInt8)

theorem Dest.res_put (c : UInt8) : (d.put bound c).res = d.res + 1 := rfl

theorem Dest.puts_cons (c : UInt8) : d.puts bound (c :: cs) = (d.put bound c).puts bound cs := rfl

theorem Dest.puts_append (cs' : List UInt8) :
    d.puts bound (cs ++ cs') = (d.puts bound cs).puts bound cs' := List.foldl_append ..

theorem Dest.res_puts : (d.puts bound cs).res = d.res + cs.length := by
  induction cs generalizing d with
  | nil => rfl
  | cons c cs ih =>
      rw [puts_cons, ih, List.length_cons, res_put]
      omega

/-- Where there is room they are stored. -/
theorem Dest.puts_eq (h : d.res + cs.length ≤ bound) :
    d.puts bound cs = ⟨d.mem.write (d.dest + d.res) cs, d.dest, d.res + cs.length⟩ := by
  induction cs generalizing d with
  | nil =>
      rw [Mem.write_nil]
      rfl
  | cons c cs ih =>
      rw [List.length_cons] at h
      have hput : d.put bound c = ⟨d.mem.write (d.dest + d.res) [c], d.dest, d.res + 1⟩ := by
        rw [put, if_pos (by omega)]
      have hwrite := d.mem.write_write_append (d.dest + d.res) [c] cs
      rw [puts_cons, ih _ (by rw [res_put]; omega), hput, List.length_cons]
      simp only [List.length_singleton, Nat.add_assoc, List.singleton_append] at hwrite ⊢
      rw [hwrite, Nat.add_comm 1]

theorem Dest.puts_finish (mem : Mem) (dest : Nat) {destSize : Nat} (h : cs.length < destSize) :
    (Dest.puts ⟨mem, dest, 0⟩ destSize cs).finish destSize =
      ⟨mem.write dest (cs ++ [0]), dest, cs.length⟩ := by
  have hwrite := mem.write_write_append dest cs [0]
  rw [puts_eq _ _ _ (by rw [Nat.zero_add]; exact Nat.le_of_lt h)]
  simp only [finish, Nat.zero_add, Nat.add_zero, if_neg (Nat.not_le_of_lt h)]
  rw [hwrite]

end Puts

/-! ## The loop -/

section Quoted

variable {destSize fuel : Nat} {q c : UInt8} {d : Dest} {l : List UInt8}

/-- The format of strings in quotes. -/
def fmtQuoted : UInt32 := strFmtQuote ||| strFmtApost ||| strFmtEsc

theorem IsQuote.ne_zero (hq : IsQuote q) : q ≠ 0 := by
  rcases hq with rfl | rfl <;> decide

theorem IsQuote.ne_backslash (hq : IsQuote q) : q ≠ '\\'.toUInt8 := by
  rcases hq with rfl | rfl <;> decide

/-- The quote that opens the string. -/
theorem readStringBody_open (hq : IsQuote q) :
    readStringBody destSize fmtQuoted ⟨d, 0, 0⟩ q = .next ⟨d, 1, q⟩ := by
  refine if_pos ⟨rfl, ?_⟩
  rcases hq with rfl | rfl
  · exact .inl ⟨rfl, rfl⟩
  · exact .inr ⟨rfl, rfl⟩

/-- The quote that closes it. -/
theorem readStringBody_close :
    readStringBody destSize fmtQuoted ⟨d, 1, q⟩ q = .last ⟨d, 1, q⟩ := by
  simp [readStringBody]

theorem readStringBody_plain (hq : IsQuote q) (hc : c ≠ q) (hc' : c ≠ '\\'.toUInt8) :
    readStringBody destSize fmtQuoted ⟨d, 1, q⟩ c = .next ⟨d.put destSize c, 1, q⟩ := by
  simp [readStringBody, hq.ne_zero, hc, hc']

theorem readStringBody_backslash (hq : IsQuote q) :
    readStringBody destSize fmtQuoted ⟨d, 1, q⟩ '\\'.toUInt8 = .next ⟨d, 3, q⟩ := by
  have hfmt : hasFmt fmtQuoted strFmtEsc = true := rfl
  simp only [readStringBody, hfmt, hq.ne_backslash.symm]
  simp [hq.ne_zero]

theorem readStringBody_escaped :
    readStringBody destSize fmtQuoted ⟨d, 3, q⟩ c = .next ⟨putEscaped destSize d c, 1, q⟩ := by
  have hfmt : hasFmt fmtQuoted strFmtEscu = false := rfl
  simp [readStringBody, hfmt]

/-- A character is written as it is, or as a backslash and another that gives it back. -/
theorem escapeChar_cases (hq : IsQuote q) (c : UInt8) :
    (escapeChar q c = [c] ∧ c ≠ q ∧ c ≠ '\\'.toUInt8 ∧ readBackChar q c = [c]) ∨
    ∃ e, escapeChar q c = ['\\'.toUInt8, e] ∧
      ∀ (bound : Nat) (d : Dest), putEscaped bound d e = d.puts bound (readBackChar q c) := by
  unfold escapeChar
  split
  next hc =>
    refine .inr ⟨c, rfl, fun bound d => ?_⟩
    rcases hc with rfl | rfl
    · rcases hq with rfl | rfl <;> rfl
    · rcases hq with rfl | rfl <;> rfl
  next hc =>
    rw [not_or] at hc
    have hplain : readBackChar q c = [c] := by
      refine if_neg fun ⟨hq', hc'⟩ => hc.1 (hc'.trans hq'.symm)
    rw [hplain]
    repeat' split
    next h => exact .inr ⟨_, rfl, fun _ _ => by rw [h]; rfl⟩
    next h => exact .inr ⟨_, rfl, fun _ _ => by rw [h]; rfl⟩
    next h => exact .inr ⟨_, rfl, fun _ _ => by rw [h]; rfl⟩
    next h => exact .inr ⟨_, rfl, fun _ _ => by rw [h]; rfl⟩
    next h => exact .inr ⟨_, rfl, fun _ _ => by rw [h]; rfl⟩
    next => exact .inl ⟨rfl, hc.1, hc.2, rfl⟩

theorem scan_escapeChar (hq : IsQuote q) (c : UInt8) (l : List UInt8) :
    scan (list UInt8) (readStringBody destSize fmtQuoted) (fuel + (escapeChar q c).length)
        (escapeChar q c ++ l) ⟨d, 1, q⟩ =
      scan (list UInt8) (readStringBody destSize fmtQuoted) fuel l
        ⟨d.puts destSize (readBackChar q c), 1, q⟩ := by
  rcases escapeChar_cases hq c with ⟨hesc, hc, hc', hback⟩ | ⟨e, hesc, hput⟩
  · rw [hesc, hback, List.singleton_append, List.length_singleton, scan_list_cons,
      readStringBody_plain hq hc hc']
    rfl
  · rw [hesc, List.cons_append, List.singleton_append,
      show fuel + ['\\'.toUInt8, e].length = fuel + 1 + 1 from rfl, scan_list_cons,
      readStringBody_backslash hq]
    dsimp only
    rw [scan_list_cons, readStringBody_escaped, hput]

/-- The loop between the quotes. -/
theorem scan_escape (hq : IsQuote q) (s l : List UInt8) :
    scan (list UInt8) (readStringBody destSize fmtQuoted) (fuel + 1 + (escape q s).length)
        (escape q s ++ q :: l) ⟨d, 1, q⟩ = some (l, ⟨d.puts destSize (readBack q s), 1, q⟩) := by
  induction s generalizing d with
  | nil =>
      rw [escape, List.flatMap_nil, List.nil_append, List.length_nil, Nat.add_zero,
        scan_list_cons, readStringBody_close]
      rfl
  | cons c s ih =>
      have hesc : escape q (c :: s) = escapeChar q c ++ escape q s := List.flatMap_cons
      have hback : readBack q (c :: s) = readBackChar q c ++ readBack q s := List.flatMap_cons
      rw [hesc, hback, List.append_assoc, List.length_append, Nat.add_comm (escapeChar q c).length,
        ← Nat.add_assoc, scan_escapeChar hq, ih, Dest.puts_append]

end Quoted

/-! ## Identifiers -/

/-- `c >= 'A' && c <= 'Z'`, which `is_ident_char` does not ask. -/
def IsCapital (c : UInt8) : Prop := 'A'.toUInt8 ≤ c ∧ c ≤ 'Z'.toUInt8

instance (c : UInt8) : Decidable (IsCapital c) := inferInstanceAs (Decidable (_ ∧ _))

/-- A letter, a digit or an underscore. -/
def IsBareWord (c : UInt8) : Prop :=
  c = '_'.toUInt8 ∨ isDigit c ∨ ('a'.toUInt8 ≤ c ∧ c ≤ 'z'.toUInt8) ∨ IsCapital c

instance (c : UInt8) : Decidable (IsBareWord c) := inferInstanceAs (Decidable (_ ∨ _))

/-- `is_ident_char` is for all of these but the capitals. -/
theorem isIdentChar_iff (c : UInt8) : isIdentChar c = true ↔ IsBareWord c ∧ ¬ IsCapital c := by
  have hUnderscore : '_'.toUInt8.toNat = 95 := rfl
  have h0 : '0'.toUInt8.toNat = 48 := rfl
  have h9 : '9'.toUInt8.toNat = 57 := rfl
  have ha : 'a'.toUInt8.toNat = 97 := rfl
  have hz : 'z'.toUInt8.toNat = 122 := rfl
  have hA : 'A'.toUInt8.toNat = 65 := rfl
  have hZ : 'Z'.toUInt8.toNat = 90 := rfl
  simp only [isIdentChar, IsBareWord, IsCapital, isDigit, Bool.or_eq_true, Bool.and_eq_true,
    decide_eq_true_eq, UInt8.le_iff_toNat_le, ← UInt8.toNat_inj, hUnderscore, h0, h9, ha, hz,
    hA, hZ]
  omega

section Naked

variable {destSize fuel : Nat} {c : UInt8} {d : Dest} {l : List UInt8}

/-- What is behind the identifier, without the 0 that is taken for a quote. -/
def behindNaked (l : List UInt8) : List UInt8 :=
  if l.head? = some 0 then l.tail else l

theorem isIdentChar_ne_zero (h : isIdentChar c = true) : c ≠ 0 := by
  rintro rfl
  cases h

theorem readStringBody_start :
    readStringBody destSize strFmtNaked ⟨d, 0, 0⟩ c = .again ⟨d, 1, 0⟩ := by
  have hquote : hasFmt strFmtNaked strFmtQuote = false := rfl
  have hapost : hasFmt strFmtNaked strFmtApost = false := rfl
  have hnaked : hasFmt strFmtNaked strFmtNaked = true := rfl
  simp [readStringBody, hquote, hapost, hnaked]

theorem readStringBody_ident (h : isIdentChar c = true) :
    readStringBody destSize strFmtNaked ⟨d, 1, 0⟩ c = .next ⟨d.put destSize c, 1, 0⟩ := by
  simp [readStringBody, isIdentChar_ne_zero h, h]

theorem readStringBody_behind (h : isIdentChar c = false) :
    readStringBody destSize strFmtNaked ⟨d, 1, 0⟩ c =
      if c = 0 then .last ⟨d, 1, 0⟩ else .stop ⟨d, 1, 0⟩ := by
  have hfmt : hasFmt strFmtNaked strFmtEsc = false := rfl
  by_cases hc : c = 0
  · simp [readStringBody, hc]
  · simp [readStringBody, hc, h, hfmt]

theorem scan_naked (hfuel : l.length < fuel) :
    scan (list UInt8) (readStringBody destSize strFmtNaked) fuel l ⟨d, 1, 0⟩ =
      some (behindNaked (l.dropWhile isIdentChar),
        ⟨d.puts destSize (l.takeWhile isIdentChar), 1, 0⟩) := by
  induction l generalizing d fuel with
  | nil =>
      obtain ⟨n, rfl⟩ := Nat.exists_eq_add_of_lt hfuel
      rfl
  | cons c l ih =>
      obtain ⟨n, rfl⟩ := Nat.exists_eq_add_of_lt hfuel
      rw [scan_list_cons]
      cases hc : isIdentChar c with
      | true =>
          rw [readStringBody_ident hc, List.takeWhile_cons_of_pos hc, List.dropWhile_cons_of_pos hc,
            Dest.puts_cons]
          exact ih (by rw [List.length_cons]; omega)
      | false =>
          have hc' : ¬ isIdentChar c = true := by rw [hc]; exact Bool.false_ne_true
          rw [readStringBody_behind hc, List.takeWhile_cons_of_neg hc',
            List.dropWhile_cons_of_neg hc', behindNaked, List.head?_cons]
          by_cases hzero : c = 0
          · rw [if_pos hzero, if_pos (congrArg some hzero)]
            rfl
          · rw [if_neg hzero, if_neg (fun h => hzero (Option.some.inj h))]
            rfl

/-- What is taken of an identifier and what is left behind it. -/
theorem takeWhile_ident {s rest : List UInt8} (hs : ∀ c ∈ s, IsBareWord c)
    (hrest : ∀ c ∈ rest.head?, ¬ IsBareWord c) (hcap : ∀ c ∈ s, ¬ IsCapital c) :
    (s ++ rest).takeWhile isIdentChar = s ∧ (s ++ rest).dropWhile isIdentChar = rest := by
  have hall (c : UInt8) (hc : c ∈ s) : isIdentChar c = true :=
    (isIdentChar_iff c).mpr ⟨hs c hc, hcap c hc⟩
  rw [List.takeWhile_append_of_pos hall, List.dropWhile_append_of_pos hall]
  cases rest with
  | nil => exact ⟨List.append_nil s, rfl⟩
  | cons c rest =>
      have hc : ¬ isIdentChar c = true := fun h =>
        hrest c rfl ((isIdentChar_iff c).mp h).1
      rw [List.takeWhile_cons_of_neg hc, List.dropWhile_cons_of_neg hc, List.append_nil]
      exact ⟨rfl, rfl⟩

/-- Of an identifier with a capital only a part is taken. -/
theorem length_takeWhile_lt {s rest : List UInt8} (hcap : ∃ c ∈ s, IsCapital c) :
    ((s ++ rest).takeWhile isIdentChar).length < s.length := by
  induction s with
  | nil =>
      obtain ⟨c, hc, -⟩ := hcap
      cases hc
  | cons c s ih =>
      obtain ⟨c', hmem, hc'⟩ := hcap
      rw [List.cons_append, List.takeWhile_cons]
      split
      next hc =>
        have hne : c' ≠ c := by
          rintro rfl
          exact ((isIdentChar_iff c').mp hc).2 hc'
        have hlt := ih ⟨c', List.mem_of_ne_of_mem hne hmem, hc'⟩
        rw [List.length_cons, List.length_cons]
        exact Nat.succ_lt_succ hlt
      next => exact Nat.succ_pos s.length

end Naked

/-! ## The parser -/

section Parsers

variable {κ : Type} {readCb : ParserRead κ} {feeds : κ → List UInt8 → Prop} {input : List UInt8}
  {p : Parser κ} {fuel : Nat} {mem : Mem} {dest destSize : Nat} {l l' s rest : List UInt8}

/-- A parser has one list of characters to come. -/
theorem View.unique (h : View feeds input p l) (h' : View feeds input p l') : l = l' := by
  obtain ⟨pre, hpre, hcounts⟩ := h.consumed
  obtain ⟨pre', hpre', hcounts'⟩ := h'.consumed
  exact (List.append_inj (hpre.trans hpre'.symm) (hcounts.total.symm.trans hcounts'.total)).2

/-- `parser_read_string` returns the length of `s`, stores `s` and a zero, and leaves `rest`. -/
def ReadsString (readCb : ParserRead κ) (feeds : κ → List UInt8 → Prop) (fuel : Nat) (mem : Mem)
    (dest destSize : Nat) (fmt : UInt32) (input : List UInt8) (p : Parser κ)
    (s rest : List UInt8) : Prop :=
  ∃ p', parserReadString (parserSource readCb) fuel mem dest destSize fmt p =
      some (p', ⟨mem.write dest (s ++ [0]), dest, s.length⟩) ∧ View feeds input p' rest

/-- The operation in terms of what it took. -/
theorem readsString_iff (hread : Feeds readCb feeds) (h : View feeds input p l)
    {fmt : UInt32} {cs : List UInt8} {v : Str}
    (hscan : scan (list UInt8) (readStringBody destSize fmt) fuel l ⟨⟨mem, dest, 0⟩, 0, 0⟩ =
      some (l', v)) (hv : v.dest = Dest.puts ⟨mem, dest, 0⟩ destSize cs)
    (hsize : s.length < destSize) (hcs : cs = s ∨ cs.length ≠ s.length) :
    ReadsString readCb feeds fuel mem dest destSize fmt input p s rest ↔ cs = s ∧ l' = rest := by
  obtain ⟨p', hp', hview⟩ := scan_follows (views_parserSource input hread) h l' v hscan
  have hrun : parserReadString (parserSource readCb) fuel mem dest destSize fmt p =
      some (p', v.dest.finish destSize) := by
    rw [parserReadString, hp']
    rfl
  constructor
  · rintro ⟨p'', hrun'', hview''⟩
    obtain ⟨rfl, hfinish⟩ := Prod.mk.inj (Option.some.inj (hrun.symm.trans hrun''))
    refine ⟨hcs.resolve_right fun hne => hne ?_, hview.unique hview''⟩
    have hres := congrArg Dest.res hfinish
    rw [hv, Dest.finish, Dest.res_puts, Nat.zero_add] at hres
    exact hres
  · rintro ⟨rfl, rfl⟩
    refine ⟨p', ?_, hview⟩
    rw [hrun, hv, Dest.puts_finish _ mem dest hsize]

theorem readsString_quoted_iff (hread : Feeds readCb feeds) {q : UInt8} (hq : IsQuote q)
    (h : View feeds input p (q :: (escape q s ++ q :: rest)))
    (hfuel : (escape q s).length + 2 < fuel) (hsize : s.length < destSize) :
    ReadsString readCb feeds fuel mem dest destSize fmtQuoted input p s rest ↔
      q = '"'.toUInt8 ∨ '\''.toUInt8 ∉ s := by
  obtain ⟨n, rfl⟩ := Nat.exists_eq_add_of_lt hfuel
  have hscan : scan (list UInt8) (readStringBody destSize fmtQuoted)
      ((escape q s).length + 2 + n + 1) (q :: (escape q s ++ q :: rest)) ⟨⟨mem, dest, 0⟩, 0, 0⟩ =
        some (rest, ⟨Dest.puts ⟨mem, dest, 0⟩ destSize (readBack q s), 1, q⟩) := by
    rw [scan_list_cons, readStringBody_open hq]
    dsimp only
    rw [show (escape q s).length + 2 + n = n + 1 + 1 + (escape q s).length by omega]
    exact scan_escape hq s rest
  have hlen := length_readBack q s
  by_cases hgood : q ≠ '\''.toUInt8 ∨ '\''.toUInt8 ∉ s
  · have hback := readBack_eq hgood
    rw [readsString_iff hread h hscan rfl hsize (.inl hback)]
    exact iff_of_true ⟨hback, rfl⟩ (hgood.imp_left hq.resolve_right)
  · obtain ⟨hapost, hmem⟩ := not_or.mp hgood
    rw [not_not] at hapost hmem
    have hcount := List.count_pos_iff.mpr hmem
    rw [if_pos hapost] at hlen
    have hne : (readBack q s).length ≠ s.length := by omega
    rw [readsString_iff hread h hscan rfl hsize (.inr hne)]
    refine iff_of_false (fun heq => hne (congrArg _ heq.1)) ?_
    rintro (hquote | hnot)
    · exact absurd (hquote.symm.trans hapost) (by decide)
    · exact hnot hmem

theorem readsString_naked_iff (hread : Feeds readCb feeds) (hne : s ≠ [])
    (hs : ∀ c ∈ s, IsBareWord c) (hrest : ∀ c ∈ rest.head?, ¬ IsBareWord c)
    (h : View feeds input p (s ++ rest)) (hfuel : (s ++ rest).length + 1 < fuel)
    (hsize : s.length < destSize) :
    ReadsString readCb feeds fuel mem dest destSize strFmtNaked input p s rest ↔
      (∀ c ∈ s, ¬ IsCapital c) ∧ rest.head? ≠ some 0 := by
  obtain ⟨n, rfl⟩ := Nat.exists_eq_add_of_lt hfuel
  have hscan : scan (list UInt8) (readStringBody destSize strFmtNaked)
      ((s ++ rest).length + 1 + n + 1) (s ++ rest) ⟨⟨mem, dest, 0⟩, 0, 0⟩ =
        some (behindNaked ((s ++ rest).dropWhile isIdentChar),
          ⟨Dest.puts ⟨mem, dest, 0⟩ destSize ((s ++ rest).takeWhile isIdentChar), 1, 0⟩) := by
    obtain ⟨c, s', rfl⟩ := List.exists_cons_of_ne_nil hne
    rw [List.cons_append, scan_list_cons, readStringBody_start]
    exact scan_naked (by rw [List.length_cons]; omega)
  by_cases hcap : ∀ c ∈ s, ¬ IsCapital c
  · obtain ⟨htake, hdrop⟩ := takeWhile_ident hs hrest hcap
    rw [htake, hdrop] at hscan
    rw [readsString_iff hread h hscan rfl hsize (.inl rfl)]
    refine ⟨fun ⟨_, hbehind⟩ => ⟨hcap, fun hzero => ?_⟩, fun ⟨_, hzero⟩ => ⟨rfl, if_neg hzero⟩⟩
    obtain ⟨l, rfl⟩ := List.head?_eq_some_iff.mp hzero
    rw [behindNaked, if_pos hzero, List.tail_cons] at hbehind
    exact List.cons_ne_self 0 l hbehind.symm
  · rw [not_forall] at hcap
    obtain ⟨c, hc⟩ := hcap
    rw [Classical.not_imp, not_not] at hc
    have hlt : ((s ++ rest).takeWhile isIdentChar).length < s.length :=
      length_takeWhile_lt ⟨c, hc⟩
    rw [readsString_iff hread h hscan rfl hsize (.inr (Nat.ne_of_lt hlt))]
    refine iff_of_false (fun heq => Nat.ne_of_lt hlt (congrArg _ heq.1)) fun hnot => ?_
    exact hnot.1 c hc.1 hc.2

/-- `parser_read_string` gives back what was written between quotes, unless an apostrophe was
escaped.  It gives back an identifier, unless this has a capital or a 0 is behind it. -/
theorem readsString_escape_iff (hread : Feeds readCb feeds) (hsize : s.length < destSize)
    (mem : Mem) (dest : Nat) :
    (∀ input p q rest fuel, IsQuote q → View feeds input p (q :: (escape q s ++ q :: rest)) →
      (escape q s).length + 2 < fuel →
      (ReadsString readCb feeds fuel mem dest destSize fmtQuoted input p s rest ↔
        q = '"'.toUInt8 ∨ '\''.toUInt8 ∉ s)) ∧
    ∀ input p rest fuel, s ≠ [] → (∀ c ∈ s, IsBareWord c) → (∀ c ∈ rest.head?, ¬ IsBareWord c) →
      View feeds input p (s ++ rest) → (s ++ rest).length + 1 < fuel →
      (ReadsString readCb feeds fuel mem dest destSize strFmtNaked input p s rest ↔
        (∀ c ∈ s, ¬ IsCapital c) ∧ rest.head? ≠ some 0) :=
  ⟨fun _ _ _ _ _ hq h hfuel => readsString_quoted_iff hread hq h hfuel hsize,
    fun _ _ _ _ hne hs hrest h hfuel => readsString_naked_iff hread hne hs hrest h hfuel hsize⟩

end Parsers

/-- Two letters. -/
def twoLetters : List UInt8 := [0x61, 0x62]

theorem readsString_twoLetters :
    ReadsString noRead (fun _ l => l = []) 10 Mem.zero 0 3 fmtQuoted [0x27, 0x61, 0x62, 0x27]
        (stringParser [0x27, 0x61, 0x62, 0x27]) twoLetters [] ∧
    ReadsString noRead (fun _ l => l = []) 10 Mem.zero 0 3 strFmtNaked [0x61, 0x62, 0x3D]
        (stringParser [0x61, 0x62, 0x3D]) twoLetters [0x3D] := by
  have hsize : twoLetters.length < 3 := by decide
  have hword : ∀ c ∈ twoLetters, IsBareWord c := by decide +kernel
  have hequals : ∀ c ∈ [(0x3D : UInt8)].head?, ¬ IsBareWord c := by decide +kernel
  have hapost : '\''.toUInt8 ∉ twoLetters := by decide +kernel
  have hsmall : ∀ c ∈ twoLetters, ¬ IsCapital c := by decide +kernel
  obtain ⟨hquoted, hnaked⟩ := readsString_escape_iff feeds_noRead hsize Mem.zero 0
  have hquoted' := hquoted _ _ '\''.toUInt8 [] 10 (.inr rfl) (view_stringParser _) (by decide)
  have hnaked' := hnaked _ _ [0x3D] 10 (List.cons_ne_nil _ _) hword hequals
    (view_stringParser _) (by decide)
  exact ⟨hquoted'.mpr (.inr hapost), hnaked'.mpr ⟨hsmall, by decide⟩⟩

/-- Printable ASCII, or a control character that has an escape. -/
def IsEscapable (c : UInt8) : Prop := (0x20 ≤ c ∧ c ≤ 0x7E) ∨ c ∈ [13, 10, 9, 8, 12]

/-- An apostrophe between apostrophes is not given back. -/
theorem not_readsString_apostrophe : ¬ ∀ {κ : Type} {readCb : ParserRead κ}
    {feeds : κ → List UInt8 → Prop} {s : List UInt8} {destSize : Nat}, Feeds readCb feeds →
    (∀ c ∈ s, IsEscapable c) → s.length < destSize → ∀ (mem : Mem) (dest : Nat),
    (∀ input p q rest fuel, IsQuote q → View feeds input p (q :: (escape q s ++ q :: rest)) →
      (escape q s).length + 2 < fuel →
      ReadsString readCb feeds fuel mem dest destSize fmtQuoted input p s rest) ∧
    ∀ input p rest fuel, s ≠ [] → (∀ c ∈ s, IsBareWord c) → (∀ c ∈ rest.head?, ¬ IsBareWord c) →
      View feeds input p (s ++ rest) → (s ++ rest).length + 1 < fuel →
      ReadsString readCb feeds fuel mem dest destSize strFmtNaked input p s rest := by
  intro h
  have htext : ∀ c ∈ [(0x27 : UInt8)], IsEscapable c := by simp [IsEscapable]
  obtain ⟨hquoted, -⟩ := h feeds_noRead htext (Nat.lt_succ_self 1) Mem.zero 0
  obtain ⟨p', hrun, -⟩ := hquoted _ _ '\''.toUInt8 [] 10 (.inr rfl)
    (view_stringParser [0x27, 0x5C, 0x27, 0x27]) (by decide)
  have hres : (parserReadString (parserSource noRead) 10 Mem.zero 0 2 fmtQuoted
      (stringParser [0x27, 0x5C, 0x27, 0x27])).map (·.2.res) = some 2 := by decide +kernel
  rw [hrun] at hres
  cases hres

end Adhoc
