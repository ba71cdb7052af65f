import Adhoc.Http.Parser

/-!
# Parsers of streams and of strings

A parser shows the characters of its window and then those its callback delivers
(`View`), whether it has a callback or not.  So each operation does on it what it
does on the list of those characters (`Op.run_follows`), and the counters are those
of what the list has lost.

One thing is not a matter of the characters.  `parser_read_value` compares `last`
with a zero although a sign came first and nothing was stored in it.  The operation
depends on that where a letter of a base follows the sign (`Op.Ambiguous`).
-/

namespace Adhoc

open ByteMem Scanner

/-! ## What a parser shows -/

/-- A callback delivers in order, in chunks of 1 to as many characters as it is asked for, and
none at the end.  `feeds k l`: with `k` at `user_data` it has `l` to deliver. -/
structure Feeds {κ : Type} (readCb : ParserRead κ) (feeds : κ → List UInt8 → Prop) : Prop where
  chunk : ∀ {k l n}, 0 < n → feeds k l → ∃ i, (readCb k n).1 = l.take i ∧ i ≤ n ∧
    (l ≠ [] → 0 < i) ∧ feeds (readCb k n).2 (l.drop i)

/-- A parser without a stream has nothing to come. -/
theorem feeds_noRead : Feeds noRead fun _ l => l = [] where
  chunk := by
    rintro k l n - rfl
    exact ⟨0, rfl, Nat.zero_le n, fun h => absurd rfl h, rfl⟩

variable {κ : Type} {readCb : ParserRead κ} {feeds : κ → List UInt8 → Prop}
  {input : List UInt8}

/-- The counters after the characters `pre`. -/
structure Counts (pre : List UInt8) (p : Parser κ) : Prop where
  total : p.total = pre.length
  line : p.line = pre.count '\n'.toUInt8
  col : p.col = (pre.reverse.takeWhile (· ≠ '\n'.toUInt8)).length

/-- A parser of `input` has the characters `l` to come. -/
structure View (feeds : κ → List UInt8 → Prop) (input : List UInt8) (p : Parser κ)
    (l : List UInt8) : Prop where
  /-- They are those in the window and those ahead of it. -/
  left : ∃ ahead, feeds p.userData ahead ∧ (p.buff = none → ahead = []) ∧ p.curr ≤ p.stop ∧
    p.mem.read p.curr (p.stop - p.curr) ++ ahead = l
  /-- The others are counted. -/
  consumed : ∃ pre, pre ++ l = input ∧ Counts pre p
  buffSize : p.buff ≠ none → 1 ≤ p.buffSize

/-- `INC_POS` counts the character. -/
theorem Counts.incPos {pre : List UInt8} {p : Parser κ} (h : Counts pre p) :
    Counts (pre ++ [p.mem p.curr]) (incPos p) where
  total := by
    rw [incPos_total, h.total, List.length_append, List.length_singleton]
  line := by
    rw [incPos_line, h.line, List.count_append, List.count_singleton]
    by_cases hnl : p.mem p.curr = '\n'.toUInt8
    · rw [if_pos hnl, if_pos (by simpa using hnl)]
    · rw [if_neg hnl, if_neg (by simpa using hnl), Nat.add_zero]
  col := by
    rw [incPos_col, List.reverse_append, List.reverse_singleton, List.singleton_append]
    by_cases hnl : p.mem p.curr = '\n'.toUInt8
    · rw [if_pos hnl, List.takeWhile_cons_of_neg (by simpa using hnl), List.length_nil]
    · rw [if_neg hnl, List.takeWhile_cons_of_pos (by simpa using hnl), List.length_cons, h.col]

/-- A parser whose window is not empty shows the first character of it, and `INC_POS` moves
behind that. -/
theorem View.incPos {p : Parser κ} {c : UInt8} {l : List UInt8} (h : View feeds input p (c :: l))
    (hlt : p.curr < p.stop) : p.mem p.curr = c ∧ View feeds input (incPos p) l := by
  obtain ⟨ahead, hfeeds, hnone, hle, hleft⟩ := h.left
  obtain ⟨n, hn⟩ := Nat.exists_eq_add_of_lt hlt
  have hwidth : p.stop - p.curr = n + 1 := by omega
  rw [hwidth, Mem.read_cons, List.cons_append] at hleft
  injection hleft with hc hl
  obtain ⟨pre, hpre, hcounts⟩ := h.consumed
  refine ⟨hc, ⟨ahead, hfeeds, hnone, hlt, ?_⟩, ⟨pre ++ [c], ?_, hc ▸ hcounts.incPos⟩, h.buffSize⟩
  · rw [← hl, incPos_mem, incPos_curr, incPos_stop, show p.stop - (p.curr + 1) = n by omega]
  · rw [List.append_assoc]
    exact hpre

/-- A parser whose window is not empty is not at its end. -/
theorem checkState_of_lt {p : Parser κ} (h : p.curr < p.stop) :
    checkState readCb p = (false, p) := if_neg (Nat.ne_of_lt h)

/-- A parser at the end of its window fills the buffer it has. -/
theorem checkState_of_eq {p : Parser κ} {buff : Nat} (h : p.curr = p.stop)
    (hbuff : p.buff = some buff) :
    checkState readCb p = (!(queryData readCb p buff).1, (queryData readCb p buff).2) := by
  rw [checkState, if_pos h, hbuff]

/-- Where a stream has more to come, an empty window is filled. -/
theorem View.refill (hread : Feeds readCb feeds) {p : Parser κ} {l : List UInt8}
    (h : View feeds input p l) (hempty : p.curr = p.stop) :
    (checkState readCb p).1 = decide (l = []) ∧
      View feeds input (checkState readCb p).2 l ∧
        (l ≠ [] → (checkState readCb p).2.curr < (checkState readCb p).2.stop) := by
  obtain ⟨ahead, hfeeds, hnone, hle, hleft⟩ := h.left
  have hahead : ahead = l := by
    rw [← hleft, hempty, Nat.sub_self]
    rfl
  subst hahead
  cases hbuff : p.buff with
  | none =>
      have hcheck : checkState readCb p = (true, p) := by
        rw [checkState, if_pos hempty, hbuff]
      rw [hcheck, hnone hbuff]
      exact ⟨rfl, hnone hbuff ▸ h, fun hne => absurd rfl hne⟩
  | some buff =>
      obtain ⟨i, hbs, -, hpos, hfeeds'⟩ :=
        hread.chunk (h.buffSize (by rw [hbuff]; exact Option.some_ne_none buff)) hfeeds
      have hlen : (ahead.take i).length = 0 ↔ ahead = [] := by
        rw [List.length_eq_zero_iff, List.take_eq_nil_iff]
        refine ⟨fun h => h.elim (fun hi => ?_) id, .inr⟩
        by_contra hne
        exact Nat.ne_of_gt (hpos hne) hi
      obtain ⟨pre, hpre, hcounts⟩ := h.consumed
      rw [checkState_of_eq hempty hbuff]
      refine ⟨?_, ⟨⟨ahead.drop i, hfeeds', fun hnone => ?_, Nat.le_add_right .., ?_⟩,
        ⟨pre, hpre, hcounts.total, hcounts.line, hcounts.col⟩, h.buffSize⟩, fun hne => ?_⟩
      · rw [queryData_fst, hbs, ← decide_not]
        exact decide_eq_decide.mpr (by rw [Nat.not_lt, Nat.le_zero, hlen])
      · rw [queryData_buff, hbuff] at hnone
        cases hnone
      · rw [queryData_window, hbs, List.take_append_drop]
      · rw [queryData_curr, queryData_stop, hbs]
        exact Nat.lt_add_of_pos_right (Nat.pos_of_ne_zero fun h0 => hne (hlen.mp h0))

/-- Parsers show the characters they have to come. -/
theorem views_parserSource (input : List UInt8) (hread : Feeds readCb feeds) :
    Views (parserSource readCb) (View feeds input) where
  nil := by
    intro p h
    have hempty : p.curr = p.stop := by
      obtain ⟨ahead, -, -, hle, hleft⟩ := h.left
      have hlen := congrArg List.length hleft
      rw [List.length_append, Mem.length_read, List.length_nil] at hlen
      omega
    obtain ⟨heof, hview, -⟩ := h.refill hread hempty
    exact ⟨heof, hview⟩
  cons := by
    intro p c l h
    rcases Nat.lt_or_eq_of_le h.left.choose_spec.2.2.1 with hlt | hempty
    · obtain ⟨hc, hinc⟩ := h.incPos hlt
      have hcheck : (parserSource readCb).check p = (false, p) := checkState_of_lt hlt
      rw [hcheck]
      exact ⟨rfl, hc, h, hinc⟩
    · obtain ⟨heof, hview, hlt⟩ := h.refill hread hempty
      obtain ⟨hc, hinc⟩ := hview.incPos (hlt (List.cons_ne_nil c l))
      exact ⟨heof, hc, hview, hinc⟩

/-! ## Operations on what is shown -/

section Follow

variable {σ : Type} {src : Source σ UInt8} {V : σ → List UInt8 → Prop} {s : σ} {l : List UInt8}

theorem skipRounds_view (h : Views src V) (hs : V s l) (n i : Nat) :
    (skipRounds src n i s).2 = (skipRounds (list UInt8) n i l).2 ∧
      V (skipRounds src n i s).1 (skipRounds (list UInt8) n i l).1 := by
  induction n generalizing i s l with
  | zero => exact ⟨rfl, hs⟩
  | succ n ih =>
      cases l with
      | nil =>
          obtain ⟨heof, hs⟩ := h.nil hs
          simp only [skipRounds, heof, if_true]
          exact ⟨rfl, hs⟩
      | cons c l =>
          obtain ⟨heof, -, -, hinc⟩ := h.cons hs
          simp only [skipRounds, heof, Bool.false_eq_true, if_false]
          exact ih hinc (i + 1)

theorem parserEof_view (h : Views src V) (hs : V s l) :
    (parserEof src s).2 = l.isEmpty ∧ V (parserEof src s).1 l := by
  cases l with
  | nil => exact h.nil hs
  | cons c l => exact ⟨(h.cons hs).1, (h.cons hs).2.2.1⟩

theorem parserCurr_view (h : Views src V) (hs : V s l) :
    (parserCurr src s).2 = l.headD 0 ∧ V (parserCurr src s).1 l := by
  cases l with
  | nil =>
      obtain ⟨heof, hs⟩ := h.nil hs
      simp only [parserCurr, heof, if_true]
      exact ⟨rfl, hs⟩
  | cons c l =>
      obtain ⟨heof, hpeek, hs, -⟩ := h.cons hs
      simp only [parserCurr, heof, Bool.false_eq_true, if_false]
      exact ⟨hpeek, hs⟩

theorem parserSkipN_view (h : Views src V) (hs : V s l) (n : Int) :
    (parserSkipN src n s).2 = (parserSkipN (list UInt8) n l).2 ∧
      V (parserSkipN src n s).1 (parserSkipN (list UInt8) n l).1 := by
  obtain ⟨hres, hview⟩ := skipRounds_view h hs n.toNat 0
  unfold parserSkipN
  by_cases hn : n < 0
  · rw [if_pos hn, if_pos hn]
    exact ⟨rfl, hs⟩
  · rw [if_neg hn, if_neg hn]
    exact ⟨congrArg Int.ofNat hres, hview⟩

theorem parserSkipChar_nil (c : UInt8) : parserSkipChar (list UInt8) c [] = ([], false) :=
  if_pos (.inr rfl)

theorem parserSkipChar_cons (c a : UInt8) (l : List UInt8) :
    parserSkipChar (list UInt8) c (a :: l) = if a = c then (l, true) else (a :: l, false) := by
  by_cases hc : a = c
  · rw [if_pos hc]
    exact if_neg fun h => h.elim (absurd hc) Bool.false_ne_true
  · rw [if_neg hc]
    exact if_pos (.inl hc)

theorem parserSkipChar_view (h : Views src V) (hs : V s l) (c : UInt8) :
    (parserSkipChar src c s).2 = (parserSkipChar (list UInt8) c l).2 ∧
      V (parserSkipChar src c s).1 (parserSkipChar (list UInt8) c l).1 := by
  cases l with
  | nil =>
      -- The character is compared although the input is at its end, and that decides nothing.
      obtain ⟨heof, hs⟩ := h.nil hs
      rw [parserSkipChar_nil]
      simp only [parserSkipChar, heof, or_true, if_true]
      exact ⟨trivial, hs⟩
  | cons a l =>
      obtain ⟨heof, hpeek, hs, hinc⟩ := h.cons hs
      rw [parserSkipChar_cons]
      simp only [parserSkipChar, heof, hpeek, Bool.false_eq_true, or_false]
      by_cases hc : a = c
      · rw [if_neg (not_not.mpr hc), if_pos hc]
        exact ⟨rfl, hinc⟩
      · rw [if_pos hc, if_neg hc]
        exact ⟨rfl, hs⟩

/-- An operation does on a source what it does on the list the source shows. -/
theorem Op.run_follows (h : Views src V) (hs : V s l) (fuel : Nat) (op : Op) (last : UInt8)
    (mem : Mem) :
    Follows V (op.run src fuel last mem s) (op.run (list UInt8) fuel last mem l) := by
  cases op with
  | curr =>
      obtain ⟨hres, hview⟩ := parserCurr_view h hs
      refine (Follows.of_view (y := parserCurr (list UInt8) l) ⟨?_, ?_⟩).map _
      · rw [hres]
        cases l <;> rfl
      · exact hview
  | eof => exact (Follows.of_view (y := parserEof (list UInt8) l) (parserEof_view h hs)).map _
  | read => exact ((scan_follows h hs).map _).map _
  | readBefore2 => exact ((scan_follows h hs).map _).map _
  | readDigits => exact ((scan_follows h hs).map _).map _
  | readValue => exact ((scan_follows h hs).map _).map _
  | readString => exact ((scan_follows h hs).map _).map _
  | skip => exact (scan_follows h hs).map _
  | skipN n => exact (Follows.of_view (parserSkipN_view h hs n)).map _
  | skipChar c => exact (Follows.of_view (parserSkipChar_view h hs c)).map _
  | skipWs => exact (scan_follows h hs).map _
  | skipWsInLine => exact (scan_follows h hs).map _
  | skipLine => exact (scan_follows h hs).map _
  | skipBefore => exact (scan_follows h hs).map _

end Follow

/-! ## Operations end -/

section Ends

variable {fuel : Nat} {l : List UInt8}

theorem readBody_ne_again (chatset : UInt8 → Bool) (destSize : Nat) (d : Dest) (c : UInt8)
    (d' : Dest) : readBody chatset destSize d c ≠ .again d' := by
  unfold readBody
  split <;> nofun

theorem readBefore2Body_ne_again (destSize : Nat) (c1 c2 : UInt8) (d : Dest) (c : UInt8)
    (d' : Dest) : readBefore2Body destSize c1 c2 d c ≠ .again d' := by
  unfold readBefore2Body
  split <;> nofun

theorem skipBody_ne_again (chatset : UInt8 → Bool) (n : Nat) (c : UInt8) (n' : Nat) :
    skipBody chatset n c ≠ .again n' := by
  unfold skipBody
  split <;> nofun

theorem skipWsBody_ne_again (ws : UInt8 → Bool) (b : Bool) (c : UInt8) (b' : Bool) :
    skipWsBody ws b c ≠ .again b' := by
  unfold skipWsBody
  split <;> nofun

theorem skipLineBody_ne_again (b : Bool) (c : UInt8) (b' : Bool) :
    skipLineBody b c ≠ .again b' := by
  unfold skipLineBody
  split <;> nofun

theorem skipBeforeBody_ne_again (c : UInt8) (b : Bool) (cc : UInt8) (b' : Bool) :
    skipBeforeBody c b cc ≠ .again b' := by
  unfold skipBeforeBody
  split <;> nofun

theorem readDecimal_ne_again (destSize : Nat) (fmt : UInt32) (v : Value) (c : UInt8)
    (v' : Value) : readDecimal destSize fmt v c ≠ .again v' := by
  unfold readDecimal
  repeat' split
  all_goals nofun

/-- `parser_read_value` leaves a character in state 4 only, for state 5. -/
theorem readValueBody_again {destSize : Nat} {fmt : UInt32} {v v' : Value} {c : UInt8}
    (h : readValueBody destSize fmt v c = .again v') : v.state = 4 ∧ v'.state = 5 := by
  unfold readValueBody at h
  split at h
  next => exact (readDecimal_ne_again _ _ _ _ _ h).elim
  next =>
    split at h
    next hstate =>
      split at h
      next => cases h
      next =>
        cases h
        exact ⟨hstate, rfl⟩
    next =>
      split at h
      next => cases h
      next => split at h <;> cases h

/-- `parser_read_string` leaves a character in state 0 only, for state 1. -/
theorem readStringBody_again {destSize : Nat} {fmt : UInt32} {v v' : Str} {c : UInt8}
    (h : readStringBody destSize fmt v c = .again v') : v.state = 0 ∧ v'.state = 1 := by
  have hskip {p : Prop} [Decidable p] {a b : Act Str} (ha : a ≠ .again v')
      (hx : (if p then a else b) = .again v') : b = .again v' := by
    split at hx
    next => exact absurd hx ha
    next => exact hx
  unfold readStringBody at h
  replace h := hskip (fun hx => by cases hx) h
  split at h
  next hstate =>
    cases h
    exact ⟨hstate.1, rfl⟩
  next =>
    -- The other branches take the character or stop.
    iterate 6 replace h := hskip (fun hx => by cases hx) h
    cases h

/-- An operation on a list ends. -/
theorem Op.run_list_isSome (op : Op) (last : UInt8) (mem : Mem) (hfuel : 2 * l.length + 1 < fuel) :
    (op.run (list UInt8) fuel last mem l).isSome := by
  cases op with
  | curr => rfl
  | eof => rfl
  | skipN => rfl
  | skipChar => rfl
  | read =>
      simpa [Op.run, parserRead] using scan_list_isSome_of_ne_again (readBody_ne_again _ _) hfuel
  | readBefore2 =>
      simpa [Op.run, parserReadBefore2] using
        scan_list_isSome_of_ne_again (readBefore2Body_ne_again _ _ _) hfuel
  | readDigits =>
      simpa [Op.run, parserReadDigits, parserRead] using
        scan_list_isSome_of_ne_again (readBody_ne_again _ _) hfuel
  | readValue =>
      have hbody {destSize fmt} (v : Value) (c : UInt8) (v' : Value)
          (h : readValueBody destSize fmt v c = .again v') : v.state = 4 ∧ ¬ v'.state = 4 := by
        obtain ⟨hstate, hstate'⟩ := readValueBody_again h
        exact ⟨hstate, by rw [hstate']; decide⟩
      simpa [Op.run, parserReadValue] using scan_list_isSome hbody hfuel
  | readString =>
      have hbody {destSize fmt} (v : Str) (c : UInt8) (v' : Str)
          (h : readStringBody destSize fmt v c = .again v') : v.state = 0 ∧ ¬ v'.state = 0 := by
        obtain ⟨hstate, hstate'⟩ := readStringBody_again h
        exact ⟨hstate, by rw [hstate']; decide⟩
      simpa [Op.run, parserReadString] using scan_list_isSome hbody hfuel
  | skip =>
      simpa [Op.run, parserSkip] using scan_list_isSome_of_ne_again (skipBody_ne_again _) hfuel
  | skipWs =>
      simpa [Op.run, parserSkipWs] using scan_list_isSome_of_ne_again (skipWsBody_ne_again _) hfuel
  | skipWsInLine =>
      simpa [Op.run, parserSkipWsInLine] using
        scan_list_isSome_of_ne_again (skipWsBody_ne_again _) hfuel
  | skipLine =>
      simpa [Op.run, parserSkipLine] using scan_list_isSome_of_ne_again skipLineBody_ne_again hfuel
  | skipBefore =>
      simpa [Op.run, parserSkipBefore] using
        scan_list_isSome_of_ne_again (skipBeforeBody_ne_again _) hfuel

end Ends

/-! ## Sequences of operations -/

section Sequences

variable {fuel : Nat} {l : List UInt8} {mem : Mem}

/-- An operation on a list leaves a suffix of it. -/
theorem Op.run_list_suffix {op : Op} {last : UInt8} {l' : List UInt8} {out : Outcome}
    (h : op.run (list UInt8) fuel last mem l = some (l', out)) : l' <:+ l := by
  obtain ⟨_, -, -, hsuffix⟩ :=
    Op.run_follows (views_list l) ⟨rfl, List.suffix_refl l⟩ fuel op last mem l' out h
  exact hsuffix

/-- A sequence from its first operation. -/
theorem runOps_cons {σ : Type} {src : Source σ UInt8} {op : Op} {ops : List Op}
    {lasts : Nat → UInt8} {s s' : σ} {out : Outcome} {outs : List (σ × Outcome)}
    (hrun : op.run src fuel (lasts 0) mem s = some (s', out))
    (houts : runOps src fuel ops (fun i => lasts (i + 1)) out.mem s' = some outs) :
    runOps src fuel (op :: ops) lasts mem s = some ((s', out) :: outs) := by
  simp only [runOps, hrun, Option.bind_some, houts, Option.map_some]

/-- A sequence of operations does on a source what it does on the list the source shows. -/
theorem runOps_follows {σ : Type} {src : Source σ UInt8} {V : σ → List UInt8 → Prop} {s : σ}
    (h : Views src V) (hs : V s l) (hfuel : 2 * l.length + 1 < fuel) (ops : List Op)
    (lasts : Nat → UInt8) (mem : Mem) :
    ∃ outs outs', runOps src fuel ops lasts mem s = some outs ∧
      runOps (list UInt8) fuel ops lasts mem l = some outs' ∧
        List.Forall₂ (fun x y => V x.1 y.1 ∧ x.2 = y.2) outs outs' := by
  induction ops generalizing s l lasts mem with
  | nil => exact ⟨[], [], rfl, rfl, .nil⟩
  | cons op ops ih =>
      obtain ⟨⟨l', out⟩, hl⟩ := Option.isSome_iff_exists.mp
        (op.run_list_isSome (lasts 0) mem hfuel)
      obtain ⟨s', hrun, hs'⟩ := Op.run_follows h hs fuel op (lasts 0) mem l' out hl
      have hle := (Op.run_list_suffix hl).length_le
      obtain ⟨outs, outs', houts, houts', hrel⟩ :=
        ih hs' (by omega) (fun i => lasts (i + 1)) out.mem
      exact ⟨(s', out) :: outs, (l', out) :: outs', runOps_cons hrun houts, runOps_cons hl houts',
        .cons ⟨hs', rfl⟩ hrel⟩

end Sequences

/-! ## What `last` decides -/

/-- The operation reads a value that begins with a sign and the letter of a base, and its format
has both. -/
def Op.Ambiguous : Op → List UInt8 → Prop
  | .readValue _ _ fmt, sign :: c :: _ =>
      hasFmt fmt valFmtSign ∧ isSign sign ∧ baseState fmt c ≠ none
  | _, _ => False

/-- No operation of the sequence is ambiguous where it stands, the list `l` being the characters
left. -/
def Unambiguous (fuel : Nat) : List Op → Mem → List UInt8 → Prop
  | [], _, _ => True
  | op :: ops, mem, l => ¬ op.Ambiguous l ∧ ∀ l' out,
      op.run (list UInt8) fuel 0 mem l = some (l', out) → Unambiguous fuel ops out.mem l'

/-- A letter of a base is nothing else. -/
theorem of_baseState {fmt : UInt32} {c : UInt8} (h : baseState fmt c ≠ none) :
    isDigit c = false ∧ c ≠ '.'.toUInt8 ∧ isEither 'e'.toUInt8 'E'.toUInt8 c = false := by
  have hletter : isEither 'H'.toUInt8 'h'.toUInt8 c ∨ isEither 'x'.toUInt8 'X'.toUInt8 c ∨
      isEither 'b'.toUInt8 'B'.toUInt8 c := by
    unfold baseState at h
    split at h
    next hbase => exact hbase.elim (fun h => .inl h.2) fun h => .inr (.inl h.1)
    next =>
      split at h
      next hbase => exact .inr (.inr hbase.2)
      next => exact absurd rfl h
  simp only [isEither, Bool.or_eq_true, decide_eq_true_eq] at hletter
  rcases hletter with (rfl | rfl) | (rfl | rfl) | (rfl | rfl) <;> decide

theorem baseState_eq {fmt : UInt32} {c : UInt8} {state : Nat} (h : baseState fmt c = some state) :
    state = 6 ∨ state = 7 := by
  unfold baseState at h
  split at h
  next =>
    cases h
    exact .inl rfl
  next =>
    split at h <;> cases h
    exact .inr rfl

/-- A sign is nothing else. -/
theorem of_isSign {c : UInt8} (h : isSign c) :
    isDigit c = false ∧ c ≠ '.'.toUInt8 ∧ isEither 'e'.toUInt8 'E'.toUInt8 c = false := by
  simp only [isSign, Bool.or_eq_true, decide_eq_true_eq] at h
  rcases h with rfl | rfl <;> decide

section Last

variable {destSize : Nat} {fmt : UInt32}

/-- Whether `last` can still decide something, with `l` to come. -/
def LastMatters (fmt : UInt32) (l : List UInt8) (v : Value) : Prop :=
  v.state = 0 ∧
    (v.dest.res = 0 ∧ (∃ sign c l', l = sign :: c :: l' ∧ hasFmt fmt valFmtSign ∧ isSign sign ∧
        baseState fmt c ≠ none) ∨
      v.dest.res = 1 ∧ ∃ c l', l = c :: l' ∧ baseState fmt c ≠ none)

/-- Locals that differ in `last` only, where that decides nothing. -/
def SameValue (fmt : UInt32) (l : List UInt8) (v v' : Value) : Prop :=
  v' = { v with last := v'.last } ∧ (v'.last = v.last ∨ ¬ LastMatters fmt l v)

theorem SameValue.refl (l : List UInt8) (v : Value) : SameValue fmt l v v := ⟨rfl, .inl rfl⟩

/-- Behind state 0 nothing depends on `last`. -/
theorem sameValue_of_state {l : List UInt8} {v : Value} (last : UInt8) (h : v.state ≠ 0) :
    SameValue fmt l v { v with last := last } := ⟨rfl, .inr fun hlast => h hlast.1⟩

/-- The states 0, 2 and 5 keep locals that differ in `last` only. -/
theorem readDecimal_rel {c : UInt8} {l : List UInt8} {v : Value} (last : UInt8)
    (h : ¬ LastMatters fmt (c :: l) v) :
    Act.Rel (SameValue fmt) c l (readDecimal destSize fmt v c)
      (readDecimal destSize fmt { v with last := last } c) := by
  have hbase (last' : UInt8) : (if v.state = 0 ∧ last' = '0'.toUInt8 ∧ v.dest.res = 1 then
      baseState fmt c else none) = none := by
    split
    next hstate =>
      by_contra hne
      exact h ⟨hstate.1, .inr ⟨hstate.2.2, c, l, rfl, hne⟩⟩
    next => rfl
  unfold readDecimal
  split
  next => exact .next ⟨rfl, .inl rfl⟩
  next =>
    split
    next => exact .next (sameValue_of_state last (by simp [Value.put]))
    next =>
      split
      next => exact .next (sameValue_of_state last (by simp [Value.put]))
      next =>
        simp only [hbase]
        split
        next hsign =>
          refine .next ⟨rfl, .inr fun hlast => ?_⟩
          -- One character is stored now, so the sign was the first.
          rcases hlast with ⟨hstate, ⟨hres, -⟩ | ⟨-, c', l', rfl, hne⟩⟩
          · cases hres
          · exact h ⟨hstate, .inl ⟨hsign.2.1, c, c', l', rfl, hsign.1, hsign.2.2, hne⟩⟩
        next => exact .stop ⟨rfl, .inr h⟩

theorem readValueBody_rel (destSize : Nat) (c : UInt8) (l : List UInt8) (v v' : Value)
    (h : SameValue fmt (c :: l) v v') :
    Act.Rel (SameValue fmt) c l (readValueBody destSize fmt v c)
      (readValueBody destSize fmt v' c) := by
  obtain ⟨hv, hlast⟩ := h
  generalize v'.last = last at hv hlast
  subst hv
  rcases hlast with rfl | hnot
  · exact .refl SameValue.refl _
  · unfold readValueBody
    split
    next => exact readDecimal_rel last hnot
    next hstate =>
      split
      next =>
        split
        next => exact .next (sameValue_of_state last (by simp [Value.put]))
        next => exact .again (sameValue_of_state last (by simp))
      next =>
        split
        next => exact .next (sameValue_of_state last (by simp [Value.put]))
        next =>
          split
          next => exact .next (sameValue_of_state last (by simp [Value.put]))
          next => exact .stop (sameValue_of_state last fun h => hstate (.inl h))

end Last

/-- What `last` holds at first decides nothing for an operation that is not ambiguous. -/
theorem Op.run_last_irrelevant {op : Op} {l : List UInt8} {fuel : Nat} (h : ¬ op.Ambiguous l)
    (last last' : UInt8) (mem : Mem) :
    op.run (list UInt8) fuel last mem l = op.run (list UInt8) fuel last' mem l := by
  cases op with
  | readValue dest destSize fmt =>
      have hstart : SameValue fmt l ⟨⟨mem, dest, 0⟩, 0, last⟩ ⟨⟨mem, dest, 0⟩, 0, last'⟩ := by
        refine ⟨rfl, .inr fun hlast => ?_⟩
        rcases hlast with ⟨-, ⟨-, sign, c, l', rfl, hfmt⟩ | ⟨hres, -⟩⟩
        · exact h hfmt
        · cases hres
      have hrel := scan_list_rel (readValueBody_rel destSize) hstart fuel
      simp only [Op.run, parserReadValue]
      generalize scan (list UInt8) (readValueBody destSize fmt) fuel l ⟨⟨mem, dest, 0⟩, 0, last⟩ = x
        at *
      generalize scan (list UInt8) (readValueBody destSize fmt) fuel l
        ⟨⟨mem, dest, 0⟩, 0, last'⟩ = y at *
      cases hrel with
      | none => rfl
      | some hxy =>
          obtain ⟨hleft, hv, -⟩ := hxy
          simp only [Option.map_some, Prod.map, hleft]
          rw [hv]
  | _ => rfl

section Hazard

variable {dest destSize fuel : Nat} {fmt : UInt32} {sign c : UInt8} {l : List UInt8} {mem : Mem}

/-- Behind the letter of a base, more than one character is stored. -/
def InBase (v : Value) : Prop := (v.state = 6 ∨ v.state = 7) ∧ 2 ≤ v.dest.res

theorem readValueBody_inBase (v : Value) (c : UInt8) (h : InBase v) :
    (readValueBody destSize fmt v c).All InBase := by
  obtain ⟨hstate, hres⟩ := h
  unfold readValueBody
  rw [if_neg (by omega), if_neg (by omega)]
  split
  next => exact ⟨.inl rfl, Nat.le_succ_of_le hres⟩
  next =>
    split
    next => exact ⟨.inr rfl, Nat.le_succ_of_le hres⟩
    next => exact ⟨hstate, hres⟩

/-- A sign is stored, and nothing else happens. -/
theorem readValueBody_sign (hfmt : hasFmt fmt valFmtSign) (hsign : isSign sign) (last : UInt8) :
    readValueBody destSize fmt ⟨⟨mem, dest, 0⟩, 0, last⟩ sign =
      .next ⟨Dest.put ⟨mem, dest, 0⟩ destSize sign, 0, last⟩ := by
  obtain ⟨hdigit, hdot, hexp⟩ := of_isSign hsign
  simp [readValueBody, readDecimal, hdigit, hdot, hexp, hfmt, hsign, Value.put]

/-- What the letter of a base behind one character does is decided by `last`. -/
theorem readValueBody_base (destSize : Nat) {d : Dest} (hd : d.res = 1)
    (hbase : baseState fmt c ≠ none)
    (last : UInt8) :
    (last ≠ '0'.toUInt8 → readValueBody destSize fmt ⟨d, 0, last⟩ c = .stop ⟨d, 0, last⟩) ∧
      (last = '0'.toUInt8 → ∃ v, readValueBody destSize fmt ⟨d, 0, last⟩ c = .next v ∧
        InBase v) := by
  obtain ⟨hdigit, hdot, hexp⟩ := of_baseState hbase
  constructor
  · intro hlast
    simp [readValueBody, readDecimal, hdigit, hdot, hexp, hlast, hd]
  · rintro rfl
    obtain ⟨state, hstate⟩ := Option.ne_none_iff_exists'.mp hbase
    refine ⟨Value.put ⟨d, 0, '0'.toUInt8⟩ destSize c state, ?_, ?_, ?_⟩
    · simp [readValueBody, readDecimal, hdigit, hdot, hexp, hd, hstate]
    · exact baseState_eq hstate
    · exact Nat.le_of_eq (congrArg (· + 1) hd.symm)

/-- An ambiguous operation yields 1 where `last` is zero, and more where it is a digit zero. -/
theorem run_readValue_ambiguous (mem : Mem)
    (h : (Op.readValue dest destSize fmt).Ambiguous (sign :: c :: l))
    (hfuel : 2 < fuel) :
    (∃ l' out, (Op.readValue dest destSize fmt).run (list UInt8) fuel 0 mem (sign :: c :: l) =
        some (l', out) ∧ out.result = 1) ∧
      ∀ l' out, (Op.readValue dest destSize fmt).run (list UInt8) fuel '0'.toUInt8 mem
        (sign :: c :: l) = some (l', out) → 2 ≤ out.result := by
  obtain ⟨hfmt, hsign, hbase⟩ := h
  obtain ⟨fuel, rfl⟩ : ∃ n, fuel = n + 1 + 1 := ⟨fuel - 2, by omega⟩
  have hres : (Dest.put ⟨mem, dest, 0⟩ destSize sign).res = 1 := rfl
  have hstop := (readValueBody_base destSize hres hbase 0).1 (by decide)
  obtain ⟨v, hnext, hin⟩ := (readValueBody_base destSize hres hbase '0'.toUInt8).2 rfl
  constructor
  · refine ⟨c :: l, ((Dest.put ⟨mem, dest, 0⟩ destSize sign).finish destSize).outcome, ?_, rfl⟩
    simp only [Op.run, parserReadValue]
    rw [scan_list_cons, readValueBody_sign hfmt hsign]
    simp only [scan_list_cons, hstop]
    rfl
  · intro l' out hrun
    simp only [Op.run, parserReadValue] at hrun
    rw [scan_list_cons, readValueBody_sign hfmt hsign] at hrun
    simp only [scan_list_cons, hnext, Option.map_map, Option.map_eq_some_iff] at hrun
    obtain ⟨⟨l'', v'⟩, hscan, hout⟩ := hrun
    cases hout
    exact Int.ofNat_le.mpr (scan_list_invariant readValueBody_inBase hin hscan).2

end Hazard

/-- Where a sequence is ambiguous, two choices for `last` lead to different results. -/
theorem exists_ne_of_not_unambiguous {fuel : Nat} {ops : List Op} {mem : Mem} {l : List UInt8}
    (hfuel : 2 * l.length + 1 < fuel) (h : ¬ Unambiguous fuel ops mem l) :
    ∃ lasts lasts', ∀ outs outs',
      runOps (list UInt8) fuel ops lasts mem l = some outs →
        runOps (list UInt8) fuel ops lasts' mem l = some outs' →
          outs.map (·.2.result) ≠ outs'.map (·.2.result) := by
  induction ops generalizing mem l with
  | nil => exact absurd trivial h
  | cons op ops ih =>
      by_cases hop : op.Ambiguous l
      · cases op with
        | readValue dest destSize fmt =>
            match l, hop, hfuel with
            | sign :: c :: l, hop, hfuel =>
                obtain ⟨⟨l₀, out₀, hrun₀, hone⟩, htwo⟩ :=
                  run_readValue_ambiguous mem hop (show 2 < fuel by
                    rw [List.length_cons] at hfuel
                    omega)
                refine ⟨fun _ => 0, fun _ => '0'.toUInt8, fun outs outs' houts houts' heq => ?_⟩
                rw [runOps, hrun₀] at houts
                obtain ⟨⟨l₁, out₁⟩, hrun₁, houts'⟩ := Option.bind_eq_some_iff.mp houts'
                obtain ⟨tail, -, rfl⟩ := Option.map_eq_some_iff.mp houts
                obtain ⟨tail', -, rfl⟩ := Option.map_eq_some_iff.mp houts'
                have htwo := htwo l₁ out₁ hrun₁
                have hhead : out₀.result = out₁.result := (List.cons.inj heq).1
                omega
        | _ => exact absurd hop (by cases l <;> exact id)
      · simp only [Unambiguous, hop, not_false_eq_true, true_and, not_forall] at h
        obtain ⟨l', out, hrun, hrest⟩ := h
        have hle := (Op.run_list_suffix hrun).length_le
        obtain ⟨lasts, lasts', hne⟩ := ih (by omega) hrest
        refine ⟨fun i => lasts (i - 1), fun i => lasts' (i - 1),
          fun outs outs' houts houts' heq => ?_⟩
        rw [runOps, Op.run_last_irrelevant hop _ 0, hrun] at houts houts'
        obtain ⟨tail, htail, rfl⟩ := Option.map_eq_some_iff.mp houts
        obtain ⟨tail', htail', rfl⟩ := Option.map_eq_some_iff.mp houts'
        exact hne tail tail' htail htail' (List.cons.inj heq).2

/-- The sequences that are not ambiguous do not depend on `last`. -/
theorem Unambiguous.runOps_eq {fuel : Nat} {ops : List Op} {mem : Mem} {l : List UInt8}
    (h : Unambiguous fuel ops mem l) (lasts lasts' : Nat → UInt8) :
    runOps (list UInt8) fuel ops lasts mem l = runOps (list UInt8) fuel ops lasts' mem l := by
  induction ops generalizing mem l lasts lasts' with
  | nil => rfl
  | cons op ops ih =>
      obtain ⟨hop, hrest⟩ := h
      rw [runOps, runOps, Op.run_last_irrelevant hop (lasts 0) 0,
        Op.run_last_irrelevant hop (lasts' 0) 0]
      cases hrun : op.run (list UInt8) fuel 0 mem l with
      | none => rfl
      | some r =>
          obtain ⟨l', out⟩ := r
          simp only [Option.bind_some]
          rw [ih (hrest l' out hrun) _ fun i => lasts' (i + 1)]

/-! ## Streams and strings -/

/-- What can be seen after an operation. -/
structure Seen where
  result : Int
  mem : Mem
  total : Nat
  line : Nat
  col : Nat

/-- What can be seen of a parser and an outcome. -/
def seen (x : Parser κ × Outcome) : Seen :=
  ⟨x.2.result, x.2.mem, x.1.total, x.1.line, x.1.col⟩

/-- Parsers of one input that have the same to come have counted the same. -/
theorem View.counters_eq {κ' : Type} {feeds' : κ' → List UInt8 → Prop} {p : Parser κ}
    {p' : Parser κ'} {l : List UInt8} (h : View feeds input p l) (h' : View feeds' input p' l) :
    p.total = p'.total ∧ p.line = p'.line ∧ p.col = p'.col := by
  obtain ⟨pre, hpre, hcounts⟩ := h.consumed
  obtain ⟨pre', hpre', hcounts'⟩ := h'.consumed
  cases List.append_cancel_right (hpre.trans hpre'.symm)
  exact ⟨hcounts.total.trans hcounts'.total.symm, hcounts.line.trans hcounts'.line.symm,
    hcounts.col.trans hcounts'.col.symm⟩

/-- A new parser of a stream has the stream to come. -/
theorem view_parserInitS {userData : κ} (h : feeds userData input) (mem : Mem) (buff : Nat)
    {size : Nat} (hsize : 1 ≤ size) :
    View feeds input (parserInitS mem buff size userData) input where
  left := ⟨input, h, nofun, Nat.le_refl 0, rfl⟩
  consumed := ⟨[], rfl, rfl, rfl, rfl⟩
  buffSize := fun _ => hsize

/-- A new parser of a string has the string to come. -/
theorem view_parserInit {mem : Mem} {str : Nat} (h : mem.read str input.length = input) :
    View (fun _ l => l = []) input (parserInit mem str input.length) input where
  left := ⟨[], rfl, fun _ => rfl, Nat.le_add_right .., by
    rw [parserInit, Nat.add_sub_cancel_left, h, List.append_nil]⟩
  consumed := ⟨[], rfl, rfl, rfl, rfl⟩
  buffSize := fun h => absurd rfl h

section Agreement

variable {userData : κ} {mem mem' : Mem} {buff size str fuel : Nat}

section Outcomes

variable {κ' : Type} {feeds' : κ' → List UInt8 → Prop} {outs : List (Parser κ × Outcome)}
  {outs' : List (Parser κ' × Outcome)} {outsL : List (List UInt8 × Outcome)}

/-- What is seen of parsers that follow the same list. -/
theorem seen_eq (h : List.Forall₂ (fun x y => View feeds input x.1 y.1 ∧ x.2 = y.2) outs outsL)
    (h' : List.Forall₂ (fun x y => View feeds' input x.1 y.1 ∧ x.2 = y.2) outs' outsL) :
    outs.map seen = outs'.map seen := by
  induction h generalizing outs' with
  | nil =>
      cases h'
      rfl
  | cons hxy _ ih =>
      cases h' with
      | cons hxy' htail =>
          obtain ⟨htotal, hline, hcol⟩ := hxy.1.counters_eq hxy'.1
          rw [List.map_cons, List.map_cons, ih htail, seen, seen, hxy.2, hxy'.2,
            htotal, hline, hcol]

theorem results_eq
    (h : List.Forall₂ (fun x y => View feeds input x.1 y.1 ∧ x.2 = y.2) outs outsL) :
    (outs.map seen).map Seen.result = outsL.map (·.2.result) := by
  induction h with
  | nil => rfl
  | cons hxy _ ih =>
      rw [List.map_cons, List.map_cons, List.map_cons, ih, ← hxy.2]
      rfl

theorem forall_view
    (h : List.Forall₂ (fun x y => View feeds input x.1 y.1 ∧ x.2 = y.2) outs outsL) :
    ∀ x ∈ outs, ∃ l, View feeds input x.1 l := by
  intro x hx
  induction h with
  | nil => cases hx
  | cons hxy _ ih =>
      rcases List.mem_cons.mp hx with rfl | hx
      · exact ⟨_, hxy.1⟩
      · exact ih hx

end Outcomes

/-- The parser of a stream and the parser of a string do the same, and count what they have
consumed, whatever their operations find in `last`. -/
def Agree (readCb : ParserRead κ) (feeds : κ → List UInt8 → Prop) (input : List UInt8)
    (fuel : Nat) (ops : List Op) (dests : Mem) (p : Parser κ) (p' : Parser Unit) : Prop :=
  ∀ lasts lasts', ∃ outs outs', runOps (parserSource readCb) fuel ops lasts dests p = some outs ∧
    runOps (parserSource noRead) fuel ops lasts' dests p' = some outs' ∧
      outs.map seen = outs'.map seen ∧ (∀ x ∈ outs, ∃ l, View feeds input x.1 l) ∧
        ∀ x ∈ outs', ∃ l, View (fun _ l => l = []) input x.1 l

/-- The parser of a stream and the parser of a string agree on the sequences in which no
operation is ambiguous, and on no other. -/
theorem agree_iff_unambiguous (hread : Feeds readCb feeds) (huser : feeds userData input)
    (hsize : 1 ≤ size) (hstr : mem'.read str input.length = input)
    (hfuel : 2 * input.length + 1 < fuel) (ops : List Op) (dests : Mem) :
    Agree readCb feeds input fuel ops dests (parserInitS mem buff size userData)
      (parserInit mem' str input.length) ↔ Unambiguous fuel ops dests input := by
  have hviews := views_parserSource input hread
  have hviews' := views_parserSource input feeds_noRead
  have hinit := view_parserInitS huser mem buff hsize
  have hinit' := view_parserInit hstr
  constructor
  · intro h
    by_contra hnot
    obtain ⟨lasts, lasts', hne⟩ := exists_ne_of_not_unambiguous hfuel hnot
    obtain ⟨outs, outs', houts, houts', hseen, -⟩ := h lasts lasts'
    obtain ⟨_, outsL, hrun, houtsL, hrel⟩ := runOps_follows hviews hinit hfuel ops lasts dests
    obtain ⟨_, outsL', hrun', houtsL', hrel'⟩ :=
      runOps_follows hviews' hinit' hfuel ops lasts' dests
    cases houts.symm.trans hrun
    cases houts'.symm.trans hrun'
    exact hne outsL outsL' houtsL houtsL'
      ((results_eq hrel).symm.trans ((congrArg _ hseen).trans (results_eq hrel')))
  · intro h lasts lasts'
    obtain ⟨outs, outsL, hrun, houtsL, hrel⟩ := runOps_follows hviews hinit hfuel ops lasts dests
    obtain ⟨outs', outsL', hrun', houtsL', hrel'⟩ :=
      runOps_follows hviews' hinit' hfuel ops lasts' dests
    cases houtsL.symm.trans ((h.runOps_eq lasts lasts').trans houtsL')
    exact ⟨outs, outs', hrun, hrun', seen_eq hrel hrel', forall_view hrel, forall_view hrel'⟩

end Agreement

/-- The callback that delivers one character at a time. -/
def readOne : ParserRead (List UInt8) := fun l _ => (l.take 1, l.drop 1)

theorem feeds_readOne : Feeds readOne Eq where
  chunk := by
    rintro k l n hn rfl
    exact ⟨1, rfl, hn, fun _ => Nat.one_pos, rfl⟩

/-- The characters `-0x1F`. -/
def negativeHex : List UInt8 := [0x2D, 0x30, 0x78, 0x31, 0x46]

/-- The characters `-x1`. -/
def signedLetter : List UInt8 := [0x2D, 0x78, 0x31]

/-- A string for `parser_init`. -/
def stringAt (input : List UInt8) : Mem := Mem.zero.write 16 input

/-- A parser of a string in memory. -/
def stringParser (input : List UInt8) : Parser Unit :=
  parserInit (stringAt input) 16 input.length

theorem view_stringParser (input : List UInt8) :
    View (fun _ l => l = []) input (stringParser input) input :=
  view_parserInit (Mem.read_write_self ..)

theorem agree_negativeHex :
    Agree readOne Eq negativeHex 20 [.readValue 0 8 0xFF, .skipWs] Mem.zero
      (parserInitS Mem.zero 64 1 negativeHex)
      (parserInit (stringAt negativeHex) 16 negativeHex.length) := by
  have hclear : Unambiguous 20 [.readValue 0 8 0xFF, .skipWs] Mem.zero negativeHex :=
    ⟨fun h => h.2.2 (by decide), fun _ _ _ => ⟨id, fun _ _ _ => trivial⟩⟩
  exact (agree_iff_unambiguous feeds_readOne rfl (Nat.le_refl 1) (Mem.read_write_self ..)
    (by decide) _ _).mpr hclear

/-- On `-x1`, with every format, the two parsers differ. -/
theorem not_agree_signedLetter :
    ¬ Agree readOne Eq signedLetter 20 [.readValue 0 8 0xFF] Mem.zero
        (parserInitS Mem.zero 64 1 signedLetter)
        (parserInit (stringAt signedLetter) 16 signedLetter.length) := by
  intro h
  obtain ⟨outs, outs', houts, houts', hseen, -⟩ := h (fun _ => '0'.toUInt8) fun _ => 0
  have hstream : (runOps (parserSource readOne) 20 [.readValue 0 8 0xFF] (fun _ => '0'.toUInt8)
      Mem.zero (parserInitS Mem.zero 64 1 signedLetter)).map
        (fun outs => (outs.map seen).map Seen.result) = some [3] := by
    decide
  have hstring : (runOps (parserSource noRead) 20 [.readValue 0 8 0xFF] (fun _ => 0)
      Mem.zero (parserInit (stringAt signedLetter) 16 signedLetter.length)).map
        (fun outs => (outs.map seen).map Seen.result) = some [1] := by
    decide
  rw [houts, Option.map_some, hseen] at hstream
  rw [houts', Option.map_some] at hstring
  cases (Option.some.inj hstream).symm.trans (Option.some.inj hstring)

end Adhoc
