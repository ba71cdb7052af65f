import Adhoc.Http.Stream

/-!
# Looking ahead

`parser_is_next` compares the characters to come with a string.  `parser_provide_space`
sees to it that they are in the window: where the window is too short, its characters move to
the front of the buffer, and the callback is called for what the buffer has room for.  It is
called once, and it may deliver less than is needed.  Then `memcmp` goes on behind the
window, where the buffer has what it had before.
-/

namespace Adhoc

open ByteMem Scanner

section Functions

variable {κ : Type} (readCb : ParserRead κ) (p : Parser κ)

/-- `parser_provide_space` behind its tests. -/
def fillSpace (buff : Nat) : Parser κ :=
  let allow := p.stop - p.curr
  let mem := p.mem.write buff (p.mem.read (p.stop - allow) allow)
  let (bs, userData) := readCb p.userData (p.buffSize - allow)
  { p with
    mem := mem.write (buff + allow) bs
    userData := userData
    curr := buff
    stop := buff + allow + bs.length }

/-- `parser_provide_space`. -/
def parserProvideSpace (size : Nat) : Bool × Parser κ :=
  if size ≤ p.stop - p.curr then (true, p)
  else
    match p.buff with
    | none => (false, p)
    | some buff => if p.buffSize < size then (false, p) else (true, fillSpace readCb p buff)

/-- `parser_is_next`. -/
def parserIsNext (str : List UInt8) : Bool × Parser κ :=
  let (space, p) := parserProvideSpace readCb p str.length
  if space then (decide (p.mem.read p.curr str.length = str), p) else (false, p)

/-- How many characters the window has, with those that one call delivers into the room that
it leaves. -/
def oneCall : Nat :=
  let allow := p.stop - p.curr
  allow + (readCb p.userData (p.buffSize - allow)).1.length

end Functions

variable {κ : Type} {readCb : ParserRead κ} {feeds : κ → List UInt8 → Prop}
  {input l str : List UInt8} {p : Parser κ}

/-! ## The window -/

theorem fillSpace_stop (buff : Nat) :
    (fillSpace readCb p buff).stop - (fillSpace readCb p buff).curr = oneCall readCb p := by
  simp only [fillSpace, oneCall, Nat.add_assoc, Nat.add_sub_cancel_left]

/-- The window has what it had, and then what was delivered. -/
theorem fillSpace_window {buff : Nat} (hle : p.curr ≤ p.stop) :
    (fillSpace readCb p buff).mem.read buff (oneCall readCb p) =
      p.mem.read p.curr (p.stop - p.curr) ++
        (readCb p.userData (p.buffSize - (p.stop - p.curr))).1 := by
  have hkept : (p.mem.read p.curr (p.stop - p.curr)).length = p.stop - p.curr := Mem.length_read ..
  simp only [fillSpace, oneCall, Nat.sub_sub_self hle]
  rw [Mem.read_add, Mem.read_write_self, Mem.read_write_disjoint _ (.inl (Nat.le_refl _))]
  congr 1
  have hself := p.mem.read_write_self buff (p.mem.read p.curr (p.stop - p.curr))
  rw [hkept] at hself
  exact hself

/-- The parser still has the same characters to come. -/
theorem View.fillSpace (hread : Feeds readCb feeds) (h : View feeds input p l) {buff : Nat}
    (hbuff : p.buff = some buff) (hroom : p.stop - p.curr < p.buffSize) :
    View feeds input (fillSpace readCb p buff) l := by
  obtain ⟨ahead, hfeeds, hnone, hle, hleft⟩ := h.left
  obtain ⟨i, hbs, -, -, hfeeds'⟩ := hread.chunk (Nat.sub_pos_of_lt hroom) hfeeds
  obtain ⟨pre, hpre, hcounts⟩ := h.consumed
  have hcurr : (Adhoc.fillSpace readCb p buff).curr = buff := rfl
  refine ⟨⟨ahead.drop i, hfeeds', fun hnone => ?_, ?_, ?_⟩,
    ⟨pre, hpre, hcounts.total, hcounts.line, hcounts.col⟩, h.buffSize⟩
  · cases hbuff.symm.trans hnone
  · exact Nat.le_trans (Nat.le_add_right ..) (Nat.le_add_right ..)
  · rw [fillSpace_stop, hcurr, fillSpace_window hle, hbs, List.append_assoc,
      List.take_append_drop]
    exact hleft

/-- What the window has comes first. -/
theorem View.read_eq_take (h : View feeds input p l) {n : Nat} (hn : n ≤ p.stop - p.curr) :
    p.mem.read p.curr n = l.take n := by
  obtain ⟨ahead, -, -, -, hleft⟩ := h.left
  obtain ⟨k, hk⟩ := Nat.exists_eq_add_of_le hn
  rw [← hleft, hk, Mem.read_add, List.append_assoc]
  exact (List.take_left' (Mem.length_read ..)).symm

theorem View.prefix_iff (h : View feeds input p l) (hn : str.length ≤ p.stop - p.curr) :
    p.mem.read p.curr str.length = str ↔ str <+: l := by
  rw [h.read_eq_take hn, List.prefix_iff_eq_take]
  exact eq_comm

/-! ## The answer -/

/-- What `parser_provide_space` can do. -/
theorem parserProvideSpace_cases (readCb : ParserRead κ)
    (hroom : p.buff ≠ none → str.length ≤ p.buffSize) :
    (str.length ≤ p.stop - p.curr ∧ parserProvideSpace readCb p str.length = (true, p)) ∨
    (p.stop - p.curr < str.length ∧ p.buff = none ∧
      parserProvideSpace readCb p str.length = (false, p)) ∨
    ∃ buff, p.stop - p.curr < str.length ∧ p.buff = some buff ∧
      parserProvideSpace readCb p str.length = (true, fillSpace readCb p buff) := by
  rcases Nat.lt_or_ge (p.stop - p.curr) str.length with hlt | hle
  · refine .inr ?_
    cases hbuff : p.buff with
    | none =>
        refine .inl ⟨hlt, rfl, ?_⟩
        rw [parserProvideSpace, if_neg (Nat.not_le_of_lt hlt), hbuff]
    | some buff =>
        have hsize : str.length ≤ p.buffSize :=
          hroom (by rw [hbuff]; exact Option.some_ne_none buff)
        refine .inr ⟨buff, hlt, rfl, ?_⟩
        rw [parserProvideSpace, if_neg (Nat.not_le_of_lt hlt), hbuff]
        exact if_neg (Nat.not_lt_of_le hsize)
  · exact .inl ⟨hle, if_pos hle⟩

/-- `parser_is_next` looks ahead: it says whether the characters `l` to come begin with the
string, it hands `memcmp` a range of the window only, it counts nothing, and operations that come
later do what they would have done. -/
structure LooksAhead (readCb : ParserRead κ) (p : Parser κ) (l str : List UInt8) : Prop where
  answer : (parserIsNext readCb p str).1 = true ↔ str <+: l
  window : (parserProvideSpace readCb p str.length).1 = true →
    (parserProvideSpace readCb p str.length).2.curr + str.length ≤
      (parserProvideSpace readCb p str.length).2.stop
  total : (parserIsNext readCb p str).2.total = p.total
  line : (parserIsNext readCb p str).2.line = p.line
  col : (parserIsNext readCb p str).2.col = p.col
  later : ∀ fuel ops lasts mem, 2 * l.length + 1 < fuel →
    (runOps (parserSource readCb) fuel ops lasts mem (parserIsNext readCb p str).2).map
        (List.map seen) =
      (runOps (parserSource readCb) fuel ops lasts mem p).map (List.map seen)

/-- Two parsers with the same characters to come do the same, and count the same. -/
theorem runOps_seen_eq (hread : Feeds readCb feeds) {p' : Parser κ} (h : View feeds input p l)
    (h' : View feeds input p' l) {fuel : Nat} (hfuel : 2 * l.length + 1 < fuel) (ops : List Op)
    (lasts : Nat → UInt8) (mem : Mem) :
    (runOps (parserSource readCb) fuel ops lasts mem p').map (List.map seen) =
      (runOps (parserSource readCb) fuel ops lasts mem p).map (List.map seen) := by
  have hviews := views_parserSource input hread
  obtain ⟨outs, outsL, hrun, hlist, hrel⟩ := runOps_follows hviews h hfuel ops lasts mem
  obtain ⟨outs', outsL', hrun', hlist', hrel'⟩ := runOps_follows hviews h' hfuel ops lasts mem
  cases hlist.symm.trans hlist'
  rw [hrun, hrun', Option.map_some, Option.map_some, seen_eq hrel' hrel]

/-- `parser_is_next` in terms of the parser it leaves, where the comparison is in the window. -/
theorem LooksAhead.of_view (hread : Feeds readCb feeds) (h : View feeds input p l)
    {p' : Parser κ} (hspace : parserProvideSpace readCb p str.length = (true, p'))
    (h' : View feeds input p' l) (hn : str.length ≤ p'.stop - p'.curr) :
    LooksAhead readCb p l str := by
  have hnext : parserIsNext readCb p str = (decide (p'.mem.read p'.curr str.length = str), p') := by
    rw [parserIsNext, hspace]
    rfl
  obtain ⟨htotal, hline, hcol⟩ := h'.counters_eq h
  obtain ⟨-, -, -, hle, -⟩ := h'.left
  refine ⟨?_, fun _ => ?_, ?_, ?_, ?_, fun fuel ops lasts mem hfuel => ?_⟩
  · rw [hnext, decide_eq_true_iff]
    exact h'.prefix_iff hn
  · rw [hspace]
    exact Nat.add_le_of_le_sub' hle hn
  · rw [hnext]
    exact htotal
  · rw [hnext]
    exact hline
  · rw [hnext]
    exact hcol
  · rw [hnext]
    exact runOps_seen_eq hread h h' hfuel ops lasts mem

/-- `parser_is_next` looks ahead in a string, and in a stream where the window has the characters
to compare after one call.  `str` is at most as long as the buffer of a stream. -/
theorem looksAhead_iff (hread : Feeds readCb feeds) (h : View feeds input p l)
    (hroom : p.buff ≠ none → str.length ≤ p.buffSize) :
    LooksAhead readCb p l str ↔ p.buff = none ∨ str.length ≤ oneCall readCb p := by
  rcases parserProvideSpace_cases readCb hroom with
    ⟨hle, hspace⟩ | ⟨hlt, hnone, hspace⟩ | ⟨buff, hlt, hbuff, hspace⟩
  · exact iff_of_true (.of_view hread h hspace h hle)
      (.inr (Nat.le_trans hle (Nat.le_add_right ..)))
  · -- A string ends with its window.
    obtain ⟨ahead, -, hahead, -, hleft⟩ := h.left
    rw [hahead hnone, List.append_nil] at hleft
    have hlen : l.length = p.stop - p.curr := by rw [← hleft, Mem.length_read]
    have hnext : parserIsNext readCb p str = (false, p) := by
      rw [parserIsNext, hspace]
      rfl
    refine iff_of_true ⟨?_, ?_, ?_, ?_, ?_, fun _ _ _ _ _ => ?_⟩ (.inl hnone)
    · rw [hnext]
      refine iff_of_false Bool.false_ne_true fun hprefix => ?_
      exact absurd (hlen ▸ hprefix.length_le) (Nat.not_le_of_lt hlt)
    · rw [hspace]
      exact fun h => absurd h Bool.false_ne_true
    all_goals rw [hnext]
  · have hsize : p.stop - p.curr < p.buffSize :=
      Nat.lt_of_lt_of_le hlt (hroom (by rw [hbuff]; exact Option.some_ne_none buff))
    have hview := h.fillSpace hread hbuff hsize
    obtain ⟨-, -, -, hle, -⟩ := hview.left
    constructor
    · intro hlooks
      have hwindow := hlooks.window
      rw [hspace] at hwindow
      refine .inr ?_
      rw [← fillSpace_stop buff]
      exact Nat.le_sub_of_add_le' (hwindow rfl)
    · rintro (hnone | hn)
      · cases hbuff.symm.trans hnone
      · refine .of_view hread h hspace hview ?_
        rw [fillSpace_stop]
        exact hn

/-- The characters of a method. -/
def getWord : List UInt8 := [0x47, 0x45, 0x54]

/-- A stream of the method that delivers one character at a time. -/
def getStream : Parser (List UInt8) := parserInitS Mem.zero 64 8 getWord

theorem view_getStream : View Eq getWord getStream getWord :=
  view_parserInitS rfl Mem.zero 64 (by decide)

theorem looksAhead_first : LooksAhead readOne getStream getWord [0x47] :=
  (looksAhead_iff feeds_readOne view_getStream fun _ => by decide).mpr (.inr (by decide))

/-- The method is next, but only its first character is in the window. -/
theorem not_looksAhead_getWord : ¬ ∀ {κ : Type} {readCb : ParserRead κ}
    {feeds : κ → List UInt8 → Prop} {input l str : List UInt8} {p : Parser κ},
    Feeds readCb feeds → View feeds input p l → (p.buff ≠ none → str.length ≤ p.buffSize) →
    LooksAhead readCb p l str := by
  intro h
  have hlooks : LooksAhead readOne getStream getWord getWord :=
    h feeds_readOne view_getStream fun _ => by decide
  have hanswer : (parserIsNext readOne getStream getWord).1 = false := by decide +kernel
  have htrue := hlooks.answer.mpr (List.prefix_refl getWord)
  cases hanswer.symm.trans htrue

end Adhoc
