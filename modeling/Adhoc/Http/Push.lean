import Mathlib.Data.List.DropRight
import Adhoc.Http.Reading
import Adhoc.Http.Stream

/-!
# Pushing a request

A push reads what the request reader reads (`Rel.push`).  The parser of a push
shows the octets of the buffer from where the last push stopped (`Window`), and a
round of its loop is a step of the reader.  The zeros it stores are all in front of
where it goes on.

`Rel` relates a buffer to a reading.  What the buffer has of a header without a
closing zero is a matter of the memory behind it, so `Rel` is told what `strtol` made
of that (`v`).
-/

namespace Adhoc

open ByteMem Scanner Incremental

/-! ## The parser of a push -/

/-- The parser of the first `size` octets of a memory has `l` to come. -/
structure Window (mem : Mem) (size : Nat) (p : Parser Unit) (l : List UInt8) : Prop where
  buff : p.buff = none
  mem_eq : p.mem = mem
  stop : p.stop = size
  curr : p.curr = p.total
  total : p.total + l.length = size
  octets : mem.read p.total l.length = l

variable {mem : Mem} {size fuel : Nat} {p : Parser Unit} {l : List UInt8}

/-- The parser of a push shows what it has to come. -/
theorem views_window : Views reqSource (Window mem size) where
  nil := by
    intro p h
    have hend : p.curr = p.stop := by
      rw [h.curr, h.stop]
      exact h.total
    have hcheck : checkState noRead p = (true, p) := by
      rw [checkState, if_pos hend, h.buff]
    exact ⟨congrArg Prod.fst hcheck, (congrArg Prod.snd hcheck).symm ▸ h⟩
  cons := by
    intro p c l h
    have hlt : p.curr < p.stop := by
      rw [h.curr, h.stop, ← h.total, List.length_cons]
      omega
    have hcheck : checkState noRead p = (false, p) := checkState_of_lt hlt
    have hoctets := h.octets
    rw [List.length_cons, Mem.read_cons] at hoctets
    obtain ⟨hc, hl⟩ := List.cons.inj hoctets
    rw [show reqSource.check p = _ from hcheck]
    refine ⟨rfl, ?_, h, h.buff, h.mem_eq, h.stop, congrArg (· + 1) h.curr, ?_, hl⟩
    · exact (congrArg (fun m => m p.curr) h.mem_eq).trans ((congrArg mem h.curr).trans hc)
    · rw [← h.total, List.length_cons]
      exact Nat.add_right_comm ..

/-- A zero in front of what is to come. -/
theorem Window.store (h : Window mem size p l) {i : Nat} (hi : i < p.total) :
    Window (mem.write i [0]) size (p.store i) l where
  buff := h.buff
  mem_eq := congrArg (fun m => m.write i [0]) h.mem_eq
  stop := h.stop
  curr := h.curr
  total := h.total
  octets := (Mem.read_write_disjoint mem (.inr (Nat.succ_le_of_lt hi))).trans h.octets

/-- A zero on the character to come. -/
theorem Window.store_curr {c : UInt8} (h : Window mem size p (c :: l)) :
    Window (mem.write p.total [0]) size (p.store p.total) (0 :: l) where
  buff := h.buff
  mem_eq := congrArg (fun m => m.write p.total [0]) h.mem_eq
  stop := h.stop
  curr := h.curr
  total := h.total
  octets := by
    have hoctets := h.octets
    rw [List.length_cons, Mem.read_cons] at hoctets
    have htail : (mem.write p.total [0]).read (p.total + 1) l.length = l := by
      rw [Mem.read_write_disjoint _ (.inr (Nat.le_refl (p.total + 1)))]
      exact (List.cons.inj hoctets).2
    have hhead : (mem.write p.total [0]) p.total = 0 := by
      rw [Mem.write_of_mem _ (Nat.le_refl _) (by simp)]
      simp
    rw [List.length_cons, Mem.read_cons]
    show (mem.write p.total [0]) p.total :: _ = _
    rw [hhead]
    exact congrArg _ htail

/-- The place of what is to come. -/
theorem Window.total_eq (h : Window mem size p l) {p' : Parser Unit} {l' : List UInt8}
    (h' : Window mem size p' l') {k : Nat} (hk : l.length = k + l'.length) :
    p'.total = p.total + k := by
  have htotal := h.total
  have htotal' := h'.total
  omega

/-- A parser without a stream does not change when it is asked for the end. -/
theorem checkState_noRead (h : p.buff = none) : (checkState noRead p).2 = p := by
  unfold checkState
  split
  next => rw [h]
  next => rfl

theorem Window.eof (h : Window mem size p l) : parserEof reqSource p = (p, l.isEmpty) :=
  Prod.ext (checkState_noRead h.buff) (parserEof_view views_window h).1

theorem Window.curr_eq (h : Window mem size p l) : parserCurr reqSource p = (p, l.headD 0) :=
  Prod.ext (checkState_noRead h.buff) (parserCurr_view views_window h).1

/-- A character that is not there is not skipped. -/
theorem Window.skipChar_of_ne {c : UInt8} (h : Window mem size p l) (hc : ∀ a ∈ l.head?, a ≠ c) :
    parserSkipChar reqSource c p = (p, false) := by
  have hcheck : reqSource.check p = (p, l.isEmpty).swap := congrArg Prod.swap h.eof
  have hno : reqSource.peek p ≠ c ∨ l.isEmpty = true := by
    cases l with
    | nil => exact .inr rfl
    | cons a l =>
        refine .inl ?_
        have hcurr := congrArg Prod.snd h.curr_eq
        simp only [parserCurr, hcheck, List.isEmpty_cons, Prod.swap_prod_mk, Bool.false_eq_true,
          if_false, List.headD_cons] at hcurr
        rw [hcurr]
        exact hc a rfl
  simp only [parserSkipChar, hcheck, Prod.swap_prod_mk]
  exact if_pos hno

/-- A character that is there is skipped. -/
theorem Window.skipChar_eq {c : UInt8} (h : Window mem size p (c :: l)) :
    ∃ p', parserSkipChar reqSource c p = (p', true) ∧ Window mem size p' l := by
  obtain ⟨hres, hview⟩ := parserSkipChar_view views_window h c
  rw [parserSkipChar_cons, if_pos rfl] at hres hview
  exact ⟨_, Prod.ext rfl hres, hview⟩

/-- Skipping one character. -/
theorem Window.skipOne {c : UInt8} (h : Window mem size p (c :: l)) :
    Window mem size (parserSkipN reqSource 1 p).1 l :=
  (parserSkipN_view views_window h 1).2

theorem skipRounds_append (k : List UInt8) (i : Nat) :
    (skipRounds (list UInt8) k.length i (k ++ l)).1 = l := by
  induction k generalizing i with
  | nil => rfl
  | cons c k ih => exact ih (i + 1)

/-- Skipping the characters of a list. -/
theorem Window.skipN {k : List UInt8} (h : Window mem size p (k ++ l)) :
    Window mem size (parserSkipN reqSource k.length p).1 l := by
  have hview := (parserSkipN_view views_window h k.length).2
  rw [parserSkipN, if_neg (Int.not_lt.mpr (Int.natCast_nonneg k.length))] at hview
  simp only [parserSkipN, Int.toNat_natCast, skipRounds_append] at hview
  exact hview

section Operations

theorem parserSkipLine_list (hfuel : l.length < fuel) :
    parserSkipLine (list UInt8) fuel l =
      match l.dropWhile (isNot '\n'.toUInt8) with
      | [] => some ([], false)
      | _ :: rest => some (rest, true) := by
  unfold parserSkipLine
  induction fuel generalizing l with
  | zero => cases hfuel
  | succ fuel ih =>
      cases l with
      | nil => rfl
      | cons a l =>
          rw [scan_list_cons, skipLineBody]
          by_cases ha : a = '\n'.toUInt8
          · rw [if_pos ha, List.dropWhile_cons_of_neg (by simpa [isNot] using ha)]
          · rw [if_neg ha, List.dropWhile_cons_of_pos (by simpa [isNot] using ha)]
            exact ih (Nat.lt_of_succ_lt_succ hfuel)

variable (h : Window mem size p l) (hfuel : l.length < fuel)
include h hfuel

theorem Window.skip (chatset : UInt8 → Bool) :
    ∃ p' n, parserSkip reqSource fuel chatset p = some (p', n) ∧
      Window mem size p' (l.dropWhile chatset) := by
  obtain ⟨n, hl⟩ : ∃ n, parserSkip (list UInt8) fuel chatset l = some (l.dropWhile chatset, n) :=
    scan_list_skips (fun t a ha => ⟨t + 1, if_pos ha⟩)
      (fun t a ha => ⟨t, if_neg (by simp [ha])⟩) hfuel
  obtain ⟨p', hp, hwindow⟩ := scan_follows views_window h _ _ hl
  exact ⟨p', n, hp, hwindow⟩

theorem Window.skipWs :
    ∃ p' b, parserSkipWs reqSource fuel p = some (p', b) ∧
      Window mem size p' (l.dropWhile isWs) := by
  obtain ⟨b, hl⟩ : ∃ b, parserSkipWs (list UInt8) fuel l = some (l.dropWhile isWs, b) :=
    scan_list_skips (fun t a ha => ⟨true, if_pos ha⟩)
      (fun t a ha => ⟨t, if_neg (by simp [ha])⟩) hfuel
  obtain ⟨p', hp, hwindow⟩ := scan_follows views_window h _ _ hl
  exact ⟨p', b, hp, hwindow⟩

theorem Window.skipWsInLine :
    ∃ p' b, parserSkipWsInLine reqSource fuel p = some (p', b) ∧
      Window mem size p' (l.dropWhile isWsInLine) := by
  obtain ⟨b, hl⟩ : ∃ b, parserSkipWsInLine (list UInt8) fuel l = some (l.dropWhile isWsInLine, b) :=
    scan_list_skips (fun t a ha => ⟨true, if_pos ha⟩)
      (fun t a ha => ⟨t, if_neg (by simp [ha])⟩) hfuel
  obtain ⟨p', hp, hwindow⟩ := scan_follows views_window h _ _ hl
  exact ⟨p', b, hp, hwindow⟩

theorem Window.skipBefore (c : UInt8) :
    ∃ p' b, parserSkipBefore reqSource fuel c p = some (p', b) ∧
      Window mem size p' (l.dropWhile (isNot c)) := by
  obtain ⟨b, hl⟩ : ∃ b, parserSkipBefore (list UInt8) fuel c l =
      some (l.dropWhile (isNot c), b) :=
    scan_list_skips (fun t a ha => ⟨t, if_neg (by simpa [isNot] using ha)⟩)
      (fun t a ha => ⟨true, if_pos (by simpa [isNot] using ha)⟩) hfuel
  obtain ⟨p', hp, hwindow⟩ := scan_follows views_window h _ _ hl
  exact ⟨p', b, hp, hwindow⟩

/-- A line that has no end yet is skipped to the end of the octets. -/
theorem Window.skipLine_none (hline : l.dropWhile (isNot '\n'.toUInt8) = []) :
    ∃ p', parserSkipLine reqSource fuel p = some (p', false) ∧ Window mem size p' [] := by
  have hl := parserSkipLine_list hfuel
  rw [hline] at hl
  exact scan_follows views_window h _ _ hl

theorem Window.skipLine_some {c : UInt8} {rest : List UInt8}
    (hline : l.dropWhile (isNot '\n'.toUInt8) = c :: rest) :
    ∃ p', parserSkipLine reqSource fuel p = some (p', true) ∧ Window mem size p' rest := by
  have hl := parserSkipLine_list hfuel
  rw [hline] at hl
  exact scan_follows views_window h _ _ hl

end Operations

/-! ## Buffers and readings -/

section Store

variable {off i : Nat} {str : List UInt8}

/-- A string is held once the zero behind it is stored. -/
theorem holdsAt_store (h : mem.read off str.length = str) :
    HoldsAt (mem.write (off + str.length) [0]) off str := by
  rw [HoldsAt, Mem.read_write_snoc, h]

/-- A zero at the end of a string or behind it leaves the string. -/
theorem HoldsAt.store (h : HoldsAt mem off str) (hi : off + str.length ≤ i) :
    HoldsAt (mem.write i [0]) off str := by
  rw [HoldsAt, Mem.read_succ] at h
  have hstr := (List.append_inj' h rfl).1
  rcases Nat.eq_or_lt_of_le hi with rfl | hlt
  · exact holdsAt_store hstr
  · rw [HoldsAt, Mem.read_write_disjoint _ (.inl (by omega)), Mem.read_succ]
    exact h

/-- What is stored behind a string and its zero leaves it. -/
theorem HoldsAt.write {bs : List UInt8} (h : HoldsAt mem off str) (hi : off + str.length < i) :
    HoldsAt (mem.write i bs) off str := by
  rw [HoldsAt, Mem.read_write_disjoint _ (.inl hi)]
  exact h

/-- What a parser shows is in the memory. -/
theorem Window.read_prefix {s rest : List UInt8} (h : Window mem size p (s ++ rest)) :
    mem.read p.total s.length = s := by
  have hoctets := h.octets
  rw [List.length_append, Mem.read_add] at hoctets
  exact (List.append_inj hoctets (Mem.length_read ..)).1

end Store

/-- The zero two octets before the end of a line ends what is before it. -/
theorem Window.holds_line {str rest : List UInt8} {c : UInt8} {p' : Parser Unit}
    (h : Window mem size p (str ++ c :: rest)) (h' : Window mem size p' rest) (hne : str ≠ []) :
    p'.total = p.total + str.length + 1 ∧
      p'.total - 2 = p.total + str.dropLast.length ∧
        mem.read p.total str.dropLast.length = str.dropLast := by
  have htotal : p'.total = p.total + (str.length + 1) :=
    h.total_eq h' (by rw [List.length_append, List.length_cons]; omega)
  have hpos := List.length_pos_iff.mpr hne
  refine ⟨htotal, ?_, ?_⟩
  · rw [htotal, List.length_dropLast]
    omega
  · rw [← List.dropLast_concat_getLast hne, List.append_assoc] at h
    exact h.read_prefix

/-- The buffer `rb` in the memory `mem` has what the reading `r` says, and `l` is in it and not
read yet. -/
structure Rel (v : Nat → Int) (mem : Mem) (rb : HttpReqb) (r : Reading) (l : List UInt8) :
    Prop where
  state : rb.state = r.state
  req : rb.req = r.req v
  texts : ∀ t ∈ r.texts, HoldsAt mem t.off t.str ∧ t.off + t.str.length < r.pos
  parsing : r.state = .unfinished → rb.parsingState = r.parsing
  pos : rb.pos = r.pos
  size : r.state = .unfinished → r.pos + l.length = rb.size
  octets : r.state = .unfinished → mem.read r.pos l.length = l
  params : r.parsing = 3 → r.params ≠ []
  headers : ∀ x ∈ r.headers, x.value.off < r.pos

/-- The memories agree from an address on. -/
def AgreeFrom (n : Nat) (m m' : Mem) : Prop := ∀ i, n ≤ i → m i = m' i

theorem AgreeFrom.store {n i : Nat} {m m' : Mem} (h : AgreeFrom n m m') {n' : Nat} (hn : n ≤ n')
    (hi : i < n') : AgreeFrom n' (m.write i [0]) m' := by
  intro j hj
  rw [Mem.write_of_ge _ (by rw [List.length_singleton]; omega)]
  exact h j (by omega)

/-- What a round of the loop makes of a buffer, with `M` the memory when the push began. -/
inductive Round (v : Nat → Int) (M : Mem) (rb : HttpReqb) (r : Reading) (l : List UInt8) :
    Option (HttpReqb × Parser Unit) → Prop where
  /-- More is needed. -/
  | waits {p' mem} : r.step l = none → Window mem rb.size p' [] → Rel v mem rb r l →
      AgreeFrom r.pos mem M → Round v M rb r l (some (rb, p'))
  /-- The error is seen in the next round. -/
  | fails {p' mem k c rest l'} : r.step l = some (r.fail, l') → 10 ≤ k →
      Window mem rb.size p' (c :: rest) → Rel v mem rb r l → AgreeFrom r.pos mem M →
        Round v M rb r l (some ({ rb with parsingState := k }, p'))
  /-- The reader takes a step. -/
  | goes {rb' p' mem' r' l'} : r.step l = some (r', l') → r.pos ≤ r'.pos → rb'.size = rb.size →
      rb'.bsize = rb.bsize → p'.mem = mem' → Rel v mem' rb' r' l' →
        (r'.state = .unfinished → l'.length < l.length ∧ Window mem' rb.size p' l') →
          AgreeFrom r'.pos mem' M → Round v M rb r l (some (rb', p'))

section Rounds

variable {v : Nat → Int} {M : Mem} {rb : HttpReqb} {r : Reading} {t : Token} {rest : List UInt8}

theorem Rel.total_eq (h : Rel v mem rb r l) (hlive : r.state = .unfinished)
    (hw : Window mem rb.size p l) : p.total = r.pos := by
  have hsize := h.size hlive
  have htotal := hw.total
  omega

/-- A buffer whose parser stands where the reading does. -/
theorem Rel.of_window {mem' : Mem} {rb' : HttpReqb} {r' : Reading} {l' : List UInt8}
    {p' : Parser Unit} (hw : Window mem' rb'.size p' l') (htotal : p'.total = r'.pos)
    (hstate : rb'.state = r'.state) (hreq : rb'.req = r'.req v)
    (htexts : ∀ t ∈ r'.texts, HoldsAt mem' t.off t.str ∧ t.off + t.str.length < r'.pos)
    (hparsing : rb'.parsingState = r'.parsing) (hpos : rb'.pos = p'.total)
    (hparams : r'.parsing = 3 → r'.params ≠ [])
    (hheaders : ∀ x ∈ r'.headers, x.value.off < r'.pos) :
    Rel v mem' rb' r' l' where
  state := hstate
  req := hreq
  texts := htexts
  parsing := fun _ => hparsing
  pos := hpos.trans htotal
  size := fun _ => htotal ▸ hw.total
  octets := fun _ => htotal ▸ hw.octets
  params := hparams
  headers := hheaders

/-- What is held in front of the reading stays when zeros are stored behind. -/
theorem Rel.texts_store (h : Rel v mem rb r l) {i n : Nat} (hi : r.pos ≤ i) (hn : r.pos ≤ n)
    {t : Text} (ht : t ∈ r.texts) :
    HoldsAt (mem.write i [0]) t.off t.str ∧ t.off + t.str.length < n := by
  obtain ⟨hholds, hlt⟩ := h.texts t ht
  exact ⟨hholds.store (by omega), by omega⟩

/-- Where the characters of a token are, and what its delimiter becomes. -/
theorem Rel.atToken (h : Rel v mem rb r l) (hlive : r.state = .unfinished)
    (hw : Window mem rb.size p l) {ws q : UInt8 → Bool} (ht : token ws q l = some (t, rest))
    {p₁ p₂ : Parser Unit} (hw₁ : Window mem rb.size p₁ (l.dropWhile ws))
    (hw₂ : Window mem rb.size p₂ ((l.dropWhile ws).dropWhile q)) :
    p₁.total = (r.text t).off ∧ p₂.total = (r.text t).off + t.str.length ∧
      Window mem rb.size p₂ (t.delim :: rest) ∧
        HoldsAt (mem.write p₂.total [0]) (r.text t).off t.str := by
  obtain ⟨hlen, hstr, hdelim⟩ := token_eq_some ht
  have h₁ : p₁.total = r.pos + t.blanks := by
    rw [hw.total_eq hw₁ hlen, h.total_eq hlive hw]
  have h₂ : p₂.total = p₁.total + t.str.length := by
    refine hw₁.total_eq hw₂ ?_
    rw [hdelim, hstr, List.length_append]
  rw [hstr] at hw₁
  rw [hdelim] at hw₂
  refine ⟨h₁, h₂.trans (congrArg (· + t.str.length) h₁), hw₂, ?_⟩
  rw [h₂, h₁]
  exact holdsAt_store (h₁ ▸ hw₁.read_prefix)

/-- The round of a token in the states 0 to 3. -/
theorem Rel.goesOn (r₁ : Reading) {k : Nat} (h : Rel v mem rb r l) (hM : AgreeFrom r.pos mem M)
    (hstep : r.step l = some (r₁.behind t k, rest)) (hlen : l.length = t.width + rest.length)
    (hw : Window mem rb.size p (t.delim :: rest))
    (htotal : p.total = (r.text t).off + t.str.length)
    (hholds : HoldsAt (mem.write p.total [0]) (r.text t).off t.str)
    (hstate : r₁.state = r.state) (hpos : r₁.pos = r.pos)
    (htexts : ∀ x ∈ r₁.texts, x ∈ r.texts ∨ x = r.text t) (hparams : k = 3 → r₁.params ≠ [])
    (hheaders : r₁.headers = r.headers) :
    Round v M rb r l (some (endToken { rb with req := r₁.req v } p k)) := by
  have hend : p.total + 1 = (r₁.behind t k).pos := by
    rw [htotal, Reading.behind_pos, hpos, Reading.text_off, Token.width]
    omega
  have hw' := hw.store_curr.skipOne
  have htotal' := hw.store_curr.total_eq hw' (show _ = 1 + rest.length by
    rw [List.length_cons, Nat.add_comm])
  have hpos' : (parserSkipN reqSource 1 (p.store p.total)).1.total = (r₁.behind t k).pos :=
    htotal'.trans hend
  have hle : r.pos ≤ (r₁.behind t k).pos := by
    rw [Reading.behind_pos, hpos]
    exact Nat.le_add_right ..
  refine .goes hstep hle rfl rfl hw'.mem_eq ?_ (fun _ => ⟨?_, hw'⟩)
    (hM.store hle (hend ▸ Nat.lt_succ_self _))
  · refine .of_window hw' hpos' (h.state.trans hstate.symm) rfl (fun x hx => ?_) rfl rfl hparams
      (fun x hx => Nat.lt_of_lt_of_le (h.headers x (hheaders ▸ hx)) hle)
    rcases htexts x hx with hold | rfl
    · exact h.texts_store (by rw [htotal, Reading.text_off]; omega) hle hold
    · refine ⟨hholds, ?_⟩
      rw [← hend, htotal]
      exact Nat.lt_succ_self _
  · rw [hlen, Token.width]
    omega

theorem dropWhile_noWs (l : List UInt8) : l.dropWhile noWs = l := by
  cases l <;> rfl

theorem lt_of_dropWhile {q : UInt8 → Bool} (h : l.length < fuel) :
    (l.dropWhile q).length < fuel :=
  Nat.lt_of_le_of_lt (List.dropWhile_suffix q).length_le h

variable (h : Rel v mem rb r l) (hlive : r.state = .unfinished) (hw : Window mem rb.size p l)
  (hM : AgreeFrom r.pos mem M) (hfuel : l.length < fuel) (hne : l ≠ [])
include h hlive hw hM hfuel hne

theorem Rel.methodRound (hparsing : r.parsing = 0) :
    Round v M rb r l (pushMethod fuel rb p) := by
  have hstep : r.step l = r.readMethod l := by
    rw [Reading.step_of_live hlive hne, Reading.read, hparsing]
    rfl
  obtain ⟨p₁, b₁, hp₁, hw₁⟩ := hw.skipWs hfuel
  obtain ⟨p₂, b₂, hp₂, hw₂⟩ := hw₁.skipBefore (lt_of_dropWhile hfuel) ' '.toUInt8
  simp only [pushMethod, hp₁, hp₂, Option.bind_eq_bind, Option.bind_some]
  cases ht : token isWs (isNot ' '.toUInt8) l with
  | none =>
      rw [token_eq_none.mp ht] at hw₂
      simp only [hw₂.eof, List.isEmpty_nil, if_true]
      exact .waits (by rw [hstep, Reading.readMethod, ht]; rfl) hw₂ h hM
  | some x =>
      obtain ⟨t, rest⟩ := x
      obtain ⟨h₁, h₂, hw₂, hholds⟩ := h.atToken hlive hw ht hw₁ hw₂
      have hmethod : strToMethod (p₂.store p₂.total).mem p₁.total = methodOf t.str := by
        rw [hw₂.store_curr.mem_eq, h₁]
        exact hholds.strToMethod
      simp only [hw₂.eof, List.isEmpty_cons, Bool.false_eq_true, if_false, hmethod, h.req]
      exact h.goesOn { r with method := methodOf t.str } hM
        (by rw [hstep, Reading.readMethod, ht]; rfl) (token_length ht) hw₂ h₂ hholds rfl rfl
        (fun x hx => .inl hx) (fun hk => absurd hk (by decide)) rfl

omit hlive hfuel hne in
/-- The round of a token of `req_ident`. -/
theorem Rel.identRound {ws : UInt8 → Bool} {stateOf : UInt8 → Nat} {f : Token → Reading}
    {req : HttpReq} (hlive : r.state = .unfinished)
    (hstep : r.step l = (token ws reqIdent l).map (.map (fun t =>
      if 10 ≤ stateOf t.delim then r.fail else (f t).behind t (stateOf t.delim)) id))
    {p₁ p₂ : Parser Unit} (hw₁ : Window mem rb.size p₁ (l.dropWhile ws))
    (hw₂ : Window mem rb.size p₂ ((l.dropWhile ws).dropWhile reqIdent))
    (hf : ∀ t, (r.text t).off = p₁.total → (f t).state = r.state ∧ (f t).pos = r.pos ∧
      (∀ x ∈ (f t).texts, x ∈ r.texts ∨ x = r.text t) ∧
        (stateOf t.delim = 3 → (f t).params ≠ []) ∧ (f t).headers = r.headers ∧
          req = (f t).req v) :
    Round v M rb r l (some (endIdent stateOf req rb p₂)) := by
  cases ht : token ws reqIdent l with
  | none =>
      rw [token_eq_none.mp ht] at hw₂
      simp only [endIdent, hw₂.eof, List.isEmpty_nil, if_true]
      exact .waits (by rw [hstep, ht]; rfl) hw₂ h hM
  | some x =>
      obtain ⟨t, rest⟩ := x
      obtain ⟨h₁, h₂, hw₂, hholds⟩ := h.atToken hlive hw ht hw₁ hw₂
      obtain ⟨hstate, hpos, htexts, hparams, hheaders, rfl⟩ := hf t h₁.symm
      simp only [endIdent, hw₂.eof, hw₂.curr_eq, List.isEmpty_cons, Bool.false_eq_true, if_false,
        List.headD_cons]
      rw [ht, Option.map_some] at hstep
      split
      next herror =>
        simp only [Prod.map, herror, if_true] at hstep
        exact .fails hstep herror hw₂ h hM
      next herror =>
        simp only [Prod.map, herror, if_false] at hstep
        exact h.goesOn (f t) hM hstep (token_length ht) hw₂ h₂ hholds hstate hpos htexts hparams
          hheaders

theorem Rel.uriRound (hparsing : r.parsing = 1) : Round v M rb r l (pushUri fuel rb p) := by
  have hstep : r.step l = r.readUri l := by
    rw [Reading.step_of_live hlive hne, Reading.read, hparsing]
    rfl
  obtain ⟨p₁, b₁, hp₁, hw₁⟩ := hw.skipWs hfuel
  obtain ⟨p₂, b₂, hp₂, hw₂⟩ := hw₁.skip (lt_of_dropWhile hfuel) reqIdent
  simp only [pushUri, hp₁, hp₂, Option.bind_eq_bind, Option.bind_some]
  refine h.identRound hw hM hlive hstep hw₁ hw₂ fun t ht => ⟨rfl, rfl, fun x hx => ?_, ?_, rfl, ?_⟩
  · rcases Reading.mem_texts.mp hx with huri | hother
    · exact .inr (Option.some.inj huri).symm
    · exact .inl (Reading.mem_texts.mpr (.inr hother))
  · intro hstate
    unfold uriState at hstate
    repeat' split at hstate
    all_goals cases hstate
  · rw [h.req, ← ht]
    rfl

theorem Rel.paramRound (hparsing : r.parsing = 2) : Round v M rb r l (pushParam fuel rb p) := by
  have hstep : r.step l = r.readParam l := by
    rw [Reading.step_of_live hlive hne, Reading.read, hparsing]
    rfl
  obtain ⟨p₂, b₂, hp₂, hw₂⟩ := hw.skip hfuel reqIdent
  simp only [pushParam, hp₂, Option.bind_eq_bind, Option.bind_some]
  rw [← dropWhile_noWs l] at hw hw₂
  refine h.identRound (dropWhile_noWs l ▸ hw) hM hlive hstep hw hw₂ fun t ht =>
    ⟨rfl, rfl, fun x hx => ?_, ?_, rfl, ?_⟩
  · rcases Reading.mem_texts.mp hx with huri | hver | ⟨param, hparam, hx⟩ | hheader
    · exact .inl (Reading.mem_texts.mpr (.inl huri))
    · exact .inl (Reading.mem_texts.mpr (.inr (.inl hver)))
    · rcases List.mem_append.mp hparam with hold | hnew
      · exact .inl (Reading.mem_texts.mpr (.inr (.inr (.inl ⟨param, hold, hx⟩))))
      · obtain rfl := List.mem_singleton.mp hnew
        exact .inr (hx.elim Eq.symm nofun)
    · exact .inl (Reading.mem_texts.mpr (.inr (.inr (.inr hheader))))
  · exact fun _ => List.append_ne_nil_of_right_ne_nil _ (List.cons_ne_nil _ _)
  · rw [h.req, ← ht, Reading.req_addParam]

theorem Rel.valueRound (hparsing : r.parsing = 3) : Round v M rb r l (pushValue fuel rb p) := by
  have hstep : r.step l = r.readValue l := by
    rw [Reading.step_of_live hlive hne, Reading.read, hparsing]
    rfl
  have hparams := h.params hparsing
  obtain ⟨p₂, b₂, hp₂, hw₂⟩ := hw.skip hfuel reqIdent
  simp only [pushValue, hp₂, Option.bind_eq_bind, Option.bind_some]
  rw [← dropWhile_noWs l] at hw hw₂
  refine h.identRound (dropWhile_noWs l ▸ hw) hM hlive hstep hw hw₂ fun t ht =>
    ⟨rfl, rfl, fun x hx => ?_, ?_, rfl, ?_⟩
  · rcases Reading.mem_texts.mp hx with huri | hver | ⟨param, hparam, hx⟩ | hheader
    · exact .inl (Reading.mem_texts.mpr (.inl huri))
    · exact .inl (Reading.mem_texts.mpr (.inr (.inl hver)))
    · obtain ⟨old, hold, rfl | rfl⟩ := Reading.mem_giveValue hparam
      · exact .inl (Reading.mem_texts.mpr (.inr (.inr (.inl ⟨param, hold, hx⟩))))
      · rcases hx with hname | hvalue
        · exact .inl (Reading.mem_texts.mpr (.inr (.inr (.inl ⟨old, hold, .inl hname⟩))))
        · exact .inr (Option.some.inj hvalue).symm
    · exact .inl (Reading.mem_texts.mpr (.inr (.inr (.inr hheader))))
  · exact fun _ => Reading.giveValue_ne_nil hparams _
  · rw [h.req, ← ht, Reading.req_giveValue hparams]

theorem Rel.versionRound (hparsing : r.parsing = 4) :
    Round v M rb r l (pushVersion fuel rb p) := by
  have hstep : r.step l = r.readVersion l := by
    rw [Reading.step_of_live hlive hne, Reading.read, hparsing]
    rfl
  obtain ⟨p₁, b₁, hp₁, hw₁⟩ := hw.skipWs hfuel
  cases ht : token isWs (isNot '\n'.toUInt8) l with
  | none =>
      obtain ⟨p₂, hp₂, hw₂⟩ := hw₁.skipLine_none (lt_of_dropWhile hfuel) (token_eq_none.mp ht)
      simp only [pushVersion, hp₁, hp₂, Option.bind_eq_bind, Option.bind_some]
      exact .waits (by rw [hstep, Reading.readVersion, ht]; rfl) hw₂ h hM
  | some x =>
      obtain ⟨t, rest⟩ := x
      obtain ⟨hlen, hstr, hdelim⟩ := token_eq_some ht
      obtain ⟨p₂, hp₂, hw₂⟩ := hw₁.skipLine_some (lt_of_dropWhile hfuel) hdelim
      simp only [pushVersion, hp₁, hp₂, Option.bind_eq_bind, Option.bind_some]
      have hlf : t.delim = '\n'.toUInt8 := by
        simpa [isNot] using (token_kinds ht).2
      have hstrne : t.str ≠ [] := token_str_ne_nil ht (by rw [hlf]; decide)
      have h₁ : p₁.total = r.pos + t.blanks := by
        rw [hw.total_eq hw₁ hlen, h.total_eq hlive hw]
      rw [hstr] at hw₁
      obtain ⟨h₂, hzero, hread⟩ := hw₁.holds_line hw₂ hstrne
      have hpos : p₂.total = r.pos + t.width := by
        rw [h₂, h₁, Token.width]
        omega
      have hw' := hw₂.store (show p₂.total - 2 < p₂.total by omega)
      have hstep' : r.step l =
          some ({ r with ver := some ⟨r.pos + t.blanks, t.str.dropLast⟩ }.behind t 5, rest) := by
        rw [hstep, Reading.readVersion, ht]
        rfl
      refine .goes hstep' (Nat.le_add_right ..) rfl rfl hw'.mem_eq
        (.of_window hw' hpos h.state ?_ (fun x hx => ?_) rfl rfl (fun hk => by cases hk)
          (fun x hx => Nat.lt_of_lt_of_le (h.headers x hx) (Nat.le_add_right ..)))
        (fun _ => ⟨?_, hw'⟩) ?_
      · simp only [h.req, h₁]
        rfl
      · have hle : r.pos ≤ p₂.total - 2 := by omega
        have hold {x : Text} (hx : x ∈ r.texts) := h.texts_store hle (Nat.le_add_right _ t.width) hx
        rcases Reading.mem_texts.mp hx with huri | hver | hother
        · exact hold (Reading.mem_texts.mpr (.inl huri))
        · cases hver
          rw [hzero, ← h₁]
          refine ⟨holdsAt_store hread, ?_⟩
          show p₁.total + t.str.dropLast.length < r.pos + t.width
          rw [← hpos, h₂, List.length_dropLast]
          omega
        · exact hold (Reading.mem_texts.mpr (.inr (.inr hother)))
      · rw [token_length ht, Token.width]
        omega
      · exact hM.store (Nat.le_add_right ..) (by rw [Reading.behind_pos, ← hpos]; omega)

omit h hlive hw hM hfuel hne in
/-- A string that begins with another character is another. -/
theorem strcmpEq_of_ne {c : UInt8} {s : List UInt8} {a : Nat} (hc : mem a ≠ c) :
    strcmpEq mem a (c :: s) = false := by
  refine decide_eq_false fun heq => hc ?_
  rw [List.length_cons, Mem.read_cons] at heq
  exact (List.cons.inj heq).1

omit h hlive hw hM hfuel hne in
theorem token_str_ne_zero {ws : UInt8 → Bool} (ht : token ws reqIdent l = some (t, rest)) :
    ∀ c ∈ t.str, c ≠ 0 := by
  rintro c hc rfl
  have := (token_kinds ht).1 0 hc
  revert this
  decide

omit h hlive hw hM hfuel hne in
/-- What `http_req_set_param` reads of a value with a zero behind it. -/
theorem value_closed {x : Header} (hclosed : x.closed = true)
    (hx : HoldsAt mem x.value.off x.value.str) (hlen : x.value.str.length < addressSpace) :
    numberOf v (some x) = strtolAt mem x.value.off ∧
      connTypeOf x.value.str = strToCt mem x.value.off :=
  ⟨(if_pos hclosed).trans (hx.strtolAt hlen).symm, hx.strToCt.symm⟩

omit h hlive hw hM hfuel hne in
/-- What it reads of a value without one, which begins with the line feed. -/
theorem value_open {x : Header} (hopen : x.closed = false) (hstr : x.value.str = [])
    (hx : mem x.value.off = '\n'.toUInt8) (hv : v x.value.off = strtolAt mem x.value.off) :
    numberOf v (some x) = strtolAt mem x.value.off ∧
      connTypeOf x.value.str = strToCt mem x.value.off := by
  refine ⟨(if_neg (by rw [hopen]; exact Bool.false_ne_true)).trans hv, ?_⟩
  have hclose : strcmpEq mem x.value.off HttpConnType.close.str = false :=
    strcmpEq_of_ne (by rw [hx]; decide)
  have hkeep : strcmpEq mem x.value.off HttpConnType.keepAlive.str = false :=
    strcmpEq_of_ne (by rw [hx]; decide)
  rw [hstr, strToCt, hclose, hkeep]
  rfl

omit h hlive hw hM hfuel hne in
/-- What is read of the value of a line, once the zero in front of the end of the line is
stored. -/
theorem line_value {value : Token} {p' : Parser Unit} (n : List UInt8)
    (hwindow : Window mem rb.size p (value.str ++ value.delim :: rest))
    (hbehind : Window mem rb.size p' rest) (hdelim : value.delim = '\n'.toUInt8)
    (hspace : rb.size < addressSpace) (hpos : 0 < p.total)
    (hv : value.str = [] → v p.total = strtolAt (mem.write (p'.total - 2) [0]) p.total) :
    let x : Header := ⟨n, ⟨p.total, value.str.dropLast⟩, value.str ≠ []⟩
    (numberOf v (some x) = strtolAt (mem.write (p'.total - 2) [0]) p.total ∧
      connTypeOf x.value.str = strToCt (mem.write (p'.total - 2) [0]) p.total) ∧
        (x.closed = true → HoldsAt (mem.write (p'.total - 2) [0]) x.value.off x.value.str ∧
          x.value.off + x.value.str.length < p'.total) := by
  intro x
  have htotal := hwindow.total
  rw [List.length_append, List.length_cons] at htotal
  by_cases hstr : value.str = []
  · have hopen : x.closed = false := decide_eq_false (not_not.mpr hstr)
    refine ⟨value_open hopen (by simp only [x, hstr, List.dropLast_nil]) ?_ (hv hstr), ?_⟩
    · have hlf : mem p.total = '\n'.toUInt8 := by
        rw [hstr, hdelim] at hwindow
        exact List.head_eq_of_cons_eq (hwindow.read_prefix (s := ['\n'.toUInt8]))
      have hbefore := hwindow.total_eq hbehind (k := 1) (by rw [hstr]; exact Nat.add_comm ..)
      have hge : p'.total - 2 + [(0 : UInt8)].length ≤ p.total := by
        rw [List.length_singleton]
        omega
      exact (Mem.write_of_ge mem hge).trans hlf
    · intro hclosed
      rw [hopen] at hclosed
      cases hclosed
  · have hclosed : x.closed = true := decide_eq_true hstr
    obtain ⟨hend, hzero, hread⟩ := hwindow.holds_line hbehind hstr
    have hx : HoldsAt (mem.write (p'.total - 2) [0]) x.value.off x.value.str := by
      rw [hzero]
      exact holdsAt_store hread
    refine ⟨value_closed hclosed hx ?_, fun _ => ⟨hx, ?_⟩⟩
    · show value.str.dropLast.length < addressSpace
      rw [List.length_dropLast]
      omega
    · show p.total + value.str.dropLast.length < p'.total
      rw [hend, List.length_dropLast]
      omega

omit hfuel hne in
/-- The two zeros of a header line, of which `name` and `value` are the tokens. -/
theorem Rel.headerGoes (hv : ∀ off, r.pos ≤ off → v off = strtolAt M off)
    (hspace : rb.size < addressSpace) {name value : Token} {l₁ l₂ : List UInt8}
    (hstep : r.step l = some ({ r with
      headers := r.header name value :: r.headers
      pos := r.pos + name.width + value.width }, l₂))
    (hname : token isWsInLine reqIdent l = some (name, l₁))
    (hvalue : token isWsInLine (isNot '\n'.toUInt8) l₁ = some (value, l₂))
    {p₁ p₂ p₃ p₄ : Parser Unit} (hw₁ : Window mem rb.size p₁ (l.dropWhile isWsInLine))
    (hw₂ : Window mem rb.size p₂ ((l.dropWhile isWsInLine).dropWhile reqIdent))
    (hw₃ : Window mem rb.size p₃ (l₁.dropWhile isWsInLine)) (hw₄ : Window mem rb.size p₄ l₂) :
    Round v M rb r l (some ({ rb with
      req := httpReqSetParam ((p₄.store p₂.total).store (p₄.total - 2)).mem rb.req p₁.total p₃.total
      pos := p₄.total }, (p₄.store p₂.total).store (p₄.total - 2))) := by
  obtain ⟨h₁, h₂, hw₂', hheld⟩ := h.atToken hlive hw hname hw₁ hw₂
  have hl₁ := token_length hname
  have hl₂ := token_length hvalue
  obtain ⟨hlen, hstr, -⟩ := token_eq_some hvalue
  -- Where the places of the line are.
  have hat₁ : p₂.total = r.pos + name.blanks + name.str.length := by
    rw [h₂, Reading.text_off]
  have hat₃ : p₃.total = r.pos + name.width + value.blanks := by
    have htotal := hw.total_eq hw₃ (k := name.width + value.blanks) (by omega)
    rw [htotal, h.total_eq hlive hw, Nat.add_assoc]
  have hat₄ : p₄.total = r.pos + name.width + value.width := by
    have htotal := hw.total_eq hw₄ (k := name.width + value.width) (by omega)
    rw [htotal, h.total_eq hlive hw, Nat.add_assoc]
  have hwidth : p₄.total = p₃.total + value.str.length + 1 := by
    have hvalue : value.width = value.blanks + value.str.length + 1 := rfl
    omega
  have hle : p₂.total ≤ p₄.total - 2 ∧ p₂.total < p₃.total := by
    have hname : name.width = name.blanks + name.str.length + 1 := rfl
    omega
  have hw₄' := hw₄.store (show p₂.total < p₄.total by omega)
  have hw' := hw₄'.store (show p₄.total - 2 < p₄.total by omega)
  have hheld' : HoldsAt ((mem.write p₂.total [0]).write (p₄.total - 2) [0]) p₁.total name.str := by
    rw [h₁]
    exact hheld.store (by rw [← h₂]; exact hle.1)
  -- What is read of the value.
  have hlf : value.delim = '\n'.toUInt8 := by
    simpa [isNot] using (token_kinds hvalue).2
  have hopen : value.str = [] →
      v p₃.total = strtolAt ((mem.write p₂.total [0]).write (p₄.total - 2) [0]) p₃.total := by
    intro hempty
    have hlt : p₄.total - 2 < p₃.total := by
      rw [hwidth, hempty, List.length_nil]
      omega
    have hagree := (hM.store (show r.pos ≤ p₃.total by omega) hle.2).store (Nat.le_refl _) hlt
    rw [hv _ (by omega), strtolAt, strtolAt, Mem.read_congr fun i hi _ => (hagree i hi).symm]
  have hw₃' := hw₃.store hle.2
  rw [hstr] at hw₃'
  obtain ⟨⟨hnumber, hconn⟩, htext⟩ := line_value name.str hw₃' hw₄' hlf hspace
    (Nat.zero_lt_of_lt hle.2) hopen
  have hheader : r.header name value =
      ⟨name.str, ⟨p₃.total, value.str.dropLast⟩, value.str ≠ []⟩ := by
    rw [hat₃]
    rfl
  rw [hheader] at hstep
  have hadd := Reading.req_addHeader (r := r) hnumber hconn (r.pos + name.width + value.width)
  have hpos : r.pos ≤ r.pos + name.width + value.width := by omega
  have hbefore : r.pos ≤ p₂.total ∧ r.pos ≤ p₄.total - 2 := by omega
  refine .goes hstep hpos rfl rfl hw'.mem_eq (.of_window hw' hat₄ h.state ?_ (fun x hx => ?_)
    (h.parsing hlive) rfl h.params (fun x hx => ?_)) (fun _ => ⟨?_, hw'⟩) ?_
  · refine Eq.trans ?_ hadd.symm
    rw [hw'.mem_eq, httpReqSetParam_eq hheld' (token_str_ne_zero hname), h.req]
    rfl
  · have hold {y : Text} (hy : y ∈ r.texts) :
        HoldsAt ((mem.write p₂.total [0]).write (p₄.total - 2) [0]) y.off y.str ∧
          y.off + y.str.length < r.pos + name.width + value.width := by
      obtain ⟨hheld, hlt⟩ := h.texts y hy
      exact ⟨(hheld.store (by omega)).store (by omega), by omega⟩
    rcases Reading.mem_texts.mp hx with huri | hver | hparam | ⟨y, hy, hclosed, rfl⟩
    · exact hold (Reading.mem_texts.mpr (.inl huri))
    · exact hold (Reading.mem_texts.mpr (.inr (.inl hver)))
    · exact hold (Reading.mem_texts.mpr (.inr (.inr (.inl hparam))))
    · rcases List.mem_cons.mp hy with rfl | hy
      · obtain ⟨hheld, hlt⟩ := htext hclosed
        exact ⟨hheld, hlt.trans_eq hat₄⟩
      · exact hold (Reading.mem_texts.mpr (.inr (.inr (.inr ⟨y, hy, hclosed, rfl⟩))))
  · rcases List.mem_cons.mp hx with rfl | hx
    · exact show p₃.total < r.pos + name.width + value.width by omega
    · exact Nat.lt_of_lt_of_le (h.headers x hx) hpos
  · rw [hl₁, hl₂, Token.width]
    omega
  · have hagree : AgreeFrom p₄.total (mem.write p₂.total [0]) M :=
      hM.store (by omega) (by omega)
    exact hat₄ ▸ hagree.store (Nat.le_refl _) (show p₄.total - 2 < p₄.total by omega)

omit hlive hw hfuel hne in
/-- The round that ends the request. -/
theorem Rel.ends (k : ReqbState) (hk : k ≠ .unfinished) {p' : Parser Unit}
    (hstep : r.step l = some ({ r with state := k }, rest)) (hp' : p'.mem = mem) {n : Nat} :
    Round v M rb r l (some ({ rb with state := k, parsingState := n }, p')) :=
  .goes hstep (Nat.le_refl _) rfl rfl hp'
    ⟨rfl, h.req, h.texts, fun hlive => absurd hlive hk, h.pos, fun hlive => absurd hlive hk,
      fun hlive => absurd hlive hk, h.params, h.headers⟩ (fun hlive => absurd hlive hk) hM

theorem Rel.headerRound (hv : ∀ off, r.pos ≤ off → v off = strtolAt M off)
    (hspace : rb.size < addressSpace) (hparsing : r.parsing = 5) :
    Round v M rb r l (pushHeader fuel rb p) := by
  have hstep : r.step l = r.readHeader l := by
    rw [Reading.step_of_live hlive hne, Reading.read, hparsing]
    rfl
  obtain ⟨p₀, b₀, hp₀, hw₀⟩ := hw.skipWsInLine hfuel
  simp only [pushHeader, hp₀, Option.bind_eq_bind, Option.bind_some]
  rw [Reading.readHeader] at hstep
  have hagain : (l.dropWhile isWsInLine).dropWhile isWsInLine = l.dropWhile isWsInLine :=
    List.dropWhile_idempotent _ l
  cases hdrop : l.dropWhile isWsInLine with
  | nil =>
      rw [hdrop] at hw₀ hstep hagain
      have hfuel₀ : ([] : List UInt8).length < fuel := Nat.zero_lt_of_lt hfuel
      obtain ⟨p₁, b₁, hp₁, hw₁⟩ := hw₀.skipWsInLine hfuel₀
      obtain ⟨p₂, b₂, hp₂, hw₂⟩ := hw₁.skip hfuel₀ reqIdent
      have hchar (c : UInt8) : parserSkipChar reqSource c p₀ = (p₀, false) :=
        hw₀.skipChar_of_ne (by rintro a ⟨⟩)
      simp only [hchar, hp₁, hp₂, hw₂.eof, Option.bind_some, Bool.false_eq_true,
        if_false, List.dropWhile_nil, List.isEmpty_nil, if_true]
      exact .waits hstep hw₂ h hM
  | cons c rest =>
      rw [hdrop] at hw₀ hstep
      by_cases hcr : c = '\r'.toUInt8
      · obtain ⟨p₁, hp₁, hw₁⟩ := (hcr ▸ hw₀).skipChar_eq
        simp only [hp₁, if_true]
        exact h.ends hM .finished (by decide) (hstep.trans (if_pos (.inl hcr))) hw₁.mem_eq
      rw [hw₀.skipChar_of_ne (by rintro a ⟨⟩; exact hcr)]
      by_cases hlf : c = '\n'.toUInt8
      · obtain ⟨p₁, hp₁, hw₁⟩ := (hlf ▸ hw₀).skipChar_eq
        simp only [hp₁, Bool.false_eq_true, if_false, if_true]
        exact h.ends hM .finished (by decide) (hstep.trans (if_pos (.inr hlf))) hw₁.mem_eq
      simp only [hw₀.skipChar_of_ne (show ∀ a ∈ (c :: rest).head?, a ≠ '\n'.toUInt8 by
        rintro a ⟨⟩; exact hlf), Bool.false_eq_true, if_false]
      replace hstep := hstep.trans (if_neg (not_or.mpr ⟨hcr, hlf⟩))
      rw [← hdrop] at hw₀
      obtain ⟨p₁, b₁, hp₁, hw₁⟩ := hw₀.skipWsInLine (lt_of_dropWhile hfuel)
      rw [hagain] at hw₁
      obtain ⟨p₂, b₂, hp₂, hw₂⟩ := hw₁.skip (lt_of_dropWhile hfuel) reqIdent
      simp only [hp₁, hp₂, Option.bind_some]
      cases hname : token isWsInLine reqIdent l with
      | none =>
          rw [token_eq_none.mp hname] at hw₂
          simp only [hw₂.eof, List.isEmpty_nil, if_true]
          exact .waits (by rw [hstep, hname]; rfl) hw₂ h hM
      | some x =>
          obtain ⟨name, l₁⟩ := x
          obtain ⟨-, -, hw₂', -⟩ := h.atToken hlive hw hname hw₁ hw₂
          simp only [hw₂'.eof, hw₂'.curr_eq, List.isEmpty_cons, Bool.false_eq_true, if_false,
            List.headD_cons]
          rw [hname, Option.bind_some] at hstep
          by_cases hcolon : name.delim = ':'.toUInt8
          · simp only [hcolon, ne_eq, not_true, if_false] at hstep ⊢
            have hfuel₁ : l₁.length < fuel := by
              have hlen := token_length hname
              omega
            obtain ⟨p₃, b₃, hp₃, hw₃⟩ := hw₂'.skipOne.skipWsInLine hfuel₁
            rw [hp₃, Option.bind_some]
            rw [Reading.readHeaderValue] at hstep
            cases hvalue : token isWsInLine (isNot '\n'.toUInt8) l₁ with
            | none =>
                obtain ⟨p₄, hp₄, hw₄⟩ :=
                  hw₃.skipLine_none (lt_of_dropWhile hfuel₁) (token_eq_none.mp hvalue)
                simp only [hp₄, Option.bind_some, Bool.not_false, if_true]
                exact .waits (by rw [hstep, hvalue]; rfl) hw₄ h hM
            | some x =>
                obtain ⟨value, l₂⟩ := x
                obtain ⟨p₄, hp₄, hw₄⟩ :=
                  hw₃.skipLine_some (lt_of_dropWhile hfuel₁) (token_eq_some hvalue).2.2
                simp only [hp₄, Option.bind_some, Bool.not_true, Bool.false_eq_true, if_false]
                rw [hvalue] at hstep
                exact h.headerGoes hlive hw hM hv hspace hstep hname hvalue hw₁ hw₂ hw₃ hw₄
          · simp only [hcolon, ne_eq, not_false_eq_true, if_true] at hstep ⊢
            exact .fails hstep (by decide) hw₂' h hM

/-- A round is a step of the reader. -/
theorem Rel.round (hv : ∀ off, r.pos ≤ off → v off = strtolAt M off)
    (hspace : rb.size < addressSpace) : Round v M rb r l (pushRound fuel rb p) := by
  have hstate := h.parsing hlive
  unfold pushRound
  split
  next heq => exact h.methodRound hlive hw hM hfuel hne (hstate.symm.trans heq)
  next heq => exact h.uriRound hlive hw hM hfuel hne (hstate.symm.trans heq)
  next heq => exact h.paramRound hlive hw hM hfuel hne (hstate.symm.trans heq)
  next heq => exact h.valueRound hlive hw hM hfuel hne (hstate.symm.trans heq)
  next heq => exact h.versionRound hlive hw hM hfuel hne (hstate.symm.trans heq)
  next heq => exact h.headerRound hlive hw hM hfuel hne hv hspace (hstate.symm.trans heq)
  next h₀ h₁ h₂ h₃ h₄ h₅ =>
    have hstep : r.step l = some (r.fail, l.tail) := by
      rw [Reading.step_of_live hlive hne, Reading.read, ← hstate]
      split <;> first | rfl | contradiction
    exact h.ends hM .syntError (by decide) hstep hw.mem_eq

omit h hlive hw hM hfuel hne in
theorem step_of_not_live (hend : r.state ≠ .unfinished) : r.step l = none := if_pos (.inl hend)

omit h hlive hw hM hfuel hne in
theorem step_nil : r.step [] = none := if_pos (.inr rfl)

omit h hlive hw hM hfuel hne in
/-- Behind a step, all steps from there on. -/
theorem reads_of_step {x y : Reading × List UInt8} (hstep : r.step l = some x)
    (hreads : requestReader.Reads x y) : requestReader.Reads (r, l) y :=
  ⟨.head hstep hreads.1, hreads.2⟩

omit h hlive hw hM hfuel hne in
/-- Nothing to come: the loop ends. -/
theorem Window.loop_nil (hw : Window mem rb.size p []) (rounds : Nat) :
    pushLoop fuel (rounds + 1) rb p = some (mem, rb) := by
  simp only [pushLoop, hw.eof, List.isEmpty_nil, if_true, hw.mem_eq]

omit h hlive hw hM hfuel hne in
/-- A round that leaves the request unfinished. -/
theorem Window.loop_goes (hw : Window mem rb.size p l) (hne : l ≠ []) {rb' : HttpReqb}
    {p' : Parser Unit} (hround : pushRound fuel rb p = some (rb', p'))
    (hlive : rb'.state = .unfinished) (rounds : Nat) :
    pushLoop fuel (rounds + 1) rb p = pushLoop fuel rounds rb' p' := by
  simp only [pushLoop, hw.eof, List.isEmpty_eq_false_iff.mpr hne, Bool.false_eq_true, if_false,
    hround, Option.bind_some, hlive, if_true]

omit h hlive hw hM hfuel hne in
/-- A round that sets a state. -/
theorem Window.loop_ends (hw : Window mem rb.size p l) (hne : l ≠ []) {rb' : HttpReqb}
    {p' : Parser Unit} (hround : pushRound fuel rb p = some (rb', p'))
    (hend : rb'.state ≠ .unfinished) (rounds : Nat) :
    pushLoop fuel (rounds + 1) rb p = some (p'.mem, rb') := by
  simp only [pushLoop, hw.eof, List.isEmpty_eq_false_iff.mpr hne, Bool.false_eq_true, if_false,
    hround, Option.bind_some, hend]

omit hne in
/-- The loop reads what the reader reads. -/
theorem Rel.loop {rounds : Nat} (hrounds : l.length + 1 < rounds)
    (hv : ∀ off, r.pos ≤ off → v off = strtolAt M off) (hspace : rb.size < addressSpace) :
    ∃ mem' rb' r' l', pushLoop fuel rounds rb p = some (mem', rb') ∧
      requestReader.Reads (r, l) (r', l') ∧ Rel v mem' rb' r' l' ∧ rb'.size = rb.size ∧
        rb'.bsize = rb.bsize ∧ r.pos ≤ r'.pos ∧ AgreeFrom r'.pos mem' M := by
  induction rounds generalizing mem rb p r l with
  | zero => cases hrounds
  | succ rounds ih =>
      by_cases hnil : l = []
      · subst hnil
        exact ⟨mem, rb, r, [], hw.loop_nil rounds, ⟨.refl, step_nil⟩, h, rfl, rfl,
          Nat.le_refl _, hM⟩
      obtain ⟨more, rfl⟩ : ∃ more, rounds = more + 1 := Nat.exists_eq_succ_of_ne_zero (by omega)
      have hround := h.round hlive hw hM hfuel hnil hv hspace
      generalize hx : pushRound fuel rb p = x at hround
      cases hround with
      | @waits p' mem' hstep hw' hrel hM' =>
          refine ⟨mem', rb, r, l, ?_, ⟨.refl, hstep⟩, hrel, rfl, rfl, Nat.le_refl _, hM'⟩
          rw [hw.loop_goes hnil hx (h.state.trans hlive)]
          exact hw'.loop_nil more
      | @fails p' mem' k c rest l' hstep hk hw' hrel hM' =>
          -- The next round finds the error.
          obtain ⟨d, rfl⟩ := Nat.exists_eq_add_of_le' hk
          have herror : pushRound fuel { rb with parsingState := d + 10 } p' =
            some ({ rb with state := .syntError, parsingState := d + 10 }, p') := rfl
          have hstop : r.fail.step l' = none := step_of_not_live nofun
          refine ⟨mem', { rb with state := .syntError, parsingState := d + 10 }, r.fail, l', ?_,
            reads_of_step hstep ⟨.refl, hstop⟩, ⟨rfl, hrel.req, hrel.texts, nofun, hrel.pos, nofun,
              nofun, hrel.params, hrel.headers⟩, rfl, rfl, Nat.le_refl _, hM'⟩
          have hw₂ : Window mem' { rb with parsingState := d + 10 }.size p' (c :: rest) := hw'
          have hloop := hw₂.loop_ends (List.cons_ne_nil c rest) herror nofun more
          rw [hw.loop_goes hnil hx (h.state.trans hlive), hloop, hw'.mem_eq]
      | @goes rb₁ p₁ mem₁ r₁ l₁ hstep hpos hsize hbsize hmem hrel hgo hM₁ =>
          by_cases hend : r₁.state = .unfinished
          · obtain ⟨hlt, hw₁⟩ := hgo hend
            rw [← hsize] at hw₁
            obtain ⟨mem', rb', r', l', hrun, hreads, hrel', hsize', hbsize', hpos', hM'⟩ :=
              ih hrel hend hw₁ hM₁ (Nat.lt_trans hlt hfuel) (by omega)
                (fun off hoff => hv off (Nat.le_trans hpos hoff)) (hsize ▸ hspace)
            refine ⟨mem', rb', r', l', ?_, reads_of_step hstep hreads, hrel', hsize'.trans hsize,
              hbsize'.trans hbsize, Nat.le_trans hpos hpos', hM'⟩
            rw [hw.loop_goes hnil hx (hrel.state.trans hend)]
            exact hrun
          · refine ⟨mem₁, rb₁, r₁, l₁, ?_, reads_of_step hstep ⟨.refl, step_of_not_live hend⟩, hrel,
              hsize, hbsize, hpos, hM₁⟩
            rw [hw.loop_ends hnil hx (fun hlive => hend (hrel.state.symm.trans hlive)), hmem]

end Rounds

/-! ## Pushes -/

section Pushes

variable {v w : Nat → Int} {rb : HttpReqb} {r : Reading} {data : List UInt8}

/-- What `strtol` makes of what has no closing zero, when the push begins with `M`: what stands
before `n` was read before. -/
def stale (n : Nat) (M : Mem) (v : Nat → Int) (off : Nat) : Int :=
  if off < n then v off else strtolAt M off

theorem numberOf_congr {x : Option Header}
    (h : ∀ y, x = some y → y.closed = false → v y.value.off = w y.value.off) :
    numberOf v x = numberOf w x := by
  cases x with
  | none => rfl
  | some y =>
      rw [numberOf, numberOf]
      split
      next => rfl
      next hopen => exact h y rfl (Bool.eq_false_iff.mpr hopen)

/-- The request depends on `v` in the last headers of two names only. -/
theorem Reading.req_congr
    (hcontLen : numberOf v (lastOf r.headers .contLen) = numberOf w (lastOf r.headers .contLen))
    (hkeepAlive : numberOf v (lastOf r.headers .keepAlive) =
      numberOf w (lastOf r.headers .keepAlive)) : r.req v = r.req w := by
  rw [Reading.req, Reading.req, hcontLen, hkeepAlive]

/-- Headers that were read keep what was read. -/
theorem Rel.stale (h : Rel v mem rb r l) (M : Mem) : Rel (stale r.pos M v) mem rb r l := by
  have hnumber (f : Field) : numberOf v (lastOf r.headers f) =
      numberOf (Adhoc.stale r.pos M v) (lastOf r.headers f) :=
    numberOf_congr fun y hy _ => (if_pos (h.headers y (List.mem_of_find?_eq_some hy))).symm
  exact { h with req := h.req.trans (Reading.req_congr (hnumber _) (hnumber _)) }

/-- Before the first push. -/
theorem rel_start (v : Nat → Int) (mem : Mem) {bsize : Nat} (hb : bsize < 2147483648) :
    Rel v mem (httpReqbInit bsize hb) .start [] where
  state := rfl
  req := Reading.req_start.symm
  texts := nofun
  parsing := fun _ => rfl
  pos := rfl
  size := fun _ => rfl
  octets := fun _ => rfl
  params := nofun
  headers := nofun

/-- The parser of a push stands where the last push stopped. -/
theorem Rel.window (h : Rel v mem rb r l) (hlive : r.state = .unfinished) (data : List UInt8) :
    Window (mem.write rb.size data) (rb.size + data.length)
      (parserSkipN reqSource rb.pos
        (parserInit (mem.write rb.size data) 0 (rb.size + data.length))).1 (l ++ data) := by
  have hsize := h.size hlive
  have hoctets : (mem.write rb.size data).read r.pos (l ++ data).length = l ++ data := by
    rw [List.length_append, Mem.read_add, hsize, Mem.read_write_self,
      Mem.read_write_disjoint _ (.inl (Nat.le_of_eq hsize)), h.octets hlive]
  have hwindow : Window (mem.write rb.size data) (rb.size + data.length)
      (parserInit (mem.write rb.size data) 0 (rb.size + data.length))
      ((mem.write rb.size data).read 0 r.pos ++ (l ++ data)) := by
    refine ⟨rfl, rfl, Nat.zero_add _, rfl, ?_, ?_⟩
    · rw [List.length_append, List.length_append, Mem.length_read, ← hsize]
      show 0 + _ = _
      omega
    · rw [List.length_append, Mem.length_read]
      show (mem.write rb.size data).read 0 _ = _
      rw [Mem.read_add, Nat.zero_add, hoctets]
  have hskip := hwindow.skipN
  rw [Mem.length_read, ← h.pos] at hskip
  exact hskip

/-- What is pushed is to come behind what was not read yet. -/
theorem Rel.received (h : Rel v mem rb r l) (hlive : r.state = .unfinished) (data : List UInt8) :
    Rel (Adhoc.stale r.pos (mem.write rb.size data) v) (mem.write rb.size data)
      { rb with size := rb.size + data.length } r (l ++ data) := by
  have hsize := h.size hlive
  have hrel := h.stale (mem.write rb.size data)
  refine { hrel with texts := fun t ht => ?_, size := fun _ => ?_, octets := fun _ => ?_ }
  · obtain ⟨hheld, hlt⟩ := h.texts t ht
    exact ⟨hheld.write (by omega), hlt⟩
  · rw [List.length_append, ← Nat.add_assoc, hsize]
  · rw [List.length_append, Mem.read_add, hsize, Mem.read_write_self,
      Mem.read_write_disjoint _ (.inl (Nat.le_of_eq hsize)), h.octets hlive]

/-- A push reads what the reader reads. -/
theorem Rel.push (h : Rel v mem rb r l)
    (hfit : rb.size + data.length < rb.bsize) :
    ∃ mem' rb' r' l', httpReqbPush mem rb data = some (mem', rb') ∧
      requestReader.Reads (r, l ++ data) (r', l') ∧
        Rel (Adhoc.stale r.pos (mem.write rb.size data) v) mem' rb' r' l' ∧
          rb'.size = rb.size + (if r.state = .unfinished then data.length else 0) ∧
            rb'.bsize = rb.bsize := by
  rw [httpReqbPush, if_neg (Nat.not_le.mpr hfit)]
  by_cases hlive : r.state = .unfinished
  · rw [if_neg (not_not.mpr (h.state.trans hlive))]
    have hwindow := h.window hlive data
    have hspace : rb.size + data.length < addressSpace :=
      Nat.lt_trans (Nat.lt_trans hfit rb.bsize_lt) (by decide)
    have hlen : (l ++ data).length ≤ rb.size + data.length := by
      rw [← hwindow.total]
      exact Nat.le_add_left ..
    have hfuel : (l ++ data).length < 2 * (rb.size + data.length) + 2 := by omega
    have hrounds : (l ++ data).length + 1 < rb.size + data.length + 3 := by omega
    obtain ⟨mem', rb', r', l', hrun, hreads, hrel', hsize', hbsize', -, -⟩ :=
      (h.received hlive data).loop hlive hwindow (fun _ _ => rfl) hfuel hrounds
        (fun off hoff => if_neg (Nat.not_lt.mpr hoff)) hspace
    exact ⟨mem', rb', r', l', hrun, hreads, hrel', hsize'.trans (by rw [if_pos hlive]), hbsize'⟩
  · rw [if_pos (fun hb => hlive (h.state.symm.trans hb))]
    have hrel := h.stale (mem.write rb.size data)
    exact ⟨mem, rb, r, l ++ data, rfl, ⟨.refl, step_of_not_live hlive⟩,
      { hrel with size := fun hb => absurd hb hlive, octets := fun hb => absurd hb hlive },
      by rw [if_neg hlive, Nat.add_zero], rfl⟩

/-- One push after the other reads what the reader reads. -/
theorem Rel.pushAll {pieces : List (List UInt8)} (h : Rel v mem rb r l) (hstop : r.step l = none)
    (hfit : rb.size + pieces.flatten.length < rb.bsize) :
    ∃ w mem' rb' r' l', Adhoc.pushAll mem rb pieces = some (mem', rb') ∧
      requestReader.Reads (r, l ++ pieces.flatten) (r', l') ∧ Rel w mem' rb' r' l' := by
  induction pieces generalizing v mem rb r l with
  | nil =>
      rw [List.flatten_nil, List.append_nil]
      exact ⟨v, mem, rb, r, l, rfl, ⟨.refl, hstop⟩, h⟩
  | cons data pieces ih =>
      rw [List.flatten_cons, List.length_append] at hfit
      obtain ⟨mem₁, rb₁, r₁, l₁, hrun, hreads, hrel, hsize, hbsize⟩ :=
        h.push (show rb.size + data.length < rb.bsize by omega)
      have hle : rb₁.size ≤ rb.size + data.length := by
        rw [hsize]
        split <;> omega
      obtain ⟨w, mem', rb', r', l', hrest, hreads', hrel'⟩ := ih hrel hreads.2 (by omega)
      refine ⟨w, mem', rb', r', l', ?_, ?_, hrel'⟩
      · rw [Adhoc.pushAll, hrun]
        exact hrest
      · rw [List.flatten_cons, ← List.append_assoc]
        exact hreads.append hreads'

/-- The pushes of a new buffer read what the reader reads from the start. -/
theorem pushAll_init (mem : Mem) {bsize : Nat} (hb : bsize < 2147483648)
    {pieces : List (List UInt8)} (hfit : pieces.flatten.length < bsize) :
    ∃ w mem' rb' r' l', pushAll mem (httpReqbInit bsize hb) pieces = some (mem', rb') ∧
      requestReader.Reads (.start, pieces.flatten) (r', l') ∧ Rel w mem' rb' r' l' :=
  (rel_start (fun _ => 0) mem hb).pushAll step_nil ((Nat.zero_add _).trans_lt hfit)

end Pushes

end Adhoc
