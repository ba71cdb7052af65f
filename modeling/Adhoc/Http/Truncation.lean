import Adhoc.Http.Quoting

/-!
# Tokens that do not fit

Five operations of the parser copy what they read into a `dest`.  Two of their loops store
below `dest_size - 1` and three below `dest_size`, one stores two characters for one, and they
share the last lines, which put the zero.  Loops over two destinations go side by side
(`Reader.run_rel`): what has been read so far is the same characters, and each destination has
the front of them that it has room for (`Dest.puts_eq_take`).  So a destination that is too
small makes no difference but to what is stored (`Reader.run_token`).
-/

namespace Adhoc

open ByteMem Scanner

/-! ## Destinations -/

section Puts

variable {bound : Nat} (d : Dest) (cs : List UInt8)

/-- What there is no room for is counted. -/
theorem Dest.puts_of_full (h : bound ≤ d.res) :
    d.puts bound cs = { d with res := d.res + cs.length } := by
  induction cs generalizing d with
  | nil => rfl
  | cons c cs ih =>
      have hput : d.put bound c = { d with res := d.res + 1 } := by
        rw [put, if_neg (Nat.not_lt.mpr h)]
      rw [puts_cons, hput, ih _ (Nat.le_succ_of_le h), List.length_cons]
      simp only [Dest.mk.injEq, true_and]
      omega

/-- A destination has the front of the characters put into it. -/
theorem Dest.puts_eq_take (mem : Mem) (dest bound : Nat) :
    Dest.puts ⟨mem, dest, 0⟩ bound cs = ⟨mem.write dest (cs.take bound), dest, cs.length⟩ := by
  have hfront : Dest.puts ⟨mem, dest, 0⟩ bound (cs.take bound) =
      ⟨mem.write dest (cs.take bound), dest, (cs.take bound).length⟩ := by
    rw [puts_eq _ _ _ (by rw [Nat.zero_add, List.length_take]; exact Nat.min_le_left ..)]
    simp only [Nat.add_zero, Nat.zero_add]
  have hrest : bound ≤ (cs.take bound).length ∨ cs.drop bound = [] := by
    rw [List.length_take, List.drop_eq_nil_iff]
    omega
  have hlen : (cs.take bound).length + (cs.drop bound).length = cs.length := by
    rw [← List.length_append, List.take_append_drop]
  rw [← List.take_append_drop bound cs, puts_append, List.take_append_drop, hfront]
  rcases hrest with hfull | hnil
  · rw [puts_of_full _ _ hfull, hlen]
  · rw [hnil, List.length_nil, Nat.add_zero] at hlen
    rw [hnil, hlen]
    rfl

/-- The zero is behind the front that has room for it. -/
theorem Dest.puts_finish_take (mem : Mem) (dest : Nat) {bound destSize : Nat} (hpos : 0 < destSize)
    (hbound : destSize - 1 ≤ bound) (hbound' : bound ≤ destSize) :
    (Dest.puts ⟨mem, dest, 0⟩ bound cs).finish destSize =
      ⟨mem.write dest (cs.take (destSize - 1) ++ [0]), dest, cs.length⟩ := by
  rw [puts_eq_take, finish]
  simp only [Dest.mk.injEq, and_true]
  by_cases hlong : destSize ≤ cs.length
  · have hlen : (cs.take (destSize - 1)).length = destSize - 1 := by
      rw [List.length_take]
      omega
    rw [if_pos hlong]
    rcases Nat.eq_or_lt_of_le hbound with rfl | hlt
    · have hwrite := mem.write_write_append dest (cs.take (destSize - 1)) [0]
      rwa [hlen] at hwrite
    · -- The last character that was stored makes way for the zero.
      obtain rfl : bound = destSize - 1 + 1 := by omega
      have hlast : destSize - 1 < cs.length := by omega
      have hwrite (c : UInt8) := mem.write_write_append dest (cs.take (destSize - 1)) [c]
      simp only [hlen] at hwrite
      rw [List.take_succ_eq_append_getElem hlast, ← hwrite, Mem.write_write_over, hwrite]
      exact Nat.le_refl 1
  · have hall (n : Nat) (hn : destSize - 1 ≤ n) : cs.take n = cs :=
      List.take_of_length_le (by omega)
    rw [if_neg hlong, hall bound hbound, hall (destSize - 1) (Nat.le_refl _),
      Mem.write_write_append]

end Puts

/-! ## Two destinations -/

/-- Two destinations into which the same characters were put. -/
def Alike (d₀ d₀' : Dest) (bound bound' : Nat) (d d' : Dest) : Prop :=
  ∃ cs, d = d₀.puts bound cs ∧ d' = d₀'.puts bound' cs

/-- The same with the other locals of `parser_read_value`. -/
structure Value.Alike (d₀ d₀' : Dest) (bound bound' : Nat) (v v' : Value) : Prop where
  dest : Adhoc.Alike d₀ d₀' bound bound' v.dest v'.dest
  state : v'.state = v.state
  last : v'.last = v.last

/-- The same with the other locals of `parser_read_string`. -/
structure Str.Alike (d₀ d₀' : Dest) (bound bound' : Nat) (v v' : Str) : Prop where
  dest : Adhoc.Alike d₀ d₀' bound bound' v.dest v'.dest
  state : v'.state = v.state
  first : v'.first = v.first

section Alike

variable {d₀ d₀' d d' : Dest} {bound bound' : Nat}

theorem alike_start : Alike d₀ d₀' bound bound' d₀ d₀' := ⟨[], rfl, rfl⟩

theorem Value.alike_start (state : Nat) (last : UInt8) :
    Value.Alike d₀ d₀' bound bound' ⟨d₀, state, last⟩ ⟨d₀', state, last⟩ :=
  ⟨Adhoc.alike_start, rfl, rfl⟩

theorem Str.alike_start (state : Nat) (first : UInt8) :
    Str.Alike d₀ d₀' bound bound' ⟨d₀, state, first⟩ ⟨d₀', state, first⟩ :=
  ⟨Adhoc.alike_start, rfl, rfl⟩

theorem Alike.put (h : Alike d₀ d₀' bound bound' d d') (c : UInt8) :
    Alike d₀ d₀' bound bound' (d.put bound c) (d'.put bound' c) := by
  obtain ⟨cs, rfl, rfl⟩ := h
  refine ⟨cs ++ [c], ?_, ?_⟩
  · rw [Dest.puts_append]
    rfl
  · rw [Dest.puts_append]
    rfl

theorem Alike.res_eq (h : Alike d₀ d₀' bound bound' d d') (hres : d₀'.res = d₀.res) :
    d'.res = d.res := by
  obtain ⟨cs, rfl, rfl⟩ := h
  rw [Dest.res_puts, Dest.res_puts, hres]

theorem Alike.ite {c : Prop} [Decidable c] {x y x' y' : Dest}
    (h : Alike d₀ d₀' bound bound' x x') (h' : Alike d₀ d₀' bound bound' y y') :
    Alike d₀ d₀' bound bound' (if c then x else y) (if c then x' else y') := by
  split
  · exact h
  · exact h'

/-- The `switch` over an escaped character puts one character or two. -/
theorem Alike.putEscaped (h : Alike d₀ d₀' bound bound' d d') (c : UInt8) :
    Alike d₀ d₀' bound bound' (putEscaped bound d c) (putEscaped bound' d' c) := by
  unfold Adhoc.putEscaped
  iterate 8 refine .ite (h.put _) ?_
  exact (h.put _).put c

theorem readBody_alike (chatset : UInt8 → Bool) {destSize destSize' : Nat} (c : UInt8)
    (h : Alike d₀ d₀' (destSize - 1) (destSize' - 1) d d') :
    Act.Rel (fun _ => Alike d₀ d₀' (destSize - 1) (destSize' - 1)) c []
      (readBody chatset destSize d c) (readBody chatset destSize' d' c) :=
  .ite (fun _ => .next (h.put c)) fun _ => .stop h

theorem readBefore2Body_alike (c1 c2 : UInt8) (c : UInt8) (h : Alike d₀ d₀' bound bound' d d') :
    Act.Rel (fun _ => Alike d₀ d₀' bound bound') c [] (readBefore2Body bound c1 c2 d c)
      (readBefore2Body bound' c1 c2 d' c) :=
  .ite (fun _ => .stop h) fun _ => .next (h.put c)

section Values

variable {v v' : Value}

theorem Value.Alike.put (h : Value.Alike d₀ d₀' bound bound' v v') (c : UInt8) (state : Nat) :
    Value.Alike d₀ d₀' bound bound' (v.put bound c state) (v'.put bound' c state) :=
  ⟨h.dest.put c, rfl, h.last⟩

theorem readDecimal_alike (hres : d₀'.res = d₀.res) (fmt : UInt32) (c : UInt8)
    (h : Value.Alike d₀ d₀' bound bound' v v') :
    Act.Rel (fun _ => Value.Alike d₀ d₀' bound bound') c [] (readDecimal bound fmt v c)
      (readDecimal bound' fmt v' c) := by
  unfold readDecimal
  rw [h.state, h.last, h.dest.res_eq hres]
  refine .ite (fun _ => .next ⟨h.dest.put c, rfl, rfl⟩) fun _ => ?_
  refine .ite (fun _ => .next (h.put c 2)) fun _ => ?_
  refine .ite (fun _ => .next (h.put c 4)) fun _ => ?_
  split
  next state _ => exact .next (h.put c state)
  next => exact .ite (fun _ => .next (h.put c v.state)) fun _ => .stop h

theorem readValueBody_alike (hres : d₀'.res = d₀.res) (fmt : UInt32) (c : UInt8)
    (h : Value.Alike d₀ d₀' bound bound' v v') :
    Act.Rel (fun _ => Value.Alike d₀ d₀' bound bound') c [] (readValueBody bound fmt v c)
      (readValueBody bound' fmt v' c) := by
  unfold readValueBody
  rw [h.state]
  refine .ite (fun _ => readDecimal_alike hres fmt c h) fun _ => ?_
  refine .ite (fun _ => .ite (fun _ => .next (h.put c 5)) fun _ => .again ⟨h.dest, rfl, h.last⟩)
    fun _ => ?_
  refine .ite (fun _ => .next (h.put c 6)) fun _ => ?_
  exact .ite (fun _ => .next (h.put c 7)) fun _ => .stop h

end Values

theorem readStringBody_alike (fmt : UInt32) (c : UInt8) {v v' : Str}
    (h : Str.Alike d₀ d₀' bound bound' v v') :
    Act.Rel (fun _ => Str.Alike d₀ d₀' bound bound') c [] (readStringBody bound fmt v c)
      (readStringBody bound' fmt v' c) := by
  unfold readStringBody
  rw [h.state, h.first]
  refine .ite (fun _ => .next ⟨h.dest, rfl, rfl⟩) fun _ => ?_
  refine .ite (fun _ => .again ⟨h.dest, rfl, rfl⟩) fun _ => ?_
  refine .ite (fun _ => .last h) fun _ => ?_
  refine .ite (fun _ => .next ⟨h.dest.put c, rfl, rfl⟩) fun _ => ?_
  refine .ite (fun _ => .next ⟨h.dest, rfl, rfl⟩) fun _ => ?_
  refine .ite (fun _ => .next ⟨h.dest.put c, rfl, rfl⟩) fun _ => ?_
  refine .ite (fun _ => .next ⟨h.dest, rfl, rfl⟩) fun _ => ?_
  exact .ite (fun _ => .next ⟨h.dest.putEscaped c, rfl, rfl⟩) fun _ => .stop h

end Alike

/-! ## Operations with a destination -/

/-- An operation that copies what it reads, without its destination. -/
inductive TokenReader where
  | read (chatset : UInt8 → Bool)
  | readBefore2 (c1 c2 : UInt8)
  | readDigits (hex : Bool)
  /-- `last` is what the local of that name holds at first. -/
  | readValue (fmt : UInt32) (last : UInt8)
  | readString (fmt : UInt32)

namespace TokenReader

/-- The operation, into a destination. -/
def run {σ : Type} (src : Source σ UInt8) (fuel : Nat) (mem : Mem) (dest destSize : Nat) (s : σ) :
    TokenReader → Option (σ × Dest)
  | read chatset => parserRead src fuel mem dest destSize chatset s
  | readBefore2 c1 c2 => parserReadBefore2 src fuel mem dest destSize c1 c2 s
  | readDigits hex => parserReadDigits src fuel mem dest destSize hex s
  | readValue fmt last => parserReadValue src fuel mem dest destSize fmt last s
  | readString fmt => parserReadString src fuel mem dest destSize fmt s

/-- What `res` is compared with before a character is stored. -/
def bound (destSize : Nat) : TokenReader → Nat
  | read _ | readDigits _ => destSize - 1
  | readBefore2 _ _ | readValue _ _ | readString _ => destSize

def op (dest destSize : Nat) : TokenReader → Op
  | read chatset => .read chatset dest destSize
  | readBefore2 c1 c2 => .readBefore2 dest destSize c1 c2
  | readDigits hex => .readDigits dest destSize hex
  | readValue fmt _ => .readValue dest destSize fmt
  | readString fmt => .readString dest destSize fmt

variable {σ : Type} {src : Source σ UInt8} {fuel : Nat} {s s' : σ} (r : TokenReader)

/-- Two destinations have the same token. -/
def SameToken (r : TokenReader) (mem mem' : Mem) (dest dest' destSize destSize' : Nat)
    (d d' : Dest) : Prop :=
  ∃ x y, Alike ⟨mem, dest, 0⟩ ⟨mem', dest', 0⟩ (r.bound destSize) (r.bound destSize') x y ∧
    d = x.finish destSize ∧ d' = y.finish destSize'

/-- Two calls of an operation leave the same to come, and have the same token. -/
theorem run_rel (mem mem' : Mem) (dest dest' destSize destSize' : Nat) :
    Alongside (r.SameToken mem mem' dest dest' destSize destSize')
      (r.run src fuel mem dest destSize s) (r.run src fuel mem' dest' destSize' s) := by
  cases r with
  | read chatset =>
      exact (scan_rel (fun c _ _ h => readBody_alike chatset c h) alike_start fuel s).map
        fun _ _ h => ⟨_, _, h, rfl, rfl⟩
  | readBefore2 c1 c2 =>
      exact (scan_rel (fun c _ _ h => readBefore2Body_alike c1 c2 c h) alike_start fuel s).map
        fun _ _ h => ⟨_, _, h, rfl, rfl⟩
  | readDigits hex =>
      exact (scan_rel (fun c _ _ h => readBody_alike _ c h) alike_start fuel s).map
        fun _ _ h => ⟨_, _, h, rfl, rfl⟩
  | readValue fmt last =>
      exact (scan_rel (fun c _ _ h => readValueBody_alike (by rfl) fmt c h)
        (Value.alike_start 0 last)
        fuel s).map fun _ _ h => ⟨_, _, h.dest, rfl, rfl⟩
  | readString fmt =>
      exact (scan_rel (fun c _ _ h => readStringBody_alike fmt c h) (Str.alike_start 0 0)
        fuel s).map fun _ _ h => ⟨_, _, h.dest, rfl, rfl⟩

theorem bound_le (destSize : Nat) :
    destSize - 1 ≤ r.bound destSize ∧ r.bound destSize ≤ destSize := by
  cases r with
  | read | readDigits => exact ⟨Nat.le_refl _, Nat.sub_le ..⟩
  | readBefore2 | readValue | readString => exact ⟨Nat.sub_le .., Nat.le_refl _⟩

/-- What a call with a destination leaves there, for a token. -/
def copied (mem : Mem) (dest destSize : Nat) (token : List UInt8) : Dest :=
  ⟨mem.write dest (token.take (destSize - 1) ++ [0]), dest, token.length⟩

theorem SameToken.copied {mem mem' : Mem} {dest dest' destSize destSize' : Nat} {d d' : Dest}
    (h : r.SameToken mem mem' dest dest' destSize destSize' d d') (hsize : 0 < destSize)
    (hsize' : 0 < destSize') : ∃ token, d = TokenReader.copied mem dest destSize token ∧
      d' = TokenReader.copied mem' dest' destSize' token := by
  obtain ⟨x, y, ⟨token, rfl, rfl⟩, rfl, rfl⟩ := h
  obtain ⟨hle, hle'⟩ := r.bound_le destSize
  obtain ⟨hge, hge'⟩ := r.bound_le destSize'
  exact ⟨token, Dest.puts_finish_take token mem dest hsize hle hle',
    Dest.puts_finish_take token mem' dest' hsize' hge hge'⟩

/-- With room for a token, it can be told from what is stored. -/
theorem copied_injective {mem : Mem} {dest destSize : Nat} {token token' : List UInt8}
    (hfits : token.length < destSize)
    (h : copied mem dest destSize token = copied mem dest destSize token') : token = token' := by
  obtain ⟨hmem, -, hlen⟩ := Dest.mk.inj h
  have hall (t : List UInt8) (ht : t.length = token.length) : t.take (destSize - 1) = t :=
    List.take_of_length_le (by omega)
  rw [hall token rfl, hall token' hlen.symm] at hmem
  rw [← mem.read_write_append dest token [0], hmem, hlen, Mem.read_write_append]

/-- A call that returns reads a token, and another call reads it too. -/
theorem run_other {mem : Mem} {dest destSize : Nat} {d : Dest} (hsize : 0 < destSize)
    (hrun : r.run src fuel mem dest destSize s = some (s', d)) (mem' : Mem) (dest' : Nat)
    {destSize' : Nat} (hsize' : 0 < destSize') :
    ∃ token, d = copied mem dest destSize token ∧
      r.run src fuel mem' dest' destSize' s = some (s', copied mem' dest' destSize' token) := by
  have hrel : Alongside (r.SameToken mem mem' dest dest' destSize destSize')
      (r.run src fuel mem dest destSize s) (r.run src fuel mem' dest' destSize' s) := r.run_rel ..
  rw [hrun] at hrel
  generalize r.run src fuel mem' dest' destSize' s = x at *
  cases hrel with
  | some h =>
      obtain ⟨token, hd, hd'⟩ := h.2.copied r hsize hsize'
      exact ⟨token, hd, congrArg some (Prod.ext h.1.symm hd')⟩

/-- Every call of an operation reads the same token. -/
theorem run_token {mem₀ : Mem} {dest₀ destSize₀ : Nat} {d₀ : Dest} (hsize₀ : 0 < destSize₀)
    (hrun : r.run src fuel mem₀ dest₀ destSize₀ s = some (s', d₀)) :
    ∃ token, ∀ mem dest destSize, 0 < destSize →
      r.run src fuel mem dest destSize s = some (s', copied mem dest destSize token) := by
  obtain ⟨token₀, rfl, -⟩ := r.run_other hsize₀ hrun mem₀ dest₀ hsize₀
  -- A call with room for all of it says what the token is.
  obtain ⟨token, heq, hroom⟩ := r.run_other hsize₀ hrun mem₀ dest₀ (Nat.succ_pos token₀.length)
  have hlen : token₀.length = token.length := congrArg Dest.res heq
  refine ⟨token, fun mem dest destSize hsize => ?_⟩
  obtain ⟨token', hsame, hrun'⟩ := r.run_other (Nat.succ_pos _) hroom mem dest hsize
  rwa [copied_injective (hlen ▸ Nat.lt_succ_self _) hsame]

/-- What the local `last` of `parser_read_value` holds at first. -/
def last : TokenReader → UInt8
  | readValue _ last => last
  | _ => 0

theorem run_op (mem : Mem) (dest destSize : Nat) :
    (r.op dest destSize).run src fuel r.last mem s =
      (r.run src fuel mem dest destSize s).map (.map id Dest.outcome) := by
  cases r <;> rfl

/-- On a source that shows a list a call returns. -/
theorem run_returns {V : σ → List UInt8 → Prop} {l : List UInt8} (h : Views src V) (hs : V s l)
    (hfuel : 2 * l.length + 1 < fuel) (mem : Mem) (dest destSize : Nat) :
    ∃ s' d, r.run src fuel mem dest destSize s = some (s', d) := by
  obtain ⟨⟨l', out⟩, hl⟩ := Option.isSome_iff_exists.mp
    ((r.op dest destSize).run_list_isSome r.last mem hfuel)
  obtain ⟨s', hs', -⟩ := Op.run_follows h hs fuel (r.op dest destSize) r.last mem l' out hl
  rw [run_op] at hs'
  obtain ⟨⟨s'', d⟩, hd, -⟩ := Option.map_eq_some_iff.mp hs'
  exact ⟨s'', d, hd⟩

/-- A destination `d` of `destSize` octets has a token, or the front of it, and a zero behind. -/
structure Copied (mem : Mem) (dest destSize : Nat) (token : List UInt8) (d : Dest) : Prop where
  res : d.res = token.length
  /-- Nothing is stored outside the destination. -/
  outside : ∀ i, i < dest ∨ dest + destSize ≤ i → d.mem i = mem i
  string : d.mem.read dest (min d.res (destSize - 1)) = token.take (destSize - 1)
  zero : d.mem (dest + min d.res (destSize - 1)) = 0
  /-- A destination that is large enough has the token. -/
  whole : d.res < destSize → d.mem.read dest d.res = token

theorem copied_copied (mem : Mem) (dest : Nat) {destSize : Nat} (hsize : 0 < destSize)
    (token : List UInt8) : Copied mem dest destSize token (copied mem dest destSize token) := by
  have hmin : (token.take (destSize - 1)).length = min token.length (destSize - 1) := by
    rw [List.length_take, Nat.min_comm]
  have hstring : (copied mem dest destSize token).mem.read dest (min token.length (destSize - 1)) =
      token.take (destSize - 1) := by
    rw [← hmin]
    exact mem.read_write_append ..
  have hlen : (token.take (destSize - 1) ++ [0]).length = min token.length (destSize - 1) + 1 := by
    rw [List.length_append, hmin, List.length_singleton]
  refine ⟨rfl, fun i hi => ?_, hstring, ?_, fun hfits => ?_⟩
  · exact Mem.write_of_notMem _ (by rw [hlen]; omega)
  · have hself := mem.read_write_self dest (token.take (destSize - 1) ++ [0])
    rw [hlen, Mem.read_succ] at hself
    exact (List.cons.inj (List.append_inj hself (by rw [Mem.length_read, hmin])).2).1
  · have hle : token.length ≤ destSize - 1 := Nat.le_sub_one_of_lt hfits
    rwa [Nat.min_eq_left hle, List.take_of_length_le hle] at hstring

section Parsers

variable {κ : Type} {readCb : ParserRead κ} {feeds : κ → List UInt8 → Prop}
  {input l : List UInt8} {p : Parser κ}

/-- Into every destination of at least one octet an operation copies as much of one token as there
is room for, and what it returns and leaves to come is the same. -/
theorem run_bounded (hread : Feeds readCb feeds) (h : View feeds input p l)
    (hfuel : 2 * l.length + 1 < fuel) :
    ∃ p' token, ∀ mem dest destSize, 0 < destSize →
      ∃ d, r.run (parserSource readCb) fuel mem dest destSize p = some (p', d) ∧
        Copied mem dest destSize token d := by
  obtain ⟨p', d, hrun⟩ := r.run_returns (views_parserSource input hread) h hfuel Mem.zero 0 1
  obtain ⟨token, htoken⟩ := r.run_token Nat.zero_lt_one hrun
  refine ⟨p', token, fun mem dest destSize hsize => ?_⟩
  exact ⟨_, htoken mem dest destSize hsize, copied_copied mem dest hsize token⟩

/-- `"a\qb"`, of which `parser_read_string` makes four characters. -/
def escapedToken : List UInt8 :=
  ['"'.toUInt8, 'a'.toUInt8, '\\'.toUInt8, 'q'.toUInt8, 'b'.toUInt8, '"'.toUInt8]

theorem run_bounded_escaped :
    ∃ p' token, ∀ mem dest destSize, 0 < destSize →
      ∃ d, (readString fmtQuoted).run (parserSource noRead) 20 mem dest destSize
        (stringParser escapedToken) = some (p', d) ∧ Copied mem dest destSize token d :=
  run_bounded (readString fmtQuoted) feeds_noRead (view_stringParser escapedToken) (by decide)

end Parsers

end TokenReader

end Adhoc
