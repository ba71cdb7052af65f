import Adhoc.Lib.Mem
import Adhoc.Lib.Scanner

/-!
# The character parser

Every operation of the parser is written over three macros: `CHECK_STATE` asks for
the end of input, and refills the buffer of a stream for that, `*p->priv.curr` is
the character to come, and `INC_POS` moves behind it.  They are the three functions
of a source (`parserSource`), and the operations are defined over any source.

A `char` is unsigned here.  Counters are natural numbers: an input has at most
`INT_MAX` characters.  `parser_read_value` compares its local `last` before it sets
it, and what the local holds at first is an argument of the operation.

Loops have a number of rounds, `fuel`, and yield nothing when it does not suffice.
-/

namespace Adhoc

open ByteMem Scanner

/-! ## Where characters come from -/

/-- `parser_t`.  `κ` is what the callback keeps at `user_data`, and the pointers point into
`mem`. -/
structure Parser (κ : Type) where
  mem : Mem
  buff : Option Nat
  buffSize : Nat
  userData : κ
  total : Nat
  line : Nat
  col : Nat
  curr : Nat
  stop : Nat

/-- `parser_init`. -/
def parserInit (mem : Mem) (str len : Nat) : Parser Unit :=
  ⟨mem, none, 0, (), 0, 0, 0, str, str + len⟩

/-- `parser_init_s`. -/
def parserInitS {κ : Type} (mem : Mem) (streamBuff size : Nat) (userData : κ) : Parser κ :=
  ⟨mem, some streamBuff, size, userData, 0, 0, 0, 0, 0⟩

/-- A `parser_read_t`: what it puts into a buffer of the size it is asked for. -/
abbrev ParserRead (κ : Type) : Type := κ → Nat → List UInt8 × κ

/-- The callback of a parser without a stream.  It is not called. -/
def noRead : ParserRead Unit := fun _ _ => ([], ())

section Macros

variable {κ : Type} (readCb : ParserRead κ) (p : Parser κ)

/-- `query_data`, with the parser's buffer. -/
def queryData (buff : Nat) : Bool × Parser κ :=
  let (bs, userData) := readCb p.userData p.buffSize
  (0 < bs.length, { p with
    mem := p.mem.write buff bs
    userData := userData
    curr := buff
    stop := buff + bs.length })

/-- `CHECK_STATE`: whether the input is at its end. -/
def checkState : Bool × Parser κ :=
  if p.curr = p.stop then
    match p.buff with
    | none => (true, p)
    | some buff =>
        let (more, p) := queryData readCb p buff
        (!more, p)
  else (false, p)

/-- `INC_POS`. -/
def incPos : Parser κ :=
  { p with
    total := p.total + 1
    col := if p.mem p.curr = '\n'.toUInt8 then 0 else p.col + 1
    line := if p.mem p.curr = '\n'.toUInt8 then p.line + 1 else p.line
    curr := p.curr + 1 }

/-- A parser as a source of characters. -/
def parserSource : Source (Parser κ) UInt8 where
  check := checkState readCb
  peek p := p.mem p.curr
  inc := incPos

section Query

variable (buff : Nat)

theorem queryData_fst :
    (queryData readCb p buff).1 = decide (0 < (readCb p.userData p.buffSize).1.length) := rfl

theorem queryData_buff : (queryData readCb p buff).2.buff = p.buff := rfl

theorem queryData_curr : (queryData readCb p buff).2.curr = buff := rfl

theorem queryData_stop :
    (queryData readCb p buff).2.stop = buff + (readCb p.userData p.buffSize).1.length := rfl

/-- The window has what was delivered. -/
theorem queryData_window :
    let p' := (queryData readCb p buff).2
    p'.mem.read p'.curr (p'.stop - p'.curr) = (readCb p.userData p.buffSize).1 := by
  intro p'
  rw [queryData_curr, queryData_stop, Nat.add_sub_cancel_left]
  exact Mem.read_write_self ..

end Query

@[simp] theorem incPos_mem : (incPos p).mem = p.mem := rfl
@[simp] theorem incPos_total : (incPos p).total = p.total + 1 := rfl
@[simp] theorem incPos_curr : (incPos p).curr = p.curr + 1 := rfl
@[simp] theorem incPos_stop : (incPos p).stop = p.stop := rfl

theorem incPos_line :
    (incPos p).line = if p.mem p.curr = '\n'.toUInt8 then p.line + 1 else p.line := rfl

theorem incPos_col :
    (incPos p).col = if p.mem p.curr = '\n'.toUInt8 then 0 else p.col + 1 := rfl

end Macros

/-! ## Destinations -/

/-- A `dest` with the `res` of its operation. -/
structure Dest where
  mem : Mem
  dest : Nat
  res : Nat

/-- `if (res < bound) dest[res] = c; res++`. -/
def Dest.put (d : Dest) (bound : Nat) (c : UInt8) : Dest :=
  { d with mem := if d.res < bound then d.mem.write (d.dest + d.res) [c] else d.mem
           res := d.res + 1 }

/-- `if (res >= dest_size) dest[dest_size - 1] = 0; else dest[res] = 0`. -/
def Dest.finish (d : Dest) (destSize : Nat) : Dest :=
  { d with mem := d.mem.write (d.dest + if destSize ≤ d.res then destSize - 1 else d.res) [0] }

/-! ## Kinds of characters -/

/-- `c >= '0' && c <= '9'`. -/
def isDigit (c : UInt8) : Bool := '0'.toUInt8 ≤ c && c ≤ '9'.toUInt8

/-- `(c >= 'A' && c <= 'F') || (c >= 'a' && c <= 'f')`. -/
def isHexLetter (c : UInt8) : Bool :=
  ('A'.toUInt8 ≤ c && c ≤ 'F'.toUInt8) || ('a'.toUInt8 ≤ c && c ≤ 'f'.toUInt8)

/-- `is_ident_char`, which asks for the small letters twice. -/
def isIdentChar (c : UInt8) : Bool :=
  c = '_'.toUInt8 || isDigit c || ('a'.toUInt8 ≤ c && c ≤ 'z'.toUInt8) ||
    ('a'.toUInt8 ≤ c && c ≤ 'z'.toUInt8)

/-- `c == '+' || c == '-'`. -/
def isSign (c : UInt8) : Bool := c = '+'.toUInt8 || c = '-'.toUInt8

/-- `c == x || c == X`. -/
def isEither (x X c : UInt8) : Bool := c = x || c = X

/-- A bit of a format. -/
def hasFmt (fmt bit : UInt32) : Bool := fmt &&& bit ≠ 0

def valFmt0X : UInt32 := 1
def valFmt0H : UInt32 := 2
def valFmt0B : UInt32 := 4
def valFmtFloat : UInt32 := 8
def valFmtSign : UInt32 := 32

def strFmtQuote : UInt32 := 1
def strFmtApost : UInt32 := 2
def strFmtNaked : UInt32 := 4
def strFmtEsc : UInt32 := 8
def strFmtEscu : UInt32 := 16

/-! ## The bodies of the loops -/

/-- `parser_read`. -/
def readBody (chatset : UInt8 → Bool) (destSize : Nat) (d : Dest) (c : UInt8) : Act Dest :=
  if chatset c then .next (d.put (destSize - 1) c) else .stop d

/-- `parser_read_before2`. -/
def readBefore2Body (destSize : Nat) (c1 c2 : UInt8) (d : Dest) (cc : UInt8) : Act Dest :=
  if cc = c1 ∨ cc = c2 then .stop d else .next (d.put destSize cc)

/-- The locals of `parser_read_value`. -/
structure Value where
  dest : Dest
  state : Nat
  last : UInt8

/-- The state after the digit `last` was followed by `c`, if that begins a number of another
base: 6 for sixteen, 7 for two. -/
def baseState (fmt : UInt32) (c : UInt8) : Option Nat :=
  if (hasFmt fmt valFmt0H ∧ isEither 'H'.toUInt8 'h'.toUInt8 c) ∨
      (isEither 'x'.toUInt8 'X'.toUInt8 c ∧ hasFmt fmt valFmt0X) then some 6
  else if hasFmt fmt valFmt0B ∧ isEither 'b'.toUInt8 'B'.toUInt8 c then some 7
  else none

/-- `dest[res] = c; INC_POS; res++` and the next state. -/
def Value.put (v : Value) (destSize : Nat) (c : UInt8) (state : Nat) : Value :=
  { v with dest := v.dest.put destSize c, state := state }

/-- The states 0, 2 and 5 of `parser_read_value`. -/
def readDecimal (destSize : Nat) (fmt : UInt32) (v : Value) (c : UInt8) : Act Value :=
  if isDigit c then .next { v.put destSize c v.state with last := c }
  else if v.state = 0 ∧ c = '.'.toUInt8 ∧ hasFmt fmt valFmtFloat then .next (v.put destSize c 2)
  else if (v.state = 0 ∨ v.state = 2) ∧ isEither 'e'.toUInt8 'E'.toUInt8 c ∧
      hasFmt fmt valFmtFloat then .next (v.put destSize c 4)
  else
    match if v.state = 0 ∧ v.last = '0'.toUInt8 ∧ v.dest.res = 1 then baseState fmt c else none with
    | some state => .next (v.put destSize c state)
    | none =>
        if hasFmt fmt valFmtSign ∧ v.dest.res = 0 ∧ isSign c then
          .next (v.put destSize c v.state)
        else .stop v

/-- `parser_read_value`. -/
def readValueBody (destSize : Nat) (fmt : UInt32) (v : Value) (c : UInt8) : Act Value :=
  if v.state = 0 ∨ v.state = 2 ∨ v.state = 5 then readDecimal destSize fmt v c
  else if v.state = 4 then
    if isSign c then .next (v.put destSize c 5) else .again { v with state := 5 }
  else if v.state = 6 ∧ (isDigit c ∨ isHexLetter c) then .next (v.put destSize c 6)
  else if v.state = 7 ∧ isEither '0'.toUInt8 '1'.toUInt8 c then .next (v.put destSize c 7)
  else .stop v

/-- The locals of `parser_read_string`. -/
structure Str where
  dest : Dest
  state : Nat
  first : UInt8

/-- The `switch` over an escaped character, with the stores. -/
def putEscaped (destSize : Nat) (d : Dest) (c : UInt8) : Dest :=
  if c = 'r'.toUInt8 then d.put destSize 13
  else if c = 'n'.toUInt8 then d.put destSize 10
  else if c = 't'.toUInt8 then d.put destSize 9
  else if c = 'b'.toUInt8 then d.put destSize 8
  else if c = 'f'.toUInt8 then d.put destSize 12
  else if c = '\\'.toUInt8 then d.put destSize c
  else if c = '/'.toUInt8 then d.put destSize c
  else if c = '"'.toUInt8 then d.put destSize c
  else (d.put destSize '\\'.toUInt8).put destSize c

/-- `parser_read_string`. -/
def readStringBody (destSize : Nat) (fmt : UInt32) (v : Str) (c : UInt8) : Act Str :=
  if v.state = 0 ∧ ((hasFmt fmt strFmtQuote ∧ c = '"'.toUInt8) ∨
      (hasFmt fmt strFmtApost ∧ c = '\''.toUInt8)) then .next { v with first := c, state := 1 }
  else if v.state = 0 ∧ hasFmt fmt strFmtNaked then .again { v with state := 1 }
  else if v.state = 1 ∧ c = v.first then .last v
  else if v.state = 1 ∧ v.first = 0 ∧ isIdentChar c then
    .next { v with dest := v.dest.put destSize c }
  else if v.state = 1 ∧ hasFmt fmt strFmtEsc ∧ c = '\\'.toUInt8 then .next { v with state := 3 }
  else if v.state = 1 ∧ v.first ≠ 0 then .next { v with dest := v.dest.put destSize c }
  else if v.state = 3 ∧ hasFmt fmt strFmtEscu ∧ c = 'u'.toUInt8 then .next { v with state := 4 }
  else if v.state = 3 then .next { v with dest := putEscaped destSize v.dest c, state := 1 }
  else .stop v

/-- `parser_skip`. -/
def skipBody (chatset : UInt8 → Bool) (res : Nat) (c : UInt8) : Act Nat :=
  if chatset c then .next (res + 1) else .stop res

/-- `parser_skip_ws` and `parser_skip_ws_in_line`. -/
def skipWsBody (ws : UInt8 → Bool) (res : Bool) (c : UInt8) : Act Bool :=
  if ws c then .next true else .stop res

/-- `parser_skip_line`. -/
def skipLineBody (res : Bool) (c : UInt8) : Act Bool :=
  if c = '\n'.toUInt8 then .last true else .next res

/-- `parser_skip_before`. -/
def skipBeforeBody (c : UInt8) (res : Bool) (cc : UInt8) : Act Bool :=
  if cc = c then .stop true else .next res

/-- The blanks of `parser_skip_ws`. -/
def isWs (c : UInt8) : Bool := c ≤ 0x20

/-- The blanks of `parser_skip_ws_in_line`. -/
def isWsInLine (c : UInt8) : Bool := c ≤ 0x20 && c ≠ '\r'.toUInt8 && c ≠ '\n'.toUInt8

/-! ## The operations -/

section Operations

variable {σ : Type} (src : Source σ UInt8) (fuel : Nat) (mem : Mem) (dest destSize : Nat)

def parserCurr (s : σ) : σ × UInt8 :=
  let (eof, s) := src.check s
  (s, if eof then 0 else src.peek s)

def parserEof (s : σ) : σ × Bool :=
  let (eof, s) := src.check s
  (s, eof)

def parserRead (chatset : UInt8 → Bool) (s : σ) : Option (σ × Dest) :=
  (scan src (readBody chatset destSize) fuel s ⟨mem, dest, 0⟩).map
    (.map id fun d => d.finish destSize)

def parserReadBefore2 (c1 c2 : UInt8) (s : σ) : Option (σ × Dest) :=
  (scan src (readBefore2Body destSize c1 c2) fuel s ⟨mem, dest, 0⟩).map
    (.map id fun d => d.finish destSize)

def parserReadDigits (hex : Bool) (s : σ) : Option (σ × Dest) :=
  parserRead src fuel mem dest destSize (fun c => isDigit c || (hex && isHexLetter c)) s

/-- `last` is what the local of that name holds at first. -/
def parserReadValue (fmt : UInt32) (last : UInt8) (s : σ) : Option (σ × Dest) :=
  (scan src (readValueBody destSize fmt) fuel s ⟨⟨mem, dest, 0⟩, 0, last⟩).map
    (.map id fun v => v.dest.finish destSize)

def parserReadString (fmt : UInt32) (s : σ) : Option (σ × Dest) :=
  (scan src (readStringBody destSize fmt) fuel s ⟨⟨mem, dest, 0⟩, 0, 0⟩).map
    (.map id fun v => v.dest.finish destSize)

def parserSkip (chatset : UInt8 → Bool) (s : σ) : Option (σ × Nat) :=
  scan src (skipBody chatset) fuel s 0

/-- The rounds of `parser_skip_n` that are left, and those done. -/
def skipRounds : Nat → Nat → σ → σ × Nat
  | 0, i, s => (s, i)
  | n + 1, i, s =>
      let (eof, s) := src.check s
      if eof then (s, i) else skipRounds n (i + 1) (src.inc s)

def parserSkipN (n : Int) (s : σ) : σ × Int :=
  if n < 0 then (s, n)
  else
    let (s, i) := skipRounds src n.toNat 0 s
    (s, i)

def parserSkipChar (c : UInt8) (s : σ) : σ × Bool :=
  let (eof, s) := src.check s
  if src.peek s ≠ c ∨ eof then (s, false) else (src.inc s, true)

def parserSkipWs (s : σ) : Option (σ × Bool) := scan src (skipWsBody isWs) fuel s false

def parserSkipWsInLine (s : σ) : Option (σ × Bool) :=
  scan src (skipWsBody isWsInLine) fuel s false

def parserSkipLine (s : σ) : Option (σ × Bool) := scan src skipLineBody fuel s false

def parserSkipBefore (c : UInt8) (s : σ) : Option (σ × Bool) :=
  scan src (skipBeforeBody c) fuel s false

end Operations

/-! ## Sequences of operations -/

/-- An operation with its arguments.  `dest_size` is at least 1. -/
inductive Op where
  | curr
  | eof
  | read (chatset : UInt8 → Bool) (dest destSize : Nat)
  | readBefore2 (dest destSize : Nat) (c1 c2 : UInt8)
  | readDigits (dest destSize : Nat) (hex : Bool)
  | readValue (dest destSize : Nat) (fmt : UInt32)
  | readString (dest destSize : Nat) (fmt : UInt32)
  | skip (chatset : UInt8 → Bool)
  | skipN (n : Int)
  | skipChar (c : UInt8)
  | skipWs
  | skipWsInLine
  | skipLine
  | skipBefore (c : UInt8)

/-- What an operation leaves: its result, and the memory its destination is in. -/
structure Outcome where
  result : Int
  mem : Mem

/-- The outcome of an operation with a destination. -/
def Dest.outcome (d : Dest) : Outcome := ⟨d.res, d.mem⟩

/-- One operation. -/
def Op.run {σ : Type} (src : Source σ UInt8) (fuel : Nat) (op : Op) (last : UInt8) (mem : Mem)
    (s : σ) : Option (σ × Outcome) :=
  match op with
  | .curr => some ((parserCurr src s).map id fun c => ⟨c.toNat, mem⟩)
  | .eof => some ((parserEof src s).map id fun b => ⟨b.toInt, mem⟩)
  | .read chatset dest destSize =>
      (parserRead src fuel mem dest destSize chatset s).map (.map id Dest.outcome)
  | .readBefore2 dest destSize c1 c2 =>
      (parserReadBefore2 src fuel mem dest destSize c1 c2 s).map (.map id Dest.outcome)
  | .readDigits dest destSize hex =>
      (parserReadDigits src fuel mem dest destSize hex s).map (.map id Dest.outcome)
  | .readValue dest destSize fmt =>
      (parserReadValue src fuel mem dest destSize fmt last s).map (.map id Dest.outcome)
  | .readString dest destSize fmt =>
      (parserReadString src fuel mem dest destSize fmt s).map (.map id Dest.outcome)
  | .skip chatset => (parserSkip src fuel chatset s).map (.map id fun (n : Nat) => ⟨n, mem⟩)
  | .skipN n => some ((parserSkipN src n s).map id fun n => ⟨n, mem⟩)
  | .skipChar c => some ((parserSkipChar src c s).map id fun b => ⟨b.toInt, mem⟩)
  | .skipWs => (parserSkipWs src fuel s).map (.map id fun b => ⟨b.toInt, mem⟩)
  | .skipWsInLine => (parserSkipWsInLine src fuel s).map (.map id fun b => ⟨b.toInt, mem⟩)
  | .skipLine => (parserSkipLine src fuel s).map (.map id fun b => ⟨b.toInt, mem⟩)
  | .skipBefore c => (parserSkipBefore src fuel c s).map (.map id fun b => ⟨b.toInt, mem⟩)

/-- A sequence of operations: the source and the outcome after each.  `lasts` has what the
local `last` holds at first in each. -/
def runOps {σ : Type} (src : Source σ UInt8) (fuel : Nat) :
    List Op → (Nat → UInt8) → Mem → σ → Option (List (σ × Outcome))
  | [], _, _, _ => some []
  | op :: ops, lasts, mem, s =>
      (op.run src fuel (lasts 0) mem s).bind fun (s, out) =>
        (runOps src fuel ops (fun i => lasts (i + 1)) out.mem s).map fun outs => (s, out) :: outs

end Adhoc
