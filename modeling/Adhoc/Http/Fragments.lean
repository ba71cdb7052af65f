import Adhoc.Http.Push

/-!
# Cutting a request

Where a request is cut does not show in the state and the request that the buffer
ends with, and neither does what the memory of the buffer held before, as long as no
number is read of a value without a closing zero (`independent_iff_determined`).  A
value is without one where it is empty and its line ends with a bare line feed.
`strtol` then goes on behind the line, into what has not come yet.
-/

namespace Adhoc

open ByteMem Scanner Incremental

/-- The headers that `strtol` reads. -/
def Field.isNumber : Field → Bool
  | .contLen | .keepAlive => true
  | _ => false

/-- The last header of each name that `strtol` reads has a closing zero behind its value. -/
def Determined (s : List UInt8) : Prop :=
  ∀ r l, requestReader.Reads (.start, s) (r, l) →
    ∀ f x, f.isNumber = true → lastOf r.headers f = some x → x.closed = true

/-- However it is cut and whatever the memory held, what is pushed ends in the same state and
with the same request. -/
def Independent (s : List UInt8) (bsize : Nat) (hb : bsize < 2147483648) : Prop :=
  ∀ mem mem' pieces pieces', pieces.flatten = s → pieces'.flatten = s →
    ∃ m rb m' rb', pushAll mem (httpReqbInit bsize hb) pieces = some (m, rb) ∧
      pushAll mem' (httpReqbInit bsize hb) pieces' = some (m', rb') ∧
        rb.state = rb'.state ∧ rb.req = rb'.req

section Fragments

variable {s l l' : List UInt8} {r r' : Reading} {f : Field} {x : Header} {bsize : Nat}
  {hb : bsize < 2147483648}

theorem Determined.independent (h : Determined s) (hfit : s.length < bsize) :
    Independent s bsize hb := by
  rintro mem mem' pieces pieces' rfl hpieces'
  obtain ⟨w, m, rb, r, l, hrun, hreads, hrel⟩ := pushAll_init mem hb hfit
  rw [← hpieces'] at hfit
  obtain ⟨w', m', rb', r', l', hrun', hreads', hrel'⟩ := pushAll_init mem' hb hfit
  rw [hpieces'] at hreads'
  obtain ⟨rfl, rfl⟩ := Prod.mk.inj (hreads.unique hreads')
  have hnumber (f : Field) (hf : f.isNumber = true) :
      numberOf w (lastOf r.headers f) = numberOf w' (lastOf r.headers f) :=
    numberOf_congr fun x hx hopen => by
      rw [h r l hreads f x hf hx] at hopen
      cases hopen
  exact ⟨m, rb, m', rb', hrun, hrun', hrel.state.trans hrel'.state.symm, by
    rw [hrel.req, hrel'.req, Reading.req_congr (hnumber _ rfl) (hnumber _ rfl)]⟩

/-! ## Where a header is read -/

theorem headers_token {ws p : UInt8 → Bool} {g : Token → Reading}
    (h : (token ws p l).map (.map g id) = some (r', l')) (hg : ∀ t, (g t).headers = r.headers) :
    r'.headers = r.headers := by
  obtain ⟨⟨t, rest⟩, -, hr⟩ := Option.map_eq_some_iff.mp h
  rw [← (Prod.mk.inj hr).1]
  exact hg t

/-- A token's delimiter, and what is behind it. -/
theorem token_suffix {ws p : UInt8 → Bool} {t : Token} (h : token ws p l = some (t, l')) :
    t.delim :: l' <:+ l := by
  rw [← (token_eq_some h).2.2]
  exact (List.dropWhile_suffix p).trans (List.dropWhile_suffix ws)

/-- A step adds no header, or the one whose line it reads. -/
theorem step_headers (h : r.step l = some (r', l')) :
    r'.headers = r.headers ∨ ∃ name value rest, rest <:+ l ∧
      token isWsInLine (isNot '\n'.toUInt8) rest = some (value, l') ∧
        r' = { r with
          headers := r.header name value :: r.headers
          pos := r.pos + name.width + value.width } := by
  obtain ⟨-, -, hread⟩ := Reading.step_eq_some.mp h
  unfold Reading.read at hread
  split at hread
  next => exact .inl (headers_token hread fun _ => rfl)
  next => exact .inl (headers_token hread fun _ => by split <;> rfl)
  next => exact .inl (headers_token hread fun _ => by split <;> rfl)
  next => exact .inl (headers_token hread fun _ => by split <;> rfl)
  next => exact .inl (headers_token hread fun _ => rfl)
  next =>
    obtain ⟨c, -, -, rfl⟩ | ⟨name, rest, -, hname, hvalue⟩ := Reading.readHeader_cases hread
    · exact .inl rfl
    · split at hvalue
      next =>
        cases hvalue
        exact .inl rfl
      next =>
        obtain ⟨⟨value, rest'⟩, htoken, hr⟩ := Option.map_eq_some_iff.mp hvalue
        cases hr
        exact .inr ⟨name, value, rest, (List.suffix_cons _ rest).trans (token_suffix hname),
          htoken, rfl⟩
  next =>
    cases hread
    exact .inl rfl

/-- The last header of a name was added by a step. -/
theorem last_header {y : Reading × List UInt8} (h : requestReader.Steps (.start, s) y)
    (hx : lastOf y.1.headers f = some x) :
    ∃ r₀ l₀ r₁ l₁, requestReader.Steps (.start, s) (r₀, l₀) ∧ r₀.step l₀ = some (r₁, l₁) ∧
      r₁.headers = x :: r₀.headers ∧ requestReader.Steps (r₁, l₁) y := by
  induction h with
  | refl => cases hx
  | @tail y z hsteps hstep ih =>
      obtain hsame | ⟨name, value, rest, -, -, hz⟩ := step_headers hstep
      · rw [hsame] at hx
        obtain ⟨r₀, l₀, r₁, l₁, hsteps₀, hstep₀, hheaders, hrest⟩ := ih hx
        exact ⟨r₀, l₀, r₁, l₁, hsteps₀, hstep₀, hheaders, hrest.tail hstep⟩
      · have hheaders : z.1.headers = y.1.header name value :: y.1.headers := by rw [hz]
        rw [hheaders, lastOf_cons] at hx
        split at hx
        next =>
          cases hx
          exact ⟨y.1, y.2, z.1, z.2, hsteps, hstep, hheaders, .refl⟩
        next =>
          obtain ⟨r₀, l₀, r₁, l₁, hsteps₀, hstep₀, hheaders₀, hrest⟩ := ih hx
          exact ⟨r₀, l₀, r₁, l₁, hsteps₀, hstep₀, hheaders₀, hrest.tail hstep⟩

/-- Where the line of an open header ends: the value is at the line feed. -/
theorem open_header (h : requestReader.Steps (.start, s) (r, l))
    (hx : lastOf r.headers f = some x) (hopen : x.closed = false) :
    ∃ k rest r₁, s = k ++ rest ∧ requestReader.Reads (.start, k) (r₁, []) ∧ x ∈ r₁.headers ∧
      r₁.state = .unfinished ∧ x.value.off + 1 = r₁.pos ∧ ['\n'.toUInt8] <:+ k := by
  obtain ⟨r₀, l₀, r₁, l₁, hsteps, hstep, hheaders, -⟩ := last_header h hx
  obtain ⟨k₀, rfl, hsteps₀⟩ := hsteps.front requestReader_local
  obtain ⟨k₁, rfl, hstep₁⟩ := Reading.step_front hstep
  have hsteps₁ : requestReader.Steps (.start, k₀ ++ k₁) (r₁, []) :=
    (hsteps₀.append k₁).tail hstep₁
  refine ⟨k₀ ++ k₁, l₁, r₁, (List.append_assoc ..).symm, ⟨hsteps₁, step_nil⟩,
    hheaders ▸ List.mem_cons_self, ?_⟩
  obtain hsame | ⟨name, value, rest, hrest, htoken, rfl⟩ := step_headers hstep₁
  · rw [hsame] at hheaders
    exact absurd hheaders.symm (List.cons_ne_self _ _)
  · obtain ⟨rfl, -⟩ := List.cons.inj hheaders
    have hempty : value.str = [] := not_not.mp (of_decide_eq_false hopen)
    have hdelim : value.delim = '\n'.toUInt8 := by
      simpa [isNot] using (token_kinds htoken).2
    refine ⟨(Reading.step_eq_some.mp hstep₁).1, ?_, ?_⟩
    · have hwidth : value.width = value.blanks + 1 := by
        rw [Token.width, hempty]
        rfl
      show _ = r₀.pos + name.width + value.width
      rw [hwidth]
      rfl
    · rw [← hdelim]
      exact ((token_suffix htoken).trans hrest).trans (List.suffix_append k₀ k₁)

/-! ## What is read of the memory -/

/-- The number a header left. -/
def HttpReq.number (req : HttpReq) : Field → Int
  | .contLen => req.contLen
  | .keepAlive => req.keepAlive
  | _ => 0

theorem number_req {v : Nat → Int} (hf : f.isNumber = true) :
    (r.req v).number f = numberOf v (lastOf r.headers f) := by
  cases f with
  | contLen => rfl
  | keepAlive => rfl
  | host | userAgent | mime | accept | acceptLang | acceptEnc | cookie | connType => cases hf

/-- Cut behind the line of an open header, the number is what `strtol` makes of the line feed and
the memory behind it. -/
theorem number_of_open (hreads : requestReader.Reads (.start, s) (r, l)) (hf : f.isNumber = true)
    (hx : lastOf r.headers f = some x) (hopen : x.closed = false) (hb : bsize < 2147483648)
    (hfit : s.length < bsize) :
    ∃ k rest, s = k ++ ['\n'.toUInt8] ++ rest ∧ ∀ mem : Mem, ∃ m rb,
      pushAll mem (httpReqbInit bsize hb) [k ++ ['\n'.toUInt8], rest] = some (m, rb) ∧
        rb.req.number f = strtolAt (mem.write 0 (k ++ ['\n'.toUInt8])) k.length := by
  obtain ⟨k, rest, r₁, rfl, hreads₁, hmem, hlive, hoff, k₀, rfl⟩ := open_header hreads.1 hx hopen
  refine ⟨k₀, rest, rfl, fun mem => ?_⟩
  rw [List.length_append] at hfit
  have hfit₁ : 0 + (k₀ ++ ['\n'.toUInt8]).length < bsize := by omega
  obtain ⟨m₁, rb₁, r₁', l₁', hrun₁, hreads₁', hrel₁, hsize₁, hbsize₁⟩ :=
    (rel_start (fun _ => 0) mem hb).push hfit₁
  obtain ⟨rfl, rfl⟩ := Prod.mk.inj (hreads₁'.unique hreads₁)
  have hend : r₁'.pos = (k₀ ++ ['\n'.toUInt8]).length :=
    (hrel₁.size hlive).trans (hsize₁.trans (Nat.zero_add _))
  have hfit₂ : rb₁.size + rest.length < rb₁.bsize := by
    rw [hsize₁, hbsize₁]
    exact (congrArg (· + rest.length) (Nat.zero_add _)).trans_lt hfit
  obtain ⟨m₂, rb₂, r₂, l₂, hrun₂, hreads₂, hrel₂, -, -⟩ := hrel₁.push hfit₂
  obtain ⟨rfl, rfl⟩ := Prod.mk.inj ((hreads₁.append hreads₂).unique hreads)
  refine ⟨m₂, rb₂, ?_, ?_⟩
  · simp only [pushAll, hrun₁, hrun₂, Option.bind_some]
  · have hlt : x.value.off < r₁'.pos := hoff ▸ Nat.lt_succ_self _
    rw [hrel₂.req, number_req hf, hx, numberOf, if_neg (by rw [hopen]; exact Bool.false_ne_true),
      stale, if_pos hlt, stale,
      if_neg (show ¬ x.value.off < Reading.start.pos from Nat.not_lt_zero _)]
    show strtolAt _ _ = strtolAt _ _
    congr 1
    rw [List.length_append, List.length_singleton] at hend
    omega

/-- A memory that holds a string at a place, and zeros behind it. -/
theorem strtolAt_behind (k str : List UInt8) (hlen : str.length + 1 < addressSpace) :
    strtolAt ((Mem.zero.write (k.length + 1) str).write 0 (k ++ ['\n'.toUInt8])) k.length =
      strtol ('\n'.toUInt8 :: str) := by
  refine HoldsAt.strtolAt ?_ hlen
  have hlf : ((Mem.zero.write (k.length + 1) str).write 0 (k ++ ['\n'.toUInt8])) k.length =
      '\n'.toUInt8 := by
    rw [Mem.write_of_mem _ (Nat.zero_le _) (by simp)]
    simp
  have hbehind : (Mem.zero.write (k.length + 1) str).read (k.length + 1) (str.length + 1) =
      str ++ [0] := by
    rw [Mem.read_succ, Mem.read_write_self, Mem.write_of_ge _ (Nat.le_refl _)]
    rfl
  rw [HoldsAt, List.length_cons, Mem.read_cons, hlf,
    Mem.read_write_disjoint _ (.inr (by simp)), hbehind]
  rfl

/-- Two memories tell a cut behind the line of an open header apart. -/
theorem not_independent (hreads : requestReader.Reads (.start, s) (r, l)) (hf : f.isNumber = true)
    (hx : lastOf r.headers f = some x) (hopen : x.closed = false) (hfit : s.length < bsize) :
    ¬ Independent s bsize hb := by
  intro h
  obtain ⟨k, rest, rfl, hpush⟩ := number_of_open hreads hf hx hopen hb hfit
  have hcut : [k ++ ['\n'.toUInt8], rest].flatten = k ++ ['\n'.toUInt8] ++ rest := by
    rw [List.flatten_cons, List.flatten_singleton]
  obtain ⟨m, rb, m', rb', hrun, hrun', -, hreq⟩ := h (Mem.zero.write (k.length + 1) [])
    (Mem.zero.write (k.length + 1) ['7'.toUInt8]) _ _ hcut hcut
  obtain ⟨m₁, rb₁, hrun₁, hnumber₁⟩ := hpush (Mem.zero.write (k.length + 1) [])
  obtain ⟨m₂, rb₂, hrun₂, hnumber₂⟩ := hpush (Mem.zero.write (k.length + 1) ['7'.toUInt8])
  rw [hrun₁] at hrun
  rw [hrun₂] at hrun'
  cases hrun
  cases hrun'
  rw [strtolAt_behind k [] (by decide)] at hnumber₁
  rw [strtolAt_behind k ['7'.toUInt8] (by decide), ← hreq, hnumber₁] at hnumber₂
  exact absurd hnumber₂ (by decide)

/-- Where a request is cut and what the memory held does not show, exactly if no number is read
of a value without a closing zero. -/
theorem independent_iff_determined (s : List UInt8) (bsize : Nat) (hb : bsize < 2147483648)
    (hfit : s.length < bsize) : Independent s bsize hb ↔ Determined s := by
  constructor
  · intro h r l hreads f x hf hx
    by_contra hopen
    exact not_independent hreads hf hx (Bool.eq_false_iff.mpr hopen) hfit h
  · intro h
    exact h.independent hfit

/-- `GET / 1`, and a header whose value is not empty. -/
def plainRequest : List UInt8 :=
  ascii ['G', 'E', 'T', ' ', '/', ' ', '1', '\r', '\n'] ++ contentLengthName ++
    ascii [':', ' ', '7', '\r', '\n', '\r', '\n']

theorem determined_plain : Determined plainRequest := by
  have hreads : requestReader.Reads (.start, plainRequest)
      (requestReader.run 6 (.start, plainRequest)) := Reader.reads_run (by decide +kernel)
  have hclosed : ∀ x ∈ (requestReader.run 6 (.start, plainRequest)).1.headers, x.closed = true := by
    decide +kernel
  intro r l hr f x _ hx
  rw [← hr.unique hreads] at hclosed
  exact hclosed x (List.mem_of_find?_eq_some hx)

theorem independent_plain : Independent plainRequest 64 (by decide) :=
  (independent_iff_determined plainRequest 64 (by decide) (by decide)).mpr determined_plain

/-- `GET / 1`, and a header whose value is empty, with a bare line feed. -/
def openRequest : List UInt8 :=
  ascii ['G', 'E', 'T', ' ', '/', ' ', '1', '\r', '\n'] ++ contentLengthName ++
    ascii [':', '\n', '\r', '\n']

theorem not_independent_open :
    ¬ ∀ s bsize (hb : bsize < 2147483648), s.length < bsize → Independent s bsize hb := by
  have hreads : requestReader.Reads (.start, openRequest)
      (requestReader.run 6 (.start, openRequest)) := Reader.reads_run (by decide +kernel)
  intro h
  have hlast : lastOf (requestReader.run 6 (.start, openRequest)).1.headers .contLen =
      some ⟨contentLengthName, ⟨24, []⟩, false⟩ := by decide +kernel
  exact not_independent hreads rfl hlast rfl (by decide) (h openRequest 64 (by decide) (by decide))

end Fragments

end Adhoc
