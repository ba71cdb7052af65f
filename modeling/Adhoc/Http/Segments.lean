import Adhoc.Http.Fragments
import Adhoc.Http.Isolation
import Adhoc.Lwip.Pbuf

/-!
# The pbufs of a request

lwIP hands `htcon_recv` a chain of pbufs.  The callback tells `tcp_recved` how many
octets the chain has, pushes as many from the payload of the first pbuf on, and frees the
chain when the server has done with them.  What it pushes is the data of the chain if the
payload of each further pbuf begins where those before it end (`read_eq_octets_iff`).

What a request reader makes of the octets does not depend on how they were cut, with two
exceptions (`StreamSettled`).  One is the number that `strtol` reads on into octets that
have not come.  The other is a request behind which more comes than the buffer holds: it
is too big if it all comes at once, and is finished if it comes first.
-/

namespace Adhoc

open ByteMem EventMachine Incremental RefCount

/-! ## Chains -/

/-- `payload` and `len` of a pbuf. -/
structure Payload where
  off : Nat
  len : Nat

/-- The sum of the lengths. -/
def totLenOf (chain : List Payload) : Nat := (chain.map Payload.len).sum

/-- The payloads of a chain, one after the other. -/
def payloads (mem : Mem) (chain : List Payload) : List UInt8 :=
  chain.flatMap fun q => mem.read q.off q.len

/-- Each payload that has octets begins where the ones before it end, the first at `off`. -/
def Contiguous : Nat → List Payload → Prop
  | _, [] => True
  | off, q :: chain => (q.len = 0 ∨ q.off = off) ∧ Contiguous (off + q.len) chain

instance Contiguous.decidable : (off : Nat) → (chain : List Payload) →
    Decidable (Contiguous off chain)
  | _, [] => .isTrue trivial
  | off, q :: chain =>
      have := Contiguous.decidable (off + q.len) chain
      inferInstanceAs (Decidable (_ ∧ _))

section Chains

variable {off : Nat} {q : Payload} {chain : List Payload} {mem : Mem}

@[simp] theorem totLenOf_cons : totLenOf (q :: chain) = q.len + totLenOf chain := rfl

@[simp] theorem payloads_cons :
    payloads mem (q :: chain) = mem.read q.off q.len ++ payloads mem chain := rfl

theorem length_payloads : (payloads mem chain).length = totLenOf chain := by
  induction chain with
  | nil => rfl
  | cons q chain ih =>
      rw [payloads_cons, List.length_append, Mem.length_read, ih]
      rfl

/-- Memories that are read alike at two places read the same at both. -/
theorem forall_read_eq_iff {off' n : Nat} :
    (∀ mem : Mem, mem.read off n = mem.read off' n) ↔ n = 0 ∨ off' = off := by
  constructor
  · intro h
    cases n with
    | zero => exact .inl rfl
    | succ n =>
        right
        -- A memory with one octet set, at the first place.
        have hhead := h fun i => if i = off then 1 else 0
        rw [Mem.read_cons, Mem.read_cons] at hhead
        injection hhead with hhead
        by_contra hne
        rw [if_pos rfl, if_neg hne] at hhead
        exact absurd hhead (by decide)
  · rintro (rfl | rfl) mem
    · rfl
    · rfl

/-- What is read from one place on is the data of the chain, whatever it is, exactly if the
payloads are contiguous from there. -/
theorem read_eq_octets_iff :
    (∀ mem : Mem, mem.read off (totLenOf chain) = payloads mem chain) ↔ Contiguous off chain := by
  induction chain generalizing off with
  | nil => exact iff_of_true (fun _ => rfl) trivial
  | cons q chain ih =>
      have hsplit (mem : Mem) : mem.read off (totLenOf (q :: chain)) = payloads mem (q :: chain) ↔
          mem.read off q.len = mem.read q.off q.len ∧
            mem.read (off + q.len) (totLenOf chain) = payloads mem chain := by
        rw [totLenOf_cons, payloads_cons, Mem.read_add]
        exact List.append_eq_append_iff_of_size_eq_left (by simp)
      simp only [hsplit, forall_and]
      exact and_congr forall_read_eq_iff ih

/-- The pbufs of the pool each have a buffer of their own, with a header before it.  So payloads of
two of them do not meet, and a chain is contiguous if all its octets are in the first pbuf. -/
theorem contiguous_iff_of_apart {p : Payload}
    (hapart : ∀ q ∈ chain, p.off + p.len < q.off ∨ q.off + q.len < p.off) :
    Contiguous p.off (p :: chain) ↔ ∀ q ∈ chain, q.len = 0 := by
  have hrest : Contiguous (p.off + p.len) chain ↔ ∀ q ∈ chain, q.len = 0 := by
    induction chain with
    | nil => exact iff_of_true trivial fun q hq => absurd hq List.not_mem_nil
    | cons q chain ih =>
        have hq : q.off ≠ p.off + p.len := by
          have hne := hapart q (.head _)
          omega
        have hih := ih fun q' hq' => hapart q' (.tail _ hq')
        rw [Contiguous, or_iff_left hq, List.forall_mem_cons]
        refine and_congr_right fun hzero => ?_
        rw [hzero]
        exact hih
  exact (and_iff_right (.inr rfl)).trans hrest

end Chains

/-! ## Deliveries -/

/-- What `http_reqb_push` is given on a connection, one chain after the other: `htcon_received`
pushes only while the request is read. -/
def receiveAll (mem : Mem) (rb : HttpReqb) : List (List UInt8) → Option (Mem × HttpReqb)
  | [] => some (mem, rb)
  | data :: pieces =>
      if rb.state ≠ .unfinished then some (mem, rb)
      else (httpReqbPush mem rb data).bind fun (mem, rb) => receiveAll mem rb pieces

/-- What `htcon_received` acts on: how the request ends, and the request if it is read. -/
def HttpReqb.outcome (rb : HttpReqb) : ReqbState × Option HttpReq :=
  (rb.state, if rb.state = .finished then some rb.req else none)

/-- A chain, and what the memory holds when it is delivered.  `tot_len` has 16 bits. -/
structure Delivery where
  mem : Mem
  head : Payload
  rest : List Payload
  totLen_lt : totLenOf (head :: rest) < 65536

namespace Delivery

variable (d : Delivery)

/-- The octets that TCP delivers. -/
def octets : List UInt8 := payloads d.mem (d.head :: d.rest)

/-- The octets that are pushed. -/
def handed : List UInt8 := d.mem.read d.head.off (totLenOf (d.head :: d.rest))

/-- The payloads of the chain are contiguous. -/
def Whole : Prop := Contiguous d.head.off (d.head :: d.rest)

/-- A chain of one pbuf. -/
def ofOctets (data : List UInt8) (h : data.length < 65536) : Delivery where
  mem := Mem.zero.write 0 data
  head := ⟨0, data.length⟩
  rest := []
  totLen_lt := h

end Delivery

theorem httpReqMaxSize_lt : httpReqMaxSize < 2147483648 := by decide

/-- The request that is read of a stream does not depend on how the stream comes in whole chains,
and not on what the memory of the connection held before. -/
def StreamOnly (str : List UInt8) : Prop :=
  ∀ buff buff' (ds ds' : List Delivery), (∀ d ∈ ds, d.Whole) → (∀ d ∈ ds', d.Whole) →
    ds.flatMap Delivery.octets = str → ds'.flatMap Delivery.octets = str →
      ∃ m rb m' rb',
        receiveAll buff (httpReqbInit httpReqMaxSize httpReqMaxSize_lt) (ds.map Delivery.handed) =
            some (m, rb) ∧
          receiveAll buff' (httpReqbInit httpReqMaxSize httpReqMaxSize_lt)
            (ds'.map Delivery.handed) = some (m', rb') ∧ rb.outcome = rb'.outcome

/-- A stream that fits is one whose request, if it is finished, has no number read of an open
value.  Of one that does not fit, the octets that do fit are not a whole request and have no
error. -/
def StreamSettled (str : List UInt8) : Prop :=
  (str.length < httpReqMaxSize → ∀ r l, requestReader.Reads (.start, str) (r, l) →
    r.state = .finished → Determined str) ∧
    (httpReqMaxSize ≤ str.length → ∀ r l,
      requestReader.Reads (.start, str.take (httpReqMaxSize - 1)) (r, l) → r.state = .unfinished)

section Deliveries

variable {str front rest data : List UInt8} {r r' : Reading} {l l' : List UInt8} {mem m : Mem}
  {rb rb' : HttpReqb} {v : Nat → Int} {pieces : List (List UInt8)} {d : Delivery}

theorem Delivery.Whole.handed (h : d.Whole) : d.handed = d.octets := read_eq_octets_iff.mpr h d.mem

theorem Delivery.whole_ofOctets (h : data.length < 65536) : (Delivery.ofOctets data h).Whole :=
  ⟨.inr rfl, trivial⟩

theorem Delivery.octets_ofOctets (h : data.length < 65536) :
    (Delivery.ofOctets data h).octets = data := by
  have hread : (Mem.zero.write 0 data).read 0 data.length = data := Mem.read_write_self _ _ _
  rw [Delivery.octets, payloads_cons]
  exact (congrArg (· ++ []) hread).trans (List.append_nil data)

/-- Pieces of a stream come as chains of one pbuf. -/
theorem exists_deliveries (hlen : ∀ piece ∈ pieces, piece.length < 65536) :
    ∃ ds : List Delivery, (∀ d ∈ ds, d.Whole) ∧ ds.flatMap Delivery.octets = pieces.flatten ∧
      ds.map Delivery.handed = pieces := by
  induction pieces with
  | nil => exact ⟨[], fun d hd => absurd hd List.not_mem_nil, rfl, rfl⟩
  | cons data pieces ih =>
      have hdata := hlen data (.head _)
      obtain ⟨ds, hwhole, hoctets, hhanded⟩ := ih fun piece hpiece => hlen piece (.tail _ hpiece)
      have hfirst := Delivery.octets_ofOctets hdata
      refine ⟨Delivery.ofOctets data hdata :: ds, ?_, ?_, ?_⟩
      · intro d hd
        rcases List.mem_cons.mp hd with rfl | hd
        · exact Delivery.whole_ofOctets hdata
        · exact hwhole d hd
      · rw [List.flatMap_cons, List.flatten_cons, hfirst, hoctets]
      · rw [List.map_cons, (Delivery.whole_ofOctets hdata).handed, hfirst, hhanded]

theorem receiveAll_of_ended (h : rb.state ≠ .unfinished) :
    receiveAll mem rb pieces = some (mem, rb) := by
  cases pieces with
  | nil => rfl
  | cons data pieces => exact if_pos h

theorem receiveAll_of_live (h : rb.state = .unfinished)
    (hpush : httpReqbPush mem rb data = some (m, rb')) :
    receiveAll mem rb (data :: pieces) = receiveAll m rb' pieces := by
  rw [receiveAll, if_neg (not_not.mpr h), hpush]
  rfl

/-- What the pushes read of octets that came behind a reading: a front part of them, which is all
unless the request ends with it, or a front part behind which there is no room. -/
inductive Receives (rb : HttpReqb) (r : Reading) (l str : List UInt8) (m : Mem) (rb' : HttpReqb) :
    Prop where
  | reads (v : Nat → Int) (front rest : List UInt8) (r' : Reading) (l' : List UInt8) :
      str = front ++ rest → rb.size + front.length < rb.bsize →
        requestReader.Reads (r, l ++ front) (r', l') → Rel v m rb' r' l' →
          (r'.state ≠ .unfinished ∨ rest = []) → Receives rb r l str m rb'
  | tooBig : rb.bsize ≤ rb.size + str.length → rb'.state = .reqToBig → Receives rb r l str m rb'

theorem Rel.receiveAll (h : Rel v mem rb r l) (hstop : r.step l = none)
    (hsize : rb.size < rb.bsize) :
    ∃ m rb', Adhoc.receiveAll mem rb pieces = some (m, rb') ∧
      Receives rb r l pieces.flatten m rb' := by
  induction pieces generalizing v mem rb r l with
  | nil =>
      refine ⟨mem, rb, rfl, .reads v [] [] r l rfl hsize ?_ h (.inr rfl)⟩
      rw [List.append_nil]
      exact ⟨.refl, hstop⟩
  | cons data pieces ih =>
      by_cases hlive : r.state = .unfinished
      swap
      · have hended : rb.state ≠ .unfinished := fun hb => hlive (h.state.symm.trans hb)
        refine ⟨mem, rb, receiveAll_of_ended hended,
          .reads v [] _ r l rfl hsize ?_ h (.inl hlive)⟩
        rw [List.append_nil]
        exact ⟨.refl, hstop⟩
      have hopen := h.state.trans hlive
      by_cases hfit : rb.size + data.length < rb.bsize
      · obtain ⟨mem₁, rb₁, r₁, l₁, hrun, hreads, hrel, hsize₁, hbsize₁⟩ := h.push hfit
        rw [if_pos hlive] at hsize₁
        have hlt : rb₁.size < rb₁.bsize := by
          rw [hsize₁, hbsize₁]
          exact hfit
        obtain ⟨m, rb', hrest, hreceives⟩ := ih hrel hreads.2 hlt
        refine ⟨m, rb', (receiveAll_of_live hopen hrun).trans hrest, ?_⟩
        rw [List.flatten_cons]
        cases hreceives with
        | reads w front rest r' l' hstr hfits hreads' hrel' hend =>
            refine .reads w (data ++ front) rest r' l' ?_ ?_ ?_ hrel' hend
            · rw [hstr, List.append_assoc]
            · rw [hsize₁, hbsize₁] at hfits
              rw [List.length_append]
              omega
            · rw [← List.append_assoc]
              exact hreads.append hreads'
        | tooBig hbig hstate =>
            rw [hsize₁, hbsize₁] at hbig
            refine .tooBig ?_ hstate
            rw [List.length_append]
            omega
      · have hpush : httpReqbPush mem rb data = some (mem, { rb with state := .reqToBig }) :=
          if_pos (Nat.not_lt.mp hfit)
        refine ⟨mem, { rb with state := .reqToBig }, ?_, .tooBig ?_ rfl⟩
        · rw [receiveAll_of_live hopen hpush]
          exact receiveAll_of_ended fun hstate => by cases hstate
        rw [List.flatten_cons, List.length_append]
        omega

/-- The pushes of a new buffer. -/
theorem receiveAll_init (mem : Mem) (pieces : List (List UInt8)) :
    ∃ m rb', receiveAll mem (httpReqbInit httpReqMaxSize httpReqMaxSize_lt) pieces = some (m, rb') ∧
      Receives (httpReqbInit httpReqMaxSize httpReqMaxSize_lt) .start [] pieces.flatten m rb' :=
  (rel_start (fun _ => 0) mem (by decide)).receiveAll step_nil (by decide)

/-- A request that ends with a front part of the octets ends so with all of them. -/
theorem reads_of_ended (hreads : requestReader.Reads (r, l) (r', l'))
    (hended : r'.state ≠ .unfinished) (rest : List UInt8) :
    requestReader.Reads (r, l ++ rest) (r', l' ++ rest) :=
  hreads.append ⟨.refl, step_of_not_live hended⟩

/-- Of a stream for which there is room, the whole is read. -/
theorem Receives.whole {rb₀ : HttpReqb} (h : Receives rb₀ .start [] str m rb)
    (hfit : rb₀.size + str.length < rb₀.bsize) :
    ∃ v r l, requestReader.Reads (.start, str) (r, l) ∧ Rel v m rb r l := by
  cases h with
  | reads v front rest r l hstr _ hreads hrel hend =>
      rcases hend with hended | hrest
      · refine ⟨v, r, l ++ rest, hstr ▸ reads_of_ended hreads hended rest, ?_⟩
        exact { hrel with
          size := fun hlive => absurd hlive hended
          octets := fun hlive => absurd hlive hended }
      · rw [hrest, List.append_nil] at hstr
        exact ⟨v, r, l, hstr ▸ hreads, hrel⟩
  | tooBig hbig => omega

/-- A stream for which there is no room is too big, if the octets there is room for leave the
request unfinished. -/
theorem Receives.state_reqToBig {rb₀ : HttpReqb} (h : Receives rb₀ .start [] str m rb)
    (hlong : rb₀.bsize ≤ rb₀.size + str.length)
    (hlive : ∀ r l, requestReader.Reads (.start, str.take (rb₀.bsize - 1 - rb₀.size)) (r, l) →
      r.state = .unfinished) : rb.state = .reqToBig := by
  cases h with
  | reads v front rest r l hstr hfront hreads _ hend =>
      have hended : r.state ≠ .unfinished := hend.resolve_right fun hrest => by
        rw [hrest, List.append_nil] at hstr
        rw [← hstr] at hfront
        omega
      have hle : front.length ≤ rb₀.bsize - 1 - rb₀.size := by omega
      have htake : str.take (rb₀.bsize - 1 - rb₀.size) =
          front ++ rest.take (rb₀.bsize - 1 - rb₀.size - front.length) := by
        rw [hstr, List.take_append, List.take_of_length_le hle]
      exact absurd (hlive r _ (htake ▸ reads_of_ended hreads hended _)) hended
  | tooBig _ hstate => exact hstate

/-- Two buffers that stand for one reading have the same outcome if they read the same numbers. -/
theorem Rel.outcome_eq {v' : Nat → Int} {m' : Mem} (h : Rel v m rb r l) (h' : Rel v' m' rb' r l)
    (hnumber : r.state = .finished → ∀ f : Field, f.isNumber = true →
      numberOf v (lastOf r.headers f) = numberOf v' (lastOf r.headers f)) :
    rb.outcome = rb'.outcome := by
  have hstate : rb.state = rb'.state := h.state.trans h'.state.symm
  rw [HttpReqb.outcome, HttpReqb.outcome, hstate]
  by_cases hfinished : rb'.state = .finished
  · have hnumber' := hnumber (h'.state.symm.trans hfinished)
    rw [if_pos hfinished, if_pos hfinished, h.req, h'.req,
      Reading.req_congr (hnumber' _ rfl) (hnumber' _ rfl)]
  · rw [if_neg hfinished, if_neg hfinished]

/-- The outcome of a stream that is settled is what the reader reads of it, or that it is too
big. -/
theorem Receives.outcome_eq (h : StreamSettled str)
    (hrb : Receives (httpReqbInit httpReqMaxSize httpReqMaxSize_lt) .start [] str m rb)
    {m' : Mem}
    (hrb' : Receives (httpReqbInit httpReqMaxSize httpReqMaxSize_lt) .start [] str m' rb') :
    rb.outcome = rb'.outcome := by
  by_cases hfit : str.length < httpReqMaxSize
  · have hroom := (Nat.zero_add _).trans_lt hfit
    obtain ⟨v, r, l, hreads, hrel⟩ := hrb.whole hroom
    obtain ⟨v', r', l', hreads', hrel'⟩ := hrb'.whole hroom
    obtain ⟨rfl, rfl⟩ := Prod.mk.inj (hreads.unique hreads')
    refine hrel.outcome_eq hrel' fun hfinished f hf => numberOf_congr fun x hx hopen => ?_
    cases (h.1 hfit r l hreads hfinished r l hreads f x hf hx).symm.trans hopen
  · have hlong := Nat.not_lt.mp hfit
    have hnone := hlong.trans_eq (Nat.zero_add _).symm
    rw [HttpReqb.outcome, HttpReqb.outcome, hrb.state_reqToBig hnone (h.2 hlong),
      hrb'.state_reqToBig hnone (h.2 hlong)]
    rfl

theorem StreamSettled.streamOnly (h : StreamSettled str) : StreamOnly str := by
  intro buff buff' ds ds' hwhole hwhole' hstr hstr'
  have hflatten {ds : List Delivery} (hwhole : ∀ d ∈ ds, d.Whole)
      (hstr : ds.flatMap Delivery.octets = str) : (ds.map Delivery.handed).flatten = str := by
    rw [← hstr, List.flatMap_def, List.map_congr_left fun d hd => (hwhole d hd).handed]
  obtain ⟨m, rb, hrun, hrb⟩ := receiveAll_init buff (ds.map Delivery.handed)
  obtain ⟨m', rb', hrun', hrb'⟩ := receiveAll_init buff' (ds'.map Delivery.handed)
  rw [hflatten hwhole hstr] at hrb
  rw [hflatten hwhole' hstr'] at hrb'
  exact ⟨m, rb, m', rb', hrun, hrun', Receives.outcome_eq h hrb hrb'⟩

theorem receiveAll_eq_pushAll (h : Rel v mem rb r l)
    (hfit : rb.size + pieces.flatten.length < rb.bsize) :
    receiveAll mem rb pieces = pushAll mem rb pieces := by
  induction pieces generalizing v mem rb r l with
  | nil => rfl
  | cons data pieces ih =>
      rw [List.flatten_cons, List.length_append] at hfit
      obtain ⟨mem₁, rb₁, r₁, l₁, hrun, -, hrel, hsize, hbsize⟩ :=
        h.push (show rb.size + data.length < rb.bsize by omega)
      have hle : rb₁.size ≤ rb.size + data.length := by
        rw [hsize]
        split <;> omega
      have hrest := ih hrel (by omega)
      by_cases hlive : rb.state = .unfinished
      · rw [receiveAll_of_live hlive hrun, pushAll, hrun]
        exact hrest
      · have hsame : httpReqbPush mem rb data = some (mem, rb) := by
          rw [httpReqbPush, if_neg (by omega), if_pos hlive]
        cases hrun.symm.trans hsame
        rw [receiveAll_of_ended hlive] at hrest ⊢
        rw [pushAll, hsame]
        exact hrest

/-- A step of the reader does not find the request too big. -/
theorem step_ne_reqToBig (h : r.step l = some (r', l')) : r'.state ≠ .reqToBig := by
  obtain ⟨hlive, -, hread⟩ := Reading.step_eq_some.mp h
  have htoken {ws p : UInt8 → Bool} {g : Token → Reading} {l : List UInt8}
      (h : (token ws p l).map (.map g id) = some (r', l'))
      (hg : ∀ t, (g t).state ≠ .reqToBig) : r'.state ≠ .reqToBig := by
    obtain ⟨⟨t, rest⟩, -, hr⟩ := Option.map_eq_some_iff.mp h
    rw [← (Prod.mk.inj hr).1]
    exact hg t
  have hsame : r.state ≠ .reqToBig := by
    rw [hlive]
    decide
  have hfail : r.fail.state ≠ .reqToBig := by
    show ReqbState.syntError ≠ .reqToBig
    decide
  unfold Reading.read at hread
  split at hread
  next => exact htoken hread fun _ => hsame
  next => exact htoken hread fun _ => by split <;> assumption
  next => exact htoken hread fun _ => by split <;> assumption
  next => exact htoken hread fun _ => by split <;> assumption
  next => exact htoken hread fun _ => hsame
  next =>
    obtain ⟨c, -, -, rfl⟩ | ⟨name, rest, -, -, hvalue⟩ := Reading.readHeader_cases hread
    · show ReqbState.finished ≠ .reqToBig
      decide
    · split at hvalue
      next =>
        cases hvalue
        exact hfail
      next => exact htoken hvalue fun _ => hsame
  next =>
    cases hread
    exact hfail

theorem reads_ne_reqToBig (h : requestReader.Reads (.start, str) (r, l)) :
    r.state ≠ .reqToBig := by
  rcases Relation.ReflTransGen.cases_tail h.1 with heq | ⟨y, -, hstep⟩
  · rw [(Prod.mk.inj heq).1]
    decide
  · exact step_ne_reqToBig hstep

/-- Octets one by one. -/
theorem flatten_singles (l : List UInt8) : (l.map fun c => [c]).flatten = l := by
  induction l with
  | nil => rfl
  | cons c l ih =>
      rw [List.map_cons, List.flatten_cons, ih]
      rfl

/-- Two ways to cut a stream that is read alike give the same outcome. -/
theorem StreamOnly.outcome_eq (h : StreamOnly str) (buff buff' : Mem)
    {pieces' : List (List UInt8)} (hpieces : pieces.flatten = str)
    (hpieces' : pieces'.flatten = str)
    (hlen : ∀ piece ∈ pieces, piece.length < 65536)
    (hlen' : ∀ piece ∈ pieces', piece.length < 65536) :
    ∃ m rb m' rb',
      receiveAll buff (httpReqbInit httpReqMaxSize httpReqMaxSize_lt) pieces = some (m, rb) ∧
      receiveAll buff' (httpReqbInit httpReqMaxSize httpReqMaxSize_lt) pieces' = some (m', rb') ∧
        rb.outcome = rb'.outcome := by
  obtain ⟨ds, hwhole, hoctets, hhanded⟩ := exists_deliveries hlen
  obtain ⟨ds', hwhole', hoctets', hhanded'⟩ := exists_deliveries hlen'
  have hboth := h buff buff' ds ds' hwhole hwhole' (hoctets.trans hpieces)
    (hoctets'.trans hpieces')
  rwa [hhanded, hhanded'] at hboth

theorem StreamOnly.determined (h : StreamOnly str) (hfit : str.length < httpReqMaxSize)
    (hreads : requestReader.Reads (.start, str) (r, l)) (hfinished : r.state = .finished) :
    Determined str := by
  have hindependent : Independent str httpReqMaxSize (by decide) := by
    intro mem mem' pieces pieces' hpieces hpieces'
    have hshort {pieces : List (List UInt8)} (hpieces : pieces.flatten = str) :
        ∀ piece ∈ pieces, piece.length < 65536 := by
      intro piece hpiece
      have hle := (List.sublist_flatten_of_mem hpiece).length_le
      rw [hpieces] at hle
      exact Nat.lt_trans (Nat.lt_of_le_of_lt hle hfit) (by decide)
    have hpushAll (mem : Mem) {pieces : List (List UInt8)} (hpieces : pieces.flatten = str) :
        receiveAll mem (httpReqbInit httpReqMaxSize httpReqMaxSize_lt) pieces =
          pushAll mem (httpReqbInit httpReqMaxSize httpReqMaxSize_lt) pieces :=
      receiveAll_eq_pushAll (rel_start (fun _ => 0) mem (by decide))
        ((Nat.zero_add _).trans_lt (hpieces ▸ hfit))
    obtain ⟨m, rb, m', rb', hrun, hrun', heq⟩ :=
      h.outcome_eq mem mem' hpieces hpieces' (hshort hpieces) (hshort hpieces')
    rw [hpushAll mem hpieces] at hrun
    rw [hpushAll mem' hpieces'] at hrun'
    -- The request is finished, so the outcome has all of it.
    subst hpieces
    obtain ⟨w, m₁, rb₁, r₁, l₁, hrun₁, hreads₁, hrel⟩ := pushAll_init mem (by decide) hfit
    cases hrun.symm.trans hrun₁
    obtain ⟨rfl, rfl⟩ := Prod.mk.inj (hreads₁.unique hreads)
    obtain ⟨hstate, hreq⟩ := Prod.mk.inj heq
    have hrb : rb.state = .finished := hrel.state.trans hfinished
    rw [if_pos hrb, if_pos (hstate ▸ hrb)] at hreq
    exact ⟨m, rb, m', rb', hrun, hrun', hstate, Option.some.inj hreq⟩
  intro r' l' hreads' f x hf hx
  by_contra hopen
  exact not_independent hreads' hf hx (Bool.eq_false_iff.mpr hopen) hfit hindependent

theorem StreamOnly.unfinished (h : StreamOnly str) (hlong : httpReqMaxSize ≤ str.length)
    (hreads : requestReader.Reads (.start, str.take (httpReqMaxSize - 1)) (r, l)) :
    r.state = .unfinished := by
  by_contra hended
  -- The octets that fit come first, or one more with them.
  have hcut (n : Nat) : (str.take n :: (str.drop n).map fun c => [c]).flatten = str := by
    rw [List.flatten_cons, flatten_singles, List.take_append_drop]
  have hshort {n : Nat} (hn : n < 65536) :
      ∀ piece ∈ str.take n :: (str.drop n).map fun c => [c], piece.length < 65536 := by
    intro piece hpiece
    rcases List.mem_cons.mp hpiece with rfl | hpiece
    · exact Nat.lt_of_le_of_lt (List.length_take_le ..) hn
    · obtain ⟨c, -, rfl⟩ := List.mem_map.mp hpiece
      exact (by decide : 1 < 65536)
  obtain ⟨m, rb, m', rb', hrun, hrun', heq⟩ :=
    h.outcome_eq Mem.zero Mem.zero (hcut (httpReqMaxSize - 1))
    (hcut httpReqMaxSize) (hshort (by decide)) (hshort (by decide))
  have hfits : (httpReqbInit httpReqMaxSize httpReqMaxSize_lt).size +
      (str.take (httpReqMaxSize - 1)).length <
        (httpReqbInit httpReqMaxSize httpReqMaxSize_lt).bsize := by
    refine Nat.lt_of_le_of_lt (Nat.add_le_add_left (List.length_take_le ..) _) ?_
    decide
  obtain ⟨m₁, rb₁, r₁, l₁, hpush, hreads₁, hrel, -, -⟩ :=
    (rel_start (fun _ => 0) Mem.zero (by decide)).push hfits
  obtain ⟨rfl, rfl⟩ := Prod.mk.inj (hreads₁.unique hreads)
  rw [receiveAll_of_live rfl hpush,
    receiveAll_of_ended (fun hstate => hended (hrel.state.symm.trans hstate))] at hrun
  have hbig : httpReqbPush Mem.zero (httpReqbInit httpReqMaxSize httpReqMaxSize_lt)
      (str.take httpReqMaxSize) = some (Mem.zero,
        { httpReqbInit httpReqMaxSize httpReqMaxSize_lt with state := .reqToBig }) := by
    refine if_pos ?_
    rw [List.length_take_of_le hlong]
    decide
  rw [receiveAll_of_live rfl hbig, receiveAll_of_ended (fun hstate => by cases hstate)] at hrun'
  cases hrun
  cases hrun'
  exact reads_ne_reqToBig hreads (hrel.state.symm.trans (Prod.mk.inj heq).1)

/-- What is read of a stream depends on nothing else exactly if the stream is settled. -/
theorem streamOnly_iff_settled : StreamOnly str ↔ StreamSettled str := by
  constructor
  · intro h
    exact ⟨fun hfit _ _ hreads hfinished => h.determined hfit hreads hfinished,
      fun hlong _ _ hreads => h.unfinished hlong hreads⟩
  · intro h
    exact h.streamOnly

end Deliveries

/-! ## `htcon_recv` -/

/-- The pbufs of a chain. -/
def Pbufs.chain (s : Pbufs) : Nat → Option Slot → List Slot
  | 0, _ => []
  | _ + 1, none => []
  | fuel + 1, some p => p :: s.chain fuel (s.next p)

/-- The server, the pool that its data comes in, and where the data of a pbuf is.  `told` is what
`tcp_recved` was told, and `recvd` the chain of a `htcon_recv` that is under way. -/
structure RecvServer where
  server : HttpServer
  pbufs : Pbufs
  payload : Slot → Nat
  len : Slot → UInt16
  totLen : Slot → UInt16
  mem : Mem
  told : List (Pcb × UInt16)
  recvd : Option Slot

/-- What happens.  `server` is any event of the server but a received buffer, and `ret` the end of
a `htcon_recv` that was given one.  `stack` is what lwIP and the driver do between. -/
inductive RecvEvent where
  | recv (pcb : Pcb) (p : Slot) (onReq : Bool)
  | server (e : HttpEvent)
  | ret
  | stack (pbufs : Pbufs) (payload : Slot → Nat) (len totLen : Slot → UInt16) (mem : Mem)

/-- A received buffer. -/
def HttpEvent.isRecv : HttpEvent → Bool
  | .recv _ _ _ => true
  | _ => false

namespace RecvServer

variable (s : RecvServer)

/-- The payloads of a chain. -/
def chain (p : Slot) : List Payload :=
  (s.pbufs.chain pbufPoolSize (some p)).map fun q => ⟨s.payload q, (s.len q).toNat⟩

/-- The octets `htcon_recv` hands on: `p->tot_len` of them, from `p->payload` on. -/
def handed (p : Slot) : List UInt8 := s.mem.read (s.payload p) (s.totLen p).toNat

/-- One event.  `htcon_recv` tells `tcp_recved`, lets `htcon_received` run, and frees the chain. -/
def step : RecvEvent → Option RecvServer
  | .recv pcb p onReq =>
      if s.recvd.isNone then
        (s.server.step (.recv pcb (s.handed p) onReq)).map fun server =>
          { s with server := server, told := s.told ++ [(pcb, s.totLen p)], recvd := some p }
      else none
  | .server e =>
      if e.isRecv ∨ s.recvd.isSome ∧ s.server.Idle then none
      else (s.server.step e).map fun server => { s with server := server }
  | .ret =>
      match s.recvd with
      | none => none
      | some p =>
          if s.server.Idle then some { s with pbufs := (pbufFree p s.pbufs).2, recvd := none }
          else none
  | .stack pbufs payload len totLen mem =>
      if s.recvd.isNone ∧ s.server.Idle then
        some { s with pbufs := pbufs, payload := payload, len := len, totLen := totLen, mem := mem }
      else none

end RecvServer

/-- The server and the pool as a machine. -/
def recvMachine : Machine RecvServer RecvEvent := ⟨RecvServer.step⟩

/-- A call of `htcon_recv` for the chain of `p`, from the call to the return.  The pcb is that of
a slot that reads a request, and `tot_len` is the sum of the lengths. -/
structure RecvCall (s v : RecvServer) (pcb : Pcb) (p : Slot) (i : ConSlot) : Prop where
  args : s.server.args pcb = some i
  reads : (s.server.cons i).state = .rdReq
  totLen : totLenOf (s.chain p) = (s.totLen p).toNat
  run : ∃ onReq es, .ret ∉ es ∧
    recvMachine.run s (.recv pcb p onReq :: es ++ [.ret]) = some v

/-- The call pushes the data of the chain, whatever it is, tells `tcp_recved` its length, and frees
the chain once. -/
structure RecvUnchanged (s v : RecvServer) (pcb : Pcb) (p : Slot) (i : ConSlot) : Prop where
  handed : ∀ mem, { s with mem := mem }.handed p = payloads mem (s.chain p)
  pushed : ∃ buff, httpReqbPush (s.server.cons i).buff (s.server.cons i).reqb
    (payloads s.mem (s.chain p)) = some (buff, (v.server.cons i).reqb)
  told : v.told = s.told ++ [(pcb, s.totLen p)] ∧
    (s.totLen p).toNat = (payloads s.mem (s.chain p)).length
  freed : v.pbufs = (pbufFree p s.pbufs).2

section Recv

variable {s t u v : RecvServer} {pcb : Pcb} {p : Slot} {i : ConSlot} {e : RecvEvent}
  {es : List RecvEvent} {str : List UInt8}

/-- The server leaves the request of a slot alone where it does not go back to the main loop. -/
theorem reqb_of_not_idle {s t : HttpServer} {e : HttpEvent} (h : s.step e = some t)
    (hidle : ¬ s.Idle) (i : ConSlot) : (t.cons i).reqb = (s.cons i).reqb := by
  cases change_of_step h i with
  | same _ hcon _ => rw [hcon]
  | accept newpcb _ he _ _ _ =>
      rw [he] at h
      obtain ⟨⟨hs, -⟩, -⟩ := Option.ite_none_right_eq_some.mp h
      exact absurd hs hidle
  | push _ _ _ _ _ hs => exact absurd hs hidle
  | ended _ _ _ _ _ _ hcon _ => rw [hcon]
  | respNomem _ _ _ hcon _ =>
      rw [hcon]
      rfl
  | respond _ _ _ _ hcon _ =>
      rw [hcon]
      rfl
  | sent _ _ _ _ _ hcon _ => rw [hcon]
  | io sndbuf ok _ _ _ _ _ hcon _ =>
      rw [hcon]
      exact ((s.cons i).io_reads sndbuf ok).2.2
  | write _ _ _ hcon _ =>
      rw [hcon]
      rfl

/-- Until `htcon_recv` returns, nothing is told and nothing freed, and no request changes. -/
structure RecvServer.UnderWay (s : RecvServer) (p : Slot) (t : RecvServer) : Prop where
  recvd : t.recvd = some p
  told : t.told = s.told
  pbufs : t.pbufs = s.pbufs
  reqb : ∀ i, (t.server.cons i).reqb = (s.server.cons i).reqb

theorem RecvServer.UnderWay.step (h : s.UnderWay p t) (hstep : t.step e = some u)
    (he : e ≠ .ret) : s.UnderWay p u := by
  have hsome : t.recvd.isNone = false := by
    rw [h.recvd]
    rfl
  cases e with
  | recv pcb q onReq =>
      rw [RecvServer.step, hsome] at hstep
      cases hstep
  | server e =>
      obtain ⟨hnot, hmap⟩ := Option.ite_none_left_eq_some.mp hstep
      obtain ⟨server, hserver, rfl⟩ := Option.map_eq_some_iff.mp hmap
      have hidle : ¬ t.server.Idle := fun hidle => hnot (.inr ⟨by rw [h.recvd]; rfl, hidle⟩)
      exact ⟨h.recvd, h.told, h.pbufs, fun i =>
        (reqb_of_not_idle hserver hidle i).trans (h.reqb i)⟩
  | ret => exact absurd rfl he
  | stack pbufs payload len totLen mem =>
      rw [RecvServer.step, hsome, if_neg (fun hand => by cases hand.1)] at hstep
      cases hstep

theorem RecvServer.UnderWay.run (h : s.UnderWay p t) (hrun : recvMachine.run t es = some u)
    (hret : .ret ∉ es) : s.UnderWay p u := by
  induction es generalizing t with
  | nil => exact Option.some.inj hrun ▸ h
  | cons e es ih =>
      obtain ⟨w, hstep, hrest⟩ := Machine.run_cons.mp hrun
      rw [List.mem_cons, not_or] at hret
      exact ih (h.step hstep (Ne.symm hret.1)) hrest hret.2

/-- What a call of `htcon_recv` does. -/
theorem RecvCall.effect (h : RecvCall s v pcb p i) :
    v.told = s.told ++ [(pcb, s.totLen p)] ∧ v.pbufs = (pbufFree p s.pbufs).2 ∧
      ∃ buff, httpReqbPush (s.server.cons i).buff (s.server.cons i).reqb (s.handed p) =
        some (buff, (v.server.cons i).reqb) := by
  obtain ⟨onReq, es, hret, hrun⟩ := h.run
  obtain ⟨t, hrecv, hrun⟩ := Machine.run_cons.mp hrun
  obtain ⟨-, hmap⟩ := Option.ite_none_right_eq_some.mp hrecv
  obtain ⟨server, hserver, rfl⟩ := Option.map_eq_some_iff.mp hmap
  obtain ⟨u, hrun, hlast⟩ := Machine.run_append_iff.mp hrun
  have hway := RecvServer.UnderWay.run ⟨rfl, rfl, rfl, fun _ => rfl⟩ hrun hret
  obtain ⟨w, hlast, hv⟩ := Machine.run_cons.mp hlast
  cases hv
  have hv : (if u.server.Idle then some
      { u with pbufs := (pbufFree p u.pbufs).2, recvd := none } else none) = some v := by
    rw [← hlast]
    show _ = u.step .ret
    rw [RecvServer.step, hway.recvd]
  obtain ⟨-, ⟨⟩⟩ := Option.ite_none_right_eq_some.mp hv
  refine ⟨hway.told, congrArg (fun pbufs => (pbufFree p pbufs).2) hway.pbufs, ?_⟩
  obtain ⟨-, hbind⟩ := Option.ite_none_right_eq_some.mp hserver
  obtain ⟨j, hj, hreceived⟩ := Option.bind_eq_some_iff.mp hbind
  cases h.args.symm.trans hj
  obtain ⟨buff, hpush⟩ := htconReceived_push hreceived h.reads
  exact ⟨buff, hpush.trans (by rw [hway.reqb])⟩

/-- A call of `htcon_recv` pushes the data of its chain exactly if the payloads are contiguous, and
otherwise does what it owes to TCP and to the pool all the same.  What is read of the stream then
depends on nothing else exactly if the stream is settled. -/
theorem recv_unchanged_iff (str : List UInt8) (h : RecvCall s v pcb p i) :
    (RecvUnchanged s v pcb p i ↔ Contiguous (s.payload p) (s.chain p)) ∧
      (StreamOnly str ↔ StreamSettled str) := by
  refine ⟨⟨fun hunchanged => ?_, fun hwhole => ?_⟩, streamOnly_iff_settled⟩
  · rw [← read_eq_octets_iff, h.totLen]
    exact hunchanged.handed
  · rw [← read_eq_octets_iff, h.totLen] at hwhole
    obtain ⟨htold, hfreed, buff, hpush⟩ := h.effect
    refine ⟨hwhole, ⟨buff, ?_⟩, ⟨htold, ?_⟩, hfreed⟩
    · rw [← hwhole]
      exact hpush
    · rw [length_payloads, h.totLen]

/-- The first pbufs of a pool, with the first linked to the second.  `off` is where the second has
its data. -/
def linkedPbufs (off : Nat) : RecvServer where
  server := httpStart.htservAccept 1
  pbufs := { mempInit with
    next := fun p => if p = 0 then some 1 else none
    ref := fun _ => 1 }
  payload p := if p = 0 then 0 else off
  len _ := 3
  totLen p := if p = 0 then 6 else 3
  mem := (Mem.zero.write 0 (ascii ['G', 'E', 'T'])).write off (ascii [' ', '/', ' '])
  told := []
  recvd := none

theorem recvCall_linkedPbufs (off : Nat)
    (hruns : (recvMachine.run (linkedPbufs off) [.recv 1 0 true, .ret]).isSome) :
    ∃ v, RecvCall (linkedPbufs off) v 1 0 firstSlot := by
  obtain ⟨v, hv⟩ := Option.isSome_iff_exists.mp hruns
  exact ⟨v, rfl, rfl, rfl, true, [], List.not_mem_nil, hv⟩

theorem recv_unchanged_contiguous :
    ∃ v, RecvCall (linkedPbufs 3) v 1 0 firstSlot ∧
      RecvUnchanged (linkedPbufs 3) v 1 0 firstSlot ∧ StreamOnly plainRequest := by
  have hcontiguous : Contiguous ((linkedPbufs 3).payload 0) ((linkedPbufs 3).chain 0) := by
    decide +kernel
  have hsettled : StreamSettled plainRequest :=
    ⟨fun _ _ _ _ _ => determined_plain, fun hlong => absurd hlong (by decide +kernel)⟩
  obtain ⟨v, hv⟩ := recvCall_linkedPbufs 3 (by decide +kernel)
  obtain ⟨hunchanged, honly⟩ := recv_unchanged_iff plainRequest hv
  exact ⟨v, hv, hunchanged.mpr hcontiguous, honly.mpr hsettled⟩

/-- A second pbuf that is elsewhere does not reach the parser. -/
theorem not_recv_unchanged_apart :
    ∃ v, RecvCall (linkedPbufs 100) v 1 0 firstSlot ∧
      ¬ RecvUnchanged (linkedPbufs 100) v 1 0 firstSlot := by
  obtain ⟨v, hv⟩ := recvCall_linkedPbufs 100 (by decide +kernel)
  refine ⟨v, hv, fun hunchanged => ?_⟩
  have hread := hunchanged.handed (linkedPbufs 100).mem
  exact absurd hread (by decide +kernel)

end Recv

end Adhoc
