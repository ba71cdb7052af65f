import Adhoc.Dhcp.Reply

/-!
# Which message the server sees

`udp_recv_proc` takes `dp_options[2]` for the message type.  That is the octet of
option 53 when this option stands first.  When another one does, the server sees
the first octet of that option, and when no option reaches so far, the code of
the second option or what an earlier message left (`dispatches_iff`).
-/

namespace Adhoc

open ByteMem

/-! ## The cases of `udp_recv_proc` -/

/-- The case of the `switch` that is taken. -/
inductive Treatment where
  | discover
  | request
  | ignored
deriving DecidableEq, Repr

/-- The case that `dp_options[2]` selects. -/
def treatment (data : Mem) : Treatment :=
  if data (dpOptions + 2) = dhcpDiscover then .discover
  else if data (dpOptions + 2) = dhcpRequest then .request
  else .ignored

variable {config : DhcpConfig} {entries : List DhcpEntry} {data dhcpData : Mem}
  {p : List UInt8} {alloc : Bool} {os : List (UInt8 × List UInt8)}

theorem udpRecvProc_treatment (config : DhcpConfig) (entries : List DhcpEntry) (dhcpData : Mem)
    (p : List UInt8) (alloc : Bool) :
    udpRecvProc config entries dhcpData p alloc =
      match treatment (overlay p dhcpData) with
      | .discover => discover config entries (overlay p dhcpData) alloc
      | .request => request config entries (overlay p dhcpData) alloc
      | .ignored => some ⟨overlay p dhcpData, entries, none⟩ := by
  simp only [udpRecvProc, treatment]
  split
  next => rfl
  next =>
      split
      next => rfl
      next => rfl

theorem treatment_eq_discover :
    treatment data = .discover ↔ data (dpOptions + 2) = dhcpDiscover := by
  unfold treatment
  split
  next h => exact iff_of_true rfl h
  next h =>
      split
      next => exact iff_of_false (by decide) h
      next => exact iff_of_false (by decide) h

theorem treatment_eq_request : treatment data = .request ↔ data (dpOptions + 2) = dhcpRequest := by
  unfold treatment
  split
  next h => exact iff_of_false (by decide) (by rw [h]; decide)
  next =>
      split
      next h => exact iff_of_true rfl h
      next h => exact iff_of_false (by decide) h

/-! ## Datagrams -/

/-- A datagram of a client: the header, complete options and `DHCP_END`. -/
structure ClientMessage (os : List (UInt8 × List UInt8)) (p : List UInt8) : Prop where
  length_ge : dpOptions ≤ p.length
  options_eq : p.drop dpOptions = encodeOptions os ++ [dhcpEnd]
  complete : ∀ o ∈ os, o.1 ≠ dhcpPad ∧ o.1 ≠ dhcpEnd ∧ o.2.length ≤ 255

/-- The octets of the option with the message type. -/
def dhcpMessageType (os : List (UInt8 × List UInt8)) : Option (List UInt8) :=
  (os.find? fun o => o.1 = dhcpMessagetype).map Prod.snd

/-- The octet behind the length of the first option: an octet of the option, the code of the next
one, or `DHCP_END`.  Without any option the datagram does not reach it, and `left` is what was
there. -/
def behindFirst (left : UInt8) : List (UInt8 × List UInt8) → UInt8
  | [] => left
  | (_, b :: _) :: _ => b
  | (_, []) :: (code, _) :: _ => code
  | [(_, [])] => dhcpEnd

/-- The datagram is treated by its message type, and without a type of the two it does nothing. -/
structure Dispatches (dhcpData : Mem) (p : List UInt8) (os : List (UInt8 × List UInt8)) : Prop where
  discover : treatment (overlay p dhcpData) = .discover ↔ dhcpMessageType os = some [dhcpDiscover]
  request : treatment (overlay p dhcpData) = .request ↔ dhcpMessageType os = some [dhcpRequest]
  ignored : dhcpMessageType os ≠ some [dhcpDiscover] → dhcpMessageType os ≠ some [dhcpRequest] →
    ∀ config entries alloc, ∃ r, udpRecvProc config entries dhcpData p alloc = some r ∧
      r.reply = none ∧ r.entries = entries

/-- What the server inspects. -/
theorem ClientMessage.inspected (h : ClientMessage os p) (dhcpData : Mem) :
    overlay p dhcpData (dpOptions + 2) = behindFirst (dhcpData (dpOptions + 2)) os := by
  have hget (b : UInt8) (hb : (encodeOptions os ++ [dhcpEnd])[2]? = some b) :
      overlay p dhcpData (dpOptions + 2) = b := by
    rw [← h.options_eq, List.getElem?_drop] at hb
    exact overlay_apply hb (by decide) dhcpData
  cases os with
  | nil =>
      have hlen := congrArg List.length h.options_eq
      have hge := h.length_ge
      rw [List.length_drop] at hlen
      simp only [dpOptions, encodeOptions, List.flatMap_nil, List.nil_append,
        List.length_singleton] at hlen hge
      refine Mem.write_of_ge _ ?_
      rw [List.length_take]
      simp only [dpOptions, dhcpDataSize]
      omega
  | cons o os =>
      obtain ⟨code, octets⟩ := o
      cases octets with
      | cons b octets => exact hget b rfl
      | nil =>
          cases os with
          | nil => exact hget dhcpEnd rfl
          | cons o' os => exact hget o'.1 rfl

/-- A datagram that is taken for what its type says is treated by it: one of no type that the
server knows is left alone. -/
theorem dispatches_of
    (hdiscover : treatment (overlay p dhcpData) = .discover ↔
      dhcpMessageType os = some [dhcpDiscover])
    (hrequest : treatment (overlay p dhcpData) = .request ↔
      dhcpMessageType os = some [dhcpRequest]) : Dispatches dhcpData p os := by
  refine ⟨hdiscover, hrequest, fun hnot hnot' config entries alloc => ?_⟩
  have hignored : treatment (overlay p dhcpData) = .ignored := by
    cases htreat : treatment (overlay p dhcpData) with
    | discover => exact absurd (hdiscover.mp htreat) hnot
    | request => exact absurd (hrequest.mp htreat) hnot'
    | ignored => rfl
  refine ⟨⟨overlay p dhcpData, entries, none⟩, ?_, rfl, rfl⟩
  rw [udpRecvProc_treatment, hignored]

/-- A datagram is treated by its message type exactly when the octet behind the length of its first
option says the type whenever it is one of the two, and says it whenever the message type does. -/
theorem dispatches_iff (h : ClientMessage os p) (dhcpData : Mem) :
    Dispatches dhcpData p os ↔
      (behindFirst (dhcpData (dpOptions + 2)) os = dhcpDiscover ↔
        dhcpMessageType os = some [dhcpDiscover]) ∧
      (behindFirst (dhcpData (dpOptions + 2)) os = dhcpRequest ↔
        dhcpMessageType os = some [dhcpRequest]) := by
  rw [← h.inspected dhcpData, ← treatment_eq_discover, ← treatment_eq_request]
  constructor
  · exact fun hd => ⟨hd.discover, hd.request⟩
  · rintro ⟨hdiscover, hrequest⟩
    exact dispatches_of hdiscover hrequest

/-- A datagram whose message type stands first is treated by it. -/
theorem dispatches_of_first {t : UInt8} {rest : List (UInt8 × List UInt8)}
    (h : ClientMessage ((dhcpMessagetype, [t]) :: rest) p) (dhcpData : Mem) :
    Dispatches dhcpData p ((dhcpMessagetype, [t]) :: rest) := by
  have htype : dhcpMessageType ((dhcpMessagetype, [t]) :: rest) = some [t] := rfl
  have hread : overlay p dhcpData (dpOptions + 2) = t := h.inspected dhcpData
  refine dispatches_of ?_ ?_
  · rw [treatment_eq_discover, hread, htype]
    simp
  · rw [treatment_eq_request, hread, htype]
    simp

theorem clientMessage_clientDatagram (mac : Mac)
    (h : ∀ o ∈ os, o.1 ≠ dhcpPad ∧ o.1 ≠ dhcpEnd ∧ o.2.length ≤ 255) :
    ClientMessage os (clientDatagram mac (encodeOptions os ++ [dhcpEnd])) where
  length_ge := by
    simp only [clientDatagram, List.length_append, List.length_replicate, mac.property]
    simp only [dpChaddr, dpOptions]
    omega
  options_eq := options_clientDatagram ..
  complete := h

/-- The options of a message behind the client identifier, which begins with the hardware type. -/
def identified (t : UInt8) : List (UInt8 × List UInt8) :=
  [(61, [1, 2, 0, 0, 0, 0, 0xA]), (dhcpMessagetype, [t]), (dhcpIpaddress, wordBytes 0x0207A8C0)]

theorem clientMessage_identified (t : UInt8) :
    ClientMessage (identified t)
      (clientDatagram clientA (encodeOptions (identified t) ++ [dhcpEnd])) :=
  clientMessage_clientDatagram clientA
    (by simp [identified, dhcpMessagetype, dhcpIpaddress, dhcpPad, dhcpEnd])

/-- The hardware type is the type of a DISCOVER. -/
theorem dispatches_identified :
    ∃ p, ClientMessage (identified dhcpDiscover) p ∧
      treatment (overlay p Mem.zero) = .discover ∧
      Dispatches Mem.zero p (identified dhcpDiscover) := by
  have hp := clientMessage_identified dhcpDiscover
  have hdispatches := (dispatches_iff hp Mem.zero).mpr (by decide)
  exact ⟨_, hp, hdispatches.discover.mpr (by decide), hdispatches⟩

/-- The server takes it for a DISCOVER. -/
theorem request_read_as_discover :
    ∃ p, ClientMessage (identified dhcpRequest) p ∧
      dhcpMessageType (identified dhcpRequest) = some [dhcpRequest] ∧
      treatment (overlay p Mem.zero) = .discover ∧
      ¬ Dispatches Mem.zero p (identified dhcpRequest) := by
  have hp := clientMessage_identified dhcpRequest
  have htreat : treatment (overlay (clientDatagram clientA
      (encodeOptions (identified dhcpRequest) ++ [dhcpEnd])) Mem.zero) = .discover := by
    rw [treatment_eq_discover, hp.inspected]
    rfl
  refine ⟨_, hp, by decide, htreat, fun hd => ?_⟩
  exact absurd (hd.discover.mp htreat) (by decide)

end Adhoc
