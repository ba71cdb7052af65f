import Adhoc.Dhcp.Server

/-!
# What the server remembers of earlier datagrams

`dhcp_data` is static, and a datagram overwrites only as much of it as it is
long.  The fields behind its end, the octet of padding among them, are those of
an earlier datagram or reply, and `udp_recv_proc` reads and sends them like its
own.  So the server reacts to a datagram by the datagram and the table alone
exactly when the datagram covers all of `dhcp_data`, or can never be acted upon
(`historyIndependent_iff`).
-/

namespace Adhoc

open ByteMem EventMachine

/-! ## Reactions -/

/-- What the outside sees of the reaction to a datagram. -/
def react (config : DhcpConfig) (entries : List DhcpEntry) (dhcpData : Mem) (p : List UInt8)
    (alloc : Bool) : Option (Option (List UInt8) × List DhcpEntry) :=
  (udpRecvProc config entries dhcpData p alloc).map Reaction.visible

/-- Any two histories that lead to the same table lead to the same reaction. -/
def HistoryIndependent (p : List UInt8) : Prop :=
  ∀ s₁ s₂ config alloc, dhcpMachine.Reaches {} s₁ → dhcpMachine.Reaches {} s₂ →
    s₁.pcb = true → s₂.pcb = true → s₁.config = some config → s₂.config = some config →
    s₁.entries = s₂.entries →
    react config s₁.entries s₁.dhcpData p alloc = react config s₂.entries s₂.dhcpData p alloc

/-- The message in `v` is a DISCOVER, or a REQUEST that asks for an address. -/
def Actionable (v : Mem) : Prop :=
  v (dpOptions + 2) = dhcpDiscover ∨
    (v (dpOptions + 2) = dhcpRequest ∧ requestedAddr v ≠ none)

variable {config : DhcpConfig} {entries : List DhcpEntry} {dhcpData b b' v v' : Mem}
  {p : List UInt8} {alloc : Bool}

/-- Nothing is sent and nothing changes for a message that is not actionable. -/
theorem react_of_not_actionable (h : ¬ Actionable (overlay p dhcpData)) :
    react config entries dhcpData p alloc = some (none, entries) := by
  rw [Actionable, not_or, not_and, not_not] at h
  simp only [react, udpRecvProc, if_neg h.1]
  split
  next hrequest =>
    rw [request_noAddress (h.2 hrequest)]
    rfl
  next => rfl

/-! ## The octets that matter -/

theorem mac_congr (h : AgreeBelow dhcpDataSize v v') :
    Mac.ofMem v dpChaddr = Mac.ofMem v' dpChaddr :=
  Subtype.ext (h.read (by decide))

theorem requestedAddr_congr (h : AgreeBelow (dpOptions + dpOptionsSize) v v') :
    requestedAddr v = requestedAddr v' := by
  have hfind : findDhcpOption v dpOptions dpOptionsSize dhcpIpaddress =
      findDhcpOption v' dpOptions dpOptionsSize dhcpIpaddress := findDhcpOptionFrom_congr h _ _
  unfold requestedAddr
  rw [hfind]
  cases hat : findDhcpOption v' dpOptions dpOptionsSize dhcpIpaddress with
  | none => rfl
  | some ptr =>
      obtain ⟨-, hend, -⟩ := findDhcpOptionFrom_bounds hat
      simp only
      rw [h (ptr + 1) (by omega)]

/-- An address that is read lies in the options. -/
theorem requestedAddr_bounds {ptr : Nat} (h : requestedAddr v = some ptr) :
    ptr + 4 ≤ dpOptions + dpOptionsSize := by
  unfold requestedAddr at h
  split at h
  next => cases h
  next at50 hat =>
    obtain ⟨-, hend, -⟩ := findDhcpOptionFrom_bounds hat
    split at h
    next => cases h
    next hfour =>
      obtain rfl := Option.some.inj h
      rw [not_not.mp hfour] at hend
      simp only [UInt8.reduceToNat] at hend
      omega

theorem agreeBelow_replyData {n : Nat} (h : AgreeBelow n v v') (config : DhcpConfig)
    (msgType : UInt8) (entry : DhcpEntry) :
    AgreeBelow n (replyData config msgType entry v) (replyData config msgType entry v') :=
  ((h.write _ _).write _ _).write _ _

theorem agreeBelow_markReply {n : Nat} (h : AgreeBelow n v v') :
    AgreeBelow n (markReply v) (markReply v') :=
  ((h.write _ _).write _ _).write _ _

theorem agreeBelow_offerData {n : Nat} (h : AgreeBelow n v v') (config : DhcpConfig)
    (entry : DhcpEntry) : AgreeBelow n (offerData config entry v) (offerData config entry v') :=
  agreeBelow_replyData ((agreeBelow_markReply h).write _ _) config dhcpOffer entry

theorem agreeBelow_ackData {n : Nat} (h : AgreeBelow n v v') (config : DhcpConfig)
    (entry : DhcpEntry) {ptr : Nat} (hptr : ptr + 4 ≤ n) :
    AgreeBelow n (ackData config entry ptr v) (ackData config entry ptr v') := by
  unfold ackData
  rw [h.read hptr]
  exact agreeBelow_replyData (agreeBelow_markReply (h.write _ _)) config dhcpAck entry

theorem discover_congr (h : AgreeBelow dhcpDataSize v v') :
    (discover config entries v alloc).map Reaction.visible =
      (discover config entries v' alloc).map Reaction.visible := by
  have hmac := mac_congr h
  cases hfind : discoverEntry entries (Mac.ofMem v dpChaddr) with
  | none =>
      rw [discover_none hfind, discover_none (hmac ▸ hfind)]
      rfl
  | some i =>
      cases hi : entries[i]? with
      | none => rw [discover_outside hfind hi, discover_outside (hmac ▸ hfind) hi]
      | some entry =>
          have hdata := (agreeBelow_offerData h config entry).read (Nat.le_refl (0 + dhcpDataSize))
          rw [discover_offers hfind hi, discover_offers (hmac ▸ hfind) hi, hdata]
          split
          next => simp only [Option.map_some, Reaction.visible]
          next => rfl

theorem request_congr (h : AgreeBelow dhcpDataSize v v') :
    (request config entries v alloc).map Reaction.visible =
      (request config entries v' alloc).map Reaction.visible := by
  have hmac := mac_congr h
  have haddr' : requestedAddr v = requestedAddr v' :=
    requestedAddr_congr fun i hi => h i (Nat.lt_trans hi (by decide))
  cases haddr : requestedAddr v with
  | none =>
      rw [request_noAddress haddr, request_noAddress (haddr'.symm.trans haddr)]
      rfl
  | some ptr =>
      have hptr : ptr + 4 ≤ dhcpDataSize := Nat.le_trans (requestedAddr_bounds haddr) (by decide)
      have hword := h.word hptr
      rw [haddr] at haddr'
      cases hip : entryByIp entries (v.word ptr) with
      | none =>
          rw [request_unlisted haddr hip, request_unlisted haddr'.symm (hword ▸ hip), hmac]
          rfl
      | some i =>
          obtain ⟨old, hold, -⟩ := entryByIp_eq_some hip
          have hentry := getElem?_freeClient entries (Mac.ofMem v dpChaddr) i
          rw [hold, Option.map_some] at hentry
          generalize (if entryByMac entries (Mac.ofMem v dpChaddr) = some i then freeEntry old
            else old) = entry at hentry
          have hentry' := hentry
          rw [hmac] at hentry'
          cases hvacant : isVacant entry with
          | false =>
              rw [request_taken haddr hip hentry hvacant,
                request_taken haddr'.symm (hword ▸ hip) hentry' hvacant, hmac]
              rfl
          | true =>
              have hdata := (agreeBelow_ackData h config entry hptr).read
                (Nat.le_refl (0 + dhcpDataSize))
              rw [request_granted haddr hip hentry hvacant,
                request_granted haddr'.symm (hword ▸ hip) hentry' hvacant, hmac, hdata]
              split
              next =>
                cases alloc with
                | false =>
                    simp only [Option.map_some, Reaction.visible, Bool.false_eq_true, if_false]
                | true => simp only [Option.map_some, Reaction.visible, if_true]
              next => rfl

/-- The reaction depends on the octets of `dhcp_data` alone. -/
theorem react_congr (h : AgreeBelow dhcpDataSize (overlay p b) (overlay p b')) :
    react config entries b p alloc = react config entries b' p alloc := by
  have htype := h (dpOptions + 2) (by decide)
  simp only [react, udpRecvProc, htype]
  split
  next => exact discover_congr h
  next =>
    split
    next => exact request_congr h
    next => rfl

/-- A datagram that covers `dhcp_data` leaves nothing of what it held. -/
theorem agreeBelow_overlay (h : dhcpDataSize ≤ p.length) (b b' : Mem) :
    AgreeBelow dhcpDataSize (overlay p b) (overlay p b') := by
  intro i hi
  have hp : p[i]? = some (p.get ⟨i, Nat.lt_of_lt_of_le hi h⟩) :=
    List.getElem?_eq_getElem (Nat.lt_of_lt_of_le hi h)
  rw [overlay_apply hp hi, overlay_apply hp hi]

/-! ## Histories -/

/-- A message of 516 octets, stored by a server without a table. -/
def storeHistory (b : Mem) (entries : List DhcpEntry) : List DhcpEvent :=
  [.init plainConfig [] true true, .recv (b.read 0 dhcpDataSize) true,
    .init plainConfig entries true true]

/-- A server without a table acts on nothing. -/
theorem udpRecvProc_nil (config : DhcpConfig) (dhcpData : Mem) (p : List UInt8) (alloc : Bool) :
    udpRecvProc config [] dhcpData p alloc = some ⟨overlay p dhcpData, [], none⟩ := by
  unfold udpRecvProc
  simp only
  split
  next => exact discover_none rfl
  next =>
    split
    next =>
      cases haddr : requestedAddr (overlay p dhcpData) with
      | none => exact request_noAddress haddr
      | some ptr => exact request_unlisted haddr rfl
    next => rfl

theorem run_storeHistory (b : Mem) (entries : List DhcpEntry) :
    dhcpMachine.run {} (storeHistory b entries) =
      some ⟨true, some plainConfig, entries, overlay (b.read 0 dhcpDataSize) Mem.zero⟩ := by
  simp only [storeHistory, Machine.run, dhcpMachine, dhcpStep, dhservInit, Option.bind_some,
    Bool.not_true, Bool.false_eq_true, if_false, udpRecvProc_nil, Option.map_some]
  rfl

/-- The message stored is the whole of `dhcp_data`. -/
theorem agreeBelow_stored (b : Mem) :
    AgreeBelow dhcpDataSize (overlay (b.read 0 dhcpDataSize) Mem.zero) b := by
  intro i hi
  have hread : (b.read 0 dhcpDataSize)[i]? = some (b i) := by
    have hi' : i < (b.read 0 dhcpDataSize).length := by rw [Mem.length_read]; exact hi
    rw [List.getElem?_eq_getElem hi', Mem.getElem_read, Nat.zero_add]
  exact overlay_apply hread hi _

/-- A table that serves whoever asks for this address or for none. -/
def openTable (ip : UInt32) : List DhcpEntry :=
  [⟨Mac.zero, ip, 0, 0⟩, ⟨Mac.zero, ip, 0, 0⟩]

theorem entryByIp_open (ip : UInt32) : entryByIp (openTable ip) ip = some 0 := by
  simp [entryByIp, openTable, List.findIdx?_cons]

theorem discoverEntry_open (ip : UInt32) (mac : Mac) :
    ∃ i entry, discoverEntry (openTable ip) mac = some i ∧ (openTable ip)[i]? = some entry := by
  cases hown : entryByMac (openTable ip) mac with
  | some i =>
      obtain ⟨entry, hi, -⟩ := entryByMac_eq_some hown
      exact ⟨i, entry, by rw [discoverEntry, hown], hi⟩
  | none =>
      refine ⟨1, ⟨Mac.zero, ip, 0, 0⟩, ?_, rfl⟩
      rw [discoverEntry, hown]
      rfl

/-- The octet of padding of a reply is the one in `dhcp_data`. -/
theorem replyData_padding (msgType : UInt8) (entry : DhcpEntry) (data : Mem) :
    replyData plainConfig msgType entry data 515 = data 515 := by
  have hlen := length_fillOptions msgType plainConfig.domain plainConfig.dns entry.lease
    plainConfig.addr plainConfig.addr entry.subnet
  rw [replyData, Mem.write_of_ge _ (by rw [hlen]; decide),
    Mem.write_of_ge _ (by rw [List.length_replicate]; decide), Mem.write_of_ge _ (by decide)]

theorem markReply_padding (data : Mem) : markReply data 515 = data 515 := by
  rw [markReply, Mem.write_of_ge _ (by decide), Mem.write_of_ge _ (by decide),
    Mem.write_of_ge _ (by decide)]

theorem getElem?_reply (m : Mem) : (m.read 0 dhcpDataSize)[515]? = some (m 515) := by
  rw [List.getElem?_eq_getElem (by rw [Mem.length_read]; decide), Mem.getElem_read]

/-- Over an open table an actionable message is answered, padding and all. -/
theorem react_open {ip : UInt32} (h : Actionable (overlay p b))
    (hip : ∀ ptr, requestedAddr (overlay p b) = some ptr → (overlay p b).word ptr = ip) :
    ∃ msg es, react plainConfig (openTable ip) b p true = some (some msg, es) ∧
      msg[515]? = some (overlay p b 515) := by
  have hfits : plainConfig.Fits := by decide
  rcases h with hdiscover | ⟨hrequest, haddr⟩
  · obtain ⟨i, entry, hfind, hi⟩ := discoverEntry_open ip (Mac.ofMem (overlay p b) dpChaddr)
    refine ⟨(offerData plainConfig entry (overlay p b)).read 0 dhcpDataSize, openTable ip, ?_, ?_⟩
    · simp only [react, udpRecvProc, if_pos hdiscover]
      rw [discover_offers hfind hi, if_pos hfits, if_pos rfl, Option.map_some, Reaction.visible]
    · rw [getElem?_reply, offerData, replyData_padding,
        Mem.write_of_ge _ (by rw [length_wordBytes]; decide), markReply_padding]
  · have hne : ¬ overlay p b (dpOptions + 2) = dhcpDiscover := by rw [hrequest]; decide
    obtain ⟨ptr, hptr⟩ := Option.ne_none_iff_exists'.mp haddr
    have hfound : entryByIp (openTable ip) ((overlay p b).word ptr) = some 0 := by
      rw [hip ptr hptr]
      exact entryByIp_open ip
    obtain ⟨e, hfreed, -, hvacant⟩ : ∃ e,
        (freeClient (openTable ip) (Mac.ofMem (overlay p b) dpChaddr))[0]? = some e ∧
          e.addr = ip ∧ isVacant e = true :=
      freed_vacant (show (openTable ip)[0]? = some ⟨Mac.zero, ip, 0, 0⟩ from rfl) (.inl rfl)
    refine ⟨(ackData plainConfig e ptr (overlay p b)).read 0 dhcpDataSize,
      (freeClient (openTable ip) (Mac.ofMem (overlay p b) dpChaddr)).modify 0
        ({ · with mac := Mac.ofMem (overlay p b) dpChaddr }), ?_, ?_⟩
    · simp only [react, udpRecvProc, if_neg hne, if_pos hrequest]
      rw [request_granted hptr hfound hfreed hvacant, if_pos hfits, if_pos rfl, Option.map_some,
        Reaction.visible]
    · rw [getElem?_reply, ackData, replyData_padding, markReply_padding,
        Mem.write_of_ge _ (by rw [Mem.length_read]; decide)]

/-! ## Independence -/

/-- The same buffer with another octet of padding. -/
def otherPadding (b : Mem) : Mem := b.write 515 [b 515 + 1]

theorem agreeBelow_otherPadding (b : Mem) : AgreeBelow 515 b (otherPadding b) :=
  fun _ hi => (b.write_of_lt _ hi).symm

theorem actionable_congr (h : AgreeBelow 515 v v') : Actionable v ↔ Actionable v' := by
  rw [Actionable, Actionable, h (dpOptions + 2) (by decide), requestedAddr_congr h]

/-- A datagram that can be acted upon and does not cover `dhcp_data` depends on
what was there. -/
theorem not_historyIndependent {p : List UInt8} (hshort : p.length < dhcpDataSize)
    (h : Actionable (overlay p b)) : ¬ HistoryIndependent p := by
  intro hindep
  have hsame : AgreeBelow 515 (overlay p b) (overlay p (otherPadding b)) :=
    (agreeBelow_otherPadding b).write 0 _
  obtain ⟨ip, hip⟩ : ∃ ip, ∀ ptr, requestedAddr (overlay p b) = some ptr →
      (overlay p b).word ptr = ip := by
    cases haddr : requestedAddr (overlay p b) with
    | none => exact ⟨0, fun ptr hptr => nomatch hptr⟩
    | some ptr =>
        refine ⟨(overlay p b).word ptr, fun ptr' hptr' => ?_⟩
        rw [Option.some.inj hptr']
  have hip' : ∀ ptr, requestedAddr (overlay p (otherPadding b)) = some ptr →
      (overlay p (otherPadding b)).word ptr = ip := by
    intro ptr hptr
    rw [← requestedAddr_congr hsame] at hptr
    rw [← hsame.word (requestedAddr_bounds hptr)]
    exact hip ptr hptr
  -- Two histories that differ in one octet of padding.
  have hreact := hindep _ _ plainConfig true ⟨_, run_storeHistory b (openTable ip)⟩
    ⟨_, run_storeHistory (otherPadding b) (openTable ip)⟩ rfl rfl rfl rfl rfl
  have hstored : ∀ m, react plainConfig (openTable ip)
      (overlay (m.read 0 dhcpDataSize) Mem.zero) p true =
        react plainConfig (openTable ip) m p true :=
    fun m => react_congr ((agreeBelow_stored m).write 0 _)
  obtain ⟨msg, es, hmsg, hlast⟩ := react_open h hip
  obtain ⟨msg', es', hmsg', hlast'⟩ := react_open ((actionable_congr hsame).mp h) hip'
  rw [hstored, hstored, hmsg, hmsg', Option.some.injEq, Prod.mk.injEq, Option.some.injEq] at hreact
  rw [hreact.1, hlast', Option.some.injEq] at hlast
  have hbehind : ∀ m, overlay p m 515 = m 515 := fun m => by
    refine Mem.write_of_ge _ ?_
    rw [List.length_take]
    simp only [dhcpDataSize] at hshort ⊢
    omega
  have hnext : otherPadding b 515 = b 515 + 1 := Mem.write_of_mem _ (Nat.le_refl 515) (by simp)
  rw [hbehind, hbehind, hnext] at hlast
  exact absurd hlast (by simp)

/-- The reaction to a datagram is independent of the history exactly when the
datagram covers `dhcp_data` or can never be acted upon. -/
theorem historyIndependent_iff (p : List UInt8) :
    HistoryIndependent p ↔
      dhcpDataSize ≤ p.length ∨ ∀ b, ¬ Actionable (overlay p b) := by
  constructor
  · intro h
    by_contra hneither
    obtain ⟨hshort, hsome⟩ := not_or.mp hneither
    obtain ⟨b, hact⟩ := not_forall_not.mp hsome
    exact not_historyIndependent (Nat.lt_of_not_le hshort) hact h
  · rintro (hcovers | hnever) s₁ s₂ config alloc - - - - - - hentries
    · rw [hentries]
      exact react_congr (agreeBelow_overlay hcovers _ _)
    · rw [react_of_not_actionable (hnever _), react_of_not_actionable (hnever _), hentries]

/-- A REQUEST that ends behind the code of option 50. -/
def shortRequest : List UInt8 := clientDatagram (.ofOctets 2 0 0 0 0 0xA) [53, 1, 3, 50]

/-- One entry, vacant. -/
def oneVacant : List DhcpEntry := [⟨Mac.zero, 0x0207A8C0, 0x00FFFFFF, 86400⟩]

/-- Nothing but the start of the server. -/
def emptyHistory : List DhcpEvent := [.init plainConfig oneVacant true true]

/-- Another client's INFORM, which is ignored. -/
def informHistory : List DhcpEvent :=
  emptyHistory ++
    [.recv (clientDatagram (.ofOctets 2 0 0 0 0 0xB) [53, 1, 8, 50, 4, 0xC0, 0xA8, 7, 2, 255]) true]

/-- What a server with one entry does with the short REQUEST after a history. -/
def shortReaction (es : List DhcpEvent) : Option (Option (List UInt8) × List DhcpEntry) :=
  (dhcpMachine.run {} es).bind fun s => react plainConfig s.entries s.dhcpData shortRequest true

/-- The short REQUEST is ignored after the first history.  After the second it is
granted the address the other client named. -/
theorem shortRequest_reads_inform :
    shortReaction emptyHistory = some (none, oneVacant) ∧
      (shortReaction informHistory).map Prod.snd =
        some [⟨.ofOctets 2 0 0 0 0 0xA, 0x0207A8C0, 0x00FFFFFF, 86400⟩] ∧
      ¬ HistoryIndependent shortRequest := by
  have hempty : shortReaction emptyHistory = some (none, oneVacant) := by decide
  have hinform : (shortReaction informHistory).map Prod.snd =
      some [⟨.ofOctets 2 0 0 0 0 0xA, 0x0207A8C0, 0x00FFFFFF, 86400⟩] := by decide
  refine ⟨hempty, hinform, fun h => ?_⟩
  have hstate : ∀ es ∈ [emptyHistory, informHistory],
      (dhcpMachine.run {} es).map (fun s => (s.pcb, s.config, s.entries)) =
        some (true, some plainConfig, oneVacant) := by decide
  obtain ⟨s₁, hrun₁, hs₁⟩ := Option.map_eq_some_iff.mp (hstate emptyHistory (by simp))
  obtain ⟨s₂, hrun₂, hs₂⟩ := Option.map_eq_some_iff.mp (hstate informHistory (by simp))
  simp only [Prod.mk.injEq] at hs₁ hs₂
  have hsame := h s₁ s₂ plainConfig true ⟨_, hrun₁⟩ ⟨_, hrun₂⟩ hs₁.1 hs₂.1 hs₁.2.1 hs₂.2.1
    (hs₁.2.2.trans hs₂.2.2.symm)
  rw [shortReaction, hrun₁, Option.bind_some, hsame] at hempty
  rw [shortReaction, hrun₂, Option.bind_some, hempty] at hinform
  exact absurd hinform (by decide)

end Adhoc
