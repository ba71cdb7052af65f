import Adhoc.Dhcp.Server

/-!
# An offer and the request that follows it

A DISCOVER looks for the client's entry and then for a vacant one, a REQUEST for
the entry with the address asked for.  The two agree on the client's entry.  They
agree on a vacant one only when it is the second of the table, because
`vacant_address` returns `config->entries + 1` for whichever entry is vacant.  So
a client without a lease can obtain one exactly when the second entry is vacant
(`offers_and_grants_iff`), and otherwise is offered an address in use
(`offers_unused_iff`).
-/

namespace Adhoc

open ByteMem

/-! ## Messages -/

/-- A DISCOVER of the client. -/
structure ClientDiscover (mac : Mac) (p : List UInt8) : Prop where
  chaddr : (p.drop dpChaddr).take 6 = mac.val
  type_eq : p[dpOptions + 2]? = some dhcpDiscover

/-- A REQUEST of the client for an address: its options begin with the message
type, and option 50 stands behind complete options with other codes. -/
structure ClientRequest (mac : Mac) (ip : UInt32) (p : List UInt8) : Prop where
  chaddr : (p.drop dpChaddr).take 6 = mac.val
  options : ∃ front rest, p.drop dpOptions =
      encodeOptions ((dhcpMessagetype, [dhcpRequest]) :: front) ++
        (encodeOption (dhcpIpaddress, wordBytes ip) ++ rest) ∧
    (∀ o ∈ front, o.1 ≠ 0 ∧ o.1 ≠ dhcpIpaddress ∧ o.1 ≠ dhcpEnd ∧ o.2.length ≤ 255) ∧
    (encodeOptions ((dhcpMessagetype, [dhcpRequest]) :: front) ++
      encodeOption (dhcpIpaddress, wordBytes ip)).length ≤ dpOptionsSize

/-- A reply of this type about this address. -/
structure IsReply (msgType : UInt8) (ip : UInt32) (msg : List UInt8) : Prop where
  op_eq : msg.take 1 = [2]
  yiaddr_eq : (msg.drop dpYiaddr).take 4 = wordBytes ip
  type_eq : (msg.drop dpOptions).take 3 = [dhcpMessagetype, 1, msgType]

/-- A DISCOVER of the client is answered with an OFFER, and every REQUEST of the
client for the address offered that follows is granted. -/
def OffersAndGrants (config : DhcpConfig) (entries : List DhcpEntry) (mac : Mac) : Prop :=
  ∀ dhcpData p, ClientDiscover mac p →
    ∃ r ip msg, udpRecvProc config entries dhcpData p true = some r ∧ r.reply = some msg ∧
      IsReply dhcpOffer ip msg ∧
      ∀ q, ClientRequest mac ip q →
        ∃ r' msg', udpRecvProc config r.entries r.dhcpData q true = some r' ∧
          r'.reply = some msg' ∧ IsReply dhcpAck ip msg' ∧
          ∃ entry ∈ r'.entries, entry.addr = ip ∧ entry.mac = mac

/-- The client has an entry, or some entry is vacant. -/
def CanServe (entries : List DhcpEntry) (mac : Mac) : Prop :=
  entryByMac entries mac ≠ none ∨ ∃ entry ∈ entries, isVacant entry = true

/-- The second entry of the table is vacant. -/
def SecondVacant (entries : List DhcpEntry) : Prop :=
  ∃ entry, entries[1]? = some entry ∧ isVacant entry = true

/-! ## Reading the messages -/

variable {config : DhcpConfig} {entries : List DhcpEntry} {mac : Mac} {ip : UInt32}
  {p : List UInt8}

theorem mac_overlay (h : (p.drop dpChaddr).take 6 = mac.val) (dhcpData : Mem) :
    Mac.ofMem (overlay p dhcpData) dpChaddr = mac := by
  have hlen : dpChaddr + 6 ≤ p.length := by
    have := congrArg List.length h
    rw [List.length_take, List.length_drop, mac.property] at this
    simp only [dpChaddr] at this ⊢
    omega
  exact Subtype.ext ((read_overlay hlen (by decide) dhcpData).trans h)

theorem udpRecvProc_discover (h : ClientDiscover mac p) (dhcpData : Mem) (alloc : Bool) :
    udpRecvProc config entries dhcpData p alloc =
      discover config entries (overlay p dhcpData) alloc := by
  have htype := overlay_apply h.type_eq (by decide) dhcpData
  simp only [udpRecvProc, if_pos htype]

/-- What the code reads from a REQUEST. -/
theorem ClientRequest.reads (h : ClientRequest mac ip p) (dhcpData : Mem) :
    overlay p dhcpData (dpOptions + 2) = dhcpRequest ∧
      ∃ ptr, requestedAddr (overlay p dhcpData) = some ptr ∧
        (overlay p dhcpData).word ptr = ip := by
  obtain ⟨front, rest, hdrop, hfront, hsize⟩ := h.options
  constructor
  · refine overlay_apply ?_ (by decide) dhcpData
    rw [← List.getElem?_drop, hdrop]
    rfl
  · generalize hall : (dhcpMessagetype, [dhcpRequest]) :: front = all at hdrop hsize
    have hother : ∀ o ∈ all, o.1 ≠ dhcpIpaddress ∧ o.2.length ≤ 255 := by
      intro o ho
      rw [← hall] at ho
      rcases List.mem_cons.mp ho with rfl | ho
      · decide
      · exact ⟨(hfront o ho).2.1, (hfront o ho).2.2.2⟩
    rw [← List.append_assoc] at hdrop
    generalize hbytes : encodeOptions all ++ encodeOption (dhcpIpaddress, wordBytes ip) = bytes
      at hdrop hsize
    simp only [dpOptionsSize] at hsize
    have hlen : dpOptions + bytes.length ≤ p.length := by
      have hsum := congrArg List.length hdrop
      rw [List.length_drop, List.length_append] at hsum
      have hpos : 0 < bytes.length := by
        rw [← hbytes]
        simp
      omega
    have hread : (overlay p dhcpData).read dpOptions bytes.length = bytes := by
      rw [read_overlay hlen (by simp only [dpOptions, dhcpDataSize]; omega), hdrop,
        List.take_left' rfl]
    rw [← hbytes] at hread hsize
    have hfour : (wordBytes ip).length ≤ 255 := by
      rw [length_wordBytes]
      omega
    obtain ⟨hfind, hvalue⟩ := findDhcpOption_encode hread hother hfour hsize
    generalize dpOptions + (encodeOptions all).length = at50 at hfind hvalue
    obtain ⟨-, hlength⟩ := read_encodeOption (hvalue.trans (List.append_nil _).symm) hfour
    have hlength' : overlay p dhcpData (at50 + 1) = 4 := UInt8.toNat_inj.mp hlength
    refine ⟨at50 + 2, ?_, ?_⟩
    · have hfind' : findDhcpOption (overlay p dhcpData) dpOptions dpOptionsSize dhcpIpaddress =
          some at50 := hfind
      rw [requestedAddr, hfind']
      exact if_neg (not_not.mpr hlength')
    · apply Mem.word_of_read
      have hsplit : encodeOption (dhcpIpaddress, wordBytes ip) =
          [dhcpIpaddress, 4] ++ wordBytes ip := rfl
      rw [hsplit, List.length_append, Mem.read_add] at hvalue
      exact (List.append_inj hvalue (by simp)).2

/-! ## Replies -/

theorem isReply_replyData {msgType : UInt8} {entry : DhcpEntry} {data : Mem}
    (hop : data.read dpOp 1 = [2]) (haddr : data.read dpYiaddr 4 = wordBytes ip) :
    IsReply msgType ip ((replyData config msgType entry data).read 0 dhcpDataSize) := by
  constructor
  · rw [← List.drop_zero (l := Mem.read ..), Mem.take_drop_read _ _ (by decide),
      read_replyData _ _ _ _ (by decide)]
    exact hop
  · rw [Mem.take_drop_read _ _ (by decide), Nat.zero_add, read_replyData _ _ _ _ (by decide)]
    exact haddr
  · rw [Mem.take_drop_read _ _ (by decide), Nat.zero_add]
    exact read_replyData_type ..

theorem isReply_offerData (config : DhcpConfig) (entry : DhcpEntry) (data : Mem) :
    IsReply dhcpOffer entry.addr ((offerData config entry data).read 0 dhcpDataSize) := by
  refine isReply_replyData ?_ (Mem.read_write_self _ dpYiaddr (wordBytes entry.addr))
  rw [Mem.read_write_disjoint _ (.inl (by decide)), markReply,
    Mem.read_write_disjoint _ (.inl (by decide)), Mem.read_write_disjoint _ (.inl (by decide))]
  exact Mem.read_write_self _ dpOp [2]

theorem isReply_ackData (config : DhcpConfig) (entry : DhcpEntry) {ptr : Nat} {data : Mem}
    (haddr : data.word ptr = ip) :
    IsReply dhcpAck ip ((ackData config entry ptr data).read 0 dhcpDataSize) := by
  refine isReply_replyData ?_ ?_
  · rw [markReply, Mem.read_write_disjoint _ (.inl (by decide)),
      Mem.read_write_disjoint _ (.inl (by decide))]
    exact Mem.read_write_self _ dpOp [2]
  · rw [markReply, Mem.read_write_disjoint _ (.inr (by decide)),
      Mem.read_write_disjoint _ (.inr (by decide)), Mem.read_write_disjoint _ (.inr (by decide)),
      ← haddr, Mem.wordBytes_word]
    have hself := data.read_write_self dpYiaddr (data.read ptr 4)
    rw [Mem.length_read] at hself
    exact hself

/-! ## Granting -/

theorem udpRecvProc_request (h : ClientRequest mac ip p) (dhcpData : Mem) (alloc : Bool) :
    udpRecvProc config entries dhcpData p alloc =
      request config entries (overlay p dhcpData) alloc := by
  have htype := (h.reads dhcpData).1
  have hne : ¬ overlay p dhcpData (dpOptions + 2) = dhcpDiscover := by rw [htype]; decide
  simp only [udpRecvProc, if_neg hne, if_pos htype]

/-- A REQUEST for the address of an entry that is vacant or the client's own. -/
theorem ClientRequest.granted {i : Nat} {entry : DhcpEntry}
    (hnodup : (entries.map DhcpEntry.addr).Nodup) (hfits : config.Fits)
    (hentry : entries[i]? = some entry)
    (hfree : isVacant entry = true ∨ entryByMac entries mac = some i)
    (h : ClientRequest mac entry.addr p) (dhcpData : Mem) :
    ∃ r msg, udpRecvProc config entries dhcpData p true = some r ∧ r.reply = some msg ∧
      IsReply dhcpAck entry.addr msg ∧ ∃ e ∈ r.entries, e.addr = entry.addr ∧ e.mac = mac := by
  obtain ⟨-, ptr, haddr, hword⟩ := h.reads dhcpData
  have hmac := mac_overlay h.chaddr dhcpData
  obtain ⟨e, hfreed, hsame, hvacant⟩ := freed_vacant hentry hfree
  have hip : entryByIp entries ((overlay p dhcpData).word ptr) = some i := by
    rw [hword]
    exact entryByIp_addr hnodup hentry
  rw [udpRecvProc_request h, request_granted haddr hip (by rw [hmac]; exact hfreed) hvacant,
    if_pos hfits, if_pos rfl]
  refine ⟨_, _, rfl, rfl, isReply_ackData config e hword, { e with mac := mac }, ?_, hsame, rfl⟩
  refine List.mem_of_getElem? (i := i) ?_
  rw [hmac, List.getElem?_modify, hfreed]
  exact congrArg some (if_pos rfl)

/-- A REQUEST for the address of an entry somebody else holds. -/
theorem ClientRequest.refused {i : Nat} {entry : DhcpEntry}
    (hnodup : (entries.map DhcpEntry.addr).Nodup) (hentry : entries[i]? = some entry)
    (htaken : isVacant entry = false) (hunbound : entryByMac entries mac = none)
    (h : ClientRequest mac entry.addr p) (dhcpData : Mem) {r : Reaction}
    (hr : udpRecvProc config entries dhcpData p true = some r) : r.reply = none := by
  obtain ⟨-, ptr, haddr, hword⟩ := h.reads dhcpData
  have hmac := mac_overlay h.chaddr dhcpData
  have hip : entryByIp entries ((overlay p dhcpData).word ptr) = some i := by
    rw [hword]
    exact entryByIp_addr hnodup hentry
  have hsame : (freeClient entries mac)[i]? = some entry := by
    rw [getElem?_freeClient, hentry, hunbound]
    rfl
  rw [udpRecvProc_request h, request_taken haddr hip (by rw [hmac]; exact hsame) htaken] at hr
  obtain rfl := Option.some.inj hr
  rfl

/-- The client's DISCOVER. -/
def discoverOf (mac : Mac) : List UInt8 :=
  clientDatagram mac [dhcpMessagetype, 1, dhcpDiscover, dhcpEnd]

/-- The client's REQUEST for an address. -/
def requestOf (mac : Mac) (ip : UInt32) : List UInt8 :=
  clientDatagram mac ([dhcpMessagetype, 1, dhcpRequest] ++
    (encodeOption (dhcpIpaddress, wordBytes ip) ++ [dhcpEnd]))

theorem chaddr_clientDatagram (mac : Mac) (options : List UInt8) :
    ((clientDatagram mac options).drop dpChaddr).take 6 = mac.val := by
  rw [clientDatagram, List.append_assoc, List.append_assoc,
    List.drop_left' (List.length_replicate ..), List.take_left' mac.property]

theorem options_clientDatagram (mac : Mac) (options : List UInt8) :
    (clientDatagram mac options).drop dpOptions = options := by
  rw [clientDatagram]
  refine List.drop_left' ?_
  rw [List.length_append, List.length_append, mac.property, List.length_replicate,
    List.length_replicate]
  rfl

theorem clientDiscover_discoverOf (mac : Mac) : ClientDiscover mac (discoverOf mac) where
  chaddr := chaddr_clientDatagram ..
  type_eq := by
    rw [← List.getElem?_drop, discoverOf, options_clientDatagram]
    rfl

theorem clientRequest_requestOf (mac : Mac) (ip : UInt32) :
    ClientRequest mac ip (requestOf mac ip) where
  chaddr := chaddr_clientDatagram ..
  options := ⟨[], [dhcpEnd], options_clientDatagram .., by simp, by simp [encodeOptions]⟩

/-! ## Agreement -/

theorem vacantAddress_eq_some (h : ∃ entry ∈ entries, isVacant entry = true) :
    vacantAddress entries = some 1 := by
  obtain ⟨entry, hmem, hvacant⟩ := h
  cases hfind : entries.findIdx? isVacant with
  | none =>
      have hnone := List.findIdx?_eq_none_iff.mp hfind entry hmem
      rw [hvacant] at hnone
      cases hnone
  | some i => rw [vacantAddress, hfind, Option.map_some]

/-- An OFFER that can be taken is of the client's own entry or of the second. -/
theorem OffersAndGrants.entry (h : OffersAndGrants config entries mac)
    (hnodup : (entries.map DhcpEntry.addr).Nodup) (hserve : CanServe entries mac) :
    config.Fits ∧ (entryByMac entries mac ≠ none ∨ SecondVacant entries) := by
  obtain ⟨r, ip, msg, hr, hreply, hoffer, hgrant⟩ :=
    h Mem.zero (discoverOf mac) (clientDiscover_discoverOf mac)
  have hdiscover := clientDiscover_discoverOf mac
  have hmac := mac_overlay hdiscover.chaddr Mem.zero
  rw [udpRecvProc_discover hdiscover] at hr
  obtain ⟨i, hfind⟩ : ∃ i, discoverEntry entries mac = some i := by
    unfold discoverEntry
    cases hown : entryByMac entries mac with
    | some i => exact ⟨i, rfl⟩
    | none => exact ⟨1, vacantAddress_eq_some (hserve.resolve_left fun hne => hne hown)⟩
  cases hi : entries[i]? with
  | none =>
      rw [discover_outside (by rw [hmac]; exact hfind) hi] at hr
      cases hr
  | some entry =>
      rw [discover_offers (by rw [hmac]; exact hfind) hi] at hr
      split at hr
      next hfits =>
        obtain rfl := Option.some.inj hr
        obtain rfl := Option.some.inj hreply
        refine ⟨hfits, ?_⟩
        by_contra hneither
        obtain ⟨hbound, hsecond⟩ := not_or.mp hneither
        have hunbound : entryByMac entries mac = none := not_not.mp hbound
        have hone : i = 1 := by
          rw [discoverEntry, hunbound,
            vacantAddress_eq_some (hserve.resolve_left fun hne => hne hunbound)] at hfind
          exact (Option.some.inj hfind).symm
        have htaken : isVacant entry = false :=
          Bool.eq_false_iff.mpr fun hvacant => hsecond ⟨entry, hone ▸ hi, hvacant⟩
        -- The address offered is that of an entry somebody else holds.
        obtain rfl : ip = entry.addr := by
          apply wordBytes_injective
          rw [← hoffer.yiaddr_eq]
          exact (isReply_offerData config entry _).yiaddr_eq
        obtain ⟨r', msg', hr', hreply', -⟩ := hgrant _ (clientRequest_requestOf mac entry.addr)
        have hrefused := (clientRequest_requestOf mac entry.addr).refused hnodup hi htaken
          hunbound _ hr'
        rw [hreply'] at hrefused
        cases hrefused
      next => cases hr

/-- For a client that could be served, the OFFER and the REQUEST agree exactly
when it has an entry or the second entry is vacant. -/
theorem offers_and_grants_iff (config : DhcpConfig) (entries : List DhcpEntry) (mac : Mac)
    (hnodup : (entries.map DhcpEntry.addr).Nodup) (hserve : CanServe entries mac) :
    OffersAndGrants config entries mac ↔
      config.Fits ∧ (entryByMac entries mac ≠ none ∨ SecondVacant entries) := by
  constructor
  · exact fun h => h.entry hnodup hserve
  · rintro ⟨hfits, hentry⟩ dhcpData p hp
    have hmac := mac_overlay hp.chaddr dhcpData
    have hfound : ∃ i entry, discoverEntry entries mac = some i ∧ entries[i]? = some entry ∧
        (isVacant entry = true ∨ entryByMac entries mac = some i) := by
      cases hown : entryByMac entries mac with
      | some i =>
          obtain ⟨entry, hi, -⟩ := entryByMac_eq_some hown
          exact ⟨i, entry, by rw [discoverEntry, hown], hi, .inr rfl⟩
      | none =>
          obtain ⟨entry, hone, hvacant⟩ := hentry.resolve_left fun hne => hne hown
          refine ⟨1, entry, ?_, hone, .inl hvacant⟩
          simp only [discoverEntry, hown]
          exact vacantAddress_eq_some ⟨entry, List.mem_of_getElem? hone, hvacant⟩
    obtain ⟨i, entry, hfind, hi, hfree⟩ := hfound
    rw [udpRecvProc_discover hp, discover_offers (by rw [hmac]; exact hfind) hi, if_pos hfits]
    refine ⟨_, entry.addr, _, rfl, rfl, isReply_offerData config entry _, ?_⟩
    intro q hq
    exact hq.granted hnodup hfits hi hfree _

/-- Three vacant entries. -/
def vacantTable : List DhcpEntry :=
  [⟨Mac.zero, 0x0207A8C0, 0x00FFFFFF, 86400⟩, ⟨Mac.zero, 0x0307A8C0, 0x00FFFFFF, 86400⟩,
    ⟨Mac.zero, 0x0407A8C0, 0x00FFFFFF, 86400⟩]

def clientA : Mac := .ofOctets 2 0 0 0 0 0xA

def clientB : Mac := .ofOctets 2 0 0 0 0 0xB

/-- A client asks for the second address and gets it. -/
def secondLeased : List DhcpEvent :=
  [.init plainConfig vacantTable true true, .recv (requestOf clientB 0x0307A8C0) true]

/-- Then a new client is offered the address in use and cannot have it, with two
entries vacant. -/
theorem offers_address_in_use :
    ∃ s, dhcpMachine.run {} secondLeased = some s ∧
      s.entries = vacantTable.modify 1 ({ · with mac := clientB }) ∧
      CanServe s.entries clientA ∧ ¬ OffersAndGrants plainConfig s.entries clientA := by
  have hrun : (dhcpMachine.run {} secondLeased).map DhcpState.entries =
      some (vacantTable.modify 1 ({ · with mac := clientB })) := by decide
  obtain ⟨s, hs, hentries⟩ := Option.map_eq_some_iff.mp hrun
  refine ⟨s, hs, hentries, ?_⟩
  rw [hentries]
  have hserve : CanServe (vacantTable.modify 1 ({ · with mac := clientB })) clientA :=
    .inr ⟨_, .head _, rfl⟩
  refine ⟨hserve, fun h => ?_⟩
  rcases (h.entry (by decide) hserve).2 with hown | ⟨entry, hone, hvacant⟩
  · exact absurd hown (by decide)
  · obtain rfl := Option.some.inj hone
    exact absurd hvacant (by decide)

/-- The first client of an empty table. -/
theorem offers_and_grants_vacant : OffersAndGrants plainConfig vacantTable clientA := by
  refine (offers_and_grants_iff plainConfig vacantTable clientA (by decide) ?_).mpr ?_
  · exact .inr ⟨_, .head _, rfl⟩
  · exact ⟨by decide, .inr ⟨_, rfl, rfl⟩⟩

/-! ## Which entry is offered -/

/-- The client's DISCOVER is answered with an OFFER of the address of `entry`. -/
def Offered (config : DhcpConfig) (entries : List DhcpEntry) (dhcpData : Mem) (p : List UInt8)
    (entry : DhcpEntry) : Prop :=
  ∃ r msg, udpRecvProc config entries dhcpData p true = some r ∧ r.reply = some msg ∧
    IsReply dhcpOffer entry.addr msg

/-- A DISCOVER finds the entry of the client, without one an entry that is vacant, and offers it.
With neither there is no OFFER. -/
def OffersUnused (config : DhcpConfig) (entries : List DhcpEntry) (mac : Mac) : Prop :=
  ∀ dhcpData p, ClientDiscover mac p →
    ((∃ entry ∈ entries, entry.mac = mac) →
      ∃ i entry, entryByMac entries mac = some i ∧ entries[i]? = some entry ∧ entry.mac = mac ∧
        Offered config entries dhcpData p entry) ∧
    ((∀ entry ∈ entries, entry.mac ≠ mac) → (∃ entry ∈ entries, isVacant entry = true) →
      ∃ i entry, vacantAddress entries = some i ∧ entries[i]? = some entry ∧
        isVacant entry = true ∧ Offered config entries dhcpData p entry) ∧
    ((∀ entry ∈ entries, entry.mac ≠ mac) → (∀ entry ∈ entries, isVacant entry = false) →
      ∀ alloc, ∃ r, udpRecvProc config entries dhcpData p alloc = some r ∧ r.reply = none)

theorem entryByMac_eq_none :
    entryByMac entries mac = none ↔ ∀ entry ∈ entries, entry.mac ≠ mac := by
  simp [entryByMac, List.findIdx?_eq_none_iff]

theorem entryByMac_isSome :
    entryByMac entries mac ≠ none ↔ ∃ entry ∈ entries, entry.mac = mac := by
  simp [entryByMac_eq_none]

theorem vacantAddress_eq_none (h : ∀ entry ∈ entries, isVacant entry = false) :
    vacantAddress entries = none := by
  rw [vacantAddress, List.findIdx?_eq_none_iff.mpr h, Option.map_none]

/-- The entry that a DISCOVER finds is offered exactly when the options fit. -/
theorem offered_iff {i : Nat} {entry : DhcpEntry} (h : ClientDiscover mac p)
    (hfind : discoverEntry entries mac = some i) (hentry : entries[i]? = some entry)
    (dhcpData : Mem) : Offered config entries dhcpData p entry ↔ config.Fits := by
  have hmac := mac_overlay h.chaddr dhcpData
  rw [Offered, udpRecvProc_discover h, discover_offers (by rw [hmac]; exact hfind) hentry]
  constructor
  · rintro ⟨r, msg, hr, -⟩
    by_contra hfits
    rw [if_neg hfits] at hr
    cases hr
  · intro hfits
    exact ⟨_, _, if_pos hfits, rfl, isReply_offerData config entry _⟩

/-- A client that could be served is offered nothing in use only where an entry of its own or the
second of the table is found. -/
theorem OffersUnused.entry (h : OffersUnused config entries mac) (hserve : CanServe entries mac) :
    config.Fits ∧ (entryByMac entries mac ≠ none ∨ SecondVacant entries) := by
  have hdiscover := clientDiscover_discoverOf mac
  obtain ⟨hown, hother, -⟩ := h Mem.zero (discoverOf mac) hdiscover
  cases hmac : entryByMac entries mac with
  | some i =>
      obtain ⟨j, entry, hfind, hentry, -, hoffered⟩ := hown (entryByMac_isSome.mp (by simp [hmac]))
      have hdisc : discoverEntry entries mac = some j := by rw [discoverEntry, hfind]
      exact ⟨(offered_iff hdiscover hdisc hentry Mem.zero).mp hoffered, .inl (by simp)⟩
  | none =>
      have hvacant := hserve.resolve_left fun hne => hne hmac
      obtain ⟨j, entry, hfind, hentry, hfree, hoffered⟩ :=
        hother (entryByMac_eq_none.mp hmac) hvacant
      have hdisc : discoverEntry entries mac = some j := by simp only [discoverEntry, hmac, hfind]
      obtain rfl : 1 = j := Option.some.inj ((vacantAddress_eq_some hvacant).symm.trans hfind)
      exact ⟨(offered_iff hdiscover hdisc hentry Mem.zero).mp hoffered, .inr ⟨entry, hentry, hfree⟩⟩

/-- Exactly where a client that could be served has an entry, or the second entry is vacant, and
the options fit, a DISCOVER is answered as it should. -/
theorem offers_unused_iff (config : DhcpConfig) (entries : List DhcpEntry) (mac : Mac) :
    OffersUnused config entries mac ↔
      (CanServe entries mac →
        config.Fits ∧ (entryByMac entries mac ≠ none ∨ SecondVacant entries)) := by
  constructor
  · exact fun h => h.entry
  · intro h dhcpData p hp
    refine ⟨fun hown => ?_, fun hnot hvacant => ?_, fun hnot htaken alloc => ?_⟩
    · have hne := entryByMac_isSome.mpr hown
      obtain ⟨i, hfind⟩ := Option.ne_none_iff_exists'.mp hne
      obtain ⟨entry, hentry, hmac⟩ := entryByMac_eq_some hfind
      have hdisc : discoverEntry entries mac = some i := by rw [discoverEntry, hfind]
      exact ⟨i, entry, hfind, hentry, hmac,
        (offered_iff hp hdisc hentry dhcpData).mpr (h (.inl hne)).1⟩
    · have hnone := entryByMac_eq_none.mpr hnot
      obtain ⟨hfits, hsecond⟩ := h (.inr hvacant)
      obtain ⟨entry, hentry, hfree⟩ := hsecond.resolve_left fun hne => hne hnone
      have hfind := vacantAddress_eq_some hvacant
      have hdisc : discoverEntry entries mac = some 1 := by
        simp only [discoverEntry, hnone, hfind]
      exact ⟨1, entry, hfind, hentry, hfree, (offered_iff hp hdisc hentry dhcpData).mpr hfits⟩
    · have hmac := mac_overlay hp.chaddr dhcpData
      have hdisc : discoverEntry entries mac = none := by
        simp only [discoverEntry, entryByMac_eq_none.mpr hnot, vacantAddress_eq_none htaken]
      exact ⟨_, by rw [udpRecvProc_discover hp, discover_none (by rw [hmac]; exact hdisc)], rfl⟩

/-- A vacant entry in front of one that is leased. -/
theorem offers_leased_address :
    ¬ OffersUnused plainConfig (vacantTable.modify 1 ({ · with mac := clientB })) clientA := by
  intro h
  have hserve : CanServe (vacantTable.modify 1 ({ · with mac := clientB })) clientA :=
    .inr ⟨_, .head _, rfl⟩
  rcases (h.entry hserve).2 with hown | ⟨entry, hone, hvacant⟩
  · exact absurd hown (by decide)
  · obtain rfl := Option.some.inj hone
    exact absurd hvacant (by decide)

end Adhoc
