import Adhoc.Dhcp.Offer

/-!
# What a reply carries

An OFFER or an ACK is the client's message, rewritten in place.  The fields in
front of the cookie stay, but for `dp_op`, `dp_secs`, `dp_flags` and `dp_yiaddr`,
and the options area holds what the entry and the configuration say about the
lease.  `find_dhcp_option` reads it back (`reply_carries_lease`).
-/

namespace Adhoc

open ByteMem

/-! ## The reply -/

/-- The offsets of more fields of `DHCP_TYPE`. -/
@[simp] def dpHtype : Nat := 1
@[simp] def dpHlen : Nat := 2
@[simp] def dpXid : Nat := 4
@[simp] def dpCiaddr : Nat := 12
@[simp] def dpGiaddr : Nat := 24

/-- The fields of the client that a reply keeps, with their lengths. -/
def keptFields : List (Nat × Nat) :=
  [(dpHtype, 1), (dpHlen, 1), (dpXid, 4), (dpCiaddr, 4), (dpGiaddr, 4), (dpChaddr, 16)]

/-- The octets of an option of a message, as a receiver finds them with `find_dhcp_option`. -/
def messageOption (msg : List UInt8) (attr : UInt8) : Option (List UInt8) :=
  optionValue (Mem.zero.write 0 msg) dpOptions dpOptionsSize attr

/-- The options of a reply about the entry. -/
def DhcpConfig.options (config : DhcpConfig) (msgType : UInt8) (entry : DhcpEntry) :
    List (UInt8 × List UInt8) :=
  leaseOptions msgType config.domain config.dns entry.lease config.addr config.addr entry.subnet

/-- The message answers the datagram `p` with the lease of the entry. -/
structure LeaseReply (config : DhcpConfig) (msgType : UInt8) (entry : DhcpEntry)
    (p msg : List UInt8) : Prop where
  kept : ∀ f ∈ keptFields, (msg.drop f.1).take f.2 = (p.drop f.1).take f.2
  op_eq : msg.take 1 = [2]
  magic_eq : (msg.drop dpMagic).take 4 = magicCookie
  yiaddr_eq : (msg.drop dpYiaddr).take 4 = wordBytes entry.addr
  /-- The options and the `DHCP_END` behind the last one fit. -/
  length_le : (encodeOptions (config.options msgType entry) ++ [dhcpEnd]).length ≤ dpOptionsSize
  area_eq : (msg.drop dpOptions).take
    (encodeOptions (config.options msgType entry) ++ [dhcpEnd]).length =
      encodeOptions (config.options msgType entry) ++ [dhcpEnd]
  type_eq : messageOption msg dhcpMessagetype = some [msgType]
  serverid_eq : messageOption msg dhcpServerid = some (wordBytes config.addr)
  leasetime_eq : messageOption msg dhcpLeasetime = some (wordBytes entry.lease).reverse
  subnet_eq : messageOption msg dhcpSubnetmask = some (wordBytes entry.subnet)
  router_eq : messageOption msg dhcpRouter =
    if config.addr = 0 then none else some (wordBytes config.addr)
  domain_eq : messageOption msg dhcpDnsdomain = config.domain
  dns_eq : messageOption msg dhcpDnsserver =
    if config.dns = 0 then none else some (wordBytes config.dns)

/-- The answer `msg` to the datagram `p`, which `data` holds, is an OFFER about the entry that a
DISCOVER finds, or an ACK about the entry with the address that a REQUEST asks for. -/
def CarriesLease (config : DhcpConfig) (entries : List DhcpEntry) (data : Mem)
    (p msg : List UInt8) : Prop :=
  (data (dpOptions + 2) = dhcpDiscover ∧
    ∃ i entry, discoverEntry entries (Mac.ofMem data dpChaddr) = some i ∧
      entries[i]? = some entry ∧ LeaseReply config dhcpOffer entry p msg) ∨
  (data (dpOptions + 2) = dhcpRequest ∧
    ∃ ptr i entry, requestedAddr data = some ptr ∧ entryByIp entries (data.word ptr) = some i ∧
      entries[i]? = some entry ∧ LeaseReply config dhcpAck entry p msg)

variable {config : DhcpConfig} {entries : List DhcpEntry} {entry : DhcpEntry} {msgType : UInt8}
  {data dhcpData : Mem} {p msg : List UInt8} {alloc : Bool} {r : Reaction}

/-! ## The options -/

/-- The domain leaves room for the other options. -/
def DhcpConfig.DomainFits (config : DhcpConfig) : Prop :=
  ∀ name, config.domain = some name → 36 + name.length ≤ dpOptionsSize

theorem DhcpConfig.DomainFits.fits (h : config.DomainFits) : config.Fits := by
  have hrouter : (if config.addr ≠ 0 then 6 else 0) ≤ 6 := by split <;> decide
  have hdns : (if config.dns ≠ 0 then 6 else 0) ≤ 6 := by split <;> decide
  unfold DhcpConfig.Fits optionsLength
  cases hdomain : config.domain with
  | none =>
      simp only [Option.elim, dpOptionsSize]
      omega
  | some name =>
      have hname := h name hdomain
      simp only [dpOptionsSize] at hname
      simp only [Option.elim, dpOptionsSize]
      omega

theorem length_config_options (config : DhcpConfig) (msgType : UInt8) (entry : DhcpEntry) :
    (encodeOptions (config.options msgType entry) ++ [dhcpEnd]).length =
      optionsLength config.domain config.dns config.addr := by
  rw [DhcpConfig.options, ← fillOptions_eq, length_fillOptions]

/-- No option of a reply is longer than its length octet can say. -/
theorem DhcpConfig.DomainFits.option_le (h : config.DomainFits) (msgType : UInt8)
    (entry : DhcpEntry) : ∀ o ∈ config.options msgType entry, o.2.length ≤ 255 := by
  intro o ho
  simp only [DhcpConfig.options, leaseOptions, List.mem_append, List.mem_cons,
    List.not_mem_nil, or_false] at ho
  rcases ho with (((rfl | rfl | rfl | rfl) | ho) | ho) | ho
  · exact (by decide : 1 ≤ 255)
  · exact (by decide : 4 ≤ 255)
  · exact (by decide : 4 ≤ 255)
  · exact (by decide : 4 ≤ 255)
  · split at ho
    next =>
      obtain rfl := List.mem_singleton.mp ho
      exact (by decide : 4 ≤ 255)
    next => cases ho
  · cases hdomain : config.domain with
    | none =>
        rw [hdomain] at ho
        cases ho
    | some name =>
        rw [hdomain] at ho
        obtain rfl := List.mem_singleton.mp ho
        have hname := h name hdomain
        simp only [dpOptionsSize] at hname
        show name.length ≤ 255
        omega
  · split at ho
    next =>
      obtain rfl := List.mem_singleton.mp ho
      exact (by decide : 4 ≤ 255)
    next => cases ho

/-- The first option with a code among the options of a reply. -/
def DhcpConfig.option (config : DhcpConfig) (msgType : UInt8) (entry : DhcpEntry)
    (attr : UInt8) : Option (List UInt8) :=
  ((config.options msgType entry).find? fun o => o.1 = attr).map Prod.snd

/-- The options that a reply may leave out. -/
theorem option_optional (config : DhcpConfig) (msgType : UInt8) (entry : DhcpEntry) :
    config.option msgType entry dhcpRouter =
      (if config.addr = 0 then none else some (wordBytes config.addr)) ∧
    config.option msgType entry dhcpDnsdomain = config.domain ∧
    config.option msgType entry dhcpDnsserver =
      if config.dns = 0 then none else some (wordBytes config.dns) := by
  by_cases haddr : config.addr = 0 <;> by_cases hdns : config.dns = 0 <;>
    cases hdomain : config.domain <;>
    simp [DhcpConfig.option, DhcpConfig.options, leaseOptions, haddr, hdns, hdomain,
      dhcpMessagetype, dhcpServerid, dhcpLeasetime, dhcpSubnetmask, dhcpRouter, dhcpDnsdomain,
      dhcpDnsserver]

/-- The options area of a reply, and what is found in it. -/
theorem messageOption_replyData (h : config.DomainFits) {attr : UInt8} (hpad : attr ≠ dhcpPad)
    (hend : attr ≠ dhcpEnd) :
    messageOption ((replyData config msgType entry data).read 0 dhcpDataSize) attr =
      config.option msgType entry attr := by
  have hagree : AgreeBelow (dpOptions + dpOptionsSize)
      (Mem.zero.write 0 ((replyData config msgType entry data).read 0 dhcpDataSize))
      (replyData config msgType entry data) :=
    fun i hi => AgreeBelow.of_read _ _ dhcpDataSize i (Nat.lt_trans hi (by decide))
  have hsize := Nat.le_trans (Nat.le_of_eq (length_config_options config msgType entry)) h.fits
  have hbytes : fillOptions msgType config.domain config.dns entry.lease config.addr config.addr
      entry.subnet = encodeOptions (config.options msgType entry) ++ [dhcpEnd] := fillOptions_eq ..
  rw [messageOption, optionValue_congr hagree]
  apply optionValue_encode _ (h.option_le msgType entry) (by simpa using hsize) _ hpad hend
  · have hself := ((data.write dpMagic magicCookie).write dpOptions
      (List.replicate dpOptionsSize 0)).read_write_self dpOptions
      (encodeOptions (config.options msgType entry) ++ [dhcpEnd])
    rw [List.length_append] at hself
    rw [replyData, hbytes]
    exact hself
  · intro i hi hlt
    have hbehind : dpOptions + (encodeOptions (config.options msgType entry) ++
        [dhcpEnd]).length ≤ dpOptions + i := by
      rw [List.length_append]
      exact Nat.add_le_add_left hi dpOptions
    have hzeros : dpOptions + i - dpOptions <
        (List.replicate dpOptionsSize (0 : UInt8)).length := by
      rw [List.length_replicate, Nat.add_sub_cancel_left]
      exact hlt
    rw [replyData, hbytes, Mem.write_of_ge _ hbehind,
      Mem.write_of_mem _ (Nat.le_add_right _ _) hzeros]
    exact List.getElem_replicate _

/-! ## The message -/

/-- A reply leaves the kept fields alone. -/
theorem read_kept {f : Nat × Nat} (hf : f ∈ keptFields) :
    f.1 + f.2 ≤ dpMagic ∧ (f.1 + f.2 ≤ dpYiaddr ∨ dpYiaddr + 4 ≤ f.1) ∧
      ∀ data, (markReply data).read f.1 f.2 = data.read f.1 f.2 := by
  have hplace : ∀ f ∈ keptFields, f.1 + f.2 ≤ dpMagic ∧
      (f.1 + f.2 ≤ dpYiaddr ∨ dpYiaddr + 4 ≤ f.1) ∧ dpOp + 1 ≤ f.1 ∧
      (f.1 + f.2 ≤ dpSecs ∨ dpFlags + 2 ≤ f.1) := by decide
  obtain ⟨hmagic, hyiaddr, hop, hflags⟩ := hplace f hf
  refine ⟨hmagic, hyiaddr, fun data => ?_⟩
  simp only [dpOp, dpSecs, dpFlags] at hop hflags
  rw [markReply, Mem.read_write_disjoint _ (by simp; omega),
    Mem.read_write_disjoint _ (by simp; omega), Mem.read_write_disjoint _ (by simp; omega)]

/-- The reply made of a message that has the kept fields of the datagram. -/
theorem leaseReply_replyData (dhcpData : Mem) (hdomain : config.DomainFits)
    (hp : dpOptions ≤ p.length)
    (hkept : ∀ f ∈ keptFields, data.read f.1 f.2 = (overlay p dhcpData).read f.1 f.2)
    (hreply : IsReply msgType entry.addr
      ((replyData config msgType entry data).read 0 dhcpDataSize)) :
    LeaseReply config msgType entry p
      ((replyData config msgType entry data).read 0 dhcpDataSize) := by
  have hsize := Nat.le_trans (Nat.le_of_eq (length_config_options config msgType entry))
    hdomain.fits
  obtain ⟨hrouter, hname, hdns⟩ := option_optional config msgType entry
  refine ⟨?_, hreply.op_eq, ?_, hreply.yiaddr_eq, hsize, ?_, ?_, ?_, ?_, ?_, ?_, ?_, ?_⟩
  · intro f hf
    have hplace := (read_kept hf).1
    simp only [dpMagic] at hplace
    rw [Mem.take_drop_read _ _ (by simp; omega), Nat.zero_add, read_replyData _ _ _ _ hplace,
      hkept f hf, read_overlay (by simp at hp; omega) (by simp; omega)]
  · rw [Mem.take_drop_read _ _ (by decide), Nat.zero_add, replyData,
      Mem.read_write_disjoint _ (.inl (by decide)), Mem.read_write_disjoint _ (.inl (by decide))]
    exact Mem.read_write_self _ dpMagic magicCookie
  · rw [Mem.take_drop_read _ _ (by simp at hsize ⊢; omega), Nat.zero_add, replyData,
      fillOptions_eq]
    exact Mem.read_write_self _ dpOptions _
  · exact messageOption_replyData hdomain (by decide) (by decide)
  · exact messageOption_replyData hdomain (by decide) (by decide)
  · exact messageOption_replyData hdomain (by decide) (by decide)
  · exact messageOption_replyData hdomain (by decide) (by decide)
  · exact (messageOption_replyData hdomain (by decide) (by decide)).trans hrouter
  · exact (messageOption_replyData hdomain (by decide) (by decide)).trans hname
  · exact (messageOption_replyData hdomain (by decide) (by decide)).trans hdns

/-- An OFFER sent. -/
theorem discover_sends (h : discover config entries data alloc = some r)
    (hreply : r.reply = some msg) :
    ∃ i entry, discoverEntry entries (Mac.ofMem data dpChaddr) = some i ∧
      entries[i]? = some entry ∧ msg = (offerData config entry data).read 0 dhcpDataSize := by
  obtain rfl | ⟨i, entry, hfound, hentry, rfl⟩ := discover_cases h
  · cases hreply
  · cases alloc with
    | false => cases hreply
    | true => exact ⟨i, entry, hfound, hentry, (Option.some.inj hreply).symm⟩

/-- An ACK sent. -/
theorem request_sends (h : request config entries data alloc = some r)
    (hreply : r.reply = some msg) :
    ∃ ptr i entry, requestedAddr data = some ptr ∧ entryByIp entries (data.word ptr) = some i ∧
      entries[i]? = some entry ∧ msg = (ackData config entry ptr data).read 0 dhcpDataSize := by
  obtain rfl | ⟨ptr, haddr, ⟨-, hnone⟩ | ⟨i, entry, hip, hentry, -, rfl⟩⟩ := request_cases h
  · cases hreply
  · rw [hnone] at hreply
    cases hreply
  · obtain ⟨old, hold, -⟩ := entryByIp_eq_some hip
    refine ⟨ptr, i, old, haddr, hip, hold, ?_⟩
    -- Freeing the client's entry changes nothing that a reply carries.
    rw [getElem?_freeClient, hold, Option.map_some, Option.some.injEq] at hentry
    have hsame : ackData config entry ptr data = ackData config old ptr data := by
      rw [← hentry]
      split
      next => rfl
      next => rfl
    rw [← hsame]
    exact (Option.some.inj hreply).symm

/-- A reply carries the lease of the entry it is about. -/
theorem reply_carries_lease (hdomain : config.DomainFits) (hp : dpOptions ≤ p.length)
    (h : udpRecvProc config entries dhcpData p alloc = some r) (hreply : r.reply = some msg) :
    CarriesLease config entries (overlay p dhcpData) p msg := by
  dsimp only [udpRecvProc] at h
  split at h
  next htype =>
      obtain ⟨i, entry, hfound, hentry, rfl⟩ := discover_sends h hreply
      refine .inl ⟨htype, i, entry, hfound, hentry, ?_⟩
      refine leaseReply_replyData dhcpData hdomain hp (fun f hf => ?_)
        (isReply_offerData config entry _)
      obtain ⟨-, hyiaddr, hmark⟩ := read_kept hf
      rw [Mem.read_write_disjoint _ (by simp at hyiaddr ⊢; omega), hmark]
  next =>
      split at h
      next htype =>
          obtain ⟨ptr, i, entry, haddr, hip, hentry, rfl⟩ := request_sends h hreply
          obtain ⟨entry', hentry', hword⟩ := entryByIp_eq_some hip
          obtain rfl := Option.some.inj (hentry.symm.trans hentry')
          refine .inr ⟨htype, ptr, i, entry, haddr, hip, hentry, ?_⟩
          refine leaseReply_replyData dhcpData hdomain hp (fun f hf => ?_)
            (isReply_ackData config entry hword.symm)
          obtain ⟨-, hyiaddr, hmark⟩ := read_kept hf
          rw [hmark, Mem.read_write_disjoint _ (by simp at hyiaddr ⊢; omega)]
      next =>
          obtain rfl := Option.some.inj h
          cases hreply

/-- A configuration with a domain and a name server. -/
def namedConfig : DhcpConfig := ⟨0x0107A8C0, 0x0107A8C0, some [115, 116, 109]⟩

theorem reply_carries_lease_named :
    ∃ r msg, udpRecvProc namedConfig vacantTable Mem.zero (discoverOf clientA) true = some r ∧
      r.reply = some msg ∧
      CarriesLease namedConfig vacantTable (overlay (discoverOf clientA) Mem.zero)
        (discoverOf clientA) msg := by
  have hsome : ((udpRecvProc namedConfig vacantTable Mem.zero (discoverOf clientA) true).bind
      Reaction.reply).isSome = true := by decide +kernel
  obtain ⟨msg, hmsg⟩ := Option.isSome_iff_exists.mp hsome
  obtain ⟨r, hr, hreply⟩ := Option.bind_eq_some_iff.mp hmsg
  have hdomain : namedConfig.DomainFits := by
    rintro name ⟨⟩
    decide
  exact ⟨r, msg, hr, hreply, reply_carries_lease hdomain (by decide +kernel) hr hreply⟩

end Adhoc
