import Mathlib.Data.List.Nodup
import Adhoc.Lib.Machine
import Adhoc.Dhcp.Options

/-!
# The DHCP server

The lease table is a list of entries, and a `dhcp_entry_t *` is an index into it.
An address or a subnet is the word `*(uint32_t *)addr` reads.  `dhcp_data` is a
memory of which the object has the first 516 octets; the last one of them is
padding, and it is sent with the rest.

`udpRecvProc` yields the memory, the table and the reply after one datagram.  It
yields nothing where the C function has no defined behaviour: it follows a
pointer behind the table, or `fill_options` writes behind `dp_options`.
-/

namespace Adhoc

open ByteMem EventMachine

/-! ## Data -/

/-- A hardware address. -/
abbrev Mac : Type := { bs : List UInt8 // bs.length = 6 }

/-- The hardware address of a vacant entry. -/
def Mac.zero : Mac := ⟨List.replicate 6 0, rfl⟩

/-- The hardware address with these octets. -/
def Mac.ofOctets (a b c d e f : UInt8) : Mac := ⟨[a, b, c, d, e, f], rfl⟩

/-- The hardware address a pointer to `off` points at. -/
def Mac.ofMem (m : Mem) (off : Nat) : Mac := ⟨m.read off 6, m.length_read off 6⟩

/-- `dhcp_entry_t`. -/
structure DhcpEntry where
  mac : Mac
  addr : UInt32
  subnet : UInt32
  lease : UInt32
deriving DecidableEq

/-- `dhcp_config_t` without the table. -/
structure DhcpConfig where
  addr : UInt32
  dns : UInt32
  domain : Option (List UInt8)
deriving DecidableEq

/-- The offsets of the fields of `DHCP_TYPE`. -/
@[simp] def dpOp : Nat := 0
@[simp] def dpSecs : Nat := 8
@[simp] def dpFlags : Nat := 10
@[simp] def dpYiaddr : Nat := 16
@[simp] def dpChaddr : Nat := 28
@[simp] def dpMagic : Nat := 236
@[simp] def dpOptions : Nat := 240

/-- `sizeof(dhcp_data.dp_options)`. -/
@[simp] def dpOptionsSize : Nat := 275

/-- `sizeof(dhcp_data)`, with the octet of padding. -/
@[simp] def dhcpDataSize : Nat := 516

/-- `magic_cookie`. -/
def magicCookie : List UInt8 := [0x63, 0x82, 0x53, 0x63]

def dhcpDiscover : UInt8 := 1
def dhcpOffer : UInt8 := 2
def dhcpRequest : UInt8 := 3
def dhcpAck : UInt8 := 5

/-! ## The table -/

/-- `entry_by_ip`. -/
def entryByIp (entries : List DhcpEntry) (ip : UInt32) : Option Nat :=
  entries.findIdx? fun entry => entry.addr = ip

/-- `entry_by_mac`. -/
def entryByMac (entries : List DhcpEntry) (mac : Mac) : Option Nat :=
  entries.findIdx? fun entry => entry.mac = mac

/-- `is_vacant`. -/
def isVacant (entry : DhcpEntry) : Bool := entry.mac = Mac.zero

/-- `vacant_address`.  Whichever entry is vacant, it returns `config->entries + 1`. -/
def vacantAddress (entries : List DhcpEntry) : Option Nat :=
  (entries.findIdx? isVacant).map fun _ => 1

/-- `free_entry`. -/
def freeEntry (entry : DhcpEntry) : DhcpEntry := { entry with mac := Mac.zero }

/-! ## One datagram -/

/-- What `udp_recv_proc` leaves behind. -/
structure Reaction where
  dhcpData : Mem
  entries : List DhcpEntry
  /-- The message sent, if one is. -/
  reply : Option (List UInt8)

/-- What of it the rest of the world can see. -/
def Reaction.visible (r : Reaction) : Option (List UInt8) × List DhcpEntry := (r.reply, r.entries)

/-- `dp_op`, `dp_secs` and `dp_flags` of a reply. -/
def markReply (data : Mem) : Mem :=
  ((data.write dpOp [2]).write dpSecs [0, 0]).write dpFlags [0, 0]

/-- The magic cookie and the options of a reply. -/
def replyOptions (config : DhcpConfig) (msgType : UInt8) (entry : DhcpEntry) (data : Mem) :
    Option Mem :=
  let data := data.write dpMagic magicCookie
  let data := data.write dpOptions (List.replicate dpOptionsSize 0)
  let options := fillOptions msgType config.domain config.dns entry.lease config.addr config.addr
    entry.subnet
  if options.length ≤ dpOptionsSize then some (data.write dpOptions options) else none

/-- The entry the `DHCP_DISCOVER` case looks up: the client's own, or a vacant one. -/
def discoverEntry (entries : List DhcpEntry) (mac : Mac) : Option Nat :=
  match entryByMac entries mac with
  | some i => some i
  | none => vacantAddress entries

/-- The `DHCP_DISCOVER` case of `udp_recv_proc`. -/
def discover (config : DhcpConfig) (entries : List DhcpEntry) (data : Mem) (alloc : Bool) :
    Option Reaction :=
  match discoverEntry entries (Mac.ofMem data dpChaddr) with
  | none => some ⟨data, entries, none⟩
  | some i =>
      -- `entries + 1` is behind the table when the table has one entry.
      entries[i]?.bind fun entry =>
        (replyOptions config dhcpOffer entry
          ((markReply data).write dpYiaddr (wordBytes entry.addr))).map fun data =>
            ⟨data, entries, if alloc then some (data.read 0 dhcpDataSize) else none⟩

/-- Step 1 of the `DHCP_REQUEST` case: where the requested address stands. -/
def requestedAddr (data : Mem) : Option Nat :=
  match findDhcpOption data dpOptions dpOptionsSize dhcpIpaddress with
  | none => none
  | some ptr => if data (ptr + 1) ≠ 4 then none else some (ptr + 2)

/-- Step 2: the entry registered for the client is freed. -/
def freeClient (entries : List DhcpEntry) (mac : Mac) : List DhcpEntry :=
  match entryByMac entries mac with
  | some i => entries.modify i freeEntry
  | none => entries

/-- The `DHCP_REQUEST` case of `udp_recv_proc`. -/
def request (config : DhcpConfig) (entries : List DhcpEntry) (data : Mem) (alloc : Bool) :
    Option Reaction :=
  match requestedAddr data with
  | none => some ⟨data, entries, none⟩
  | some ptr =>
      let entries := freeClient entries (Mac.ofMem data dpChaddr)
      match entryByIp entries (data.word ptr) with
      | none => some ⟨data, entries, none⟩
      | some i =>
          entries[i]?.bind fun entry =>
            if !isVacant entry then some ⟨data, entries, none⟩
            else
              (replyOptions config dhcpAck entry
                (markReply (data.write dpYiaddr (data.read ptr 4)))).map fun data =>
                  if alloc then
                    ⟨data, entries.modify i ({ · with mac := Mac.ofMem data dpChaddr }),
                      some (data.read 0 dhcpDataSize)⟩
                  else ⟨data, entries, none⟩

/-- `memcpy(&dhcp_data, p->payload, n)`. -/
def overlay (p : List UInt8) (dhcpData : Mem) : Mem := dhcpData.write 0 (p.take dhcpDataSize)

/-- `udp_recv_proc` for a datagram whose first pbuf holds `p`.  `alloc` says whether
`pbuf_alloc` yields a pbuf. -/
def udpRecvProc (config : DhcpConfig) (entries : List DhcpEntry) (dhcpData : Mem)
    (p : List UInt8) (alloc : Bool) : Option Reaction :=
  let data := overlay p dhcpData
  if data (dpOptions + 2) = dhcpDiscover then discover config entries data alloc
  else if data (dpOptions + 2) = dhcpRequest then request config entries data alloc
  else some ⟨data, entries, none⟩

/-- A datagram of the client `mac` with these octets from `dp_options` on. -/
def clientDatagram (mac : Mac) (options : List UInt8) : List UInt8 :=
  List.replicate dpChaddr 0 ++ mac.val ++ List.replicate (dpOptions - dpChaddr - 6) 0 ++ options

/-- A configuration without a domain and a name server. -/
def plainConfig : DhcpConfig := ⟨0x0107A8C0, 0, none⟩

/-! ## The server -/

/-- The file-level variables of `dhserver.c` and the table `config` points to. -/
structure DhcpState where
  /-- `pcb` is not `NULL`: datagrams arrive. -/
  pcb : Bool := false
  config : Option DhcpConfig := none
  entries : List DhcpEntry := []
  dhcpData : Mem := Mem.zero

inductive DhcpEvent where
  /-- `dhserv_init` with a configuration and its table.  `udp_new` and `udp_bind`
  may fail. -/
  | init (config : DhcpConfig) (entries : List DhcpEntry) (newOk bindOk : Bool)
  /-- `dhserv_free`. -/
  | free
  /-- A datagram arrives. -/
  | recv (p : List UInt8) (alloc : Bool)

/-- `dhserv_free`. -/
def dhservFree (s : DhcpState) : DhcpState := { s with pcb := false }

/-- `dhserv_init`. -/
def dhservInit (config : DhcpConfig) (entries : List DhcpEntry) (newOk bindOk : Bool)
    (s : DhcpState) : DhcpState :=
  let s := dhservFree s
  if !newOk then s
  else if !bindOk then dhservFree { s with pcb := true }
  else { s with pcb := true, config := some config, entries := entries }

def dhcpStep (s : DhcpState) : DhcpEvent → Option DhcpState
  | .init config entries newOk bindOk => some (dhservInit config entries newOk bindOk s)
  | .free => some (dhservFree s)
  | .recv p alloc =>
      match s.pcb, s.config with
      | true, some config =>
          (udpRecvProc config s.entries s.dhcpData p alloc).map fun r =>
            { s with entries := r.entries, dhcpData := r.dhcpData }
      | _, _ => none

/-- The server. -/
def dhcpMachine : Machine DhcpState DhcpEvent := ⟨dhcpStep⟩

/-! ## The datagram in `dhcp_data` -/

/-- What the datagram covers is read from it. -/
theorem read_overlay {p : List UInt8} {off n : Nat} (h : off + n ≤ p.length)
    (h' : off + n ≤ dhcpDataSize) (dhcpData : Mem) :
    (overlay p dhcpData).read off n = (p.drop off).take n := by
  have hself := dhcpData.read_write_self 0 (p.take dhcpDataSize)
  have hpiece := Mem.take_drop_read (overlay p dhcpData) 0 (k := off) (j := n)
    (n := (p.take dhcpDataSize).length) (by rw [List.length_take]; omega)
  rw [Nat.zero_add] at hpiece
  rw [← hpiece, overlay, hself, List.drop_take, List.take_take]
  congr 1
  omega

theorem overlay_apply {p : List UInt8} {i : Nat} {b : UInt8} (h : p[i]? = some b)
    (h' : i < dhcpDataSize) (dhcpData : Mem) : overlay p dhcpData i = b := by
  obtain ⟨hi, rfl⟩ := List.getElem?_eq_some_iff.mp h
  have hlen : i < (p.take dhcpDataSize).length := by
    rw [List.length_take]
    omega
  rw [overlay, Mem.write_of_mem _ (Nat.zero_le i) hlen]
  exact List.getElem_take

/-! ## Lookups -/

variable {entries entries' : List DhcpEntry} {mac : Mac} {ip : UInt32} {i : Nat}

theorem entryByIp_eq_some : entryByIp entries ip = some i →
    ∃ entry, entries[i]? = some entry ∧ entry.addr = ip := by
  intro h
  obtain ⟨hi, hip, -⟩ := List.findIdx?_eq_some_iff_getElem.mp h
  exact ⟨entries[i], List.getElem?_eq_getElem hi, of_decide_eq_true hip⟩

theorem entryByMac_eq_some : entryByMac entries mac = some i →
    ∃ entry, entries[i]? = some entry ∧ entry.mac = mac := by
  intro h
  obtain ⟨hi, hmac, -⟩ := List.findIdx?_eq_some_iff_getElem.mp h
  exact ⟨entries[i], List.getElem?_eq_getElem hi, of_decide_eq_true hmac⟩

/-- A lookup by address sees the addresses only. -/
theorem entryByIp_congr (h : entries.map DhcpEntry.addr = entries'.map DhcpEntry.addr) :
    entryByIp entries ip = entryByIp entries' ip := by
  have hmap : ∀ l : List DhcpEntry,
      entryByIp l ip = (l.map DhcpEntry.addr).findIdx? fun addr => addr = ip := by
    intro l
    rw [List.findIdx?_map]
    rfl
  rw [hmap, hmap, h]

/-- A change of one entry that keeps something of it keeps that of all. -/
theorem map_modify {α : Type} {g : DhcpEntry → α} {f : DhcpEntry → DhcpEntry}
    (hf : ∀ entry, g (f entry) = g entry) (i : Nat) :
    (entries.modify i f).map g = entries.map g := by
  apply List.ext_getElem?
  intro j
  rw [List.getElem?_map, List.getElem?_map, List.getElem?_modify]
  cases entries[j]? with
  | none => rfl
  | some entry =>
      show some (g (if i = j then f entry else entry)) = some (g entry)
      split
      next => rw [hf]
      next => rfl

/-- The table with the client's entry freed, entry by entry. -/
theorem getElem?_freeClient (entries : List DhcpEntry) (mac : Mac) (j : Nat) :
    (freeClient entries mac)[j]? =
      entries[j]?.map fun entry => if entryByMac entries mac = some j then freeEntry entry
        else entry := by
  unfold freeClient
  cases hmac : entryByMac entries mac with
  | none => simp
  | some i =>
      show (entries.modify i freeEntry)[j]? = _
      rw [List.getElem?_modify]
      simp only [Option.some.injEq]
      rfl

/-- An entry that is vacant or the client's own is vacant once the client is freed. -/
theorem freed_vacant {entry : DhcpEntry} (hentry : entries[i]? = some entry)
    (hfree : isVacant entry = true ∨ entryByMac entries mac = some i) :
    ∃ e, (freeClient entries mac)[i]? = some e ∧ e.addr = entry.addr ∧ isVacant e = true := by
  refine ⟨_, by rw [getElem?_freeClient, hentry, Option.map_some], ?_⟩
  split
  next => exact ⟨rfl, by simp [freeEntry, isVacant]⟩
  next hown => exact ⟨rfl, hfree.resolve_right hown⟩

theorem entryByIp_freeClient (entries : List DhcpEntry) (mac : Mac) (ip : UInt32) :
    entryByIp (freeClient entries mac) ip = entryByIp entries ip := by
  apply entryByIp_congr
  unfold freeClient
  split
  next i _ => exact map_modify (f := freeEntry) (fun _ => rfl) i
  next => rfl

/-- With pairwise different addresses an entry is found by its own. -/
theorem entryByIp_addr (hnodup : (entries.map DhcpEntry.addr).Nodup) {entry : DhcpEntry}
    (h : entries[i]? = some entry) : entryByIp entries entry.addr = some i := by
  obtain ⟨hi, rfl⟩ := List.getElem?_eq_some_iff.mp h
  cases hfind : entryByIp entries entries[i].addr with
  | none =>
      have hnone := List.findIdx?_eq_none_iff.mp hfind entries[i] (List.getElem_mem hi)
      simp at hnone
  | some j =>
      obtain ⟨hj, haddr, -⟩ := List.findIdx?_eq_some_iff_getElem.mp hfind
      have hi' : i < (entries.map DhcpEntry.addr).length := by simpa using hi
      have hj' : j < (entries.map DhcpEntry.addr).length := by simpa using hj
      have heq : (entries.map DhcpEntry.addr)[j] = (entries.map DhcpEntry.addr)[i] := by
        rw [List.getElem_map, List.getElem_map]
        exact of_decide_eq_true haddr
      rw [(List.Nodup.getElem_inj_iff hnodup).mp heq]

/-! ## What a discover does -/

/-- `fill_options` stays in `dp_options`. -/
def DhcpConfig.Fits (config : DhcpConfig) : Prop :=
  optionsLength config.domain config.dns config.addr ≤ dpOptionsSize

instance (config : DhcpConfig) : Decidable config.Fits := inferInstanceAs (Decidable (_ ≤ _))

/-- The message of a reply, from the options on and before. -/
def replyData (config : DhcpConfig) (msgType : UInt8) (entry : DhcpEntry) (data : Mem) : Mem :=
  ((data.write dpMagic magicCookie).write dpOptions (List.replicate dpOptionsSize 0)).write
    dpOptions (fillOptions msgType config.domain config.dns entry.lease config.addr config.addr
      entry.subnet)

theorem replyOptions_fits {config : DhcpConfig} (h : config.Fits) (msgType : UInt8)
    (entry : DhcpEntry) (data : Mem) :
    replyOptions config msgType entry data = some (replyData config msgType entry data) := by
  unfold replyOptions
  simp only [length_fillOptions]
  exact if_pos h

theorem replyOptions_overflows {config : DhcpConfig} (h : ¬ config.Fits) (msgType : UInt8)
    (entry : DhcpEntry) (data : Mem) : replyOptions config msgType entry data = none := by
  unfold replyOptions
  simp only [length_fillOptions]
  exact if_neg h

/-- In front of the cookie a reply is what it was. -/
theorem read_replyData (config : DhcpConfig) (msgType : UInt8) (entry : DhcpEntry) (data : Mem)
    {off n : Nat} (h : off + n ≤ dpMagic) :
    (replyData config msgType entry data).read off n = data.read off n := by
  simp only [dpMagic] at h
  rw [replyData, Mem.read_write_disjoint _ (.inl (by simp only [dpOptions]; omega)),
    Mem.read_write_disjoint _ (.inl (by simp only [dpOptions]; omega)),
    Mem.read_write_disjoint _ (.inl (by simp only [dpMagic]; omega))]

/-- The options of a reply begin with its type. -/
theorem read_replyData_type (config : DhcpConfig) (msgType : UInt8) (entry : DhcpEntry)
    (data : Mem) :
    (replyData config msgType entry data).read dpOptions 3 = [dhcpMessagetype, 1, msgType] := by
  rw [replyData, ← List.take_append_drop 3 (fillOptions ..)]
  exact Mem.read_write_append _ dpOptions [dhcpMessagetype, 1, msgType] _

/-- The message of an OFFER of an entry. -/
def offerData (config : DhcpConfig) (entry : DhcpEntry) (data : Mem) : Mem :=
  replyData config dhcpOffer entry ((markReply data).write dpYiaddr (wordBytes entry.addr))

/-- No entry is found. -/
theorem discover_none {config : DhcpConfig} {data : Mem} {alloc : Bool}
    (h : discoverEntry entries (Mac.ofMem data dpChaddr) = none) :
    discover config entries data alloc = some ⟨data, entries, none⟩ := by
  simp only [discover, h]

/-- The entry found lies behind the table. -/
theorem discover_outside {config : DhcpConfig} {data : Mem} {alloc : Bool}
    (h : discoverEntry entries (Mac.ofMem data dpChaddr) = some i) (hi : entries[i]? = none) :
    discover config entries data alloc = none := by
  simp only [discover, h, hi, Option.bind_none]

/-- The entry found is offered. -/
theorem discover_offers {config : DhcpConfig} {data : Mem} {alloc : Bool} {entry : DhcpEntry}
    (h : discoverEntry entries (Mac.ofMem data dpChaddr) = some i)
    (hi : entries[i]? = some entry) :
    discover config entries data alloc =
      if config.Fits then
        some ⟨offerData config entry data, entries,
          if alloc then some ((offerData config entry data).read 0 dhcpDataSize) else none⟩
      else none := by
  simp only [discover, h, hi, Option.bind_some]
  by_cases hfits : config.Fits
  · rw [replyOptions_fits hfits, if_pos hfits]
    rfl
  · rw [replyOptions_overflows hfits, if_neg hfits]
    rfl

/-! ## What a request does -/

/-- The message of an ACK for the address at `ptr`. -/
def ackData (config : DhcpConfig) (entry : DhcpEntry) (ptr : Nat) (data : Mem) : Mem :=
  replyData config dhcpAck entry (markReply (data.write dpYiaddr (data.read ptr 4)))

/-- An ACK goes to the client that asked. -/
theorem mac_ackData (config : DhcpConfig) (entry : DhcpEntry) (ptr : Nat) (data : Mem) :
    Mac.ofMem (ackData config entry ptr data) dpChaddr = Mac.ofMem data dpChaddr := by
  apply Subtype.ext
  show (ackData config entry ptr data).read dpChaddr 6 = data.read dpChaddr 6
  rw [ackData, read_replyData _ _ _ _ (by decide), markReply,
    Mem.read_write_disjoint _ (.inr (by decide)), Mem.read_write_disjoint _ (.inr (by decide)),
    Mem.read_write_disjoint _ (.inr (by decide)),
    Mem.read_write_disjoint _ (.inr (by rw [Mem.length_read]; decide))]

variable {config : DhcpConfig} {data : Mem} {alloc : Bool} {ptr : Nat} {entry : DhcpEntry}

theorem request_noAddress (h : requestedAddr data = none) :
    request config entries data alloc = some ⟨data, entries, none⟩ := by
  rw [request, h]

/-- The address asked for is not in the table. -/
theorem request_unlisted (h : requestedAddr data = some ptr)
    (hip : entryByIp entries (data.word ptr) = none) :
    request config entries data alloc =
      some ⟨data, freeClient entries (Mac.ofMem data dpChaddr), none⟩ := by
  rw [← entryByIp_freeClient entries (Mac.ofMem data dpChaddr)] at hip
  simp only [request, h, hip]

/-- The address asked for is leased to somebody else. -/
theorem request_taken (h : requestedAddr data = some ptr)
    (hip : entryByIp entries (data.word ptr) = some i)
    (hentry : (freeClient entries (Mac.ofMem data dpChaddr))[i]? = some entry)
    (htaken : isVacant entry = false) :
    request config entries data alloc =
      some ⟨data, freeClient entries (Mac.ofMem data dpChaddr), none⟩ := by
  rw [← entryByIp_freeClient entries (Mac.ofMem data dpChaddr)] at hip
  simp only [request, h, hip, hentry, Option.bind_some, htaken, Bool.not_false, if_true]

/-- The address asked for is vacant. -/
theorem request_granted (h : requestedAddr data = some ptr)
    (hip : entryByIp entries (data.word ptr) = some i)
    (hentry : (freeClient entries (Mac.ofMem data dpChaddr))[i]? = some entry)
    (hvacant : isVacant entry = true) :
    request config entries data alloc =
      if config.Fits then
        some (if alloc then
          ⟨ackData config entry ptr data,
            (freeClient entries (Mac.ofMem data dpChaddr)).modify i
              ({ · with mac := Mac.ofMem data dpChaddr }),
            some ((ackData config entry ptr data).read 0 dhcpDataSize)⟩
        else
          ⟨ackData config entry ptr data, freeClient entries (Mac.ofMem data dpChaddr), none⟩)
      else none := by
  rw [← entryByIp_freeClient entries (Mac.ofMem data dpChaddr)] at hip
  simp only [request, h, hip, hentry, Option.bind_some, hvacant, Bool.not_true, Bool.false_eq_true,
    if_false]
  by_cases hfits : config.Fits
  · rw [replyOptions_fits hfits, if_pos hfits, ← mac_ackData config entry ptr data]
    rfl
  · rw [replyOptions_overflows hfits, if_neg hfits]
    rfl

/-! ## The outcomes -/

variable {r : Reaction}

/-- A DISCOVER is ignored, or the entry found is offered. -/
theorem discover_cases (h : discover config entries data alloc = some r) :
    r = ⟨data, entries, none⟩ ∨
      ∃ i entry, discoverEntry entries (Mac.ofMem data dpChaddr) = some i ∧
        entries[i]? = some entry ∧ r = ⟨offerData config entry data, entries,
          if alloc then some ((offerData config entry data).read 0 dhcpDataSize) else none⟩ := by
  cases hfound : discoverEntry entries (Mac.ofMem data dpChaddr) with
  | none =>
      rw [discover_none hfound] at h
      exact .inl (Option.some.inj h).symm
  | some i =>
      cases hentry : entries[i]? with
      | none =>
          rw [discover_outside hfound hentry] at h
          cases h
      | some entry =>
          rw [discover_offers hfound hentry, Option.ite_none_right_eq_some] at h
          exact .inr ⟨i, entry, rfl, hentry, (Option.some.inj h.2).symm⟩

/-- A REQUEST without an address is ignored.  One with an address frees the client's entry, and
then is not answered or is granted. -/
theorem request_cases (h : request config entries data alloc = some r) :
    r = ⟨data, entries, none⟩ ∨
      ∃ ptr, requestedAddr data = some ptr ∧
        (r.entries = freeClient entries (Mac.ofMem data dpChaddr) ∧ r.reply = none ∨
          ∃ i entry, entryByIp entries (data.word ptr) = some i ∧
            (freeClient entries (Mac.ofMem data dpChaddr))[i]? = some entry ∧
              isVacant entry = true ∧ r = ⟨ackData config entry ptr data,
                (freeClient entries (Mac.ofMem data dpChaddr)).modify i
                  ({ · with mac := Mac.ofMem data dpChaddr }),
                some ((ackData config entry ptr data).read 0 dhcpDataSize)⟩) := by
  cases haddr : requestedAddr data with
  | none =>
      rw [request_noAddress haddr] at h
      exact .inl (Option.some.inj h).symm
  | some ptr =>
      refine .inr ⟨ptr, rfl, ?_⟩
      cases hip : entryByIp entries (data.word ptr) with
      | none =>
          rw [request_unlisted haddr hip] at h
          obtain rfl := Option.some.inj h
          exact .inl ⟨rfl, rfl⟩
      | some i =>
          obtain ⟨old, hold, -⟩ := entryByIp_eq_some hip
          have hentry := getElem?_freeClient entries (Mac.ofMem data dpChaddr) i
          rw [hold, Option.map_some] at hentry
          generalize (if entryByMac entries (Mac.ofMem data dpChaddr) = some i then freeEntry old
            else old) = entry at hentry
          cases hvacant : isVacant entry with
          | false =>
              rw [request_taken haddr hip hentry hvacant] at h
              obtain rfl := Option.some.inj h
              exact .inl ⟨rfl, rfl⟩
          | true =>
              rw [request_granted haddr hip hentry hvacant, Option.ite_none_right_eq_some] at h
              obtain rfl := Option.some.inj h.2
              cases alloc with
              | false => exact .inl ⟨rfl, rfl⟩
              | true => exact .inr ⟨i, entry, rfl, hentry, hvacant, rfl⟩

end Adhoc
