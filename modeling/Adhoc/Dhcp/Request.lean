import Adhoc.Dhcp.Server

/-!
# A refused request and the lease table

`udp_recv_proc` frees the client's own entry before it looks at the address the
client asks for, and it does not put the entry back when it then refuses.  So the
table survives a refusal only where there was nothing to free
(`request_keeps_iff`).
-/

namespace Adhoc

open ByteMem

/-! ## Conditions -/

/-- The client has no entry to lose. -/
def Unbound (entries : List DhcpEntry) (mac : Mac) : Prop :=
  entryByMac entries mac = none ∨ mac = Mac.zero

/-- The address names an entry that is vacant or the client's own. -/
def Grantable (entries : List DhcpEntry) (mac : Mac) (ip : UInt32) : Prop :=
  ∃ i entry, entryByIp entries ip = some i ∧ entries[i]? = some entry ∧
    (isVacant entry = true ∨ entryByMac entries mac = some i)

/-- The datagram in `v` cannot cost its client a lease: it asks for no address, or
its client has none to lose, or it is granted what it asks for. -/
def RequestSafe (config : DhcpConfig) (entries : List DhcpEntry) (v : Mem) (alloc : Bool) : Prop :=
  ∀ ptr, requestedAddr v = some ptr →
    (Grantable entries (Mac.ofMem v dpChaddr) (v.word ptr) → config.Fits) ∧
      (Unbound entries (Mac.ofMem v dpChaddr) ∨
        (Grantable entries (Mac.ofMem v dpChaddr) (v.word ptr) ∧ alloc = true))

/-- The call has a defined result, and one without an ACK has the old table. -/
def KeepsTable (config : DhcpConfig) (entries : List DhcpEntry) (dhcpData : Mem) (p : List UInt8)
    (alloc : Bool) : Prop :=
  ∃ r, udpRecvProc config entries dhcpData p alloc = some r ∧
    (r.reply = none → r.entries = entries)

/-! ## The freed table -/

variable {config : DhcpConfig} {entries : List DhcpEntry} {mac : Mac} {ip : UInt32}

theorem freeEntry_eq_self {entry : DhcpEntry} :
    freeEntry entry = entry ↔ isVacant entry = true := by
  obtain ⟨m, addr, subnet, lease⟩ := entry
  simp only [freeEntry, isVacant, DhcpEntry.mk.injEq, and_true, decide_eq_true_eq]
  exact eq_comm

/-- Freeing changes the table exactly when the client is bound. -/
theorem freeClient_eq_self_iff : freeClient entries mac = entries ↔ Unbound entries mac := by
  cases hmac : entryByMac entries mac with
  | none =>
      refine iff_of_true ?_ (.inl hmac)
      rw [freeClient, hmac]
  | some i =>
      obtain ⟨entry, hentry, rfl⟩ := entryByMac_eq_some hmac
      have hzero : Unbound entries entry.mac ↔ isVacant entry = true := by
        rw [Unbound, hmac, isVacant, decide_eq_true_eq]
        exact or_iff_right (by simp)
      rw [hzero, ← freeEntry_eq_self]
      constructor
      · intro heq
        have hat := getElem?_freeClient entries entry.mac i
        rw [heq, hentry, Option.map_some, if_pos hmac] at hat
        exact (Option.some.inj hat).symm
      · intro hfree
        apply List.ext_getElem?
        intro j
        rw [getElem?_freeClient, hmac]
        by_cases hj : i = j
        · rw [← hj, hentry, Option.map_some, if_pos rfl, hfree]
        · cases entries[j]? with
          | none => rfl
          | some e => rw [Option.map_some, if_neg fun h => hj (Option.some.inj h)]

/-- The entry at an address is vacant once the client is freed exactly when the
address is grantable. -/
theorem grantable_iff {i : Nat} {entry : DhcpEntry} (hip : entryByIp entries ip = some i)
    (hentry : (freeClient entries mac)[i]? = some entry) :
    Grantable entries mac ip ↔ isVacant entry = true := by
  obtain ⟨old, hold, -⟩ := entryByIp_eq_some hip
  rw [getElem?_freeClient, hold, Option.map_some] at hentry
  obtain rfl := Option.some.inj hentry
  have hiff : Grantable entries mac ip ↔
      (isVacant old = true ∨ entryByMac entries mac = some i) := by
    constructor
    · rintro ⟨j, e, hj, he, h⟩
      obtain rfl := Option.some.inj (hip.symm.trans hj)
      obtain rfl := Option.some.inj (hold.symm.trans he)
      exact h
    · exact fun h => ⟨i, old, hip, hold, h⟩
  rw [hiff]
  split
  next hown => exact iff_of_true (.inr hown) (by simp [freeEntry, isVacant])
  next hown => exact or_iff_left hown

theorem not_grantable_of_unlisted (hip : entryByIp entries ip = none) :
    ¬ Grantable entries mac ip := by
  rintro ⟨i, -, hi, -⟩
  rw [hip] at hi
  cases hi

/-! ## Refusals -/

theorem keeps_some_iff {r : Reaction} :
    (∃ r', some r = some r' ∧ (r'.reply = none → r'.entries = entries)) ↔
      (r.reply = none → r.entries = entries) := by
  constructor
  · rintro ⟨r', hr, h⟩
    obtain rfl := Option.some.inj hr
    exact h
  · exact fun h => ⟨r, rfl, h⟩

/-- The request in `v` is safe, for one that asks for the address at `ptr`. -/
theorem requestSafe_iff {v : Mem} {alloc : Bool} {ptr : Nat} (haddr : requestedAddr v = some ptr) :
    RequestSafe config entries v alloc ↔
      (Grantable entries (Mac.ofMem v dpChaddr) (v.word ptr) → config.Fits) ∧
        (freeClient entries (Mac.ofMem v dpChaddr) = entries ∨
          (Grantable entries (Mac.ofMem v dpChaddr) (v.word ptr) ∧ alloc = true)) := by
  rw [freeClient_eq_self_iff]
  constructor
  · exact fun h => h ptr haddr
  · rintro h ptr' hptr'
    obtain rfl := Option.some.inj (haddr.symm.trans hptr')
    exact h

/-- A request refused after its client was freed keeps the table when there was
nothing to free. -/
theorem refused_keeps_iff {v : Mem} {alloc : Bool} {ptr : Nat}
    (haddr : requestedAddr v = some ptr)
    (hnot : ¬ Grantable entries (Mac.ofMem v dpChaddr) (v.word ptr))
    (hreq : request config entries v alloc =
      some ⟨v, freeClient entries (Mac.ofMem v dpChaddr), none⟩) :
    (∃ r, request config entries v alloc = some r ∧ (r.reply = none → r.entries = entries)) ↔
      RequestSafe config entries v alloc := by
  rw [requestSafe_iff haddr, hreq, keeps_some_iff]
  constructor
  · exact fun h => ⟨fun hg => (hnot hg).elim, .inl (h rfl)⟩
  · exact fun h _ => h.2.resolve_right fun hg => hnot hg.1

/-- A request that finds a vacant entry at the address keeps the table when it is
acknowledged, or when there was nothing to free. -/
theorem granted_keeps_iff {v : Mem} {alloc : Bool} {ptr i : Nat} {entry : DhcpEntry}
    (haddr : requestedAddr v = some ptr) (hip : entryByIp entries (v.word ptr) = some i)
    (hentry : (freeClient entries (Mac.ofMem v dpChaddr))[i]? = some entry)
    (hvacant : isVacant entry = true) :
    (∃ r, request config entries v alloc = some r ∧ (r.reply = none → r.entries = entries)) ↔
      RequestSafe config entries v alloc := by
  have hg := (grantable_iff hip hentry).mpr hvacant
  rw [requestSafe_iff haddr, request_granted haddr hip hentry hvacant]
  by_cases hfits : config.Fits
  · rw [if_pos hfits, keeps_some_iff]
    cases alloc with
    | false =>
        constructor
        · exact fun h => ⟨fun _ => hfits, .inl (h rfl)⟩
        · exact fun h _ => h.2.resolve_right fun hand => Bool.noConfusion hand.2
    | true => exact iff_of_true (fun h => nomatch h) ⟨fun _ => hfits, .inr ⟨hg, rfl⟩⟩
  · rw [if_neg hfits]
    refine iff_of_false ?_ fun h => hfits (h.1 hg)
    rintro ⟨r, hr, -⟩
    cases hr

/-- A request that is not acknowledged leaves the table alone exactly when it is
safe. -/
theorem request_keeps_iff (config : DhcpConfig) (entries : List DhcpEntry) (dhcpData : Mem)
    (p : List UInt8) (alloc : Bool)
    (hrequest : overlay p dhcpData (dpOptions + 2) = dhcpRequest) :
    KeepsTable config entries dhcpData p alloc ↔
      RequestSafe config entries (overlay p dhcpData) alloc := by
  have hproc : udpRecvProc config entries dhcpData p alloc =
      request config entries (overlay p dhcpData) alloc := by
    have hne : ¬ overlay p dhcpData (dpOptions + 2) = dhcpDiscover := by rw [hrequest]; decide
    simp only [udpRecvProc, if_neg hne, if_pos hrequest]
  rw [KeepsTable, hproc]
  generalize overlay p dhcpData = v
  cases haddr : requestedAddr v with
  | none =>
      refine iff_of_true ⟨_, request_noAddress haddr, fun _ => rfl⟩ ?_
      intro ptr hptr
      rw [haddr] at hptr
      cases hptr
  | some ptr =>
      cases hip : entryByIp entries (v.word ptr) with
      | none =>
          exact refused_keeps_iff haddr (not_grantable_of_unlisted hip)
            (request_unlisted haddr hip)
      | some i =>
          obtain ⟨old, hold, -⟩ := entryByIp_eq_some hip
          have hentry := getElem?_freeClient entries (Mac.ofMem v dpChaddr) i
          rw [hold, Option.map_some] at hentry
          cases hvacant : isVacant (if entryByMac entries (Mac.ofMem v dpChaddr) = some i then
              freeEntry old else old) with
          | false =>
              have hnot : ¬ Grantable entries (Mac.ofMem v dpChaddr) (v.word ptr) := by
                rw [grantable_iff hip hentry, hvacant]
                exact Bool.false_ne_true
              exact refused_keeps_iff haddr hnot (request_taken haddr hip hentry hvacant)
          | true => exact granted_keeps_iff haddr hip hentry hvacant

/-- A table of two entries, both leased. -/
def leasedTable : List DhcpEntry :=
  [⟨.ofOctets 2 0 0 0 0 0xA, 0x0207A8C0, 0x00FFFFFF, 86400⟩,
    ⟨.ofOctets 2 0 0 0 0 0xB, 0x0307A8C0, 0x00FFFFFF, 86400⟩]

/-- The holder of the first address asks for the second. -/
def requestSecond : List UInt8 :=
  clientDatagram (.ofOctets 2 0 0 0 0 0xA) [53, 1, 3, 50, 4, 0xC0, 0xA8, 7, 3, 255]

/-- It gets no ACK and loses its own. -/
theorem refused_request_frees_lease :
    (udpRecvProc plainConfig leasedTable Mem.zero requestSecond true).map Reaction.visible =
        some (none, leasedTable.modify 0 freeEntry) ∧
      ¬ KeepsTable plainConfig leasedTable Mem.zero requestSecond true := by
  have hvisible : (udpRecvProc plainConfig leasedTable Mem.zero requestSecond true).map
      Reaction.visible = some (none, leasedTable.modify 0 freeEntry) := by decide
  refine ⟨hvisible, ?_⟩
  rintro ⟨r, hr, hkeeps⟩
  rw [hr, Option.map_some, Option.some.injEq, Reaction.visible, Prod.mk.injEq] at hvisible
  have hsame := (hkeeps hvisible.1).symm.trans hvisible.2
  exact absurd hsame (by decide)

/-- A client without a lease asks for the same address. -/
theorem request_keeps_iff_unbound :
    KeepsTable plainConfig leasedTable Mem.zero
      (clientDatagram (.ofOctets 2 0 0 0 0 0xC) [53, 1, 3, 50, 4, 0xC0, 0xA8, 7, 3, 255]) true := by
  refine (request_keeps_iff plainConfig leasedTable Mem.zero _ true (by decide)).mpr ?_
  intro ptr _
  exact ⟨fun _ => by decide, .inl (.inl (by decide))⟩

end Adhoc
