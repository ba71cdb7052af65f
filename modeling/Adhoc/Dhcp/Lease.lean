import Adhoc.Dhcp.Offer

/-!
# Leases over a run

A datagram does one of three things to the table (`Handled`).  It keeps it, it
frees the client's entry without an answer, or it frees the client's entry, finds
the entry with the requested address vacant, binds it to the client and sends an
ACK.  The first happens to everything that is not a REQUEST with a readable
option 50.

Two invariants follow.  An entry that is bound to a client stays bound until that
client asks for an address (`Handled.holds`), so an address is acknowledged to
another client only after that (`lease_exclusive`).  And no two entries are bound
to the same client (`Handled.oneLease`), so an ACK leaves the client the one
entry it names (`one_lease_each`).
-/

namespace Adhoc

open ByteMem EventMachine

/-! ## Events -/

/-- The event is a datagram. -/
def DhcpEvent.IsDatagram : DhcpEvent → Prop
  | .recv .. => True
  | .init .. | .free => False

/-- The message in `v` is a REQUEST of the client with a valid option 50. -/
def AsksForAddress (mac : Mac) (v : Mem) : Prop :=
  v (dpOptions + 2) = dhcpRequest ∧ Mac.ofMem v dpChaddr = mac ∧ requestedAddr v ≠ none

/-- The event is a datagram that is handled as such a REQUEST. -/
def Asks (mac : Mac) (s : DhcpState) : DhcpEvent → Prop
  | .recv p _ => AsksForAddress mac (overlay p s.dhcpData)
  | _ => False

/-- The event is a datagram of the client that is answered with an ACK for the
address. -/
def Acks (ip : UInt32) (mac : Mac) (s : DhcpState) : DhcpEvent → Prop
  | .recv p alloc =>
      ∃ config r msg, s.config = some config ∧
        udpRecvProc config s.entries s.dhcpData p alloc = some r ∧ r.reply = some msg ∧
        IsReply dhcpAck ip msg ∧ Mac.ofMem (overlay p s.dhcpData) dpChaddr = mac
  | _ => False

/-! ## The table -/

/-- What of an entry no datagram changes. -/
def DhcpEntry.terms (entry : DhcpEntry) : UInt32 × UInt32 × UInt32 :=
  (entry.addr, entry.subnet, entry.lease)

/-- The entry with the address is bound to the client. -/
def Holds (entries : List DhcpEntry) (ip : UInt32) (mac : Mac) : Prop :=
  ∃ i entry, entryByIp entries ip = some i ∧ entries[i]? = some entry ∧ entry.mac = mac

/-- No two entries that are not vacant are bound to the same client. -/
def OneLease (entries : List DhcpEntry) : Prop :=
  ∀ {i j : Nat} {entry entry' : DhcpEntry}, entries[i]? = some entry →
    entries[j]? = some entry' → entry.mac = entry'.mac → entry.mac ≠ Mac.zero → i = j

/-- Exactly one entry is bound to the client, and it is the one with the address. -/
def BoundOnce (entries : List DhcpEntry) (ip : UInt32) (mac : Mac) : Prop :=
  ∃ (i : Nat) (entry : DhcpEntry), entries[i]? = some entry ∧ entry.addr = ip ∧
    ∀ (j : Nat) (entry' : DhcpEntry), entries[j]? = some entry' → (entry'.mac = mac ↔ i = j)

/-- What the message in `v` does to the table, and its answer. -/
inductive Handled (entries : List DhcpEntry) (v : Mem) :
    List DhcpEntry → Option (List UInt8) → Prop where
  /-- Nothing happens to the table, and no ACK is sent. -/
  | kept {reply : Option (List UInt8)} :
      (∀ ip msg, reply = some msg → ¬ IsReply dhcpAck ip msg) → Handled entries v entries reply
  /-- The client's entry is freed and nothing is sent. -/
  | freed :
      AsksForAddress (Mac.ofMem v dpChaddr) v →
      Handled entries v (freeClient entries (Mac.ofMem v dpChaddr)) none
  /-- The client's entry is freed, and the one it asks for is bound to it. -/
  | granted {ptr i : Nat} {entry : DhcpEntry} {msg : List UInt8} :
      AsksForAddress (Mac.ofMem v dpChaddr) v →
      entryByIp entries (v.word ptr) = some i →
      (freeClient entries (Mac.ofMem v dpChaddr))[i]? = some entry →
      isVacant entry = true →
      IsReply dhcpAck (v.word ptr) msg →
      Handled entries v ((freeClient entries (Mac.ofMem v dpChaddr)).modify i
        ({ · with mac := Mac.ofMem v dpChaddr })) (some msg)

variable {config : DhcpConfig} {entries entries' : List DhcpEntry} {v dhcpData : Mem}
  {ip : UInt32} {mac : Mac} {reply : Option (List UInt8)}

/-! ## One datagram -/

theorem isReply_type_inj {msgType msgType' : UInt8} {ip' : UInt32} {msg : List UInt8}
    (h : IsReply msgType ip msg) (h' : IsReply msgType' ip' msg) :
    msgType = msgType' ∧ ip = ip' := by
  have htype := h.type_eq.symm.trans h'.type_eq
  have haddr := h.yiaddr_eq.symm.trans h'.yiaddr_eq
  rw [List.cons.injEq, List.cons.injEq, List.cons.injEq] at htype
  exact ⟨htype.2.2.1, wordBytes_injective haddr⟩

/-- A DISCOVER keeps the table and is answered with an OFFER or not at all. -/
theorem discover_handled {alloc : Bool} {r : Reaction}
    (h : discover config entries v alloc = some r) : Handled entries v r.entries r.reply := by
  obtain rfl | ⟨i, entry, -, -, rfl⟩ := discover_cases h
  · exact .kept nofun
  · refine .kept fun ip msg hmsg hack => ?_
    cases alloc with
    | false => cases hmsg
    | true =>
        obtain rfl := Option.some.inj hmsg
        have htype := (isReply_type_inj (isReply_offerData config entry v) hack).1
        exact absurd htype (by decide)

/-- A REQUEST does one of the three. -/
theorem request_handled {alloc : Bool} {r : Reaction} (hrequest : v (dpOptions + 2) = dhcpRequest)
    (h : request config entries v alloc = some r) : Handled entries v r.entries r.reply := by
  obtain rfl | ⟨ptr, haddr, houtcome⟩ := request_cases h
  · exact .kept nofun
  · have hasks : AsksForAddress (Mac.ofMem v dpChaddr) v :=
      ⟨hrequest, rfl, by rw [haddr]; exact Option.some_ne_none ptr⟩
    obtain ⟨hentries, hreply⟩ | ⟨i, entry, hip, hentry, hvacant, rfl⟩ := houtcome
    · rw [hentries, hreply]
      exact .freed hasks
    · exact .granted hasks hip hentry hvacant (isReply_ackData config entry rfl)

theorem udpRecvProc_handled {p : List UInt8} {alloc : Bool} {r : Reaction}
    (h : udpRecvProc config entries dhcpData p alloc = some r) :
    Handled entries (overlay p dhcpData) r.entries r.reply := by
  dsimp only [udpRecvProc] at h
  split at h
  next => exact discover_handled h
  next =>
    split at h
    next hrequest => exact request_handled hrequest h
    next =>
      obtain rfl := Option.some.inj h
      exact .kept nofun

/-! ## The client that holds an entry -/

/-- The entry of another client is not freed. -/
theorem getElem?_freeClient_other {i : Nat} {entry : DhcpEntry} (h : entries[i]? = some entry)
    (hother : entry.mac ≠ mac) : (freeClient entries mac)[i]? = some entry := by
  rw [getElem?_freeClient, h, Option.map_some, if_neg]
  intro hown
  obtain ⟨own, hat, hmac⟩ := entryByMac_eq_some hown
  obtain rfl := Option.some.inj (h.symm.trans hat)
  exact hother hmac

/-- The table after an entry is bound, entry by entry. -/
theorem getElem?_bind (entries : List DhcpEntry) (mac : Mac) (i j : Nat) :
    (entries.modify i ({ · with mac := mac }))[j]? =
      entries[j]?.map fun entry => if i = j then { entry with mac := mac } else entry :=
  List.getElem?_modify _ i entries j

theorem entryByIp_bind (entries : List DhcpEntry) (mac mac' : Mac) (i : Nat) (ip : UInt32) :
    entryByIp ((freeClient entries mac).modify i ({ · with mac := mac' })) ip =
      entryByIp entries ip := by
  rw [← entryByIp_freeClient entries mac]
  exact entryByIp_congr (map_modify (f := ({ · with mac := mac' })) (fun _ => rfl) i)

/-- The entry a granted REQUEST binds was not held by another client. -/
theorem not_vacant_of_holds {i : Nat} {entry : DhcpEntry} {mac' : Mac}
    (hholds : Holds entries ip mac) (hbound : mac ≠ Mac.zero) (hother : mac ≠ mac')
    (hip : entryByIp entries ip = some i) (hentry : (freeClient entries mac')[i]? = some entry) :
    isVacant entry = false := by
  obtain ⟨j, held, hj, hheld, rfl⟩ := hholds
  obtain rfl := Option.some.inj (hip.symm.trans hj)
  rw [getElem?_freeClient_other hheld hother] at hentry
  obtain rfl := Option.some.inj hentry
  exact decide_eq_false hbound

/-- A client keeps the entry it holds until it asks for an address. -/
theorem Handled.holds (h : Handled entries v entries' reply) (hbound : mac ≠ Mac.zero)
    (hasks : ¬ AsksForAddress mac v) (hholds : Holds entries ip mac) : Holds entries' ip mac := by
  have hother : AsksForAddress (Mac.ofMem v dpChaddr) v → mac ≠ Mac.ofMem v dpChaddr := by
    rintro hclient rfl
    exact hasks hclient
  obtain ⟨i, entry, hip, hentry, hmac⟩ := hholds
  cases h with
  | kept => exact ⟨i, entry, hip, hentry, hmac⟩
  | freed hclient =>
      have hne := hmac ▸ hother hclient
      exact ⟨i, entry, (entryByIp_freeClient ..).trans hip, getElem?_freeClient_other hentry hne,
        hmac⟩
  | @granted ptr j new msg hclient hjp hnew hvacant hack =>
      have hne := hmac ▸ hother hclient
      have hkept := getElem?_freeClient_other hentry hne
      have hji : j ≠ i := by
        rintro rfl
        obtain rfl := Option.some.inj (hnew.symm.trans hkept)
        exact hbound (hmac.symm.trans (of_decide_eq_true hvacant))
      refine ⟨i, entry, (entryByIp_bind ..).trans hip, ?_, hmac⟩
      rw [getElem?_bind, hkept, Option.map_some, if_neg hji]

/-- After an ACK the client holds the entry. -/
theorem Handled.holds_of_ack {msg : List UInt8} (h : Handled entries v entries' (some msg))
    (hack : IsReply dhcpAck ip msg) : Holds entries' ip (Mac.ofMem v dpChaddr) := by
  cases h with
  | kept hkept => exact absurd hack (hkept ip msg rfl)
  | @granted ptr i entry _ hclient hip hentry hvacant hack' =>
      obtain rfl := (isReply_type_inj hack hack').2
      refine ⟨i, { entry with mac := Mac.ofMem v dpChaddr }, (entryByIp_bind ..).trans hip, ?_, rfl⟩
      rw [getElem?_bind, hentry, Option.map_some, if_pos rfl]

/-- What another client holds is not acknowledged. -/
theorem Handled.not_ack {msg : List UInt8} (h : Handled entries v entries' (some msg))
    (hbound : mac ≠ Mac.zero) (hother : mac ≠ Mac.ofMem v dpChaddr)
    (hholds : Holds entries ip mac) : ¬ IsReply dhcpAck ip msg := by
  intro hack
  cases h with
  | kept hkept => exact hkept ip msg rfl hack
  | @granted ptr i entry _ hclient hip hentry hvacant hack' =>
      obtain rfl := (isReply_type_inj hack hack').2
      rw [not_vacant_of_holds hholds hbound hother hip hentry] at hvacant
      cases hvacant

/-! ## One lease for each client -/

/-- An entry of the freed table is as before, or it is vacant. -/
theorem freeClient_cases {i : Nat} {entry : DhcpEntry}
    (h : (freeClient entries mac)[i]? = some entry) :
    entries[i]? = some entry ∧ entryByMac entries mac ≠ some i ∨ entry.mac = Mac.zero := by
  rw [getElem?_freeClient] at h
  obtain ⟨old, hold, rfl⟩ := Option.map_eq_some_iff.mp h
  split
  next => exact .inr rfl
  next hown => exact .inl ⟨hold, hown⟩

/-- In the freed table nothing is bound to the client. -/
theorem freeClient_unbound {i : Nat} {entry : DhcpEntry} (hone : OneLease entries)
    (hbound : mac ≠ Mac.zero) (h : (freeClient entries mac)[i]? = some entry) :
    entry.mac ≠ mac := by
  rintro rfl
  rcases freeClient_cases h with ⟨hentry, hown⟩ | hzero
  · cases hfirst : entryByMac entries entry.mac with
    | none =>
        have hnone := List.findIdx?_eq_none_iff.mp hfirst entry (List.mem_of_getElem? hentry)
        simp at hnone
    | some j =>
        obtain ⟨first, hj, hmac⟩ := entryByMac_eq_some hfirst
        obtain rfl := hone hentry hj hmac.symm hbound
        exact hown hfirst
  · exact hbound hzero

theorem OneLease.freeClient (hone : OneLease entries) (mac : Mac) :
    OneLease (freeClient entries mac) := by
  intro i j entry entry' hi hj hsame hbound
  rcases freeClient_cases hi with ⟨hi', -⟩ | hzero
  · rcases freeClient_cases hj with ⟨hj', -⟩ | hzero
    · exact hone hi' hj' hsame hbound
    · exact absurd (hsame.trans hzero) hbound
  · exact absurd hzero hbound

/-- In the table after an ACK the client is bound to the entry it was granted and
to no other. -/
theorem bind_eq_iff {i j : Nat} {entry : DhcpEntry} (hone : OneLease entries)
    (hbound : mac ≠ Mac.zero)
    (h : ((freeClient entries mac).modify i ({ · with mac := mac }))[j]? = some entry) :
    entry.mac = mac ↔ i = j := by
  rw [getElem?_bind] at h
  obtain ⟨old, hold, rfl⟩ := Option.map_eq_some_iff.mp h
  split
  next hij => exact iff_of_true rfl hij
  next hij => exact iff_of_false (freeClient_unbound hone hbound hold) hij

/-- No datagram binds two entries to one client. -/
theorem Handled.oneLease (h : Handled entries v entries' reply) (hone : OneLease entries) :
    OneLease entries' := by
  cases h with
  | kept => exact hone
  | freed => exact hone.freeClient _
  | @granted ptr k new msg hclient hip hnew hvacant hack =>
      intro i j entry entry' hi hj hsame hbound
      by_cases hmac : entry.mac = Mac.ofMem v dpChaddr
      · rw [hmac] at hbound
        have hki := (bind_eq_iff hone hbound hi).mp hmac
        have hkj := (bind_eq_iff hone hbound hj).mp (hsame.symm.trans hmac)
        exact hki.symm.trans hkj
      · have hother : ∀ {l : Nat} {e : DhcpEntry}, e.mac ≠ Mac.ofMem v dpChaddr →
            ((freeClient entries (Mac.ofMem v dpChaddr)).modify k
              ({ · with mac := Mac.ofMem v dpChaddr }))[l]? = some e →
            (freeClient entries (Mac.ofMem v dpChaddr))[l]? = some e := by
          intro l e hne hl
          rw [getElem?_bind] at hl
          obtain ⟨old, hold, rfl⟩ := Option.map_eq_some_iff.mp hl
          split at hne
          next => exact absurd rfl hne
          next hkl => rw [if_neg hkl, hold]
        exact hone.freeClient _ (hother hmac hi) (hother (hsame ▸ hmac) hj) hsame hbound

/-- No datagram changes the terms of an entry or the number of entries. -/
theorem Handled.terms (h : Handled entries v entries' reply) :
    entries'.map DhcpEntry.terms = entries.map DhcpEntry.terms := by
  have hfree : ∀ mac,
      (freeClient entries mac).map DhcpEntry.terms = entries.map DhcpEntry.terms := by
    intro mac
    unfold freeClient
    split
    next i _ => exact map_modify (f := freeEntry) (fun _ => rfl) i
    next => rfl
  cases h with
  | kept => rfl
  | freed => exact hfree _
  | @granted ptr i => exact (map_modify (f := ({ · with mac := Mac.ofMem v dpChaddr }))
      (fun _ => rfl) i).trans (hfree _)

/-- An ACK leaves the client one entry, the one with the address acknowledged. -/
theorem Handled.boundOnce {msg : List UInt8} (h : Handled entries v entries' (some msg))
    (hone : OneLease entries) (hbound : Mac.ofMem v dpChaddr ≠ Mac.zero)
    (hack : IsReply dhcpAck ip msg) : BoundOnce entries' ip (Mac.ofMem v dpChaddr) := by
  cases h with
  | kept hkept => exact absurd hack (hkept ip msg rfl)
  | @granted ptr i entry _ hclient hip hentry hvacant hack' =>
      obtain rfl := (isReply_type_inj hack hack').2
      rw [← entryByIp_freeClient entries (Mac.ofMem v dpChaddr)] at hip
      obtain ⟨found, hfound, haddr⟩ := entryByIp_eq_some hip
      refine ⟨i, { found with mac := Mac.ofMem v dpChaddr }, ?_, haddr, fun j entry' hj => ?_⟩
      · rw [getElem?_bind, hfound, Option.map_some, if_pos rfl]
      · exact bind_eq_iff hone hbound hj

/-! ## Runs -/

variable {s t u : DhcpState} {e : DhcpEvent} {es : List DhcpEvent}

/-- What a datagram does to the state. -/
theorem dhcpStep_handled (hdatagram : e.IsDatagram) (hstep : dhcpMachine.step s e = some t) :
    ∃ p alloc config r, e = .recv p alloc ∧ s.config = some config ∧
      udpRecvProc config s.entries s.dhcpData p alloc = some r ∧ t.entries = r.entries ∧
      Handled s.entries (overlay p s.dhcpData) t.entries r.reply := by
  cases e with
  | init => cases hdatagram
  | free => cases hdatagram
  | recv p alloc =>
      simp only [dhcpMachine, dhcpStep] at hstep
      split at hstep
      next config _ hconfig =>
        obtain ⟨r, hr, rfl⟩ := Option.map_eq_some_iff.mp hstep
        exact ⟨p, alloc, config, r, rfl, hconfig, hr, rfl, udpRecvProc_handled hr⟩
      next => cases hstep

/-- A client keeps what it holds through every datagram but its own requests. -/
theorem holds_of_step (hbound : mac ≠ Mac.zero) (he : e.IsDatagram ∧ ¬ Asks mac s e)
    (hstep : dhcpMachine.step s e = some t) (hholds : Holds s.entries ip mac) :
    Holds t.entries ip mac := by
  obtain ⟨p, alloc, config, r, rfl, -, -, -, hhandled⟩ := dhcpStep_handled he.1 hstep
  exact hhandled.holds hbound he.2 hholds

/-- An ACK comes out of the table as it is handled. -/
theorem Acks.handled (hacks : Acks ip mac s e) (hstep : dhcpMachine.step s e = some t) :
    ∃ v msg, Mac.ofMem v dpChaddr = mac ∧ IsReply dhcpAck ip msg ∧
      Handled s.entries v t.entries (some msg) := by
  cases e with
  | init => cases hacks
  | free => cases hacks
  | recv p alloc =>
      obtain ⟨config, r, msg, hconfig, hr, hreply, hack, hmac⟩ := hacks
      obtain ⟨_, _, config', r', ⟨⟩, hconfig', hr', -, hhandled⟩ :=
        dhcpStep_handled (e := .recv p alloc) trivial hstep
      obtain rfl := Option.some.inj (hconfig.symm.trans hconfig')
      obtain rfl := Option.some.inj (hr.symm.trans hr')
      exact ⟨overlay p s.dhcpData, msg, hmac, hack, hreply ▸ hhandled⟩

theorem holds_of_acks (hacks : Acks ip mac s e) (hstep : dhcpMachine.step s e = some t) :
    Holds t.entries ip mac := by
  obtain ⟨v, msg, rfl, hack, hhandled⟩ := hacks.handled hstep
  exact hhandled.holds_of_ack hack

theorem not_acks_of_holds {mac' : Mac} (hbound : mac ≠ Mac.zero) (hother : mac ≠ mac')
    (hholds : Holds s.entries ip mac) : ¬ Acks ip mac' s e := by
  intro hacks
  cases e with
  | init => cases hacks
  | free => cases hacks
  | recv p alloc =>
      obtain ⟨config, r, msg, -, hr, hreply, hack, rfl⟩ := hacks
      have hhandled := udpRecvProc_handled hr
      rw [hreply] at hhandled
      exact hhandled.not_ack hbound hother hholds hack

/-- Between two ACKs of an address for different clients the first of them has
asked for an address. -/
theorem lease_exclusive {A B : Mac} {e' : DhcpEvent} {s₁ s₂ : DhcpState} (hA : A ≠ Mac.zero)
    (hAB : A ≠ B) (hdatagrams : ∀ e ∈ es, e.IsDatagram) (hfirst : Acks ip A s e)
    (hstep : dhcpMachine.step s e = some s₁) (hrun : dhcpMachine.run s₁ es = some s₂)
    (hsecond : Acks ip B s₂ e') :
    ∃ front e₀ rest s₀, es = front ++ e₀ :: rest ∧ dhcpMachine.run s₁ front = some s₀ ∧
      Asks A s₀ e₀ := by
  by_contra hnone
  have hmeets : dhcpMachine.Meets (fun s e => e.IsDatagram ∧ ¬ Asks A s e) s₁ es := by
    refine Machine.meets_iff.mpr fun front e₀ rest s₀ heq hfront => ?_
    refine ⟨hdatagrams e₀ (heq ▸ List.mem_append_right front (.head rest)), fun hasks => ?_⟩
    exact hnone ⟨front, e₀, rest, s₀, heq, hfront, hasks⟩
  have hholds : Holds s₂.entries ip A :=
    Machine.invariant (I := fun s => Holds s.entries ip A)
      (fun _ _ _ he hstep hholds => holds_of_step hA he hstep hholds) hmeets hrun
      (holds_of_acks hfirst hstep)
  exact not_acks_of_holds hA hAB hholds hsecond

/-- Two vacant entries. -/
def leaseStart : DhcpState :=
  { pcb := true
    config := some plainConfig
    entries := [⟨Mac.zero, 0x0207A8C0, 0x00FFFFFF, 86400⟩,
      ⟨Mac.zero, 0x0307A8C0, 0x00FFFFFF, 86400⟩] }

/-- The first address passes from one client to another after the first client has
asked for the second address. -/
theorem lease_exclusive_moved :
    ∃ s₁ s₂, dhcpMachine.step leaseStart (.recv (requestOf clientA 0x0207A8C0) true) = some s₁ ∧
      dhcpMachine.run s₁ [.recv (requestOf clientA 0x0307A8C0) true] = some s₂ ∧
      ∃ front e₀ rest s₀, [.recv (requestOf clientA 0x0307A8C0) true] = front ++ e₀ :: rest ∧
        dhcpMachine.run s₁ front = some s₀ ∧ Asks clientA s₀ e₀ := by
  refine ⟨_, _, rfl, rfl, ?_⟩
  refine lease_exclusive (A := clientA) (B := clientB) (by decide) (by decide) ?_
    (show Acks 0x0207A8C0 clientA leaseStart (.recv (requestOf clientA 0x0207A8C0) true) from ?_)
    rfl rfl
    (show Acks 0x0207A8C0 clientB _ (.recv (requestOf clientB 0x0207A8C0) true) from ?_)
  · intro e he
    obtain rfl := List.mem_singleton.mp he
    trivial
  · exact ⟨plainConfig, _, _, rfl, rfl, rfl,
      ⟨by decide +kernel, by decide +kernel, by decide +kernel⟩,
      by decide⟩
  · exact ⟨plainConfig, _, _, rfl, rfl, rfl,
      ⟨by decide +kernel, by decide +kernel, by decide +kernel⟩,
      by decide⟩

/-- In a run of datagrams no two entries come to be bound to one client, every ACK
leaves its client exactly the entry it names, and nothing else of the table
changes. -/
theorem one_lease_each (hdatagrams : ∀ e ∈ es, e.IsDatagram) (hone : OneLease s.entries)
    (hrun : dhcpMachine.run s es = some t) :
    OneLease t.entries ∧ t.entries.map DhcpEntry.terms = s.entries.map DhcpEntry.terms ∧
      ∀ e u ip mac, Acks ip mac t e → mac ≠ Mac.zero → dhcpMachine.step t e = some u →
        BoundOnce u.entries ip mac := by
  have hmeets : dhcpMachine.Meets (fun _ e => e.IsDatagram) s es :=
    (Machine.meets_iff_forall hrun).mpr hdatagrams
  have hkept : OneLease t.entries ∧
      t.entries.map DhcpEntry.terms = s.entries.map DhcpEntry.terms := by
    refine Machine.invariant (I := fun u => OneLease u.entries ∧
      u.entries.map DhcpEntry.terms = s.entries.map DhcpEntry.terms) ?_ hmeets hrun ⟨hone, rfl⟩
    rintro u e w hdatagram hstep ⟨hone', hterms⟩
    obtain ⟨p, alloc, config, r, -, -, -, -, hhandled⟩ := dhcpStep_handled hdatagram hstep
    exact ⟨hhandled.oneLease hone', hhandled.terms.trans hterms⟩
  refine ⟨hkept.1, hkept.2, fun e u ip mac hacks hbound hstep => ?_⟩
  obtain ⟨v, msg, rfl, hack, hhandled⟩ := hacks.handled hstep
  exact hhandled.boundOnce hkept.1 hbound hack

theorem oneLease_leaseStart : OneLease leaseStart.entries := by
  intro i j entry entry' hi _ _ hbound
  have hvacant : ∀ e ∈ leaseStart.entries, e.mac = Mac.zero := by decide
  exact absurd (hvacant entry (List.mem_of_getElem? hi)) hbound

/-- A client that moves to the second address is bound to that one only. -/
theorem one_lease_each_moved :
    ∃ s t, dhcpMachine.run leaseStart [.recv (requestOf clientA 0x0207A8C0) true] = some s ∧
      dhcpMachine.step s (.recv (requestOf clientA 0x0307A8C0) true) = some t ∧
      BoundOnce t.entries 0x0307A8C0 clientA := by
  have hdatagrams : ∀ e ∈ [DhcpEvent.recv (requestOf clientA 0x0207A8C0) true], e.IsDatagram := by
    intro e he
    obtain rfl := List.mem_singleton.mp he
    trivial
  refine ⟨_, _, rfl, rfl, ?_⟩
  refine (one_lease_each hdatagrams oneLease_leaseStart rfl).2.2
    (.recv (requestOf clientA 0x0307A8C0) true) _ _ _ ?_ (by decide) rfl
  · exact ⟨plainConfig, _, _, rfl, rfl, rfl,
      ⟨by decide +kernel, by decide +kernel, by decide +kernel⟩,
      by decide⟩

end Adhoc
