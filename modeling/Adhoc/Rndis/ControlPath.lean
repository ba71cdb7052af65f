import Adhoc.Rndis.Control

/-!
# What the control channel receives and sends

`encapsulated_buffer` takes `ENC_BUF_SIZE` octets, and every completion the
device lays out in it fits.  What `usbd_rndis_setup` does with it does not
depend on that.  It prepares a receive of whatever `wLength` says, and it sends
as many octets as `MessageLength` says, whoever stored it and however many the
host asked for.

`Control.Within.rndisSetup_iff` says which requests are answered as they should
be.  The last word stored into `MessageLength` decides, so the invariant
(`Control.Consistent`) follows who stored it.
-/

namespace Adhoc

open ByteMem

/-! ## Staying inside -/

/-- A response is no longer than the host asked for, than the buffer and than the
completion last laid out, and the host did not choose its length. -/
def Response.Within (r : Response) : Prop :=
  r.length.toNat ≤ min r.wLength.toNat encBufSize ∧ r.length.toNat ≤ r.built ∧ r.byHost = false

/-- Everything received so far fits the buffer, and every response so far stays
within it and within what the device has to say. -/
structure Control.Within (s : Control) : Prop where
  prepared : ∀ len ∈ s.prepared, len.toNat ≤ encBufSize
  responses : ∀ r ∈ s.responses, r.Within

/-- The request has a data stage for the class. -/
def SetupReq.HasData (req : SetupReq) : Prop := isClassReq req = true ∧ req.wLength ≠ 0

/-- The buffer takes what the host announces, or the host asks for all of a
message whose length it has not chosen. -/
def SetupReq.Fits (req : SetupReq) (s : Control) : Prop :=
  req.HasData →
    if isDeviceToHost req then
      s.lengthByHost = false ∧ (messageLength s).toNat ≤ req.wLength.toNat
    else req.wLength.toNat ≤ encBufSize

/-! ## The word in `MessageLength` -/

/-- Unless the host has stored into it since, `MessageLength` is the length of the
completion last laid out, and the buffer holds that many octets. -/
structure Control.Consistent (s : Control) : Prop where
  built_le : s.built ≤ encBufSize
  length_eq : s.lengthByHost = false → (messageLength s).toNat = s.built

variable {s t : Control}

/-- `t` is `s` after something that neither receives nor sends, and it is
consistent. -/
structure Control.Leads (s t : Control) : Prop where
  consistent : t.Consistent
  prepared : t.prepared = s.prepared
  responses : t.responses = s.responses

theorem Control.Leads.trans {u : Control} (h : s.Leads t) (h' : t.Leads u) : s.Leads u :=
  ⟨h'.consistent, h'.prepared.trans h.prepared, h'.responses.trans h.responses⟩

/-- Consistency is about three fields. -/
theorem Control.Consistent.congr (h : s.Consistent)
    (hbuffer : t.encapsulatedBuffer = s.encapsulatedBuffer) (hbuilt : t.built = s.built)
    (hbyHost : t.lengthByHost = s.lengthByHost) : t.Consistent := by
  refine ⟨hbuilt ▸ h.built_le, fun hdevice => ?_⟩
  unfold messageLength
  rw [hbuffer, hbuilt]
  exact h.length_eq (hbyHost.symm.trans hdevice)

/-- A store behind `MessageLength` changes nothing. -/
theorem Control.Consistent.write (h : s.Consistent) {off : Nat} (hoff : 8 ≤ off) (bs : List UInt8) :
    ({ s with encapsulatedBuffer := s.encapsulatedBuffer.write off bs } : Control).Consistent := by
  refine ⟨h.built_le, fun hdevice => ?_⟩
  have hword : (s.encapsulatedBuffer.write off bs).word 4 = s.encapsulatedBuffer.word 4 :=
    Mem.word_write_disjoint _ (.inl hoff)
  rw [← h.length_eq hdevice]
  exact congrArg UInt32.toNat hword

theorem consistent_layOut {size : Nat} {fields : List (Nat × UInt32)} (type : UInt32)
    (hsize : size ≤ encBufSize) (hfields : ∀ f ∈ fields, 8 ≤ f.1) (s : Control) :
    (layOut type size fields s).Consistent := by
  refine ⟨hsize, fun _ => ?_⟩
  have hword : messageLength (layOut type size fields s) = .ofNat size :=
    Mem.word_writeWords_cons _ fun f hf => .inl (hfields f hf)
  have hlt : size < UInt32.size := Nat.lt_of_le_of_lt hsize (by decide)
  exact (congrArg UInt32.toNat hword).trans (UInt32.toNat_ofNat_of_lt' hlt)

theorem leads_rndisQueryCmplt (status : UInt32) {data : List UInt8} (hdata : data.length ≤ 88)
    (s : Control) : s.Leads (rndisQueryCmplt status data s) := by
  have hsize : 24 + data.length ≤ encBufSize :=
    Nat.le_trans (Nat.add_le_add_left hdata 24) (by decide)
  have hlaid : (layOut remoteNdisQueryCmplt (24 + data.length)
      [(16, .ofNat data.length), (20, 16), (12, status)] s).Consistent :=
    consistent_layOut _ hsize (by simp) s
  exact ⟨(hlaid.write (show 8 ≤ 24 by decide) data).congr rfl rfl rfl, rfl, rfl⟩

/-- Every object the device answers for fits behind the header of a completion. -/
theorem length_of_mem_queryTable {oid status : UInt32} {data : List UInt8}
    (h : (oid, status, .octets data) ∈ queryTable s) : data.length ≤ 88 := by
  simp only [queryTable, List.mem_cons, Prod.mk.injEq, QueryValue.octets.injEq, reduceCtorEq,
    and_false, false_or, or_false, List.not_mem_nil] at h
  rcases h with ⟨-, -, rfl⟩ | ⟨-, -, rfl⟩ | ⟨-, -, rfl⟩ | ⟨-, -, rfl⟩ <;> decide

theorem mem_of_lookup {table : List (UInt32 × UInt32 × QueryValue)} {oid : UInt32}
    {reply : UInt32 × QueryValue} (h : table.lookup oid = some reply) : (oid, reply) ∈ table := by
  obtain ⟨pre, post, rfl, -⟩ := List.lookup_eq_some_iff.mp h
  exact List.mem_append_right pre (.head post)

theorem leads_rndisQuery (s : Control) : s.Leads (rndisQuery s) := by
  unfold rndisQuery
  cases hlookup : (queryTable s).lookup (s.encapsulatedBuffer.word 12) with
  | none => exact leads_rndisQueryCmplt rndisStatusFailure (Nat.zero_le _) s
  | some reply =>
      have hmem := mem_of_lookup hlookup
      obtain ⟨status, value⟩ := reply
      cases value with
      | word data =>
          have hword : (wordBytes data).length ≤ 88 := Nat.le_of_ble_eq_true rfl
          exact leads_rndisQueryCmplt status hword s
      | octets data => exact leads_rndisQueryCmplt status (length_of_mem_queryTable hmem) s

theorem leads_rndisHandleSetMsg (outside : Mem) (s : Control) :
    s.Leads (rndisHandleSetMsg outside s) := by
  have hlaid : (layOut remoteNdisSetCmplt 16 [(12, rndisStatusSuccess)] s).Consistent :=
    consistent_layOut _ (by decide) (by simp) s
  dsimp only [rndisHandleSetMsg]
  split
  · exact ⟨hlaid.congr rfl rfl rfl, rfl, rfl⟩
  · split
    · exact ⟨hlaid.congr rfl rfl rfl, rfl, rfl⟩
    · split
      · exact ⟨hlaid.congr rfl rfl rfl, rfl, rfl⟩
      · have hfailed := hlaid.write (show 8 ≤ 12 by decide) (wordBytes rndisStatusFailure)
        exact ⟨hfailed.congr rfl rfl rfl, rfl, rfl⟩

/-- A message is answered with a completion that fits, or nothing happens. -/
theorem Control.Consistent.ep0Recv (h : s.Consistent) (outside : Mem) :
    s.Leads (usbdRndisEp0Recv outside s) := by
  unfold usbdRndisEp0Recv
  split
  · exact ⟨(consistent_layOut _ (by decide) (by simp) s).congr rfl rfl rfl, rfl, rfl⟩
  · split
    · exact leads_rndisQuery s
    · split
      · exact leads_rndisHandleSetMsg outside s
      · split
        · exact ⟨(consistent_layOut _ (by decide) (by simp) s).congr rfl rfl rfl, rfl, rfl⟩
        · split
          · exact ⟨(consistent_layOut _ (by decide) (by simp) s).congr rfl rfl rfl, rfl, rfl⟩
          · exact ⟨h, rfl, rfl⟩

/-- What the host stores is noticed where it is `MessageLength`. -/
theorem Control.Consistent.storeEp0 (h : s.Consistent) (p : OutPacket) :
    s.Leads (storeEp0 p s) := by
  unfold Adhoc.storeEp0
  split
  · refine ⟨⟨h.built_le, fun hdevice => ?_⟩, rfl, rfl⟩
    obtain ⟨hbefore, hapart⟩ := Bool.or_eq_false_iff.mp hdevice
    have hdisjoint : 4 + 4 ≤ s.xferBuff ∨ s.xferBuff + (p.data ++ p.tail).length ≤ 4 := by
      have hnot := of_decide_eq_false hapart
      omega
    rw [← h.length_eq hbefore]
    exact congrArg UInt32.toNat (Mem.word_write_disjoint s.encapsulatedBuffer hdisjoint)
  · exact ⟨h, rfl, rfl⟩

theorem Control.Consistent.dataOutStage (h : s.Consistent) (outside : Mem) :
    s.Leads (usbdLLDataOutStageEp0 outside s) := by
  unfold usbdLLDataOutStageEp0
  split
  · split
    · exact ⟨h.congr rfl rfl rfl, rfl, rfl⟩
    · split
      · obtain ⟨hcons, hprepared, hresponses⟩ := h.ep0Recv outside
        exact ⟨hcons.congr rfl rfl rfl, hprepared, hresponses⟩
      · exact ⟨h.congr rfl rfl rfl, rfl, rfl⟩
  · exact ⟨h, rfl, rfl⟩

/-! ## Requests -/

theorem Control.Within.of_leads (hin : s.Within) (h : s.Leads t) : t.Within :=
  ⟨h.prepared.symm ▸ hin.prepared, h.responses.symm ▸ hin.responses⟩

/-- A request without a data stage for the class changes nothing. -/
theorem usbdRndisSetup_noData {req : SetupReq} (hdata : ¬ req.HasData) (s : Control) :
    usbdRndisSetup req s = s := by
  unfold usbdRndisSetup
  split
  next hclass => rw [if_neg fun hlength => hdata ⟨hclass, hlength⟩]
  next => rfl

/-- A data stage to the host sends as much as `MessageLength` says. -/
theorem usbdRndisSetup_send {req : SetupReq} (hdata : req.HasData)
    (hdir : isDeviceToHost req = true) (s : Control) :
    usbdRndisSetup req s = usbdCtlSendData (messageLength s).toUInt16 req s := by
  rw [usbdRndisSetup, if_pos hdata.1, if_pos hdata.2, if_pos hdir]

/-- A data stage from the host is prepared for as much as the host announces. -/
theorem usbdRndisSetup_receive {req : SetupReq} (hdata : req.HasData)
    (hdir : ¬ isDeviceToHost req = true) (s : Control) :
    usbdRndisSetup req s = usbdCtlPrepareRx req.wLength s := by
  rw [usbdRndisSetup, if_pos hdata.1, if_pos hdata.2, if_neg hdir]

theorem Control.Consistent.rndisSetup (h : s.Consistent) (req : SetupReq) :
    (usbdRndisSetup req s).Consistent := by
  by_cases hdata : req.HasData
  · by_cases hdir : isDeviceToHost req = true
    · rw [usbdRndisSetup_send hdata hdir]
      exact h.congr rfl rfl rfl
    · rw [usbdRndisSetup_receive hdata hdir]
      exact h.congr rfl rfl rfl
  · rw [usbdRndisSetup_noData hdata]
    exact h

/-- What is sent when nobody but the device has stored `MessageLength`. -/
theorem Control.Consistent.sent_eq (h : s.Consistent) (hdevice : s.lengthByHost = false) :
    (messageLength s).toUInt16.toNat = s.built := by
  have hle : s.built < UInt16.size := Nat.lt_of_le_of_lt h.built_le (by decide)
  rw [UInt32.toNat_toUInt16, h.length_eq hdevice]
  exact Nat.mod_eq_of_lt hle

/-- A response is within exactly when the host asked for all of a completion. -/
theorem Control.Consistent.response_within_iff (h : s.Consistent) (req : SetupReq) :
    (Response.mk (messageLength s).toUInt16 req.wLength s.built s.lengthByHost).Within ↔
      s.lengthByHost = false ∧ (messageLength s).toNat ≤ req.wLength.toNat := by
  constructor
  · rintro ⟨hle, -, hdevice⟩
    refine ⟨hdevice, ?_⟩
    rw [h.length_eq hdevice, ← h.sent_eq hdevice]
    exact (Nat.le_min.mp hle).1
  · rintro ⟨hdevice, hle⟩
    have hsent := Nat.le_of_eq (h.sent_eq hdevice)
    rw [h.length_eq hdevice] at hle
    exact ⟨Nat.le_min.mpr ⟨Nat.le_trans hsent hle, Nat.le_trans hsent h.built_le⟩, hsent, hdevice⟩

/-- The class stays within exactly when the request fits. -/
theorem Control.Within.rndisSetup_iff (hin : s.Within) (h : s.Consistent) (req : SetupReq) :
    (usbdRndisSetup req s).Within ↔ req.Fits s := by
  by_cases hdata : req.HasData
  · by_cases hdir : isDeviceToHost req = true
    · rw [usbdRndisSetup_send hdata hdir]
      simp only [SetupReq.Fits, hdata, forall_const, if_pos hdir]
      rw [← h.response_within_iff req]
      constructor
      · intro hafter
        have hnew := (List.forall_mem_append.mp hafter.responses).2
        exact hnew _ (List.mem_singleton_self _)
      · intro hnew
        refine ⟨hin.prepared, List.forall_mem_append.mpr ⟨hin.responses, ?_⟩⟩
        exact List.forall_mem_singleton.mpr hnew
    · rw [usbdRndisSetup_receive hdata hdir]
      simp only [SetupReq.Fits, hdata, forall_const, if_neg hdir]
      constructor
      · intro hafter
        have hnew := (List.forall_mem_append.mp hafter.prepared).2
        exact hnew req.wLength (List.mem_singleton_self _)
      · intro hnew
        refine ⟨List.forall_mem_append.mpr ⟨hin.prepared, ?_⟩, hin.responses⟩
        exact List.forall_mem_singleton.mpr hnew
  · rw [usbdRndisSetup_noData hdata]
    exact iff_of_true hin fun hdata' => absurd hdata' hdata

/-! ## What a host sends -/

/-- A message of a type nobody knows, with a `MessageLength` of 65535. -/
def unknownMessage : OutPacket :=
  ⟨wordBytes 0x12345678 ++ wordBytes 0x0000FFFF, [], by decide, by decide⟩

/-- REMOTE_NDIS_INITIALIZE_MSG. -/
def initializeMessage : OutPacket :=
  ⟨wordBytes 2 ++ wordBytes 24 ++ wordBytes 1 ++ wordBytes 1 ++ wordBytes 0 ++ wordBytes 0x4000, [],
    by decide, by decide⟩

end Adhoc
