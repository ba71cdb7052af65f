import Adhoc.Rndis.ControlPath

/-!
# Completions

A request and its completion lie in the same buffer.  `rndis_query` and
`rndis_handle_set_msg` read the object before the completion's `Status`, which has
the same offset, is stored, and no completion stores into `RequestId`, but for
that of a reset, which has `Status` there.

`Answered` relates the buffer before `usbd_rndis_ep0_recv` to the buffer after it:
the completion has the type and the request of what it answers, its
`MessageLength` is the size of its structure and of the value behind it, and
nothing behind that is stored into.  So every message of the five types is
answered, and no other is (`completions_match`).
-/

namespace Adhoc

open ByteMem

/-! ## What a completion should be -/

/-- The types of messages that have a completion. -/
def HasCompletion (type : UInt32) : Prop :=
  type = remoteNdisInitializeMsg ∨ type = remoteNdisQueryMsg ∨ type = remoteNdisSetMsg ∨
    type = remoteNdisResetMsg ∨ type = remoteNdisKeepaliveMsg

instance (type : UInt32) : Decidable (HasCompletion type) :=
  inferInstanceAs (Decidable (_ ∨ _ ∨ _ ∨ _ ∨ _))

/-- The size of the structure of the completion. -/
def completionSize (type : UInt32) : Nat :=
  if type = remoteNdisInitializeMsg then 52 else if type = remoteNdisQueryMsg then 24 else 16

/-- `RequestId` of the message in the buffer. -/
def requestId (s : Control) : UInt32 := s.encapsulatedBuffer.word 8

/-- `InformationBufferLength` of the completion of a query. -/
def informationBufferLength (s : Control) : UInt32 := s.encapsulatedBuffer.word 16

/-- `InformationBufferOffset`, counted from `RequestId`. -/
def informationBufferOffset (s : Control) : UInt32 := s.encapsulatedBuffer.word 20

/-- The octets of a value. -/
def QueryValue.octetsOf : QueryValue → List UInt8
  | .word data => wordBytes data
  | .octets data => data

/-- The value of the object that the query in the buffer names. -/
def queriedValue (s : Control) : List UInt8 :=
  match (queryTable s).lookup (s.encapsulatedBuffer.word 12) with
  | some (_, value) => value.octetsOf
  | none => []

/-- What a completion carries behind its structure. -/
def information (s : Control) : List UInt8 :=
  if messageType s = remoteNdisQueryMsg then queriedValue s else []

/-- The buffer of `t` has the completion of the message in the buffer of `s`. -/
structure Answered (s t : Control) : Prop where
  notified : t.notifications = s.notifications + 1
  type : messageType t = messageType s ||| 0x80000000
  requestId : messageType s ≠ remoteNdisResetMsg → requestId t = requestId s
  length : (messageLength t).toNat = completionSize (messageType s) + (information s).length
  fits : (messageLength t).toNat ≤ encBufSize
  behind : ∀ i, (messageLength t).toNat ≤ i → t.encapsulatedBuffer i = s.encapsulatedBuffer i
  query : messageType s = remoteNdisQueryMsg →
    (informationBufferOffset t).toNat + 8 + (informationBufferLength t).toNat =
        (messageLength t).toNat ∧
      t.encapsulatedBuffer.read ((informationBufferOffset t).toNat + 8)
        (informationBufferLength t).toNat = queriedValue s

/-! ## Laying out -/

section LayOut

variable {type : UInt32} {size : Nat} {fields : List (Nat × UInt32)} {s t : Control}

theorem messageType_layOut (hfields : ∀ f ∈ fields, 4 ≤ f.1) :
    messageType (layOut type size fields s) = type := by
  refine Mem.word_writeWords_cons s.encapsulatedBuffer fun f hf => ?_
  cases hf with
  | head => exact .inl (Nat.le_refl 4)
  | tail _ hf => exact .inl ((Nat.zero_add 4).symm ▸ hfields f hf)

theorem messageLength_layOut (hfields : ∀ f ∈ fields, 8 ≤ f.1) :
    messageLength (layOut type size fields s) = .ofNat size :=
  Mem.word_writeWords_cons _ fun f hf => .inl (hfields f hf)

theorem requestId_layOut (hfields : ∀ f ∈ fields, 12 ≤ f.1) :
    requestId (layOut type size fields s) = requestId s := by
  refine Mem.word_writeWords_disjoint s.encapsulatedBuffer fun f hf => ?_
  cases hf with
  | head => exact .inr (show 4 ≤ 8 by decide)
  | tail _ hf =>
      cases hf with
      | head => exact .inr (Nat.le_refl 8)
      | tail _ hf => exact .inl (hfields f hf)

/-- A completion stores nothing behind its length. -/
theorem layOut_behind (hfields : ∀ f ∈ fields, f.1 + 4 ≤ size) (hsize : 8 ≤ size) {i : Nat}
    (hi : size ≤ i) :
    (layOut type size fields s).encapsulatedBuffer i = s.encapsulatedBuffer i := by
  refine Mem.writeWords_of_ge s.encapsulatedBuffer fun f hf => ?_
  cases hf with
  | head => exact Nat.le_trans (show 4 ≤ 8 by decide) (Nat.le_trans hsize hi)
  | tail _ hf =>
      cases hf with
      | head => exact Nat.le_trans hsize hi
      | tail _ hf => exact Nat.le_trans (hfields f hf) hi

/-- A completion without information. -/
theorem answered_layOut (htype : type = messageType s ||| 0x80000000)
    (hquery : messageType s ≠ remoteNdisQueryMsg) (hsize : size = completionSize (messageType s))
    (hfields : ∀ f ∈ fields, 8 ≤ f.1 ∧ f.1 + 4 ≤ size)
    (hid : messageType s ≠ remoteNdisResetMsg → ∀ f ∈ fields, 12 ≤ f.1)
    (hbuffer : t.encapsulatedBuffer = (layOut type size fields s).encapsulatedBuffer)
    (hnotified : t.notifications = s.notifications + 1) : Answered s t := by
  have hbounds : 8 ≤ size ∧ size ≤ encBufSize := by
    rw [hsize, completionSize, if_neg hquery]
    split <;> decide
  have hword (off : Nat) : t.encapsulatedBuffer.word off =
      (layOut type size fields s).encapsulatedBuffer.word off := by rw [hbuffer]
  have hlength : (messageLength t).toNat = size := by
    have hlt : size < UInt32.size := Nat.lt_of_le_of_lt hbounds.2 (by decide)
    rw [messageLength, hword]
    exact (congrArg UInt32.toNat (messageLength_layOut fun f hf => (hfields f hf).1)).trans
      (UInt32.toNat_ofNat_of_lt' hlt)
  exact {
    notified := hnotified
    type := by
      rw [messageType, hword, ← htype]
      exact messageType_layOut fun f hf => Nat.le_trans (by decide) (hfields f hf).1
    requestId := fun hreset => (hword 8).trans (requestId_layOut (hid hreset))
    length := by rw [hlength, hsize, information, if_neg hquery, List.length_nil, Nat.add_zero]
    fits := hlength ▸ hbounds.2
    behind := fun i hi => by
      rw [hlength] at hi
      rw [hbuffer]
      exact layOut_behind (fun f hf => (hfields f hf).2) hbounds.1 hi
    query := fun h => absurd h hquery }

end LayOut

/-! ## Queries -/

/-- `rndis_query` answers with the value of the object, whatever it is. -/
theorem rndisQuery_eq (s : Control) :
    ∃ status, rndisQuery s = rndisQueryCmplt status (queriedValue s) s := by
  unfold rndisQuery queriedValue
  cases (queryTable s).lookup (s.encapsulatedBuffer.word 12) with
  | none => exact ⟨rndisStatusFailure, rfl⟩
  | some reply =>
      obtain ⟨status, value⟩ := reply
      cases value with
      | word data => exact ⟨status, rfl⟩
      | octets data => exact ⟨status, rfl⟩

/-- Every value fits behind the structure. -/
theorem length_queriedValue_le (s : Control) : (queriedValue s).length ≤ 88 := by
  unfold queriedValue
  cases hlookup : (queryTable s).lookup (s.encapsulatedBuffer.word 12) with
  | none => exact Nat.zero_le 88
  | some reply =>
      obtain ⟨status, value⟩ := reply
      cases value with
      | word data => exact Nat.le_of_ble_eq_true rfl
      | octets data => exact length_of_mem_queryTable (mem_of_lookup hlookup)

/-- The words of the completion of a query. -/
theorem word_rndisQueryCmplt (status : UInt32) (data : List UInt8) (s : Control) {off : Nat}
    (hoff : off + 4 ≤ 24) :
    (rndisQueryCmplt status data s).encapsulatedBuffer.word off =
      (layOut remoteNdisQueryCmplt (24 + data.length)
        [(16, .ofNat data.length), (20, 16), (12, status)] s).encapsulatedBuffer.word off :=
  Mem.word_write_disjoint _ (.inl hoff)

theorem informationBufferLength_rndisQueryCmplt (status : UInt32) (data : List UInt8)
    (s : Control) :
    informationBufferLength (rndisQueryCmplt status data s) = .ofNat data.length := by
  rw [informationBufferLength, word_rndisQueryCmplt status data s (by decide)]
  exact Mem.word_writeWords_cons _ (by simp)

theorem informationBufferOffset_rndisQueryCmplt (status : UInt32) (data : List UInt8)
    (s : Control) : informationBufferOffset (rndisQueryCmplt status data s) = 16 := by
  rw [informationBufferOffset, word_rndisQueryCmplt status data s (by decide)]
  exact Mem.word_writeWords_cons _ (by simp)

theorem answered_rndisQuery {s : Control} (htype : messageType s = remoteNdisQueryMsg) :
    Answered s (rndisQuery s) := by
  obtain ⟨status, hquery⟩ := rndisQuery_eq s
  have hle := length_queriedValue_le s
  have hlength : (messageLength (rndisQueryCmplt status (queriedValue s) s)).toNat =
      24 + (queriedValue s).length := by
    have hlt : 24 + (queriedValue s).length < UInt32.size :=
      Nat.lt_of_le_of_lt (Nat.add_le_add_left hle 24) (by decide)
    rw [messageLength, word_rndisQueryCmplt status _ s (by decide)]
    exact (congrArg UInt32.toNat (messageLength_layOut (by simp))).trans
      (UInt32.toNat_ofNat_of_lt' hlt)
  have hvalue : (informationBufferLength (rndisQueryCmplt status (queriedValue s) s)).toNat =
      (queriedValue s).length := by
    rw [informationBufferLength_rndisQueryCmplt]
    exact UInt32.toNat_ofNat_of_lt' (Nat.lt_of_le_of_lt hle (by decide))
  have hoffset : (informationBufferOffset (rndisQueryCmplt status (queriedValue s) s)).toNat =
      16 := by
    rw [informationBufferOffset_rndisQueryCmplt]
    rfl
  rw [hquery]
  exact {
    notified := rfl
    type := by
      rw [messageType, word_rndisQueryCmplt status _ s (by decide), htype]
      exact messageType_layOut (by simp)
    requestId := fun _ => by
      rw [requestId, word_rndisQueryCmplt status _ s (by decide)]
      exact requestId_layOut (by simp)
    length := by
      rw [hlength, completionSize, information, htype]
      rfl
    fits := by
      rw [hlength]
      exact Nat.le_trans (Nat.add_le_add_left hle 24) (by decide)
    behind := fun i hi => by
      rw [hlength] at hi
      refine (Mem.write_of_ge _ hi).trans (layOut_behind ?_ (by omega) hi)
      simp only [List.forall_mem_cons, List.not_mem_nil, false_imp_iff, implies_true, and_true]
      omega
    query := fun _ => by
      rw [hlength, hvalue, hoffset]
      exact ⟨rfl, Mem.read_write_self _ 24 (queriedValue s)⟩ }

/-! ## The five types -/

theorem answered_rndisHandleSetMsg {s : Control} (htype : messageType s = remoteNdisSetMsg)
    (outside : Mem) : Answered s (rndisHandleSetMsg outside s) := by
  have hcmplt : remoteNdisSetCmplt = messageType s ||| 0x80000000 := by
    rw [htype]
    rfl
  have hquery : messageType s ≠ remoteNdisQueryMsg := by
    rw [htype]
    decide
  have hsize : 16 = completionSize (messageType s) := by
    rw [htype]
    rfl
  -- A status of failure is stored over the one of success.
  have hanswered {fields : List (Nat × UInt32)} {t : Control} (hfields : ∀ f ∈ fields, f.1 = 12)
      (hbuffer : t.encapsulatedBuffer = (layOut remoteNdisSetCmplt 16 fields s).encapsulatedBuffer)
      (hnotified : t.notifications = s.notifications + 1) : Answered s t := by
    refine answered_layOut hcmplt hquery hsize (fun f hf => ?_) (fun _ f hf => ?_) hbuffer hnotified
    · rw [hfields f hf]
      decide
    · exact Nat.le_of_eq (hfields f hf).symm
  dsimp only [rndisHandleSetMsg]
  split
  · exact hanswered (by simp) rfl rfl
  · split
    · exact hanswered (by simp) rfl rfl
    · split
      · exact hanswered (by simp) rfl rfl
      · have htwice : ∀ f ∈ [(12, rndisStatusSuccess), (12, rndisStatusFailure)], f.1 = 12 := by
          simp
        exact hanswered htwice rfl rfl

section Recv

variable {s : Control}

theorem answered_usbdRndisEp0Recv (h : HasCompletion (messageType s)) (outside : Mem) :
    Answered s (usbdRndisEp0Recv outside s) := by
  unfold usbdRndisEp0Recv
  rcases h with h | h | h | h | h
  · rw [if_pos h]
    exact answered_layOut (by rw [h]; rfl) (by rw [h]; decide) (by rw [h]; rfl) (by simp)
      (by simp) rfl rfl
  · rw [h, if_neg (by decide), if_pos rfl]
    exact answered_rndisQuery h
  · rw [h, if_neg (by decide), if_neg (by decide), if_pos rfl]
    exact answered_rndisHandleSetMsg h outside
  · rw [h, if_neg (by decide), if_neg (by decide), if_neg (by decide), if_pos rfl]
    exact answered_layOut (by rw [h]; rfl) (by rw [h]; decide) (by rw [h]; rfl) (by simp)
      (fun hreset => absurd h hreset) rfl rfl
  · rw [h, if_neg (by decide), if_neg (by decide), if_neg (by decide), if_neg (by decide),
      if_pos rfl]
    exact answered_layOut (by rw [h]; rfl) (by rw [h]; decide) (by rw [h]; rfl) (by simp)
      (by simp) rfl rfl

theorem usbdRndisEp0Recv_of_not (h : ¬ HasCompletion (messageType s)) (outside : Mem) :
    usbdRndisEp0Recv outside s = s := by
  simp only [HasCompletion, not_or] at h
  obtain ⟨hinit, hquery, hset, hreset, hkeepalive⟩ := h
  rw [usbdRndisEp0Recv, if_neg hinit, if_neg hquery, if_neg hset, if_neg hreset, if_neg hkeepalive]

end Recv

/-- A message of the five types is answered by its completion, and any other
message changes nothing. -/
theorem completions_match (outside : Mem) (s : Control) :
    if HasCompletion (messageType s) then Answered s (usbdRndisEp0Recv outside s)
    else usbdRndisEp0Recv outside s = s := by
  split
  next h => exact answered_usbdRndisEp0Recv h outside
  next h => exact usbdRndisEp0Recv_of_not h outside

end Adhoc
