import Adhoc.Rndis.Completion

/-!
# Set requests

`rndis_handle_set_msg` lays out its completion over the message before it looks at the
information of the message, and it looks where the message says, wherever that is.  The
completion covers the type, the length and the object, and leaves `RequestId` and what is behind
its `Status`.

`INFBUF` and the pointer to the parameters of `OID_GEN_RNDIS_CONFIG_PARAMETER` are the same
distance from the message: `RequestId` is behind the two words of `rndis_generic_msg_t`.
-/

namespace Adhoc

open ByteMem

/-! ## What is read -/

/-- The octets of a word. -/
def wordOctets (off : Nat) : List Nat := [off, off + 1, off + 2, off + 3]

/-- The octets of `rndis_config_parameter_t` that are read: the offsets of the name and of the
value, and then the lengths. -/
def configOctets : List Nat := [0, 12, 4, 16].flatMap wordOctets

/-- The octets that are read of the information, by their distance from the pointer. -/
def infbufOctets (oid : UInt32) : List Nat :=
  if oid = oidGenRndisConfigParameter then configOctets
  else if oid = oidGenCurrentPacketFilter then wordOctets 0
  else []

/-- The state in which they are read. -/
def laidOut (s : Control) : Control :=
  layOut remoteNdisSetCmplt 16 [(12, rndisStatusSuccess)] s

/-- The octets that `rndis_handle_set_msg` reads through the pointer, by their distance from the
first octet of the buffer. -/
def infbufReads (s : Control) : List UInt32 :=
  (infbufOctets (s.encapsulatedBuffer.word 12)).map fun k => infbuf (laidOut s) + .ofNat k

/-- The completion has the octet. -/
def Overwritten (i : Nat) : Prop := i < 8 ∨ (12 ≤ i ∧ i < 16)

instance (i : Nat) : Decidable (Overwritten i) := inferInstanceAs (Decidable (_ ∨ _))

/-- The information of a packet filter is in a message of `n` octets, and the filter is. -/
def FilterFits (n : Nat) (s : Control) : Prop :=
  8 + (informationBufferOffset s).toNat + max 4 (informationBufferLength s).toNat ≤ n

/-- A set request in the first `n` octets of the buffer is handled with what it has itself: no
octet is read outside of the message or behind a store of the completion, a packet filter
that does not fit is refused, and one that fits is taken. -/
structure HandlesOwn (outside : Mem) (n : Nat) (s : Control) : Prop where
  inside : ∀ a ∈ infbufReads s, a.toNat < n ∧ ¬ Overwritten a.toNat
  asSent : ∀ a ∈ infbufReads s,
    memoryAt outside (laidOut s) a.toNat = s.encapsulatedBuffer a.toNat
  refused : s.encapsulatedBuffer.word 12 = oidGenCurrentPacketFilter → ¬ FilterFits n s →
    (rndisHandleSetMsg outside s).encapsulatedBuffer.word 12 ≠ rndisStatusSuccess ∧
      (rndisHandleSetMsg outside s).oidPacketFilter = s.oidPacketFilter ∧
      (rndisHandleSetMsg outside s).rndisState = s.rndisState
  taken : s.encapsulatedBuffer.word 12 = oidGenCurrentPacketFilter → FilterFits n s →
    (rndisHandleSetMsg outside s).oidPacketFilter =
      s.encapsulatedBuffer.word (8 + (informationBufferOffset s).toNat)

/-- The information is in the message and clear of the completion. -/
def InformationClear (n : Nat) (s : Control) : Prop :=
  let off := (informationBufferOffset s).toNat
  (s.encapsulatedBuffer.word 12 = oidGenRndisConfigParameter → 8 ≤ off ∧ 8 + off + 20 ≤ n) ∧
  (s.encapsulatedBuffer.word 12 = oidGenCurrentPacketFilter →
    (off = 0 ∨ 8 ≤ off) ∧ FilterFits n s)

instance (n : Nat) (s : Control) : Decidable (FilterFits n s) := inferInstanceAs (Decidable (_ ≤ _))

instance (n : Nat) (s : Control) : Decidable (InformationClear n s) :=
  inferInstanceAs (Decidable (_ ∧ _))

variable {outside : Mem} {n i : Nat} {s : Control}

/-! ## Where it is -/

/-- The completion leaves the other octets. -/
theorem laidOut_of_not (h : ¬ Overwritten i) :
    (laidOut s).encapsulatedBuffer i = s.encapsulatedBuffer i := by
  have hnot : 8 ≤ i ∧ (i < 12 ∨ 16 ≤ i) := by
    unfold Overwritten at h
    omega
  simp only [laidOut, layOut, Mem.writeWords]
  rw [Mem.write_of_notMem _ (by rw [length_wordBytes]; omega),
    Mem.write_of_notMem _ (by rw [length_wordBytes]; omega),
    Mem.write_of_notMem _ (by rw [length_wordBytes]; omega)]

theorem infbuf_laidOut (s : Control) : infbuf (laidOut s) = 8 + informationBufferOffset s := by
  have hword : (laidOut s).encapsulatedBuffer.word 20 = s.encapsulatedBuffer.word 20 :=
    Mem.word_congr fun i hi => laidOut_of_not (by unfold Overwritten; omega)
  rw [infbuf, hword]
  rfl

/-- Where an octet of the information is. -/
theorem infbuf_add_toNat (s : Control) {k : Nat} (hk : k < 20) :
    (infbuf (laidOut s) + .ofNat k).toNat =
      (8 + (informationBufferOffset s).toNat + k) % 4294967296 := by
  have hk' : (UInt32.ofNat k).toNat = k := UInt32.toNat_ofNat_of_lt' (by
    show k < 4294967296
    omega)
  rw [infbuf_laidOut, UInt32.toNat_add, UInt32.toNat_add, hk']
  simp

/-- An octet in the buffer that the completion leaves is read as it was sent. -/
theorem memoryAt_laidOut (hi : i < encBufSize) (h : ¬ Overwritten i) :
    memoryAt outside (laidOut s) i = s.encapsulatedBuffer i :=
  (if_pos hi).trans (laidOut_of_not h)

/-- The octets that are read are in the message and left alone. -/
def ReadsClear (n : Nat) (s : Control) : Prop :=
  ∀ a ∈ infbufReads s, a.toNat < n ∧ ¬ Overwritten a.toNat

theorem readsClear_iff (n : Nat) (s : Control) : ReadsClear n s ↔
    ∀ k ∈ infbufOctets (s.encapsulatedBuffer.word 12),
      (8 + (informationBufferOffset s).toNat + k) % 4294967296 < n ∧
        ¬ Overwritten ((8 + (informationBufferOffset s).toNat + k) % 4294967296) := by
  have hlt : ∀ oid, ∀ k ∈ infbufOctets oid, k < 20 := by
    intro oid k hk
    unfold infbufOctets at hk
    split at hk
    next => exact (show ∀ k ∈ configOctets, k < 20 by decide) k hk
    next =>
      split at hk
      next => exact (show ∀ k ∈ wordOctets 0, k < 20 by decide) k hk
      next => cases hk
  rw [ReadsClear, infbufReads, List.forall_mem_map]
  refine forall₂_congr fun k hk => ?_
  rw [infbuf_add_toNat s (hlt _ k hk)]

/-- Addresses that wrap around come to the front of the completion. -/
theorem readsClear_config (hn : n ≤ encBufSize)
    (hoid : s.encapsulatedBuffer.word 12 = oidGenRndisConfigParameter) : ReadsClear n s ↔
      8 ≤ (informationBufferOffset s).toNat ∧
        8 + (informationBufferOffset s).toNat + 20 ≤ n := by
  have hlt := (informationBufferOffset s).toNat_lt
  have hsize : encBufSize = 120 := rfl
  have hoctets : infbufOctets (s.encapsulatedBuffer.word 12) = configOctets := if_pos hoid
  rw [readsClear_iff, hoctets]
  unfold Overwritten
  constructor
  · intro h
    have h0 := h 0 (by decide)
    have h4 := h 4 (by decide)
    have h7 := h 7 (by decide)
    have h19 := h 19 (by decide)
    omega
  · intro h k hk
    have hk' : k < 20 := (show ∀ k ∈ configOctets, k < 20 by decide) k hk
    omega

theorem readsClear_filter (hn : n ≤ encBufSize)
    (hoid : s.encapsulatedBuffer.word 12 = oidGenCurrentPacketFilter) : ReadsClear n s ↔
      ((informationBufferOffset s).toNat = 0 ∨ 8 ≤ (informationBufferOffset s).toNat) ∧
        8 + (informationBufferOffset s).toNat + 4 ≤ n := by
  have hlt := (informationBufferOffset s).toNat_lt
  have hsize : encBufSize = 120 := rfl
  have hoctets : infbufOctets (s.encapsulatedBuffer.word 12) = wordOctets 0 := by
    rw [hoid]
    rfl
  rw [readsClear_iff, hoctets]
  unfold Overwritten
  constructor
  · intro h
    have h0 := h 0 (by decide)
    have h1 := h 1 (by decide)
    have h2 := h 2 (by decide)
    have h3 := h 3 (by decide)
    omega
  · intro h k hk
    have hk' : k < 4 := (show ∀ k ∈ wordOctets 0, k < 4 by decide) k hk
    omega

/-! ## What is done -/

/-- A packet filter is taken in any case. -/
theorem rndisHandleSetMsg_filter (outside : Mem)
    (hoid : s.encapsulatedBuffer.word 12 = oidGenCurrentPacketFilter) :
    (rndisHandleSetMsg outside s).oidPacketFilter =
        wordAt (memoryAt outside (laidOut s)) (infbuf (laidOut s)) ∧
      (rndisHandleSetMsg outside s).encapsulatedBuffer.word 12 = rndisStatusSuccess := by
  have hne : ¬ oidGenCurrentPacketFilter = oidGenRndisConfigParameter := by decide
  have hstatus : (laidOut s).encapsulatedBuffer.word 12 = rndisStatusSuccess := by
    simp only [laidOut, layOut, Mem.writeWords]
    exact Mem.word_write_wordBytes ..
  simp only [rndisHandleSetMsg, hoid, if_neg hne, if_true]
  exact ⟨rfl, hstatus⟩

/-- The octets of the filter, where they are read as they were sent. -/
theorem wordAt_filter (hn : n ≤ encBufSize)
    (hoid : s.encapsulatedBuffer.word 12 = oidGenCurrentPacketFilter) (h : ReadsClear n s) :
    wordAt (memoryAt outside (laidOut s)) (infbuf (laidOut s)) =
      s.encapsulatedBuffer.word (8 + (informationBufferOffset s).toNat) := by
  have hclear := (readsClear_filter hn hoid).mp h
  have hsize : encBufSize = 120 := rfl
  have hadd (i : Nat) (hi : i < 4) : (infbuf (laidOut s) + .ofNat i).toNat =
      8 + (informationBufferOffset s).toNat + i := by
    rw [infbuf_add_toNat s (by omega)]
    omega
  have hoctet (i : Nat) (hi : i < 4) :
      memoryAt outside (laidOut s) (infbuf (laidOut s) + .ofNat i).toNat =
        s.encapsulatedBuffer (8 + (informationBufferOffset s).toNat + i) := by
    rw [hadd i hi]
    refine memoryAt_laidOut (by omega) ?_
    unfold Overwritten
    omega
  have hshift : s.encapsulatedBuffer.word (8 + (informationBufferOffset s).toNat) =
      Mem.word (fun i => s.encapsulatedBuffer (8 + (informationBufferOffset s).toNat + i)) 0 := rfl
  rw [hshift, wordAt]
  refine Mem.word_congr fun i hi => ?_
  rw [Nat.zero_add]
  exact hoctet i hi

/-- A set request is handled with what it has itself exactly where its information is clear of
the completion and in the message. -/
theorem handlesOwn_iff (hn : n ≤ encBufSize) (outside : Mem) (s : Control) :
    HandlesOwn outside n s ↔ InformationClear n s := by
  constructor
  · intro h
    refine ⟨fun hoid => (readsClear_config hn hoid).mp h.inside, fun hoid => ?_⟩
    obtain ⟨hoff, -⟩ := (readsClear_filter hn hoid).mp h.inside
    refine ⟨hoff, ?_⟩
    by_contra hnot
    exact (h.refused hoid hnot).1 (rndisHandleSetMsg_filter outside hoid).2
  · rintro ⟨hconfig, hfilter⟩
    have hclear : ReadsClear n s := by
      by_cases hoid : s.encapsulatedBuffer.word 12 = oidGenRndisConfigParameter
      · exact (readsClear_config hn hoid).mpr (hconfig hoid)
      · by_cases hoid' : s.encapsulatedBuffer.word 12 = oidGenCurrentPacketFilter
        · obtain ⟨hoff, hfits⟩ := hfilter hoid'
          unfold FilterFits at hfits
          exact (readsClear_filter hn hoid').mpr ⟨hoff, by omega⟩
        · rw [ReadsClear, infbufReads, infbufOctets, if_neg hoid, if_neg hoid']
          exact List.forall_mem_nil _
    refine ⟨hclear, fun a ha => ?_, fun hoid hnot => absurd (hfilter hoid).2 hnot,
      fun hoid _ => ?_⟩
    · obtain ⟨hlt, hnot⟩ := hclear a ha
      exact memoryAt_laidOut (Nat.lt_of_lt_of_le hlt hn) hnot
    · rw [(rndisHandleSetMsg_filter outside hoid).1]
      exact wordAt_filter hn hoid hclear

/-- A packet filter of the value 1 at the end of a message of 32 octets. -/
def filterMessage (off : UInt32) : Mem :=
  Mem.zero.write 0 ([5, 32, 1, oidGenCurrentPacketFilter, 4, off, 0, 1].flatMap wordBytes)

/-- The state with such a message. -/
def filterRequest (off : UInt32) : Control := { encapsulatedBuffer := filterMessage off }

theorem handlesOwn_filterRequest : HandlesOwn Mem.zero 32 (filterRequest 20) := by
  have hclear : InformationClear 32 (filterRequest 20) := by decide +kernel
  exact (handlesOwn_iff (by decide) Mem.zero (filterRequest 20)).mpr hclear

/-- A filter behind the message is taken. -/
theorem not_handlesOwn_filterRequest : ¬ ∀ {n : Nat}, n ≤ encBufSize →
    ∀ (outside : Mem) (s : Control), HandlesOwn outside n s := by
  intro h
  have hoid : (filterRequest 24).encapsulatedBuffer.word 12 = oidGenCurrentPacketFilter := by
    decide +kernel
  have hfits : ¬ FilterFits 32 (filterRequest 24) := by decide +kernel
  have hsize : 32 ≤ encBufSize := by decide
  obtain ⟨hstatus, -⟩ := (h hsize Mem.zero (filterRequest 24)).refused hoid hfits
  exact hstatus (rndisHandleSetMsg_filter Mem.zero hoid).2

end Adhoc
