import Adhoc.Rndis.RxPath

/-!
# Frames from the endpoint to the stack

The main program polls, one statement of `usb_polling` after the other, and the
data OUT endpoint interrupts it.  The two share `rndis_rx_buffer`, and nothing
guards it but the flag `rndis_rx_started`, which `usb_polling` reads four times
before it has the frame.

What makes this safe is that the endpoint is armed only while the flag is set
(`PollInv.armed`).  A frame waits with the flag cleared, so no packet can be
stored over it until `rndis_rx_start` sets the flag again, and by then it is
copied (`PollFacts`).  Every frame accepted is therefore handed over, in order
and as it was (`frames_delivered`).  Two of them may be on the way at once: the
one that is copied and not yet handed over, and the next one, which may be
accepted before that happens.
-/

namespace Adhoc

open ByteMem EventMachine

/-! ## Statements -/

/-- The pbuf of a frame.  A frame of at most `ETH_MAX_PACKET_SIZE` octets fits one
pbuf of the pool. -/
structure FrameBuf where
  payload : Mem
  len : UInt16

/-- The octets `ethernet_input` is given. -/
def FrameBuf.octets (frame : FrameBuf) : List UInt8 := frame.payload.read 0 frame.len.toNat

/-- The statement the main program executes next. -/
inductive PollPc where
  /-- No call. -/
  | idle
  /-- The test at the start. -/
  | test
  /-- `pbuf_alloc`. -/
  | alloc
  /-- `rndis_rx_data()` among the arguments of `memcpy`. -/
  | source (frame : FrameBuf)
  /-- `rndis_rx_size()` among them. -/
  | count (frame : FrameBuf) (src : Nat)
  /-- `memcpy`, with `i` of `n` octets copied. -/
  | copy (frame : FrameBuf) (src n i : Nat)
  /-- `frame->len = rndis_rx_size()`. -/
  | setLen (frame : FrameBuf)
  /-- The test of `rndis_rx_start`. -/
  | start (frame : FrameBuf)
  /-- The rest of `rndis_rx_start`, with interrupts off. -/
  | arm (frame : FrameBuf)
  /-- `ethernet_input`. -/
  | input (frame : FrameBuf)

/-- The main program and the device, with the frames accepted so far. -/
structure PollState where
  dev : Device
  pc : PollPc := .idle
  accepted : List (List UInt8) := []

inductive PollEvent where
  /-- The endpoint stores octets of a packet of the outstanding receive. -/
  | outPacket (p : OutPacket)
  /-- The outstanding receive completes. -/
  | outComplete (contents : Mem) (size : Int32)
  /-- The main loop calls `usb_polling`. -/
  | poll
  /-- The next statement of it.  `pbuf_alloc` yields `pbuf`. -/
  | main (pbuf : Option FrameBuf)

/-- One statement of `usb_polling`.  It would be undefined to copy from `NULL`. -/
def pollMain (t : PollState) (pbuf : Option FrameBuf) : Option PollState :=
  match t.pc with
  | .idle => none
  | .test =>
      if rndisRxData t.dev = none then some { t with pc := .idle } else some { t with pc := .alloc }
  | .alloc =>
      match pbuf with
      | none => some { t with pc := .idle }
      | some frame => some { t with pc := .source { frame with len := rndisRxSize t.dev } }
  | .source frame => (rndisRxData t.dev).map fun src => { t with pc := .count frame src }
  | .count frame src => some { t with pc := .copy frame src (rndisRxSize t.dev).toNat 0 }
  | .copy frame src n i =>
      if i < n then
        some { t with
          pc := .copy { frame with
            payload := frame.payload.write i [t.dev.rndisRxBuffer (src + i)] } src n (i + 1) }
      else some { t with pc := .setLen frame }
  | .setLen frame => some { t with pc := .start { frame with len := rndisRxSize t.dev } }
  | .start frame =>
      if t.dev.rndisRxStarted then some { t with pc := .input frame }
      else some { t with pc := .arm frame }
  | .arm frame =>
      some { t with
        dev := usbdLLPrepareReceive 0 (.ofNat rndisRxBufferSize)
          { t.dev with rndisRxStarted := true }
        pc := .input frame }
  | .input frame =>
      some { t with
        dev := { t.dev with delivered := t.dev.delivered ++ [frame.octets] }
        pc := .idle }

/-- The frame of a transfer `handle_packet` accepts, as it is then. -/
def acceptedFrame (contents : Mem) (size : Int32) (s : Device) : List (List UInt8) :=
  if s.rndisRxStarted && !(completeOut contents size s).rndisRxStarted then
    [contents.read rndisHeaderSize (RndisDataPacket.ofMem contents 0).dataLength.toNat]
  else []

/-- The endpoint stores and completes only while it is armed. -/
def pollStep (t : PollState) : PollEvent → Option PollState
  | .outPacket p =>
      if t.dev.outEp.enabled then some { t with dev := halPcdRxflvl t.dev p } else none
  | .outComplete contents size =>
      if t.dev.outEp.enabled then
        some { t with
          dev := completeOut contents size t.dev
          accepted := t.accepted ++ acceptedFrame contents size t.dev }
      else none
  | .poll =>
      match t.pc with
      | .idle => some { t with pc := .test }
      | _ => none
  | .main pbuf => pollMain t pbuf

/-- The receive path, statement by statement. -/
def pollMachine : Machine PollState PollEvent := ⟨pollStep⟩

/-- Every message the event has accepted carries 1 to `ETH_MAX_PACKET_SIZE`
octets. -/
def PollEvent.Framed : PollEvent → Prop
  | .outComplete contents size =>
      Accepts (RndisDataPacket.ofMem contents 0) size.toUInt32 →
        1 ≤ (RndisDataPacket.ofMem contents 0).dataLength.toNat ∧
          (RndisDataPacket.ofMem contents 0).dataLength.toNat ≤ ethMaxPacketSize
  | .outPacket _ | .poll | .main _ => True

/-! ## What is promised -/

/-- The frame that waits in `rndis_rx_buffer`, if one does. -/
def pendingFrame (s : Device) : List (List UInt8) :=
  match rndisRxData s with
  | some src => [s.rndisRxBuffer.read src (rndisRxSize s).toNat]
  | none => []

/-- The frame that is copied and not handed over. -/
def PollPc.copied : PollPc → List (List UInt8)
  | .input frame => [frame.octets]
  | _ => []

/-- What the receive path promises of every state: the frames accepted are the
frames handed over, then the one that is copied, then the one that waits. -/
def FramesDelivered (t : PollState) : Prop :=
  t.accepted = t.dev.delivered ++ t.pc.copied ++ pendingFrame t.dev

/-- At most the last frame accepted is not handed over. -/
def AtMostLastPending (t : PollState) : Prop :=
  ∃ rest, t.accepted = t.dev.delivered ++ rest ∧ rest.length ≤ 1

/-- What the receive path promises of every state.  Outside the two statements
between `rndis_rx_start` and `ethernet_input` at most the last frame is missing,
every statement is defined, and a failed `pbuf_alloc` leaves the frame that
waits. -/
structure PollSpec (t : PollState) : Prop where
  frames : FramesDelivered t
  last : t.pc.copied = [] → AtMostLastPending t
  defined : t.pc ≠ .idle → ∀ pbuf, pollMain t pbuf ≠ none
  alloc_failed : t.pc = .alloc → pendingFrame t.dev ≠ [] ∧
    ∀ u, pollMain t none = some u → pendingFrame u.dev = pendingFrame t.dev

/-! ## The invariant -/

/-- What holds before each statement. -/
def PollFacts (t : PollState) : Prop :=
  match t.pc with
  | .idle | .test | .input _ => True
  | .alloc | .source _ => Pending t.dev
  | .count _ src => Pending t.dev ∧ src = rndisHeaderSize
  | .copy frame src n i =>
      Pending t.dev ∧ src = rndisHeaderSize ∧ n = (rndisRxSize t.dev).toNat ∧ i ≤ n ∧
        frame.payload.read 0 i = t.dev.rndisRxBuffer.read src i
  | .setLen frame =>
      Pending t.dev ∧ frame.payload.read 0 (rndisRxSize t.dev).toNat =
        t.dev.rndisRxBuffer.read rndisHeaderSize (rndisRxSize t.dev).toNat
  | .start frame | .arm frame => Pending t.dev ∧ pendingFrame t.dev = [frame.octets]

/-- What holds in every state of a run. -/
structure PollInv (t : PollState) : Prop where
  armed : t.dev.outEp.enabled = true → t.dev.rndisRxStarted = true
  frames : FramesDelivered t
  facts : PollFacts t

/-! ## The endpoint -/

variable {s : Device} {t u : PollState}

theorem pendingFrame_started (h : s.rndisRxStarted = true) : pendingFrame s = [] := by
  rw [pendingFrame, rndisRxData_started h]

theorem pendingFrame_pending (h : Pending s) :
    pendingFrame s = [s.rndisRxBuffer.read rndisHeaderSize (rndisRxSize s).toNat] := by
  rw [pendingFrame, rndisRxData_pending h]

/-- A frame that waits keeps the endpoint silent. -/
theorem pending_of_data (harmed : s.outEp.enabled = true → s.rndisRxStarted = true)
    (hdata : rndisRxData s ≠ none) : Pending s := by
  have hidle : s.rndisRxStarted = false := by
    cases hstarted : s.rndisRxStarted with
    | false => rfl
    | true => exact absurd (rndisRxData_started hstarted) hdata
  refine ⟨?_, hidle, fun hzero => hdata ?_⟩
  · cases henabled : s.outEp.enabled with
    | false => rfl
    | true => exact absurd ((harmed henabled).symm.trans hidle) Bool.noConfusion
  · simp [rndisRxData, rndisRxSize, hzero]

/-- While the endpoint is armed `usb_polling` relies on nothing. -/
theorem PollFacts.of_enabled (h : PollFacts t) (henabled : t.dev.outEp.enabled = true)
    (hpc : u.pc = t.pc) : PollFacts u := by
  have hnot : ¬ Pending t.dev := fun hp => absurd (henabled.symm.trans hp.1) Bool.noConfusion
  unfold PollFacts at h ⊢
  rw [hpc]
  cases hcase : t.pc with
  | idle | test | input => trivial
  | alloc | source =>
      rw [hcase] at h
      exact absurd h hnot
  | count | copy | setLen | start | arm =>
      rw [hcase] at h
      exact absurd h.1 hnot

/-- A packet is stored while no frame waits. -/
theorem PollInv.outPacket (h : PollInv t) (henabled : t.dev.outEp.enabled = true)
    (p : OutPacket) : PollInv { t with dev := halPcdRxflvl t.dev p } := by
  have hsame : (halPcdRxflvl t.dev p).rndisRxStarted = t.dev.rndisRxStarted ∧
      (halPcdRxflvl t.dev p).delivered = t.dev.delivered := by
    unfold halPcdRxflvl
    split <;> exact ⟨rfl, rfl⟩
  have hstarted := h.armed henabled
  refine ⟨fun _ => hsame.1.trans hstarted, ?_, h.facts.of_enabled henabled rfl⟩
  have hframes := h.frames
  unfold FramesDelivered at hframes ⊢
  rw [pendingFrame_started hstarted] at hframes
  rw [pendingFrame_started (hsame.1.trans hstarted), hsame.2]
  exact hframes

/-- A message that is accepted waits, and one that is not leaves nothing. -/
theorem PollInv.outComplete (h : PollInv t) (henabled : t.dev.outEp.enabled = true)
    {contents : Mem} {size : Int32} (hframed : (PollEvent.outComplete contents size).Framed) :
    PollInv { t with
      dev := completeOut contents size t.dev
      accepted := t.accepted ++ acceptedFrame contents size t.dev } := by
  have hstarted := h.armed henabled
  have hframes := h.frames
  rw [FramesDelivered, pendingFrame_started hstarted, List.append_nil] at hframes
  by_cases hacc : Accepts (RndisDataPacket.ofMem contents 0) size.toUInt32
  · obtain ⟨hpos, hle⟩ := hframed hacc
    simp only [ethMaxPacketSize, ethHeaderSize, ethMtu] at hle
    have hlen : (RndisDataPacket.ofMem contents 0).dataLength.toUInt16.toNat =
        (RndisDataPacket.ofMem contents 0).dataLength.toNat := by
      rw [UInt32.toNat_toUInt16]
      omega
    have hdone := completeOut_accepts hacc hstarted
    have hpending : Pending (completeOut contents size t.dev) := by
      rw [hdone]
      refine ⟨rfl, rfl, fun hzero => ?_⟩
      have hzero' : (RndisDataPacket.ofMem contents 0).dataLength.toUInt16.toNat = 0 :=
        congrArg UInt16.toNat hzero
      omega
    have hsize : (rndisRxSize (completeOut contents size t.dev)).toNat =
        (RndisDataPacket.ofMem contents 0).dataLength.toNat := by
      rw [hdone, ← hlen]
      rfl
    have haccepted : acceptedFrame contents size t.dev =
        [contents.read rndisHeaderSize (RndisDataPacket.ofMem contents 0).dataLength.toNat] := by
      rw [acceptedFrame, hstarted, hpending.2.1]
      rfl
    refine ⟨fun hon => absurd (hon.symm.trans hpending.1) Bool.noConfusion, ?_,
      h.facts.of_enabled henabled rfl⟩
    show t.accepted ++ acceptedFrame contents size t.dev =
      (completeOut contents size t.dev).delivered ++ t.pc.copied ++
        pendingFrame (completeOut contents size t.dev)
    rw [haccepted, pendingFrame_pending hpending, hsize, hdone, hframes]
  · have hdone := completeOut_rejects (s := t.dev) hacc
    have hstill : (completeOut contents size t.dev).rndisRxStarted = true := by
      rw [hdone]
      exact hstarted
    have haccepted : acceptedFrame contents size t.dev = [] := by
      rw [acceptedFrame, hstill, Bool.not_true, Bool.and_false]
      rfl
    refine ⟨fun _ => hstill, ?_, h.facts.of_enabled henabled rfl⟩
    show t.accepted ++ acceptedFrame contents size t.dev =
      (completeOut contents size t.dev).delivered ++ t.pc.copied ++
        pendingFrame (completeOut contents size t.dev)
    rw [haccepted, pendingFrame_started hstill, hdone, hframes]

/-! ## The statements -/

/-- A statement that leaves the device and the frame handed over alone. -/
theorem PollInv.advance (h : PollInv t) {pc : PollPc} (hcopied : t.pc.copied = [])
    (hcopied' : pc.copied = []) (hfacts : PollFacts { t with pc := pc }) :
    PollInv { t with pc := pc } := by
  refine ⟨h.armed, ?_, hfacts⟩
  have hframes := h.frames
  unfold FramesDelivered at hframes ⊢
  rw [hcopied] at hframes
  rw [hcopied']
  exact hframes

/-- One statement, by the statement. -/
theorem PollInv.main (h : PollInv t) {pbuf : Option FrameBuf} (hstep : pollMain t pbuf = some u) :
    PollInv u := by
  obtain ⟨dev, pc, accepted⟩ := t
  have hfacts := h.facts
  cases pc with
  | idle => cases hstep
  | test =>
      simp only [pollMain] at hstep
      split at hstep
      next =>
        obtain rfl := Option.some.inj hstep
        exact h.advance rfl rfl trivial
      next hdata =>
        obtain rfl := Option.some.inj hstep
        exact h.advance rfl rfl (pending_of_data h.armed hdata)
  | alloc =>
      cases pbuf with
      | none =>
          obtain rfl := Option.some.inj hstep
          exact h.advance rfl rfl trivial
      | some frame =>
          obtain rfl := Option.some.inj hstep
          exact h.advance rfl rfl hfacts
  | source frame =>
      obtain ⟨src, hsrc, rfl⟩ := Option.map_eq_some_iff.mp hstep
      have hpending : Pending dev := hfacts
      rw [rndisRxData_pending hpending] at hsrc
      exact h.advance rfl rfl ⟨hpending, (Option.some.inj hsrc).symm⟩
  | count frame src =>
      obtain ⟨hpending, hsrc⟩ := hfacts
      obtain rfl := Option.some.inj hstep
      exact h.advance rfl rfl ⟨hpending, hsrc, rfl, Nat.zero_le _, rfl⟩
  | copy frame src n i =>
      obtain ⟨hpending, hsrc, hn, hi, hread⟩ := hfacts
      simp only [pollMain] at hstep
      split at hstep
      next hlt =>
        obtain rfl := Option.some.inj hstep
        refine h.advance rfl rfl ⟨hpending, hsrc, hn, hlt, ?_⟩
        have hsnoc := frame.payload.read_write_snoc 0 i (dev.rndisRxBuffer (src + i))
        rw [Nat.zero_add] at hsnoc
        exact hsnoc.trans (hread ▸ (dev.rndisRxBuffer.read_succ src i).symm)
      next hge =>
        obtain rfl := Option.some.inj hstep
        obtain rfl : i = n := Nat.le_antisymm hi (Nat.not_lt.mp hge)
        rw [hn, hsrc] at hread
        exact h.advance rfl rfl ⟨hpending, hread⟩
  | setLen frame =>
      obtain ⟨hpending, hread⟩ := hfacts
      obtain rfl := Option.some.inj hstep
      refine h.advance rfl rfl ⟨hpending, ?_⟩
      rw [pendingFrame_pending hpending, ← hread]
      rfl
  | start frame =>
      obtain ⟨hpending, hframe⟩ := hfacts
      have hidle : ¬ dev.rndisRxStarted = true := Bool.eq_false_iff.mp hpending.2.1
      simp only [pollMain, if_neg hidle] at hstep
      obtain rfl := Option.some.inj hstep
      exact h.advance rfl rfl ⟨hpending, hframe⟩
  | arm frame =>
      obtain ⟨-, hframe⟩ := hfacts
      obtain rfl := Option.some.inj hstep
      have hframes : accepted = dev.delivered ++ [] ++ pendingFrame dev := h.frames
      refine ⟨fun _ => rfl, ?_, trivial⟩
      show accepted = dev.delivered ++ [frame.octets] ++ []
      rw [hframes, hframe, List.append_nil, List.append_nil]
  | input frame =>
      obtain rfl := Option.some.inj hstep
      have hframes : accepted = dev.delivered ++ [frame.octets] ++ pendingFrame dev := h.frames
      refine ⟨h.armed, ?_, trivial⟩
      show accepted = dev.delivered ++ [frame.octets] ++ [] ++ pendingFrame dev
      rw [hframes, List.append_nil]

/-- Each event keeps the invariant. -/
theorem PollInv.step {e : PollEvent} (h : PollInv t) (hframed : e.Framed)
    (hstep : pollMachine.step t e = some u) : PollInv u := by
  cases e with
  | outPacket p =>
      simp only [pollMachine, pollStep, Option.ite_none_right_eq_some, Option.some.injEq] at hstep
      obtain ⟨henabled, rfl⟩ := hstep
      exact h.outPacket henabled p
  | outComplete contents size =>
      simp only [pollMachine, pollStep, Option.ite_none_right_eq_some, Option.some.injEq] at hstep
      obtain ⟨henabled, rfl⟩ := hstep
      exact h.outComplete henabled hframed
  | poll =>
      obtain ⟨dev, pc, accepted⟩ := t
      cases pc with
      | idle =>
          obtain rfl := Option.some.inj hstep
          exact h.advance rfl rfl trivial
      | _ => cases hstep
  | main pbuf => exact h.main hstep

/-! ## Runs -/

theorem length_pendingFrame_le (s : Device) : (pendingFrame s).length ≤ 1 := by
  unfold pendingFrame
  split
  · exact Nat.le_refl 1
  · exact Nat.zero_le 1

/-- No statement copies from `NULL`. -/
theorem PollInv.defined (h : PollInv t) (hpc : t.pc ≠ .idle) (pbuf : Option FrameBuf) :
    pollMain t pbuf ≠ none := by
  have hfacts := h.facts
  unfold PollFacts at hfacts
  unfold pollMain
  cases hcase : t.pc with
  | idle => exact absurd hcase hpc
  | source frame =>
      rw [hcase] at hfacts
      simp [rndisRxData_pending hfacts]
  | alloc => cases pbuf <;> exact Option.some_ne_none _
  | test | copy | start =>
      dsimp only
      split <;> exact Option.some_ne_none _
  | count | setLen | arm | input => exact Option.some_ne_none _

theorem PollInv.spec (h : PollInv t) : PollSpec t where
  frames := h.frames
  last hcopied := by
    refine ⟨pendingFrame t.dev, ?_, length_pendingFrame_le t.dev⟩
    have hframes := h.frames
    rw [FramesDelivered, hcopied, List.append_nil] at hframes
    exact hframes
  defined := h.defined
  alloc_failed hpc := by
    have hpending : Pending t.dev := by
      have hfacts := h.facts
      rw [PollFacts, hpc] at hfacts
      exact hfacts
    refine ⟨?_, fun u hu => ?_⟩
    · rw [pendingFrame_pending hpending]
      exact List.cons_ne_nil _ _
    · simp only [pollMain, hpc] at hu
      obtain rfl := Option.some.inj hu
      rfl

/-- From a receive that has just been armed on, as long as every message accepted
carries a frame, every state is as promised. -/
theorem frames_delivered {s : Device} (harmed : Armed s) (hnew : s.delivered = [])
    (es : List PollEvent) (hframed : ∀ e ∈ es, e.Framed) (t : PollState)
    (hrun : pollMachine.run { dev := s } es = some t) : PollSpec t := by
  have hstart : PollInv { dev := s } := by
    refine ⟨fun _ => harmed.2, ?_, trivial⟩
    show [] = s.delivered ++ [] ++ pendingFrame s
    rw [hnew, pendingFrame_started harmed.2]
    rfl
  have hmeets := (Machine.meets_iff_forall (P := PollEvent.Framed) hrun).mpr hframed
  exact (Machine.invariant (I := PollInv) (fun _ _ _ he hstep h => h.step he hstep) hmeets hrun
    hstart).spec

/-- A message with a frame of one octet. -/
def oneOctetTransfer : PollEvent :=
  .outComplete (Mem.zero.write 0 (RndisDataPacket.ofSize 1).toBytes) 45

/-- A frame is accepted and `usb_polling` copies it, up to `ethernet_input`. -/
def upToInput : List PollEvent :=
  [oneOctetTransfer, .poll] ++ List.replicate 9 (.main (some ⟨Mem.zero, 0⟩))

theorem framed_upToInput : ∀ e ∈ upToInput, e.Framed := by
  intro e he
  rcases List.mem_append.mp he with he | he
  · rcases List.mem_cons.mp he with rfl | he
    · exact fun _ => by decide
    · obtain rfl := List.mem_singleton.mp he
      trivial
  · obtain rfl := List.eq_of_mem_replicate he
    trivial

theorem not_atMostLastPending (h : t.dev.delivered.length + 1 < t.accepted.length) :
    ¬ AtMostLastPending t := by
  rintro ⟨rest, heq, hle⟩
  rw [heq, List.length_append] at h
  omega

/-- The next frame is accepted before the one that is copied is handed over. -/
theorem two_frames_under_way :
    (∀ e ∈ upToInput ++ [oneOctetTransfer], e.Framed) ∧
      ∃ t, pollMachine.run { dev := rxInit } (upToInput ++ [oneOctetTransfer]) = some t ∧
        t.accepted = [[0], [0]] ∧ t.dev.delivered = [] ∧ ¬ AtMostLastPending t := by
  refine ⟨fun e he => ?_, _, rfl, by decide, by decide, not_atMostLastPending (by decide)⟩
  rcases List.mem_append.mp he with he | he
  · exact framed_upToInput e he
  · obtain rfl := List.mem_singleton.mp he
    exact fun _ => by decide

/-- The same frame handed over. -/
theorem frames_delivered_oneOctet :
    ∃ t, pollMachine.run { dev := rxInit } (upToInput ++ [.main none]) = some t ∧ PollSpec t := by
  refine ⟨_, rfl, frames_delivered armed_rxInit rfl (upToInput ++ [.main none]) ?_ _ rfl⟩
  intro e he
  rcases List.mem_append.mp he with he | he
  · exact framed_upToInput e he
  · obtain rfl := List.mem_singleton.mp he
    trivial

/-! ## The statements and the function -/

/-- `memcpy` without interrupts. -/
theorem copy_steps {frame : FrameBuf} {src n i : Nat} (hpc : t.pc = .copy frame src n i)
    (hi : i ≤ n) (hread : frame.payload.read 0 i = t.dev.rndisRxBuffer.read src i) :
    ∃ frame', frame'.payload.read 0 n = t.dev.rndisRxBuffer.read src n ∧
      pollMachine.run t (List.replicate (n - i + 1) (.main none)) =
        some { t with pc := .setLen frame' } := by
  induction hk : n - i generalizing t frame i with
  | zero =>
      obtain rfl : i = n := by omega
      refine ⟨frame, hread, Machine.run_cons.mpr ⟨_, ?_, rfl⟩⟩
      simp only [pollMachine, pollStep, pollMain, hpc, if_neg (Nat.lt_irrefl i)]
  | succ k ih =>
      have hlt : i < n := by omega
      have hsnoc := frame.payload.read_write_snoc 0 i (t.dev.rndisRxBuffer (src + i))
      rw [Nat.zero_add] at hsnoc
      obtain ⟨frame', hread', hrun⟩ := ih
        (t := { t with pc := .copy { frame with
          payload := frame.payload.write i [t.dev.rndisRxBuffer (src + i)] } src n (i + 1) })
        rfl hlt (hsnoc.trans (hread ▸ (t.dev.rndisRxBuffer.read_succ src i).symm)) (by omega)
      refine ⟨frame', hread', Machine.run_cons.mpr ⟨_, ?_, hrun⟩⟩
      simp only [pollMachine, pollStep, pollMain, hpc, if_pos hlt]

/-- A frame that waits, taken without interrupts, is taken as by the function. -/
theorem usbPolling_steps (hpc : t.pc = .test) (hpending : Pending t.dev) (pbuf : FrameBuf) :
    ∃ es, pollMachine.run t es =
      some { t with pc := .idle, dev := usbPolling true t.dev } := by
  obtain ⟨dev, pc, accepted⟩ := t
  obtain rfl : pc = .test := hpc
  have hdata := rndisRxData_pending hpending
  obtain ⟨frame, hread, hcopy⟩ := copy_steps
    (t := ⟨dev, .copy { pbuf with len := rndisRxSize dev } rndisHeaderSize
      (rndisRxSize dev).toNat 0, accepted⟩) rfl (Nat.zero_le _) rfl
  have hfront : pollMachine.run ⟨dev, .test, accepted⟩ (List.replicate 4 (.main (some pbuf))) =
      some ⟨dev, .copy { pbuf with len := rndisRxSize dev } rndisHeaderSize
        (rndisRxSize dev).toNat 0, accepted⟩ := by
    have htest : ¬ rndisRxData dev = none := by
      rw [hdata]
      exact Option.some_ne_none _
    refine Machine.run_cons.mpr ⟨_, if_neg htest, Machine.run_cons.mpr ⟨_, rfl, ?_⟩⟩
    refine Machine.run_cons.mpr ⟨_, congrArg (Option.map _) hdata,
      Machine.run_cons.mpr ⟨_, rfl, rfl⟩⟩
  have hback : pollMachine.run ⟨dev, .setLen frame, accepted⟩ (List.replicate 4 (.main none)) =
      some ⟨usbPolling true dev, .idle, accepted⟩ := by
    have hidle : ¬ dev.rndisRxStarted = true := Bool.eq_false_iff.mp hpending.2.1
    refine Machine.run_cons.mpr ⟨_, rfl, Machine.run_cons.mpr ⟨_, if_neg hidle, ?_⟩⟩
    refine Machine.run_cons.mpr ⟨_, rfl, Machine.run_cons.mpr ⟨_, rfl, ?_⟩⟩
    rw [hpending.usbPolling_eq, ← hread]
    rfl
  exact ⟨_, Machine.run_append hfront (Machine.run_append hcopy hback)⟩

end Adhoc
