import Adhoc.Lib.Machine
import Adhoc.Rndis.Transmit

/-!
# The transmit path under interrupts

The main program calls `linkoutput_fn`, one call after the other, and the data
IN endpoint interrupts it.  `TxState` has the program counter of the call, and
one event of `txMachine` is one statement of it (one octet of a `memcpy` into
`Data`), or the interrupt that ends an outstanding transfer.  Interrupts are off
only in the statement that hands over the first transfer.  `txbad++` is three
instructions of the machine, so it is a load and a store here.

`TxInv` holds in every state of every run.  It leaves room for one defect: an
interrupt that ends the message between that load and that store has its
`txbad--` overwritten.  `lost` counts these.  In a run that has none, everything
the transmit path promises holds in every state (`tx_path_spec`).
-/

namespace Adhoc

open ByteMem EventMachine

/-! ## Statements -/

/-- A chain of pbufs, by their payloads. -/
abbrev Chain : Type := List (List UInt8)

/-- What `linkoutput_fn` returns. -/
inductive Err where
  /-- `ERR_OK`. -/
  | ok
  /-- `ERR_USE`. -/
  | use
deriving DecidableEq

/-- The statement the main program executes next.  From `start` to `store` it is
in `rndis_tx_start`. -/
inductive TxPc where
  /-- No call. -/
  | idle
  /-- The loop that waits for the transmitter. -/
  | poll (i : Nat)
  /-- The test behind the loop. -/
  | check
  /-- The loop over the chain, with `i` octets of its head copied. -/
  | copy (size : UInt16) (i : Nat) (q : Chain)
  /-- The guard of `rndis_tx_start`. -/
  | start (size : UInt16)
  /-- `rndis_tx_transmitting = true`. -/
  | setTransmitting (size : UInt16)
  /-- `rndis_tx_ptr = data`. -/
  | setPtr (size : UInt16)
  /-- `rndis_tx_data_size = size`. -/
  | setSize (size : UInt16)
  /-- The header in `first`. -/
  | header (size : UInt16)
  /-- The octets behind it. -/
  | payload (size : UInt16)
  /-- `rndis_tx_ptr += sended`. -/
  | advance (size : UInt16)
  /-- `rndis_tx_data_size -= sended`. -/
  | shrink (size : UInt16)
  /-- `rndis_tx_ZLP = true` where it is due. -/
  | zlp (size : UInt16)
  /-- `USBD_LL_Transmit` with interrupts off. -/
  | send
  /-- The load of `txbad++`. -/
  | load
  /-- The store of `txbad++`, with the value loaded. -/
  | store (v : UInt32)
  /-- The return of `linkoutput_fn`. -/
  | returning (r : Err)

/-- A call of `rndis_tx_start` is executing. -/
def TxPc.InStart : TxPc → Prop
  | .start _ | .setTransmitting _ | .setPtr _ | .setSize _ | .header _ | .payload _ => True
  | .advance _ | .shrink _ | .zlp _ | .send | .load | .store _ => True
  | .idle | .poll _ | .check | .copy .. | .returning _ => False

/-- `txbad++` has loaded and not stored. -/
def TxPc.isStore : TxPc → Bool
  | .store _ => true
  | _ => false

/-- The main program and the device, with what is observed of them. -/
structure TxState where
  dev : Device
  pc : TxPc := .idle
  /-- The argument of the call. -/
  arg : Chain := []
  /-- The device as it would be without the call. -/
  shadow : Device := dev
  /-- The arguments of the calls that have returned `ERR_OK`. -/
  okCalls : List Chain := []
  /-- The arguments of the calls that have returned `ERR_USE`. -/
  useCalls : List Chain := []
  /-- The calls of `rndis_tx_start` that were refused. -/
  rejected : Nat := 0
  /-- The completions whose `txbad--` was overwritten. -/
  lost : Nat := 0

inductive TxEvent where
  /-- A call of `linkoutput_fn`. -/
  | call (p : Chain)
  /-- The next statement of the main program. -/
  | main
  /-- The interrupt of the data IN endpoint. -/
  | dataIn

/-- One statement of the main program. -/
def mainStep (t : TxState) : Option TxState :=
  match t.pc with
  | .idle => none
  | .poll i =>
      if i < 200 ∧ rndisTxStarted t.dev then some { t with pc := .poll (i + 1) }
      else some { t with pc := .check }
  | .check =>
      if rndisTxStarted t.dev then
        some { t with pc := .returning .use, useCalls := t.useCalls ++ [t.arg] }
      else some { t with pc := .copy 0 0 t.arg }
  | .copy size _ [] => some { t with pc := .start size }
  | .copy size i (p :: q) =>
      match p[i]? with
      | some b =>
          some { t with
            dev := { t.dev with txMem := t.dev.txMem.write (size.toNat + i) [b] }
            pc := .copy size (i + 1) (p :: q) }
      | none => some { t with pc := .copy (size + .ofNat p.length) 0 q }
  | .start size =>
      if rndisTxRefuses size t.dev then some { t with pc := .load, rejected := t.rejected + 1 }
      else some { t with pc := .setTransmitting size }
  | .setTransmitting size =>
      some { t with dev := { t.dev with rndisTxTransmitting := true }, pc := .setPtr size }
  | .setPtr size => some { t with dev := { t.dev with rndisTxPtr := some 0 }, pc := .setSize size }
  | .setSize size =>
      some { t with dev := { t.dev with rndisTxDataSize := size }, pc := .header size }
  | .header size =>
      some { t with
        dev := { t.dev with first := t.dev.first.write 0 (RndisDataPacket.ofSize size).toBytes }
        pc := .payload size }
  | .payload size =>
      some { t with
        dev := { t.dev with
          first := t.dev.first.write rndisHeaderSize (t.dev.txMem.read 0 (sended size).toNat) }
        pc := .advance size }
  | .advance size =>
      some { t with
        dev := { t.dev with rndisTxPtr := t.dev.rndisTxPtr.map (· + (sended size).toNat) }
        pc := .shrink size }
  | .shrink size =>
      some { t with
        dev := { t.dev with rndisTxDataSize := t.dev.rndisTxDataSize - sended size }
        pc := .zlp size }
  | .zlp size =>
      some { t with
        dev := { t.dev with rndisTxZLP := if needsZLP size then true else t.dev.rndisTxZLP }
        pc := .send }
  | .send =>
      some { t with
        dev := usbdLLTransmit (t.dev.first.read 0 rndisDataInSz) t.dev
        pc := .load }
  | .load => some { t with pc := .store t.dev.txbad }
  | .store v =>
      some { t with
        dev := { t.dev with txbad := v + 1 }
        pc := .returning .ok
        okCalls := t.okCalls ++ [t.arg] }
  | .returning _ => some { t with pc := .idle }

/-- The interrupt that ends the outstanding transfer. -/
def dataInIrq (s : Device) : Device := usbdRndisDataIn rndisDataInEp { s with inEnabled := false }

/-- The interrupt ends the message while `txbad++` has loaded and not stored. -/
def LosesDecrement (t : TxState) : TxEvent → Prop
  | .dataIn => t.pc.isStore = true ∧ remaining t.dev = []
  | .call _ | .main => False

def txStep (t : TxState) : TxEvent → Option TxState
  | .call p =>
      match t.pc with
      | .idle =>
          if 1 ≤ p.flatten.length ∧ p.flatten.length ≤ ethMaxPacketSize then
            some { t with pc := .poll 0, arg := p, shadow := t.dev }
          else none
      | _ => none
  | .main => mainStep t
  | .dataIn =>
      if t.dev.inEnabled then
        some { t with
          dev := dataInIrq t.dev
          shadow := dataInIrq t.shadow
          lost := if t.pc.isStore && (remaining t.dev).isEmpty then t.lost + 1 else t.lost }
      else none

/-- The transmit path. -/
def txMachine : Machine TxState TxEvent := ⟨txStep⟩

/-! ## What is promised -/

/-- The frames of the calls that started a message, in call order. -/
def TxState.frames (t : TxState) : List (List UInt8) :=
  t.okCalls.map List.flatten ++
    match t.pc with
    | .load | .store _ => [t.arg.flatten]
    | _ => []

/-- The messages in flight, none or one. -/
def inFlight (s : Device) : Nat := if s.inEnabled then 1 else 0

/-- The last frame is in flight: the messages before it are on the endpoint, it
has begun, and what is still to be handed over completes it. -/
def InFlight (frames : List (List UInt8)) (s : Device) : Prop :=
  ∃ fs f past pre, frames = fs ++ [f] ∧ s.sent = past ++ pre ∧ Delivered fs past ∧ pre ≠ [] ∧
    Carries f (pre ++ remaining s)

/-- The messages of the frames are on the endpoint, in order, and nothing else. -/
def OnEndpoint (frames : List (List UInt8)) (s : Device) : Prop :=
  if s.inEnabled then InFlight frames s else Delivered frames s.sent

/-- What the transmit path promises of every state. -/
structure TxSpec (t : TxState) : Prop where
  messages : OnEndpoint t.frames t.dev
  use_untouched : t.pc = .returning .use → t.dev = t.shadow
  started_iff : ¬ t.pc.InStart → (rndisTxStarted t.dev = true ↔ t.dev.inEnabled = true)
  txok_eq : ¬ t.pc.InStart → t.dev.txok = .ofNat (t.frames.length - inFlight t.dev)
  txbad_eq : ¬ t.pc.InStart → t.dev.txbad = .ofNat (t.rejected + inFlight t.dev)

/-- An idle transmitter that has sent nothing. -/
structure TxIdle (s : Device) : Prop where
  transmitting : s.rndisTxTransmitting = false
  zlp : s.rndisTxZLP = false
  enabled : s.inEnabled = false
  sent : s.sent = []
  txok : s.txok = 0
  txbad : s.txbad = 0

/-! ## The invariant -/

/-- The transmitter is busy exactly while a transfer is outstanding. -/
def Settled (s : Device) : Prop :=
  (s.rndisTxTransmitting = true ↔ s.inEnabled = true) ∧
    (s.inEnabled = false → s.rndisTxZLP = false)

/-- The transmitter is idle and the frame `f` is in `Data`. -/
def Loaded (f : List UInt8) (size : UInt16) (s : Device) : Prop :=
  s.inEnabled = false ∧ s.rndisTxZLP = false ∧ size = .ofNat f.length ∧
    s.txMem.read 0 f.length = f

/-- The chain up to `q` and `i` octets of its head are in `Data`. -/
def Copied (arg : Chain) (size : UInt16) (i : Nat) (q : Chain) (s : Device) : Prop :=
  ∃ front, arg = front ++ q ∧ size.toNat = front.flatten.length ∧ i ≤ (q.headD []).length ∧
    s.txMem.read 0 (size.toNat + i) = front.flatten ++ (q.headD []).take i

/-- What holds of the device before each statement. -/
def TxFacts (t : TxState) : Prop :=
  let f := t.arg.flatten
  match t.pc with
  | .idle | .load | .store _ | .returning .ok => Settled t.dev
  | .poll _ | .check | .returning .use => Settled t.dev ∧ t.dev = t.shadow
  | .copy size i q =>
      t.dev.inEnabled = false ∧ t.dev.rndisTxZLP = false ∧
        t.dev.rndisTxTransmitting = false ∧ Copied t.arg size i q t.dev
  | .start size | .setTransmitting size =>
      Loaded f size t.dev ∧ t.dev.rndisTxTransmitting = false
  | .setPtr size => Loaded f size t.dev ∧ t.dev.rndisTxTransmitting = true
  | .setSize size =>
      Loaded f size t.dev ∧ t.dev.rndisTxTransmitting = true ∧ t.dev.rndisTxPtr = some 0
  | .header size =>
      Loaded f size t.dev ∧ t.dev.rndisTxTransmitting = true ∧ t.dev.rndisTxPtr = some 0 ∧
        t.dev.rndisTxDataSize = size
  | .payload size =>
      Loaded f size t.dev ∧ t.dev.rndisTxTransmitting = true ∧ t.dev.rndisTxPtr = some 0 ∧
        t.dev.rndisTxDataSize = size ∧
        t.dev.first.read 0 rndisHeaderSize = (RndisDataPacket.ofSize (.ofNat f.length)).toBytes
  | .advance size =>
      Loaded f size t.dev ∧ t.dev.rndisTxTransmitting = true ∧ t.dev.rndisTxPtr = some 0 ∧
        t.dev.rndisTxDataSize = size ∧ FirstFilled f t.dev.first
  | .shrink size =>
      Loaded f size t.dev ∧ t.dev.rndisTxTransmitting = true ∧
        t.dev.rndisTxPtr = some (0 + (sended size).toNat) ∧
        t.dev.rndisTxDataSize = size ∧ FirstFilled f t.dev.first
  | .zlp size =>
      Loaded f size t.dev ∧ t.dev.rndisTxTransmitting = true ∧
        t.dev.rndisTxPtr = some (0 + (sended size).toNat) ∧
        t.dev.rndisTxDataSize = size - sended size ∧ FirstFilled f t.dev.first
  | .send =>
      t.dev.inEnabled = false ∧ t.dev.rndisTxTransmitting = true ∧ Ready 0 f t.dev

/-- `txbad` once the increment under way is done. -/
def TxState.txbadDone (t : TxState) : UInt32 :=
  match t.pc with
  | .load => t.dev.txbad + 1
  | .store v => v + 1
  | _ => t.dev.txbad

/-- What holds in every state of a run. -/
structure TxInv (t : TxState) : Prop where
  messages : OnEndpoint t.frames t.dev
  bounds : t.pc ≠ .idle →
    1 ≤ t.arg.flatten.length ∧ t.arg.flatten.length ≤ ethMaxPacketSize
  txok_eq : t.dev.txok = .ofNat (t.frames.length - inFlight t.dev)
  txbad_eq : t.txbadDone = .ofNat (t.rejected + t.lost + inFlight t.dev)
  facts : TxFacts t

/-! ## The interrupt -/

/-- The interrupt in the middle of a message. -/
theorem dataInIrq_cons {s : Device} {b : List UInt8} {ts : List (List UInt8)}
    (h : remaining s = b :: ts) :
    remaining (dataInIrq s) = ts ∧ (dataInIrq s).sent = s.sent ++ [b] ∧
      (dataInIrq s).inEnabled = true ∧ SameOutsideTx s (dataInIrq s) := by
  obtain ⟨hrem, hsent, hen, hsame⟩ :=
    usbdRndisDataIn_cons (s := { s with inEnabled := false }) h
  exact ⟨hrem, hsent, hen, hsame.txMem, hsame.txok, hsame.txbad, hsame.transmitting⟩

/-- The interrupt at the end of a message. -/
theorem dataInIrq_nil {s : Device} (h : remaining s = []) :
    dataInIrq s =
      { s with
        inEnabled := false
        txbad := s.txbad - 1
        txok := s.txok + 1
        rndisTxTransmitting := false } :=
  usbdRndisDataIn_nil (s := { s with inEnabled := false }) h

theorem remaining_nil_zlp {s : Device} (h : remaining s = []) : s.rndisTxZLP = false := by
  obtain ⟨-, hzlp⟩ := List.append_eq_nil_iff.mp h
  cases hflag : s.rndisTxZLP with
  | false => rfl
  | true => simp [hflag] at hzlp

theorem Settled.dataInIrq {s : Device} (h : Settled s) (hen : s.inEnabled = true) :
    Settled (dataInIrq s) := by
  cases hrem : remaining s with
  | nil =>
      rw [dataInIrq_nil hrem]
      exact ⟨⟨fun h => Bool.noConfusion h, fun h => Bool.noConfusion h⟩,
        fun _ => remaining_nil_zlp hrem⟩
  | cons b ts =>
      obtain ⟨-, -, hen', hsame⟩ := dataInIrq_cons hrem
      refine ⟨?_, fun hoff => Bool.noConfusion (hen'.symm.trans hoff)⟩
      rw [hen', hsame.transmitting, h.1, hen]

theorem OnEndpoint.dataInIrq {frames : List (List UInt8)} {s : Device} (h : OnEndpoint frames s)
    (hen : s.inEnabled = true) : OnEndpoint frames (dataInIrq s) := by
  rw [OnEndpoint, if_pos hen] at h
  obtain ⟨fs, f, past, pre, rfl, hsent, hpast, hpre, hf⟩ := h
  cases hrem : remaining s with
  | nil =>
      rw [hrem, List.append_nil] at hf
      rw [dataInIrq_nil hrem, OnEndpoint, if_neg Bool.false_ne_true]
      show Delivered (fs ++ [f]) s.sent
      rw [hsent]
      exact hpast.concat hf
  | cons b ts =>
      obtain ⟨hrem', hsent', hen', -⟩ := dataInIrq_cons hrem
      rw [OnEndpoint, if_pos hen']
      refine ⟨fs, f, past, pre ++ [b], rfl, ?_, hpast, by simp, ?_⟩
      · rw [hsent', hsent, List.append_assoc]
      · rw [hrem', List.append_assoc, List.singleton_append, ← hrem]
        exact hf

/-- A message in flight is one of the messages started. -/
theorem OnEndpoint.inFlight_le {frames : List (List UInt8)} {s : Device}
    (h : OnEndpoint frames s) : inFlight s ≤ frames.length := by
  unfold OnEndpoint at h
  unfold inFlight
  split at h
  next hen =>
    obtain ⟨fs, f, -, -, rfl, -⟩ := h
    rw [if_pos hen, List.length_append]
    exact Nat.le_add_left 1 _
  next hen =>
    rw [if_neg hen]
    exact Nat.zero_le _

theorem inFlight_on {s : Device} (h : s.inEnabled = true) : inFlight s = 1 := if_pos h

theorem inFlight_off {s : Device} (h : s.inEnabled = false) : inFlight s = 0 :=
  if_neg (by rw [h]; decide)

theorem ofNat_succ_sub_one (n : Nat) : UInt32.ofNat (n + 1) - 1 = .ofNat n := by
  rw [UInt32.ofNat_add]
  exact UInt32.add_sub_cancel _ _

/-- The transmitter is settled wherever the interrupt can fall. -/
theorem TxFacts.settled {t : TxState} (h : TxFacts t) (hen : t.dev.inEnabled = true) :
    Settled t.dev := by
  unfold TxFacts at h
  cases hpc : t.pc with
  | idle | load | store =>
      rw [hpc] at h
      exact h
  | poll | check =>
      rw [hpc] at h
      exact h.1
  | returning r =>
      rw [hpc] at h
      cases r with
      | ok => exact h
      | use => exact h.1
  | copy | send =>
      rw [hpc] at h
      exact Bool.noConfusion (hen.symm.trans h.1)
  | start | setTransmitting | setPtr | setSize | header | payload | advance | shrink | zlp =>
      rw [hpc] at h
      exact Bool.noConfusion (hen.symm.trans h.1.1)

theorem TxFacts.dataIn {t u : TxState} (h : TxFacts t) (hen : t.dev.inEnabled = true)
    (hdev : u.dev = dataInIrq t.dev) (hshadow : u.shadow = dataInIrq t.shadow)
    (hpc : u.pc = t.pc) : TxFacts u := by
  have hsettled : Settled u.dev := hdev ▸ (h.settled hen).dataInIrq hen
  unfold TxFacts at h ⊢
  rw [hpc]
  cases hcase : t.pc with
  | idle | load | store => exact hsettled
  | poll | check =>
      rw [hcase] at h
      exact ⟨hsettled, by rw [hdev, hshadow, h.2]⟩
  | returning r =>
      rw [hcase] at h
      cases r with
      | ok => exact hsettled
      | use => exact ⟨hsettled, by rw [hdev, hshadow, h.2]⟩
  | copy | send =>
      rw [hcase] at h
      exact Bool.noConfusion (hen.symm.trans h.1)
  | start | setTransmitting | setPtr | setSize | header | payload | advance | shrink | zlp =>
      rw [hcase] at h
      exact Bool.noConfusion (hen.symm.trans h.1.1)

/-- The decrement at the end of a message reaches `txbad`, or it is lost. -/
theorem TxState.txbadDone_nil {t u : TxState} (hpc : u.pc = t.pc)
    (hbad : u.dev.txbad = t.dev.txbad - 1) :
    u.txbadDone = if t.pc.isStore then t.txbadDone else t.txbadDone - 1 := by
  unfold TxState.txbadDone
  rw [hpc, hbad]
  cases t.pc with
  | load =>
      show t.dev.txbad - 1 + 1 = t.dev.txbad + 1 - 1
      rw [UInt32.sub_add_cancel, UInt32.add_sub_cancel]
  | _ => rfl

/-- The interrupt, wherever it falls. -/
theorem TxInv.dataIn {t u : TxState} (h : TxInv t) (hstep : txStep t .dataIn = some u) :
    TxInv u := by
  simp only [txStep, Option.ite_none_right_eq_some, Option.some.injEq] at hstep
  obtain ⟨hen, hu⟩ := hstep
  have hdev : u.dev = dataInIrq t.dev := by rw [← hu]
  have hpc : u.pc = t.pc := by rw [← hu]
  have hrejected : u.rejected = t.rejected := by rw [← hu]
  have hlost : u.lost = if t.pc.isStore && (remaining t.dev).isEmpty then t.lost + 1
      else t.lost := by rw [← hu]
  have hframes : u.frames = t.frames := by rw [← hu]; rfl
  have hfacts : TxFacts u := h.facts.dataIn hen hdev (by rw [← hu]) hpc
  have hbounds : u.pc ≠ .idle → 1 ≤ u.arg.flatten.length ∧ u.arg.flatten.length ≤
      ethMaxPacketSize := by rw [← hu]; exact h.bounds
  have hmessages : OnEndpoint u.frames u.dev := by
    rw [hframes, hdev]
    exact h.messages.dataInIrq hen
  have hok := h.txok_eq
  have hbad := h.txbad_eq
  rw [inFlight_on hen] at hok hbad
  cases hrem : remaining t.dev with
  | nil =>
      have hle := h.messages.inFlight_le
      rw [inFlight_on hen] at hle
      have hend := dataInIrq_nil hrem
      rw [← hdev] at hend
      have hoff : inFlight u.dev = 0 := inFlight_off (by rw [hend])
      refine ⟨hmessages, hbounds, ?_, ?_, hfacts⟩
      · obtain ⟨k, hk⟩ := Nat.exists_eq_add_of_le' hle
        rw [hframes, hoff, Nat.sub_zero, hk, UInt32.ofNat_add, hend]
        show t.dev.txok + 1 = .ofNat k + 1
        rw [hok, hk, Nat.add_sub_cancel]
      · rw [TxState.txbadDone_nil hpc (by rw [hend]), hoff, hrejected, hlost, hrem, hbad]
        cases t.pc.isStore with
        | true => exact congrArg UInt32.ofNat (by simp; omega)
        | false => exact ofNat_succ_sub_one _
  | cons b ts =>
      obtain ⟨-, -, hen', hsame⟩ := dataInIrq_cons hrem
      rw [← hdev] at hen' hsame
      refine ⟨hmessages, hbounds, ?_, ?_, hfacts⟩
      · rw [hframes, inFlight_on hen', hsame.txok, hok]
      · have hdone : u.txbadDone = t.txbadDone := by
          unfold TxState.txbadDone
          rw [hpc, hsame.txbad]
        rw [hdone, hbad, inFlight_on hen', hrejected, hlost, hrem, List.isEmpty_cons,
          Bool.and_false, if_neg Bool.false_ne_true]

/-! ## The copy into `Data` -/

theorem Copied.start (arg : Chain) (s : Device) : Copied arg 0 0 arg s :=
  ⟨[], rfl, rfl, Nat.zero_le _, rfl⟩

/-- One octet of the `memcpy`. -/
theorem Copied.octet {arg q : Chain} {p : List UInt8} {size : UInt16} {i : Nat} {b : UInt8}
    {s : Device} (h : Copied arg size i (p :: q) s) (hb : p[i]? = some b) :
    Copied arg size (i + 1) (p :: q)
      { s with txMem := s.txMem.write (size.toNat + i) [b] } := by
  obtain ⟨front, harg, hsize, -, hread⟩ := h
  obtain ⟨hi, -⟩ := List.getElem?_eq_some_iff.mp hb
  refine ⟨front, harg, hsize, hi, ?_⟩
  show (s.txMem.write (size.toNat + i) [b]).read 0 (size.toNat + i + 1) =
    front.flatten ++ p.take (i + 1)
  have hsnoc := s.txMem.read_write_snoc 0 (size.toNat + i) b
  rw [Nat.zero_add] at hsnoc
  rw [hsnoc, hread, List.take_add_one, hb, List.append_assoc]
  rfl

/-- The end of one `memcpy`. -/
theorem Copied.next {arg q : Chain} {p : List UInt8} {size : UInt16} {i : Nat} {s : Device}
    (h : Copied arg size i (p :: q) s) (hend : p[i]? = none)
    (hle : arg.flatten.length ≤ ethMaxPacketSize) :
    Copied arg (size + .ofNat p.length) 0 q s := by
  obtain ⟨front, rfl, hsize, hi, hread⟩ := h
  have hi' : i = p.length := Nat.le_antisymm hi (List.getElem?_eq_none_iff.mp hend)
  have hlen : size.toNat + p.length ≤ 1514 := by
    simp only [List.flatten_append, List.flatten_cons, List.length_append] at hle
    simp only [ethMaxPacketSize, ethHeaderSize, ethMtu] at hle
    omega
  have hsum : (size + UInt16.ofNat p.length).toNat = size.toNat + p.length := by
    rw [UInt16.toNat_add, UInt16.toNat_ofNat']
    omega
  refine ⟨front ++ [p], by simp, ?_, Nat.zero_le _, ?_⟩
  · rw [hsum, hsize, List.flatten_append, List.length_append, List.flatten_singleton]
  · rw [hsum, Nat.add_zero, ← hi', hread, hi']
    simp

/-- The end of the chain. -/
theorem Copied.loaded {arg : Chain} {size : UInt16} {i : Nat} {s : Device}
    (h : Copied arg size i [] s) (hen : s.inEnabled = false) (hzlp : s.rndisTxZLP = false) :
    Loaded arg.flatten size s := by
  obtain ⟨front, rfl, hsize, hi, hread⟩ := h
  have hi' : i = 0 := Nat.le_zero.mp hi
  rw [List.append_nil]
  refine ⟨hen, hzlp, ?_, ?_⟩
  · rw [← hsize, UInt16.ofNat_toNat]
  · rw [← hsize]
    simpa [hi'] using hread

/-! ## The main program -/

/-- Nothing is in flight while a frame is being set up. -/
theorem Loaded.elim {f : List UInt8} {size : UInt16} {s : Device} {P : Prop}
    (h : Loaded f size s) (hon : s.inEnabled = true) : P :=
  Bool.noConfusion (h.1.symm.trans hon)

/-- A statement that leaves what is observed of the endpoint alone. -/
structure Steady (t u : TxState) : Prop where
  frames : u.frames = t.frames
  sent : u.dev.sent = t.dev.sent
  enabled : u.dev.inEnabled = t.dev.inEnabled
  remaining : t.dev.inEnabled = true → remaining u.dev = remaining t.dev
  txok : u.dev.txok = t.dev.txok
  txbad : u.txbadDone = t.txbadDone
  rejected : u.rejected = t.rejected
  lost : u.lost = t.lost
  bounds : 1 ≤ u.arg.flatten.length ∧ u.arg.flatten.length ≤ ethMaxPacketSize

theorem OnEndpoint.of_eq {frames : List (List UInt8)} {s t : Device} (h : OnEndpoint frames s)
    (hen : t.inEnabled = s.inEnabled) (hsent : t.sent = s.sent)
    (hrem : s.inEnabled = true → Adhoc.remaining t = Adhoc.remaining s) : OnEndpoint frames t := by
  unfold OnEndpoint at h ⊢
  rw [hen]
  split at h
  next hon =>
    rw [if_pos hon]
    obtain ⟨fs, f, past, pre, hframes, hs, hpast, hpre, hf⟩ := h
    exact ⟨fs, f, past, pre, hframes, hsent.trans hs, hpast, hpre, by rw [hrem hon]; exact hf⟩
  next hoff =>
    rw [if_neg hoff, hsent]
    exact h

theorem TxInv.steady {t u : TxState} (h : TxInv t) (hs : Steady t u) (hfacts : TxFacts u) :
    TxInv u := by
  have hcount : inFlight u.dev = inFlight t.dev := by
    unfold inFlight
    rw [hs.enabled]
  refine ⟨?_, fun _ => hs.bounds, ?_, ?_, hfacts⟩
  · rw [hs.frames]
    exact h.messages.of_eq hs.enabled hs.sent hs.remaining
  · rw [hs.txok, h.txok_eq, hs.frames, hcount]
  · rw [hs.txbad, h.txbad_eq, hs.rejected, hs.lost, hcount]

/-- The hand-over of the first transfer. -/
theorem OnEndpoint.send {frames : List (List UInt8)} {f : List UInt8} {s : Device}
    (h : OnEndpoint frames s) (hen : s.inEnabled = false) (hready : Ready 0 f s)
    (hle : f.length ≤ ethMaxPacketSize) :
    OnEndpoint (frames ++ [f]) (usbdLLTransmit (s.first.read 0 rndisDataInSz) s) := by
  rw [OnEndpoint, if_neg (by rw [hen]; decide)] at h
  have hon : (usbdLLTransmit (s.first.read 0 rndisDataInSz) s).inEnabled = true := rfl
  rw [OnEndpoint, if_pos hon]
  exact ⟨frames, f, s.sent, [s.first.read 0 rndisDataInSz], rfl, rfl, h, by simp,
    hready.carries hle⟩

/-- One statement of the loop over the chain. -/
theorem TxInv.copy {t u : TxState} {size : UInt16} {i : Nat} {q : Chain} (h : TxInv t)
    (hpc : t.pc = .copy size i q) (hstep : mainStep t = some u) : TxInv u := by
  obtain ⟨dev, pc, arg, shadow, okCalls, useCalls, rejected, lost⟩ := t
  obtain rfl : pc = .copy size i q := hpc
  obtain ⟨hen, hzlp, htx, hcopied⟩ := h.facts
  have hbounds := h.bounds nofun
  cases q with
  | nil =>
      obtain rfl := Option.some.inj hstep
      exact h.steady ⟨rfl, rfl, rfl, fun _ => rfl, rfl, rfl, rfl, rfl, hbounds⟩
        ⟨hcopied.loaded hen hzlp, htx⟩
  | cons p q =>
      simp only [mainStep] at hstep
      split at hstep
      next b hb =>
        obtain rfl := Option.some.inj hstep
        have hoff : dev.inEnabled ≠ true := fun hon => Bool.noConfusion (hen.symm.trans hon)
        exact h.steady ⟨rfl, rfl, rfl, fun hon => (hoff hon).elim, rfl, rfl, rfl, rfl, hbounds⟩
          ⟨hen, hzlp, htx, hcopied.octet hb⟩
      next hend =>
        obtain rfl := Option.some.inj hstep
        exact h.steady ⟨rfl, rfl, rfl, fun _ => rfl, rfl, rfl, rfl, rfl, hbounds⟩
          ⟨hen, hzlp, htx, hcopied.next hend hbounds.2⟩

/-- The statement that hands the first transfer over starts a message. -/
theorem TxInv.send {t u : TxState} (h : TxInv t) (hpc : t.pc = .send)
    (hstep : mainStep t = some u) : TxInv u := by
  obtain ⟨dev, pc, arg, shadow, okCalls, useCalls, rejected, lost⟩ := t
  obtain rfl : pc = .send := hpc
  obtain ⟨hen, htx, hready⟩ := h.facts
  obtain rfl := Option.some.inj hstep
  have hbounds := h.bounds nofun
  have hmessages := h.messages
  have hok := h.txok_eq
  have hbad := h.txbad_eq
  rw [inFlight_off hen] at hok hbad
  simp only [TxState.frames, List.append_nil] at hmessages hok
  refine ⟨hmessages.send hen hready hbounds.2, fun _ => hbounds, ?_, ?_, ?_⟩
  · show dev.txok = .ofNat ((okCalls.map List.flatten ++ [arg.flatten]).length - 1)
    rw [hok, List.length_append]
    rfl
  · show dev.txbad + 1 = .ofNat (rejected + lost + 1)
    rw [UInt32.ofNat_add]
    exact congrArg (· + 1) hbad
  · exact ⟨⟨fun _ => rfl, fun _ => htx⟩, fun hoff => Bool.noConfusion hoff⟩

/-- One statement, by the statement. -/
theorem TxInv.main {t u : TxState} (h : TxInv t) (hstep : mainStep t = some u) : TxInv u := by
  obtain ⟨dev, pc, arg, shadow, okCalls, useCalls, rejected, lost⟩ := t
  have hfacts := h.facts
  have hbounds := h.bounds
  cases pc with
  | idle => cases hstep
  | poll i =>
      simp only [mainStep] at hstep
      split at hstep
      · obtain rfl := Option.some.inj hstep
        exact h.steady ⟨rfl, rfl, rfl, fun _ => rfl, rfl, rfl, rfl, rfl, hbounds nofun⟩ hfacts
      · obtain rfl := Option.some.inj hstep
        exact h.steady ⟨rfl, rfl, rfl, fun _ => rfl, rfl, rfl, rfl, rfl, hbounds nofun⟩ hfacts
  | check =>
      simp only [mainStep] at hstep
      obtain ⟨hsettled, hshadow⟩ := hfacts
      split at hstep
      next =>
        obtain rfl := Option.some.inj hstep
        exact h.steady ⟨rfl, rfl, rfl, fun _ => rfl, rfl, rfl, rfl, rfl, hbounds nofun⟩
          ⟨hsettled, hshadow⟩
      next hidle =>
        obtain rfl := Option.some.inj hstep
        have htx : dev.rndisTxTransmitting = false := Bool.eq_false_iff.mpr hidle
        have hen : dev.inEnabled = false :=
          Bool.eq_false_iff.mpr fun hon => hidle (hsettled.1.mpr hon)
        exact h.steady ⟨rfl, rfl, rfl, fun _ => rfl, rfl, rfl, rfl, rfl, hbounds nofun⟩
          ⟨hen, hsettled.2 hen, htx, Copied.start arg dev⟩
  | copy size i q => exact h.copy rfl hstep
  | start size =>
      obtain ⟨hloaded, htx⟩ := hfacts
      have hrefuses : rndisTxRefuses size dev = false := by
        rw [hloaded.2.2.1, rndisTxRefuses_ofNat (hbounds nofun).1 (hbounds nofun).2]
        exact htx
      simp only [mainStep, hrefuses] at hstep
      obtain rfl := Option.some.inj hstep
      exact h.steady ⟨rfl, rfl, rfl, fun _ => rfl, rfl, rfl, rfl, rfl, hbounds nofun⟩
        ⟨hloaded, htx⟩
  | setTransmitting size =>
      obtain ⟨hloaded, -⟩ := hfacts
      obtain rfl := Option.some.inj hstep
      exact h.steady ⟨rfl, rfl, rfl, fun _ => rfl, rfl, rfl, rfl, rfl, hbounds nofun⟩
        ⟨hloaded, rfl⟩
  | setPtr size =>
      obtain ⟨hloaded, htx⟩ := hfacts
      obtain rfl := Option.some.inj hstep
      exact h.steady ⟨rfl, rfl, rfl, hloaded.elim, rfl, rfl, rfl, rfl, hbounds nofun⟩
        ⟨hloaded, htx, rfl⟩
  | setSize size =>
      obtain ⟨hloaded, htx, hptr⟩ := hfacts
      obtain rfl := Option.some.inj hstep
      exact h.steady ⟨rfl, rfl, rfl, hloaded.elim, rfl, rfl, rfl, rfl, hbounds nofun⟩
        ⟨hloaded, htx, hptr, rfl⟩
  | header size =>
      obtain ⟨hloaded, htx, hptr, hsize⟩ := hfacts
      have hself := dev.first.read_write_self 0 (RndisDataPacket.ofSize size).toBytes
      rw [RndisDataPacket.length_toBytes] at hself
      simp only [mainStep] at hstep
      generalize dev.first.write 0 (RndisDataPacket.ofSize size).toBytes = first
        at hself hstep
      obtain rfl := Option.some.inj hstep
      refine h.steady ⟨rfl, rfl, rfl, fun _ => rfl, rfl, rfl, rfl, rfl, hbounds nofun⟩
        ⟨hloaded, htx, hptr, hsize, ?_⟩
      rw [← hloaded.2.2.1]
      exact hself
  | payload size =>
      obtain ⟨hloaded, htx, hptr, hsize, hhdr⟩ := hfacts
      obtain rfl := Option.some.inj hstep
      refine h.steady ⟨rfl, rfl, rfl, fun _ => rfl, rfl, rfl, rfl, rfl, hbounds nofun⟩
        ⟨hloaded, htx, hptr, hsize, ?_⟩
      obtain ⟨-, -, hlen, hframe⟩ := hloaded
      show FirstFilled arg.flatten
        (dev.first.write rndisHeaderSize (dev.txMem.read 0 (sended size).toNat))
      rw [hlen]
      exact firstFilled_write (hbounds nofun).2 hframe hhdr
  | advance size =>
      obtain ⟨hloaded, htx, hptr, hsize, hfirst⟩ := hfacts
      obtain rfl := Option.some.inj hstep
      refine h.steady ⟨rfl, rfl, rfl, hloaded.elim, rfl, rfl, rfl, rfl, hbounds nofun⟩
        ⟨hloaded, htx, ?_, hsize, hfirst⟩
      exact congrArg (Option.map (· + (sended size).toNat)) hptr
  | shrink size =>
      obtain ⟨hloaded, htx, hptr, hsize, hfirst⟩ := hfacts
      obtain rfl := Option.some.inj hstep
      exact h.steady ⟨rfl, rfl, rfl, hloaded.elim, rfl, rfl, rfl, rfl, hbounds nofun⟩
        ⟨hloaded, htx, hptr, congrArg (· - sended size) hsize, hfirst⟩
  | zlp size =>
      obtain ⟨hloaded, htx, hptr, hsize, hfirst⟩ := hfacts
      obtain rfl := Option.some.inj hstep
      refine h.steady ⟨rfl, rfl, rfl, hloaded.elim, rfl, rfl, rfl, rfl, hbounds nofun⟩
        ⟨hloaded.1, htx, ?_⟩
      obtain ⟨-, hzlp, hlen, hframe⟩ := hloaded
      rw [hlen] at hptr hsize
      refine ⟨hfirst, hptr, hsize, ?_, hframe⟩
      show (if needsZLP size then true else dev.rndisTxZLP) = needsZLP (.ofNat arg.flatten.length)
      rw [hzlp, hlen]
      cases needsZLP (.ofNat arg.flatten.length) <;> rfl
  | send => exact h.send rfl hstep
  | load =>
      obtain rfl := Option.some.inj hstep
      exact h.steady ⟨rfl, rfl, rfl, fun _ => rfl, rfl, rfl, rfl, rfl, hbounds nofun⟩ hfacts
  | store v =>
      obtain rfl := Option.some.inj hstep
      refine h.steady ⟨?_, rfl, rfl, fun _ => rfl, rfl, rfl, rfl, rfl, hbounds nofun⟩ hfacts
      simp [TxState.frames]
  | returning r =>
      obtain rfl := Option.some.inj hstep
      refine h.steady ⟨rfl, rfl, rfl, fun _ => rfl, rfl, rfl, rfl, rfl, hbounds nofun⟩ ?_
      cases r with
      | ok => exact hfacts
      | use => exact hfacts.1

/-- Each event keeps the invariant. -/
theorem TxInv.step {t u : TxState} {e : TxEvent} (h : TxInv t)
    (hstep : txMachine.step t e = some u) : TxInv u := by
  cases e with
  | call p =>
      obtain ⟨dev, pc, arg, shadow, okCalls, useCalls, rejected, lost⟩ := t
      cases pc with
      | idle =>
          simp only [txMachine, txStep, Option.ite_none_right_eq_some, Option.some.injEq] at hstep
          obtain ⟨hlen, rfl⟩ := hstep
          have hsettled : Settled dev := h.facts
          exact h.steady ⟨rfl, rfl, rfl, fun _ => rfl, rfl, rfl, rfl, rfl, hlen⟩
            ⟨hsettled, rfl⟩
      | _ => cases hstep
  | main => exact h.main hstep
  | dataIn => exact h.dataIn hstep

theorem TxIdle.inv {s : Device} (h : TxIdle s) : TxInv { dev := s } := by
  have hoff : inFlight s = 0 := inFlight_off h.enabled
  refine ⟨?_, fun hpc => (hpc rfl).elim, ?_, ?_, ?_⟩
  · rw [OnEndpoint, if_neg (by rw [h.enabled]; decide)]
    show Delivered [] s.sent
    rw [h.sent]
    exact .nil
  · show s.txok = .ofNat (0 - inFlight s)
    rw [h.txok, hoff]
    rfl
  · show s.txbad = .ofNat (0 + 0 + inFlight s)
    rw [h.txbad, hoff]
    rfl
  · exact ⟨by rw [h.transmitting, h.enabled], fun _ => h.zlp⟩

/-! ## Runs -/

/-- The invariant holds in every state of every run, whatever the interrupts do. -/
theorem txInv_of_reaches {s : Device} (h : TxIdle s) {t : TxState}
    (hreach : txMachine.Reaches { dev := s } t) : TxInv t :=
  hreach.invariant (fun _ _ _ hstep hinv => TxInv.step hinv hstep) h.inv

/-- `txbad` counts the decrements that were lost, and nothing else is wrong with
it. -/
theorem txbad_of_reaches {s : Device} (h : TxIdle s) {t : TxState}
    (hreach : txMachine.Reaches { dev := s } t) (hpc : ¬ t.pc.InStart) :
    t.dev.txbad = .ofNat (t.rejected + t.lost + inFlight t.dev) := by
  rw [← (txInv_of_reaches h hreach).txbad_eq, TxState.txbadDone]
  cases hcase : t.pc with
  | load | store =>
      rw [hcase] at hpc
      exact (hpc trivial).elim
  | _ => rfl

/-- Outside `rndis_tx_start` the transmitter is busy exactly while a transfer is
outstanding. -/
theorem TxFacts.started_iff {t : TxState} (h : TxFacts t) (hpc : ¬ t.pc.InStart) :
    t.dev.rndisTxTransmitting = true ↔ t.dev.inEnabled = true := by
  unfold TxFacts at h
  cases hcase : t.pc with
  | idle =>
      rw [hcase] at h
      exact h.1
  | poll | check =>
      rw [hcase] at h
      exact h.1.1
  | copy =>
      rw [hcase] at h
      rw [h.1, h.2.2.1]
  | returning r =>
      rw [hcase] at h
      cases r with
      | ok => exact h.1
      | use => exact h.1.1
  | _ =>
      rw [hcase] at hpc
      exact (hpc trivial).elim

theorem TxInv.use_untouched {t : TxState} (h : TxInv t) (hpc : t.pc = .returning .use) :
    t.dev = t.shadow := by
  have hfacts := h.facts
  rw [TxFacts, hpc] at hfacts
  exact hfacts.2

/-- Only an interrupt at the store of `txbad++` loses a decrement. -/
theorem lost_eq_of_step {t u : TxState} {e : TxEvent} (hkeeps : ¬ LosesDecrement t e)
    (hstep : txMachine.step t e = some u) : u.lost = t.lost := by
  cases e with
  | call p =>
      simp only [txMachine, txStep] at hstep
      split at hstep
      · simp only [Option.ite_none_right_eq_some, Option.some.injEq] at hstep
        rw [← hstep.2]
      · cases hstep
  | main =>
      obtain ⟨dev, pc, arg, shadow, okCalls, useCalls, rejected, lost⟩ := t
      cases pc with
      | idle => cases hstep
      | poll | check | start =>
          simp only [txMachine, txStep, mainStep] at hstep
          split at hstep <;> (obtain rfl := Option.some.inj hstep; rfl)
      | copy size i q =>
          cases q with
          | nil =>
              obtain rfl := Option.some.inj hstep
              rfl
          | cons p q =>
              simp only [txMachine, txStep, mainStep] at hstep
              split at hstep <;> (obtain rfl := Option.some.inj hstep; rfl)
      | _ =>
          obtain rfl := Option.some.inj hstep
          rfl
  | dataIn =>
      simp only [txMachine, txStep, Option.ite_none_right_eq_some, Option.some.injEq] at hstep
      obtain ⟨-, rfl⟩ := hstep
      refine if_neg fun h => hkeeps ?_
      rw [Bool.and_eq_true, List.isEmpty_iff] at h
      exact h

/-- In a run in which no interrupt ends a message between the load and the store
of `txbad++`, every state is as promised. -/
theorem tx_path_spec {s : Device} (h : TxIdle s) (es : List TxEvent)
    (hkeeps : txMachine.Meets (fun t e => ¬ LosesDecrement t e) { dev := s } es) (t : TxState)
    (hvisits : txMachine.Visits { dev := s } es t) : TxSpec t := by
  have hlost : t.lost = 0 :=
    hvisits.invariant (I := fun u => u.lost = 0)
      (fun _ _ _ he hstep hzero => (lost_eq_of_step he hstep).trans hzero) hkeeps rfl
  obtain ⟨pre, post, -, hrun⟩ := hvisits
  have hinv := txInv_of_reaches h ⟨pre, hrun⟩
  refine ⟨hinv.messages, hinv.use_untouched, hinv.facts.started_iff, fun _ => hinv.txok_eq, ?_⟩
  intro hpc
  rw [txbad_of_reaches h ⟨pre, hrun⟩ hpc, hlost]
  rfl

/-- A call that sends one octet, up to the store of `txbad++`. -/
def oneOctetCall : List TxEvent := .call [[0x5A]] :: List.replicate 16 .main

/-- The message ends between the load and the store, and `txbad` stays at 1 with
nothing in flight and nothing refused. -/
theorem txbad_lost :
    ∃ t, txMachine.run { dev := Device.powerOn } (oneOctetCall ++ [.dataIn, .main]) = some t ∧
      t.pc = .returning .ok ∧ t.dev.inEnabled = false ∧ t.rejected = 0 ∧ t.dev.txok = 1 ∧
      t.dev.txbad = 1 ∧ ¬ TxSpec t := by
  refine ⟨_, rfl, rfl, by decide, rfl, by decide, by decide, ?_⟩
  intro h
  exact absurd (h.txbad_eq id) (by decide)

/-- The same call with the interrupt behind the store. -/
theorem tx_path_spec_oneOctet :
    ∃ t, txMachine.run { dev := Device.powerOn } ((oneOctetCall ++ [.main]) ++ [.dataIn]) =
      some t ∧ TxSpec t := by
  refine ⟨_, rfl, ?_⟩
  refine tx_path_spec (s := Device.powerOn) ⟨rfl, rfl, rfl, rfl, rfl, rfl⟩
    ((oneOctetCall ++ [.main]) ++ [.dataIn]) (Machine.meets_append.mpr ⟨?_, ?_⟩) _
    ⟨_, [], (List.append_nil _).symm, rfl⟩
  · refine Machine.meets_of_forall fun e he t => ?_
    cases e with
    | dataIn => simp [oneOctetCall] at he
    | _ => exact id
  · intro t ht
    obtain rfl := Option.some.inj ht
    exact ⟨fun h => Bool.noConfusion h.1, fun _ _ => trivial⟩

/-! ## The statements and the function -/

/-- Without interrupts the statements of `rndis_tx_start` are the function. -/
theorem rndisTxStart_steps {t : TxState} {size : UInt16} (hpc : t.pc = .start size) :
    ∃ n u, txMachine.run t (List.replicate n .main) = some u ∧ u.pc = .returning .ok ∧
      u.dev = (rndisTxStart 0 size t.dev).2 := by
  obtain ⟨dev, pc, arg, shadow, okCalls, useCalls, rejected, lost⟩ := t
  obtain rfl : pc = .start size := hpc
  cases hrefuses : rndisTxRefuses size dev with
  | true =>
      rw [rndisTxStart_refuses hrefuses]
      exact ⟨3, _, Machine.run_cons.mpr ⟨_, if_pos hrefuses, rfl⟩, rfl, rfl⟩
  | false =>
      rw [rndisTxStart_accepts hrefuses]
      have haccepts : ¬ rndisTxRefuses size dev = true := Bool.eq_false_iff.mp hrefuses
      exact ⟨12, _, Machine.run_cons.mpr ⟨_, if_neg haccepts, rfl⟩, rfl, rfl⟩

end Adhoc
