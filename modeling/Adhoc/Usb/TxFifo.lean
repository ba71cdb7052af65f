import Mathlib
import Adhoc.Lib.DataStage
import Adhoc.Lib.Machine
import Adhoc.Lib.Mem

/-!
# Filling the transmit FIFO

`USB_EPStartXfer` programs how many octets and packets a transfer has, and the
interrupt of an empty FIFO calls `PCD_WriteEmptyTxFifo`, which pushes packets, in
whole words, while there is room.  How much room it finds is up to the controller,
so every reading of `INEPTFSAV` is an argument.

The controller takes as many words off the FIFO as the next packet needs
(`popPackets`).  Whatever the readings, what it finds there are the packets of the
transfer (`TxFifo.tx_fifo_packets`).
-/

namespace Adhoc

open ByteMem EventMachine Bulk

/-! ## State -/

/-- `USB_OTG_EPTypeDef` of an IN endpoint, as far as a transfer depends on it. -/
structure InEp where
  xferBuff : Nat := 0
  xferLen : UInt32 := 0
  xferCount : UInt32 := 0
  maxpacket : UInt32

/-- A packet on its way to the FIFO. -/
structure Push where
  /-- What `INEPTFSAV` was read as before. -/
  avail : UInt32
  words : List UInt32

/-- An IN endpoint with its FIFO. -/
structure TxFifo where
  ep : InEp
  /-- `PKTCNT` of `DIEPTSIZ`. -/
  pktcnt : UInt32 := 0
  /-- `XFRSIZ` of `DIEPTSIZ`. -/
  xfrsiz : UInt32 := 0
  /-- The bit of the endpoint in `DIEPEMPMSK`. -/
  diepempmsk : Bool := false
  /-- What was pushed since the transfer began. -/
  pushes : List Push := []

/-- The words pushed since the transfer began. -/
def TxFifo.words (s : TxFifo) : List UInt32 := s.pushes.flatMap Push.words

/-- The controller takes `k` packets off the FIFO, of `left` octets. -/
def popPackets (n : Nat) : Nat → Nat → List UInt32 → List (List UInt8)
  | 0, _, _ => []
  | k + 1, left, ws =>
      ((ws.take ((min left n + 3) / 4)).flatMap wordBytes).take (min left n) ::
        popPackets n k (left - n) (ws.drop ((min left n + 3) / 4))

/-! ## Starting a transfer -/

/-- `HAL_PCD_EP_Transmit` on a bulk endpoint, down to `USB_EPStartXfer`. -/
def halPcdEpTransmit (pBuf : Nat) (len : UInt32) (s : TxFifo) : TxFifo :=
  { ep := { s.ep with xferBuff := pBuf, xferLen := len, xferCount := 0 }
    pktcnt := if len = 0 then 1 else (len + s.ep.maxpacket - 1) / s.ep.maxpacket &&& 0x3FF
    xfrsiz := if len = 0 then 0 else len &&& 0x7FFFF
    diepempmsk := if len > 0 then true else s.diepempmsk
    pushes := [] }

/-! ## Filling the FIFO -/

/-- `USB_WritePacket`. -/
def usbWritePacket (mem : Mem) (src : Nat) (len : UInt16) : List UInt32 :=
  (List.range ((len.toUInt32 + 3) / 4).toNat).map fun i => mem.word (src + 4 * i)

/-- The length of the next packet. -/
def InEp.nextLen (ep : InEp) : UInt32 :=
  if ep.xferLen - ep.xferCount > ep.maxpacket then ep.maxpacket else ep.xferLen - ep.xferCount

/-- The body of the loop of `PCD_WriteEmptyTxFifo`. -/
def TxFifo.push (mem : Mem) (avail : UInt32) (s : TxFifo) : TxFifo :=
  let len := s.ep.nextLen
  { s with
    ep := { s.ep with
      xferBuff := s.ep.xferBuff + len.toNat
      xferCount := s.ep.xferCount + len }
    pushes := s.pushes ++ [⟨avail, usbWritePacket mem s.ep.xferBuff len.toUInt16⟩] }

/-- The loop of `PCD_WriteEmptyTxFifo`, with the readings of `INEPTFSAV` to come.  It is not over
where there are too few. -/
def fillLoop (mem : Mem) : List UInt32 → UInt32 → TxFifo → Option (UInt32 × TxFifo)
  | [], _, _ => none
  | avail :: reads, len, s =>
      if avail > (len + 3) / 4 ∧ s.ep.xferCount < s.ep.xferLen ∧ s.ep.xferLen ≠ 0 then
        fillLoop mem reads s.ep.nextLen (s.push mem avail)
      else some (len, s)

/-- `PCD_WriteEmptyTxFifo`. -/
def pcdWriteEmptyTxFifo (mem : Mem) (reads : List UInt32) (s : TxFifo) : Option TxFifo :=
  (fillLoop mem reads s.ep.nextLen s).map fun (len, s) =>
    if len ≤ 0 then { s with diepempmsk := false } else s

/-- The interrupt of an empty FIFO, which is taken only where it is not masked. -/
def txFifoMachine (mem : Mem) : Machine TxFifo (List UInt32) where
  step s reads := if s.diepempmsk then pcdWriteEmptyTxFifo mem reads s else none

/-! ## The words of a packet -/

section Words

variable {mem : Mem} {n : Nat}

theorem length_usbWritePacket (mem : Mem) (src : Nat) (len : UInt16) :
    (usbWritePacket mem src len).length = (len.toNat + 3) / 4 := by
  have hlt := UInt16.toNat_lt len
  rw [usbWritePacket, List.length_map, List.length_range, UInt32.toNat_div, UInt32.toNat_add,
    UInt16.toNat_toUInt32]
  change (len.toNat + 3) % 2 ^ 32 / 4 = (len.toNat + 3) / 4
  rw [Nat.mod_eq_of_lt (by omega)]

theorem flatMap_wordBytes (mem : Mem) (src k : Nat) :
    ((List.range k).map fun i => mem.word (src + 4 * i)).flatMap wordBytes =
      mem.read src (4 * k) := by
  induction k with
  | zero => rfl
  | succ k ih =>
      rw [List.range_succ, List.map_append, List.flatMap_append, ih, List.map_singleton,
        List.flatMap_singleton, Mem.wordBytes_word, Nat.mul_succ, Mem.read_add]

/-- The octets of a packet are the first ones of its words. -/
theorem take_usbWritePacket (mem : Mem) (src : Nat) (len : UInt16) :
    ((usbWritePacket mem src len).flatMap wordBytes).take len.toNat = mem.read src len.toNat := by
  have hcount : ((len.toUInt32 + 3) / 4).toNat = (len.toNat + 3) / 4 := by
    have hlength := length_usbWritePacket mem src len
    rwa [usbWritePacket, List.length_map, List.length_range] at hlength
  have hread := Mem.take_drop_read mem src
    (show 0 + len.toNat ≤ 4 * ((len.toNat + 3) / 4) by omega)
  rw [usbWritePacket, flatMap_wordBytes, hcount]
  exact hread

/-- The words of the first `k` packets of `left` octets. -/
def fifoWords (mem : Mem) (n : Nat) : Nat → Nat → Nat → List UInt32
  | 0, _, _ => []
  | k + 1, off, left =>
      usbWritePacket mem off (.ofNat (min left n)) ++ fifoWords mem n k (off + n) (left - n)

theorem fifoWords_succ (mem : Mem) (n k off left : Nat) :
    fifoWords mem n (k + 1) off left =
      fifoWords mem n k off left ++
        usbWritePacket mem (off + k * n) (.ofNat (min (left - k * n) n)) := by
  induction k generalizing off left with
  | zero =>
      rw [fifoWords, fifoWords, fifoWords, Nat.zero_mul, Nat.add_zero, Nat.sub_zero,
        List.append_nil, List.nil_append]
  | succ k ih =>
      have hoff : off + n + k * n = off + (k + 1) * n := by
        rw [Nat.succ_mul]
        omega
      have hleft : left - n - k * n = left - (k + 1) * n := by
        rw [Nat.succ_mul]
        omega
      rw [fifoWords, ih, fifoWords, List.append_assoc, hoff, hleft]

/-- The controller finds the packets on the FIFO. -/
theorem popPackets_fifoWords (hn : 0 < n) (hlt : n < 65536) {k off left : Nat}
    (hk : k * n < left + n) (rest : List UInt32) :
    popPackets n k left (fifoWords mem n k off left ++ rest) =
      (packets n (mem.read off left)).take k := by
  induction k generalizing off left with
  | zero => rw [popPackets, List.take_zero]
  | succ k ih =>
      rw [Nat.succ_mul] at hk
      have hsize : (UInt16.ofNat (min left n)).toNat = min left n :=
        UInt16.toNat_ofNat_of_lt' (Nat.lt_of_le_of_lt (Nat.min_le_right _ _) hlt)
      have hlength := length_usbWritePacket mem off (.ofNat (min left n))
      have htake := take_usbWritePacket mem off (.ofNat (min left n))
      rw [hsize] at hlength htake
      rw [popPackets, fifoWords, List.append_assoc, ← hlength, List.take_left, List.drop_left,
        htake]
      by_cases hmore : n < left
      · have hread : (mem.read off left).length = left := Mem.length_read ..
        have hfirst : (mem.read off left).take n = mem.read off n :=
          mem.take_drop_read off (show 0 + n ≤ left by omega)
        have hrest : (mem.read off left).drop n = mem.read (off + n) (left - n) := by
          have htail := mem.take_drop_read off (show n + (left - n) ≤ left by omega)
          rwa [List.take_of_length_le (Nat.le_of_eq (by rw [List.length_drop, hread]))] at htail
        rw [packets_of_lt hn (hread.symm ▸ hmore), List.take_succ_cons, hfirst, hrest,
          ih (by omega), Nat.min_eq_right (Nat.le_of_lt hmore)]
      · have hnone : k = 0 := by
          by_contra hk0
          have hle : n ≤ k * n := Nat.le_mul_of_pos_left n (Nat.pos_of_ne_zero hk0)
          omega
        rw [hnone, popPackets, packets_of_le (by rw [Mem.length_read]; omega),
          Nat.min_eq_left (by omega)]
        rfl

end Words

namespace TxFifo

/-! ## What has been pushed -/

/-- A transfer of `total` octets in packets of `n`. -/
structure Transfer where
  mem : Mem
  pBuf : Nat
  total : Nat
  n : Nat
  pos : 0 < n
  lt : n < 65536
  total_lt : total < 2 ^ 19
  packets_le : (total + n - 1) / n ≤ 1023

/-- How many packets the transfer has. -/
def Transfer.count (x : Transfer) : Nat := (x.total + x.n - 1) / x.n

/-- The octets of the transfer. -/
def Transfer.data (x : Transfer) : List UInt8 := x.mem.read x.pBuf x.total

/-- Packets have been pushed in their order, each of them where there was room for it. -/
structure Filling (x : Transfer) (s : TxFifo) : Prop where
  maxpacket : s.ep.maxpacket.toNat = x.n
  xferLen : s.ep.xferLen.toNat = x.total
  xferBuff : s.ep.xferBuff = x.pBuf + s.ep.xferCount.toNat
  xferCount : s.ep.xferCount.toNat = min (s.pushes.length * x.n) x.total
  length_lt : s.pushes.length * x.n < x.total + x.n
  words : s.words = fifoWords x.mem x.n s.pushes.length x.pBuf x.total
  room : ∀ a ∈ s.pushes, a.words.length < a.avail.toNat
  pktcnt : s.pktcnt.toNat = x.count
  xfrsiz : s.xfrsiz.toNat = x.total

section Steps

variable {x : Transfer} {s t : TxFifo} {avail len len' : UInt32} {reads : List UInt32}

theorem Filling.toNat_nextLen (h : s.Filling x) :
    s.ep.nextLen.toNat = min (x.total - s.ep.xferCount.toNat) x.n := by
  have hle : s.ep.xferCount ≤ s.ep.xferLen := by
    rw [UInt32.le_iff_toNat_le, h.xferLen, h.xferCount]
    exact Nat.min_le_right _ _
  have hsub : (s.ep.xferLen - s.ep.xferCount).toNat = x.total - s.ep.xferCount.toNat := by
    rw [UInt32.toNat_sub_of_le _ _ hle, h.xferLen]
  unfold InEp.nextLen
  split
  next hgt =>
    rw [gt_iff_lt, UInt32.lt_iff_toNat_lt, hsub, h.maxpacket] at hgt
    rw [h.maxpacket, Nat.min_eq_right (Nat.le_of_lt hgt)]
  next hgt =>
    rw [gt_iff_lt, UInt32.lt_iff_toNat_lt, hsub, h.maxpacket, Nat.not_lt] at hgt
    rw [hsub, Nat.min_eq_left hgt]

/-- All has been pushed exactly when as many packets have been as the transfer has. -/
theorem Filling.xferCount_eq_iff (h : s.Filling x) :
    s.ep.xferCount.toNat = x.total ↔ s.pushes.length = x.count := by
  have hcount := h.xferCount
  have hlt := h.length_lt
  have hpos := x.pos
  unfold Transfer.count
  constructor
  · intro hall
    refine (Nat.div_eq_of_lt_le ?_ ?_).symm
    · omega
    · rw [Nat.succ_mul]
      omega
  · intro hall
    have hdiv : x.total + x.n - 1 < ((x.total + x.n - 1) / x.n + 1) * x.n :=
      Nat.lt_mul_of_div_lt (Nat.lt_succ_self _) hpos
    rw [← hall, Nat.succ_mul] at hdiv
    omega

theorem Filling.xferCount_le (h : s.Filling x) : s.ep.xferCount.toNat ≤ x.total :=
  h.xferCount ▸ Nat.min_le_right _ _

/-- One packet more. -/
theorem Filling.push (h : s.Filling x) (hmore : s.ep.xferCount.toNat < x.total)
    (hroom : (s.ep.nextLen.toNat + 3) / 4 < avail.toNat) : (s.push x.mem avail).Filling x := by
  have hnext := h.toNat_nextLen
  have hcount := h.xferCount
  have hlt := x.lt
  have htotal := x.total_lt
  have hfront : s.ep.xferCount.toNat = s.pushes.length * x.n := by omega
  have hlen16 : s.ep.nextLen.toUInt16.toNat = s.ep.nextLen.toNat := by
    rw [UInt32.toNat_toUInt16]
    exact Nat.mod_eq_of_lt (by omega)
  have hadd : (s.ep.xferCount + s.ep.nextLen).toNat =
      s.ep.xferCount.toNat + s.ep.nextLen.toNat := by
    rw [UInt32.toNat_add]
    exact Nat.mod_eq_of_lt (by omega)
  have hlength : (s.push x.mem avail).pushes.length = s.pushes.length + 1 := by
    unfold TxFifo.push
    rw [List.length_append, List.length_singleton]
  have hwords : usbWritePacket x.mem s.ep.xferBuff s.ep.nextLen.toUInt16 =
      usbWritePacket x.mem (x.pBuf + s.pushes.length * x.n)
        (.ofNat (min (x.total - s.pushes.length * x.n) x.n)) := by
    congr 1
    · rw [h.xferBuff, hfront]
    · rw [← UInt16.toNat_inj, hlen16, hnext, hfront, UInt16.toNat_ofNat_of_lt']
      exact Nat.lt_of_le_of_lt (Nat.min_le_right _ _) hlt
  exact {
    maxpacket := h.maxpacket
    xferLen := h.xferLen
    xferBuff := by
      change s.ep.xferBuff + s.ep.nextLen.toNat = x.pBuf + (s.ep.xferCount + s.ep.nextLen).toNat
      rw [hadd, h.xferBuff, Nat.add_assoc]
    xferCount := by
      change (s.ep.xferCount + s.ep.nextLen).toNat = _
      rw [hadd, hlength, Nat.succ_mul]
      omega
    length_lt := by
      rw [hlength, Nat.succ_mul]
      omega
    words := by
      rw [hlength, fifoWords_succ, ← h.words, ← hwords]
      unfold TxFifo.words TxFifo.push
      rw [List.flatMap_append, List.flatMap_singleton]
    room := by
      unfold TxFifo.push
      refine List.forall_mem_append.mpr ⟨h.room, List.forall_mem_singleton.mpr ?_⟩
      rw [length_usbWritePacket, hlen16]
      exact hroom
    pktcnt := h.pktcnt
    xfrsiz := h.xfrsiz }

theorem toNat_words (len : UInt32) (hlt : len.toNat < 2 ^ 19) :
    ((len + 3) / 4).toNat = (len.toNat + 3) / 4 := by
  rw [UInt32.toNat_div, UInt32.toNat_add]
  change (len.toNat + 3) % 2 ^ 32 / 4 = (len.toNat + 3) / 4
  rw [Nat.mod_eq_of_lt (by omega)]

theorem Filling.nextLen_lt (h : s.Filling x) : s.ep.nextLen.toNat < 2 ^ 19 := by
  have hlt := x.total_lt
  rw [h.toNat_nextLen]
  omega

/-- What the loop leaves.  The room is tested with the length of the packet before, which is no
shorter. -/
theorem Filling.fillLoop (h : s.Filling x) (hlen : s.ep.nextLen.toNat ≤ len.toNat)
    (hlt : len.toNat < 2 ^ 19) (hloop : fillLoop x.mem reads len s = some (len', t)) :
    t.Filling x ∧ t.diepempmsk = s.diepempmsk ∧ t.ep.nextLen.toNat ≤ len'.toNat ∧
      s.pushes.length ≤ t.pushes.length := by
  induction reads generalizing s len with
  | nil => exact nomatch hloop
  | cons avail reads ih =>
      rw [Adhoc.fillLoop] at hloop
      split at hloop
      next hguard =>
        obtain ⟨hroom, hmore, -⟩ := hguard
        rw [gt_iff_lt, UInt32.lt_iff_toNat_lt, toNat_words len hlt] at hroom
        rw [UInt32.lt_iff_toNat_lt, h.xferLen] at hmore
        have hpushed : (s.push x.mem avail).Filling x := h.push hmore (by omega)
        have hnext : (s.push x.mem avail).ep.nextLen.toNat ≤ s.ep.nextLen.toNat := by
          rw [hpushed.toNat_nextLen, h.toNat_nextLen, hpushed.xferCount, h.xferCount]
          unfold TxFifo.push
          rw [List.length_append, List.length_singleton, Nat.succ_mul]
          omega
        obtain ⟨hfilling, hmask, hle, hgrown⟩ := ih hpushed hnext h.nextLen_lt hloop
        refine ⟨hfilling, hmask, hle, Nat.le_trans ?_ hgrown⟩
        unfold TxFifo.push
        rw [List.length_append]
        exact Nat.le_add_right _ _
      next =>
        obtain ⟨rfl, rfl⟩ := Prod.mk.inj (Option.some.inj hloop)
        exact ⟨h, rfl, hlen, Nat.le_refl _⟩

/-- The interrupt is masked once all has been pushed, and not before. -/
structure Sound (x : Transfer) (s : TxFifo) : Prop where
  filling : s.Filling x
  masked : s.diepempmsk = false → s.pushes.length = x.count

theorem Sound.step (h : s.Sound x) (hstep : (txFifoMachine x.mem).step s reads = some t) :
    t.Sound x ∧ s.pushes.length ≤ t.pushes.length := by
  simp only [txFifoMachine, Option.ite_none_right_eq_some] at hstep
  obtain ⟨hmask, hcall⟩ := hstep
  obtain ⟨⟨len', u⟩, hloop, rfl⟩ := Option.map_eq_some_iff.mp hcall
  obtain ⟨hfilling, hkept, hle, hgrown⟩ :=
    h.filling.fillLoop (Nat.le_refl _) h.filling.nextLen_lt hloop
  dsimp only
  split
  next hzero =>
    rw [UInt32.le_iff_toNat_le] at hzero
    have hnone : len'.toNat = 0 := Nat.le_zero.mp hzero
    have hfilled : Filling x { u with diepempmsk := false } :=
      ⟨hfilling.maxpacket, hfilling.xferLen, hfilling.xferBuff, hfilling.xferCount,
        hfilling.length_lt, hfilling.words, hfilling.room, hfilling.pktcnt, hfilling.xfrsiz⟩
    refine ⟨⟨hfilled, fun _ => hfilling.xferCount_eq_iff.mp ?_⟩, hgrown⟩
    have hnext := hfilling.toNat_nextLen
    have hbound := hfilling.xferCount_le
    have hpos := x.pos
    omega
  next =>
    exact ⟨⟨hfilling, fun hunmasked =>
      absurd ((hkept.trans hmask).symm.trans hunmasked) Bool.false_ne_true.symm⟩, hgrown⟩

/-- The first reading has room for any packet of the transfer. -/
def Roomy (x : Transfer) (reads : List UInt32) : Prop :=
  ∃ avail rest, reads = avail :: rest ∧ (x.n + 3) / 4 < avail.toNat

/-- An interrupt with room for a packet pushes one, or it is the last. -/
theorem Sound.progress (h : s.Sound x) (hroomy : Roomy x reads)
    (hstep : (txFifoMachine x.mem).step s reads = some t) :
    s.pushes.length < t.pushes.length ∨ t.diepempmsk = false := by
  obtain ⟨avail, rest, rfl, hroom⟩ := hroomy
  simp only [txFifoMachine, Option.ite_none_right_eq_some] at hstep
  obtain ⟨-, hcall⟩ := hstep
  obtain ⟨⟨len', u⟩, hloop, rfl⟩ := Option.map_eq_some_iff.mp hcall
  rw [Adhoc.fillLoop] at hloop
  have hnext := h.filling.toNat_nextLen
  have hwords := toNat_words s.ep.nextLen h.filling.nextLen_lt
  split at hloop
  next hguard =>
    have hmore : s.ep.xferCount.toNat < x.total := by
      rw [← h.filling.xferLen, ← UInt32.lt_iff_toNat_lt]
      exact hguard.2.1
    have hpushed : (s.push x.mem avail).Filling x := h.filling.push hmore (by omega)
    have hle : (s.push x.mem avail).ep.nextLen.toNat ≤ s.ep.nextLen.toNat := by
      rw [hpushed.toNat_nextLen, h.filling.toNat_nextLen, hpushed.xferCount, h.filling.xferCount]
      unfold TxFifo.push
      rw [List.length_append, List.length_singleton, Nat.succ_mul]
      omega
    obtain ⟨-, -, -, hgrown⟩ := hpushed.fillLoop hle h.filling.nextLen_lt hloop
    have hlength : (s.push x.mem avail).pushes.length = s.pushes.length + 1 := by
      unfold TxFifo.push
      rw [List.length_append, List.length_singleton]
    dsimp only
    split
    · exact .inr rfl
    · exact .inl (by omega)
  next hguard =>
    obtain ⟨rfl, rfl⟩ := Prod.mk.inj (Option.some.inj hloop)
    have hdone : ¬ s.ep.xferCount.toNat < x.total := by
      intro hmore
      refine hguard ⟨?_, ?_, ?_⟩
      · rw [gt_iff_lt, UInt32.lt_iff_toNat_lt, hwords]
        omega
      · rw [UInt32.lt_iff_toNat_lt, h.filling.xferLen]
        exact hmore
      · intro hzero
        have hlen := h.filling.xferLen
        rw [hzero] at hlen
        change 0 = x.total at hlen
        omega
    have hzero : s.ep.nextLen.toNat = 0 := by omega
    dsimp only
    rw [if_pos (by rw [UInt32.le_iff_toNat_le, hzero]; exact Nat.zero_le _)]
    exact .inr rfl

theorem Filling.length_le (h : s.Filling x) : s.pushes.length ≤ x.count := by
  have hlt := h.length_lt
  have hpos := x.pos
  unfold Transfer.count
  rw [Nat.le_div_iff_mul_le hpos]
  omega

/-- The interrupts there can still be. -/
def interruptsLeft (x : Transfer) (s : TxFifo) : Nat :=
  x.count - s.pushes.length + if s.diepempmsk = true then 1 else 0

theorem Sound.interruptsLeft_lt (h : s.Sound x) (hroomy : Roomy x reads)
    (hstep : (txFifoMachine x.mem).step s reads = some t) :
    t.interruptsLeft x < s.interruptsLeft x := by
  obtain ⟨hsound, hgrown⟩ := h.step hstep
  have hprogress := h.progress hroomy hstep
  have hle := hsound.filling.length_le
  have hmask : s.diepempmsk = true := by
    simp only [txFifoMachine, Option.ite_none_right_eq_some] at hstep
    exact hstep.1
  unfold interruptsLeft
  rw [if_pos hmask]
  rcases hprogress with hmore | hmasked
  · split <;> omega
  · rw [if_neg (by rw [hmasked]; exact Bool.false_ne_true)]
    omega

theorem Sound.run {es : List (List UInt32)} (h : s.Sound x)
    (hrun : (txFifoMachine x.mem).run s es = some t) : t.Sound x :=
  Machine.Reaches.invariant (fun _ _ _ hstep h => (h.step hstep).1) ⟨es, hrun⟩ h

theorem Sound.length_le_interruptsLeft {es : List (List UInt32)} (h : s.Sound x)
    (hroomy : ∀ reads ∈ es, Roomy x reads) (hrun : (txFifoMachine x.mem).run s es = some t) :
    es.length + t.interruptsLeft x ≤ s.interruptsLeft x := by
  induction es generalizing s with
  | nil =>
      obtain rfl := Option.some.inj hrun
      exact Nat.le_of_eq (Nat.zero_add _)
  | cons reads es ih =>
      obtain ⟨u, hstep, hrest⟩ := Machine.run_cons.mp hrun
      have hlt := h.interruptsLeft_lt (hroomy reads (.head _)) hstep
      have hle := ih (h.step hstep).1 (fun r hr => hroomy r (.tail _ hr)) hrest
      rw [List.length_cons]
      omega

end Steps

/-! ## A transfer -/

theorem sound_halPcdEpTransmit {s : TxFifo} {mem : Mem} {pBuf : Nat} {len : UInt32}
    (hmps : 0 < s.ep.maxpacket.toNat ∧ s.ep.maxpacket.toNat < 65536)
    (hlen : 0 < len.toNat ∧ len.toNat < 2 ^ 19)
    (hcount : (len.toNat + s.ep.maxpacket.toNat - 1) / s.ep.maxpacket.toNat ≤ 1023) :
    (halPcdEpTransmit pBuf len s).Sound
      ⟨mem, pBuf, len.toNat, s.ep.maxpacket.toNat, hmps.1, hmps.2, hlen.2, hcount⟩ := by
  have hne : len ≠ 0 := by
    rintro rfl
    exact absurd hlen.1 (Nat.lt_irrefl 0)
  have hpos : len > 0 := UInt32.lt_iff_toNat_lt.mpr hlen.1
  have hsum : (len + s.ep.maxpacket - 1).toNat = len.toNat + s.ep.maxpacket.toNat - 1 := by
    have hadd : (len + s.ep.maxpacket).toNat = len.toNat + s.ep.maxpacket.toNat := by
      rw [UInt32.toNat_add]
      exact Nat.mod_eq_of_lt (by omega)
    have hone : (1 : UInt32) ≤ len + s.ep.maxpacket := by
      rw [UInt32.le_iff_toNat_le, hadd]
      change 1 ≤ _
      omega
    rw [UInt32.toNat_sub_of_le _ _ hone, hadd]
    rfl
  refine ⟨?_, fun hmasked => ?_⟩
  · exact {
      maxpacket := rfl
      xferLen := rfl
      xferBuff := rfl
      xferCount := by
        change 0 = min (0 * _) _
        rw [Nat.zero_mul, Nat.zero_min]
      length_lt := by
        change 0 * s.ep.maxpacket.toNat < len.toNat + s.ep.maxpacket.toNat
        omega
      words := rfl
      room := nofun
      pktcnt := by
        unfold halPcdEpTransmit
        dsimp only
        rw [if_neg hne, UInt32.toNat_and, UInt32.toNat_div, hsum]
        change _ &&& (2 ^ 10 - 1) = _
        rw [Nat.and_two_pow_sub_one_eq_mod, Nat.mod_eq_of_lt (by omega)]
        rfl
      xfrsiz := by
        unfold halPcdEpTransmit
        dsimp only
        rw [if_neg hne, UInt32.toNat_and]
        change _ &&& (2 ^ 19 - 1) = _
        rw [Nat.and_two_pow_sub_one_eq_mod, Nat.mod_eq_of_lt hlen.2] }
  · have hunmasked : (halPcdEpTransmit pBuf len s).diepempmsk = true := by
      unfold halPcdEpTransmit
      dsimp only
      rw [if_pos hpos]
    exact absurd (hunmasked.symm.trans hmasked) Bool.false_ne_true.symm

theorem length_packets {n : Nat} (hn : 0 < n) {bs : List UInt8} (hne : bs ≠ []) :
    (packets n bs).length = (bs.length + n - 1) / n := by
  induction bs using packets.induct n with
  | case1 bs h =>
      have hle : bs.length ≤ n := h.resolve_left (Nat.pos_iff_ne_zero.mp hn)
      have hpos : 0 < bs.length := List.length_pos_iff.mpr hne
      rw [packets_of_le hle, List.length_singleton]
      refine (Nat.div_eq_of_lt_le ?_ ?_).symm <;> omega
  | case2 bs h ih =>
      have hlt : n < bs.length := by omega
      have hdrop : (bs.drop n).length = bs.length - n := List.length_drop
      have hrest : bs.drop n ≠ [] := by
        intro hnil
        rw [hnil, List.length_nil] at hdrop
        omega
      rw [packets_of_lt hn hlt, List.length_cons, ih hrest, hdrop,
        ← Nat.add_div_right _ hn]
      congr 1
      omega

/-- Whatever the interrupt finds of room and whenever it comes, the controller finds the packets of
the transfer on the FIFO, in their order and none too many.  Nothing is pushed where there is no
room, the interrupt is masked only when the last packet is there, and where there always is room
there is at most one interrupt more than there are packets. -/
theorem tx_fifo_packets {s t : TxFifo} {mem : Mem} {pBuf : Nat} {len : UInt32}
    {es : List (List UInt32)}
    (hmps : 0 < s.ep.maxpacket.toNat ∧ s.ep.maxpacket.toNat < 65536)
    (hlen : 0 < len.toNat ∧ len.toNat < 2 ^ 19)
    (hcount : (len.toNat + s.ep.maxpacket.toNat - 1) / s.ep.maxpacket.toNat ≤ 1023)
    (hrun : (txFifoMachine mem).run (halPcdEpTransmit pBuf len s) es = some t) :
    let n := s.ep.maxpacket.toNat
    let data := mem.read pBuf len.toNat
    popPackets n t.pushes.length t.xfrsiz.toNat t.words = (packets n data).take t.pushes.length ∧
      t.pushes.length ≤ t.pktcnt.toNat ∧ (packets n data).length = t.pktcnt.toNat ∧
      (t.diepempmsk = false → popPackets n t.pktcnt.toNat t.xfrsiz.toNat t.words = packets n data) ∧
      (∀ a ∈ t.pushes, a.words.length < a.avail.toNat) ∧
      ((∀ reads ∈ es, ∃ avail rest, reads = avail :: rest ∧ (n + 3) / 4 < avail.toNat) →
        es.length ≤ t.pktcnt.toNat + 1) := by
  intro n data
  have hstart := @sound_halPcdEpTransmit _ mem pBuf _ hmps hlen hcount
  obtain ⟨hfilling, hmasked⟩ := hstart.run hrun
  have hpop : popPackets n t.pushes.length t.xfrsiz.toNat t.words =
      (packets n data).take t.pushes.length := by
    rw [hfilling.xfrsiz, hfilling.words, ← List.append_nil (fifoWords ..)]
    exact popPackets_fifoWords hmps.1 hmps.2 hfilling.length_lt []
  have hlength : (packets n data).length = t.pktcnt.toNat := by
    have hread : data.length = len.toNat := Mem.length_read ..
    have hne : data ≠ [] := List.length_pos_iff.mp (hread.symm ▸ hlen.1)
    rw [length_packets hmps.1 hne, hread, hfilling.pktcnt]
    rfl
  refine ⟨hpop, hfilling.pktcnt ▸ hfilling.length_le, hlength, fun hdone => ?_, hfilling.room,
    fun hroomy => ?_⟩
  · rw [hfilling.pktcnt, ← hmasked hdone, hpop, hmasked hdone, ← hfilling.pktcnt, ← hlength,
      List.take_length]
  · have hle := hstart.length_le_interruptsLeft hroomy hrun
    have hbound : interruptsLeft ⟨mem, pBuf, len.toNat, s.ep.maxpacket.toNat, hmps.1, hmps.2,
        hlen.2, hcount⟩ (halPcdEpTransmit pBuf len s) ≤ t.pktcnt.toNat + 1 := by
      rw [hfilling.pktcnt]
      unfold interruptsLeft
      split <;> omega
    omega

/-- Two packets in three interrupts. -/
theorem tx_fifo_packets_two :
    ∃ t, (txFifoMachine Mem.zero).run (halPcdEpTransmit 0 100 { ep := { maxpacket := 64 } })
        [[20, 3], [64, 64], [64]] = some t ∧
      popPackets 64 2 100 t.words = packets 64 (Mem.zero.read 0 100) := by
  obtain ⟨-, -, -, hdone, -, -⟩ :=
    @tx_fifo_packets { ep := { maxpacket := 64 } } _ Mem.zero 0 100 [[20, 3], [64, 64], [64]]
      (by decide) (by decide) (by decide) rfl
  exact ⟨_, rfl, hdone rfl⟩

end TxFifo

end Adhoc
