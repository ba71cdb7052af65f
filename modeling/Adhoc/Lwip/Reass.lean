import Adhoc.Lib.Pieces
import Adhoc.Lib.Machine

/-!
# Reassembly of IP datagrams

`ip_reass` keeps, for each datagram it has fragments of, a `struct ip_reassdata`
with the fragments in the order of their offsets.  There is room for
`IP_REASS_MAX_PBUFS` pbufs and `MEMP_NUM_REASSDATA` datagrams, and the oldest
datagram makes room for others.

`ip_reass_remove_oldest_datagram` hands the last entry but one to
`ip_reass_dequeue_datagram` as the one in front of the oldest.  Where it is not,
an entry that has been freed stays in the list.  `none` stands for that here, and
nothing is said of what follows.

Three things are observed and not stored by the code: the datagrams passed on, the
headers an ICMP message was to be sent about, and how many pbufs were freed.
-/

namespace Adhoc

open EventMachine

/-! ## Headers and fragments -/

/-- `IP_HLEN`. -/
def ipHlen : Nat := 20

/-- `IP_OFFMASK`. -/
def ipOffmask : UInt16 := 0x1FFF

/-- `IP_MF`. -/
def ipMf : UInt16 := 0x2000

/-- `IP_REASS_MAX_PBUFS`. -/
def ipReassMaxPbufs : Nat := 10

/-- `MEMP_NUM_REASSDATA`. -/
def mempNumReassdata : Nat := 5

/-- `IP_REASS_MAXAGE`. -/
def ipReassMaxage : Nat := 3

/-- `struct ip_hdr` without its checksum, in the order of the host. -/
structure IpHdr where
  /-- `IPH_HL`. -/
  hl : UInt8
  tos : UInt8
  len : UInt16
  id : UInt16
  /-- `IPH_OFFSET`, with the flags. -/
  offset : UInt16
  ttl : UInt8
  proto : UInt8
  src : UInt32
  dest : UInt32
deriving DecidableEq, Repr

/-- What `IP_ADDRESSES_AND_ID_MATCH` compares. -/
def IpHdr.key (h : IpHdr) : UInt32 × UInt32 × UInt16 := (h.src, h.dest, h.id)

/-- `IP_ADDRESSES_AND_ID_MATCH`. -/
def ipAddressesAndIdMatch (iphdrA iphdrB : IpHdr) : Bool :=
  iphdrA.src = iphdrB.src ∧ iphdrA.dest = iphdrB.dest ∧ iphdrA.id = iphdrB.id

/-- Where the fragment begins. -/
def IpHdr.fragOffset (h : IpHdr) : UInt16 := (h.offset &&& ipOffmask) * 8

/-- How many octets the header says there are behind it. -/
def IpHdr.payloadLen (h : IpHdr) : UInt16 := h.len - h.hl.toUInt16 * 4

/-- A fragment, in a chain of pbufs. -/
structure IpFragment where
  hdr : IpHdr
  /-- The octets behind the header. -/
  payload : List UInt8
  /-- `pbuf_clen`. -/
  clen : Nat
deriving DecidableEq

/-- `struct ip_reass_helper`, with the pbufs whose header it takes the place of. -/
structure ReassFrag where
  start : UInt16
  /-- `end`. -/
  stop : UInt16
  payload : List UInt8
  clen : Nat
deriving DecidableEq

/-- The helper structure of a fragment. -/
def IpFragment.helper (p : IpFragment) : ReassFrag where
  start := p.hdr.fragOffset
  stop := p.hdr.fragOffset + p.hdr.payloadLen
  payload := p.payload
  clen := p.clen

/-- `struct ip_reassdata`. -/
structure ReassData where
  p : List ReassFrag := []
  iphdr : IpHdr
  datagramLen : UInt16 := 0
  /-- `IP_REASS_FLAG_LASTFRAG` of `flags`. -/
  lastfrag : Bool := false
  timer : Nat := ipReassMaxage

/-- The number of pbufs of a datagram. -/
def ReassData.clen (ipr : ReassData) : Nat := (ipr.p.map ReassFrag.clen).sum

/-- A datagram that has been put together. -/
structure IpDatagram where
  hdr : IpHdr
  payload : List UInt8
  clen : Nat
deriving DecidableEq

/-- The state of the reassembly. -/
structure Reass where
  reassdatagrams : List ReassData := []
  pbufcount : Nat := 0
  delivered : List IpDatagram := []
  expired : List IpHdr := []
  freed : Nat := 0

/-! ## Making room -/

/-- `ip_reass_dequeue_datagram`, with the places of both entries in the list. -/
def ipReassDequeueDatagram (ipr : Nat) (prev : Option Nat) (l : List ReassData) :
    Option (List ReassData) :=
  if ipr = 0 then some l.tail
  else
    match prev with
    | some j => if j + 1 = ipr then some (l.eraseIdx ipr) else none
    | none => none

/-- The header an ICMP message is to be sent about, if the first fragment has come. -/
def ReassData.timeExceeded (ipr : ReassData) : List IpHdr :=
  if ipr.p.head?.any fun q => q.start = 0 then [ipr.iphdr] else []

/-- `ip_reass_free_complete_datagram`. -/
def ipReassFreeCompleteDatagram (i : Nat) (ipr : ReassData) (prev : Option Nat) (s : Reass) :
    Option (Nat × Reass) :=
  (ipReassDequeueDatagram i prev s.reassdatagrams).map fun l =>
    (ipr.clen, { s with
      reassdatagrams := l
      pbufcount := s.pbufcount - ipr.clen
      expired := s.expired ++ ipr.timeExceeded
      freed := s.freed + ipr.clen })

/-- The oldest datagram the fragment does not belong to, with its place, from the one found so
far. -/
def findOldest (fraghdr : IpHdr) :
    Nat → Option (Nat × ReassData) → List ReassData → Option (Nat × ReassData)
  | _, oldest, [] => oldest
  | i, oldest, r :: rs =>
      if ipAddressesAndIdMatch r.iphdr fraghdr then findOldest fraghdr (i + 1) oldest rs
      else
        match oldest with
        | none => findOldest fraghdr (i + 1) (some (i, r)) rs
        | some (j, o) =>
            findOldest fraghdr (i + 1) (if r.timer ≤ o.timer then some (i, r) else some (j, o)) rs

/-- The last entry that has a next one. -/
def lastWithNext (l : List ReassData) : Option Nat :=
  if l.length < 2 then none else some (l.length - 2)

/-- The datagrams the fragment does not belong to. -/
def otherDatagrams (fraghdr : IpHdr) (l : List ReassData) : Nat :=
  (l.filter fun r => !ipAddressesAndIdMatch r.iphdr fraghdr).length

/-- The loop of `ip_reass_remove_oldest_datagram`, for as many times as there are datagrams. -/
def removeOldestLoop (fraghdr : IpHdr) (pbufsNeeded : Nat) :
    Nat → Nat → Reass → Option (Nat × Reass)
  | 0, pbufsFreed, s => some (pbufsFreed, s)
  | k + 1, pbufsFreed, s =>
      match findOldest fraghdr 0 none s.reassdatagrams with
      | none => some (pbufsFreed, s)
      | some (i, oldest) =>
          (ipReassFreeCompleteDatagram i oldest (lastWithNext s.reassdatagrams) s).bind
            fun (current, t) =>
              if pbufsFreed + current < pbufsNeeded ∧
                  otherDatagrams fraghdr s.reassdatagrams > 1 then
                removeOldestLoop fraghdr pbufsNeeded k (pbufsFreed + current) t
              else some (pbufsFreed + current, t)

/-- `ip_reass_remove_oldest_datagram`. -/
def ipReassRemoveOldestDatagram (fraghdr : IpHdr) (pbufsNeeded : Nat) (s : Reass) :
    Option (Nat × Reass) :=
  removeOldestLoop fraghdr pbufsNeeded (s.reassdatagrams.length + 1) 0 s

/-- `ip_reass_enqueue_new_datagram`.  The entry is put in front of the list, where there is one. -/
def ipReassEnqueueNewDatagram (fraghdr : IpHdr) (clen : Nat) (s : Reass) :
    Option (Bool × Reass) :=
  let enqueue (s : Reass) : Reass :=
    { s with reassdatagrams := { iphdr := fraghdr } :: s.reassdatagrams }
  if s.reassdatagrams.length < mempNumReassdata then some (true, enqueue s)
  else
    (ipReassRemoveOldestDatagram fraghdr clen s).map fun (pbufsFreed, t) =>
      if pbufsFreed ≥ clen ∧ t.reassdatagrams.length < mempNumReassdata then (true, enqueue t)
      else (false, t)

/-! ## Putting a fragment in its place -/

/-- The loop of `ip_reass_chain_frag_into_datagram_and_validate`, from the fragment in front and
what is valid so far.  It yields the fragments, whether they are valid, and those behind the new
one, or nothing where the new one is thrown away. -/
def chainFrag (new : ReassFrag) :
    Option ReassFrag → Bool → List ReassFrag → Option (List ReassFrag × Bool × List ReassFrag)
  | none, valid, [] => some ([new], valid, [])
  | some prev, valid, [] => some ([new], if prev.stop ≠ new.start then false else valid, [])
  | prev, valid, q :: qs =>
      if new.start < q.start then
        match prev with
        | some prev =>
            if new.start < prev.stop ∨ new.stop > q.start then none
            else some (new :: q :: qs, valid, q :: qs)
        | none => some (new :: q :: qs, valid, q :: qs)
      else if new.start = q.start then none
      else if new.start < q.stop then none
      else
        let valid :=
          match prev with
          | some prev => if prev.stop ≠ q.start then false else valid
          | none => valid
        (chainFrag new (some q) valid qs).map fun (l, rest) => (q :: l, rest)

/-- The loop over the fragments behind the new one. -/
def noHolesAfter : ReassFrag → List ReassFrag → Bool
  | _, [] => true
  | prev, q :: qs => if prev.stop ≠ q.start then false else noHolesAfter q qs

/-- `ip_reass_chain_frag_into_datagram_and_validate`: the fragments, and whether they are a
datagram. -/
def chainFragAndValidate (ipr : ReassData) (new : ReassFrag) : Option (List ReassFrag × Bool) :=
  (chainFrag new none true ipr.p).map fun (p, valid, rest) =>
    (p, ipr.lastfrag && (valid && (p.head?.any fun q => q.start = 0) && noHolesAfter new rest))

/-! ## Taking a fragment -/

/-- What the header of a fragment changes in the entry of its datagram. -/
def ReassData.noteHeader (fraghdr : IpHdr) (ipr : ReassData) : ReassData :=
  let iphdr :=
    if fraghdr.offset &&& ipOffmask = 0 ∧ ipr.iphdr.offset &&& ipOffmask ≠ 0 then fraghdr
    else ipr.iphdr
  if fraghdr.offset &&& ipMf = 0 then
    { ipr with
      iphdr := iphdr
      lastfrag := true
      datagramLen := fraghdr.fragOffset + fraghdr.payloadLen }
  else { ipr with iphdr := iphdr }

/-- The datagram an entry is put together to. -/
def ReassData.datagram (ipr : ReassData) : IpDatagram where
  hdr := { ipr.iphdr with len := ipr.datagramLen + .ofNat ipHlen, offset := 0 }
  payload := ipr.p.flatMap ReassFrag.payload
  clen := ipr.clen

/-- A fragment is thrown away. -/
def Reass.drop (p : IpFragment) (s : Reass) : Reass := { s with freed := s.freed + p.clen }

/-- The rest of `ip_reass`, with the place of the entry in the list.  The entry in front of it is
known, so that it can be taken out. -/
def ipReassTake (p : IpFragment) (i : Nat) (s : Reass) : Reass :=
  match s.reassdatagrams[i]? with
  | none => s
  | some ipr =>
      let ipr := ipr.noteHeader p.hdr
      match chainFragAndValidate ipr p.helper with
      | none =>
          { s with
            reassdatagrams := s.reassdatagrams.set i ipr
            freed := s.freed + p.clen }
      | some (frags, false) =>
          { s with
            reassdatagrams := s.reassdatagrams.set i { ipr with p := frags }
            pbufcount := s.pbufcount + p.clen }
      | some (frags, true) =>
          let d := { ipr with p := frags }.datagram
          { s with
            reassdatagrams := s.reassdatagrams.eraseIdx i
            pbufcount := s.pbufcount + p.clen - d.clen
            delivered := s.delivered ++ [d] }

/-- There is room for the pbufs of a fragment, or room has been made. -/
def makeRoom (p : IpFragment) (s : Reass) : Option (Bool × Reass) :=
  if s.pbufcount + p.clen > ipReassMaxPbufs then
    (ipReassRemoveOldestDatagram p.hdr p.clen s).map fun (pbufsFreed, t) =>
      (decide (pbufsFreed ≠ 0) && decide (t.pbufcount + p.clen ≤ ipReassMaxPbufs), t)
  else some (true, s)

/-- `ip_reass`. -/
def ipReass (p : IpFragment) (s : Reass) : Option Reass :=
  if p.hdr.hl.toNat * 4 ≠ ipHlen then some (s.drop p)
  else
    (makeRoom p s).bind fun (room, s) =>
      if !room then some (s.drop p)
      else
        match s.reassdatagrams.findIdx? fun ipr => ipAddressesAndIdMatch ipr.iphdr p.hdr with
        | some i => some (ipReassTake p i s)
        | none =>
            (ipReassEnqueueNewDatagram p.hdr p.clen s).map fun (enqueued, s) =>
              if enqueued then ipReassTake p 0 s else s.drop p

/-- `ip_reass_tmr`. -/
def ipReassTmr (s : Reass) : Reass :=
  let timedOut := s.reassdatagrams.filter fun r => r.timer = 0
  { s with
    reassdatagrams := (s.reassdatagrams.filter fun r => r.timer ≠ 0).map fun r =>
      { r with timer := r.timer - 1 }
    pbufcount := s.pbufcount - (timedOut.map ReassData.clen).sum
    expired := s.expired ++ timedOut.flatMap ReassData.timeExceeded
    freed := s.freed + (timedOut.map ReassData.clen).sum }

end Adhoc
