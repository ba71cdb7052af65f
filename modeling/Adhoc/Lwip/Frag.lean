import Adhoc.Lwip.Chaining

/-!
# Cutting an IP datagram

`ip_frag` sends a datagram that is longer than the MTU in fragments.  Each is a header in
a pbuf of its own, with pbufs behind it that point into the chain of the datagram.  The
chain is walked once, and the part of a pbuf that was sent is cut off its front.
-/

namespace Adhoc

open Pieces

/-- `p->payload` and `p->len` of the first pbuf are moved. -/
def dropHead {α : Type} : Nat → List (List α) → List (List α)
  | _, [] => []
  | n, p :: ps => p.drop n :: ps

/-- The loop that mirrors `left_to_copy` octets of a chain: the pbufs, the length of the last one,
and the chain from the pbuf it points into.  The chain is not to end before. -/
def mirrorPbufs : Nat → List (List UInt8) → Option (List (List UInt8) × Nat × List (List UInt8))
  | _, [] => none
  | leftToCopy, p :: ps =>
      let newpbuflen := if leftToCopy < p.length then leftToCopy else p.length
      if newpbuflen = 0 then mirrorPbufs leftToCopy ps
      else if leftToCopy - newpbuflen = 0 then
        some ([p.take newpbuflen], newpbuflen, p :: ps)
      else
        (mirrorPbufs (leftToCopy - newpbuflen) ps).map fun (ms, n, rest) =>
          (p.take newpbuflen :: ms, n, rest)

section Frag

variable (mtu : Nat) (iphdr : IpHdr) (omf : UInt16) (room : Nat → Bool)

/-- The loop of `ip_frag`, with the pbufs of the `i`-th fragment to be had where there is `room`:
the fragments that were sent, and whether they are all, for `ERR_OK`, or not, for `ERR_MEM`.  It
does not end where no octet of a fragment fits the MTU. -/
def ipFragLoop : Nat → Nat → UInt16 → Nat → Nat → List (List UInt8) →
    Option (Bool × List IpFragment)
  | 0, _, _, left, _, _ => if left = 0 then some (true, []) else none
  | fuel + 1, i, ofo, left, poff, ps =>
      if left = 0 then some (true, [])
      else
        let nfb := (mtu - ipHlen) / 8
        let last := decide (left ≤ mtu - ipHlen)
        let tmp := omf ||| (ipOffmask &&& ofo)
        let tmp := if last then tmp else tmp ||| ipMf
        let cop := if last then left else nfb * 8
        if cop = 0 then none
        else if room i then
          (mirrorPbufs cop (dropHead poff ps)).bind fun (ms, newpbuflen, ps) =>
            let f : IpFragment :=
              { hdr := { iphdr with len := .ofNat (cop + ipHlen), offset := tmp }
                payload := ms.flatten
                clen := ms.length + 1 }
            (ipFragLoop fuel (i + 1) (ofo + .ofNat nfb) (left - cop) newpbuflen ps).map
              fun (ok, fs) => (ok, f :: fs)
        else some (false, [])

end Frag

/-- `ip_frag`.  The chain has the header in front. -/
def ipFrag (mtu : Nat) (iphdr : IpHdr) (room : Nat → Bool) (p : List (List UInt8)) :
    Option (Bool × List IpFragment) :=
  let left := p.flatten.length - ipHlen
  ipFragLoop mtu iphdr (iphdr.offset &&& ipMf) room left 0 (iphdr.offset &&& ipOffmask) left ipHlen
    p

/-- The fragments of some octets that begin at `k`. -/
structure CutFrom (iphdr : IpHdr) (mtu k : Nat) (octets : List UInt8) (fs : List IpFragment) :
    Prop where
  flat : fs.flatMap IpFragment.payload = octets
  seamless : Seamless (fun f => f.helper.lo) (fun f => f.helper.hi) fs
  start : ∀ f ∈ fs.head?, f.helper.lo = k
  stop : ∀ f ∈ fs.getLast?, f.helper.hi = k + octets.length
  hi : ∀ f ∈ fs, f.helper.hi = f.helper.lo + f.payload.length
  pos : ∀ f ∈ fs, 0 < f.payload.length
  hdr : ∀ f ∈ fs, f.hdr =
    { iphdr with len := .ofNat (f.payload.length + ipHlen), offset := f.hdr.offset }
  size : ∀ f ∈ fs, f.payload.length + ipHlen ≤ mtu
  last : ∀ f ∈ fs, f.hdr.offset &&& ipMf = 0 ↔ f ∈ fs.getLast?
  count : ∀ n, fs.length ≤ n + 1 ↔
    octets.length ≤ n * ((mtu - ipHlen) / 8 * 8) + (mtu - ipHlen)

section Mirror

variable {left : Nat} {ps : List (List UInt8)}

/-- What is mirrored is the front of the chain, and what is left is the rest. -/
theorem mirrorPbufs_spec (hpos : 0 < left) (hle : left ≤ ps.flatten.length) :
    ∃ ms n rest, mirrorPbufs left ps = some (ms, n, rest) ∧ ms.flatten = ps.flatten.take left ∧
      (dropHead n rest).flatten = ps.flatten.drop left := by
  induction ps generalizing left with
  | nil => exact absurd hle (by simpa using Nat.ne_of_gt hpos)
  | cons p ps ih =>
      rw [List.flatten_cons, List.length_append] at hle
      rw [mirrorPbufs, List.flatten_cons]
      by_cases hshort : left < p.length
      · have hne : left ≠ 0 := Nat.ne_of_gt hpos
        simp only [if_pos hshort, if_neg hne, Nat.sub_self, if_true]
        refine ⟨_, _, _, rfl, ?_, ?_⟩
        · simp [List.take_append_of_le_length (Nat.le_of_lt hshort)]
        · simp [dropHead, List.drop_append_of_le_length (Nat.le_of_lt hshort)]
      · simp only [if_neg hshort]
        rw [List.take_append, List.drop_append, List.take_of_length_le (Nat.le_of_not_lt hshort),
          List.drop_of_length_le (Nat.le_of_not_lt hshort), List.nil_append]
        by_cases hnil : p.length = 0
        · obtain rfl := List.length_eq_zero_iff.mp hnil
          exact ih hpos (by simpa using hle)
        · rw [if_neg hnil]
          by_cases hall : left - p.length = 0
          · rw [if_pos hall, hall]
            refine ⟨_, _, _, rfl, ?_, ?_⟩
            · simp
            · simp [dropHead]
          · rw [if_neg hall]
            obtain ⟨ms, n, rest, hmirror, hms, hrest⟩ := ih (Nat.pos_of_ne_zero hall) (by omega)
            refine ⟨p.take p.length :: ms, n, rest, by rw [hmirror]; rfl, ?_, hrest⟩
            rw [List.flatten_cons, hms, List.take_length]

end Mirror

theorem or_and_ipMf (a b : UInt16) : (a ||| b) &&& ipMf = (a &&& ipMf) ||| (b &&& ipMf) :=
  UInt16.toBitVec_inj.1 BitVec.and_or_distrib_right

theorem or_and_ipOffmask (a b : UInt16) :
    (a ||| b) &&& ipOffmask = (a &&& ipOffmask) ||| (b &&& ipOffmask) :=
  UInt16.toBitVec_inj.1 BitVec.and_or_distrib_right

/-- What `ip_frag` makes of an offset is read back from it. -/
theorem offset_read {ofo : UInt16} (h : ofo.toNat < 0x2000) (last : Bool) :
    (if last then 0 ||| (ipOffmask &&& ofo) else 0 ||| (ipOffmask &&& ofo) ||| ipMf) &&& ipOffmask =
        ofo ∧
      ((if last then 0 ||| (ipOffmask &&& ofo) else 0 ||| (ipOffmask &&& ofo) ||| ipMf) &&&
        ipMf = 0 ↔ last = true) := by
  have hofo : ofo &&& ipOffmask = ofo := by
    rw [← UInt16.toNat_inj, UInt16.toNat_and]
    change ofo.toNat &&& (2 ^ 13 - 1) = ofo.toNat
    rw [Nat.and_two_pow_sub_one_eq_mod]
    exact Nat.mod_eq_of_lt h
  have hmf : ofo &&& ipMf = 0 := by
    rw [← hofo, UInt16.and_assoc]
    exact UInt16.and_zero
  rw [UInt16.and_comm ipOffmask, hofo, UInt16.zero_or]
  cases last with
  | true => exact ⟨hofo, iff_of_true hmf rfl⟩
  | false =>
      simp only [Bool.false_eq_true, if_false, or_and_ipMf, or_and_ipOffmask, hofo, hmf]
      exact ⟨UInt16.or_zero, iff_of_false (by decide) not_false⟩

section Loop

variable {mtu k : Nat} {iphdr : IpHdr} {room : Nat → Bool} {ps : List (List UInt8)}
  {octets front back : List UInt8} {fs : List IpFragment} {f : IpFragment}

theorem CutFrom.nil : CutFrom iphdr mtu k [] [] :=
  ⟨rfl, .nil, nofun, nofun, nofun, nofun, nofun, nofun, nofun,
    fun _ => iff_of_true (Nat.zero_le _) (Nat.zero_le _)⟩

theorem CutFrom.eq_nil_iff (h : CutFrom iphdr mtu k octets fs) : octets = [] ↔ fs = [] := by
  rw [← h.flat, List.flatMap_eq_nil_iff]
  refine ⟨fun hnil => List.eq_nil_iff_forall_not_mem.mpr fun f hf => ?_, fun hnil => by simp [hnil]⟩
  exact Nat.ne_of_gt (h.pos f hf) (List.length_eq_zero_iff.mpr (hnil f hf))

/-- A fragment in front of the others. -/
theorem CutFrom.cons (h : CutFrom iphdr mtu (k + f.payload.length) back fs)
    (hlo : f.helper.lo = k) (hhi : f.helper.hi = k + f.payload.length)
    (hpos : 0 < f.payload.length)
    (hhdr : f.hdr =
      { iphdr with len := .ofNat (f.payload.length + ipHlen), offset := f.hdr.offset })
    (hsize : f.payload.length + ipHlen ≤ mtu) (hlast : f.hdr.offset &&& ipMf = 0 ↔ back = [])
    (hfull : back ≠ [] → f.payload.length = (mtu - ipHlen) / 8 * 8 ∧
      mtu - ipHlen < f.payload.length + back.length) :
    CutFrom iphdr mtu k (f.payload ++ back) (f :: fs) where
  flat := by rw [List.flatMap_cons, h.flat]
  seamless := List.isChain_cons.mpr ⟨fun g hg => hhi.trans (h.start g hg).symm, h.seamless⟩
  start g hg := Option.some.inj hg ▸ hlo
  stop g hg := by
    rw [List.length_append, ← Nat.add_assoc]
    cases fs with
    | nil =>
        rw [h.eq_nil_iff.mpr rfl, ← Option.some.inj hg]
        exact hhi
    | cons x fs => exact h.stop g (by rwa [List.getLast?_cons_cons] at hg)
  hi := List.forall_mem_cons.mpr ⟨hlo ▸ hhi, h.hi⟩
  pos := List.forall_mem_cons.mpr ⟨hpos, h.pos⟩
  hdr := List.forall_mem_cons.mpr ⟨hhdr, h.hdr⟩
  size := List.forall_mem_cons.mpr ⟨hsize, h.size⟩
  last g hg := by
    cases fs with
    | nil =>
        rw [List.mem_singleton.mp hg]
        exact iff_of_true (hlast.mpr (h.eq_nil_iff.mpr rfl)) rfl
    | cons x fs =>
        rw [List.getLast?_cons_cons]
        rcases List.mem_cons.mp hg with rfl | hg
        · refine iff_of_false (hlast.not.mpr (h.eq_nil_iff.not.mpr (List.cons_ne_nil _ _))) ?_
          intro hlast'
          have hmem := List.mem_of_getLast? hlast'
          exact absurd ((h.last g hmem).mpr hlast')
            (hlast.not.mpr (h.eq_nil_iff.not.mpr (List.cons_ne_nil _ _)))
        · exact h.last g hg
  count n := by
    rw [List.length_cons, List.length_append]
    by_cases hback : back = []
    · simp only [hback, h.eq_nil_iff.mp hback, List.length_nil]
      exact iff_of_true (by omega) (Nat.le_add_left_of_le (by omega))
    · obtain ⟨hlen, hmore⟩ := hfull hback
      cases n with
      | zero =>
          have hne := List.length_pos_iff.mpr (h.eq_nil_iff.not.mp hback)
          exact iff_of_false (by omega) (by omega)
      | succ n =>
          rw [Nat.succ_le_succ_iff, h.count n, Nat.succ_mul, ← hlen]
          omega

theorem payloadLen_of_len (hhl : f.hdr.hl = 5)
    (hlen : f.hdr.len = .ofNat (f.payload.length + ipHlen))
    (hlt : f.payload.length + ipHlen < 0x10000) : f.hdr.payloadLen.toNat = f.payload.length := by
  rw [IpHdr.payloadLen, hhl, hlen, UInt16.ofNat_add]
  change (UInt16.ofNat f.payload.length + UInt16.ofNat ipHlen - UInt16.ofNat ipHlen).toNat = _
  rw [UInt16.add_sub_cancel]
  exact UInt16.toNat_ofNat_of_lt' (by change _ < 65536; omega)

/-- Where a fragment begins and ends is read back from its header. -/
theorem helper_of_offset {ofo : UInt16} (hhl : f.hdr.hl = 5)
    (hoff : f.hdr.offset &&& ipOffmask = ofo)
    (hlen : f.hdr.len = .ofNat (f.payload.length + ipHlen))
    (hk : ofo.toNat * 8 + f.payload.length + ipHlen < 0x10000) :
    f.helper.lo = ofo.toNat * 8 ∧ f.helper.hi = ofo.toNat * 8 + f.payload.length := by
  have hlo : f.hdr.fragOffset.toNat = ofo.toNat * 8 := by
    rw [IpHdr.fragOffset, hoff, UInt16.toNat_mul]
    exact Nat.mod_eq_of_lt (by change ofo.toNat * 8 < 65536; omega)
  have hpayload := payloadLen_of_len hhl hlen (by omega)
  refine ⟨hlo, ?_⟩
  change (f.hdr.fragOffset + f.hdr.payloadLen).toNat = _
  rw [UInt16.toNat_add, hlo, hpayload]
  omega

/-- The fragments of what is left. -/
theorem ipFragLoop_spec {fuel i poff : Nat} {ofo : UInt16} (hhl : iphdr.hl = 5)
    (hmtu : ipHlen + 8 ≤ mtu)
    (hps : (dropHead poff ps).flatten = octets) (hofo : ofo.toNat * 8 = k)
    (hk : k + octets.length + ipHlen < 0x10000) (hfuel : octets.length ≤ fuel) :
    ∃ ok fs, ipFragLoop mtu iphdr 0 room fuel i ofo octets.length poff ps = some (ok, fs) ∧
      (ok = true → CutFrom iphdr mtu k octets fs) ∧ ((∀ j, room j = true) → ok = true) := by
  induction fuel generalizing i poff ofo ps octets k with
  | zero =>
      obtain rfl := List.length_eq_zero_iff.mp (Nat.le_zero.mp hfuel)
      exact ⟨true, [], rfl, fun _ => .nil, fun _ => rfl⟩
  | succ fuel ih =>
      rw [ipFragLoop]
      split
      next hnil =>
        obtain rfl := List.length_eq_zero_iff.mp hnil
        exact ⟨true, [], rfl, fun _ => .nil, fun _ => rfl⟩
      next hne =>
        -- The octets that go into the fragment, all that are left or as many as fit.
        obtain ⟨last, hlast⟩ : ∃ last, last = decide (octets.length ≤ mtu - ipHlen) := ⟨_, rfl⟩
        obtain ⟨cop, hcop⟩ : ∃ cop,
          cop = if last = true then octets.length else (mtu - ipHlen) / 8 * 8 := ⟨_, rfl⟩
        obtain ⟨hpos, hle, hfit, hall, hmore⟩ : 0 < cop ∧ cop ≤ octets.length ∧ cop + ipHlen ≤ mtu ∧
            (last = true ↔ cop = octets.length) ∧
              (last = false → cop = (mtu - ipHlen) / 8 * 8) := by
          cases last with
          | true =>
              have hlen := of_decide_eq_true hlast.symm
              rw [if_pos rfl] at hcop
              exact ⟨by omega, by omega, by omega, by simp [hcop], nofun⟩
          | false =>
              have hlen := of_decide_eq_false hlast.symm
              rw [if_neg Bool.false_ne_true] at hcop
              refine ⟨by omega, by omega, by omega, ?_, fun _ => hcop⟩
              exact iff_of_false Bool.false_ne_true (by omega)
        have hofo' : ofo.toNat < 0x2000 := by omega
        obtain ⟨hoff, hmf⟩ := offset_read hofo' last
        simp only [← hlast, ← hcop, if_neg (Nat.ne_of_gt hpos)]
        by_cases hroom : room i = true
        · rw [if_pos hroom]
          obtain ⟨ms, n, rest, hmirror, hms, hrest⟩ := mirrorPbufs_spec hpos (hps ▸ hle)
          rw [hps] at hms hrest
          rw [hmirror, Option.bind_some]
          have hlen : ms.flatten.length = cop := by rw [hms, List.length_take_of_le hle]
          have hback : (octets.drop cop).length = octets.length - cop := List.length_drop
          obtain ⟨ok, fs, hloop, hcut, hok⟩ : ∃ ok fs,
              ipFragLoop mtu iphdr 0 room fuel (i + 1) (ofo + .ofNat ((mtu - ipHlen) / 8))
                  (octets.length - cop) n rest = some (ok, fs) ∧
                (ok = true → CutFrom iphdr mtu (k + cop) (octets.drop cop) fs) ∧
                ((∀ j, room j = true) → ok = true) := by
            cases last with
            | true =>
                rw [← hback, List.drop_of_length_le (Nat.le_of_eq (hall.mp rfl).symm)]
                refine ⟨true, [], ?_, fun _ => .nil, fun _ => rfl⟩
                cases fuel <;> simp [ipFragLoop]
            | false =>
                rw [← hback]
                refine ih hrest ?_ (by omega) (by omega)
                have hcop' := hmore rfl
                have hstep : (UInt16.ofNat ((mtu - ipHlen) / 8)).toNat = (mtu - ipHlen) / 8 :=
                  UInt16.toNat_ofNat_of_lt' (by change _ < 65536; omega)
                rw [UInt16.toNat_add, hstep]
                omega
          refine ⟨ok, _, by rw [hloop, Option.map_some], fun htrue => ?_, hok⟩
          rw [← List.take_append_drop cop octets, ← hms]
          rw [← hlen] at hcut hpos hfit hall hmore ⊢
          generalize hf : IpFragment.mk _ _ _ = f
          have hpayload : f.payload = ms.flatten := hf ▸ rfl
          rw [← hpayload] at hcut hpos hfit hall hmore hlen ⊢
          have hoff' : f.hdr.offset &&& ipOffmask = ofo := by
            rw [← hf]
            exact hoff
          have hlenf : f.hdr.len = .ofNat (f.payload.length + ipHlen) := by rw [hpayload, ← hf]
          have hhlf : f.hdr.hl = 5 := by
            rw [← hf]
            exact hhl
          obtain ⟨hlo, hhi⟩ := helper_of_offset hhlf hoff' hlenf (by omega)
          have hmf' : f.hdr.offset &&& ipMf = 0 ↔ last = true := by
            rw [← hf]
            exact hmf
          have hnil : last = true ↔ octets.drop f.payload.length = [] := by
            rw [hall, List.drop_eq_nil_iff]
            omega
          refine (hcut htrue).cons (hlo.trans hofo) (by omega) hpos (by rw [hpayload, ← hf]) hfit
            (hmf'.trans hnil) fun hback => ?_
          have hlast' : last = false := Bool.eq_false_iff.mpr (hnil.not.mpr hback)
          have hlonger := of_decide_eq_false (hlast.symm.trans hlast')
          rw [List.length_drop]
          exact ⟨hmore hlast', by omega⟩
        · rw [if_neg hroom]
          exact ⟨false, [], rfl, nofun, fun hall => absurd (hall i) hroom⟩

/-- What `ip_frag` cuts is cut as a sender is to cut it. -/
theorem ipFrag_spec {p : List UInt8} (hmtu : ipHlen + 8 ≤ mtu) (hhl : iphdr.hl = 5)
    (hoffset : iphdr.offset = 0) (hp : ipHlen ≤ p.length)
    (hlen : iphdr.len.toNat = (p :: ps).flatten.length) :
    ∃ ok fs, ipFrag mtu iphdr room (p :: ps) = some (ok, fs) ∧
      (ok = true → CutFrom iphdr mtu 0 ((p :: ps).flatten.drop ipHlen) fs) ∧
      ((∀ j, room j = true) → ok = true) := by
  have hoctets : (dropHead ipHlen (p :: ps)).flatten = (p :: ps).flatten.drop ipHlen := by
    rw [dropHead, List.flatten_cons, List.flatten_cons, List.drop_append_of_le_length hp]
  have hlt := iphdr.len.toNat_lt
  have hlength : ipHlen ≤ (p :: ps).flatten.length := by
    rw [List.flatten_cons, List.length_append]
    omega
  rw [ipFrag, hoffset, ← List.length_drop]
  exact ipFragLoop_spec hhl hmtu hoctets rfl (by rw [List.length_drop]; omega) (Nat.le_refl _)

end Loop

end Adhoc
